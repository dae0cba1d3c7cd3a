import JavaPrimer.Proofs.CleanReading
import JavaPrimer.Proofs.DerivedExpr
import JavaPrimer.Proofs.ReadBackTree

/-!
# The language that the parser accepts

The parser has no complaints about exactly those lists of tokens that the rule table derives, once
the gate of the print statement and the condition on assignment targets are added to it. Both
directions go through the trees: a parse without complaints is the reading of its tokens, a list
that some tree is read from is parsed into that tree, and the table derives exactly what trees are
read from.

* `JavaRules.derives_statement_iff`, `JavaRules.derives_classDecl_iff` — the table derives what trees
  are read from;
* `diagnostics_eq_nil_iff_derives` — whole lists of tokens.
-/

namespace JavaPrimer

namespace JavaRules

open Grammar

variable {ts : List Token}

/-! ### Parts of declarations -/

theorem mem_typeKinds {k : Kind} : k ∈ Kind.kwString :: primitiveKinds ↔ k.isTypeWord = true := by
  rw [List.mem_cons, mem_primitiveKinds, Kind.isTypeWord, Bool.or_eq_true, beq_iff_eq]

theorem derives_typeSpec_iff :
    javaGrammar.Derives Admitted (.ref "typeSpec") ts ↔ ∃ x : TypeSpec, x.ReadFrom ts := by
  rw [derives_single freeElsewhere_admitted rfl (by decide) (by decide), derivesAll_anyOf_cons]
  simp only [derivesAll_singleton, derives_opt, derivesAll_tok_cons, derives_tok, mem_typeKinds]
  constructor
  · intro h
    obtain ⟨w, us, rfl, hw, rfl | ⟨l, vs, rfl, hl, r, rfl, hr⟩⟩ := h
    · exact ⟨⟨.nowhere, w.value, false⟩, w, [], rfl, hw, rfl, rfl⟩
    · exact ⟨⟨.nowhere, w.value, true⟩, w, [l, r], rfl, hw, rfl, by simp [hl, hr]⟩
  · intro h
    obtain ⟨x, w, bs, rfl, hw, -, hbs⟩ := h
    refine ⟨w, bs, rfl, hw, ?_⟩
    cases harr : x.isArray with
    | false =>
      rw [harr] at hbs
      exact .inl (List.map_eq_nil_iff.1 hbs)
    | true =>
      rw [harr] at hbs
      obtain ⟨l, bs, rfl, hl, hbs⟩ := List.map_eq_cons_iff.1 hbs
      obtain ⟨r, bs, rfl, hr, hbs⟩ := List.map_eq_cons_iff.1 hbs
      obtain rfl : bs = [] := List.map_eq_nil_iff.1 hbs
      exact .inr ⟨l, [r], rfl, hl, r, rfl, hr⟩

theorem derives_init_iff :
    javaGrammar.Derives Admitted (.opt [tok .equals, .ref "expression"]) ts
      ↔ ∃ init : Expr, init.ReadAsInit ts := by
  rw [derives_opt, derivesAll_tok_cons]
  simp only [derivesAll_singleton, derives_expression_iff freeElsewhere_admitted]
  constructor
  · intro h
    rcases h with rfl | ⟨q, us, rfl, hq, e, he⟩
    · exact ⟨.missing, .inl ⟨rfl, rfl⟩⟩
    · exact ⟨e, .inr ⟨q, us, rfl, hq, he⟩⟩
  · intro h
    obtain ⟨init, ⟨-, rfl⟩ | ⟨q, us, rfl, hq, he⟩⟩ := h
    · exact .inl rfl
    · exact .inr ⟨q, us, rfl, hq, init, he⟩

theorem derivesAll_declared_iff :
    javaGrammar.DerivesAll Admitted
        [.ref "typeSpec", tok .ident, .opt [tok .equals, .ref "expression"], tok .semi] ts
      ↔ ∃ type name init, ReadAsDeclared type name init ts := by
  rw [derivesAll_cons]
  simp only [derives_typeSpec_iff, derivesAll_tok_cons, derivesAll_then_tok, derives_init_iff]
  constructor
  · intro h
    obtain ⟨ws, vs, rfl, ⟨type, htype⟩, x, us, rfl, hx, us, q, rfl, ⟨init, hinit⟩, hq⟩ := h
    exact ⟨some type, ⟨x.value, .nowhere⟩, init, ws, x, us, q, rfl, ⟨type, rfl, htype⟩, ⟨hx, rfl⟩,
      hinit, hq⟩
  · intro h
    obtain ⟨type, name, init, ws, x, us, q, rfl, ⟨t, -, ht⟩, hx, hinit, hq⟩ := h
    exact ⟨ws, _, rfl, ⟨t, ht⟩, x, _, rfl, hx.1, us, q, rfl, ⟨init, hinit⟩, hq⟩

/-! ### Statements that hold expressions -/

theorem derives_varDecl_iff :
    javaGrammar.Derives Admitted (.ref "varDecl") ts
      ↔ ∃ isFinal type name init, (Stmt.varDecl .nowhere isFinal type name init).ReadFrom ts := by
  rw [derives_single freeElsewhere_admitted rfl (by decide) (by decide), derivesAll_cons]
  simp only [derivesAll_declared_iff, derives_opt, derivesAll_singleton, derives_tok]
  constructor
  · intro h
    obtain ⟨fs, us, rfl, rfl | ⟨f, rfl, hf⟩, type, name, init, hdecl⟩ := h
    · exact ⟨false, type, name, init, [], us, rfl, rfl, hdecl⟩
    · exact ⟨true, type, name, init, [f], us, rfl, by simp [hf], hdecl⟩
  · intro h
    obtain ⟨isFinal, type, name, init, fs, us, rfl, hfs, hdecl⟩ := h
    refine ⟨fs, us, rfl, ?_, type, name, init, hdecl⟩
    cases isFinal with
    | false => exact .inl (List.map_eq_nil_iff.1 hfs)
    | true =>
      obtain ⟨f, fs, rfl, hf, hfs⟩ := List.map_eq_cons_iff.1 hfs
      obtain rfl : fs = [] := List.map_eq_nil_iff.1 hfs
      exact .inr ⟨f, rfl, hf⟩

theorem derives_method_iff :
    javaGrammar.Derives Admitted (.oneOf [.word "println", .word "print"]) ts
      ↔ ∃ m, ts = [m] ∧ m.kind = .ident ∧ m.value ∈ printMethods := by
  rw [derives_oneOf]
  simp only [List.mem_cons, List.not_mem_nil, or_false, exists_eq_or_imp, exists_eq_left, Elem.word,
    derives_term, accepts_word (show Text.ofString "println" ≠ [] by decide),
    accepts_word (show Text.ofString "print" ≠ [] by decide), Token.isWord, Bool.and_eq_true,
    beq_iff_eq, printMethods]
  constructor
  · intro h
    rcases h with ⟨m, rfl, hk, hv⟩ | ⟨m, rfl, hk, hv⟩
    · exact ⟨m, rfl, hk, .inl hv⟩
    · exact ⟨m, rfl, hk, .inr hv⟩
  · intro h
    obtain ⟨m, rfl, hk, hv | hv⟩ := h
    · exact .inl ⟨m, rfl, hk, hv⟩
    · exact .inr ⟨m, rfl, hk, hv⟩

/-- The argument of a print statement and what closes the statement. -/
theorem derivesAll_printed_iff :
    javaGrammar.DerivesAll Admitted [.opt [.ref "expression"], tok .rparen, tok .semi] ts
      ↔ ∃ us r q, ts = us ++ [r, q] ∧ (∃ arg : Expr, arg = .missing ∧ us = [] ∨ arg.ReadFrom us)
        ∧ r.kind = .rparen ∧ q.kind = .semi := by
  rw [derivesAll_cons]
  simp only [derives_opt, derivesAll_tok_cons, derivesAll_singleton, derives_tok,
    derives_expression_iff freeElsewhere_admitted]
  constructor
  · intro h
    obtain ⟨us, vs, rfl, harg, r, ws, rfl, hr, q, rfl, hq⟩ := h
    refine ⟨us, r, q, rfl, ?_, hr, hq⟩
    rcases harg with rfl | ⟨e, he⟩
    · exact ⟨.missing, .inl ⟨rfl, rfl⟩⟩
    · exact ⟨e, .inr he⟩
  · intro h
    obtain ⟨us, r, q, rfl, ⟨arg, harg⟩, hr, hq⟩ := h
    refine ⟨us, [r, q], rfl, ?_, r, [q], rfl, hr, q, rfl, hq⟩
    rcases harg with ⟨-, rfl⟩ | harg
    · exact .inl rfl
    · exact .inr ⟨arg, harg⟩

theorem derives_printStmt_iff :
    javaGrammar.Derives Admitted (.ref "printStmt") ts
      ↔ ∃ method arg, (Stmt.print .nowhere method arg).ReadFrom ts := by
  rw [derives_single freeElsewhere_admitted rfl (by decide) (by decide)]
  simp only [derivesAll_word_cons (show Text.ofString "System" ≠ [] by decide),
    derivesAll_word_cons (show Text.ofString "out" ≠ [] by decide),
    derivesAll_one_cons (fun _ => derives_method_iff), derivesAll_printed_iff, derivesAll_tok_cons]
  constructor
  · intro h
    obtain ⟨s, _, rfl, hs, d, _, rfl, hd, o, _, rfl, ho, d', _, rfl, hd', m, _, rfl, ⟨hm, hmem⟩,
      l, _, rfl, hl, us, r, q, rfl, ⟨arg, harg⟩, hr, hq⟩ := h
    refine ⟨⟨m.value, .nowhere⟩, arg, s, d, o, d', m, l, us, r, q, rfl, ?_, ⟨hm, rfl⟩, hmem, hl,
      harg, hr, hq⟩
    simp [spellsPrint, hs, hd, ho, hd']
  · intro h
    obtain ⟨method, arg, s, d, o, d', m, l, us, r, q, rfl, hs, hm, hmem, hl, harg, hr, hq⟩ := h
    simp only [spellsPrint, Bool.and_eq_true, beq_iff_eq] at hs
    obtain ⟨⟨⟨hs, hd⟩, ho⟩, hd'⟩ := hs
    exact ⟨s, _, rfl, hs, d, _, rfl, hd, o, _, rfl, ho, d', _, rfl, hd', m, _, rfl,
      ⟨hm.1, hm.2 ▸ hmem⟩, l, _, rfl, hl, us, r, q, rfl, ⟨arg, harg⟩, hr, hq⟩

/-- The kinds of token that assign. -/
def assignKinds : List Kind := [.equals, .plusEq, .minusEq, .starEq, .slashEq, .percentEq]

theorem mem_assignKinds {k : Kind} : k ∈ assignKinds ↔ ∃ op, AssignOp.ofKind? k = some op := by
  cases k <;> simp [assignKinds, AssignOp.ofKind?]

/-- An expression statement: the restriction is the one on assignment targets. -/
theorem derives_exprStmt_iff :
    javaGrammar.Derives Admitted (.ref "exprStmt") ts
      ↔ ∃ us vs q target op value, ts = us ++ (vs ++ [q]) ∧ target.ReadFrom us
        ∧ ReadAsAssigned target op value vs ∧ q.kind = .semi := by
  rw [derives_ref (r := statementRules[4]) rfl]
  show (∃ alt ∈ [Alt.plain _ _], _) ↔ _
  simp only [List.mem_singleton, exists_eq_left, Alt.plain, List.forall₂_cons_left_iff,
    List.forall₂_nil_left_iff, derives_expression_iff freeElsewhere_admitted, derives_opt,
    derivesAll_anyOf_cons, derivesAll_singleton, derives_tok]
  constructor
  · intro h
    obtain ⟨parts, rfl, ⟨us, _, ⟨target, htarget⟩, ⟨vs, _, hvs, ⟨ws, _, ⟨q, rfl, hq⟩, rfl, rfl⟩, rfl⟩,
      rfl⟩, hok⟩ := h
    have hflat : ([us, vs, [q]] : List (List Token)).flatten = us ++ (vs ++ [q]) := by simp
    rcases hvs with rfl | ⟨o, ws, rfl, ho, value, hvalue⟩
    · exact ⟨us, [], q, target, .none, .missing, hflat, htarget, .inl ⟨rfl, rfl, rfl⟩, hq⟩
    · obtain ⟨op, hop⟩ := mem_assignKinds.1 ho
      have hassign : Assignable us := hok.2 rfl (List.cons_ne_nil o ws)
      exact ⟨us, o :: ws, q, target, op, value, hflat, htarget,
        .inr ⟨o, ws, rfl, hop, (assignable_iff htarget).1 hassign, hvalue⟩, hq⟩
  · intro h
    obtain ⟨us, vs, q, target, op, value, rfl, htarget, hassigned, hq⟩ := h
    refine ⟨[us, vs, [q]], by simp, ⟨us, _, ⟨target, htarget⟩, ⟨vs, _, ?_, ⟨[q], _, ⟨q, rfl, hq⟩, rfl,
      rfl⟩, rfl⟩, rfl⟩, fun h => absurd h (by decide), ?_⟩
    · rcases hassigned with ⟨-, -, rfl⟩ | ⟨o, ws, rfl, hop, -, hvalue⟩
      · exact .inl rfl
      · exact .inr ⟨o, ws, rfl, mem_assignKinds.2 ⟨op, hop⟩, value, hvalue⟩
    · intro _ hne
      rcases hassigned with ⟨-, -, rfl⟩ | ⟨o, ws, rfl, hop, hassign, -⟩
      · exact absurd rfl hne
      · exact (assignable_iff htarget).2 hassign

/-! ### Statements -/

/-- The alternatives of a statement, of which the print statement has a gate. -/
theorem derives_statement :
    javaGrammar.Derives Admitted (.ref "statement") ts
      ↔ javaGrammar.Derives Admitted (.ref "printStmt") ts
        ∨ spellsPrint ts = false ∧ (javaGrammar.Derives Admitted (.ref "varDecl") ts
          ∨ javaGrammar.Derives Admitted (.ref "exprStmt") ts
          ∨ javaGrammar.Derives Admitted (.ref "block") ts) := by
  have halt : ∀ alt : Alt, ∀ rule : Text, alt.body = [.ref rule] →
      ((∃ parts, ts = parts.flatten ∧ List.Forall₂ (javaGrammar.Derives Admitted) alt.body parts
          ∧ Admitted statementRules[1] alt parts)
        ↔ javaGrammar.Derives Admitted (.ref rule) ts
          ∧ (spellsPrint ts = true → alt.name = "printStmt")) := by
    intro alt rule hbody
    simp only [hbody, List.forall₂_cons_left_iff, List.forall₂_nil_left_iff]
    constructor
    · intro h
      obtain ⟨_, rfl, ⟨us, _, hus, rfl, rfl⟩, hok, -⟩ := h
      have hflat : ([us] : List (List Token)).flatten = us := by simp
      rw [hflat] at hok ⊢
      exact ⟨hus, hok rfl⟩
    · intro h
      obtain ⟨h, hgate⟩ := h
      have hflat : ts = ([ts] : List (List Token)).flatten := by simp
      refine ⟨[ts], hflat, ⟨ts, [], h, rfl, rfl⟩, ?_, fun h => absurd h (by decide)⟩
      rw [← hflat]
      exact fun _ => hgate
  rw [derives_ref (r := statementRules[1]) rfl]
  show (∃ alt ∈ [Alt.plain _ _, _, Alt.plain _ _, Alt.plain _ _], _) ↔ _
  simp only [List.mem_cons, List.not_mem_nil, or_false, exists_eq_or_imp, exists_eq_left]
  rw [halt (.plain "varDecl" _) "varDecl" rfl, halt ⟨"printStmt", _, _⟩ "printStmt" rfl,
    halt (.plain "exprStmt" _) "exprStmt" rfl, halt (.plain "block" _) "block" rfl]
  have hno : ∀ name : Text, name ≠ "printStmt" →
      ((spellsPrint ts = true → name = "printStmt") ↔ spellsPrint ts = false) := by
    intro name hname
    simp [hname]
  simp only [Alt.plain, hno "varDecl" (by decide), hno "exprStmt" (by decide),
    hno "block" (by decide)]
  constructor
  · intro h
    rcases h with ⟨h, hgate⟩ | ⟨h, -⟩ | ⟨h, hgate⟩ | ⟨h, hgate⟩
    · exact .inr ⟨hgate, .inl h⟩
    · exact .inl h
    · exact .inr ⟨hgate, .inr (.inl h)⟩
    · exact .inr ⟨hgate, .inr (.inr h)⟩
  · intro h
    rcases h with h | ⟨hgate, h | h | h⟩
    · exact .inr (.inl ⟨h, fun _ => trivial⟩)
    · exact .inl ⟨h, hgate⟩
    · exact .inr (.inr (.inl ⟨h, hgate⟩))
    · exact .inr (.inr (.inr ⟨h, hgate⟩))

theorem spellsPrint_of_kind {t : Token} (h : t.kind ≠ .ident) (us : List Token) :
    spellsPrint (t :: us) = false := by
  rcases us with _ | ⟨a, _ | ⟨b, _ | ⟨c, us⟩⟩⟩ <;> simp [spellsPrint, Token.isWord, h]

theorem derives_block :
    javaGrammar.Derives Admitted (.ref "block") ts
      ↔ ∃ l us r, ts = l :: (us ++ [r]) ∧ l.kind = .lbrace ∧ r.kind = .rbrace
        ∧ javaGrammar.Derives Admitted (.many [.ref "statement"]) us := by
  rw [derives_single freeElsewhere_admitted rfl (by decide) (by decide), derivesAll_tok_cons]
  simp only [derivesAll_then_tok]
  constructor
  · intro h
    obtain ⟨l, _, rfl, hl, us, r, rfl, h, hr⟩ := h
    exact ⟨l, us, r, rfl, hl, hr, h⟩
  · intro h
    obtain ⟨l, us, r, rfl, hl, hr, h⟩ := h
    exact ⟨l, _, rfl, hl, us, r, rfl, h, hr⟩

theorem derives_of_stmt (x : Stmt) : ∀ us, x.ReadFrom us →
    javaGrammar.Derives Admitted (.ref "statement") us := by
  induction x using Stmt.byParts with
  | block s stmts ih =>
    intro us hread
    obtain ⟨l, vs, r, rfl, hl, hr, hstmts⟩ := hread
    rw [stmtsReadFrom_eq] at hstmts
    rw [derives_statement, derives_block]
    refine .inr ⟨spellsPrint_of_kind (by rw [hl]; decide) _, .inr (.inr ⟨l, vs, r, rfl, hl, hr, ?_⟩)⟩
    exact derives_many_of_readEach hstmts fun x hx us hus => derivesAll_singleton.2 (ih x hx us hus)
  | varDecl s isFinal type name init =>
    intro us hread
    rw [derives_statement, derives_varDecl_iff]
    refine .inr ⟨?_, .inl ⟨isFinal, type, name, init, hread⟩⟩
    obtain ⟨fs, vs, rfl, hfs, ws, y, zs, q, rfl, ⟨t, -, w, bs, rfl, hw, -⟩, -⟩ := hread
    cases isFinal with
    | true =>
      obtain ⟨f, fs, rfl, hf, -⟩ := List.map_eq_cons_iff.1 hfs
      exact spellsPrint_of_kind (by rw [hf]; decide) _
    | false =>
      obtain rfl : fs = [] := List.map_eq_nil_iff.1 hfs
      refine spellsPrint_of_kind ?_ _
      intro h
      rw [h] at hw
      cases hw
  | print s method arg =>
    intro us hread
    rw [derives_statement, derives_printStmt_iff]
    exact .inl ⟨method, arg, hread⟩
  | expr s target op t value =>
    intro us hread
    obtain ⟨vs, ws, q, rfl, hprint, htarget, hassigned, hq⟩ := hread
    rw [derives_statement, derives_exprStmt_iff]
    exact .inr ⟨hprint, .inr (.inl ⟨vs, ws, q, target, op, value, rfl, htarget, hassigned, hq⟩)⟩
  | missing =>
    intro us hread
    cases hread

theorem exists_block {n : Nat}
    (ih : ∀ us : List Token, us.length ≤ n → javaGrammar.Derives Admitted (.ref "statement") us →
      ∃ x : Stmt, x.ReadFrom us)
    (hlen : ts.length ≤ n + 1) (h : javaGrammar.Derives Admitted (.ref "block") ts) :
    ∃ stmts, (Stmt.block .nowhere stmts).ReadFrom ts := by
  obtain ⟨l, us, r, rfl, hl, hr, h⟩ := derives_block.1 h
  simp only [List.length_cons, List.length_append] at hlen
  have hstmts : ∃ stmts, ReadEach Stmt.ReadFrom stmts us :=
    readEach_of_derives_many h fun vs hvs hd => ih vs (by omega) (derivesAll_singleton.1 hd)
  obtain ⟨stmts, hstmts⟩ := hstmts
  exact ⟨stmts, l, us, r, rfl, hl, hr, by rwa [stmtsReadFrom_eq]⟩

theorem exists_stmt (n : Nat) : ∀ us : List Token, us.length ≤ n →
    javaGrammar.Derives Admitted (.ref "statement") us → ∃ x : Stmt, x.ReadFrom us := by
  induction n with
  | zero =>
    intro us hlen h
    obtain rfl : us = [] := List.eq_nil_of_length_eq_zero (Nat.le_zero.1 hlen)
    rw [derives_statement, derives_printStmt_iff, derives_varDecl_iff, derives_exprStmt_iff,
      derives_block] at h
    rcases h with ⟨method, arg, h⟩ | ⟨-, ⟨isFinal, type, name, init, h⟩ | h | h⟩
    · exact absurd h (Stmt.not_readFrom_nil _)
    · exact absurd h (Stmt.not_readFrom_nil _)
    · simp at h
    · simp at h
  | succ n ih =>
    intro us hlen h
    rw [derives_statement, derives_printStmt_iff, derives_varDecl_iff, derives_exprStmt_iff] at h
    rcases h with ⟨method, arg, h⟩ | ⟨hprint, ⟨isFinal, type, name, init, h⟩ | h | h⟩
    · exact ⟨_, h⟩
    · exact ⟨_, h⟩
    · obtain ⟨vs, ws, q, target, op, value, rfl, htarget, hassigned, hq⟩ := h
      exact ⟨.expr .nowhere target op .nowhere value, vs, ws, q, rfl, hprint, htarget, hassigned, hq⟩
    · obtain ⟨stmts, hstmts⟩ := exists_block ih hlen h
      exact ⟨_, hstmts⟩

/-- The table derives as a statement exactly what some statement is read from. -/
theorem derives_statement_iff :
    javaGrammar.Derives Admitted (.ref "statement") ts ↔ ∃ x : Stmt, x.ReadFrom ts := by
  constructor
  · exact exists_stmt ts.length ts (Nat.le_refl _)
  · intro h
    obtain ⟨x, hx⟩ := h
    exact derives_of_stmt x ts hx

theorem derives_stmts_iff :
    javaGrammar.Derives Admitted (.many [.ref "statement"]) ts
      ↔ ∃ stmts, ReadEach Stmt.ReadFrom stmts ts := by
  constructor
  · intro h
    exact readEach_of_derives_many h fun us _ hus =>
      derives_statement_iff.1 (derivesAll_singleton.1 hus)
  · intro h
    obtain ⟨stmts, hstmts⟩ := h
    exact derives_many_of_readEach hstmts fun x _ us hus =>
      derivesAll_singleton.2 (derives_of_stmt x us hus)

/-! ### Classes -/

theorem derives_block_iff :
    javaGrammar.Derives Admitted (.ref "block") ts ↔ ∃ b : Block, b.ReadFrom ts := by
  rw [derives_block]
  simp only [derives_stmts_iff, ← stmtsReadFrom_eq]
  constructor
  · intro h
    obtain ⟨l, us, r, rfl, hl, hr, stmts, hstmts⟩ := h
    exact ⟨⟨.nowhere, stmts⟩, l, us, r, rfl, hl, hr, hstmts⟩
  · intro h
    obtain ⟨b, l, us, r, rfl, hl, hr, hstmts⟩ := h
    exact ⟨l, us, r, rfl, hl, hr, b.stmts, hstmts⟩

theorem derives_mainMethod_iff :
    javaGrammar.Derives Admitted (.ref "mainMethod") ts
      ↔ ∃ name param body, (Member.main .nowhere name param body).ReadFrom ts := by
  rw [derives_single freeElsewhere_admitted rfl (by decide) (by decide)]
  simp only [derivesAll_tok_cons, derivesAll_singleton, derives_block_iff]
  constructor
  · intro h
    obtain ⟨a, _, rfl, ha, b, _, rfl, hb, c, _, rfl, hc, n, _, rfl, hn, l, _, rfl, hl, w, _, rfl, hw,
      o, _, rfl, ho, e, _, rfl, he, x, _, rfl, hx, r, us, rfl, hr, body, hbody⟩ := h
    exact ⟨⟨n.value, .nowhere⟩, ⟨x.value, .nowhere⟩, some body, [a, b, c], n, [l, w, o, e], x, r, us,
      rfl, by simp [ha, hb, hc], ⟨hn, rfl⟩, by simp [hl, hw, ho, he], ⟨hx, rfl⟩, hr, body, rfl, hbody⟩
  · intro h
    obtain ⟨name, param, _, hs, n, ls, x, r, us, rfl, hhs, hn, hls, hx, hr, body, rfl, hbody⟩ := h
    obtain ⟨a, hs, rfl, ha, hhs⟩ := List.map_eq_cons_iff.1 hhs
    obtain ⟨b, hs, rfl, hb, hhs⟩ := List.map_eq_cons_iff.1 hhs
    obtain ⟨c, hs, rfl, hc, hhs⟩ := List.map_eq_cons_iff.1 hhs
    obtain rfl : hs = [] := List.map_eq_nil_iff.1 hhs
    obtain ⟨l, ls, rfl, hl, hls⟩ := List.map_eq_cons_iff.1 hls
    obtain ⟨w, ls, rfl, hw, hls⟩ := List.map_eq_cons_iff.1 hls
    obtain ⟨o, ls, rfl, ho, hls⟩ := List.map_eq_cons_iff.1 hls
    obtain ⟨e, ls, rfl, he, hls⟩ := List.map_eq_cons_iff.1 hls
    obtain rfl : ls = [] := List.map_eq_nil_iff.1 hls
    exact ⟨a, _, rfl, ha, b, _, rfl, hb, c, _, rfl, hc, n, _, rfl, hn.1, l, _, rfl, hl, w, _, rfl, hw,
      o, _, rfl, ho, e, _, rfl, he, x, _, rfl, hx.1, r, us, rfl, hr, body, hbody⟩

theorem derives_modifiers_iff :
    javaGrammar.Derives Admitted (.many [anyOf [.kwPublic, .kwStatic, .kwFinal]]) ts
      ↔ ∀ m ∈ ts, m.kind.isModifier = true := by
  have hmem : ∀ k : Kind, k ∈ [Kind.kwPublic, .kwStatic, .kwFinal] ↔ k.isModifier = true := by
    intro k
    simp [Kind.isModifier, or_assoc]
  constructor
  · intro h m hm
    obtain ⟨rounds, rfl, hrounds⟩ := derives_many.1 h
    obtain ⟨us, hus, hm⟩ := List.mem_flatten.1 hm
    obtain ⟨t, rfl, ht⟩ := derives_kinds.1 (derivesAll_singleton.1 (hrounds us hus))
    rw [List.mem_singleton.1 hm]
    exact (hmem _).1 ht
  · intro h
    refine derives_many_of_readEach (Parse.readEach_tokens h) ?_
    intro m _ us hus
    obtain ⟨rfl, hm⟩ := hus
    exact derivesAll_singleton.2 (derives_kinds.2 ⟨m, rfl, (hmem _).2 hm⟩)

theorem derives_fieldDecl_iff :
    javaGrammar.Derives Admitted (.ref "fieldDecl") ts
      ↔ ∃ modifiers isFinal type name init,
        (Member.field .nowhere modifiers isFinal type name init).ReadFrom ts := by
  rw [derives_single freeElsewhere_admitted rfl (by decide) (by decide), derivesAll_cons]
  simp only [derives_modifiers_iff, derivesAll_declared_iff]
  constructor
  · intro h
    obtain ⟨ms, us, rfl, hms, type, name, init, hdecl⟩ := h
    exact ⟨ms.map Token.value, ms.any (·.kind = .kwFinal), type, name, init, ms, us, rfl, hms, rfl,
      rfl, hdecl⟩
  · intro h
    obtain ⟨_, _, type, name, init, ms, us, rfl, hms, -, -, hdecl⟩ := h
    exact ⟨ms, us, rfl, hms, type, name, init, hdecl⟩

theorem derives_member_iff :
    javaGrammar.Derives Admitted (.ref "classMember") ts ↔ ∃ x : Member, x.ReadFrom ts := by
  rw [derives_choice freeElsewhere_admitted (r := classRules[3]) rfl (by decide) (by decide)]
  show (∃ alt ∈ [_, Alt.plain _ _], _) ↔ _
  simp only [List.mem_cons, List.not_mem_nil, or_false, exists_eq_or_imp, exists_eq_left, Alt.plain,
    derivesAll_singleton, derives_mainMethod_iff, derives_fieldDecl_iff]
  constructor
  · intro h
    rcases h with ⟨name, param, body, h⟩ | ⟨modifiers, isFinal, type, name, init, h⟩
    · exact ⟨_, h⟩
    · exact ⟨_, h⟩
  · intro h
    obtain ⟨x, hx⟩ := h
    cases x with
    | main s name param body => exact .inl ⟨name, param, body, hx⟩
    | field s modifiers isFinal type name init =>
      exact .inr ⟨modifiers, isFinal, type, name, init, hx⟩

/-- The table derives as a class exactly what some class is read from. -/
theorem derives_classDecl_iff :
    javaGrammar.Derives Admitted (.ref "classDecl") ts ↔ ∃ x : ClassDecl, x.ReadFrom ts := by
  rw [derives_single freeElsewhere_admitted rfl (by decide) (by decide)]
  simp only [derivesAll_tok_cons, derivesAll_then_tok]
  constructor
  · intro h
    obtain ⟨a, _, rfl, ha, b, _, rfl, hb, n, _, rfl, hn, l, _, rfl, hl, us, r, rfl, h, hr⟩ := h
    have hmembers : ∃ members, ReadEach Member.ReadFrom members us :=
      readEach_of_derives_many h fun vs _ hvs => derives_member_iff.1 (derivesAll_singleton.1 hvs)
    obtain ⟨members, hmembers⟩ := hmembers
    exact ⟨⟨.nowhere, ⟨n.value, .nowhere⟩, members⟩, [a, b], n, l, us, r, rfl, by simp [ha, hb],
      ⟨hn, rfl⟩, hl, hmembers, hr⟩
  · intro h
    obtain ⟨x, hs, n, l, us, r, rfl, hhs, hn, hl, hmembers, hr⟩ := h
    obtain ⟨a, hs, rfl, ha, hhs⟩ := List.map_eq_cons_iff.1 hhs
    obtain ⟨b, hs, rfl, hb, hhs⟩ := List.map_eq_cons_iff.1 hhs
    obtain rfl : hs = [] := List.map_eq_nil_iff.1 hhs
    refine ⟨a, _, rfl, ha, b, _, rfl, hb, n, _, rfl, hn.1, l, _, rfl, hl, us, r, rfl, ?_, hr⟩
    exact derives_many_of_readEach hmembers fun x _ vs hvs =>
      derivesAll_singleton.2 (derives_member_iff.2 ⟨x, hvs⟩)

/-! ### Whole lists of tokens -/

theorem derives_statements_iff {e : Token} (he : e.kind = .eof) :
    javaGrammar.Derives Admitted (.ref "statements") (ts ++ [e])
      ↔ ∃ stmts, ReadEach Stmt.ReadFrom stmts ts := by
  rw [derives_single freeElsewhere_admitted rfl (by decide) (by decide), derivesAll_then_tok]
  simp only [derives_stmts_iff, List.append_singleton_inj]
  constructor
  · intro h
    obtain ⟨us, r, ⟨rfl, rfl⟩, hstmts, -⟩ := h
    exact hstmts
  · intro h
    exact ⟨ts, e, ⟨rfl, rfl⟩, h, he⟩

theorem derives_program_iff {e : Token} (he : e.kind = .eof) :
    javaGrammar.Derives Admitted (.ref "program") (ts ++ [e])
      ↔ ∃ classes, ReadEach ClassDecl.ReadFrom classes ts := by
  rw [derives_single freeElsewhere_admitted rfl (by decide) (by decide), derivesAll_then_tok]
  simp only [List.append_singleton_inj]
  constructor
  · intro h
    obtain ⟨us, r, ⟨rfl, rfl⟩, h, -⟩ := h
    exact readEach_of_derives_many h fun vs _ hvs =>
      derives_classDecl_iff.1 (derivesAll_singleton.1 hvs)
  · intro h
    obtain ⟨classes, hclasses⟩ := h
    refine ⟨ts, e, ⟨rfl, rfl⟩, ?_, he⟩
    exact derives_many_of_readEach hclasses fun x _ vs hvs =>
      derivesAll_singleton.2 (derives_classDecl_iff.2 ⟨x, hvs⟩)

end JavaRules

theorem parseStatements_clean_iff {ts : List Token} {e : Token} (he : e.kind = .eof)
    (hts : ∀ t ∈ ts, t.kind ≠ .eof) (hcut : ∀ t ∈ ts ++ [e], t.unterminated = false) :
    (parseStatements (ts ++ [e])).diagnostics = [] ↔ ∃ stmts, ReadEach Stmt.ReadFrom stmts ts := by
  have hfront := takeWhile_before_end he hts
  constructor
  · intro h
    have hread := readFrom_of_parseStatements hcut h
    rw [hfront] at hread
    exact ⟨_, hread⟩
  · intro h
    obtain ⟨stmts, hstmts⟩ := h
    rw [← hfront] at hstmts
    exact (parseStatements_of_readFrom (s := .nowhere) hstmts).1

/-- A program is read as classes. -/
theorem root_parseProgram (tokens : List Token) :
    ∃ s classes, (parseProgram tokens).root = .program s classes := by
  rw [parseProgram_short]
  simp only [parseWith, Parse.program, Parse.spanned, Parse.bind_apply]
  split <;> exact ⟨_, _, rfl⟩

theorem parseProgram_clean_iff {ts : List Token} {e : Token} (he : e.kind = .eof)
    (hts : ∀ t ∈ ts, t.kind ≠ .eof) (hcut : ∀ t ∈ ts ++ [e], t.unterminated = false) :
    (parseProgram (ts ++ [e])).diagnostics = []
      ↔ ∃ classes, classes ≠ [] ∧ ReadEach ClassDecl.ReadFrom classes ts := by
  have hfront := takeWhile_before_end he hts
  constructor
  · intro h
    have hread := readFrom_of_parseProgram hcut h
    obtain ⟨s, classes, hroot⟩ := root_parseProgram (ts ++ [e])
    rw [hfront, hroot] at hread
    exact ⟨classes, hread⟩
  · intro h
    obtain ⟨classes, hne, hclasses⟩ := h
    rw [← hfront] at hclasses
    exact (parseProgram_of_readFrom (s := .nowhere) ⟨hne, hclasses⟩).1

/-- The parser has no complaint about a list of tokens, none of them cut off, exactly if the table
derives the list: from the rule for statements, or from the rule for programs with a class in it. -/
theorem diagnostics_eq_nil_iff_derives {ts : List Token} {e : Token} (he : e.kind = .eof)
    (hts : ∀ t ∈ ts, t.kind ≠ .eof) (hcut : ∀ t ∈ ts ++ [e], t.unterminated = false) :
    ((parseStatements (ts ++ [e])).diagnostics = []
        ↔ javaGrammar.Derives JavaRules.Admitted (.ref "statements") (ts ++ [e]))
      ∧ ((parseProgram (ts ++ [e])).diagnostics = []
        ↔ javaGrammar.Derives JavaRules.Admitted (.ref "program") (ts ++ [e])
          ∧ ∃ us, us <+: ts ++ [e] ∧ javaGrammar.Derives JavaRules.Admitted (.ref "classDecl") us) := by
  refine ⟨?_, ?_⟩
  · rw [parseStatements_clean_iff he hts hcut, JavaRules.derives_statements_iff he]
  · rw [parseProgram_clean_iff he hts hcut, JavaRules.derives_program_iff he]
    simp only [JavaRules.derives_classDecl_iff]
    constructor
    · intro h
      obtain ⟨classes, hne, hclasses⟩ := h
      refine ⟨⟨classes, hclasses⟩, ?_⟩
      cases classes with
      | nil => exact absurd rfl hne
      | cons x classes =>
        obtain ⟨us, vs, rfl, hx, -⟩ := hclasses
        exact ⟨us, ⟨vs ++ [e], (List.append_assoc us vs [e]).symm⟩, x, hx⟩
    · intro h
      obtain ⟨⟨classes, hclasses⟩, us, hus, x, hx⟩ := h
      refine ⟨classes, ?_, hclasses⟩
      intro hnil
      rw [hnil] at hclasses
      -- without a class there would be nothing before the end of input
      rw [show ts = [] from hclasses] at hus
      have hlen := hus.length_le
      obtain ⟨hs, n, l, vs, r, rfl, -⟩ := hx
      simp at hlen
      omega

/-- An assignment: `x = 1;`. -/
theorem derives_assignment :
    (parseStatements ([⟨.ident, "x", .nowhere, false⟩, ⟨.equals, "=", .nowhere, false⟩,
        ⟨.intLit, "1", .nowhere, false⟩, ⟨.semi, ";", .nowhere, false⟩]
      ++ [.endOfInput .origin])).diagnostics = []
    ∧ javaGrammar.Derives JavaRules.Admitted (.ref "statements")
      ([⟨.ident, "x", .nowhere, false⟩, ⟨.equals, "=", .nowhere, false⟩,
        ⟨.intLit, "1", .nowhere, false⟩, ⟨.semi, ";", .nowhere, false⟩]
      ++ [.endOfInput .origin]) :=
  ⟨rfl, (diagnostics_eq_nil_iff_derives rfl (by decide) (by decide)).1.1 rfl⟩

end JavaPrimer
