import JavaPrimer.Proofs.ReadBackExpr
import JavaPrimer.Proofs.WholeLists

/-!
# Reading trees back

The tokens that a statement, a member or a class is read from are read back as that tree, up to
spans, whatever follows them: a semicolon or a closing brace ends each of them. So a whole list of
tokens that some tree is read from is parsed without a complaint, and into that tree.

* `Parse.gives_statementWithin`, `Parse.gives_member`, `Parse.gives_classOrSkip` — the parts;
* `Parse.gives_mainMethod_of_body`, `Parse.gives_classOrSkip_of_members`,
  `Parse.gives_program_of_classes` — headers around whatever stands inside;
* `parseStatements_of_readFrom`, `parseProgram_of_readFrom` — whole lists of tokens.
-/

namespace JavaPrimer

/-- The kind of the token after the next one. -/
theorem Cursor.At.kind_ahead_one {c : Cursor} {ts : List Token} (h : c.At ts) :
    (c.ahead 1).kind = nextKind ts.tail := by
  rcases ts with _ | ⟨t, _ | ⟨u, ts⟩⟩
  · simpa [Cursor.ahead_short, h.rest, nextKind] using h.stop
  · simpa [Cursor.ahead_short, h.rest, nextKind] using h.stop
  · simp [Cursor.ahead_short, h.rest]

/-- Nothing that starts with an identifier goes on with another one. -/
theorem Expr.second_ne_ident (e : Expr) : ∀ us ts, e.ReadFrom us → nextKind ts ≠ .ident →
    nextKind us = .ident → nextKind (us ++ ts).tail ≠ .ident := by
  induction e using Expr.byParts with
  | binary s level op t left right ihl ihr =>
    intro us ts h _ hident
    obtain ⟨vs, o, ws, rfl, ⟨tier, htier, -, ho⟩, -, -, hl, -⟩ := h
    obtain ⟨u, vs', rfl, -⟩ := left.startsExpression_of_readFrom vs hl
    have hne : o.kind ≠ .ident := by
      intro hk
      obtain ⟨k, hk', rfl⟩ := List.getElem_of_mem htier
      have hnone : ∀ k, ∀ h : k < tiers.length, (tiers[k]).op? .ident = none := by decide
      rw [hk, hnone k hk'] at ho
      cases ho
    have h := ihl _ (o :: ws ++ ts) hl hne hident
    simpa using h
  | step s op e ih =>
    intro us ts h _ hident
    obtain ⟨vs, o, rfl, ho, -, -, he⟩ := h
    obtain ⟨u, vs', rfl, -⟩ := e.startsExpression_of_readFrom vs he
    have hne : nextKind ([o] ++ ts) ≠ .ident := by
      intro hk
      rw [show o.kind = .ident from hk] at ho
      cases ho
    have h := ih _ ([o] ++ ts) he hne hident
    simpa using h
  | name s head selectors ih =>
    intro us ts h hts _
    obtain ⟨t, vs, rfl, -, hsels⟩ := h
    cases selectors with
    | nil =>
      rw [show vs = [] from hsels]
      exact hts
    | cons x selectors =>
      obtain ⟨xs, ws, rfl, hx, -⟩ := hsels
      cases x with
      | field s name =>
        obtain ⟨d, t', rfl, hd, -⟩ := hx
        simp [hd]
      | call s args =>
        obtain ⟨l, vs, r, rfl, hl, -⟩ := hx
        simp [hl]
  | unary s op e ih =>
    intro us ts h _ hident
    obtain ⟨o, vs, rfl, ho, -⟩ := h
    rw [show o.kind = .ident from hident] at ho
    cases ho
  | cast s type e ih =>
    intro us ts h _ hident
    obtain ⟨l, w, r, vs, rfl, hl, -⟩ := h
    rw [show l.kind = .ident from hident] at hl
    cases hl
  | paren s e ih =>
    intro us ts h _ hident
    obtain ⟨l, vs, r, rfl, hl, -⟩ := h
    rw [show l.kind = .ident from hident] at hl
    cases hl
  | literal s sort raw =>
    intro us ts h _ hident
    obtain ⟨t, rfl, ht, -⟩ := h
    rw [show t.kind = .ident from hident] at ht
    cases ht
  | new s className args ih =>
    intro us ts h _ hident
    obtain ⟨n, t, l, vs, r, rfl, hn, -⟩ := h
    rw [show n.kind = .ident from hident] at hn
    cases hn
  | bad s =>
    intro us ts h
    cases h
  | missing =>
    intro us ts h
    cases h

/-- The first token of a statement can start one. -/
theorem Stmt.startsStatement_of_readFrom {x : Stmt} {us : List Token} (h : x.ReadFrom us) :
    ∃ t vs, us = t :: vs ∧ t.kind.startsStatement = true := by
  cases x with
  | block s stmts =>
    obtain ⟨l, vs, r, rfl, hl, -⟩ := h
    exact ⟨l, _, rfl, by rw [hl]; rfl⟩
  | varDecl s isFinal type name init =>
    obtain ⟨fs, vs, rfl, hfs, ws, x, init, q, rfl, ⟨t, -, w, bs, rfl, hw, -⟩, -⟩ := h
    cases isFinal with
    | true =>
      obtain ⟨f, fs, rfl, hf, -⟩ := List.map_eq_cons_iff.1 hfs
      exact ⟨f, _, rfl, by rw [hf]; rfl⟩
    | false =>
      obtain rfl : fs = [] := List.map_eq_nil_iff.1 hfs
      exact ⟨w, _, rfl, by simp [Kind.startsStatement, Kind.startsVarDecl, hw]⟩
  | print s method arg =>
    obtain ⟨t, d, o, d', m, l, vs, r, q, rfl, hs, -⟩ := h
    have ht : t.kind = .ident := by
      simp only [spellsPrint, Token.isWord, Bool.and_eq_true, beq_iff_eq] at hs
      exact hs.1.1.1.1
    exact ⟨t, _, rfl, by rw [ht]; rfl⟩
  | expr s target op t value =>
    obtain ⟨vs, ws, q, rfl, -, htarget, -⟩ := h
    obtain ⟨t, vs, rfl, ht⟩ := target.startsExpression_of_readFrom vs htarget
    exact ⟨t, _, rfl, by simp [Kind.startsStatement, ht]⟩
  | missing => cases h

/-- The first token of a member can start one. -/
theorem Member.startsMember_of_readFrom {x : Member} {us : List Token} (h : x.ReadFrom us) :
    ∃ t vs, us = t :: vs ∧ t.kind.startsMember = true := by
  cases x with
  | main s name param body =>
    obtain ⟨hs, n, ls, x, r, vs, rfl, hhs, -⟩ := h
    obtain ⟨t, hs, rfl, ht, -⟩ := List.map_eq_cons_iff.1 hhs
    exact ⟨t, _, rfl, by rw [ht]; rfl⟩
  | field s modifiers isFinal type name init =>
    obtain ⟨ms, vs, rfl, hms, -, -, ws, x, init, q, rfl, ⟨t, -, w, bs, rfl, hw, -⟩, -⟩ := h
    cases ms with
    | nil => exact ⟨w, _, rfl, by simp [Kind.startsMember, hw]⟩
    | cons m ms => exact ⟨m, _, rfl, by simp [Kind.startsMember, hms m List.mem_cons_self]⟩

namespace Parse

variable {c : Cursor}

/-! ### Parts of declarations -/

theorem gives_typeSpec_bind {β : Type} {x : TypeSpec} {us vs ts : List Token}
    {f : Option TypeSpec → Parse .short β} {Q : β → Prop} (hread : x.ReadFrom us)
    (hnext : nextKind vs ≠ .lbracket) (hc : c.At (us ++ vs))
    (h : ∀ d y, d.At vs → y.bare = x.bare → (f (some y)).Gives d ts Q) :
    (typeSpec >>= f).Gives c ts Q := by
  have htype : typeSpec.Gives c vs fun o => ∃ y, o = some y ∧ y.bare = x.bare := by
    obtain ⟨w, bs, rfl, hw, hname, hbs⟩ := hread
    refine gives_look_bind ?_
    have hcur : c.current = w := hc.current
    rw [hcur, if_pos hw]
    refine gives_spanned (gives_advance_bind hc fun d hd => gives_look_bind ?_)
    cases harr : x.isArray with
    | true =>
      rw [harr] at hbs
      obtain ⟨l, bs, rfl, hl, hbs⟩ := List.map_eq_cons_iff.1 hbs
      obtain ⟨r, bs, rfl, hr, hbs⟩ := List.map_eq_cons_iff.1 hbs
      obtain rfl : bs = [] := List.map_eq_nil_iff.1 hbs
      have hk : d.kind = .lbracket := hd.kind.trans hl
      rw [if_pos (by rw [hk]; rfl)]
      refine gives_advance_bind hd fun d hd => gives_expect_bind hd hr fun d hd => ?_
      refine gives_pure hd fun span => ⟨_, rfl, ?_⟩
      simp only [TypeSpec.bare, hname, harr]
    | false =>
      rw [harr] at hbs
      obtain rfl : bs = [] := List.map_eq_nil_iff.1 hbs
      have hk : d.kind ≠ .lbracket := fun h => hnext (hd.kind.symm.trans h)
      rw [if_neg (by simpa using hk)]
      refine gives_pure hd fun span => ⟨_, rfl, ?_⟩
      simp only [TypeSpec.bare, hname, harr]
  refine htype.bind ?_
  rintro d o hd ⟨y, rfl, hy⟩
  exact h d y hd hy

theorem gives_initialized {init : Expr} {us ts : List Token} {q : Token}
    (hread : init.ReadAsInit us) (hq : q.kind = .semi) (hc : c.At (us ++ q :: ts)) :
    initialized.Gives c ts fun e => e.bare = init.bare := by
  refine gives_look_bind ?_
  rcases hread with ⟨rfl, rfl⟩ | ⟨e, vs, rfl, he, hinit⟩
  · have hk : c.kind = .semi := hc.kind.trans hq
    rw [if_neg (by rw [hk]; decide)]
    exact gives_expect_bind hc hq fun d hd => gives_pure hd rfl
  · have hk : c.kind = .equals := hc.kind.trans he
    rw [if_pos (by rw [hk]; rfl)]
    refine gives_advance_bind hc fun d hd => ?_
    have hend : endsExpr 0 (nextKind (q :: ts)) = true := by
      rw [nextKind_cons, hq]
      decide
    refine (gives_expression hinit hend hd).bind fun d found hd hfound => ?_
    exact gives_panicking_bind hd (gives_expect_bind hd hq fun d hd => gives_pure hd hfound)

/-- The part that local declarations and fields share. -/
theorem gives_declared {α : Type} (build : Option TypeSpec → Ident → Expr → Span → α)
    {type : Option TypeSpec} {name : Ident} {init : Expr} {us ts : List Token}
    {Q : (Span → α) → Prop} (hread : ReadAsDeclared type name init us) (hc : c.At (us ++ ts))
    (hQ : ∀ type' name' init', type'.map TypeSpec.bare = type.map TypeSpec.bare →
      name'.bare = name.bare → init'.bare = init.bare → Q (build type' name' init')) :
    Gives (do
      match ← typeSpec with
      | none => return build none .absent .missing
      | some type =>
        let (name, there) ← expectIdent
        if there then
          let init ← initialized
          return build (some type) name init
        else return build (some type) name .missing) c ts Q := by
  obtain ⟨ws, x, vs, q, rfl, ⟨t, rfl, ht⟩, hx, hinit, hq⟩ := hread
  rw [List.append_assoc, List.cons_append, List.append_assoc] at hc
  have hnext : nextKind (x :: (vs ++ ([q] ++ ts))) ≠ .lbracket := by
    rw [nextKind_cons, hx.1]
    decide
  refine gives_typeSpec_bind ht hnext hc fun d y hd hy => ?_
  refine gives_expectIdent_bind hd hx fun d z hd hz => ?_
  refine (gives_initialized hinit hq hd).bind fun d e hd he => gives_pure hd ?_
  exact hQ (some y) z e (by rw [Option.map_some, Option.map_some, hy]) hz he

/-! ### Statements that hold expressions -/

theorem gives_varDecl {s : Span} {isFinal : Bool} {type : Option TypeSpec} {name : Ident}
    {init : Expr} {us ts : List Token}
    (hread : (Stmt.varDecl s isFinal type name init).ReadFrom us) (hc : c.At (us ++ ts)) :
    varDecl.Gives c ts fun x => x.bare = (Stmt.varDecl s isFinal type name init).bare := by
  obtain ⟨fs, vs, rfl, hfs, hdecl⟩ := hread
  rw [List.append_assoc] at hc
  have hmark : finalMark.Gives c (vs ++ ts) (· = isFinal) := by
    refine gives_look_bind ?_
    cases isFinal with
    | true =>
      obtain ⟨f, fs, rfl, hf, hfs⟩ := List.map_eq_cons_iff.1 hfs
      obtain rfl : fs = [] := List.map_eq_nil_iff.1 hfs
      have hk : c.kind = .kwFinal := hc.kind.trans hf
      rw [if_pos (by rw [hk]; rfl)]
      exact gives_advance_bind hc fun d hd => gives_pure hd rfl
    | false =>
      obtain rfl : fs = [] := List.map_eq_nil_iff.1 hfs
      obtain ⟨ws, x, init, q, rfl, ⟨t, -, w, bs, rfl, hw, -⟩, -⟩ := id hdecl
      have hk : c.kind = w.kind := hc.kind
      have hne : w.kind ≠ .kwFinal := fun h => by rw [h] at hw; cases hw
      rw [if_neg (by rw [hk]; simpa using hne)]
      exact gives_pure hc rfl
  refine gives_spanned (hmark.bind ?_)
  intro d isFinal' hd hfinal
  refine gives_declared (fun type name init span => Stmt.varDecl span isFinal' type name init)
    hdecl hd ?_
  intro type' name' init' ht hn hi s
  simp only [Stmt.bare, hfinal, ht, hn, hi]

theorem gives_expectWord_bind {β : Type} {t : Token} {us ts : List Token} {words : List Text}
    {f : Ident × Bool → Parse .short β} {Q : β → Prop} {x : Ident} (hc : c.At (t :: us))
    (hx : x.ReadFrom t) (hword : x.name ∈ words)
    (h : ∀ d y, d.At us → y.bare = x.bare → (f (y, true)).Gives d ts Q) :
    (expectWord words >>= f).Gives c ts Q := by
  have hw : (expectWord words).Gives c us fun y => y.2 = true ∧ y.1.bare = x.bare := by
    refine gives_look_bind ?_
    have hyes : c.current.kind = .ident ∧ words.contains c.current.value := by
      rw [hc.current, hx.2]
      exact ⟨hx.1, by simpa using hword⟩
    rw [if_pos hyes]
    refine gives_advance_bind hc fun d hd => gives_pure hd ⟨rfl, ?_⟩
    rw [hc.current]
    simp only [Ident.bare, hx.2]
  refine hw.bind ?_
  rintro d ⟨y, b⟩ hd ⟨rfl, hy⟩
  exact h d y hd hy

theorem gives_printStmt {s : Span} {method : Ident} {arg : Expr} {us ts : List Token}
    (hread : (Stmt.print s method arg).ReadFrom us) (hc : c.At (us ++ ts)) :
    printStmt.Gives c ts fun x => x.bare = (Stmt.print s method arg).bare := by
  obtain ⟨t, d, o, d', m, l, vs, r, q, rfl, -, hm, hmem, hl, harg, hr, hq⟩ := hread
  simp only [List.cons_append, List.append_assoc] at hc
  refine gives_spanned (gives_advance_bind hc fun c hc => gives_advance_bind hc fun c hc => ?_)
  refine gives_advance_bind hc fun c hc => gives_advance_bind hc fun c hc => ?_
  refine gives_expectWord_bind hc hm hmem fun c y hc hy => ?_
  refine gives_expect_bind hc hl fun c hc => ?_
  have hback : printArgument.Gives c (r :: q :: ts) fun e => e.bare = arg.bare := by
    refine gives_look_bind ?_
    rcases harg with ⟨rfl, rfl⟩ | harg
    · have hk : c.kind = .rparen := hc.kind.trans hr
      rw [if_neg (by rw [hk]; decide)]
      exact gives_pure hc rfl
    · obtain ⟨t, vs, rfl, ht⟩ := arg.startsExpression_of_readFrom _ harg
      have hk : c.kind = t.kind := hc.kind
      rw [if_pos (by rw [hk]; exact ht)]
      refine gives_expression harg ?_ hc
      rw [nextKind_cons, hr]
      decide
  refine hback.bind fun c e hc he => gives_panicking_bind hc ?_
  refine gives_expect_bind hc hr fun c hc => gives_expect_bind hc hq fun c hc => ?_
  refine gives_pure hc fun s => ?_
  simp only [Stmt.bare, hy, he]

theorem gives_exprStmt {s t : Span} {target : Expr} {op : AssignOp} {value : Expr}
    {us ts : List Token} (hread : (Stmt.expr s target op t value).ReadFrom us)
    (hc : c.At (us ++ ts)) :
    exprStmt.Gives c ts fun x => x.bare = (Stmt.expr s target op t value).bare := by
  obtain ⟨vs, ws, q, rfl, -, htarget, hassigned, hq⟩ := hread
  rw [List.append_assoc, List.append_assoc] at hc
  have hsemi : endsExpr 0 .semi = true := by decide
  rcases hassigned with ⟨rfl, rfl, rfl⟩ | ⟨o, ws, rfl, ho, hassign, hvalue⟩
  · have hend : endsExpr 0 (nextKind ([] ++ ([q] ++ ts))) = true := by
      rw [show nextKind ([] ++ ([q] ++ ts)) = .semi from hq]
      exact hsemi
    refine gives_spanned ((gives_expression htarget hend hc).bind fun d found hd hfound => ?_)
    refine gives_panicking_bind hd (gives_look_bind ?_)
    have hk : d.kind = .semi := hd.kind.trans hq
    rw [hk]
    refine gives_expect_bind hd hq fun d hd => gives_pure hd fun s => ?_
    simp only [Stmt.bare, hfound, Expr.bare]
  · have hend : endsExpr 0 (nextKind (o :: ws ++ ([q] ++ ts))) = true := by
      show endsExpr 0 o.kind = true
      cases hk : o.kind <;> rw [hk] at ho <;> first | (cases ho; done) | decide
    refine gives_spanned ((gives_expression htarget hend hc).bind fun d found hd hfound => ?_)
    refine gives_panicking_bind hd (gives_look_bind ?_)
    have hk : d.kind = o.kind := hd.kind
    rw [hk, ho]
    refine gives_advance_bind hd fun d hd => ?_
    have hok : found.isAssignable = true := by
      rw [← Expr.isAssignable_bare, hfound, Expr.isAssignable_bare]
      exact hassign
    rw [if_pos hok]
    have hright : assigned.Gives d ts fun e => e.bare = value.bare := by
      have hstop : endsExpr 0 (nextKind ([q] ++ ts)) = true := by
        rw [show nextKind ([q] ++ ts) = .semi from hq]
        exact hsemi
      refine (gives_expression hvalue hstop hd).bind fun d e hd he => ?_
      exact gives_panicking_bind hd (gives_expect_bind hd hq fun d hd => gives_pure hd he)
    refine hright.bind fun d e hd he => gives_pure hd fun s => ?_
    simp only [Stmt.bare, hfound, he]

/-! ### Statements -/

theorem inBlock_of_ne {t : Token} {ts : List Token} (hc : c.At (t :: ts))
    (ht : t.kind ≠ .rbrace) : inBlock c = true := by
  have hk : c.kind = t.kind := hc.kind
  simp [inBlock, Cursor.atEnd, hc.rest, hk, ht]

theorem inBlock_of_rbrace {t : Token} {ts : List Token} (hc : c.At (t :: ts))
    (ht : t.kind = .rbrace) : inBlock c = false := by
  have hk : c.kind = .rbrace := hc.kind.trans ht
  simp [inBlock, hk]

/-- Statements in braces, with `inner` for those that are not longer than `n` tokens. -/
theorem gives_block {inner : Parse .short (Option Stmt)} {n : Nat} {s : Span} {stmts : List Stmt}
    {us ts : List Token} (hread : (Stmt.block s stmts).ReadFrom us) (hlen : us.length ≤ n + 1)
    (hinner : ∀ x ∈ stmts, ∀ d us ts, x.ReadFrom us → us.length ≤ n → d.At (us ++ ts) →
      inner.Gives d ts fun o => ∃ y, o = some y ∧ y.bare = x.bare)
    (hc : c.At (us ++ ts)) :
    (block inner).Gives c ts fun b => b.stmts.map Stmt.bare = stmts.map Stmt.bare := by
  obtain ⟨l, vs, r, rfl, hl, hr, hstmts⟩ := hread
  rw [stmtsReadFrom_eq] at hstmts
  simp only [List.length_cons, List.length_append] at hlen
  rw [List.cons_append, List.append_assoc] at hc
  refine gives_spanned (gives_advance_bind hc fun d hd => ?_)
  have hloop : (whileMore inBlock (recovering Cursor.endStatement inner)).Gives d ([r] ++ ts)
      fun found => found.map Stmt.bare = stmts.map Stmt.bare := by
    refine gives_whileMore (fun x h => x.not_readFrom_nil h.1) ?_
      (fun x hx d us ts h => hinner x hx d us ts h.1 h.2)
      (fun d hd => inBlock_of_rbrace hd hr) (hstmts.bounded (n := n) (by omega)) hd
    intro x _ d us ts h hd
    obtain ⟨t, vs, rfl, ht⟩ := Stmt.startsStatement_of_readFrom h.1
    refine inBlock_of_ne hd fun hk => ?_
    rw [hk] at ht
    cases ht
  refine hloop.bind fun d found hd hfound => gives_expect_bind hd hr fun d hd => ?_
  exact gives_pure hd fun span => hfound

theorem startsVarDecl_of_startsExpression {k : Kind} (h : k.startsExpression = true) :
    k.startsVarDecl = false := by
  cases k <;> first | rfl | cases h

theorem startsPrint_of_kind (h : c.kind ≠ .ident) : c.startsPrint = false := by
  have hword : c.current.isWord "System" = false := by
    simp only [Token.isWord, Bool.and_eq_false_iff, beq_eq_false_iff_ne]
    exact .inl h
  simp [Cursor.startsPrint, hword]

/-- What the parser looks at to tell the statements apart. -/
theorem gives_statementWith {inner : Parse .short (Option Stmt)} {n : Nat} {x : Stmt}
    {us ts : List Token} (hread : x.ReadFrom us) (hlen : us.length ≤ n + 1)
    (hinner : ∀ s stmts, x = .block s stmts → ∀ y ∈ stmts, ∀ d us ts, y.ReadFrom us →
      us.length ≤ n → d.At (us ++ ts) →
      inner.Gives d ts fun o => ∃ z, o = some z ∧ z.bare = y.bare)
    (hc : c.At (us ++ ts)) :
    (statementWith inner).Gives c ts fun o => ∃ y, o = some y ∧ y.bare = x.bare := by
  refine gives_look_bind ?_
  show Gives (if (c.kind == .ident && (c.ahead 1).kind == .ident) = true then _ else
    if c.startsPrint = true then _ else if c.kind.startsVarDecl = true then _ else
    if c.kind.startsExpression = true then _ else if (c.kind == .lbrace) = true then _ else _) c ts _
  cases x with
  | block s stmts =>
    obtain ⟨l, vs, r, rfl, hl, -⟩ := id hread
    have hk : c.kind = .lbrace := hc.kind.trans hl
    have hprint : c.startsPrint = false := startsPrint_of_kind (by rw [hk]; decide)
    rw [hprint, hk]
    refine (gives_block hread hlen (hinner s stmts rfl) hc).bind fun d b hd hb => ?_
    refine gives_pure hd ⟨_, rfl, ?_⟩
    simp only [Stmt.bare, bareStmts_eq, hb]
  | varDecl s isFinal type name init =>
    have hk : c.kind.startsVarDecl = true := by
      obtain ⟨fs, vs, rfl, hfs, ws, y, zs, q, rfl, ⟨t, -, w, bs, rfl, hw, -⟩, -⟩ := hread
      cases isFinal with
      | true =>
        obtain ⟨f, fs, rfl, hf, -⟩ := List.map_eq_cons_iff.1 hfs
        rw [hc.kind, show nextKind (f :: fs ++ _ ++ ts) = .kwFinal from hf]
        rfl
      | false =>
        obtain rfl : fs = [] := List.map_eq_nil_iff.1 hfs
        have hkw : c.kind = w.kind := hc.kind
        rw [hkw]
        simp [Kind.startsVarDecl, hw]
    have hident : c.kind ≠ .ident := by
      intro h
      rw [h] at hk
      cases hk
    rw [if_neg (by simp [hident]), startsPrint_of_kind hident, if_neg (by decide), if_pos hk]
    exact ((gives_varDecl hread hc).imp fun y hy => ⟨y, rfl, hy⟩).map
  | print s method arg =>
    obtain ⟨t, d, o, d', m, l, vs, r, q, rfl, hs, -⟩ := id hread
    have hone : (c.ahead 1).kind = .dot := by
      rw [hc.kind_ahead_one]
      simp only [spellsPrint, Bool.and_eq_true, beq_iff_eq] at hs
      exact hs.1.1.2
    have hprint : c.startsPrint = true := by
      rw [Cursor.startsPrint_eq hc.stop, hc.rest]
      exact hs
    rw [if_neg (by simp [hone]), if_pos hprint]
    exact ((gives_printStmt hread hc).imp fun y hy => ⟨y, rfl, hy⟩).map
  | expr s target op t value =>
    obtain ⟨vs, ws, q, rfl, hs, htarget, hassigned, hq⟩ := id hread
    obtain ⟨u, vs', rfl, hu⟩ := target.startsExpression_of_readFrom vs htarget
    have hk : c.kind = u.kind := hc.kind
    have hprint : c.startsPrint = false := by
      rw [Cursor.startsPrint_eq hc.stop, hc.rest, ← List.append_assoc, List.append_assoc,
        List.singleton_append, spellsPrint_append hq, List.append_assoc]
      exact hs
    -- a name is followed by a selector, an operator or the semicolon
    have hsecond : (c.kind == .ident && (c.ahead 1).kind == .ident) = false := by
      rw [hc.kind_ahead_one, hk, List.append_assoc]
      by_cases hident : u.kind = .ident
      · have hnext : nextKind (ws ++ [q] ++ ts) ≠ .ident := by
          rcases hassigned with ⟨-, -, rfl⟩ | ⟨o, ws', rfl, ho, -⟩
          · rw [show nextKind ([] ++ [q] ++ ts) = .semi from hq]
            decide
          · intro h
            rw [show o.kind = .ident from h] at ho
            cases ho
        have htail := target.second_ne_ident _ _ htarget hnext hident
        rw [beq_eq_false_iff_ne.2 htail, Bool.and_false]
      · simp [hident]
    rw [if_neg (by rw [hsecond]; decide), hprint, if_neg (by decide), hk,
      startsVarDecl_of_startsExpression hu, if_neg (by decide), if_pos hu]
    exact ((gives_exprStmt hread hc).imp fun y hy => ⟨y, rfl, hy⟩).map
  | missing => cases hread

/-- Every statement is read back, whatever follows it. -/
theorem gives_statementWithin (x : Stmt) : ∀ n (c : Cursor) us ts, x.ReadFrom us →
    us.length < n → c.At (us ++ ts) →
    (statementWithin n).Gives c ts fun o => ∃ y, o = some y ∧ y.bare = x.bare := by
  induction x using Stmt.byParts with
  | block s stmts ih =>
    intro n c us ts hread hlen hc
    obtain ⟨n, rfl⟩ : ∃ m, n = m + 1 := ⟨n - 1, by omega⟩
    cases n with
    | zero =>
      obtain ⟨l, vs, r, rfl, -⟩ := hread
      simp at hlen
    | succ n =>
      refine gives_statementWith hread (Nat.le_of_lt_succ hlen) ?_ hc
      intro s' stmts' h y hy d vs ws hyread hvs hd
      cases h
      exact ih y hy (n + 1) d vs ws hyread (by omega) hd
  | missing =>
    intro n c us ts hread
    cases hread
  | varDecl s isFinal type name init =>
    intro n c us ts hread hlen hc
    obtain ⟨n, rfl⟩ : ∃ m, n = m + 1 := ⟨n - 1, by omega⟩
    exact gives_statementWith hread (Nat.le_of_lt hlen) (fun _ _ h => nomatch h) hc
  | print s method arg =>
    intro n c us ts hread hlen hc
    obtain ⟨n, rfl⟩ : ∃ m, n = m + 1 := ⟨n - 1, by omega⟩
    exact gives_statementWith hread (Nat.le_of_lt hlen) (fun _ _ h => nomatch h) hc
  | expr s target op t value =>
    intro n c us ts hread hlen hc
    obtain ⟨n, rfl⟩ : ∃ m, n = m + 1 := ⟨n - 1, by omega⟩
    exact gives_statementWith hread (Nat.le_of_lt hlen) (fun _ _ h => nomatch h) hc

theorem gives_statement {x : Stmt} {us ts : List Token} (hread : x.ReadFrom us)
    (hc : c.At (us ++ ts)) :
    statement.Gives c ts fun o => ∃ y, o = some y ∧ y.bare = x.bare := by
  have hlen : us.length < c.rest.length + 1 := by
    rw [hc.rest, List.length_append]
    omega
  have h := gives_statementWithin x (c.rest.length + 1) c us ts hread hlen hc
  exact ⟨h.clean, h.ends, h.value⟩

/-! ### Members and classes -/

/-- The header of a main method, and then its body, if a body stands there. -/
theorem gives_mainMethod_of_body {hs ls us ts : List Token} {n x r : Token}
    {Q : Option Block → Prop} (hhs : hs.map Token.kind = [.kwPublic, .kwStatic, .kwVoid])
    (hn : n.kind = .ident) (hls : ls.map Token.kind = [.lparen, .kwString, .lbracket, .rbracket])
    (hx : x.kind = .ident) (hr : r.kind = .rparen)
    (hbody : ∀ d, d.At us → methodBody.Gives d ts Q)
    (hc : c.At (hs ++ n :: (ls ++ x :: r :: us))) :
    mainMethod.Gives c ts fun y => ∃ s body,
      y = .main s ⟨n.value, n.span⟩ ⟨x.value, x.span⟩ body ∧ Q body := by
  obtain ⟨h₀, hs, rfl, -, hhs⟩ := List.map_eq_cons_iff.1 hhs
  obtain ⟨h₁, hs, rfl, -, hhs⟩ := List.map_eq_cons_iff.1 hhs
  obtain ⟨h₂, hs, rfl, -, hhs⟩ := List.map_eq_cons_iff.1 hhs
  obtain rfl : hs = [] := List.map_eq_nil_iff.1 hhs
  simp only [List.cons_append, List.nil_append] at hc
  refine gives_spanned (gives_advance_bind hc fun c hc => gives_advance_bind hc fun c hc => ?_)
  refine gives_advance_bind hc fun c hc => (gives_expectIdent hc hn).bind ?_
  rintro c _ hc rfl
  refine (gives_expectAll hc hls).bind ?_
  rintro c _ hc rfl
  refine (gives_expectIdent hc hx).bind ?_
  rintro c _ hc rfl
  refine gives_expect_bind hc hr fun c hc => (hbody c hc).bind fun c body hc hQ => ?_
  exact gives_pure hc fun s => ⟨s, body, rfl, hQ⟩

theorem gives_methodBody {p : Block → Prop} {l : Token} {us ts : List Token} (hl : l.kind = .lbrace)
    (hblock : (block statement).Gives c ts p) (hc : c.At (l :: us)) :
    methodBody.Gives c ts fun o => ∃ b, o = some b ∧ p b := by
  have hk : c.kind = .lbrace := hc.kind.trans hl
  apply gives_look_bind
  rw [if_pos (by rw [hk]; rfl)]
  exact (hblock.imp fun b hb => ⟨b, rfl, hb⟩).map

theorem gives_mainMethod {s : Span} {name param : Ident} {body : Option Block}
    {us ts : List Token} (hread : (Member.main s name param body).ReadFrom us)
    (hc : c.At (us ++ ts)) :
    mainMethod.Gives c ts fun x => x.bare = (Member.main s name param body).bare := by
  obtain ⟨hs, n, ls, x, r, vs, rfl, hhs, hn, hls, hx, hr, b, rfl, hb⟩ := hread
  simp only [List.cons_append, List.append_assoc] at hc
  have hbody : ∀ d : Cursor, d.At (vs ++ ts) →
      methodBody.Gives d ts fun o => ∃ found, o = some found ∧ found.bare = b.bare := by
    intro d hd
    obtain ⟨l, ws, r, rfl, hl, -⟩ := id hb
    refine gives_methodBody hl ?_ hd
    refine (gives_block hb (Nat.le_succ _) (fun y _ d us ts hy _ => gives_statement hy) hd).imp ?_
    intro found hfound
    rw [Block.bare, Block.bare, hfound]
  refine (gives_mainMethod_of_body hhs hn.1 hls hx.1 hr hbody hc).imp ?_
  rintro _ ⟨s', _, rfl, found, rfl, hfound⟩
  simp only [Member.bare, Ident.bare, hn.2, hx.2, Option.map_some, hfound]

/-- Single tokens read one after another. -/
theorem readEach_tokens {P : Token → Prop} {ms : List Token} (h : ∀ m ∈ ms, P m) :
    ReadEach (fun m us => us = [m] ∧ P m) ms ms := by
  induction ms with
  | nil => rfl
  | cons m ms ih =>
    exact ⟨[m], ms, rfl, ⟨rfl, h m List.mem_cons_self⟩,
      ih fun y hy => h y (List.mem_cons_of_mem m hy)⟩

theorem gives_modifiers {ms us : List Token} (hms : ∀ m ∈ ms, m.kind.isModifier = true)
    (hend : (nextKind us).isModifier = false) (hc : c.At (ms ++ us)) :
    (untilNone modifier).Gives c us (· = ms) := by
  have h : (untilNone modifier).Gives c us fun found => found.map id = ms.map id := by
    refine gives_untilNone (F := fun _ => True) ?_ (fun _ _ _ _ => trivial) ?_ ?_ trivial
      (readEach_tokens hms) hc
    · intro m hm
      cases hm.1
    · intro m _ d vs ts hm hd _
      obtain ⟨rfl, hm⟩ := hm
      refine gives_look_bind ?_
      have hk : d.kind = m.kind := hd.kind
      rw [if_pos (by rw [hk]; exact hm)]
      exact Gives.map (gives_advance hd ⟨m, rfl, rfl⟩)
    · intro d hd
      refine gives_look_bind ?_
      rw [if_neg (by rw [hd.kind, hend]; decide)]
      exact gives_pure hd rfl
  exact h.imp fun found hfound => by simpa using hfound

theorem isModifier_of_isTypeWord {k : Kind} (h : k.isTypeWord = true) : k.isModifier = false := by
  cases k <;> first | rfl | cases h

theorem gives_fieldDecl {s : Span} {modifiers : List Text} {isFinal : Bool}
    {type : Option TypeSpec} {name : Ident} {init : Expr} {us ts : List Token}
    (hread : (Member.field s modifiers isFinal type name init).ReadFrom us)
    (hc : c.At (us ++ ts)) :
    fieldDecl.Gives c ts
      fun x => x.bare = (Member.field s modifiers isFinal type name init).bare := by
  obtain ⟨ms, vs, rfl, hms, rfl, rfl, hdecl⟩ := hread
  rw [List.append_assoc] at hc
  have hend : (nextKind (vs ++ ts)).isModifier = false := by
    obtain ⟨ws, x, zs, q, rfl, ⟨t, -, w, bs, rfl, hw, -⟩, -⟩ := hdecl
    exact isModifier_of_isTypeWord hw
  refine gives_spanned ((gives_modifiers hms hend hc).bind ?_)
  rintro d found hd rfl
  refine gives_declared (fun type name init span => Member.field span
    (found.map (·.value)) (found.any (·.kind = .kwFinal)) type name init) hdecl hd ?_
  intro type' name' init' ht hn hi s
  simp only [Member.bare, ht, hn, hi]

theorem startsMain_of_kinds {hs us : List Token} (hc : c.At (hs ++ us))
    (hhs : hs.map Token.kind = [.kwPublic, .kwStatic, .kwVoid]) : c.startsMain = true := by
  obtain ⟨h₀, hs, rfl, hk₀, hhs⟩ := List.map_eq_cons_iff.1 hhs
  obtain ⟨h₁, hs, rfl, hk₁, hhs⟩ := List.map_eq_cons_iff.1 hhs
  obtain ⟨h₂, hs, rfl, hk₂, -⟩ := List.map_eq_cons_iff.1 hhs
  simp [Cursor.startsMain, Cursor.kind, Cursor.current, Cursor.ahead_short, hc.rest, hk₀, hk₁, hk₂]

/-- The main method and the fields are told apart by three tokens. -/
theorem gives_member {x : Member} {us ts : List Token} (hread : x.ReadFrom us)
    (hc : c.At (us ++ ts)) : member.Gives c ts fun y => y.bare = x.bare := by
  refine gives_look_bind ?_
  cases x with
  | main s name param body =>
    have hmain : c.startsMain = true := by
      obtain ⟨hs, n, ls, x, r, vs, rfl, hhs, -⟩ := hread
      rw [List.append_assoc] at hc
      exact startsMain_of_kinds hc hhs
    rw [if_pos hmain]
    exact gives_mainMethod hread hc
  | field s modifiers isFinal type name init =>
    -- three modifiers, or fewer and the word of a type
    have hmain : c.startsMain = false := by
      obtain ⟨ms, vs, rfl, hms, -, -, ws, x, zs, q, rfl, ⟨t, -, w, bs, rfl, hw, -⟩, -⟩ := hread
      have hne : w.kind ≠ .kwPublic ∧ w.kind ≠ .kwStatic ∧ w.kind ≠ .kwVoid := by
        refine ⟨?_, ?_, ?_⟩ <;> intro h <;> rw [h] at hw <;> cases hw
      rcases ms with _ | ⟨m₀, _ | ⟨m₁, _ | ⟨m₂, ms⟩⟩⟩
      · simp [Cursor.startsMain, Cursor.kind, Cursor.current, Cursor.ahead_short, hc.rest, hne]
      · simp [Cursor.startsMain, Cursor.ahead_short, hc.rest, hne]
      · simp [Cursor.startsMain, Cursor.ahead_short, hc.rest, hne]
      · have hm₂ : m₂.kind ≠ .kwVoid := by
          intro h
          have hmod := hms m₂ (by simp)
          rw [h] at hmod
          cases hmod
        simp [Cursor.startsMain, Cursor.ahead_short, hc.rest, hm₂]
    rw [if_neg (by rw [hmain]; decide)]
    exact gives_fieldDecl hread hc

/-- The header of a class, and then its members, if members stand there up to the brace. -/
theorem gives_classOrSkip_of_members {hs us ts : List Token} {n l r : Token}
    {Q : List Member → Prop} (hhs : hs.map Token.kind = [.kwPublic, .kwClass])
    (hn : n.kind = .ident) (hl : l.kind = .lbrace) (hr : r.kind = .rbrace)
    (hmembers : ∀ d, d.At us → (whileMore inBlock
      (recovering Cursor.endMember (some <$> member))).Gives d (r :: ts) Q)
    (hc : c.At (hs ++ n :: l :: us)) :
    classOrSkip.Gives c ts fun o => ∃ s members,
      o = some ⟨s, ⟨n.value, n.span⟩, members⟩ ∧ Q members := by
  obtain ⟨h₀, hs, rfl, hk₀, hhs⟩ := List.map_eq_cons_iff.1 hhs
  obtain ⟨h₁, hs, rfl, hk₁, hhs⟩ := List.map_eq_cons_iff.1 hhs
  obtain rfl : hs = [] := List.map_eq_nil_iff.1 hhs
  simp only [List.cons_append, List.nil_append] at hc
  have hstart : c.startsClass = true := by
    simp [Cursor.startsClass, Cursor.kind, Cursor.current, Cursor.ahead_short, hc.rest, hk₀, hk₁]
  refine gives_look_bind ?_
  rw [if_pos hstart]
  refine Gives.map (gives_spanned (gives_advance_bind hc fun c hc => ?_))
  refine gives_advance_bind hc fun c hc => (gives_expectIdent hc hn).bind ?_
  rintro c _ hc rfl
  refine gives_expect_bind hc hl fun c hc => (hmembers c hc).bind fun c members hc hQ => ?_
  refine gives_expect_bind hc hr fun c hc => gives_pure hc fun s => ?_
  exact ⟨s, members, rfl, hQ⟩

theorem gives_classOrSkip {x : ClassDecl} {us ts : List Token} (hread : x.ReadFrom us)
    (hc : c.At (us ++ ts)) :
    classOrSkip.Gives c ts fun o => ∃ y, o = some y ∧ y.bare = x.bare := by
  obtain ⟨hs, n, l, vs, r, rfl, hhs, hn, hl, hms, hr⟩ := hread
  simp only [List.cons_append, List.append_assoc] at hc
  have hloop : ∀ d : Cursor, d.At (vs ++ ([r] ++ ts)) → (whileMore inBlock
      (recovering Cursor.endMember (some <$> member))).Gives d (r :: ts)
        fun found => found.map Member.bare = x.members.map Member.bare := by
    intro d hd
    refine gives_whileMore Member.not_readFrom_nil ?_
      (fun y _ d us ts hy hd => Gives.map ((gives_member hy hd).imp fun z hz => ⟨z, rfl, hz⟩))
      (fun d hd => inBlock_of_rbrace hd hr) hms hd
    intro y _ d us ts hy hd
    obtain ⟨t, vs, rfl, ht⟩ := Member.startsMember_of_readFrom hy
    refine inBlock_of_ne hd fun hk => ?_
    rw [hk] at ht
    cases ht
  refine (gives_classOrSkip_of_members hhs hn.1 hl hr hloop hc).imp ?_
  rintro _ ⟨s, members, rfl, hmembers⟩
  refine ⟨_, rfl, ?_⟩
  simp only [ClassDecl.bare, Ident.bare, hn.2, hmembers]

/-! ### Whole lists of tokens -/

theorem atEnd_of_readFrom {t : Token} {ts : List Token} (hc : c.At (t :: ts)) :
    (!c.atEnd) = true := by
  simp [Cursor.atEnd, hc.rest]

theorem gives_statements {s : Span} {stmts : List Stmt} {us : List Token}
    (hread : (Root.statements s stmts).ReadFrom us) (hc : c.At us) :
    statements.Gives c [] fun root => root.bare = (Root.statements s stmts).bare := by
  rw [← List.append_nil us] at hc
  have hloop : (whileMore (fun c => !c.atEnd) (recovering Cursor.endStatement statement)).Gives c []
      fun found => found.map Stmt.bare = stmts.map Stmt.bare := by
    refine gives_whileMore Stmt.not_readFrom_nil ?_ (fun x _ d us ts hx hd => gives_statement hx hd)
      (fun d hd => by simp [Cursor.atEnd, hd.rest]) hread hc
    intro x _ d us ts hx hd
    obtain ⟨t, vs, rfl, -⟩ := Stmt.startsStatement_of_readFrom hx
    exact atEnd_of_readFrom hd
  refine gives_spanned (hloop.bind fun d found hd hfound => gives_pure hd fun s => ?_)
  simp only [Root.bare, hfound]

/-- A program is the classes that stand there, if there is one. -/
theorem gives_program_of_classes {Q : List ClassDecl → Prop} (hclasses : classes.Gives c [] Q)
    (hne : ∀ xs, Q xs → xs ≠ []) :
    program.Gives c [] fun root => ∃ s xs, root = .program s xs ∧ Q xs := by
  have hlisten : (listen classes).Gives c [] fun found => Q found.1 :=
    ⟨hclasses.clean, hclasses.ends, hclasses.value⟩
  refine gives_spanned (hlisten.bind ?_)
  rintro d ⟨found, errors⟩ hd hQ
  have hsome : found ≠ [] := hne found hQ
  show Gives (if (found.isEmpty && errors.isEmpty) = true then _ else _) d [] _
  rw [if_neg (by simp [hsome])]
  exact gives_pure hd fun s => ⟨s, found, rfl, hQ⟩

theorem gives_program {s : Span} {xs : List ClassDecl} {us : List Token}
    (hread : (Root.program s xs).ReadFrom us) (hc : c.At us) :
    program.Gives c [] fun root => root.bare = (Root.program s xs).bare := by
  obtain ⟨hne, hxs⟩ := hread
  rw [← List.append_nil us] at hc
  have hloop : classes.Gives c [] fun found =>
      found.map ClassDecl.bare = xs.map ClassDecl.bare := by
    refine gives_whileMore ClassDecl.not_readFrom_nil ?_
      (fun x _ d us ts hx hd => gives_classOrSkip hx hd)
      (fun d hd => by simp [Cursor.atEnd, hd.rest]) hxs hc
    intro x _ d us ts hx hd
    cases us with
    | nil => exact absurd hx x.not_readFrom_nil
    | cons t us => exact atEnd_of_readFrom hd
  have hsome : ∀ found : List ClassDecl,
      found.map ClassDecl.bare = xs.map ClassDecl.bare → found ≠ [] := by
    rintro found hfound rfl
    exact hne (List.map_eq_nil_iff.1 hfound.symm)
  refine (gives_program_of_classes hloop hsome).imp ?_
  rintro _ ⟨s', found, rfl, hfound⟩
  simp only [Root.bare, hfound]

end Parse

theorem Cursor.at_ofTokens (tokens : List Token) :
    (Cursor.ofTokens tokens).At (tokens.takeWhile (·.kind ≠ .eof)) :=
  ⟨rest_ofTokens tokens, (fields_ofTokens tokens).2, kind_stop_ofTokens tokens⟩

/-- A list of tokens that statements are read from is parsed into them without a complaint. -/
theorem parseStatements_of_readFrom {tokens : List Token} {s : Span} {stmts : List Stmt}
    (h : (Root.statements s stmts).ReadFrom (tokens.takeWhile (·.kind ≠ .eof))) :
    (parseStatements tokens).diagnostics = []
      ∧ (parseStatements tokens).root.bare = (Root.statements s stmts).bare := by
  have hgives := Parse.gives_statements h (Cursor.at_ofTokens tokens)
  rw [parseStatements_short]
  exact ⟨hgives.clean, hgives.value⟩

/-- A list of tokens that classes are read from is parsed into them without a complaint. -/
theorem parseProgram_of_readFrom {tokens : List Token} {s : Span} {classes : List ClassDecl}
    (h : (Root.program s classes).ReadFrom (tokens.takeWhile (·.kind ≠ .eof))) :
    (parseProgram tokens).diagnostics = []
      ∧ (parseProgram tokens).root.bare = (Root.program s classes).bare := by
  have hgives := Parse.gives_program h (Cursor.at_ofTokens tokens)
  rw [parseProgram_short]
  exact ⟨hgives.clean, hgives.value⟩

end JavaPrimer
