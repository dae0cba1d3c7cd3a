import JavaPrimer.Proofs.Wording

/-!
# The words of statements and classes

What `Expr.readsItsWords` says of expressions holds of every larger part of a tree.

* `spellsPrint_iff` — the front of a print statement by its words;
* `declaredReadFrom_iff`, `assignedReadFrom_iff` — the parts of statements;
* `Stmt.readsItsWords`, `Member.readFrom_iff`, `ClassDecl.readFrom_iff` — the larger parts;
* `Root.readFrom_iff` — a whole tree is read from its words and from nothing else.
-/

namespace JavaPrimer

/-! ### The front of a print statement -/

theorem isWord_iff {word : Text} (hword : Lexeme .ident word) {t : Token}
    (ht : Lexeme t.kind t.value) : t.isWord word = true ↔ t.value = word := by
  rw [Token.isWord, Bool.and_eq_true, beq_iff_eq, beq_iff_eq]
  constructor
  · exact And.right
  · intro hv
    rw [hv] at ht
    exact ⟨ht.kind_eq hword, hv⟩

theorem lexeme_system : Lexeme .ident (Text.ofString "System") :=
  Lexeme.of_word (v := Text.ofString "System") (by decide) (by decide)

theorem lexeme_out : Lexeme .ident (Text.ofString "out") :=
  Lexeme.of_word (v := Text.ofString "out") (by decide) (by decide)

theorem lexeme_printMethod {m : Text} (h : m ∈ printMethods) : Lexeme .ident m := by
  have hall : ∀ m ∈ printMethods, keyword? m = none
      ∧ m.head?.any Glyph.isWordStart = true ∧ m.all Glyph.isWordPart = true := by decide
  obtain ⟨hkey, hstart, hpart⟩ := hall m h
  have hlex := Lexeme.of_word hstart hpart
  rwa [hkey] at hlex

theorem spellsPrint_iff {ts : List Token} (hts : Lexemes ts) :
    spellsPrint ts = true ↔ printWords <+: ts.map Token.value := by
  match ts, hts with
  | [], _ => decide
  | [a], _ | [a, b], _ | [a, b, c], _ =>
    refine iff_of_false Bool.false_ne_true fun h => absurd h.length_le ?_
    simp [printWords, texts]
  | s :: d :: o :: d' :: rest, hts =>
    obtain ⟨hs, hts⟩ := lexemes_cons.1 hts
    obtain ⟨hd, hts⟩ := lexemes_cons.1 hts
    obtain ⟨ho, hts⟩ := lexemes_cons.1 hts
    obtain ⟨hd', -⟩ := lexemes_cons.1 hts
    have hpoint : (Text.ofString ".", Kind.dot) ∈ keywords ++ operators := by decide
    rw [spellsPrint, Bool.and_eq_true, Bool.and_eq_true, Bool.and_eq_true, beq_iff_eq, beq_iff_eq,
      isWord_iff lexeme_system hs, isWord_iff lexeme_out ho, hd.kind_iff hpoint,
      hd'.kind_iff hpoint]
    simp only [printWords, texts, List.map_cons, List.map_nil, List.cons_prefix_cons,
      List.nil_prefix, and_true, and_assoc]
    constructor
    · rintro ⟨h₁, h₂, h₃, h₄⟩
      exact ⟨h₁.symm, h₂.symm, h₃.symm, h₄.symm⟩
    · rintro ⟨h₁, h₂, h₃, h₄⟩
      exact ⟨h₁.symm, h₂.symm, h₃.symm, h₄.symm⟩

/-! ### Parts of statements -/

theorem initWords_of_spelled {ok : Operands} {init : Expr} (h : init.Spelled ok) :
    initWords init = texts ["="] ++ init.words := by
  cases init with
  | missing => exact absurd h id
  | _ => rfl

theorem initReadFrom_iff {init : Expr} {ts : List Token} (hts : Lexemes ts) :
    init.ReadAsInit ts ↔ init.SpelledInit .asRead ∧ ts.map Token.value = initWords init := by
  constructor
  · intro h
    rcases h with ⟨rfl, rfl⟩ | ⟨q, us, rfl, hq, hread⟩
    · exact ⟨.inl rfl, rfl⟩
    · obtain ⟨hqlex, hu⟩ := lexemes_cons.1 hts
      obtain ⟨hS, hval⟩ := (init.readsItsWords us hu).1 hread
      have hvq := (hqlex.kind_iff (s := Text.ofString "=") (by decide)).1 hq
      refine ⟨.inr hS, ?_⟩
      rw [initWords_of_spelled hS, List.map_cons, hval, hvq]
      rfl
  · intro h
    obtain ⟨rfl | hS, hval⟩ := h
    · exact .inl ⟨rfl, List.map_eq_nil_iff.1 hval⟩
    · rw [initWords_of_spelled hS] at hval
      obtain ⟨q, us, rfl, hvq, hval⟩ := List.map_eq_cons_iff.1 hval
      obtain ⟨hqlex, hu⟩ := lexemes_cons.1 hts
      exact .inr ⟨q, us, rfl, (hqlex.kind_iff (by decide)).2 hvq,
        (init.readsItsWords us hu).2 ⟨hS, hval⟩⟩

theorem typeReadFrom_iff {type : Option TypeSpec} {ts : List Token} (hts : Lexemes ts) :
    (∃ t, type = some t ∧ t.ReadFrom ts)
      ↔ TypeSpelled type ∧ ts.map Token.value = typeWords type := by
  have hbrackets : ∀ (x : TypeSpec) (bs : List Token), Lexemes bs →
      (bs.map Token.kind = (if x.isArray then [.lbracket, .rbracket] else [])
        ↔ bs.map Token.value = if x.isArray then texts ["[", "]"] else []) := by
    intro x bs hbs
    refine kinds_iff_values hbs ?_
    cases x.isArray with
    | false => exact .nil
    | true => exact .cons (by decide) (.cons (by decide) .nil)
  constructor
  · intro h
    obtain ⟨t, rfl, w, bs, rfl, hword, hname, hbs⟩ := h
    obtain ⟨hw, hbslex⟩ := lexemes_cons.1 hts
    have hkey := keyword_of_kind hw (Kind.isKeyword_of_isTypeWord hword)
    rw [hname] at hkey
    refine ⟨⟨t, _, rfl, hkey, hword⟩, ?_⟩
    rw [List.map_cons, (hbrackets t bs hbslex).1 hbs, hname]
    rfl
  · intro h
    obtain ⟨⟨t, k, rfl, hkey, hword⟩, hval⟩ := h
    obtain ⟨w, bs, rfl, hname, hbs⟩ := List.map_eq_cons_iff.1 hval
    obtain ⟨hw, hbslex⟩ := lexemes_cons.1 hts
    obtain rfl := (hw.kind_iff (List.mem_append_left _ hkey)).2 hname
    exact ⟨t, rfl, w, bs, rfl, hword, hname, (hbrackets t bs hbslex).2 hbs⟩

theorem declaredReadFrom_iff {type : Option TypeSpec} {name : Ident} {init : Expr} {ts : List Token}
    (hts : Lexemes ts) :
    ReadAsDeclared type name init ts
      ↔ (TypeSpelled type ∧ name.Spelled ∧ init.SpelledInit .asRead)
        ∧ ts.map Token.value = declaredWords type name init := by
  constructor
  · intro h
    obtain ⟨ws, x, vs, q, rfl, htype, hname, hinit, hq⟩ := h
    obtain ⟨hw, hrest⟩ := lexemes_append.1 hts
    obtain ⟨hx, hrest⟩ := lexemes_cons.1 hrest
    obtain ⟨hv, hqlex⟩ := lexemes_append.1 hrest
    obtain ⟨hst, hwt⟩ := (typeReadFrom_iff hw).1 htype
    obtain ⟨hsn, hwn⟩ := (Ident.readFrom_iff hx).1 hname
    obtain ⟨hsi, hwi⟩ := (initReadFrom_iff hv).1 hinit
    have hvq := ((hqlex q List.mem_cons_self).kind_iff (s := Text.ofString ";") (by decide)).1 hq
    refine ⟨⟨hst, hsn, hsi⟩, ?_⟩
    rw [List.map_append, List.map_cons, List.map_append, hwt, hwn, hwi, List.map_singleton, hvq]
    rfl
  · intro h
    obtain ⟨⟨hst, hsn, hsi⟩, hval⟩ := h
    obtain ⟨ws, rest, rfl, hwt, hrest⟩ := List.map_eq_append_iff.1 hval
    obtain ⟨x, rest, rfl, hwn, hrest⟩ := List.map_eq_cons_iff.1 hrest
    obtain ⟨vs, qs, rfl, hwi, hqs⟩ := List.map_eq_append_iff.1 hrest
    obtain ⟨q, rfl, hvq⟩ := List.map_eq_singleton_iff.1 hqs
    obtain ⟨hw, hrest⟩ := lexemes_append.1 hts
    obtain ⟨hx, hrest⟩ := lexemes_cons.1 hrest
    obtain ⟨hv, hqlex⟩ := lexemes_append.1 hrest
    exact ⟨ws, x, vs, q, rfl, (typeReadFrom_iff hw).2 ⟨hst, hwt⟩,
      (Ident.readFrom_iff hx).2 ⟨hsn, hwn⟩, (initReadFrom_iff hv).2 ⟨hsi, hwi⟩,
      ((hqlex q List.mem_cons_self).kind_iff (by decide)).2 hvq⟩

theorem assignedReadFrom_iff {target : Expr} {op : AssignOp} {value : Expr} {ts : List Token}
    (hts : Lexemes ts) :
    ReadAsAssigned target op value ts
      ↔ (op = .none ∧ value = .missing
          ∨ (∃ k, AssignOp.ofKind? k = some op) ∧ target.isAssignable = true
            ∧ value.Spelled .asRead)
        ∧ ts.map Token.value = assignedWords op value := by
  constructor
  · intro h
    rcases h with ⟨rfl, rfl, rfl⟩ | ⟨o, us, rfl, hop, hassign, hread⟩
    · exact ⟨.inl ⟨rfl, rfl⟩, rfl⟩
    · obtain ⟨ho, hu⟩ := lexemes_cons.1 hts
      obtain ⟨hS, hval⟩ := (value.readsItsWords us hu).1 hread
      have hvo := (ho.kind_iff (AssignOp.mem_operators hop)).1 rfl
      refine ⟨.inr ⟨⟨_, hop⟩, hassign, hS⟩, ?_⟩
      rw [List.map_cons, hval, hvo, assignedWords, if_neg (AssignOp.ne_none_of_ofKind? hop)]
  · intro h
    obtain ⟨⟨rfl, rfl⟩ | ⟨⟨k, hop⟩, hassign, hS⟩, hval⟩ := h
    · exact .inl ⟨rfl, rfl, List.map_eq_nil_iff.1 hval⟩
    · rw [assignedWords, if_neg (AssignOp.ne_none_of_ofKind? hop)] at hval
      obtain ⟨o, us, rfl, hvo, hval⟩ := List.map_eq_cons_iff.1 hval
      obtain ⟨ho, hu⟩ := lexemes_cons.1 hts
      obtain rfl := (ho.kind_iff (AssignOp.mem_operators hop)).2 hvo
      exact .inr ⟨o, us, rfl, hop, hassign, (value.readsItsWords us hu).2 ⟨hS, hval⟩⟩

/-! ### Statements -/

/-- A statement is read from its words and from nothing else. -/
def Stmt.ReadsItsWords (x : Stmt) : Prop :=
  ∀ ts, Lexemes ts → (x.ReadFrom ts ↔ x.Spelled .asRead ∧ ts.map Token.value = x.words)

theorem stmtsReadFrom_iff {xs : List Stmt} (h : ∀ x ∈ xs, x.ReadsItsWords) {ts : List Token}
    (hts : Lexemes ts) :
    stmtsReadFrom xs ts ↔ stmtsSpelled .asRead xs ∧ ts.map Token.value = stmtsWords xs := by
  rw [stmtsReadFrom_eq, stmtsSpelled_iff, stmtsWords_eq]
  exact readEach_iff hts h

theorem printReadFrom_iff {s : Span} {method : Ident} {arg : Expr} {ts : List Token}
    (hts : Lexemes ts) :
    (Stmt.print s method arg).ReadFrom ts ↔ (Stmt.print s method arg).Spelled .asRead
      ∧ ts.map Token.value = (Stmt.print s method arg).words := by
  have harg : ∀ us, Lexemes us → ((arg = .missing ∧ us = []) ∨ arg.ReadFrom us
      ↔ (arg = .missing ∨ arg.Spelled .asRead) ∧ us.map Token.value = arg.words) := by
    intro us hu
    rw [arg.readsItsWords us hu]
    constructor
    · intro h
      rcases h with ⟨rfl, rfl⟩ | ⟨hS, hval⟩
      · exact ⟨.inl rfl, rfl⟩
      · exact ⟨.inr hS, hval⟩
    · intro h
      obtain ⟨rfl | hS, hval⟩ := h
      · exact .inl ⟨rfl, List.map_eq_nil_iff.1 hval⟩
      · exact .inr ⟨hS, hval⟩
  constructor
  · intro h
    obtain ⟨a, b, c, d, m, l, us, r, q, rfl, hspell, hmethod, hmem, hl, hread, hr, hq⟩ := h
    have hall : Lexemes ([a, b, c, d] ++ m :: l :: (us ++ [r, q])) := hts
    obtain ⟨hfront, hrest⟩ := lexemes_append.1 hall
    obtain ⟨hm, hrest⟩ := lexemes_cons.1 hrest
    obtain ⟨hllex, hrest⟩ := lexemes_cons.1 hrest
    obtain ⟨hu, hrest⟩ := lexemes_append.1 hrest
    obtain ⟨hrlex, hrest⟩ := lexemes_cons.1 hrest
    obtain ⟨hqlex, -⟩ := lexemes_cons.1 hrest
    obtain ⟨hS, hval⟩ := (harg us hu).1 hread
    have hprint := ((spellsPrint_iff hfront).1 hspell).eq_of_length rfl
    have hvl := (hllex.kind_iff (s := Text.ofString "(") (by decide)).1 hl
    have hvr := (hrlex.kind_iff (s := Text.ofString ")") (by decide)).1 hr
    have hvq := (hqlex.kind_iff (s := Text.ofString ";") (by decide)).1 hq
    have hsplit : a :: b :: c :: d :: m :: l :: (us ++ [r, q])
        = [a, b, c, d] ++ m :: l :: (us ++ [r, q]) := rfl
    refine ⟨⟨hmem, hS⟩, ?_⟩
    rw [hsplit, List.map_append, ← hprint, List.map_cons, List.map_cons, List.map_append, hval,
      hmethod.2, hvl, List.map_cons, List.map_singleton, hvr, hvq, Stmt.words]
    rfl
  · intro h
    obtain ⟨⟨hmem, hS⟩, hval⟩ := h
    change ts.map Token.value = printWords ++ method.name :: Text.ofString "("
      :: (arg.words ++ [Text.ofString ")", Text.ofString ";"]) at hval
    obtain ⟨front, rest, rfl, hfrontval, hrest⟩ := List.map_eq_append_iff.1 hval
    obtain ⟨m, rest, rfl, hvm, hrest⟩ := List.map_eq_cons_iff.1 hrest
    obtain ⟨l, rest, rfl, hvl, hrest⟩ := List.map_eq_cons_iff.1 hrest
    obtain ⟨us, rest, rfl, hwu, hrest⟩ := List.map_eq_append_iff.1 hrest
    obtain ⟨r, rest, rfl, hvr, hrest⟩ := List.map_eq_cons_iff.1 hrest
    obtain ⟨q, rfl, hvq⟩ := List.map_eq_singleton_iff.1 hrest
    obtain ⟨hfront, hrest⟩ := lexemes_append.1 hts
    obtain ⟨hm, hrest⟩ := lexemes_cons.1 hrest
    obtain ⟨hllex, hrest⟩ := lexemes_cons.1 hrest
    obtain ⟨hu, hrest⟩ := lexemes_append.1 hrest
    obtain ⟨hrlex, hrest⟩ := lexemes_cons.1 hrest
    obtain ⟨hqlex, -⟩ := lexemes_cons.1 hrest
    have hspell : spellsPrint front = true :=
      (spellsPrint_iff hfront).2 (hfrontval ▸ List.prefix_rfl)
    obtain ⟨a, front, rfl, -, hfrontval⟩ := List.map_eq_cons_iff.1 hfrontval
    obtain ⟨b, front, rfl, -, hfrontval⟩ := List.map_eq_cons_iff.1 hfrontval
    obtain ⟨c, front, rfl, -, hfrontval⟩ := List.map_eq_cons_iff.1 hfrontval
    obtain ⟨d, rfl, -⟩ := List.map_eq_singleton_iff.1 hfrontval
    have hmethod : method.ReadFrom m :=
      (Ident.readFrom_iff hm).2 ⟨isToken_iff.2 (lexeme_printMethod hmem), hvm⟩
    exact ⟨a, b, c, d, m, l, us, r, q, rfl, hspell, hmethod, hmem,
      (hllex.kind_iff (by decide)).2 hvl, (harg us hu).2 ⟨hS, hwu⟩,
      (hrlex.kind_iff (by decide)).2 hvr, (hqlex.kind_iff (by decide)).2 hvq⟩

theorem Stmt.readsItsWords (x : Stmt) : x.ReadsItsWords := by
  induction x using Stmt.byParts with
  | block s stmts ih =>
    intro ts hts
    exact bracketed_iff hts (by decide) (by decide) fun _ hu => stmtsReadFrom_iff ih hu
  | varDecl s isFinal type name init =>
    intro ts hts
    have hfinal : ∀ fs : List Token, Lexemes fs →
        (fs.map Token.kind = (if isFinal then [.kwFinal] else [])
          ↔ fs.map Token.value = if isFinal then texts ["final"] else []) := by
      intro fs hfs
      refine kinds_iff_values hfs ?_
      cases isFinal with
      | false => exact .nil
      | true => exact .cons (by decide) .nil
    constructor
    · intro h
      obtain ⟨fs, us, rfl, hf, hdecl⟩ := h
      obtain ⟨hfs, hu⟩ := lexemes_append.1 hts
      obtain ⟨hS, hval⟩ := (declaredReadFrom_iff hu).1 hdecl
      exact ⟨hS, by rw [List.map_append, (hfinal fs hfs).1 hf, hval, words]⟩
    · intro h
      obtain ⟨hS, hval⟩ := h
      obtain ⟨fs, us, rfl, hf, hdecl⟩ := List.map_eq_append_iff.1 hval
      obtain ⟨hfs, hu⟩ := lexemes_append.1 hts
      exact ⟨fs, us, rfl, (hfinal fs hfs).2 hf, (declaredReadFrom_iff hu).2 ⟨hS, hdecl⟩⟩
  | print s method arg => exact fun _ hts => printReadFrom_iff hts
  | expr s target op t value =>
    intro ts hts
    constructor
    · intro h
      obtain ⟨us, vs, q, rfl, hprint, htarget, hassign, hq⟩ := h
      obtain ⟨hu, hrest⟩ := lexemes_append.1 hts
      obtain ⟨hv, hqlex⟩ := lexemes_append.1 hrest
      obtain ⟨hst, hwt⟩ := (target.readsItsWords us hu).1 htarget
      obtain ⟨hsa, hwa⟩ := (assignedReadFrom_iff hv).1 hassign
      have hvq := ((hqlex q List.mem_cons_self).kind_iff (s := Text.ofString ";") (by decide)).1 hq
      have hval : (us ++ (vs ++ [q])).map Token.value = (Stmt.expr s target op t value).words := by
        rw [List.map_append, List.map_append, hwt, hwa, List.map_singleton, hvq, words]
        rfl
      refine ⟨⟨hst, hsa, ?_⟩, hval⟩
      rw [← hval, ← spellsPrint_iff hts, hprint]
      exact Bool.false_ne_true
    · intro h
      obtain ⟨⟨hst, hsa, hprint⟩, hval⟩ := h
      rw [← hval, ← spellsPrint_iff hts, Bool.not_eq_true] at hprint
      obtain ⟨us, rest, rfl, hwt, hrest⟩ := List.map_eq_append_iff.1 hval
      obtain ⟨vs, qs, rfl, hwa, hqs⟩ := List.map_eq_append_iff.1 hrest
      obtain ⟨q, rfl, hvq⟩ := List.map_eq_singleton_iff.1 hqs
      obtain ⟨hu, hrest⟩ := lexemes_append.1 hts
      obtain ⟨hv, hqlex⟩ := lexemes_append.1 hrest
      exact ⟨us, vs, q, rfl, hprint, (target.readsItsWords us hu).2 ⟨hst, hwt⟩,
        (assignedReadFrom_iff hv).2 ⟨hsa, hwa⟩,
        ((hqlex q List.mem_cons_self).kind_iff (by decide)).2 hvq⟩
  | missing => exact fun _ _ => iff_of_false id fun h => h.1

/-! ### Members and classes -/

theorem any_final_iff {ms : List Token} (hms : Lexemes ms) :
    ms.any (·.kind = .kwFinal) = (ms.map Token.value).contains (Text.ofString "final") := by
  induction ms with
  | nil => rfl
  | cons m ms ih =>
    obtain ⟨hm, hms⟩ := lexemes_cons.1 hms
    have hkind : m.kind = .kwFinal ↔ m.value = Text.ofString "final" := hm.kind_iff (by decide)
    rw [List.any_cons, List.map_cons, List.contains_cons, ih hms, decide_eq_decide.2 hkind,
      Bool.beq_comm, beq_eq_decide]

theorem modifiers_iff {ms : List Token} (hms : Lexemes ms) :
    (∀ m ∈ ms, m.kind.isModifier = true)
      ↔ ∀ v ∈ ms.map Token.value, ∃ k, (v, k) ∈ keywords ∧ k.isModifier = true := by
  rw [List.forall_mem_map]
  refine forall₂_congr fun m hm => ?_
  constructor
  · intro h
    exact ⟨_, keyword_of_kind (hms m hm) (Kind.isKeyword_of_isModifier h), h⟩
  · intro h
    obtain ⟨k, hkey, hk⟩ := h
    rw [((hms m hm).kind_iff (List.mem_append_left _ hkey)).2 rfl]
    exact hk

theorem Member.readFrom_iff (x : Member) {ts : List Token} (hts : Lexemes ts) :
    x.ReadFrom ts ↔ x.Spelled .asRead ∧ ts.map Token.value = x.words := by
  cases x with
  | main s name param body =>
    have hhead : ∀ hs : List Token, Lexemes hs →
        (hs.map Token.kind = [.kwPublic, .kwStatic, .kwVoid]
          ↔ hs.map Token.value = texts ["public", "static", "void"]) := fun hs h =>
      kinds_iff_values h (.cons (by decide) (.cons (by decide) (.cons (by decide) .nil)))
    have hparam : ∀ ls : List Token, Lexemes ls →
        (ls.map Token.kind = [.lparen, .kwString, .lbracket, .rbracket]
          ↔ ls.map Token.value = texts ["(", "String", "[", "]"]) := fun ls h =>
      kinds_iff_values h
        (.cons (by decide) (.cons (by decide) (.cons (by decide) (.cons (by decide) .nil))))
    constructor
    · intro h
      obtain ⟨hs, n, ls, p, r, us, rfl, hhs, hname, hls, hp, hr, b, rfl, hbody⟩ := h
      obtain ⟨hhslex, hrest⟩ := lexemes_append.1 hts
      obtain ⟨hn, hrest⟩ := lexemes_cons.1 hrest
      obtain ⟨hlslex, hrest⟩ := lexemes_append.1 hrest
      obtain ⟨hplex, hrest⟩ := lexemes_cons.1 hrest
      obtain ⟨hrlex, hu⟩ := lexemes_cons.1 hrest
      obtain ⟨hsn, hwn⟩ := (Ident.readFrom_iff hn).1 hname
      obtain ⟨hsp, hwp⟩ := (Ident.readFrom_iff hplex).1 hp
      obtain ⟨hsb, hwb⟩ := ((Stmt.block b.span b.stmts).readsItsWords us hu).1 hbody
      have hvr := (hrlex.kind_iff (s := Text.ofString ")") (by decide)).1 hr
      refine ⟨⟨hsn, hsp, b, rfl, hsb⟩, ?_⟩
      rw [List.map_append, (hhead hs hhslex).1 hhs, List.map_cons, hwn, List.map_append,
        (hparam ls hlslex).1 hls, List.map_cons, hwp, List.map_cons, hvr, hwb]
      rfl
    · intro h
      obtain ⟨⟨hsn, hsp, b, rfl, hsb⟩, hval⟩ := h
      obtain ⟨hs, rest, rfl, hhs, hrest⟩ := List.map_eq_append_iff.1 hval
      obtain ⟨n, rest, rfl, hwn, hrest⟩ := List.map_eq_cons_iff.1 hrest
      obtain ⟨ls, rest, rfl, hls, hrest⟩ := List.map_eq_append_iff.1 hrest
      obtain ⟨p, rest, rfl, hwp, hrest⟩ := List.map_eq_cons_iff.1 hrest
      obtain ⟨r, us, rfl, hvr, hwb⟩ := List.map_eq_cons_iff.1 hrest
      obtain ⟨hhslex, hrest⟩ := lexemes_append.1 hts
      obtain ⟨hn, hrest⟩ := lexemes_cons.1 hrest
      obtain ⟨hlslex, hrest⟩ := lexemes_append.1 hrest
      obtain ⟨hplex, hrest⟩ := lexemes_cons.1 hrest
      obtain ⟨hrlex, hu⟩ := lexemes_cons.1 hrest
      exact ⟨hs, n, ls, p, r, us, rfl, (hhead hs hhslex).2 hhs,
        (Ident.readFrom_iff hn).2 ⟨hsn, hwn⟩, (hparam ls hlslex).2 hls,
        (Ident.readFrom_iff hplex).2 ⟨hsp, hwp⟩, (hrlex.kind_iff (by decide)).2 hvr, b, rfl,
        ((Stmt.block b.span b.stmts).readsItsWords us hu).2 ⟨hsb, hwb⟩⟩
  | field s modifiers isFinal type name init =>
    constructor
    · intro h
      obtain ⟨ms, us, rfl, hms, rfl, rfl, hdecl⟩ := h
      obtain ⟨hmslex, hu⟩ := lexemes_append.1 hts
      obtain ⟨hS, hval⟩ := (declaredReadFrom_iff hu).1 hdecl
      exact ⟨⟨(modifiers_iff hmslex).1 hms, any_final_iff hmslex, hS⟩,
        by rw [List.map_append, hval, words]⟩
    · intro h
      obtain ⟨⟨hms, hfinal, hS⟩, hval⟩ := h
      obtain ⟨ms, us, rfl, rfl, hdecl⟩ := List.map_eq_append_iff.1 hval
      obtain ⟨hmslex, hu⟩ := lexemes_append.1 hts
      exact ⟨ms, us, rfl, (modifiers_iff hmslex).2 hms, rfl,
        hfinal.trans (any_final_iff hmslex).symm, (declaredReadFrom_iff hu).2 ⟨hS, hdecl⟩⟩

theorem ClassDecl.readFrom_iff (c : ClassDecl) {ts : List Token} (hts : Lexemes ts) :
    c.ReadFrom ts ↔ c.Spelled .asRead ∧ ts.map Token.value = c.words := by
  have hhead : ∀ hs : List Token, Lexemes hs →
      (hs.map Token.kind = [.kwPublic, .kwClass] ↔ hs.map Token.value = texts ["public", "class"]) :=
    fun hs h => kinds_iff_values h (.cons (by decide) (.cons (by decide) .nil))
  have hbody : ∀ us : List Token, Lexemes us →
      ((∃ l vs r, us = l :: (vs ++ [r]) ∧ l.kind = .lbrace ∧ r.kind = .rbrace
          ∧ ReadEach Member.ReadFrom c.members vs)
        ↔ (∀ m ∈ c.members, m.Spelled .asRead)
          ∧ us.map Token.value
            = texts ["\x7b"] ++ (c.members.flatMap Member.words ++ texts ["\x7d"])) := by
    intro us hu
    refine bracketed_iff hu (by decide) (by decide) fun vs hv => ?_
    exact readEach_iff hv fun m _ ws hw => m.readFrom_iff hw
  constructor
  · intro h
    obtain ⟨hs, n, l, us, r, rfl, hhs, hname, hl, hmembers, hr⟩ := h
    obtain ⟨hhslex, hrest⟩ := lexemes_append.1 hts
    obtain ⟨hn, hrest⟩ := lexemes_cons.1 hrest
    obtain ⟨hsn, hwn⟩ := (Ident.readFrom_iff hn).1 hname
    obtain ⟨hsm, hwm⟩ := (hbody _ hrest).1 ⟨l, us, r, rfl, hl, hr, hmembers⟩
    refine ⟨⟨hsn, hsm⟩, ?_⟩
    rw [List.map_append, (hhead hs hhslex).1 hhs, List.map_cons, hwn, hwm, words]
  · intro h
    obtain ⟨⟨hsn, hsm⟩, hval⟩ := h
    obtain ⟨hs, rest, rfl, hhs, hrest⟩ := List.map_eq_append_iff.1 hval
    obtain ⟨n, rest, rfl, hwn, hwm⟩ := List.map_eq_cons_iff.1 hrest
    obtain ⟨hhslex, hrest⟩ := lexemes_append.1 hts
    obtain ⟨hn, hrest⟩ := lexemes_cons.1 hrest
    obtain ⟨l, us, r, rfl, hl, hr, hmembers⟩ := (hbody _ hrest).2 ⟨hsm, hwm⟩
    exact ⟨hs, n, l, us, r, rfl, (hhead hs hhslex).2 hhs, (Ident.readFrom_iff hn).2 ⟨hsn, hwn⟩, hl,
      hmembers, hr⟩

/-- A whole tree is read from its words and from nothing else. -/
theorem Root.readFrom_iff (x : Root) {ts : List Token} (hts : Lexemes ts) :
    x.ReadFrom ts ↔ x.Spelled .asRead ∧ ts.map Token.value = x.words := by
  cases x with
  | statements s stmts => exact readEach_iff hts fun y _ us hu => y.readsItsWords us hu
  | program s classes =>
    show classes ≠ [] ∧ ReadEach ClassDecl.ReadFrom classes ts ↔ _
    rw [readEach_iff hts fun c _ us hu => c.readFrom_iff hu, ← and_assoc]
    rfl

end JavaPrimer
