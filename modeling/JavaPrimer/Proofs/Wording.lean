import JavaPrimer.Proofs.Cutting
import JavaPrimer.Proofs.Reading

/-!
# The words of a tree

A tree is spelled when its leaves are words of the language and its operators stand where the
language has them. Such a tree determines the tokens it is written as, and what it is read from
is exactly these, if no operand needs parentheses of its own.

* `Operands` — which operands a tree may have;
* `Expr.words`, `Stmt.words`, `Member.words`, `ClassDecl.words`, `Root.words` — the tokens that a
  layout is made of;
* `Expr.Spelled`, `Stmt.Spelled`, `Member.Spelled`, `ClassDecl.Spelled`, `Root.Spelled` — trees whose
  parts are words of the language;
* `Expr.readFrom_iff`, `Stmt.readFrom_iff`, `Member.readFrom_iff`, `ClassDecl.readFrom_iff`,
  `Root.readFrom_iff` — spelled trees are read from their words and from nothing else.
-/

namespace JavaPrimer

/-! ### Words -/

/-- A list of text literals. -/
def texts (ws : List String) : List Text := ws.map Text.ofString

/-- Words in parentheses, if they are needed. -/
def enclosed (needed : Bool) (ws : List Text) : List Text :=
  if needed then texts ["("] ++ (ws ++ texts [")"]) else ws

/-- The words of a written type. -/
def TypeSpec.words (t : TypeSpec) : List Text :=
  t.name :: if t.isArray then texts ["[", "]"] else []

/-- The words of a type that may be missing. -/
def typeWords (type : Option TypeSpec) : List Text := (type.map TypeSpec.words).getD []

mutual

/-- The words of an expression, with the parentheses that its layout adds. -/
def Expr.words : Expr → List Text
  | .literal _ _ raw => [raw]
  | .name _ head selectors => head.name :: selectorsWords selectors
  | .binary _ level op _ left right =>
    enclosed (left.needsParens level false) left.words
      ++ op.spelling :: enclosed (right.needsParens level true) right.words
  | .unary _ op operand => op.spelling :: enclosed operand.isBinary operand.words
  | .step _ op operand => operand.words ++ [op.spelling]
  | .cast _ type operand =>
    texts ["("] ++ (typeWords type ++ (texts [")"] ++ enclosed operand.isBinary operand.words))
  | .paren _ inner => texts ["("] ++ (inner.words ++ texts [")"])
  | .new _ className args =>
    texts ["new"] ++ className.name :: (texts ["("] ++ (argsWords args ++ texts [")"]))
  | .bad _ | .missing => []

/-- The words of arguments. -/
def argsWords : List Expr → List Text
  | [] => []
  | e :: rest => e.words ++ moreArgsWords rest

/-- The words of further arguments. -/
def moreArgsWords : List Expr → List Text
  | [] => []
  | e :: rest => (texts [","] ++ e.words) ++ moreArgsWords rest

/-- The words of a selector. -/
def Selector.words : Selector → List Text
  | .field _ name => texts ["."] ++ [name.name]
  | .call _ args => texts ["("] ++ (argsWords args ++ texts [")"])

/-- The words of selectors. -/
def selectorsWords : List Selector → List Text
  | [] => []
  | x :: rest => x.words ++ selectorsWords rest

end

/-- The words of an initializer. -/
def initWords (init : Expr) : List Text :=
  match init with
  | .missing => []
  | e => texts ["="] ++ e.words

/-- The words of an assignment after its target. -/
def assignedWords (op : AssignOp) (value : Expr) : List Text :=
  if op = .none then [] else op.spelling :: value.words

/-- The words of a declaration after its modifiers. -/
def declaredWords (type : Option TypeSpec) (name : Ident) (init : Expr) : List Text :=
  typeWords type ++ name.name :: (initWords init ++ texts [";"])

/-- The words that a print statement starts with. -/
def printWords : List Text := texts ["System", ".", "out", "."]

mutual

/-- The words of a statement. -/
def Stmt.words : Stmt → List Text
  | .block _ stmts => texts ["\x7b"] ++ (stmtsWords stmts ++ texts ["\x7d"])
  | .varDecl _ isFinal type name init =>
    (if isFinal then texts ["final"] else []) ++ declaredWords type name init
  | .print _ method arg =>
    printWords ++ method.name :: (texts ["("] ++ (arg.words ++ texts [")", ";"]))
  | .expr _ target op _ value => target.words ++ (assignedWords op value ++ texts [";"])
  | .missing => []

/-- The words of statements. -/
def stmtsWords : List Stmt → List Text
  | [] => []
  | x :: rest => x.words ++ stmtsWords rest

end

/-- The words of a member of a class. -/
def Member.words : Member → List Text
  | .field _ modifiers _ type name init => modifiers ++ declaredWords type name init
  | .main _ name param body =>
    texts ["public", "static", "void"] ++ name.name :: (texts ["(", "String", "[", "]"]
      ++ param.name :: (texts [")"] ++ (Stmt.block .nowhere ((body.map Block.stmts).getD [])).words))

/-- The words of a class. -/
def ClassDecl.words (c : ClassDecl) : List Text :=
  texts ["public", "class"] ++ c.name.name
    :: (texts ["\x7b"] ++ (c.members.flatMap Member.words ++ texts ["\x7d"]))

/-- The words of a whole tree. -/
def Root.words : Root → List Text
  | .statements _ stmts => stmts.flatMap Stmt.words
  | .program _ classes => classes.flatMap ClassDecl.words

/-! ### Spelled trees -/

/-- Which operands a tree may have: beside a binary operator, behind a unary operator or a cast,
and before a step operator. -/
structure Operands where
  beside : Level → Bool → Expr → Bool
  behind : Expr → Bool
  before : Expr → Bool

/-- An identifier is a word that is not reserved. -/
def Ident.Spelled (x : Ident) : Prop := x.name.IsToken .ident

/-- A written type is there and has one of the words for types. -/
def TypeSpelled (type : Option TypeSpec) : Prop :=
  ∃ t k, type = some t ∧ (t.name, k) ∈ keywords ∧ k.isTypeWord = true

mutual

/-- An expression is spelled: nothing of it is missing, its operators stand on their levels, its
leaves are words of the language. -/
def Expr.Spelled (ok : Operands) : Expr → Prop
  | .binary _ level op _ left right =>
    (∃ k, level.Writes k op) ∧ ok.beside level false left = true ∧ ok.beside level true right = true
      ∧ left.Spelled ok ∧ right.Spelled ok
  | .unary _ op operand =>
    (∃ k, UnaryOp.ofKind? k = some op) ∧ ok.behind operand = true ∧ operand.Spelled ok
  | .step _ op operand =>
    (∃ k, UnaryOp.ofKind? k = some op) ∧ op.isStep = true ∧ ok.before operand = true
      ∧ operand.Spelled ok
  | .cast _ type operand =>
    (∃ t k, type = some t ∧ t.isArray = false ∧ (t.name, k) ∈ keywords ∧ k.isPrimitive = true)
      ∧ ok.behind operand = true ∧ operand.Spelled ok
  | .paren _ inner => inner.Spelled ok
  | .literal _ sort raw => ∃ k, LiteralSort.ofKind? k = some sort ∧ raw.IsToken k
  | .name _ head selectors => head.Spelled ∧ selectorsSpelled ok selectors
  | .new _ className args => className.Spelled ∧ exprsSpelled ok args
  | .bad _ | .missing => False

/-- Each of a list of expressions is spelled. -/
def exprsSpelled (ok : Operands) : List Expr → Prop
  | [] => True
  | e :: rest => e.Spelled ok ∧ exprsSpelled ok rest

/-- A selector is spelled. -/
def Selector.Spelled (ok : Operands) : Selector → Prop
  | .field _ name => name.Spelled
  | .call _ args => exprsSpelled ok args

/-- Each of a list of selectors is spelled. -/
def selectorsSpelled (ok : Operands) : List Selector → Prop
  | [] => True
  | x :: rest => x.Spelled ok ∧ selectorsSpelled ok rest

end

/-- An initializer is missing or spelled. -/
def Expr.SpelledInit (ok : Operands) (init : Expr) : Prop := init = .missing ∨ init.Spelled ok

mutual

/-- A statement is spelled. What starts like a print statement is one. -/
def Stmt.Spelled (ok : Operands) : Stmt → Prop
  | .block _ stmts => stmtsSpelled ok stmts
  | .varDecl _ _ type name init => TypeSpelled type ∧ name.Spelled ∧ init.SpelledInit ok
  | .print _ method arg => method.name ∈ printMethods ∧ (arg = .missing ∨ arg.Spelled ok)
  | .expr s target op t value =>
    target.Spelled ok ∧ (op = .none ∧ value = .missing
      ∨ (∃ k, AssignOp.ofKind? k = some op) ∧ target.isAssignable = true ∧ value.Spelled ok)
      ∧ ¬ printWords <+: (Stmt.expr s target op t value).words
  | .missing => False

/-- Each of a list of statements is spelled. -/
def stmtsSpelled (ok : Operands) : List Stmt → Prop
  | [] => True
  | x :: rest => x.Spelled ok ∧ stmtsSpelled ok rest

end

/-- A member of a class is spelled; a field is final if one of its modifiers says so. -/
def Member.Spelled (ok : Operands) : Member → Prop
  | .main _ name param body =>
    name.Spelled ∧ param.Spelled ∧ ∃ b, body = some b ∧ stmtsSpelled ok b.stmts
  | .field _ modifiers isFinal type name init =>
    (∀ m ∈ modifiers, ∃ k, (m, k) ∈ keywords ∧ k.isModifier = true)
      ∧ isFinal = modifiers.contains (Text.ofString "final")
      ∧ TypeSpelled type ∧ name.Spelled ∧ init.SpelledInit ok

/-- A class is spelled. -/
def ClassDecl.Spelled (ok : Operands) (c : ClassDecl) : Prop :=
  c.name.Spelled ∧ ∀ m ∈ c.members, m.Spelled ok

/-- A whole tree is spelled; a program has a class. -/
def Root.Spelled (ok : Operands) : Root → Prop
  | .statements _ stmts => ∀ x ∈ stmts, x.Spelled ok
  | .program _ classes => classes ≠ [] ∧ ∀ c ∈ classes, c.Spelled ok

/-! ### Single words -/

theorem Ident.readFrom_iff {x : Ident} {t : Token} (ht : Lexeme t.kind t.value) :
    x.ReadFrom t ↔ x.Spelled ∧ t.value = x.name := by
  rw [Ident.ReadFrom, Ident.Spelled, isToken_iff]
  constructor
  · intro h
    obtain ⟨hk, hv⟩ := h
    rw [hk, hv] at ht
    exact ⟨ht, hv⟩
  · intro h
    obtain ⟨hx, hv⟩ := h
    rw [← hv] at hx
    exact ⟨ht.kind_eq hx, hv⟩

theorem Level.Writes.mem_operators {level : Level} {k : Kind} {op : BinaryOp}
    (h : level.Writes k op) : (op.spelling, k) ∈ keywords ++ operators := by
  have hall : ∀ tier ∈ tiers, ∀ entry ∈ tier.ops, (entry.2.spelling, entry.1) ∈ operators := by
    decide
  obtain ⟨tier, htier, -, hop⟩ := h
  obtain ⟨entry, hentry, rfl⟩ := Option.map_eq_some_iff.1 hop
  have hkind : entry.1 = k := by simpa using List.find?_some hentry
  have hmem := hall tier htier entry (List.mem_of_find?_eq_some hentry)
  rw [hkind] at hmem
  exact List.mem_append_right _ hmem

theorem UnaryOp.mem_operators {k : Kind} {op : UnaryOp} (h : ofKind? k = some op) :
    (op.spelling, k) ∈ keywords ++ operators := by
  refine List.mem_append_right _ ?_
  cases k <;> cases h <;> decide

theorem AssignOp.mem_operators {k : Kind} {op : AssignOp} (h : ofKind? k = some op) :
    (op.spelling, k) ∈ keywords ++ operators := by
  refine List.mem_append_right _ ?_
  cases k <;> cases h <;> decide

theorem AssignOp.ne_none_of_ofKind? {k : Kind} {op : AssignOp} (h : ofKind? k = some op) :
    op ≠ .none := by
  cases k <;> cases h <;> exact AssignOp.noConfusion

theorem keyword_of_kind {k : Kind} {v : Text} (h : Lexeme k v) (hk : k.isKeyword = true) :
    (v, k) ∈ keywords := by
  obtain ⟨entry, hentry, hkind⟩ := List.any_eq_true.1 hk
  obtain rfl : entry.2 = k := by simpa using hkind
  have hv := (h.kind_iff (List.mem_append_left _ hentry)).1 rfl
  rw [hv]
  exact hentry

theorem Kind.isKeyword_of_isTypeWord {k : Kind} (h : k.isTypeWord = true) : k.isKeyword = true := by
  cases k <;> first | rfl | cases h

theorem Kind.isKeyword_of_isModifier {k : Kind} (h : k.isModifier = true) : k.isKeyword = true := by
  cases k <;> first | rfl | cases h

theorem Kind.isTypeWord_of_isPrimitive {k : Kind} (h : k.isPrimitive = true) :
    k.isTypeWord = true := by
  rw [isTypeWord, h, Bool.or_true]

/-- Tokens of kinds with one spelling each. -/
theorem kinds_iff_values {ks : List Kind} {ws : List Text} {ts : List Token} (hts : Lexemes ts)
    (hks : List.Forall₂ (fun w k => (w, k) ∈ keywords ++ operators) ws ks) :
    ts.map Token.kind = ks ↔ ts.map Token.value = ws := by
  induction hks generalizing ts with
  | nil => rw [List.map_eq_nil_iff, List.map_eq_nil_iff]
  | @cons w k ws ks hw hks ih =>
    cases ts with
    | nil => exact iff_of_false (by simp) (by simp)
    | cons t ts =>
      obtain ⟨ht, hts⟩ := lexemes_cons.1 hts
      rw [List.map_cons, List.map_cons, List.cons.injEq, List.cons.injEq, ih hts, ht.kind_iff hw]

/-! ### Lists -/

theorem moreArgsWords_eq (es : List Expr) :
    moreArgsWords es = es.flatMap fun e => texts [","] ++ e.words := by
  induction es with
  | nil => rfl
  | cons e es ih => rw [moreArgsWords, ih, List.flatMap_cons]

theorem selectorsWords_eq (xs : List Selector) : selectorsWords xs = xs.flatMap Selector.words := by
  induction xs with
  | nil => rfl
  | cons x xs ih => rw [selectorsWords, ih, List.flatMap_cons]

theorem stmtsWords_eq (xs : List Stmt) : stmtsWords xs = xs.flatMap Stmt.words := by
  induction xs with
  | nil => rfl
  | cons x xs ih => rw [stmtsWords, ih, List.flatMap_cons]

theorem exprsSpelled_iff {ok : Operands} {es : List Expr} :
    exprsSpelled ok es ↔ ∀ e ∈ es, e.Spelled ok := by
  induction es with
  | nil => exact iff_of_true trivial fun e he => nomatch he
  | cons e es ih => rw [exprsSpelled, ih, List.forall_mem_cons]

theorem selectorsSpelled_iff {ok : Operands} {xs : List Selector} :
    selectorsSpelled ok xs ↔ ∀ x ∈ xs, x.Spelled ok := by
  induction xs with
  | nil => exact iff_of_true trivial fun x hx => nomatch hx
  | cons x xs ih => rw [selectorsSpelled, ih, List.forall_mem_cons]

theorem stmtsSpelled_iff {ok : Operands} {xs : List Stmt} :
    stmtsSpelled ok xs ↔ ∀ x ∈ xs, x.Spelled ok := by
  induction xs with
  | nil => exact iff_of_true trivial fun x hx => nomatch hx
  | cons x xs ih => rw [stmtsSpelled, ih, List.forall_mem_cons]

/-- Things are read one after another from their words one after another. -/
theorem readEach_iff {α : Type} {P : α → List Token → Prop} {S : α → Prop} {w : α → List Text}
    {xs : List α} {ts : List Token} (hts : Lexemes ts)
    (h : ∀ x ∈ xs, ∀ us, Lexemes us → (P x us ↔ S x ∧ us.map Token.value = w x)) :
    ReadEach P xs ts ↔ (∀ x ∈ xs, S x) ∧ ts.map Token.value = xs.flatMap w := by
  induction xs generalizing ts with
  | nil =>
    rw [List.flatMap_nil, List.map_eq_nil_iff]
    exact ⟨fun h => ⟨fun x hx => (nomatch hx), h⟩, And.right⟩
  | cons x xs ih =>
    rw [List.flatMap_cons, List.forall_mem_cons]
    constructor
    · intro hread
      obtain ⟨us, vs, rfl, hx, hxs⟩ := hread
      obtain ⟨hu, hv⟩ := lexemes_append.1 hts
      obtain ⟨hsx, hwx⟩ := (h x List.mem_cons_self us hu).1 hx
      obtain ⟨hsxs, hwxs⟩ := (ih hv fun y hy => h y (List.mem_cons_of_mem x hy)).1 hxs
      exact ⟨⟨hsx, hsxs⟩, by rw [List.map_append, hwx, hwxs]⟩
    · intro hall
      obtain ⟨⟨hsx, hsxs⟩, hval⟩ := hall
      obtain ⟨us, vs, rfl, hwx, hwxs⟩ := List.map_eq_append_iff.1 hval
      obtain ⟨hu, hv⟩ := lexemes_append.1 hts
      exact ⟨us, vs, rfl, (h x List.mem_cons_self us hu).2 ⟨hsx, hwx⟩,
        (ih hv fun y hy => h y (List.mem_cons_of_mem x hy)).2 ⟨hsxs, hwxs⟩⟩

/-- What stands between two brackets is read from the words between them. -/
theorem bracketed_iff {P : List Token → Prop} {S : Prop} {ws : List Text} {kl kr : Kind}
    {sl sr : String} {ts : List Token} (hts : Lexemes ts)
    (hl : (Text.ofString sl, kl) ∈ keywords ++ operators)
    (hr : (Text.ofString sr, kr) ∈ keywords ++ operators)
    (h : ∀ us, Lexemes us → (P us ↔ S ∧ us.map Token.value = ws)) :
    (∃ l us r, ts = l :: (us ++ [r]) ∧ l.kind = kl ∧ r.kind = kr ∧ P us)
      ↔ S ∧ ts.map Token.value = texts [sl] ++ (ws ++ texts [sr]) := by
  constructor
  · intro hread
    obtain ⟨l, us, r, rfl, hkl, hkr, hP⟩ := hread
    obtain ⟨hlex, hrest⟩ := lexemes_cons.1 hts
    obtain ⟨hu, hrlex⟩ := lexemes_append.1 hrest
    obtain ⟨hS, hws⟩ := (h us hu).1 hP
    have hvl := (hlex.kind_iff hl).1 hkl
    have hvr := ((hrlex r List.mem_cons_self).kind_iff hr).1 hkr
    refine ⟨hS, ?_⟩
    rw [List.map_cons, List.map_append, hws, hvl, List.map_singleton, hvr]
    rfl
  · intro hall
    obtain ⟨hS, hval⟩ := hall
    change ts.map Token.value = Text.ofString sl :: (ws ++ [Text.ofString sr]) at hval
    obtain ⟨l, rest, rfl, hvl, hrest⟩ := List.map_eq_cons_iff.1 hval
    obtain ⟨us, rs, rfl, hws, hrs⟩ := List.map_eq_append_iff.1 hrest
    obtain ⟨r, rfl, hvr⟩ := List.map_eq_singleton_iff.1 hrs
    obtain ⟨hlex, hrest⟩ := lexemes_cons.1 hts
    obtain ⟨hu, hrlex⟩ := lexemes_append.1 hrest
    exact ⟨l, us, r, rfl, (hlex.kind_iff hl).2 hvl,
      ((hrlex r List.mem_cons_self).kind_iff hr).2 hvr, (h us hu).2 ⟨hS, hws⟩⟩

/-! ### Weaker demands on operands -/

/-- One choice of operands allows whatever another one does. -/
structure Operands.Within (ok ok' : Operands) : Prop where
  beside : ∀ level onRight e, ok.beside level onRight e = true → ok'.beside level onRight e = true
  behind : ∀ e, ok.behind e = true → ok'.behind e = true
  before : ∀ e, ok.before e = true → ok'.before e = true

theorem Expr.Spelled.mono {ok ok' : Operands} (hok : ok.Within ok') {e : Expr} :
    e.Spelled ok → e.Spelled ok' := by
  induction e using Expr.byParts with
  | binary s level op t left right ihl ihr =>
    intro h
    obtain ⟨hop, hbl, hbr, hl, hr⟩ := h
    exact ⟨hop, hok.beside _ _ _ hbl, hok.beside _ _ _ hbr, ihl hl, ihr hr⟩
  | unary s op e ih =>
    intro h
    obtain ⟨hop, hb, he⟩ := h
    exact ⟨hop, hok.behind _ hb, ih he⟩
  | step s op e ih =>
    intro h
    obtain ⟨hop, hstep, hb, he⟩ := h
    exact ⟨hop, hstep, hok.before _ hb, ih he⟩
  | cast s type e ih =>
    intro h
    obtain ⟨htype, hb, he⟩ := h
    exact ⟨htype, hok.behind _ hb, ih he⟩
  | paren s e ih => exact ih
  | literal s sort raw => exact id
  | name s head selectors ih =>
    intro h
    obtain ⟨hhead, hsel⟩ := h
    refine ⟨hhead, selectorsSpelled_iff.2 fun x hx => ?_⟩
    have hx' := selectorsSpelled_iff.1 hsel x hx
    cases x with
    | field t name => exact hx'
    | call t args =>
      have hargs : exprsSpelled ok args := hx'
      exact exprsSpelled_iff.2 fun e he => ih t args hx e he (exprsSpelled_iff.1 hargs e he)
  | new s className args ih =>
    intro h
    obtain ⟨hname, hargs⟩ := h
    exact ⟨hname, exprsSpelled_iff.2 fun e he => ih e he (exprsSpelled_iff.1 hargs e he)⟩
  | bad s => exact id
  | missing => exact id

theorem Expr.SpelledInit.mono {ok ok' : Operands} (hok : ok.Within ok') {init : Expr}
    (h : init.SpelledInit ok) : init.SpelledInit ok' :=
  h.imp id (Expr.Spelled.mono hok)

theorem Stmt.Spelled.mono {ok ok' : Operands} (hok : ok.Within ok') {x : Stmt} :
    x.Spelled ok → x.Spelled ok' := by
  induction x using Stmt.byParts with
  | block s stmts ih =>
    intro h
    exact stmtsSpelled_iff.2 fun x hx => ih x hx (stmtsSpelled_iff.1 h x hx)
  | varDecl s isFinal type name init => exact fun h => ⟨h.1, h.2.1, h.2.2.mono hok⟩
  | print s method arg => exact fun h => ⟨h.1, h.2.imp id (Expr.Spelled.mono hok)⟩
  | expr s target op t value =>
    intro h
    obtain ⟨htarget, hassign, hprint⟩ := h
    refine ⟨htarget.mono hok, hassign.imp id ?_, hprint⟩
    exact fun h => ⟨h.1, h.2.1, h.2.2.mono hok⟩
  | missing => exact id

theorem Member.Spelled.mono {ok ok' : Operands} (hok : ok.Within ok') {x : Member}
    (h : x.Spelled ok) : x.Spelled ok' := by
  cases x with
  | main s name param body =>
    obtain ⟨hname, hparam, b, rfl, hbody⟩ := h
    exact ⟨hname, hparam, b, rfl, stmtsSpelled_iff.2 fun x hx =>
      (stmtsSpelled_iff.1 hbody x hx).mono hok⟩
  | field s modifiers isFinal type name init =>
    obtain ⟨hms, hfinal, htype, hname, hinit⟩ := h
    exact ⟨hms, hfinal, htype, hname, hinit.mono hok⟩

theorem Root.Spelled.mono {ok ok' : Operands} (hok : ok.Within ok') {x : Root}
    (h : x.Spelled ok) : x.Spelled ok' := by
  cases x with
  | statements s stmts => exact fun y hy => (h y hy).mono hok
  | program s classes =>
    refine ⟨h.1, fun c hc => ?_⟩
    obtain ⟨hname, hmembers⟩ := h.2 c hc
    exact ⟨hname, fun m hm => (hmembers m hm).mono hok⟩

/-! ### Expressions are read from their words -/

/-- The operands of what is read: none of them needs parentheses. -/
def Operands.asRead : Operands where
  beside level onRight e := !e.needsParens level onRight
  behind e := !e.isBinary
  before := Expr.isPrimary

/-- An expression is read from its words and from nothing else. -/
def Expr.ReadsItsWords (e : Expr) : Prop :=
  ∀ ts, Lexemes ts → (e.ReadFrom ts ↔ e.Spelled .asRead ∧ ts.map Token.value = e.words)

theorem argsReadFrom_iff {es : List Expr} (h : ∀ e ∈ es, e.ReadsItsWords) {ts : List Token}
    (hts : Lexemes ts) :
    argsReadFrom es ts ↔ exprsSpelled .asRead es ∧ ts.map Token.value = argsWords es := by
  cases es with
  | nil =>
    rw [argsReadFrom, exprsSpelled, argsWords, List.map_eq_nil_iff, true_and]
  | cons e es =>
    have hmore : ∀ us, Lexemes us → (moreArgsReadFrom es us
        ↔ exprsSpelled .asRead es ∧ us.map Token.value = moreArgsWords es) := by
      intro us hu
      rw [moreArgsReadFrom_eq, exprsSpelled_iff, moreArgsWords_eq]
      refine readEach_iff hu ?_
      intro e' he' vs hv
      constructor
      · intro hread
        obtain ⟨c, ws, rfl, hc, hread⟩ := hread
        obtain ⟨hclex, hws⟩ := lexemes_cons.1 hv
        obtain ⟨hS, hval⟩ := (h e' (List.mem_cons_of_mem e he') ws hws).1 hread
        have hvc := (hclex.kind_iff (s := Text.ofString ",") (by decide)).1 hc
        refine ⟨hS, ?_⟩
        rw [List.map_cons, hval, hvc]
        rfl
      · intro hall
        obtain ⟨hS, hval⟩ := hall
        obtain ⟨c, ws, rfl, hvc, hval⟩ := List.map_eq_cons_iff.1 hval
        obtain ⟨hclex, hws⟩ := lexemes_cons.1 hv
        exact ⟨c, ws, rfl, (hclex.kind_iff (by decide)).2 hvc,
          (h e' (List.mem_cons_of_mem e he') ws hws).2 ⟨hS, hval⟩⟩
    rw [argsReadFrom, exprsSpelled, argsWords]
    constructor
    · intro hread
      obtain ⟨us, vs, rfl, he, hes⟩ := hread
      obtain ⟨hu, hv⟩ := lexemes_append.1 hts
      obtain ⟨hse, hwe⟩ := (h e List.mem_cons_self us hu).1 he
      obtain ⟨hses, hwes⟩ := (hmore vs hv).1 hes
      exact ⟨⟨hse, hses⟩, by rw [List.map_append, hwe, hwes]⟩
    · intro hall
      obtain ⟨⟨hse, hses⟩, hval⟩ := hall
      obtain ⟨us, vs, rfl, hwe, hwes⟩ := List.map_eq_append_iff.1 hval
      obtain ⟨hu, hv⟩ := lexemes_append.1 hts
      exact ⟨us, vs, rfl, (h e List.mem_cons_self us hu).2 ⟨hse, hwe⟩,
        (hmore vs hv).2 ⟨hses, hwes⟩⟩

theorem callReadFrom_iff {es : List Expr} (h : ∀ e ∈ es, e.ReadsItsWords) {ts : List Token}
    (hts : Lexemes ts) :
    (∃ l us r, ts = l :: (us ++ [r]) ∧ l.kind = .lparen ∧ r.kind = .rparen ∧ argsReadFrom es us)
      ↔ exprsSpelled .asRead es
        ∧ ts.map Token.value = texts ["("] ++ (argsWords es ++ texts [")"]) :=
  bracketed_iff hts (by decide) (by decide) fun _ hu => argsReadFrom_iff h hu

theorem selectorsReadFrom_iff {xs : List Selector}
    (h : ∀ t args, Selector.call t args ∈ xs → ∀ e ∈ args, e.ReadsItsWords) {ts : List Token}
    (hts : Lexemes ts) :
    selectorsReadFrom xs ts ↔ selectorsSpelled .asRead xs
      ∧ ts.map Token.value = selectorsWords xs := by
  rw [selectorsReadFrom_eq, selectorsSpelled_iff, selectorsWords_eq]
  refine readEach_iff hts ?_
  intro x hx us hu
  cases x with
  | field s name =>
    constructor
    · intro hread
      obtain ⟨d, t, rfl, hd, hname⟩ := hread
      obtain ⟨hdlex, ht⟩ := lexemes_cons.1 hu
      obtain ⟨hS, hv⟩ := (Ident.readFrom_iff (ht t List.mem_cons_self)).1 hname
      have hvd := (hdlex.kind_iff (s := Text.ofString ".") (by decide)).1 hd
      refine ⟨hS, ?_⟩
      rw [List.map_cons, List.map_singleton, hvd, hv]
      rfl
    · intro hall
      obtain ⟨hS, hval⟩ := hall
      obtain ⟨d, rest, rfl, hvd, hrest⟩ := List.map_eq_cons_iff.1 hval
      obtain ⟨t, rfl, hvt⟩ := List.map_eq_singleton_iff.1 hrest
      obtain ⟨hdlex, ht⟩ := lexemes_cons.1 hu
      exact ⟨d, t, rfl, (hdlex.kind_iff (by decide)).2 hvd,
        (Ident.readFrom_iff (ht t List.mem_cons_self)).2 ⟨hS, hvt⟩⟩
  | call s args => exact callReadFrom_iff (h s args hx) hu

theorem Expr.readsItsWords (e : Expr) : e.ReadsItsWords := by
  induction e using Expr.byParts with
  | binary s level op t left right ihl ihr =>
    intro ts hts
    constructor
    · intro hread
      obtain ⟨us, o, vs, rfl, hop, hfree, hfree', hl, hr⟩ := hread
      obtain ⟨hu, hrest⟩ := lexemes_append.1 hts
      obtain ⟨ho, hv⟩ := lexemes_cons.1 hrest
      obtain ⟨hsl, hwl⟩ := (ihl us hu).1 hl
      obtain ⟨hsr, hwr⟩ := (ihr vs hv).1 hr
      have hvo := (ho.kind_iff hop.mem_operators).1 rfl
      refine ⟨⟨⟨_, hop⟩, ?_, ?_, hsl, hsr⟩, ?_⟩
      · simp [Operands.asRead, hfree]
      · simp [Operands.asRead, hfree']
      · rw [List.map_append, List.map_cons, hwl, hwr, hvo, words, hfree, hfree']
        rfl
    · intro hall
      obtain ⟨⟨⟨k, hop⟩, hfree, hfree', hsl, hsr⟩, hval⟩ := hall
      simp only [Operands.asRead, Bool.not_eq_true'] at hfree hfree'
      rw [words, hfree, hfree'] at hval
      obtain ⟨us, rest, rfl, hwl, hrest⟩ := List.map_eq_append_iff.1 hval
      obtain ⟨o, vs, rfl, hvo, hwr⟩ := List.map_eq_cons_iff.1 hrest
      obtain ⟨hu, hrest⟩ := lexemes_append.1 hts
      obtain ⟨ho, hv⟩ := lexemes_cons.1 hrest
      obtain rfl := (ho.kind_iff hop.mem_operators).2 hvo
      exact ⟨us, o, vs, rfl, hop, hfree, hfree', (ihl us hu).2 ⟨hsl, hwl⟩, (ihr vs hv).2 ⟨hsr, hwr⟩⟩
  | unary s op e ih =>
    intro ts hts
    constructor
    · intro hread
      obtain ⟨o, us, rfl, hop, hfree, he⟩ := hread
      obtain ⟨ho, hu⟩ := lexemes_cons.1 hts
      obtain ⟨hse, hwe⟩ := (ih us hu).1 he
      have hvo := (ho.kind_iff (UnaryOp.mem_operators hop)).1 rfl
      refine ⟨⟨⟨_, hop⟩, ?_, hse⟩, ?_⟩
      · simp [Operands.asRead, hfree]
      · rw [List.map_cons, hvo, hwe, words, hfree]
        rfl
    · intro hall
      obtain ⟨⟨⟨k, hop⟩, hfree, hse⟩, hval⟩ := hall
      simp only [Operands.asRead, Bool.not_eq_true'] at hfree
      rw [words, hfree] at hval
      obtain ⟨o, us, rfl, hvo, hwe⟩ := List.map_eq_cons_iff.1 hval
      obtain ⟨ho, hu⟩ := lexemes_cons.1 hts
      obtain rfl := (ho.kind_iff (UnaryOp.mem_operators hop)).2 hvo
      exact ⟨o, us, rfl, hop, hfree, (ih us hu).2 ⟨hse, hwe⟩⟩
  | step s op e ih =>
    intro ts hts
    constructor
    · intro hread
      obtain ⟨us, o, rfl, hop, hstep, hprim, he⟩ := hread
      obtain ⟨hu, ho⟩ := lexemes_append.1 hts
      obtain ⟨hse, hwe⟩ := (ih us hu).1 he
      have hvo := ((ho o List.mem_cons_self).kind_iff (UnaryOp.mem_operators hop)).1 rfl
      refine ⟨⟨⟨_, hop⟩, hstep, hprim, hse⟩, ?_⟩
      rw [List.map_append, hwe, List.map_singleton, hvo, words]
    · intro hall
      obtain ⟨⟨⟨k, hop⟩, hstep, hprim, hse⟩, hval⟩ := hall
      obtain ⟨us, os, rfl, hwe, hos⟩ := List.map_eq_append_iff.1 hval
      obtain ⟨o, rfl, hvo⟩ := List.map_eq_singleton_iff.1 hos
      obtain ⟨hu, ho⟩ := lexemes_append.1 hts
      obtain rfl := ((ho o List.mem_cons_self).kind_iff (UnaryOp.mem_operators hop)).2 hvo
      exact ⟨us, o, rfl, hop, hstep, hprim, (ih us hu).2 ⟨hse, hwe⟩⟩
  | cast s type e ih =>
    intro ts hts
    constructor
    · intro hread
      obtain ⟨l, w, r, us, rfl, hl, hw, hr, hname, harray, hfree, he⟩ := hread
      obtain ⟨hllex, hrest⟩ := lexemes_cons.1 hts
      obtain ⟨hwlex, hrest⟩ := lexemes_cons.1 hrest
      obtain ⟨hrlex, hu⟩ := lexemes_cons.1 hrest
      obtain ⟨hse, hwe⟩ := (ih us hu).1 he
      obtain ⟨t, rfl, hvw⟩ := Option.map_eq_some_iff.1 hname
      have harray : t.isArray = false := Option.some.inj harray
      have hkey := keyword_of_kind hwlex
        (Kind.isKeyword_of_isTypeWord (Kind.isTypeWord_of_isPrimitive hw))
      have hvl := (hllex.kind_iff (s := Text.ofString "(") (by decide)).1 hl
      have hvr := (hrlex.kind_iff (s := Text.ofString ")") (by decide)).1 hr
      rw [← hvw] at hkey
      refine ⟨⟨⟨t, _, rfl, harray, hkey, hw⟩, ?_, hse⟩, ?_⟩
      · simp [Operands.asRead, hfree]
      · rw [List.map_cons, List.map_cons, List.map_cons, hwe, hvl, hvr, ← hvw, words, hfree]
        simp [typeWords, TypeSpec.words, harray, texts, enclosed]
    · intro hall
      obtain ⟨⟨⟨t, k, rfl, harray, hkey, hprim⟩, hfree, hse⟩, hval⟩ := hall
      simp only [Operands.asRead, Bool.not_eq_true'] at hfree
      have hval : ts.map Token.value
          = Text.ofString "(" :: t.name :: Text.ofString ")" :: e.words := by
        rw [hval, words, hfree]
        simp [typeWords, TypeSpec.words, harray, texts, enclosed]
      obtain ⟨l, rest, rfl, hvl, hrest⟩ := List.map_eq_cons_iff.1 hval
      obtain ⟨w, rest, rfl, hvw, hrest⟩ := List.map_eq_cons_iff.1 hrest
      obtain ⟨r, us, rfl, hvr, hwe⟩ := List.map_eq_cons_iff.1 hrest
      obtain ⟨hllex, hrest⟩ := lexemes_cons.1 hts
      obtain ⟨hwlex, hrest⟩ := lexemes_cons.1 hrest
      obtain ⟨hrlex, hu⟩ := lexemes_cons.1 hrest
      obtain rfl := (hwlex.kind_iff (List.mem_append_left _ hkey)).2 hvw
      exact ⟨l, w, r, us, rfl, (hllex.kind_iff (by decide)).2 hvl, hprim,
        (hrlex.kind_iff (by decide)).2 hvr, congrArg some hvw.symm, congrArg some harray, hfree,
        (ih us hu).2 ⟨hse, hwe⟩⟩
  | paren s e ih =>
    intro ts hts
    exact bracketed_iff hts (by decide) (by decide) ih
  | literal s sort raw =>
    intro ts hts
    constructor
    · intro hread
      obtain ⟨t, rfl, hsort, rfl⟩ := hread
      exact ⟨⟨t.kind, hsort, isToken_iff.2 (hts t List.mem_cons_self)⟩, rfl⟩
    · intro hall
      obtain ⟨⟨k, hsort, hraw⟩, hval⟩ := hall
      obtain ⟨t, rfl, hv⟩ := List.map_eq_singleton_iff.1 hval
      rw [isToken_iff, ← hv] at hraw
      obtain rfl := hraw.kind_eq (hts t List.mem_cons_self)
      exact ⟨t, rfl, hsort, hv⟩
  | name s head selectors ih =>
    intro ts hts
    constructor
    · intro hread
      obtain ⟨t, us, rfl, hhead, hsel⟩ := hread
      obtain ⟨ht, hu⟩ := lexemes_cons.1 hts
      obtain ⟨hsh, hwh⟩ := (Ident.readFrom_iff ht).1 hhead
      obtain ⟨hss, hws⟩ := (selectorsReadFrom_iff ih hu).1 hsel
      exact ⟨⟨hsh, hss⟩, by rw [List.map_cons, hwh, hws, words]⟩
    · intro hall
      obtain ⟨⟨hsh, hss⟩, hval⟩ := hall
      obtain ⟨t, us, rfl, hwh, hws⟩ := List.map_eq_cons_iff.1 hval
      obtain ⟨ht, hu⟩ := lexemes_cons.1 hts
      exact ⟨t, us, rfl, (Ident.readFrom_iff ht).2 ⟨hsh, hwh⟩,
        (selectorsReadFrom_iff ih hu).2 ⟨hss, hws⟩⟩
  | new s className args ih =>
    intro ts hts
    constructor
    · intro hread
      obtain ⟨n, t, l, us, r, rfl, hn, hname, hl, hr, hargs⟩ := hread
      obtain ⟨hnlex, hrest⟩ := lexemes_cons.1 hts
      obtain ⟨ht, hrest⟩ := lexemes_cons.1 hrest
      obtain ⟨hsn, hwn⟩ := (Ident.readFrom_iff ht).1 hname
      obtain ⟨hsa, hwa⟩ := (callReadFrom_iff ih hrest).1 ⟨l, us, r, rfl, hl, hr, hargs⟩
      have hvn := (hnlex.kind_iff (s := Text.ofString "new") (by decide)).1 hn
      refine ⟨⟨hsn, hsa⟩, ?_⟩
      rw [List.map_cons, List.map_cons, hwa, hvn, hwn]
      rfl
    · intro hall
      obtain ⟨⟨hsn, hsa⟩, hval⟩ := hall
      obtain ⟨n, rest, rfl, hvn, hrest⟩ := List.map_eq_cons_iff.1 hval
      obtain ⟨t, rest, rfl, hwn, hwa⟩ := List.map_eq_cons_iff.1 hrest
      obtain ⟨hnlex, hrest⟩ := lexemes_cons.1 hts
      obtain ⟨ht, hrest⟩ := lexemes_cons.1 hrest
      obtain ⟨l, us, r, rfl, hl, hr, hargs⟩ := (callReadFrom_iff ih hrest).2 ⟨hsa, hwa⟩
      exact ⟨n, t, l, us, r, rfl, (hnlex.kind_iff (by decide)).2 hvn,
        (Ident.readFrom_iff ht).2 ⟨hsn, hwn⟩, hl, hr, hargs⟩
  | bad s => exact fun ts _ => iff_of_false id fun h => h.1
  | missing => exact fun ts _ => iff_of_false id fun h => h.1

end JavaPrimer
