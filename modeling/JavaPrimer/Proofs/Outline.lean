import JavaPrimer.Proofs.Wording
import JavaPrimer.Tree.Visit

/-!
# Outlines of trees

An outline says how a tree is written: which tokens belong to a node itself, which nodes stand
among them, and in which order. It is made of the fields of the nodes alone. An outline covers a
list of tokens when each of its tokens is the one that stands there and each of its nodes has a
stretch of the list to itself, spans this stretch from the first token to the last, and covers it
with what is inside.

* `Outline`, `Outline.visits`, `Outline.yield` — the nodes of an outline from the outside in, as a
  walk lists them, and its tokens from left to right;
* `Span.Over`, `Outline.Covers` — the stretch of a span, and of every node of an outline;
* `Outline.Covers.yield_eq`, `Outline.Covers.ordered` — a list of tokens that is covered is the
  yield, and the nodes start in the order of the walk;
* `Expr.outline`, `Stmt.outline`, `Member.outline`, `ClassDecl.outline`, `Root.outline` — the
  outlines of trees;
* `Root.visits_outline` — the nodes of an outline are those that a walk comes by.
-/

namespace JavaPrimer

/-! ### The order of places -/

theorem Position.before_eq_false {p q : Position} :
    p.before q = false ↔ q.line < p.line ∨ (q.line = p.line ∧ q.column ≤ p.column) := by
  simp only [before, Bool.or_eq_false_iff, Bool.and_eq_false_iff, decide_eq_false_iff_not,
    beq_eq_false_iff_ne]
  omega

theorem Position.before_self (p : Position) : p.before p = false :=
  before_eq_false.2 (.inr ⟨rfl, Int.le_refl _⟩)

theorem Position.not_before_trans {p q r : Position} (hpq : q.before p = false)
    (hqr : r.before q = false) : r.before p = false := by
  rw [before_eq_false] at hpq hqr ⊢
  omega

/-! ### Stretches of tokens -/

/-- A span goes from the start of the first of some tokens to the end of the last. -/
def Span.Over (s : Span) (ts : List Token) : Prop :=
  ∃ a z, ts.head? = some a ∧ ts.getLast? = some z ∧ s = a.span.through z.span

theorem Span.over_single (t : Token) : t.span.Over [t] := ⟨t, t, rfl, rfl, rfl⟩

theorem Span.Over.ne_nil {s : Span} {ts : List Token} (h : s.Over ts) : ts ≠ [] := by
  obtain ⟨a, z, ha, -, -⟩ := h
  intro hts
  rw [hts] at ha
  cases ha

/-- Two stretches and what stands between them. -/
theorem Span.Over.join {s t : Span} {us vs : List Token} (hs : s.Over us) (ms : List Token)
    (ht : t.Over vs) : (s.through t).Over (us ++ (ms ++ vs)) := by
  obtain ⟨a, y, ha, -, rfl⟩ := hs
  obtain ⟨b, z, -, hz, rfl⟩ := ht
  refine ⟨a, z, ?_, ?_, rfl⟩
  · rw [List.head?_append, ha]
    rfl
  · rw [List.getLast?_append, List.getLast?_append, hz]
    rfl

/-- Tokens in the order of their places. -/
def InOrder (ts : List Token) : Prop :=
  ts.Pairwise fun t u => u.span.startsBefore t.span = false

/-! ### Outlines -/

/-- What stands in a stretch of a tree from left to right: tokens of the node around it, and
nodes with what is inside of them. -/
inductive Outline where
  | done
  | token (kind : Kind) (text : Text) (rest : Outline)
  | node (kind : NodeKind) (span : Span) (inside rest : Outline)
deriving DecidableEq

namespace Outline

/-- One outline after another. -/
protected def append : Outline → Outline → Outline
  | done, p => p
  | token k v rest, p => token k v (rest.append p)
  | node k s inside rest, p => node k s inside (rest.append p)

instance : Append Outline := ⟨Outline.append⟩

/-- The nodes, each before those inside of it, which are left out unless `enter` admits the
kind. -/
def visits (enter : NodeKind → Bool) : Outline → List Visit
  | done => []
  | token _ _ rest => rest.visits enter
  | node k s inside rest => visit enter k s (inside.visits enter) ++ rest.visits enter

/-- The tokens, by their kinds and texts. -/
def yield : Outline → List (Kind × Text)
  | done => []
  | token k v rest => (k, v) :: rest.yield
  | node _ _ inside rest => inside.yield ++ rest.yield

/-- An outline covers a list of tokens: its tokens are those that stand there, and each of its
nodes has a stretch of them to itself, goes over it and covers it with what is inside. -/
def Covers : Outline → List Token → Prop
  | done, ts => ts = []
  | token k v rest, ts => ∃ t us, ts = t :: us ∧ t.form = (k, v) ∧ rest.Covers us
  | node _ s inside rest, ts =>
    ∃ us vs, ts = us ++ vs ∧ s.Over us ∧ inside.Covers us ∧ rest.Covers vs

@[simp] theorem done_append (p : Outline) : done ++ p = p := rfl

@[simp] theorem token_append (k : Kind) (v : Text) (o p : Outline) :
    token k v o ++ p = token k v (o ++ p) := rfl

@[simp] theorem node_append (k : NodeKind) (s : Span) (inside o p : Outline) :
    node k s inside o ++ p = node k s inside (o ++ p) := rfl

@[simp] theorem visits_append (enter : NodeKind → Bool) (o p : Outline) :
    (o ++ p).visits enter = o.visits enter ++ p.visits enter := by
  induction o with
  | done => rfl
  | token k v rest ih => exact ih
  | node k s inside rest _ ih => rw [node_append, visits, visits, ih, List.append_assoc]

theorem Covers.append {o p : Outline} {us vs : List Token} (ho : o.Covers us)
    (hp : p.Covers vs) : (o ++ p).Covers (us ++ vs) := by
  induction o generalizing us with
  | done =>
    rw [show us = [] from ho]
    exact hp
  | token k v rest ih =>
    obtain ⟨t, ws, rfl, ht, hrest⟩ := ho
    exact ⟨t, ws ++ vs, rfl, ht, ih hrest⟩
  | node k s inside rest _ ih =>
    obtain ⟨as, bs, rfl, hs, hinside, hrest⟩ := ho
    exact ⟨as, bs ++ vs, List.append_assoc as bs vs, hs, hinside, ih hrest⟩

/-- The tokens that are covered are those that the outline tells. -/
theorem Covers.yield_eq {o : Outline} {ts : List Token} (h : o.Covers ts) :
    o.yield = ts.map Token.form := by
  induction o generalizing ts with
  | done =>
    rw [show ts = [] from h]
    rfl
  | token k v rest ih =>
    obtain ⟨t, us, rfl, ht, hrest⟩ := h
    rw [yield, ih hrest, List.map_cons, ht]
  | node k s inside rest ihi ihr =>
    obtain ⟨us, vs, rfl, -, hinside, hrest⟩ := h
    rw [yield, ihi hinside, ihr hrest, List.map_append]

/-- Leaving out what is inside of a node leaves a part of the list. -/
theorem visit_sublist (enter : NodeKind → Bool) (k : NodeKind) (s : Span) (vs : List Visit) :
    (visit enter k s vs).Sublist (⟨k, s⟩ :: vs) := by
  unfold visit
  split
  · exact List.Sublist.refl _
  · exact (List.nil_sublist vs).cons_cons _

/-- Every node starts where one of the tokens does. -/
theorem Covers.starts {o : Outline} {ts : List Token} (h : o.Covers ts)
    {enter : NodeKind → Bool} {v : Visit} (hv : v ∈ o.visits enter) :
    ∃ t ∈ ts, v.span.start = t.span.start := by
  induction o generalizing ts with
  | done => cases hv
  | token k w rest ih =>
    obtain ⟨t, us, rfl, -, hrest⟩ := h
    obtain ⟨u, hu, hstart⟩ := ih hrest hv
    exact ⟨u, List.mem_cons_of_mem t hu, hstart⟩
  | node k s inside rest ihi ihr =>
    obtain ⟨us, vs, rfl, hs, hinside, hrest⟩ := h
    rcases List.mem_append.1 hv with hv | hv
    · rcases List.mem_cons.1 ((visit_sublist enter k s _).subset hv) with rfl | hv
      · obtain ⟨a, z, ha, -, rfl⟩ := hs
        exact ⟨a, List.mem_append_left _ (List.mem_of_head? ha), rfl⟩
      · obtain ⟨u, hu, hstart⟩ := ihi hinside hv
        exact ⟨u, List.mem_append_left _ hu, hstart⟩
    · obtain ⟨u, hu, hstart⟩ := ihr hrest hv
      exact ⟨u, List.mem_append_right _ hu, hstart⟩

/-- A span over tokens in order starts no later than any of them. -/
theorem over_starts_first {s : Span} {ts : List Token} (h : s.Over ts) (hts : InOrder ts)
    {t : Token} (ht : t ∈ ts) : t.span.start.before s.start = false := by
  obtain ⟨a, z, ha, -, rfl⟩ := h
  obtain ⟨as, rfl⟩ := List.head?_eq_some_iff.1 ha
  show t.span.start.before a.span.start = false
  rcases List.mem_cons.1 ht with rfl | ht
  · exact Position.before_self _
  · exact (List.pairwise_cons.1 hts).1 t ht

/-- Among tokens in order the nodes start in the order in which they are visited. -/
theorem Covers.ordered {o : Outline} {ts : List Token} (h : o.Covers ts) (hts : InOrder ts)
    (enter : NodeKind → Bool) :
    (o.visits enter).Pairwise fun v w => w.span.startsBefore v.span = false := by
  induction o generalizing ts with
  | done => exact .nil
  | token k v rest ih =>
    obtain ⟨t, us, rfl, -, hrest⟩ := h
    exact ih hrest (List.pairwise_cons.1 hts).2
  | node k s inside rest ihi ihr =>
    obtain ⟨us, vs, rfl, hs, hinside, hrest⟩ := h
    obtain ⟨hus, hvs, hacross⟩ := List.pairwise_append.1 hts
    have hwhole : (⟨k, s⟩ :: inside.visits enter : List Visit).Pairwise
        fun v w => w.span.startsBefore v.span = false := by
      refine List.pairwise_cons.2 ⟨fun w hw => ?_, ihi hinside hus⟩
      obtain ⟨t, ht, hw⟩ := hinside.starts hw
      show w.span.start.before s.start = false
      rw [hw]
      exact over_starts_first hs hus ht
    have hnode : (node k s inside done).Covers us :=
      ⟨us, [], (List.append_nil us).symm, hs, hinside, rfl⟩
    rw [visits, List.pairwise_append]
    refine ⟨hwhole.sublist (visit_sublist enter k s _), ihr hrest hvs, fun v hv w hw => ?_⟩
    have hv : v ∈ (node k s inside done).visits enter := List.mem_append_left _ hv
    obtain ⟨t, ht, hv⟩ := hnode.starts hv
    obtain ⟨u, hu, hw⟩ := hrest.starts hw
    show w.span.start.before v.span.start = false
    rw [hv, hw]
    exact hacross t ht u hu

/-! ### Parts of outlines -/

/-- The kind of token with a fixed text. -/
def kindOf (text : Text) : Kind :=
  (((keywords ++ operators).find? (·.1 == text)).map (·.2)).getD .ident

theorem kindOf_eq : ∀ entry ∈ keywords ++ operators, kindOf entry.1 = entry.2 := by decide

/-- A token with a fixed text. -/
def sign (text : Text) : Outline := token (kindOf text) text done

/-- An identifier. -/
def ident (x : Ident) : Outline := token .ident x.name done

/-- A single node. -/
def one (kind : NodeKind) (span : Span) (inside : Outline) : Outline := node kind span inside done

section Visits

variable (enter : NodeKind → Bool)

@[simp] theorem visits_done : done.visits enter = [] := rfl

@[simp] theorem visits_sign (text : Text) : (sign text).visits enter = [] := rfl

@[simp] theorem visits_ident (x : Ident) : (ident x).visits enter = [] := rfl

@[simp] theorem visits_one (k : NodeKind) (s : Span) (inside : Outline) :
    (one k s inside).visits enter = visit enter k s (inside.visits enter) :=
  List.append_nil _

end Visits

/-- The outlines of a list, one after another. -/
def each {α : Type} (f : α → Outline) (xs : List α) : Outline :=
  xs.foldr (fun x o => f x ++ o) done

@[simp] theorem each_nil {α : Type} (f : α → Outline) : each f [] = done := rfl

@[simp] theorem each_cons {α : Type} (f : α → Outline) (x : α) (xs : List α) :
    each f (x :: xs) = f x ++ each f xs := rfl

theorem visits_each {α : Type} {enter : NodeKind → Bool} {f : α → Outline}
    {w : α → List Visit} {xs : List α} (h : ∀ x ∈ xs, (f x).visits enter = w x) :
    (each f xs).visits enter = xs.flatMap w := by
  induction xs with
  | nil => rfl
  | cons x xs ih =>
    rw [each_cons, visits_append, List.flatMap_cons, h x List.mem_cons_self,
      ih fun y hy => h y (List.mem_cons_of_mem x hy)]

end Outline

/-! ### Outlines of trees -/

/-- The kind of the token that a literal is written as. -/
def LiteralSort.kind (raw : Text) : LiteralSort → Kind
  | int => .intLit
  | float => .floatLit
  | string => .stringLit
  | char => .charLit
  | bool | null => Outline.kindOf raw

open Outline (sign one)

/-- The outline of a written type. -/
def TypeSpec.outline (t : TypeSpec) : Outline :=
  one .typeSpec t.span (sign t.name ++ if t.isArray then sign "[" ++ sign "]" else .done)

/-- The outline of a type that may be absent. -/
def typeOutline (t : Option TypeSpec) : Outline := (t.map TypeSpec.outline).getD .done

mutual

/-- The outline of an expression. -/
def Expr.outline : Expr → Outline
  | .binary s _ op _ left right =>
    one .binaryExpr s (left.outline ++ (sign op.spelling ++ right.outline))
  | .unary s op operand => one .unaryExpr s (sign op.spelling ++ operand.outline)
  | .step s op operand => one .postfixExpr s (operand.outline ++ sign op.spelling)
  | .cast s type operand =>
    one .castExpr s (sign "(" ++ (typeOutline type ++ (sign ")" ++ operand.outline)))
  | .paren s inner => one .parenExpr s (sign "(" ++ (inner.outline ++ sign ")"))
  | .literal s sort raw => one .literal s (.token (sort.kind raw) raw .done)
  | .name s head selectors => one .name s (.ident head ++ selectorsOutline selectors)
  | .new s className args =>
    one .newExpr s
      (sign "new" ++ (.ident className ++ (sign "(" ++ (argsOutline args ++ sign ")"))))
  | .bad s => one .badExpr s .done
  | .missing => .done

/-- The outline of arguments with commas between them. -/
def argsOutline : List Expr → Outline
  | [] => .done
  | e :: rest => e.outline ++ moreArgsOutline rest

/-- The outline of further arguments, each with the comma before it. -/
def moreArgsOutline : List Expr → Outline
  | [] => .done
  | e :: rest => (sign "," ++ e.outline) ++ moreArgsOutline rest

/-- The outline of a selector. -/
def Selector.outline : Selector → Outline
  | .field s name => one .fieldAccess s (sign "." ++ .ident name)
  | .call s args => one .call s (sign "(" ++ (argsOutline args ++ sign ")"))

/-- The outline of selectors one after another. -/
def selectorsOutline : List Selector → Outline
  | [] => .done
  | x :: rest => x.outline ++ selectorsOutline rest

end

/-- The outline of an initializer with its sign. -/
def initOutline (init : Expr) : Outline :=
  match init with
  | .missing => .done
  | e => sign "=" ++ e.outline

/-- The outline of an assignment after its target. -/
def assignedOutline (op : AssignOp) (value : Expr) : Outline :=
  if op = .none then value.outline else sign op.spelling ++ value.outline

/-- The outline of a declaration after its modifiers. -/
def declaredOutline (type : Option TypeSpec) (name : Ident) (init : Expr) : Outline :=
  typeOutline type ++ (.ident name ++ (initOutline init ++ sign ";"))

/-- The outline of the front of a print statement. -/
def printOutline : Outline :=
  .ident ⟨"System", .nowhere⟩ ++ (sign "." ++ (.ident ⟨"out", .nowhere⟩ ++ sign "."))

mutual

/-- The outline of a statement. -/
def Stmt.outline : Stmt → Outline
  | .block s stmts => one .block s (sign "\x7b" ++ (stmtsOutline stmts ++ sign "\x7d"))
  | .varDecl s isFinal type name init =>
    one .varDecl s ((if isFinal then sign "final" else .done) ++ declaredOutline type name init)
  | .print s method arg =>
    one .printStmt s (printOutline ++ (.ident method
      ++ (sign "(" ++ (arg.outline ++ (sign ")" ++ sign ";")))))
  | .expr s target op _ value =>
    one .exprStmt s (target.outline ++ (assignedOutline op value ++ sign ";"))
  | .missing => .done

/-- The outline of statements one after another. -/
def stmtsOutline : List Stmt → Outline
  | [] => .done
  | x :: rest => x.outline ++ stmtsOutline rest

end

/-- The outline of a method body. -/
def Block.outline (b : Block) : Outline := (Stmt.block b.span b.stmts).outline

/-- The outline of a member of a class. -/
def Member.outline : Member → Outline
  | .main s name param body =>
    one .mainMethod s (.each sign (texts ["public", "static", "void"]) ++ (.ident name
      ++ (.each sign (texts ["(", "String", "[", "]"]) ++ (.ident param
        ++ (sign ")" ++ (body.map Block.outline).getD .done)))))
  | .field s modifiers _ type name init =>
    one .fieldDecl s (.each sign modifiers ++ declaredOutline type name init)

/-- The outline of a class. -/
def ClassDecl.outline (c : ClassDecl) : Outline :=
  one .classDecl c.span (.each sign (texts ["public", "class"]) ++ (.ident c.name
    ++ (sign "\x7b" ++ (.each Member.outline c.members ++ sign "\x7d"))))

/-- The outline of a whole tree. -/
def Root.outline : Root → Outline
  | .program s classes => one .program s (.each ClassDecl.outline classes)
  | .statements s stmts => one .statements s (.each Stmt.outline stmts)

/-! ### The nodes of an outline -/

theorem moreArgsOutline_eq (es : List Expr) :
    moreArgsOutline es = .each (fun e => sign "," ++ e.outline) es := by
  induction es with
  | nil => rfl
  | cons e es ih => rw [moreArgsOutline, ih, Outline.each_cons]

theorem selectorsOutline_eq (xs : List Selector) :
    selectorsOutline xs = .each Selector.outline xs := by
  induction xs with
  | nil => rfl
  | cons x xs ih => rw [selectorsOutline, ih, Outline.each_cons]

theorem stmtsOutline_eq (xs : List Stmt) : stmtsOutline xs = .each Stmt.outline xs := by
  induction xs with
  | nil => rfl
  | cons x xs ih => rw [stmtsOutline, ih, Outline.each_cons]

section Visits

variable {enter : NodeKind → Bool}

theorem walkExprs_eq (es : List Expr) :
    walkExprs enter es = es.flatMap (Expr.walk enter) := by
  induction es with
  | nil => rfl
  | cons e es ih => rw [walkExprs, ih, List.flatMap_cons]

theorem walkSelectors_eq (xs : List Selector) :
    walkSelectors enter xs = xs.flatMap (Selector.walk enter) := by
  induction xs with
  | nil => rfl
  | cons x xs ih => rw [walkSelectors, ih, List.flatMap_cons]

theorem walkStmts_eq (xs : List Stmt) :
    walkStmts enter xs = xs.flatMap (Stmt.walk enter) := by
  induction xs with
  | nil => rfl
  | cons x xs ih => rw [walkStmts, ih, List.flatMap_cons]

theorem visits_signs (ws : List Text) : (Outline.each sign ws).visits enter = [] := by
  rw [Outline.visits_each fun w _ => Outline.visits_sign enter w]
  exact List.flatMap_eq_nil_iff.2 fun w _ => rfl

theorem visits_typeOutline (t : Option TypeSpec) :
    (typeOutline t).visits enter = walkType enter t := by
  cases t with
  | none => rfl
  | some t =>
    cases h : t.isArray <;> simp [typeOutline, walkType, TypeSpec.outline, TypeSpec.walk, h]

theorem visits_argsOutline {es : List Expr}
    (h : ∀ e ∈ es, e.outline.visits enter = e.walk enter) :
    (argsOutline es).visits enter = walkExprs enter es := by
  cases es with
  | nil => rfl
  | cons e es =>
    have hmore : (moreArgsOutline es).visits enter = es.flatMap (Expr.walk enter) := by
      rw [moreArgsOutline_eq]
      apply Outline.visits_each
      intro x hx
      exact h x (List.mem_cons_of_mem e hx)
    rw [argsOutline, Outline.visits_append, hmore, walkExprs_eq, List.flatMap_cons,
      h e List.mem_cons_self]

/-- The nodes of an expression are those that a walk comes by. -/
theorem Expr.visits_outline (e : Expr) : e.outline.visits enter = e.walk enter := by
  induction e using Expr.byParts with
  | binary s level op t left right ihl ihr => simp [outline, walk, ihl, ihr]
  | unary s op e ih | step s op e ih | paren s e ih => simp [outline, walk, ih]
  | cast s type e ih => simp [outline, walk, ih, visits_typeOutline]
  | literal s sort raw => simp [outline, walk, Outline.visits]
  | name s head selectors ih =>
    have hsel : (selectorsOutline selectors).visits enter = walkSelectors enter selectors := by
      rw [selectorsOutline_eq, walkSelectors_eq]
      apply Outline.visits_each
      intro x hx
      cases x with
      | field t name => simp [Selector.outline, Selector.walk]
      | call t args => simp [Selector.outline, Selector.walk, visits_argsOutline (ih t args hx)]
    simp [outline, walk, hsel]
  | new s className args ih => simp [outline, walk, visits_argsOutline ih]
  | bad s => simp [outline, walk]
  | missing => rfl

theorem visits_declaredOutline (type : Option TypeSpec) (name : Ident) (init : Expr) :
    (declaredOutline type name init).visits enter = walkType enter type ++ init.walk enter := by
  have hinit : (initOutline init).visits enter = init.walk enter := by
    rw [← init.visits_outline]
    cases init with
    | missing => rfl
    | _ => simp [initOutline]
  simp [declaredOutline, hinit, visits_typeOutline]

/-- The nodes of a statement are those that a walk comes by. -/
theorem Stmt.visits_outline (x : Stmt) : x.outline.visits enter = x.walk enter := by
  induction x using Stmt.byParts with
  | block s stmts ih =>
    have hstmts : (stmtsOutline stmts).visits enter = walkStmts enter stmts := by
      rw [stmtsOutline_eq, walkStmts_eq]
      exact Outline.visits_each ih
    simp [outline, walk, hstmts]
  | varDecl s isFinal type name init =>
    cases isFinal <;> simp [outline, walk, visits_declaredOutline]
  | print s method arg => simp [outline, walk, printOutline, arg.visits_outline]
  | expr s target op t value =>
    by_cases hop : op = .none <;>
      simp [outline, walk, assignedOutline, hop, target.visits_outline, value.visits_outline]
  | missing => rfl

theorem Member.visits_outline (x : Member) : x.outline.visits enter = x.walk enter := by
  cases x with
  | main s name param body =>
    cases body with
    | none => simp [outline, walk, visits_signs]
    | some b =>
      have hbody : b.outline.visits enter = b.walk enter := Stmt.visits_outline _
      simp [outline, walk, visits_signs, hbody]
  | field s modifiers isFinal type name init =>
    simp [outline, walk, visits_signs, visits_declaredOutline]

theorem ClassDecl.visits_outline (c : ClassDecl) : c.outline.visits enter = c.walk enter := by
  have hmembers := Outline.visits_each fun x (_ : x ∈ c.members) => @Member.visits_outline enter x
  simp [outline, walk, visits_signs, hmembers]

/-- The nodes of an outline, from the outside in, are those that a walk of the tree comes by. -/
theorem Root.visits_outline (x : Root) : x.outline.visits enter = x.walk enter := by
  cases x with
  | program s classes =>
    have hclasses := Outline.visits_each fun x (_ : x ∈ classes) => @ClassDecl.visits_outline enter x
    simp [outline, walk, hclasses]
  | statements s stmts =>
    have hstmts := Outline.visits_each fun x (_ : x ∈ stmts) => @Stmt.visits_outline enter x
    simp [outline, walk, walkStmts_eq, hstmts]

end Visits

end JavaPrimer
