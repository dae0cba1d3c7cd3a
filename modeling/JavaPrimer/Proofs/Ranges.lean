import JavaPrimer.Proofs.Outline
import JavaPrimer.Proofs.Scoping
import Mathlib.Order.Defs.PartialOrder

/-!
# Ranges

Places of a text are ordered by line and then by column. A span is ranged over a set of places when
both its ends are among them and its start is not behind its end. A tree is sited when all its spans
are ranged, as far as a walk or a finding about a name can show them: a declaration without a type
has no name, and a main method without a parameter none either.

* `Position.le_iff` — the order of places is that of reading;
* `Span.Ranged` — a span between two places of a set;
* `Expr.Sited`, `Stmt.Sited`, `Member.Sited`, `ClassDecl.Sited`, `Root.Sited` — such trees;
* `Root.Sited.walk` — every node of a sited tree has a ranged span;
* `Root.Sited.checkScopes` — so has everything that scope checking finds.
-/

namespace JavaPrimer

/-! ### The order of places -/

namespace Position

instance : LE Position where
  le p q := p.line < q.line ∨ (p.line = q.line ∧ p.column ≤ q.column)

theorem le_def {p q : Position} :
    p ≤ q ↔ p.line < q.line ∨ (p.line = q.line ∧ p.column ≤ q.column) := Iff.rfl

theorem le_iff {p q : Position} : p ≤ q ↔ q.before p = false := before_eq_false.symm

instance : Preorder Position where
  le_refl p := le_def.2 (.inr ⟨rfl, Int.le_refl _⟩)
  le_trans p q r hpq hqr := by
    rw [le_def] at hpq hqr ⊢
    omega

end Position

/-! ### Spans -/

/-- A span between two places of a set, the start not behind the end. -/
structure Span.Ranged (P : Position → Prop) (s : Span) : Prop where
  start : P s.start
  stop : P s.stop
  ordered : s.start ≤ s.stop

variable {P : Position → Prop}

theorem Span.Ranged.point {p : Position} (h : P p) : (Span.point p).Ranged P := ⟨h, h, le_refl p⟩

/-- Two spans are joined when the second does not start before the first. -/
theorem Span.Ranged.through {s e : Span} (hs : s.Ranged P) (he : e.Ranged P)
    (h : s.start ≤ e.start) : (s.through e).Ranged P :=
  ⟨hs.start, he.stop, le_trans h he.ordered⟩

/-! ### Trees -/

/-- All spans of an expression are ranged. -/
inductive Expr.Sited (P : Position → Prop) : Expr → Prop
  | binary {s t : Span} {level : Level} {op : BinaryOp} {left right : Expr} (hs : s.Ranged P)
    (hleft : Sited P left) (hright : Sited P right) : Sited P (.binary s level op t left right)
  | unary {s : Span} {op : UnaryOp} {operand : Expr} (hs : s.Ranged P) (h : Sited P operand) :
    Sited P (.unary s op operand)
  | step {s : Span} {op : UnaryOp} {operand : Expr} (hs : s.Ranged P) (h : Sited P operand) :
    Sited P (.step s op operand)
  | cast {s : Span} {type : Option TypeSpec} {operand : Expr} (hs : s.Ranged P)
    (htype : ∀ t ∈ type, t.span.Ranged P) (h : Sited P operand) : Sited P (.cast s type operand)
  | paren {s : Span} {inner : Expr} (hs : s.Ranged P) (h : Sited P inner) :
    Sited P (.paren s inner)
  | literal {s : Span} {sort : LiteralSort} {raw : Text} (hs : s.Ranged P) :
    Sited P (.literal s sort raw)
  | name {s : Span} {head : Ident} {selectors : List Selector} (hs : s.Ranged P)
    (hhead : head.span.Ranged P)
    (hfields : ∀ t name, Selector.field t name ∈ selectors → t.Ranged P)
    (hcalls : ∀ t args, Selector.call t args ∈ selectors → t.Ranged P)
    (hargs : ∀ t args, Selector.call t args ∈ selectors → ∀ e ∈ args, Sited P e) :
    Sited P (.name s head selectors)
  | new {s : Span} {className : Ident} {args : List Expr} (hs : s.Ranged P)
    (hargs : ∀ e ∈ args, Sited P e) : Sited P (.new s className args)
  | bad {s : Span} (hs : s.Ranged P) : Sited P (.bad s)
  | missing : Sited P .missing

/-- The spans of a declaration behind its modifiers; without a type there is no name. -/
structure SitedDeclaration (P : Position → Prop) (type : Option TypeSpec) (name : Ident)
    (init : Expr) : Prop where
  typed : ∀ t ∈ type, t.span.Ranged P
  named : type.isSome → name.span.Ranged P
  initial : init.Sited P

/-- All spans of a statement are ranged. -/
inductive Stmt.Sited (P : Position → Prop) : Stmt → Prop
  | block {s : Span} {stmts : List Stmt} (hs : s.Ranged P) (h : ∀ x ∈ stmts, Sited P x) :
    Sited P (.block s stmts)
  | varDecl {s : Span} {isFinal : Bool} {type : Option TypeSpec} {name : Ident} {init : Expr}
    (hs : s.Ranged P) (h : SitedDeclaration P type name init) :
    Sited P (.varDecl s isFinal type name init)
  | print {s : Span} {method : Ident} {arg : Expr} (hs : s.Ranged P) (h : arg.Sited P) :
    Sited P (.print s method arg)
  | expr {s t : Span} {op : AssignOp} {target value : Expr} (hs : s.Ranged P)
    (htarget : target.Sited P) (hvalue : value.Sited P) : Sited P (.expr s target op t value)

/-- All spans of a method body are ranged. -/
def Block.Sited (P : Position → Prop) (b : Block) : Prop := (Stmt.block b.span b.stmts).Sited P

/-- All spans of a member are ranged; an empty parameter is none. -/
inductive Member.Sited (P : Position → Prop) : Member → Prop
  | main {s : Span} {name param : Ident} {body : Option Block} (hs : s.Ranged P)
    (hparam : param.name ≠ [] → param.span.Ranged P) (hbody : ∀ b ∈ body, b.Sited P) :
    Sited P (.main s name param body)
  | field {s : Span} {modifiers : List Text} {isFinal : Bool} {type : Option TypeSpec}
    {name : Ident} {init : Expr} (hs : s.Ranged P) (h : SitedDeclaration P type name init) :
    Sited P (.field s modifiers isFinal type name init)

/-- All spans of a class are ranged. -/
structure ClassDecl.Sited (P : Position → Prop) (c : ClassDecl) : Prop where
  span : c.span.Ranged P
  members : ∀ x ∈ c.members, x.Sited P

/-- All spans of a tree are ranged. -/
inductive Root.Sited (P : Position → Prop) : Root → Prop
  | program {s : Span} {classes : List ClassDecl} (hs : s.Ranged P)
    (h : ∀ c ∈ classes, c.Sited P) : Sited P (.program s classes)
  | statements {s : Span} {stmts : List Stmt} (hs : s.Ranged P)
    (h : ∀ x ∈ stmts, x.Sited P) : Sited P (.statements s stmts)

/-! ### Nodes -/

section Walk

variable {enter : NodeKind → Bool}

theorem ranged_visit {k : NodeKind} {s : Span} {children : List Visit} (hs : s.Ranged P)
    (h : ∀ v ∈ children, v.span.Ranged P) : ∀ v ∈ visit enter k s children, v.span.Ranged P := by
  intro v hv
  rcases List.mem_cons.1 hv with rfl | hv
  · exact hs
  · cases hk : enter k <;> rw [hk] at hv
    · cases hv
    · exact h v hv

theorem ranged_append {vs ws : List Visit} (hv : ∀ v ∈ vs, v.span.Ranged P)
    (hw : ∀ v ∈ ws, v.span.Ranged P) : ∀ v ∈ vs ++ ws, v.span.Ranged P :=
  List.forall_mem_append.2 ⟨hv, hw⟩

theorem ranged_flatMap {α : Type} {walk : α → List Visit} {xs : List α}
    (h : ∀ x ∈ xs, ∀ v ∈ walk x, v.span.Ranged P) : ∀ v ∈ xs.flatMap walk, v.span.Ranged P := by
  intro v hv
  obtain ⟨x, hx, hv⟩ := List.mem_flatMap.1 hv
  exact h x hx v hv

theorem ranged_nil : ∀ v ∈ ([] : List Visit), v.span.Ranged P := fun _ hv => nomatch hv

theorem ranged_walkType {type : Option TypeSpec} (h : ∀ t ∈ type, t.span.Ranged P) :
    ∀ v ∈ walkType enter type, v.span.Ranged P := by
  cases type with
  | none => exact ranged_nil
  | some t => exact ranged_visit (h t rfl) ranged_nil

theorem Expr.Sited.walk {e : Expr} (h : e.Sited P) : ∀ v ∈ e.walk enter, v.span.Ranged P := by
  induction h with
  | binary hs _ _ ihleft ihright => exact ranged_visit hs (ranged_append ihleft ihright)
  | unary hs _ ih | step hs _ ih | paren hs _ ih => exact ranged_visit hs ih
  | cast hs htype _ ih => exact ranged_visit hs (ranged_append (ranged_walkType htype) ih)
  | literal hs | bad hs => exact ranged_visit hs ranged_nil
  | @name s head selectors hs _ hfields hcalls _ ih =>
    rw [Expr.walk, walkSelectors_eq]
    refine ranged_visit hs (ranged_flatMap fun x hx => ?_)
    cases x with
    | field t name => exact ranged_visit (hfields t name hx) ranged_nil
    | call t args =>
      rw [Selector.walk, walkExprs_eq]
      exact ranged_visit (hcalls t args hx) (ranged_flatMap (ih t args hx))
  | new hs _ ih =>
    rw [Expr.walk, walkExprs_eq]
    exact ranged_visit hs (ranged_flatMap ih)
  | missing => exact ranged_nil

theorem SitedDeclaration.walk {type : Option TypeSpec} {name : Ident} {init : Expr}
    (h : SitedDeclaration P type name init) :
    ∀ v ∈ walkType enter type ++ init.walk enter, v.span.Ranged P :=
  ranged_append (ranged_walkType h.typed) h.initial.walk

theorem Stmt.Sited.walk {x : Stmt} (h : x.Sited P) : ∀ v ∈ x.walk enter, v.span.Ranged P := by
  induction h with
  | block hs _ ih =>
    rw [Stmt.walk, walkStmts_eq]
    exact ranged_visit hs (ranged_flatMap ih)
  | varDecl hs h => exact ranged_visit hs h.walk
  | print hs h => exact ranged_visit hs h.walk
  | expr hs htarget hvalue => exact ranged_visit hs (ranged_append htarget.walk hvalue.walk)

theorem Member.Sited.walk {x : Member} (h : x.Sited P) : ∀ v ∈ x.walk enter, v.span.Ranged P := by
  cases h with
  | @main s name param body hs _ hbody =>
    refine ranged_visit hs ?_
    cases body with
    | none => exact ranged_nil
    | some b => exact Stmt.Sited.walk (hbody b rfl)
  | field hs h => exact ranged_visit hs h.walk

/-- Every node of a sited tree has a ranged span. -/
theorem Root.Sited.walk {x : Root} (h : x.Sited P) : ∀ v ∈ x.walk enter, v.span.Ranged P := by
  cases h with
  | program hs h =>
    refine ranged_visit hs (ranged_flatMap fun c hc => ?_)
    exact ranged_visit (h c hc).span (ranged_flatMap fun x hx => ((h c hc).members x hx).walk)
  | statements hs h =>
    rw [Root.walk, walkStmts_eq]
    exact ranged_visit hs (ranged_flatMap fun x hx => (h x hx).walk)

end Walk

/-! ### Names -/

section Names

variable {scope : List Nat}

theorem Expr.Sited.bareName {e : Expr} {name : Ident} (h : e.Sited P)
    (hname : e.bareName? = some name) : name.span.Ranged P := by
  unfold bareName? at hname
  split at hname
  · obtain rfl := Option.some.inj hname
    cases h with
    | name _ hhead _ _ _ => exact hhead
  · cases hname

theorem Expr.Sited.stepMentions {e : Expr} (h : e.Sited P) :
    ∀ m ∈ stepMentions scope e, m.name.span.Ranged P := by
  intro m hm
  rw [stepMentions_eq] at hm
  obtain ⟨name, hname, rfl⟩ := Option.map_eq_some_iff.1 (Option.mem_toList.1 hm)
  exact h.bareName hname

theorem Expr.Sited.mentions {e : Expr} (h : e.Sited P) :
    ∀ m ∈ e.mentions scope, m.name.span.Ranged P := by
  induction h with
  | binary _ _ _ ihleft ihright => exact List.forall_mem_append.2 ⟨ihleft, ihright⟩
  | @unary s op operand _ h ih =>
    refine List.forall_mem_append.2 ⟨?_, ih⟩
    split
    · exact h.stepMentions
    · exact fun _ hm => nomatch hm
  | step _ h ih => exact List.forall_mem_append.2 ⟨h.stepMentions, ih⟩
  | cast _ _ _ ih | paren _ _ ih => exact ih
  | literal _ | bad _ | missing => exact fun _ hm => nomatch hm
  | @name s head selectors _ hhead _ _ _ ih =>
    refine List.forall_mem_cons.2 ⟨hhead, fun m hm => ?_⟩
    rw [selectorsMentions_eq] at hm
    obtain ⟨x, hx, hm⟩ := List.mem_flatMap.1 hm
    cases x with
    | field t name => cases hm
    | call t args =>
      rw [Selector.mentions, exprsMentions_eq] at hm
      obtain ⟨e, he, hm⟩ := List.mem_flatMap.1 hm
      exact ih t args hx e he m hm
  | new _ _ ih =>
    intro m hm
    rw [Expr.mentions, exprsMentions_eq] at hm
    obtain ⟨e, he, hm⟩ := List.mem_flatMap.1 hm
    exact ih e he m hm

theorem Expr.Sited.targetMentions {e : Expr} (h : e.Sited P) :
    ∀ m ∈ targetMentions scope e, m.name.span.Ranged P := by
  rw [targetMentions_eq]
  split
  · next name hname => exact List.forall_mem_singleton.2 (h.bareName hname)
  · exact h.mentions

theorem SitedDeclaration.mentions {type : Option TypeSpec} {name : Ident} {init : Expr}
    {isFinal : Bool} (h : SitedDeclaration P type name init) :
    ∀ m ∈ declarationMentions scope type name isFinal init, m.name.span.Ranged P := by
  cases type with
  | none => exact fun _ hm => nomatch hm
  | some t => exact List.forall_mem_cons.2 ⟨h.named rfl, h.initial.mentions⟩

theorem ranged_stmtsMentions {stmts : List Stmt} {i : Nat}
    (h : ∀ x ∈ stmts, ∀ scope i, ∀ m ∈ x.mentions scope i, m.name.span.Ranged P) :
    ∀ m ∈ stmtsMentions scope i stmts, m.name.span.Ranged P := by
  induction stmts generalizing i with
  | nil => exact fun _ hm => nomatch hm
  | cons x stmts ih =>
    obtain ⟨hx, hstmts⟩ := List.forall_mem_cons.1 h
    exact List.forall_mem_append.2 ⟨hx scope i, ih hstmts⟩

theorem Stmt.Sited.mentions {x : Stmt} (h : x.Sited P) (scope : List Nat) (i : Nat) :
    ∀ m ∈ x.mentions scope i, m.name.span.Ranged P := by
  induction h generalizing scope i with
  | block _ _ ih => exact ranged_stmtsMentions ih
  | varDecl _ h => exact h.mentions
  | print _ h => exact h.mentions
  | @expr s t op target value _ htarget hvalue =>
    unfold Stmt.mentions
    split
    · exact htarget.mentions
    · exact List.forall_mem_append.2 ⟨htarget.targetMentions, hvalue.mentions⟩

theorem Member.Sited.fieldMentions {x : Member} (h : x.Sited P) :
    ∀ m ∈ x.fieldMentions, m.name.span.Ranged P := by
  cases h with
  | main _ _ _ => exact fun _ hm => nomatch hm
  | field _ h => exact h.mentions

theorem Member.Sited.mainMentions {x : Member} (h : x.Sited P) (i : Nat) :
    ∀ m ∈ x.mainMentions i, m.name.span.Ranged P := by
  cases h with
  | field _ _ => exact fun _ hm => nomatch hm
  | @main s name param body _ hparam hbody =>
    refine List.forall_mem_append.2 ⟨?_, ?_⟩
    · split
      · exact fun _ hm => nomatch hm
      · next hne => exact List.forall_mem_singleton.2 (hparam (by simpa using hne))
    · cases body with
      | none => exact fun _ hm => nomatch hm
      | some b => exact Stmt.Sited.mentions (hbody b rfl) [] i

theorem ranged_mainsMentions {members : List Member} {i : Nat} (h : ∀ x ∈ members, x.Sited P) :
    ∀ m ∈ mainsMentions i members, m.name.span.Ranged P := by
  induction members generalizing i with
  | nil => exact fun _ hm => nomatch hm
  | cons x members ih =>
    obtain ⟨hx, hmembers⟩ := List.forall_mem_cons.1 h
    exact List.forall_mem_append.2 ⟨hx.mainMentions i, ih hmembers⟩

theorem Root.Sited.mentions {x : Root} (h : x.Sited P) :
    ∀ m ∈ x.mentions, m.name.span.Ranged P := by
  cases h with
  | statements _ h => exact ranged_stmtsMentions fun x hx => (h x hx).mentions
  | @program s classes _ h =>
    have hmembers : ∀ x ∈ classes.flatMap fun c => c.members, x.Sited P := by
      intro x hx
      obtain ⟨c, hc, hx⟩ := List.mem_flatMap.1 hx
      exact (h c hc).members x hx
    refine List.forall_mem_append.2 ⟨fun m hm => ?_, ranged_mainsMentions hmembers⟩
    obtain ⟨c, hc, hm⟩ := List.mem_flatMap.1 hm
    obtain ⟨x, hx, hm⟩ := List.mem_flatMap.1 hm
    exact ((h c hc).members x hx).fieldMentions m hm

/-- What is found is found at a mention. -/
theorem Reports.exists_mention {known : List Text} {before ms : List Mention}
    {findings : List Finding} (h : Reports known before ms findings) :
    ∀ f ∈ findings, ∃ m ∈ ms, f.ident = m.name := by
  induction h with
  | nil => exact fun _ hf => nomatch hf
  | @wrong before rest m f fs hwrong _ ih =>
    refine List.forall_mem_cons.2 ⟨⟨m, List.mem_cons_self, ?_⟩, fun g hg => ?_⟩
    · cases hwrong <;> rfl
    · obtain ⟨m', hm', hident⟩ := ih g hg
      exact ⟨m', List.mem_cons_of_mem m hm', hident⟩
  | @fine before rest m fs _ _ ih =>
    intro g hg
    obtain ⟨m', hm', hident⟩ := ih g hg
    exact ⟨m', List.mem_cons_of_mem m hm', hident⟩

/-- What scope checking finds in a sited tree has a ranged span. -/
theorem Root.Sited.checkScopes {x : Root} (h : x.Sited P) (extra : List Text) :
    ∀ d ∈ checkScopes extra x, d.span.Ranged P := by
  intro d hd
  obtain ⟨f, hf, rfl⟩ := List.mem_map.1 hd
  obtain ⟨m, hm, hident⟩ := (reports_iff.2 (x.report_mentions)).exists_mention f hf
  show f.ident.span.Ranged P
  rw [hident]
  exact h.mentions m hm

end Names

end JavaPrimer
