import JavaPrimer.Proofs.MentionedNames

/-!
# The identifiers of a tree

Scope checking looks at some of the identifiers of a tree, and at each of them once: it mentions a
name twice only where a step operator changes a bare name, which is then used as well. What it finds
at the first mention rules out a finding at the second, since a name that is known to be a constant
is known to be declared. So it finds at most one thing at each identifier.

* `Expr.idents`, `Stmt.idents`, `Root.idents` — the identifiers that are looked at, as written;
* `spots` — the places of some mentions, those of operands left out;
* `Expr.spots_mentions`, `Root.spots_mentions` — the mentions of a tree are at its identifiers;
* `Paired` — an operand is mentioned as used right after it is mentioned as changed;
* `Paired.report_sublist` — at most one finding at each place;
* `Root.findings_idents` — the identifiers of the findings are among those of the tree.
-/

namespace JavaPrimer

/-! ### Identifiers -/

mutual

/-- The identifiers of an expression that are looked up: the heads of names. -/
def Expr.idents : Expr → List Ident
  | .name _ head selectors => head :: selectorsIdents selectors
  | .binary _ _ _ _ left right => left.idents ++ right.idents
  | .unary _ _ operand | .step _ _ operand | .cast _ _ operand => operand.idents
  | .paren _ inner => inner.idents
  | .new _ _ args => exprsIdents args
  | .literal .. | .bad _ | .missing => []

/-- The identifiers of a list of expressions. -/
def exprsIdents : List Expr → List Ident
  | [] => []
  | e :: rest => e.idents ++ exprsIdents rest

/-- The identifiers in the arguments of a selector. -/
def Selector.idents : Selector → List Ident
  | .field .. => []
  | .call _ args => exprsIdents args

/-- The identifiers in the arguments of a list of selectors. -/
def selectorsIdents : List Selector → List Ident
  | [] => []
  | x :: rest => x.idents ++ selectorsIdents rest

end

/-- The identifiers of a declaration with a type. -/
def declarationIdents (type : Option TypeSpec) (name : Ident) (init : Expr) : List Ident :=
  match type with
  | none => []
  | some _ => name :: init.idents

mutual

/-- The identifiers of a statement. -/
def Stmt.idents : Stmt → List Ident
  | .block _ stmts => stmtsIdents stmts
  | .varDecl _ _ type name init => declarationIdents type name init
  | .print _ _ arg => arg.idents
  | .expr _ target op _ value =>
    if op = .none then target.idents else target.idents ++ value.idents
  | .missing => []

/-- The identifiers of a list of statements. -/
def stmtsIdents : List Stmt → List Ident
  | [] => []
  | x :: rest => x.idents ++ stmtsIdents rest

end

/-- The identifiers of a member; the name of a main method is not looked at. -/
def Member.idents : Member → List Ident
  | .field _ _ _ type name init => declarationIdents type name init
  | .main _ _ param body =>
    (if param.name.isEmpty then [] else [param]) ++ stmtsIdents ((body.map Block.stmts).getD [])

/-- The identifiers of a tree. -/
def Root.idents : Root → List Ident
  | .statements _ stmts => stmtsIdents stmts
  | .program _ classes => classes.flatMap fun c => c.members.flatMap Member.idents

theorem exprsIdents_eq (es : List Expr) : exprsIdents es = es.flatMap Expr.idents := by
  induction es with
  | nil => rfl
  | cons e es ih => rw [exprsIdents, ih, List.flatMap_cons]

theorem selectorsIdents_eq (xs : List Selector) :
    selectorsIdents xs = xs.flatMap Selector.idents := by
  induction xs with
  | nil => rfl
  | cons x xs ih => rw [selectorsIdents, ih, List.flatMap_cons]

theorem stmtsIdents_eq (stmts : List Stmt) : stmtsIdents stmts = stmts.flatMap Stmt.idents := by
  induction stmts with
  | nil => rfl
  | cons x stmts ih => rw [stmtsIdents, ih, List.flatMap_cons]

/-! ### The places of mentions -/

/-- The identifiers of some mentions; what a step operator changes is mentioned again as used. -/
def spots (ms : List Mention) : List Ident :=
  (ms.filter fun m => m.role ≠ .stepped).map Mention.name

theorem spots_cons {m : Mention} (h : m.role ≠ .stepped) (ms : List Mention) :
    spots (m :: ms) = m.name :: spots ms := by
  rw [spots, List.filter_cons_of_pos (by simpa using h)]
  rfl

theorem spots_append (ms ns : List Mention) : spots (ms ++ ns) = spots ms ++ spots ns := by
  rw [spots, List.filter_append, List.map_append, spots, spots]

theorem spots_flatMap {α : Type} (f : α → List Mention) (xs : List α) :
    spots (xs.flatMap f) = xs.flatMap fun x => spots (f x) := by
  induction xs with
  | nil => rfl
  | cons x xs ih => rw [List.flatMap_cons, spots_append, ih, List.flatMap_cons]

variable {scope : List Nat}

theorem spots_step (operand : Expr) : spots (stepMentions scope operand) = [] := by
  unfold stepMentions
  split <;> rfl

theorem spots_exprsMentions {args : List Expr}
    (h : ∀ e ∈ args, spots (e.mentions scope) = e.idents) :
    spots (exprsMentions scope args) = exprsIdents args := by
  rw [exprsMentions_eq, spots_flatMap, exprsIdents_eq]
  exact List.flatMap_congr h

/-- An expression mentions its identifiers. -/
theorem Expr.spots_mentions (e : Expr) : spots (e.mentions scope) = e.idents := by
  induction e using Expr.byParts with
  | binary span level op t left right ihl ihr =>
    rw [Expr.mentions, spots_append, ihl, ihr, Expr.idents]
  | unary span op e ih =>
    rw [Expr.mentions, spots_append, ih, Expr.idents]
    split
    · rw [spots_step, List.nil_append]
    · rfl
  | step span op e ih =>
    rw [Expr.mentions, spots_append, spots_step, ih, Expr.idents, List.nil_append]
  | cast span type e ih => rw [Expr.mentions, ih, Expr.idents]
  | paren span e ih => rw [Expr.mentions, ih, Expr.idents]
  | literal span sort raw => rfl
  | name span head selectors ih =>
    rw [Expr.mentions, ← List.singleton_append, spots_append, selectorsMentions_eq, spots_flatMap,
      Expr.idents, selectorsIdents_eq]
    refine congrArg (head :: ·) (List.flatMap_congr fun x hx => ?_)
    cases x with
    | field t name => rfl
    | call t args => exact spots_exprsMentions (ih t args hx)
  | new span className args ih =>
    rw [Expr.mentions, Expr.idents]
    exact spots_exprsMentions ih
  | bad span => rfl
  | missing => rfl

/-- So does the left side of an assignment. -/
theorem spots_targetMentions (target : Expr) :
    spots (targetMentions scope target) = target.idents := by
  unfold targetMentions
  split
  · rfl
  · exact target.spots_mentions

theorem spots_declarationMentions (type : Option TypeSpec) (name : Ident) (isFinal : Bool)
    (init : Expr) : spots (declarationMentions scope type name isFinal init)
      = declarationIdents type name init := by
  cases type with
  | none => rfl
  | some type =>
    rw [declarationMentions, ← List.singleton_append, spots_append, init.spots_mentions]
    rfl

theorem spots_stmtsMentions {stmts : List Stmt}
    (h : ∀ x ∈ stmts, ∀ scope i, spots (x.mentions scope i) = x.idents) (i : Nat) :
    spots (stmtsMentions scope i stmts) = stmtsIdents stmts := by
  induction stmts generalizing i with
  | nil => rfl
  | cons x stmts ih =>
    obtain ⟨hx, hstmts⟩ := List.forall_mem_cons.1 h
    rw [stmtsMentions, spots_append, hx, ih hstmts, stmtsIdents]

theorem Stmt.spots_mentions (x : Stmt) : ∀ scope i, spots (x.mentions scope i) = x.idents := by
  induction x using Stmt.byParts with
  | block span stmts ih => exact fun scope i => spots_stmtsMentions ih 0
  | varDecl span isFinal type name init =>
    exact fun scope i => spots_declarationMentions type name isFinal init
  | print span method arg => exact fun scope i => arg.spots_mentions
  | expr span target op t value =>
    intro scope i
    rw [Stmt.mentions, Stmt.idents]
    split
    · exact target.spots_mentions
    · rw [spots_append, spots_targetMentions, value.spots_mentions]
  | missing => exact fun scope i => rfl

/-- A member mentions its identifiers as a field or as a main method. -/
theorem Member.spots_mentions (x : Member) (i : Nat) :
    spots x.fieldMentions ++ spots (x.mainMentions i) = x.idents := by
  cases x with
  | field span modifiers isFinal type name init =>
    rw [Member.fieldMentions, spots_declarationMentions, Member.mainMentions, Member.idents]
    exact List.append_nil _
  | main span name param body =>
    rw [Member.fieldMentions, Member.mainMentions, spots_append, Member.idents,
      spots_stmtsMentions fun x _ => x.spots_mentions]
    split <;> rfl

theorem spots_membersMentions (members : List Member) (i : Nat) :
    (spots (members.flatMap Member.fieldMentions) ++ spots (mainsMentions i members)).Perm
      (members.flatMap Member.idents) := by
  induction members generalizing i with
  | nil => rfl
  | cons x members ih =>
    rw [List.flatMap_cons, List.flatMap_cons, mainsMentions, spots_append, spots_append,
      ← x.spots_mentions i, List.append_assoc, List.append_assoc]
    refine List.Perm.append_left _ ((List.perm_append_comm_assoc _ _ _).trans ?_)
    exact (ih (i + 1)).append_left _

/-- A tree mentions its identifiers, those of the fields first. -/
theorem Root.spots_mentions (root : Root) : (spots root.mentions).Perm root.idents := by
  cases root with
  | statements span stmts =>
    rw [Root.mentions, spots_stmtsMentions fun x _ => x.spots_mentions]
    exact .refl _
  | program span classes =>
    rw [Root.mentions, Root.idents, ← List.flatMap_assoc, ← List.flatMap_assoc, spots_append]
    exact spots_membersMentions _ 0

/-! ### Names mentioned twice -/

/-- Every name that a step operator changes is mentioned as used right behind. -/
inductive Paired : List Mention → Prop
  | nil : Paired []
  | alone {m : Mention} {ms : List Mention} : m.role ≠ .stepped → Paired ms → Paired (m :: ms)
  | twice {name : Ident} {scope : List Nat} {ms : List Mention} : Paired ms →
      Paired (⟨name, scope, .stepped⟩ :: ⟨name, scope, .used⟩ :: ms)

namespace Paired

theorem append {ms ns : List Mention} (hm : Paired ms) (hn : Paired ns) : Paired (ms ++ ns) := by
  induction hm with
  | nil => exact hn
  | alone hrole _ ih => exact .alone hrole ih
  | twice _ ih => exact .twice ih

theorem flatMap {α : Type} {f : α → List Mention} {xs : List α} (h : ∀ x ∈ xs, Paired (f x)) :
    Paired (xs.flatMap f) := by
  induction xs with
  | nil => exact .nil
  | cons x xs ih =>
    obtain ⟨hx, hxs⟩ := List.forall_mem_cons.1 h
    exact hx.append (ih hxs)

theorem exprsMentions {args : List Expr} (h : ∀ e ∈ args, Paired (e.mentions scope)) :
    Paired (exprsMentions scope args) := by
  rw [exprsMentions_eq]
  exact flatMap h

/-- The operand of a step operator. -/
theorem step {operand : Expr} (h : Paired (operand.mentions scope)) :
    Paired (stepMentions scope operand ++ operand.mentions scope) := by
  unfold stepMentions
  split
  · exact .twice .nil
  · exact h

end Paired

theorem Expr.paired_mentions (e : Expr) : Paired (e.mentions scope) := by
  induction e using Expr.byParts with
  | binary span level op t left right ihl ihr => exact ihl.append ihr
  | unary span op e ih =>
    rw [Expr.mentions]
    split
    · exact ih.step
    · exact ih
  | step span op e ih => exact ih.step
  | cast span type e ih => exact ih
  | paren span e ih => exact ih
  | literal span sort raw => exact .nil
  | name span head selectors ih =>
    rw [Expr.mentions, selectorsMentions_eq]
    refine .alone Role.noConfusion (.flatMap fun x hx => ?_)
    cases x with
    | field t name => exact .nil
    | call t args => exact .exprsMentions (ih t args hx)
  | new span className args ih => exact .exprsMentions ih
  | bad span => exact .nil
  | missing => exact .nil

theorem paired_targetMentions (target : Expr) : Paired (targetMentions scope target) := by
  unfold targetMentions
  split
  · exact .alone Role.noConfusion .nil
  · exact target.paired_mentions

theorem paired_declarationMentions (type : Option TypeSpec) (name : Ident) (isFinal : Bool)
    (init : Expr) : Paired (declarationMentions scope type name isFinal init) := by
  cases type with
  | none => exact .nil
  | some type => exact .alone Role.noConfusion init.paired_mentions

theorem paired_stmtsMentions {stmts : List Stmt}
    (h : ∀ x ∈ stmts, ∀ scope i, Paired (x.mentions scope i)) (i : Nat) :
    Paired (stmtsMentions scope i stmts) := by
  induction stmts generalizing i with
  | nil => exact .nil
  | cons x stmts ih =>
    obtain ⟨hx, hstmts⟩ := List.forall_mem_cons.1 h
    exact (hx scope i).append (ih hstmts (i + 1))

theorem Stmt.paired_mentions (x : Stmt) : ∀ scope i, Paired (x.mentions scope i) := by
  induction x using Stmt.byParts with
  | block span stmts ih => exact fun scope i => paired_stmtsMentions ih 0
  | varDecl span isFinal type name init =>
    exact fun scope i => paired_declarationMentions type name isFinal init
  | print span method arg => exact fun scope i => arg.paired_mentions
  | expr span target op t value =>
    intro scope i
    rw [Stmt.mentions]
    split
    · exact target.paired_mentions
    · exact (paired_targetMentions target).append value.paired_mentions
  | missing => exact fun scope i => .nil

theorem paired_mainsMentions (members : List Member) (i : Nat) :
    Paired (mainsMentions i members) := by
  induction members generalizing i with
  | nil => exact .nil
  | cons x members ih =>
    refine .append ?_ (ih (i + 1))
    cases x with
    | field span modifiers isFinal type name init => exact .nil
    | main span name param body =>
      refine .append ?_ (paired_stmtsMentions (fun x _ => x.paired_mentions) 0)
      split
      · exact .nil
      · exact .alone Role.noConfusion .nil

theorem Root.paired_mentions (root : Root) : Paired root.mentions := by
  cases root with
  | statements span stmts => exact paired_stmtsMentions (fun x _ => x.paired_mentions) 0
  | program span classes =>
    refine .append (.flatMap fun c _ => .flatMap fun x _ => ?_) (paired_mainsMentions _ 0)
    cases x with
    | main span name param body => exact .nil
    | field span modifiers isFinal type name init =>
      exact paired_declarationMentions type name isFinal init

/-! ### One finding at a place -/

/-- What is found at a mention is about its name. -/
theorem ident_of_finding? {known : List Text} {before : List Mention} {m : Mention} {f : Finding}
    (h : m.finding? known before = some f) : f.ident = m.name := by
  cases finding?_eq_some_iff.1 h <;> rfl

theorem idents_finding? (known : List Text) (before : List Mention) (m : Mention) :
    ((m.finding? known before).toList.map Finding.ident).Sublist [m.name] := by
  cases h : m.finding? known before with
  | none => exact List.nil_sublist _
  | some f =>
    rw [← ident_of_finding? h]
    exact List.Sublist.refl _

/-- A constant that is changed is declared, so nothing more is found where it is used. -/
theorem finding?_used_of_stepped {known : List Text} {before : List Mention} {name : Ident}
    {f : Finding} (h : (⟨name, scope, .stepped⟩ : Mention).finding? known before = some f) :
    (⟨name, scope, .used⟩ : Mention).finding? known (before ++ [⟨name, scope, .stepped⟩])
      = none := by
  simp only [Mention.finding?] at h ⊢
  rw [if_pos]
  rw [Bool.or_eq_true]
  left
  cases hafter : binder? (before ++ [⟨name, scope, .stepped⟩]) name.name scope with
  | some d => rfl
  | none =>
    have hbefore : binder? before name.name scope = none :=
      binder?_eq_none_iff.2 fun d hd => binder?_eq_none_iff.1 hafter d (List.mem_append_left _ hd)
    rw [hbefore] at h
    cases h

theorem Paired.report_sublist {known : List Text} {ms : List Mention} (h : Paired ms)
    (before : List Mention) :
    ((report known before ms).map Finding.ident).Sublist (spots ms) := by
  induction h generalizing before with
  | nil => exact .refl _
  | @alone m ms hrole _ ih =>
    rw [report, List.map_append, spots_cons hrole, ← List.singleton_append]
    exact (idents_finding? known before m).append (ih _)
  | @twice name scope ms _ ih =>
    have hspots : spots (⟨name, scope, .stepped⟩ :: ⟨name, scope, .used⟩ :: ms)
        = [name] ++ spots ms := rfl
    rw [report, report, List.map_append, List.map_append, ← List.append_assoc, hspots]
    refine List.Sublist.append ?_ (ih _)
    cases hchanged : (⟨name, scope, .stepped⟩ : Mention).finding? known before with
    | none => exact idents_finding? known _ ⟨name, scope, .used⟩
    | some f =>
      rw [finding?_used_of_stepped hchanged, ← hchanged]
      exact (List.append_nil _).symm ▸ idents_finding? known before ⟨name, scope, .stepped⟩

/-- What is found in a tree is about its identifiers, at most one thing about each. -/
theorem Root.findings_idents (root : Root) (known : List Text) :
    ∃ xs, ((root.findings known).map Finding.ident).Sublist xs ∧ xs.Perm root.idents := by
  rw [← root.report_mentions]
  exact ⟨_, root.paired_mentions.report_sublist [], root.spots_mentions⟩

end JavaPrimer
