import JavaPrimer.Proofs.ScopeStack
import Mathlib.Data.List.Basic

/-!
# Visible declarations

What scope checking should find, said without any scopes in force. A tree mentions names in the
order in which it is checked: all fields first, then every main method, each part of it from left
to right. A mention knows the scope it stands in by its place in the tree. A declaration is
visible where it has been mentioned before and its scope is around; of the visible ones the
innermost scope counts, and in it the first declaration of the name.

* `Role`, `Mention` — how a name is mentioned, and where;
* `Expr.mentions`, `Stmt.mentions`, `Root.mentions` — the mentions of a tree, in order;
* `Mention.VisibleAt`, `FirstIn`, `Binds` — visibility and the binding of a name;
* `Wrong` — what is to be found at a mention;
* `Reports` — the findings for a list of mentions, in order and no others;
* `binder?`, `Mention.finding?`, `report` — the same computed, with `reports_iff`.
-/

namespace JavaPrimer

/-! ### Mentions -/

/-- How a name is mentioned. -/
inductive Role where
  /-- A field, a parameter or a local is declared. -/
  | declared (isFinal : Bool)
  /-- The name heads an expression. -/
  | used
  /-- The name alone is the left side of an assignment. -/
  | assigned
  /-- The name alone is the operand of a step operator. -/
  | stepped
deriving DecidableEq

/-- A name at one place of a tree. The scope is given by numbers, innermost first: which part of
the scope around it the scope is, which part of the next one that is, and so on; the scope around
everything is the empty list. -/
structure Mention where
  name : Ident
  scope : List Nat
  role : Role
deriving DecidableEq

/-- What a step operator applies to is mentioned as changed if it is a name alone. -/
def stepMentions (scope : List Nat) : Expr → List Mention
  | .name _ head [] => [⟨head, scope, .stepped⟩]
  | _ => []

mutual

/-- The names that an expression mentions. The operand of a step operator is mentioned as what is
changed and then as what is used. -/
def Expr.mentions (scope : List Nat) : Expr → List Mention
  | .name _ head selectors => ⟨head, scope, .used⟩ :: selectorsMentions scope selectors
  | .binary _ _ _ _ left right => left.mentions scope ++ right.mentions scope
  | .unary _ op operand =>
    (if op = .inc ∨ op = .dec then stepMentions scope operand else []) ++ operand.mentions scope
  | .step _ _ operand => stepMentions scope operand ++ operand.mentions scope
  | .cast _ _ operand => operand.mentions scope
  | .paren _ inner => inner.mentions scope
  | .new _ _ args => exprsMentions scope args
  | .literal .. | .bad _ | .missing => []

/-- The names that a list of expressions mentions. -/
def exprsMentions (scope : List Nat) : List Expr → List Mention
  | [] => []
  | e :: rest => e.mentions scope ++ exprsMentions scope rest

/-- The names that the arguments of a selector mention. -/
def Selector.mentions (scope : List Nat) : Selector → List Mention
  | .field .. => []
  | .call _ args => exprsMentions scope args

/-- The names that the arguments of a list of selectors mention. -/
def selectorsMentions (scope : List Nat) : List Selector → List Mention
  | [] => []
  | x :: rest => x.mentions scope ++ selectorsMentions scope rest

end

/-- The left side of an assignment: a name alone is assigned to, anything else is an expression. -/
def targetMentions (scope : List Nat) : Expr → List Mention
  | .name _ head [] => [⟨head, scope, .assigned⟩]
  | target => target.mentions scope

/-- A declaration with a type, and then its initializer. -/
def declarationMentions (scope : List Nat) (type : Option TypeSpec) (name : Ident)
    (isFinal : Bool) (init : Expr) : List Mention :=
  match type with
  | none => []
  | some _ => ⟨name, scope, .declared isFinal⟩ :: init.mentions scope

mutual

/-- The names that the `i`-th statement of a scope mentions. A block is a scope of its own. -/
def Stmt.mentions (scope : List Nat) (i : Nat) : Stmt → List Mention
  | .block _ stmts => stmtsMentions (i :: scope) 0 stmts
  | .varDecl _ isFinal type name init => declarationMentions scope type name isFinal init
  | .print _ _ arg => arg.mentions scope
  | .expr _ target op _ value =>
    if op = .none then target.mentions scope
    else targetMentions scope target ++ value.mentions scope
  | .missing => []

/-- The names that the statements of a scope mention, from the `i`-th on. -/
def stmtsMentions (scope : List Nat) (i : Nat) : List Stmt → List Mention
  | [] => []
  | x :: rest => x.mentions scope i ++ stmtsMentions scope (i + 1) rest

end

/-- A field; every field stands in the scope around everything. -/
def Member.fieldMentions : Member → List Mention
  | .main .. => []
  | .field _ _ isFinal type name init => declarationMentions [] type name isFinal init

/-- The main method that is the `i`-th member: its parameter, if it has one, and its body share a
scope. -/
def Member.mainMentions (i : Nat) : Member → List Mention
  | .field .. => []
  | .main _ _ param body =>
    (if param.name.isEmpty then [] else [⟨param, [i], .declared false⟩])
      ++ stmtsMentions [i] 0 ((body.map Block.stmts).getD [])

/-- The main methods among the members from the `i`-th on. -/
def mainsMentions (i : Nat) : List Member → List Mention
  | [] => []
  | x :: rest => x.mainMentions i ++ mainsMentions (i + 1) rest

/-- The names that a tree mentions: the fields of all classes first, then their main methods. -/
def Root.mentions : Root → List Mention
  | .statements _ stmts => stmtsMentions [] 0 stmts
  | .program _ classes =>
    (classes.flatMap fun c => c.members.flatMap Member.fieldMentions)
      ++ mainsMentions 0 (classes.flatMap fun c => c.members)

/-! ### Visibility -/

/-- A declaration of a name in a scope. -/
def Mention.DeclaresIn (d : Mention) (scope : List Nat) (name : Text) : Prop :=
  (d.role = .declared true ∨ d.role = .declared false) ∧ d.scope = scope ∧ d.name.name = name

instance (d : Mention) (scope : List Nat) (name : Text) : Decidable (d.DeclaresIn scope name) :=
  inferInstanceAs (Decidable (_ ∧ _ ∧ _))

/-- A declaration that came before is visible where its scope is around. -/
def Mention.VisibleAt (d : Mention) (scope : List Nat) (name : Text) : Prop :=
  d.DeclaresIn d.scope name ∧ d.scope <:+ scope

/-- The first declaration of a name in a scope among the mentions that came before. -/
def FirstIn (before : List Mention) (scope : List Nat) (name : Text) (d : Mention) : Prop :=
  d.DeclaresIn scope name
    ∧ ∃ earlier later, before = earlier ++ d :: later ∧ ∀ e ∈ earlier, ¬ e.DeclaresIn scope name

/-- The declaration that a name means in a scope: the first one of the innermost scope around that
has one. -/
def Binds (before : List Mention) (scope : List Nat) (name : Text) (d : Mention) : Prop :=
  FirstIn before d.scope name d ∧ d.scope <:+ scope
    ∧ ∀ e ∈ before, e.VisibleAt scope name → e.scope <:+ d.scope

/-- What is to be found at a mention, given the mentions before it and the names that need no
declaration. -/
inductive Wrong (known : List Text) (before : List Mention) (m : Mention) : Finding → Prop
  /-- A name declared again in its scope, with the line of the first declaration. -/
  | duplicate {isFinal : Bool} {d : Mention} : m.role = .declared isFinal →
      FirstIn before m.scope m.name.name d →
      Wrong known before m (.duplicate m.name d.name.span.start.line)
  /-- A name used without a visible declaration. -/
  | undeclaredUse : m.role = .used → (∀ d ∈ before, ¬ d.VisibleAt m.scope m.name.name) →
      m.name.name ∉ known → Wrong known before m (.undeclared m.name)
  /-- A name assigned to without a visible declaration, whether known or not. -/
  | undeclaredTarget : m.role = .assigned → (∀ d ∈ before, ¬ d.VisibleAt m.scope m.name.name) →
      Wrong known before m (.undeclared m.name)
  /-- A constant that is changed. -/
  | finalWrite {d : Mention} : m.role = .assigned ∨ m.role = .stepped →
      Binds before m.scope m.name.name d → d.role = .declared true →
      Wrong known before m (.finalWrite m.name)

/-- The findings for a list of mentions after those that came before: one wherever something is
wrong, in order, and no others. -/
inductive Reports (known : List Text) : List Mention → List Mention → List Finding → Prop
  | nil {before : List Mention} : Reports known before [] []
  | wrong {before rest : List Mention} {m : Mention} {f : Finding} {fs : List Finding} :
      Wrong known before m f → Reports known (before ++ [m]) rest fs →
      Reports known before (m :: rest) (f :: fs)
  | fine {before rest : List Mention} {m : Mention} {fs : List Finding} :
      (∀ f, ¬ Wrong known before m f) → Reports known (before ++ [m]) rest fs →
      Reports known before (m :: rest) fs

/-! ### The binding of a name, computed -/

/-- The first declaration of a name in a scope. -/
def firstIn? (before : List Mention) (scope : List Nat) (name : Text) : Option Mention :=
  before.find? fun d => d.DeclaresIn scope name

theorem firstIn?_eq_some_iff {before : List Mention} {scope : List Nat} {name : Text} {d : Mention} :
    firstIn? before scope name = some d ↔ FirstIn before scope name d := by
  simp only [firstIn?, FirstIn, List.find?_eq_some_iff_append, decide_eq_true_eq,
    Bool.not_eq_eq_eq_not, Bool.not_true, decide_eq_false_iff_not]

theorem firstIn?_eq_none_iff {before : List Mention} {scope : List Nat} {name : Text} :
    firstIn? before scope name = none ↔ ∀ d ∈ before, ¬ d.DeclaresIn scope name := by
  simp only [firstIn?, List.find?_eq_none, decide_eq_true_eq]

/-- The declaration that a name means, looked for scope by scope. -/
def binder? (before : List Mention) (name : Text) : List Nat → Option Mention
  | [] => firstIn? before [] name
  | i :: scope => (firstIn? before (i :: scope) name).or (binder? before name scope)

theorem binder?_eq_none_iff {before : List Mention} {name : Text} : ∀ {scope : List Nat},
    binder? before name scope = none ↔ ∀ d ∈ before, ¬ d.VisibleAt scope name := by
  intro scope
  induction scope with
  | nil =>
    simp only [binder?, firstIn?_eq_none_iff, Mention.VisibleAt, List.suffix_nil]
    constructor
    · rintro h d hd ⟨hdecl, hscope⟩
      exact h d hd (hscope ▸ hdecl)
    · intro h d hd hdecl
      have hscope : d.scope = [] := hdecl.2.1
      exact h d hd ⟨by rwa [hscope], hscope⟩
  | cons i scope ih =>
    simp only [binder?, Option.or_eq_none_iff, firstIn?_eq_none_iff, ih, Mention.VisibleAt,
      List.suffix_cons_iff]
    constructor
    · rintro ⟨hhere, habove⟩ d hd ⟨hdecl, hscope | hscope⟩
      · exact hhere d hd (hscope ▸ hdecl)
      · exact habove d hd ⟨hdecl, hscope⟩
    · intro h
      refine ⟨fun d hd hdecl => ?_, fun d hd hvis => h d hd ⟨hvis.1, .inr hvis.2⟩⟩
      have hscope : d.scope = i :: scope := hdecl.2.1
      exact h d hd ⟨by rwa [hscope], .inl hscope⟩

theorem FirstIn.scope_eq {before : List Mention} {scope : List Nat} {name : Text} {d : Mention}
    (h : FirstIn before scope name d) : d.scope = scope := h.1.2.1

theorem binder?_eq_some_iff {before : List Mention} {name : Text} {d : Mention} :
    ∀ {scope : List Nat}, binder? before name scope = some d ↔ Binds before scope name d := by
  intro scope
  induction scope with
  | nil =>
    simp only [binder?, firstIn?_eq_some_iff, Binds, Mention.VisibleAt, List.suffix_nil]
    constructor
    · intro h
      have hscope := h.scope_eq
      exact ⟨by rwa [hscope], hscope, fun e _ he => by rw [he.2]; exact List.nil_suffix⟩
    · rintro ⟨h, hscope, -⟩
      rwa [hscope] at h
  | cons i scope ih =>
    rw [binder?, Option.or_eq_some_iff]
    simp only [firstIn?_eq_some_iff, firstIn?_eq_none_iff, ih]
    constructor
    · rintro (h | ⟨hnone, h, hscope, hinner⟩)
      · have hscope := h.scope_eq
        exact ⟨by rwa [hscope], hscope ▸ List.suffix_refl _, fun e _ he => hscope ▸ he.2⟩
      · refine ⟨h, hscope.trans (List.suffix_cons i scope), fun e he hvis => ?_⟩
        rcases List.suffix_cons_iff.1 hvis.2 with heq | hsuff
        · exact absurd (heq ▸ hvis.1) (hnone e he)
        · exact hinner e he ⟨hvis.1, hsuff⟩
    · rintro ⟨h, hscope, hinner⟩
      rcases List.suffix_cons_iff.1 hscope with heq | hsuff
      · exact .inl (heq ▸ h)
      · refine .inr ⟨fun e he hdecl => ?_, h, hsuff, fun e he hvis =>
          hinner e he ⟨hvis.1, hvis.2.trans (List.suffix_cons i scope)⟩⟩
        -- a declaration in the innermost scope would be the one that counts
        have hescope : e.scope = i :: scope := hdecl.2.1
        have hshort := hinner e he ⟨by rwa [hescope], hescope ▸ List.suffix_refl _⟩
        have hlen := (hescope ▸ hshort.trans hsuff).length_le
        rw [List.length_cons] at hlen
        exact absurd hlen (Nat.not_succ_le_self _)

/-! ### Findings, computed -/

/-- Whether a mention declares a constant. -/
def Mention.isConstant (d : Mention) : Bool := d.role = .declared true

/-- What is to be found at a mention. -/
def Mention.finding? (known : List Text) (before : List Mention) (m : Mention) : Option Finding :=
  match m.role with
  | .declared _ =>
    (firstIn? before m.scope m.name.name).map fun d => .duplicate m.name d.name.span.start.line
  | .used =>
    if (binder? before m.name.name m.scope).isSome || known.contains m.name.name then none
    else some (.undeclared m.name)
  | .assigned =>
    match binder? before m.name.name m.scope with
    | none => some (.undeclared m.name)
    | some d => if d.isConstant then some (.finalWrite m.name) else none
  | .stepped =>
    if (binder? before m.name.name m.scope).any Mention.isConstant then some (.finalWrite m.name)
    else none

theorem Mention.isConstant_iff {d : Mention} : d.isConstant = true ↔ d.role = .declared true :=
  decide_eq_true_iff

theorem finding?_eq_some_iff {known : List Text} {before : List Mention} {m : Mention}
    {f : Finding} : m.finding? known before = some f ↔ Wrong known before m f := by
  constructor
  · intro h
    unfold Mention.finding? at h
    split at h
    · next isFinal hrole =>
      obtain ⟨d, hd, rfl⟩ := Option.map_eq_some_iff.1 h
      exact .duplicate hrole (firstIn?_eq_some_iff.1 hd)
    · next hrole =>
      split at h
      · cases h
      · next hnot =>
        obtain ⟨hnone, hknown⟩ : binder? before m.name.name m.scope = none
            ∧ m.name.name ∉ known := by simpa using hnot
        cases h
        exact .undeclaredUse hrole (binder?_eq_none_iff.1 hnone) hknown
    · next hrole =>
      split at h
      · next hnone =>
        cases h
        exact .undeclaredTarget hrole (binder?_eq_none_iff.1 hnone)
      · next d hd =>
        split at h
        · next hconst =>
          cases h
          exact .finalWrite (.inl hrole) (binder?_eq_some_iff.1 hd) (Mention.isConstant_iff.1 hconst)
        · cases h
    · next hrole =>
      split at h
      · next hany =>
        obtain ⟨d, hd, hconst⟩ := (Option.any_eq_true _ _).1 hany
        cases h
        exact .finalWrite (.inr hrole) (binder?_eq_some_iff.1 hd) (Mention.isConstant_iff.1 hconst)
      · cases h
  · intro h
    cases h with
    | duplicate hrole hd =>
      simp only [Mention.finding?, hrole, firstIn?_eq_some_iff.2 hd, Option.map_some]
    | undeclaredUse hrole hnone hknown =>
      simp [Mention.finding?, hrole, binder?_eq_none_iff.2 hnone, hknown]
    | undeclaredTarget hrole hnone =>
      simp only [Mention.finding?, hrole, binder?_eq_none_iff.2 hnone]
    | finalWrite hrole hd hconst =>
      have hconst := Mention.isConstant_iff.2 hconst
      rcases hrole with hrole | hrole <;>
        simp [Mention.finding?, hrole, binder?_eq_some_iff.2 hd, hconst]

/-- The findings for a list of mentions after those that came before. -/
def report (known : List Text) : List Mention → List Mention → List Finding
  | _, [] => []
  | before, m :: rest => (m.finding? known before).toList ++ report known (before ++ [m]) rest

theorem report_append (known : List Text) (before ms ns : List Mention) :
    report known before (ms ++ ns)
      = report known before ms ++ report known (before ++ ms) ns := by
  induction ms generalizing before with
  | nil => simp [report]
  | cons m ms ih => simp [report, ih]

/-- There is exactly one list of findings for a list of mentions. -/
theorem reports_iff {known : List Text} {before ms : List Mention} {fs : List Finding} :
    Reports known before ms fs ↔ report known before ms = fs := by
  induction ms generalizing before fs with
  | nil =>
    constructor
    · rintro ⟨⟩
      rfl
    · rintro rfl
      exact .nil
  | cons m ms ih =>
    constructor
    · intro h
      cases h with
      | wrong hm hrest =>
        rw [report, finding?_eq_some_iff.2 hm, ih.1 hrest]
        rfl
      | fine hm hrest =>
        have hnone : m.finding? known before = none :=
          Option.eq_none_iff_forall_ne_some.2 fun f hf => hm f (finding?_eq_some_iff.1 hf)
        rw [report, hnone, ih.1 hrest]
        rfl
    · intro h
      rw [report] at h
      cases hm : m.finding? known before with
      | none =>
        rw [hm] at h
        exact .fine (fun f hf => by rw [finding?_eq_some_iff.2 hf] at hm; cases hm) (ih.2 h)
      | some f =>
        rw [hm] at h
        subst h
        exact .wrong (finding?_eq_some_iff.1 hm) (ih.2 rfl)

end JavaPrimer
