import JavaPrimer.Proofs.Visibility

/-!
# Scope checking finds what is wrong

The scopes in force at a place of a tree hold exactly the declarations that have been mentioned
before and are visible there, so what is found while they are threaded through the tree is what is
wrong at each mention.

The invariant has two halves. Every scope in force holds the first declaration of each name that
was mentioned in it (`InForce`), and nothing has been mentioned yet in the scopes that the rest of
the statements will open (`Fresh`). An expression declares nothing; a declaration touches only the
innermost scope; a block declares only in scopes of its own.

* `Holds`, `InForce`, `InForce.find?` — the scopes in force and the binding of a name;
* `Fresh` — scopes not yet opened;
* `Expr.report_mentions`, `Stmt.checked` — expressions and statements;
* `checkScopes_lexical` — whole trees.
-/

namespace JavaPrimer

/-! ### The scopes in force -/

/-- What the scopes in force keep of a declaration. -/
def Mention.binding (d : Mention) : Binding :=
  ⟨d.name.name, d.isConstant, d.name.span.start.line⟩

/-- A scope in force holds the first declaration of every name in it. -/
def Holds (before : List Mention) (scope : List Nat) (bindings : List Binding) : Prop :=
  ∀ name, findBinding? name bindings = (firstIn? before scope name).map Mention.binding

/-- The scopes in force are those around a scope, itself first. -/
def InForce (before : List Mention) : List Nat → Scopes → Prop
  | [], scopes => ∃ s, scopes = [s] ∧ Holds before [] s
  | i :: scope, scopes =>
    ∃ s above, scopes = s :: above ∧ Holds before (i :: scope) s ∧ InForce before scope above

/-- Nothing has been mentioned in the parts of a scope from the `i`-th on. -/
def Fresh (before : List Mention) (scope : List Nat) (i : Nat) : Prop :=
  ∀ d ∈ before, ∀ j, i ≤ j → ¬ j :: scope <:+ d.scope

variable {known : List Text} {before : List Mention} {scope : List Nat} {scopes : Scopes}

/-- A name means in the scopes in force what it means by the mentions before. -/
theorem InForce.find? (name : Text) : ∀ {scope : List Nat} {scopes : Scopes},
    InForce before scope scopes →
      scopes.find? name = (binder? before name scope).map Mention.binding := by
  intro scope
  induction scope with
  | nil =>
    rintro scopes ⟨s, rfl, hs⟩
    simp only [Scopes.find?, List.findSome?_cons, hs name, binder?]
    cases firstIn? before [] name <;> rfl
  | cons i scope ih =>
    rintro scopes ⟨s, above, rfl, hs, habove⟩
    have hrest := ih habove
    rw [Scopes.find?] at hrest
    simp only [Scopes.find?, List.findSome?_cons, hs name, binder?]
    cases firstIn? before (i :: scope) name with
    | none => simpa using hrest
    | some d => rfl

/-! ### Mentions that declare nothing here -/

theorem firstIn?_append_of_not {ms : List Mention} {name : Text}
    (h : ∀ m ∈ ms, ¬ m.DeclaresIn scope name) :
    firstIn? (before ++ ms) scope name = firstIn? before scope name := by
  have hnone : firstIn? ms scope name = none := firstIn?_eq_none_iff.2 h
  rw [firstIn?] at hnone ⊢
  rw [List.find?_append, hnone, Option.or_none, firstIn?]

theorem Holds.append {ms : List Mention} {bindings : List Binding}
    (h : Holds before scope bindings) (hms : ∀ m ∈ ms, ∀ name, ¬ m.DeclaresIn scope name) :
    Holds (before ++ ms) scope bindings := by
  intro name
  rw [firstIn?_append_of_not fun m hm => hms m hm name]
  exact h name

/-- Mentions that declare nothing in the scopes around leave them as they are. -/
theorem InForce.append {ms : List Mention} : ∀ {scope : List Nat} {scopes : Scopes},
    InForce before scope scopes →
      (∀ m ∈ ms, ∀ around, around <:+ scope → ∀ name, ¬ m.DeclaresIn around name) →
      InForce (before ++ ms) scope scopes := by
  intro scope
  induction scope with
  | nil =>
    rintro scopes ⟨s, hs, hholds⟩ hms
    exact ⟨s, hs, hholds.append fun m hm => hms m hm [] (List.suffix_refl _)⟩
  | cons i scope ih =>
    rintro scopes ⟨s, above, hs, hholds, habove⟩ hms
    refine ⟨s, above, hs, hholds.append fun m hm => hms m hm _ (List.suffix_refl _), ?_⟩
    exact ih habove fun m hm around ha => hms m hm around (ha.trans (List.suffix_cons i scope))

theorem Fresh.append {ms : List Mention} {i : Nat} (h : Fresh before scope i)
    (hms : ∀ m ∈ ms, ∀ j, i ≤ j → ¬ j :: scope <:+ m.scope) : Fresh (before ++ ms) scope i := by
  intro d hd
  rcases List.mem_append.1 hd with hd | hd
  · exact h d hd
  · exact hms d hd

theorem Fresh.mono {i j : Nat} (h : Fresh before scope i) (hij : i ≤ j) : Fresh before scope j :=
  fun d hd k hk => h d hd k (Nat.le_trans hij hk)

/-! ### Expressions -/

/-- A mention in a scope that is no declaration. -/
def Mention.IsUseIn (m : Mention) (scope : List Nat) : Prop :=
  m.scope = scope ∧ ∀ around name, ¬ m.DeclaresIn around name

theorem isUseIn_of_role {m : Mention} (hscope : m.scope = scope)
    (htrue : m.role ≠ .declared true) (hfalse : m.role ≠ .declared false) : m.IsUseIn scope :=
  ⟨hscope, fun _ _ h => h.1.elim htrue hfalse⟩

theorem UnaryOp.isStep_iff {op : UnaryOp} : op.isStep = true ↔ op = .inc ∨ op = .dec := by
  cases op <;> simp [isStep]

/-- What is changed is the name that the operand is. -/
theorem stepMentions_eq (scope : List Nat) (operand : Expr) : stepMentions scope operand
    = (operand.bareName?.map fun name => ⟨name, scope, .stepped⟩).toList := by
  cases operand with
  | name span head selectors => cases selectors <;> rfl
  | _ => rfl

theorem isUseIn_step {operand : Expr} : ∀ m ∈ stepMentions scope operand, m.IsUseIn scope := by
  intro m hm
  obtain ⟨name, -, rfl⟩ : ∃ name, operand.bareName? = some name
      ∧ (⟨name, scope, .stepped⟩ : Mention) = m := by
    simpa [stepMentions_eq] using hm
  exact isUseIn_of_role rfl (by simp) (by simp)

theorem exprsMentions_eq (scope : List Nat) (es : List Expr) :
    exprsMentions scope es = es.flatMap (Expr.mentions scope) := by
  induction es with
  | nil => rfl
  | cons e es ih => rw [exprsMentions, ih, List.flatMap_cons]

theorem selectorsMentions_eq (scope : List Nat) (xs : List Selector) :
    selectorsMentions scope xs = xs.flatMap (Selector.mentions scope) := by
  induction xs with
  | nil => rfl
  | cons x xs ih => rw [selectorsMentions, ih, List.flatMap_cons]

/-- An expression declares nothing. -/
theorem Expr.isUseIn (e : Expr) : ∀ m ∈ e.mentions scope, m.IsUseIn scope := by
  have hargs : ∀ {args : List Expr}, (∀ e ∈ args, ∀ m ∈ e.mentions scope, m.IsUseIn scope) →
      ∀ m ∈ exprsMentions scope args, m.IsUseIn scope := by
    intro args h m hm
    rw [exprsMentions_eq] at hm
    obtain ⟨e, he, hm⟩ := List.mem_flatMap.1 hm
    exact h e he m hm
  induction e using Expr.byParts with
  | binary s level op t left right ihl ihr =>
    intro m hm
    rcases List.mem_append.1 hm with hm | hm
    · exact ihl m hm
    · exact ihr m hm
  | unary s op e ih =>
    intro m hm
    rcases List.mem_append.1 hm with hm | hm
    · split at hm
      · exact isUseIn_step m hm
      · cases hm
    · exact ih m hm
  | step s op e ih =>
    intro m hm
    rcases List.mem_append.1 hm with hm | hm
    · exact isUseIn_step m hm
    · exact ih m hm
  | cast s type e ih => exact ih
  | paren s e ih => exact ih
  | literal s sort raw => exact fun m hm => nomatch hm
  | name s head selectors ih =>
    intro m hm
    rcases List.mem_cons.1 hm with rfl | hm
    · exact isUseIn_of_role rfl (by simp) (by simp)
    · rw [selectorsMentions_eq] at hm
      obtain ⟨x, hx, hm⟩ := List.mem_flatMap.1 hm
      cases x with
      | field s name => cases hm
      | call s args => exact hargs (ih s args hx) m hm
  | new s className args ih => exact hargs ih
  | bad s => exact fun m hm => nomatch hm
  | missing => exact fun m hm => nomatch hm

/-- Uses in a scope leave the scopes around it as they are. -/
theorem InForce.uses {ms : List Mention} (h : InForce before scope scopes)
    (hms : ∀ m ∈ ms, m.IsUseIn scope) : InForce (before ++ ms) scope scopes :=
  h.append fun m hm around _ name => (hms m hm).2 around name

theorem Fresh.uses {ms : List Mention} {i : Nat} (h : Fresh before scope i)
    (hms : ∀ m ∈ ms, m.IsUseIn scope) : Fresh (before ++ ms) scope i := by
  refine h.append fun m hm j _ hsuff => ?_
  rw [(hms m hm).1] at hsuff
  have hlen := hsuff.length_le
  rw [List.length_cons] at hlen
  exact absurd hlen (Nat.not_succ_le_self _)

theorem report_step (h : InForce before scope scopes) (operand : Expr) :
    report known before (stepMentions scope operand) = stepFindings scopes operand := by
  rw [stepMentions_eq, stepFindings]
  cases operand.bareName? with
  | none => rfl
  | some name =>
    have hconst : scopes.isConstant name.name
        = (binder? before name.name scope).any Mention.isConstant := by
      rw [Scopes.isConstant, h.find? name.name, Option.any_map]
      rfl
    simp only [Option.map_some, Option.toList_some, report, Mention.finding?, hconst,
      List.append_nil]
    cases (binder? before name.name scope).any Mention.isConstant <;> rfl

theorem report_use (h : InForce before scope scopes) (head : Ident) :
    report known before [⟨head, scope, .used⟩] = useFindings known scopes head := by
  have hfind := h.find? head.name
  simp only [report, Mention.finding?, useFindings, hfind, Option.isSome_map, List.append_nil]
  split <;> rfl

/-- What is found for parts one after another that declare nothing. -/
theorem report_flatMap {α : Type} {f : α → List Mention} {g : α → List Finding} {xs : List α}
    (hms : ∀ x ∈ xs, ∀ m ∈ f x, m.IsUseIn scope)
    (hxs : ∀ x ∈ xs, ∀ {before}, InForce before scope scopes → report known before (f x) = g x)
    (h : InForce before scope scopes) : report known before (xs.flatMap f) = xs.flatMap g := by
  induction xs generalizing before with
  | nil => rfl
  | cons x xs ih =>
    rw [List.flatMap_cons, List.flatMap_cons, report_append, hxs x List.mem_cons_self h]
    rw [ih (fun y hy => hms y (List.mem_cons_of_mem x hy))
      (fun y hy => hxs y (List.mem_cons_of_mem x hy)) (h.uses (hms x List.mem_cons_self))]

theorem exprsFindings_eq (known : List Text) (scopes : Scopes) (es : List Expr) :
    exprsFindings known scopes es = es.flatMap (Expr.findings known scopes) := by
  induction es with
  | nil => rfl
  | cons e es ih => rw [exprsFindings, ih, List.flatMap_cons]

theorem selectorsFindings_eq (known : List Text) (scopes : Scopes) (xs : List Selector) :
    selectorsFindings known scopes xs = xs.flatMap (Selector.findings known scopes) := by
  induction xs with
  | nil => rfl
  | cons x xs ih => rw [selectorsFindings, ih, List.flatMap_cons]

/-- What is found in an expression is what is wrong at its mentions. -/
theorem Expr.report_mentions (e : Expr) : ∀ {before}, InForce before scope scopes →
    report known before (e.mentions scope) = e.findings known scopes := by
  have hargs : ∀ {args : List Expr}, (∀ e ∈ args, ∀ {before}, InForce before scope scopes →
      report known before (e.mentions scope) = e.findings known scopes) →
      ∀ {before}, InForce before scope scopes →
        report known before (exprsMentions scope args) = exprsFindings known scopes args := by
    intro args hes before h
    rw [exprsMentions_eq, exprsFindings_eq]
    exact report_flatMap (fun e _ => e.isUseIn) hes h
  induction e using Expr.byParts with
  | binary s level op t left right ihl ihr =>
    intro before h
    rw [Expr.mentions, report_append, ihl h, ihr (h.uses left.isUseIn), Expr.findings]
  | unary s op e ih =>
    intro before h
    rw [Expr.mentions, Expr.findings]
    simp only [UnaryOp.isStep_iff]
    split
    · rw [report_append, report_step h, ih (h.uses isUseIn_step)]
    · exact ih h
  | step s op e ih =>
    intro before h
    rw [Expr.mentions, report_append, report_step h, ih (h.uses isUseIn_step), Expr.findings]
  | cast s type e ih => exact ih
  | paren s e ih => exact ih
  | literal s sort raw => exact fun _ => rfl
  | name s head selectors ih =>
    intro before h
    have huse : ∀ m ∈ [(⟨head, scope, .used⟩ : Mention)], m.IsUseIn scope := by
      intro m hm
      obtain rfl := List.mem_singleton.1 hm
      exact isUseIn_of_role rfl (by simp) (by simp)
    rw [Expr.mentions, ← List.singleton_append, report_append, report_use h, Expr.findings,
      selectorsMentions_eq, selectorsFindings_eq]
    refine congrArg _ (report_flatMap (fun x _ => ?_) (fun x hx => ?_) (h.uses huse))
    · cases x with
      | field s name => exact fun m hm => nomatch hm
      | call s args =>
        intro m hm
        rw [Selector.mentions, exprsMentions_eq] at hm
        obtain ⟨e, -, hm⟩ := List.mem_flatMap.1 hm
        exact e.isUseIn m hm
    · cases x with
      | field s name => exact fun _ => rfl
      | call s args => exact hargs (ih s args hx)
  | new s className args ih => exact hargs ih
  | bad s => exact fun _ => rfl
  | missing => exact fun _ => rfl

/-- The left side of an assignment declares nothing either. -/
theorem isUseIn_target {target : Expr} :
    ∀ m ∈ targetMentions scope target, m.IsUseIn scope := by
  intro m hm
  unfold targetMentions at hm
  split at hm
  · obtain rfl := List.mem_singleton.1 hm
    exact isUseIn_of_role rfl (by simp) (by simp)
  · exact target.isUseIn m hm

/-- The left side of an assignment, by whether it is a name alone. -/
theorem targetMentions_eq (scope : List Nat) (target : Expr) : targetMentions scope target
    = match target.bareName? with
      | some name => [⟨name, scope, .assigned⟩]
      | none => target.mentions scope := by
  cases target with
  | name span head selectors => cases selectors <;> rfl
  | _ => rfl

theorem report_target (h : InForce before scope scopes) (target : Expr) :
    report known before (targetMentions scope target) = targetFindings known scopes target := by
  rw [targetMentions_eq, targetFindings]
  cases target.bareName? with
  | none => exact target.report_mentions h
  | some name =>
    have hfind := h.find? name.name
    simp only [report, Mention.finding?, hfind, List.append_nil]
    cases binder? before name.name scope with
    | none => rfl
    | some d =>
      simp only [Option.map_some, Mention.binding]
      cases d.isConstant <;> rfl

/-! ### Declarations -/

theorem Mention.declaresIn_of_declared (name : Ident) (scope : List Nat) (isFinal : Bool) :
    (⟨name, scope, .declared isFinal⟩ : Mention).DeclaresIn scope name.name := by
  refine ⟨?_, rfl, rfl⟩
  cases isFinal
  · exact .inr rfl
  · exact .inl rfl

/-- The first declaration of a name once one more declaration has been mentioned. -/
theorem firstIn?_declare (name : Ident) (isFinal : Bool) (other : Text) :
    firstIn? (before ++ [⟨name, scope, .declared isFinal⟩]) scope other
      = (firstIn? before scope other).or
          (if name.name = other then some ⟨name, scope, .declared isFinal⟩ else none) := by
  rw [firstIn?, List.find?_append, List.find?_singleton]
  congr 1
  by_cases hname : name.name = other
  · subst hname
    rw [if_pos rfl, if_pos]
    exact decide_eq_true (Mention.declaresIn_of_declared name scope isFinal)
  · rw [if_neg hname, if_neg]
    simp only [Mention.DeclaresIn, hname, and_false, decide_false, Bool.false_eq_true,
      not_false_eq_true]

theorem not_suffix_of_length_lt {α : Type} {xs ys : List α} (h : ys.length < xs.length) :
    ¬ xs <:+ ys :=
  fun hs => absurd hs.length_le (Nat.not_le_of_lt h)

/-- A declaration is found and kept in the innermost scope; those around it stay as they are. -/
theorem InForce.declare (known : List Text) (h : InForce before scope scopes) (name : Ident) (isFinal : Bool) :
    report known before [⟨name, scope, .declared isFinal⟩] = (scopes.declare name isFinal).1
      ∧ InForce (before ++ [⟨name, scope, .declared isFinal⟩]) scope
          (scopes.declare name isFinal).2 := by
  -- the scope it goes to, and the ones around
  obtain ⟨s, above, rfl, hs, hset⟩ : ∃ s above, scopes = s :: above ∧ Holds before scope s
      ∧ ∀ s', Holds (before ++ [⟨name, scope, .declared isFinal⟩]) scope s' →
        InForce (before ++ [⟨name, scope, .declared isFinal⟩]) scope (s' :: above) := by
    cases scope with
    | nil =>
      obtain ⟨s, rfl, hs⟩ := h
      exact ⟨s, [], rfl, hs, fun s' hs' => ⟨s', rfl, hs'⟩⟩
    | cons i scope =>
      obtain ⟨s, above, rfl, hs, habove⟩ := h
      refine ⟨s, above, rfl, hs, fun s' hs' => ⟨s', above, rfl, hs', habove.append ?_⟩⟩
      intro m hm around ha other hdecl
      obtain rfl := List.mem_singleton.1 hm
      have haround : i :: scope = around := hdecl.2.1
      exact not_suffix_of_length_lt (Nat.lt_succ_self _) (haround ▸ ha)
  have hfirst := hs name.name
  simp only [report, Mention.finding?, Scopes.declare, List.headD_cons, hfirst, List.append_nil,
    List.tail_cons]
  cases hd : firstIn? before scope name.name with
  | some d =>
    refine ⟨rfl, hset s fun other => ?_⟩
    rw [hs other, firstIn?_declare]
    by_cases hname : name.name = other
    · rw [← hname, hd]
      rfl
    · rw [if_neg hname, Option.or_none]
  | none =>
    refine ⟨rfl, hset _ fun other => ?_⟩
    rw [firstIn?_declare]
    by_cases hname : name.name = other
    · subst hname
      rw [hd, if_pos rfl, Option.none_or, findBinding?, List.find?_cons_of_pos (by simp)]
      cases isFinal <;> rfl
    · rw [if_neg hname, Option.or_none, findBinding?, List.find?_cons_of_neg (by simpa using hname)]
      exact hs other

/-- A declaration with its initializer, which sees the name already. -/
theorem InForce.declaration (known : List Text) (h : InForce before scope scopes) (type : Option TypeSpec)
    (name : Ident) (isFinal : Bool) (init : Expr) :
    report known before (declarationMentions scope type name isFinal init)
        = (declarationFindings known scopes type name isFinal init).1
      ∧ InForce (before ++ declarationMentions scope type name isFinal init) scope
          (declarationFindings known scopes type name isFinal init).2 := by
  cases type with
  | none => exact ⟨rfl, by rwa [declarationMentions, List.append_nil]⟩
  | some t =>
    obtain ⟨hdecl, hafter⟩ := h.declare known name isFinal
    rw [declarationMentions, ← List.singleton_append, report_append, hdecl,
      init.report_mentions hafter, ← List.append_assoc]
    exact ⟨rfl, hafter.uses init.isUseIn⟩

theorem scope_of_mem_declaration {type : Option TypeSpec} {name : Ident} {isFinal : Bool}
    {init : Expr} : ∀ m ∈ declarationMentions scope type name isFinal init, m.scope = scope := by
  intro m hm
  cases type with
  | none => cases hm
  | some t =>
    rcases List.mem_cons.1 hm with rfl | hm
    · rfl
    · exact (init.isUseIn m hm).1

/-! ### Opening and closing a scope -/

/-- A scope in which nothing has been mentioned opens without declarations. -/
theorem InForce.opens {i : Nat} (h : InForce before scope scopes) (hfresh : Fresh before scope i) :
    InForce before (i :: scope) ([] :: scopes) ∧ Fresh before (i :: scope) 0 := by
  have hnew : ∀ d ∈ before, ¬ i :: scope <:+ d.scope := fun d hd => hfresh d hd i (Nat.le_refl i)
  refine ⟨⟨[], scopes, rfl, fun name => ?_, h⟩, fun d hd j _ hs => ?_⟩
  · have hnone : firstIn? before (i :: scope) name = none :=
      firstIn?_eq_none_iff.2 fun d hd hdecl => hnew d hd (hdecl.2.1 ▸ List.suffix_refl _)
    rw [hnone]
    rfl
  · exact hnew d hd ((List.suffix_cons j (i :: scope)).trans hs)

/-- What was mentioned inside a scope declares nothing in the scopes around it. -/
theorem InForce.closes {i : Nat} {ms : List Mention} (h : InForce before scope scopes)
    (hms : ∀ m ∈ ms, i :: scope <:+ m.scope) : InForce (before ++ ms) scope scopes := by
  refine h.append fun m hm around ha name hdecl => ?_
  have haround : m.scope = around := hdecl.2.1
  have hinner := hms m hm
  rw [haround] at hinner
  exact not_suffix_of_length_lt (Nat.lt_succ_self _) (hinner.trans ha)

/-- The scopes after the `i`-th are not touched by what stands in the `i`-th or outside. -/
theorem Fresh.past {i : Nat} {ms : List Mention} (h : Fresh before scope i)
    (hms : ∀ m ∈ ms, m.scope = scope ∨ i :: scope <:+ m.scope) :
    Fresh (before ++ ms) scope (i + 1) := by
  refine (h.mono (Nat.le_succ i)).append fun m hm j hj hs => ?_
  rcases hms m hm with heq | hin
  · rw [heq] at hs
    exact not_suffix_of_length_lt (Nat.lt_succ_self _) hs
  · -- two ends of one list that are equally long are the same
    have hsame : j :: scope = i :: scope :=
      (List.suffix_of_suffix_length_le hs hin (Nat.le_refl _)).eq_of_length rfl
    rw [(List.cons.inj hsame).1] at hj
    exact absurd hj (Nat.not_succ_le_self i)

/-! ### Statements -/

/-- The `i`-th statement of a scope mentions names in the scope or in the `i`-th scope in it. -/
def Stmt.Within (x : Stmt) : Prop :=
  ∀ {scope : List Nat} {i : Nat}, ∀ m ∈ x.mentions scope i, m.scope = scope ∨ i :: scope <:+ m.scope

theorem suffix_of_mem_stmts {stmts : List Stmt} (hx : ∀ x ∈ stmts, x.Within) : ∀ {i : Nat},
    ∀ m ∈ stmtsMentions scope i stmts, scope <:+ m.scope := by
  induction stmts with
  | nil => exact fun m hm => nomatch hm
  | cons x stmts ih =>
    intro i m hm
    rcases List.mem_append.1 hm with hm | hm
    · rcases hx x List.mem_cons_self m hm with heq | hs
      · exact heq ▸ List.suffix_refl _
      · exact (List.suffix_cons i scope).trans hs
    · exact ih (fun y hy => hx y (List.mem_cons_of_mem x hy)) m hm

theorem Stmt.within (x : Stmt) : x.Within := by
  induction x using Stmt.byParts with
  | block s stmts ih => exact fun m hm => .inr (suffix_of_mem_stmts ih m hm)
  | varDecl s isFinal type name init =>
    exact fun m hm => .inl (scope_of_mem_declaration m hm)
  | print s method arg => exact fun m hm => .inl (arg.isUseIn m hm).1
  | expr s target op t value =>
    intro scope i m hm
    rw [Stmt.mentions] at hm
    refine .inl ?_
    split at hm
    · exact (target.isUseIn m hm).1
    · rcases List.mem_append.1 hm with hm | hm
      · exact (isUseIn_target m hm).1
      · exact (value.isUseIn m hm).1
  | missing => exact fun m hm => nomatch hm

/-- What is found in a statement is what is wrong at its mentions, and the scopes it leaves hold
what it declared. -/
def Stmt.Checked (known : List Text) (x : Stmt) : Prop :=
  ∀ {before : List Mention} {scope : List Nat} {scopes : Scopes} {i : Nat},
    InForce before scope scopes → Fresh before scope i →
      report known before (x.mentions scope i) = (x.findings known scopes).1
        ∧ InForce (before ++ x.mentions scope i) scope (x.findings known scopes).2

theorem report_stmts {stmts : List Stmt} (hx : ∀ x ∈ stmts, x.Checked known) :
    ∀ {before : List Mention} {scopes : Scopes} {i : Nat},
      InForce before scope scopes → Fresh before scope i →
        report known before (stmtsMentions scope i stmts) = (stmtsFindings known scopes stmts).1 := by
  induction stmts with
  | nil => exact fun _ _ => rfl
  | cons x stmts ih =>
    intro before scopes i h hfresh
    obtain ⟨hfirst, hafter⟩ := hx x List.mem_cons_self h hfresh
    rw [stmtsMentions, report_append, hfirst, stmtsFindings]
    rw [ih (fun y hy => hx y (List.mem_cons_of_mem x hy)) hafter (hfresh.past x.within)]

theorem Stmt.checked (x : Stmt) : x.Checked known := by
  induction x using Stmt.byParts with
  | block s stmts ih =>
    intro before scope scopes i h hfresh
    obtain ⟨hinner, hparts⟩ := h.opens hfresh
    rw [Stmt.findings_block]
    exact ⟨report_stmts ih hinner hparts, h.closes (suffix_of_mem_stmts fun x _ => x.within)⟩
  | varDecl s isFinal type name init => exact fun h _ => h.declaration known type name isFinal init
  | print s method arg => exact fun h _ => ⟨arg.report_mentions h, h.uses arg.isUseIn⟩
  | expr s target op t value =>
    intro before scope scopes i h hfresh
    rw [Stmt.mentions, Stmt.findings]
    split
    · exact ⟨target.report_mentions h, h.uses target.isUseIn⟩
    · have htarget : InForce (before ++ targetMentions scope target) scope scopes :=
        h.uses isUseIn_target
      rw [report_append, report_target h, value.report_mentions htarget, ← List.append_assoc]
      exact ⟨rfl, htarget.uses value.isUseIn⟩
  | missing =>
    intro before scope scopes i h _
    exact ⟨rfl, by rwa [Stmt.mentions, List.append_nil]⟩

/-! ### Trees -/

theorem Fresh.nil (scope : List Nat) (i : Nat) : Fresh [] scope i :=
  fun _ hd => nomatch hd

theorem InForce.nil : InForce [] [] [[]] := ⟨[], rfl, fun _ => rfl⟩

/-- The fields are checked in the scope around everything. -/
theorem InForce.fields (known : List Text) (members : List Member) :
    ∀ {before : List Mention} {scopes : Scopes}, InForce before [] scopes →
      report known before (members.flatMap Member.fieldMentions)
          = (fieldsFindings known scopes members).1
        ∧ InForce (before ++ members.flatMap Member.fieldMentions) []
            (fieldsFindings known scopes members).2 := by
  induction members with
  | nil =>
    intro before scopes h
    exact ⟨rfl, by rwa [List.flatMap_nil, List.append_nil]⟩
  | cons x members ih =>
    intro before scopes h
    cases x with
    | main s name param body => exact ih h
    | field s modifiers isFinal type name init =>
      obtain ⟨hfirst, hafter⟩ := h.declaration known type name isFinal init
      obtain ⟨hrest, hlast⟩ := ih hafter
      rw [List.flatMap_cons, Member.fieldMentions, report_append, hfirst, hrest,
        ← List.append_assoc]
      exact ⟨rfl, hlast⟩

theorem scope_of_mem_field {x : Member} : ∀ m ∈ x.fieldMentions, m.scope = [] := by
  intro m hm
  cases x with
  | main s name param body => cases hm
  | field s modifiers isFinal type name init => exact scope_of_mem_declaration m hm

theorem suffix_of_mem_main {x : Member} {i : Nat} : ∀ m ∈ x.mainMentions i, [i] <:+ m.scope := by
  intro m hm
  cases x with
  | field s modifiers isFinal type name init => cases hm
  | main s name param body =>
    rcases List.mem_append.1 hm with hm | hm
    · split at hm
      · cases hm
      · obtain rfl := List.mem_singleton.1 hm
        exact List.suffix_refl _
    · exact suffix_of_mem_stmts (fun x _ => x.within) m hm

/-- A main method is checked in a scope of its own, which its parameter is declared in first. -/
theorem report_main {i : Nat} (h : InForce before [] scopes) (hfresh : Fresh before [] i)
    (x : Member) :
    report known before (x.mainMentions i) = (x.mainFindings known scopes).1 := by
  cases x with
  | field s modifiers isFinal type name init => rfl
  | main s name param body =>
    obtain ⟨hinner, hparts⟩ := h.opens hfresh
    rw [Member.mainMentions, Member.mainFindings, inScope, report_append]
    cases param.name.isEmpty with
    | true =>
      rw [if_pos rfl, if_pos rfl, List.append_nil]
      exact congrArg _ (report_stmts (fun x _ => x.checked) hinner hparts)
    | false =>
      rw [if_neg Bool.false_ne_true, if_neg Bool.false_ne_true]
      obtain ⟨hdecl, hafter⟩ := hinner.declare known param false
      have hparam : Fresh (before ++ [⟨param, [i], .declared false⟩]) [i] 0 := by
        refine hparts.append fun m hm j _ hs => ?_
        obtain rfl := List.mem_singleton.1 hm
        exact not_suffix_of_length_lt (Nat.lt_succ_self _) hs
      rw [hdecl, report_stmts (fun x _ => x.checked) hafter hparam]

theorem report_mains {members : List Member} : ∀ {before : List Mention} {i : Nat},
    InForce before [] scopes → Fresh before [] i →
      report known before (mainsMentions i members)
        = members.flatMap fun x => (x.mainFindings known scopes).1 := by
  induction members with
  | nil => exact fun _ _ => rfl
  | cons x members ih =>
    intro before i h hfresh
    rw [mainsMentions, report_append, report_main h hfresh, List.flatMap_cons]
    rw [ih (h.closes suffix_of_mem_main) (hfresh.past fun m hm => .inr (suffix_of_mem_main m hm))]

theorem Root.report_mentions (root : Root) :
    report known [] root.mentions = root.findings known := by
  cases root with
  | statements s stmts =>
    exact report_stmts (fun x _ => x.checked) InForce.nil (Fresh.nil [] 0)
  | program s classes =>
    obtain ⟨hfields, hafter⟩ := InForce.fields known (allMembers classes) InForce.nil
    have hfresh : Fresh ([] ++ (allMembers classes).flatMap Member.fieldMentions) [] 0 := by
      refine (Fresh.nil [] 0).append fun m hm j _ hs => ?_
      obtain ⟨x, -, hm⟩ := List.mem_flatMap.1 hm
      rw [scope_of_mem_field m hm] at hs
      exact not_suffix_of_length_lt (Nat.lt_succ_self _) hs
    have hmembers : classes.flatMap (fun c => c.members) = allMembers classes := rfl
    rw [Root.mentions, ← List.flatMap_assoc, hmembers, report_append, hfields,
      report_mains hafter hfresh, Root.findings_program]

end JavaPrimer
