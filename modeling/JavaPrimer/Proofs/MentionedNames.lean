import JavaPrimer.Proofs.Scoping

/-!
# What is found depends on the names mentioned

Scope checking looks up the names that a tree mentions and no others. So a declaration in force that
a tree does not mention might as well not be there. The names a tree mentions are spelled by
identifiers among the tokens it is read from.

The relation between the scopes of two checks is kept by every statement: a declaration goes to the
innermost scope of both, and a block opens an empty scope in both.

* `Scopes.AgreeOn` — the same declarations of certain names;
* `Scopes.AgreeOn.opens`, `Scopes.AgreeOn.declare` — the steps that change the scopes;
* `Expr.findings_of_agree`, `stmtsFindings_of_agree` — the same findings under both scopes;
* `NamedIn`, `Expr.namedIn`, `Stmt.namedIn` — the names mentioned are among the tokens;
* `stmtsFindings_of_unnamed` — a declaration that no token names.
-/

namespace JavaPrimer

/-! ### Scopes that agree -/

/-- The names of a set have the same declarations under both lists of scopes: the same innermost one
and the same in the innermost scope. -/
structure Scopes.AgreeOn (N : Text → Prop) (s s' : Scopes) : Prop where
  inForce : ∀ name, N name → s'.find? name = s.find? name
  innermost : ∀ name, N name →
    findBinding? name (s'.headD []) = findBinding? name (s.headD [])

variable {N : Text → Prop} {known : List Text} {s s' : Scopes}

namespace Scopes

theorem find?_eq (name : Text) (s : Scopes) :
    s.find? name = (findBinding? name (s.headD [])).or (Scopes.find? name s.tail) := by
  cases s with
  | nil => rfl
  | cons scope above =>
    rw [find?, List.findSome?_cons]
    cases hb : findBinding? name scope with
    | none => simp [hb, find?]
    | some b => simp [hb]

theorem findBinding?_cons (b : Binding) (scope : List Binding) (name : Text) :
    findBinding? name (b :: scope) = if b.name = name then some b else findBinding? name scope := by
  by_cases hname : b.name = name
  · rw [if_pos hname, findBinding?, List.find?_cons_of_pos (by simpa using hname)]
  · rw [if_neg hname, findBinding?, List.find?_cons_of_neg (by simpa using hname), findBinding?]

/-- A new declaration is the one of its name; those of other names stay. -/
theorem find?_cons (b : Binding) (s : Scopes) (name : Text) :
    Scopes.find? name ((b :: s.headD []) :: s.tail)
      = if b.name = name then some b else s.find? name := by
  rw [find?_eq, find?_eq name s, List.headD_cons, List.tail_cons, findBinding?_cons]
  by_cases hname : b.name = name
  · rw [if_pos hname, if_pos hname, Option.some_or]
  · rw [if_neg hname, if_neg hname]

namespace AgreeOn

/-- Under a scope of their own. -/
theorem opens (h : AgreeOn N s s') : AgreeOn N ([] :: s) ([] :: s') := by
  constructor
  · intro name hname
    rw [find?_eq, find?_eq name ([] :: s)]
    exact congrArg _ (h.inForce name hname)
  · intro name _
    rfl

theorem isConstant {name : Text} (h : AgreeOn N s s') (hname : N name) :
    s'.isConstant name = s.isConstant name := by
  rw [Scopes.isConstant, Scopes.isConstant, h.inForce name hname]

/-- A declaration of one of the names is found to be a duplicate in both or in neither. -/
theorem declare {name : Ident} (h : AgreeOn N s s') (hname : N name.name) (isFinal : Bool) :
    (s'.declare name isFinal).1 = (s.declare name isFinal).1
      ∧ AgreeOn N (s.declare name isFinal).2 (s'.declare name isFinal).2 := by
  have hsame := h.innermost name.name hname
  rw [Scopes.declare, Scopes.declare, hsame]
  cases findBinding? name.name (s.headD []) with
  | some first => exact ⟨rfl, h⟩
  | none =>
    refine ⟨rfl, ?_, ?_⟩
    · intro other hother
      show Scopes.find? other ((_ :: s'.headD []) :: s'.tail)
        = Scopes.find? other ((_ :: s.headD []) :: s.tail)
      rw [find?_cons, find?_cons, h.inForce other hother]
    · intro other hother
      show findBinding? other (_ :: s'.headD []) = findBinding? other (_ :: s.headD [])
      rw [findBinding?_cons, findBinding?_cons, h.innermost other hother]

end AgreeOn

end Scopes

open Scopes (AgreeOn)

/-! ### Expressions

What a name means is up to the scopes in force; which names are mentioned is not. So it is enough to
look at the mentions of a part as if it stood in some scope. -/

/-- Every name that an expression mentions is in a set. -/
def Expr.MentionsOnly (N : Text → Prop) (e : Expr) : Prop :=
  ∃ scope, ∀ m ∈ e.mentions scope, N m.name.name

theorem mentions_of_bareName {e : Expr} {name : Ident} (h : e.bareName? = some name)
    (scope : List Nat) : e.mentions scope = [⟨name, scope, .used⟩] := by
  unfold Expr.bareName? at h
  split at h
  · cases h
    rfl
  · cases h

/-- A bare name is one of the names mentioned. -/
theorem Expr.MentionsOnly.bareName {e : Expr} {name : Ident} (h : e.MentionsOnly N)
    (hname : e.bareName? = some name) : N name.name := by
  obtain ⟨scope, hm⟩ := h
  rw [mentions_of_bareName hname] at hm
  exact hm _ List.mem_cons_self

theorem stepFindings_of_agree (h : AgreeOn N s s') {operand : Expr} (hm : operand.MentionsOnly N) :
    stepFindings s' operand = stepFindings s operand := by
  unfold stepFindings
  cases hname : operand.bareName? with
  | none => rfl
  | some name =>
    simp only [h.isConstant (hm.bareName hname)]

theorem exprsFindings_of_agree {scope : List Nat} {es : List Expr}
    (h : ∀ e ∈ es, e.MentionsOnly N → e.findings known s' = e.findings known s)
    (hm : ∀ m ∈ exprsMentions scope es, N m.name.name) :
    exprsFindings known s' es = exprsFindings known s es := by
  rw [exprsFindings_eq, exprsFindings_eq]
  apply List.flatMap_congr
  intro e he
  apply h e he
  refine ⟨scope, fun m hmem => hm m ?_⟩
  rw [exprsMentions_eq]
  exact List.mem_flatMap.2 ⟨e, he, hmem⟩

/-- What is found in an expression depends on the names that it mentions. -/
theorem Expr.findings_of_agree (h : AgreeOn N s s') (e : Expr) :
    e.MentionsOnly N → e.findings known s' = e.findings known s := by
  induction e using Expr.byParts with
  | binary span level op t left right ihl ihr =>
    rintro ⟨scope, hm⟩
    have hleft := ihl ⟨scope, fun m hmem => hm m (List.mem_append_left _ hmem)⟩
    have hright := ihr ⟨scope, fun m hmem => hm m (List.mem_append_right _ hmem)⟩
    rw [Expr.findings, Expr.findings, hleft, hright]
  | unary span op e ih =>
    rintro ⟨scope, hm⟩
    have hoperand : e.MentionsOnly N := ⟨scope, fun m hmem => hm m (List.mem_append_right _ hmem)⟩
    rw [Expr.findings, Expr.findings, ih hoperand, stepFindings_of_agree h hoperand]
  | step span op e ih =>
    rintro ⟨scope, hm⟩
    have hoperand : e.MentionsOnly N := ⟨scope, fun m hmem => hm m (List.mem_append_right _ hmem)⟩
    rw [Expr.findings, Expr.findings, ih hoperand, stepFindings_of_agree h hoperand]
  | cast span type e ih => exact ih
  | paren span e ih => exact ih
  | literal span sort raw => exact fun _ => rfl
  | name span head selectors ih =>
    rintro ⟨scope, hm⟩
    have hhead : N head.name := hm ⟨head, scope, .used⟩ List.mem_cons_self
    have huse : useFindings known s' head = useFindings known s head := by
      rw [useFindings, useFindings, h.inForce head.name hhead]
    have hselectors : selectorsFindings known s' selectors = selectorsFindings known s selectors := by
      rw [selectorsFindings_eq, selectorsFindings_eq]
      apply List.flatMap_congr
      intro x hx
      cases x with
      | field t name => rfl
      | call t args =>
        apply exprsFindings_of_agree (ih t args hx)
        intro m hmem
        apply hm m (List.mem_cons_of_mem _ _)
        rw [selectorsMentions_eq]
        exact List.mem_flatMap.2 ⟨_, hx, hmem⟩
    rw [Expr.findings, Expr.findings, huse, hselectors]
  | new span className args ih =>
    rintro ⟨scope, hm⟩
    exact exprsFindings_of_agree ih hm
  | bad span => exact fun _ => rfl
  | missing => exact fun _ => rfl

/-! ### Statements -/

/-- Every name that a statement mentions is in a set. -/
def Stmt.MentionsOnly (N : Text → Prop) (x : Stmt) : Prop :=
  ∃ scope i, ∀ m ∈ x.mentions scope i, N m.name.name

theorem targetFindings_of_agree (h : AgreeOn N s s') {scope : List Nat} {target : Expr}
    (hm : ∀ m ∈ targetMentions scope target, N m.name.name) :
    targetFindings known s' target = targetFindings known s target := by
  rw [targetMentions_eq] at hm
  unfold targetFindings
  cases hname : target.bareName? with
  | none =>
    rw [hname] at hm
    exact target.findings_of_agree h ⟨scope, hm⟩
  | some name =>
    rw [hname] at hm
    have hn : N name.name := hm _ List.mem_cons_self
    simp only [h.inForce name.name hn]

/-- A declaration is mentioned before its initializer, which sees it. -/
theorem declarationFindings_of_agree (h : AgreeOn N s s') {scope : List Nat}
    {type : Option TypeSpec} {name : Ident} {isFinal : Bool} {init : Expr}
    (hm : ∀ m ∈ declarationMentions scope type name isFinal init, N m.name.name) :
    (declarationFindings known s' type name isFinal init).1
        = (declarationFindings known s type name isFinal init).1
      ∧ AgreeOn N (declarationFindings known s type name isFinal init).2
        (declarationFindings known s' type name isFinal init).2 := by
  cases type with
  | none => exact ⟨rfl, h⟩
  | some type =>
    have hname : N name.name := hm _ List.mem_cons_self
    have hinit : init.MentionsOnly N :=
      ⟨scope, fun m hmem => hm m (List.mem_cons_of_mem _ hmem)⟩
    obtain ⟨hfound, hafter⟩ := h.declare hname isFinal
    have hseen : init.findings known (s'.declare name isFinal).2
        = init.findings known (s.declare name isFinal).2 := init.findings_of_agree hafter hinit
    exact ⟨congrArg₂ (· ++ ·) hfound hseen, hafter⟩

theorem mentionsOnly_of_stmts {scope : List Nat} {stmts : List Stmt} : ∀ {i : Nat},
    (∀ m ∈ stmtsMentions scope i stmts, N m.name.name) → ∀ x ∈ stmts, x.MentionsOnly N := by
  induction stmts with
  | nil => exact fun _ x hx => nomatch hx
  | cons x stmts ih =>
    intro i hm
    rw [List.forall_mem_cons]
    constructor
    · exact ⟨scope, i, fun m hmem => hm m (List.mem_append_left _ hmem)⟩
    · exact ih fun m hmem => hm m (List.mem_append_right _ hmem)

/-- Checked under scopes that agree on the names it mentions, a statement leaves scopes that do. -/
def Stmt.FoundAlike (known : List Text) (N : Text → Prop) (x : Stmt) : Prop :=
  ∀ {s s' : Scopes}, AgreeOn N s s' → x.MentionsOnly N →
    (x.findings known s').1 = (x.findings known s).1
      ∧ AgreeOn N (x.findings known s).2 (x.findings known s').2

theorem findings_of_foundAlike {stmts : List Stmt} (hx : ∀ x ∈ stmts, x.FoundAlike known N) :
    ∀ {s s' : Scopes}, AgreeOn N s s' → (∀ x ∈ stmts, x.MentionsOnly N) →
      (stmtsFindings known s' stmts).1 = (stmtsFindings known s stmts).1 := by
  induction stmts with
  | nil => exact fun _ _ => rfl
  | cons x stmts ih =>
    intro s s' h hm
    obtain ⟨hfirst, hafter⟩ := hx x List.mem_cons_self h (hm x List.mem_cons_self)
    have hrest := ih (fun y hy => hx y (List.mem_cons_of_mem x hy)) hafter
      fun y hy => hm y (List.mem_cons_of_mem x hy)
    rw [stmtsFindings, stmtsFindings, hfirst, hrest]

theorem Stmt.foundAlike (x : Stmt) : x.FoundAlike known N := by
  induction x using Stmt.byParts with
  | block span stmts ih =>
    rintro s s' h ⟨scope, i, hm⟩
    rw [Stmt.findings_block, Stmt.findings_block]
    exact ⟨findings_of_foundAlike ih h.opens (mentionsOnly_of_stmts hm), h⟩
  | varDecl span isFinal type name init =>
    rintro s s' h ⟨scope, i, hm⟩
    exact declarationFindings_of_agree h hm
  | print span method arg =>
    rintro s s' h ⟨scope, i, hm⟩
    exact ⟨arg.findings_of_agree h ⟨scope, hm⟩, h⟩
  | expr span target op t value =>
    rintro s s' h ⟨scope, i, hm⟩
    rw [Stmt.mentions] at hm
    rw [Stmt.findings, Stmt.findings]
    by_cases hop : op = .none
    · rw [if_pos hop] at hm
      rw [if_pos hop, if_pos hop]
      exact ⟨target.findings_of_agree h ⟨scope, hm⟩, h⟩
    · rw [if_neg hop] at hm
      rw [if_neg hop, if_neg hop]
      have htarget : targetFindings known s' target = targetFindings known s target :=
        targetFindings_of_agree h fun m hmem => hm m (List.mem_append_left _ hmem)
      have hvalue : value.findings known s' = value.findings known s :=
        value.findings_of_agree h ⟨scope, fun m hmem => hm m (List.mem_append_right _ hmem)⟩
      exact ⟨congrArg₂ (· ++ ·) htarget hvalue, h⟩
  | missing => exact fun h _ => ⟨rfl, h⟩

/-- What is found in statements depends on the names that they mention. -/
theorem stmtsFindings_of_agree {stmts : List Stmt} (h : AgreeOn N s s')
    (hm : ∀ x ∈ stmts, x.MentionsOnly N) :
    (stmtsFindings known s' stmts).1 = (stmtsFindings known s stmts).1 :=
  findings_of_foundAlike (fun x _ => x.foundAlike) h hm

/-! ### The names mentioned by a reading -/

/-- A name is spelled by an identifier among some tokens. -/
def NamedIn (ts : List Token) (name : Text) : Prop := ∃ t ∈ ts, t.kind = .ident ∧ t.value = name

instance (ts : List Token) (name : Text) : Decidable (NamedIn ts name) :=
  inferInstanceAs (Decidable (∃ t ∈ ts, _))

theorem NamedIn.mono {us ts : List Token} (hs : us ⊆ ts) {name : Text} (h : NamedIn us name) :
    NamedIn ts name := by
  obtain ⟨t, ht, hname⟩ := h
  exact ⟨t, hs ht, hname⟩

theorem Ident.namedIn {x : Ident} {t : Token} {ts : List Token} (h : x.ReadFrom t) (ht : t ∈ ts) :
    NamedIn ts x.name :=
  ⟨t, ht, h.1, h.2⟩

/-- Each of the things read one after another is read from some of the tokens. -/
theorem ReadEach.exists_of_mem {α : Type} {P : α → List Token → Prop} {xs : List α}
    {ts : List Token} (h : ReadEach P xs ts) : ∀ x ∈ xs, ∃ us, us ⊆ ts ∧ P x us := by
  induction xs generalizing ts with
  | nil => exact fun x hx => nomatch hx
  | cons x xs ih =>
    obtain ⟨us, vs, rfl, hx, hxs⟩ := h
    rw [List.forall_mem_cons]
    constructor
    · exact ⟨us, List.subset_append_left us vs, hx⟩
    · intro y hy
      obtain ⟨ws, hws, hread⟩ := ih hxs y hy
      exact ⟨ws, List.Subset.trans hws (List.subset_append_right us vs), hread⟩

theorem exists_of_mem_args {args : List Expr} {ts : List Token} (h : argsReadFrom args ts) :
    ∀ e ∈ args, ∃ us, us ⊆ ts ∧ e.ReadFrom us := by
  cases args with
  | nil => exact fun e he => nomatch he
  | cons e args =>
    obtain ⟨us, vs, rfl, he, hmore⟩ := h
    rw [moreArgsReadFrom_eq] at hmore
    rw [List.forall_mem_cons]
    constructor
    · exact ⟨us, List.subset_append_left us vs, he⟩
    · intro e' he'
      obtain ⟨ws, hws, c, ws', rfl, -, hread⟩ := hmore.exists_of_mem e' he'
      have hsub : ws' ⊆ vs := List.Subset.trans (List.subset_cons_self c ws') hws
      exact ⟨ws', List.Subset.trans hsub (List.subset_append_right us vs), hread⟩

variable {scope : List Nat}

/-- What a step operator or an assignment mentions of a bare name is what an expression does. -/
theorem namedIn_bareName {e : Expr} {name : Ident} {ts : List Token}
    (h : ∀ m ∈ e.mentions scope, NamedIn ts m.name.name) (hname : e.bareName? = some name) :
    NamedIn ts name.name :=
  h ⟨name, scope, .used⟩ (mentions_of_bareName hname scope ▸ List.mem_cons_self)

theorem namedIn_step {e : Expr} {ts : List Token}
    (h : ∀ m ∈ e.mentions scope, NamedIn ts m.name.name) :
    ∀ m ∈ stepMentions scope e, NamedIn ts m.name.name := by
  intro m hm
  rw [stepMentions_eq] at hm
  cases hname : e.bareName? with
  | none =>
    rw [hname] at hm
    cases hm
  | some name =>
    rw [hname] at hm
    obtain rfl := List.mem_singleton.1 hm
    exact namedIn_bareName h hname

theorem namedIn_args {args : List Expr} {us : List Token} (hread : argsReadFrom args us)
    (h : ∀ e ∈ args, ∀ {ts}, e.ReadFrom ts → ∀ m ∈ e.mentions scope, NamedIn ts m.name.name) :
    ∀ m ∈ exprsMentions scope args, NamedIn us m.name.name := by
  intro m hm
  rw [exprsMentions_eq] at hm
  obtain ⟨e, he, hm⟩ := List.mem_flatMap.1 hm
  obtain ⟨vs, hvs, hread⟩ := exists_of_mem_args hread e he
  exact (h e he hread m hm).mono hvs

/-- The names that an expression mentions are among the tokens it is read from. -/
theorem Expr.namedIn (e : Expr) :
    ∀ {ts}, e.ReadFrom ts → ∀ m ∈ e.mentions scope, NamedIn ts m.name.name := by
  induction e using Expr.byParts with
  | binary span level op t left right ihl ihr =>
    rintro _ ⟨us, o, vs, rfl, -, -, -, hleft, hright⟩ m hm
    rcases List.mem_append.1 hm with hm | hm
    · exact (ihl hleft m hm).mono (List.subset_append_left us _)
    · exact (ihr hright m hm).mono fun t ht => by simp [ht]
  | unary span op e ih =>
    rintro _ ⟨o, us, rfl, -, -, he⟩ m hm
    have hnamed : NamedIn us m.name.name := by
      rcases List.mem_append.1 hm with hm | hm
      · split at hm
        · exact namedIn_step (ih he) m hm
        · cases hm
      · exact ih he m hm
    exact hnamed.mono (List.subset_cons_self o us)
  | step span op e ih =>
    rintro _ ⟨us, o, rfl, -, -, -, he⟩ m hm
    have hnamed : NamedIn us m.name.name := by
      rcases List.mem_append.1 hm with hm | hm
      · exact namedIn_step (ih he) m hm
      · exact ih he m hm
    exact hnamed.mono (List.subset_append_left us [o])
  | cast span type e ih =>
    rintro _ ⟨l, w, r, us, rfl, -, -, -, -, -, -, he⟩ m hm
    exact (ih he m hm).mono fun t ht => by simp [ht]
  | paren span e ih =>
    rintro _ ⟨l, us, r, rfl, -, -, he⟩ m hm
    exact (ih he m hm).mono fun t ht => by simp [ht]
  | literal span sort raw => exact fun _ m hm => nomatch hm
  | name span head selectors ih =>
    rintro _ ⟨t, us, rfl, hhead, hselectors⟩ m hm
    rcases List.mem_cons.1 hm with rfl | hm
    · exact Ident.namedIn hhead List.mem_cons_self
    · rw [selectorsMentions_eq] at hm
      rw [selectorsReadFrom_eq] at hselectors
      obtain ⟨x, hx, hm⟩ := List.mem_flatMap.1 hm
      obtain ⟨vs, hvs, hread⟩ := hselectors.exists_of_mem x hx
      cases x with
      | field t' name => cases hm
      | call t' args =>
        obtain ⟨l, ws, r, rfl, -, -, hargs⟩ := hread
        have hsub : ws ⊆ t :: us := fun u hu => List.mem_cons_of_mem t (hvs (by simp [hu]))
        exact (namedIn_args hargs (ih t' args hx) m hm).mono hsub
  | new span className args ih =>
    rintro _ ⟨n, t, l, us, r, rfl, -, -, -, -, hargs⟩ m hm
    exact (namedIn_args hargs ih m hm).mono fun u hu => by simp [hu]
  | bad span => exact fun h => h.elim
  | missing => exact fun h => h.elim

theorem namedIn_declaration {type : Option TypeSpec} {name : Ident} {isFinal : Bool} {init : Expr}
    {ts : List Token} (h : ReadAsDeclared type name init ts) :
    ∀ m ∈ declarationMentions scope type name isFinal init, NamedIn ts m.name.name := by
  obtain ⟨ws, x, vs, q, rfl, -, hname, hinit, -⟩ := h
  intro m hm
  cases type with
  | none => cases hm
  | some type =>
    rcases List.mem_cons.1 hm with rfl | hm
    · exact Ident.namedIn hname (by simp)
    · rcases hinit with ⟨rfl, -⟩ | ⟨q', us, rfl, -, hinit⟩
      · cases hm
      · exact (init.namedIn hinit m hm).mono fun t ht => by simp [ht]

theorem namedIn_target {target : Expr} {ts : List Token} (h : target.ReadFrom ts) :
    ∀ m ∈ targetMentions scope target, NamedIn ts m.name.name := by
  have hused : ∀ m ∈ target.mentions scope, NamedIn ts m.name.name := target.namedIn h
  intro m hm
  rw [targetMentions_eq] at hm
  cases hname : target.bareName? with
  | none =>
    rw [hname] at hm
    exact hused m hm
  | some name =>
    rw [hname] at hm
    obtain rfl := List.mem_singleton.1 hm
    exact namedIn_bareName hused hname

theorem namedIn_stmts {stmts : List Stmt} (h : ∀ x ∈ stmts, ∀ {ts scope i}, x.ReadFrom ts →
      ∀ m ∈ x.mentions scope i, NamedIn ts m.name.name) :
    ∀ {ts scope i}, ReadEach Stmt.ReadFrom stmts ts →
      ∀ m ∈ stmtsMentions scope i stmts, NamedIn ts m.name.name := by
  induction stmts with
  | nil => exact fun _ m hm => nomatch hm
  | cons x stmts ih =>
    rintro _ scope i ⟨us, vs, rfl, hx, hstmts⟩ m hm
    rcases List.mem_append.1 hm with hm | hm
    · exact (h x List.mem_cons_self hx m hm).mono (List.subset_append_left us vs)
    · have hrest := ih (fun y hy => h y (List.mem_cons_of_mem x hy)) hstmts m hm
      exact hrest.mono (List.subset_append_right us vs)

/-- The names that a statement mentions are among the tokens it is read from. -/
theorem Stmt.namedIn (x : Stmt) : ∀ {ts scope i}, x.ReadFrom ts →
    ∀ m ∈ x.mentions scope i, NamedIn ts m.name.name := by
  induction x using Stmt.byParts with
  | block span stmts ih =>
    rintro _ scope i ⟨l, us, r, rfl, -, -, hstmts⟩ m hm
    rw [stmtsReadFrom_eq] at hstmts
    exact (namedIn_stmts ih hstmts m hm).mono fun t ht => by simp [ht]
  | varDecl span isFinal type name init =>
    rintro _ scope i ⟨fs, us, rfl, -, hdecl⟩ m hm
    exact (namedIn_declaration hdecl m hm).mono (List.subset_append_right fs us)
  | print span method arg =>
    rintro _ scope i ⟨s, d, o, d', n, l, us, r, q, rfl, -, -, -, -, harg, -⟩ m hm
    rcases harg with ⟨rfl, -⟩ | harg
    · cases hm
    · exact (arg.namedIn harg m hm).mono fun t ht => by simp [ht]
  | expr span target op t value =>
    rintro _ scope i ⟨us, vs, q, rfl, -, htarget, hassigned, -⟩ m hm
    have hfront : us ⊆ us ++ (vs ++ [q]) := List.subset_append_left us _
    rw [Stmt.mentions] at hm
    by_cases hop : op = .none
    · rw [if_pos hop] at hm
      exact (target.namedIn htarget m hm).mono hfront
    · rw [if_neg hop] at hm
      rcases List.mem_append.1 hm with hm | hm
      · exact (namedIn_target htarget m hm).mono hfront
      · rcases hassigned with ⟨-, rfl, -⟩ | ⟨o, ws, rfl, -, -, hvalue⟩
        · cases hm
        · exact (value.namedIn hvalue m hm).mono fun t ht => by simp [ht]
  | missing => exact fun h => h.elim

/-- Statements that are read from tokens without an identifier `p` are found the same in whether or
not `p` is declared. -/
theorem stmtsFindings_of_unnamed {p : Text} {stmts : List Stmt} {ts : List Token}
    (hread : ReadEach Stmt.ReadFrom stmts ts) (hp : ¬ NamedIn ts p)
    (h : AgreeOn (· ≠ p) s s') :
    (stmtsFindings known s' stmts).1 = (stmtsFindings known s stmts).1 := by
  apply stmtsFindings_of_agree h
  intro x hx
  obtain ⟨us, hus, hread⟩ := hread.exists_of_mem x hx
  refine ⟨[], 0, fun m hm hname => hp ?_⟩
  rw [← hname]
  exact (x.namedIn hread m hm).mono hus

end JavaPrimer
