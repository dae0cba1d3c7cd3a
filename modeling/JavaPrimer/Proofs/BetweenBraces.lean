import JavaPrimer.Proofs.CleanReading

/-!
# Between the braces

An expression, a declaration or a simple statement is read without consuming a brace, wherever it
breaks off, and no operand that goes into its tree is missing: where none can be read, a broken
expression stands in for it. Braces are consumed by blocks and by classes alone, and by skipping.

* `Kind.isBrace`, `Cursor.Flat` — a place reached without consuming a brace;
* `Parse.Passes` — a step that consumes no brace, with a property of its value;
* `Expr.Whole`, `Expr.Optional`, `Stmt.Simple`, `Member.IsField` — trees without a missing operand;
* `Parse.passes_expression`, `Parse.passes_varDecl`, `Parse.passes_fieldDecl` — the constructs
  without braces;
* `Parse.leads_mainMethod`, `Parse.leads_classDecl` — those with braces, up to the brace.
-/

namespace JavaPrimer

/-- Opening and closing braces. -/
def Kind.isBrace : Kind → Bool
  | .lbrace | .rbrace => true
  | _ => false

/-- A class of kinds without the braces. -/
theorem Kind.isBrace_of {f : Kind → Bool} (hl : f .lbrace = false) (hr : f .rbrace = false)
    {k : Kind} (hk : f k = true) : k.isBrace = false := by
  cases k with
  | lbrace => rw [hl] at hk; cases hk
  | rbrace => rw [hr] at hk; cases hk
  | _ => rfl

theorem Kind.isBrace_of_ne {k : Kind} (hl : k ≠ .lbrace) (hr : k ≠ .rbrace) :
    k.isBrace = false := by
  cases k with
  | lbrace => exact absurd rfl hl
  | rbrace => exact absurd rfl hr
  | _ => rfl

theorem Kind.ne_lbrace {k : Kind} (h : k.isBrace = false) : k ≠ .lbrace := by
  rintro rfl
  cases h

theorem Kind.ne_rbrace {k : Kind} (h : k.isBrace = false) : k ≠ .rbrace := by
  rintro rfl
  cases h

/-- Tokens that are no braces. -/
def Braceless (ts : List Token) : Prop := ∀ t ∈ ts, t.kind.isBrace = false

/-- From one place to a later one no brace has been consumed. -/
def Cursor.Flat (c d : Cursor) : Prop := ∃ ts, c.Consumed ts d ∧ Braceless ts

namespace Cursor

variable {c d e : Cursor}

theorem Flat.refl (c : Cursor) : c.Flat c := ⟨[], .refl c, fun _ h => nomatch h⟩

theorem Flat.trans (hd : c.Flat d) (he : d.Flat e) : c.Flat e := by
  obtain ⟨us, hus, hflat⟩ := hd
  obtain ⟨vs, hvs, hflat'⟩ := he
  exact ⟨us ++ vs, hus.trans hvs, List.forall_mem_append.2 ⟨hflat, hflat'⟩⟩

theorem Flat.panic (h : c.Flat d) (b : Bool) : c.Flat { d with panicking := b } := by
  obtain ⟨ts, hts, hflat⟩ := h
  exact ⟨ts, ⟨hts.rest, hts.last⟩, hflat⟩

theorem flat_advance (hk : c.kind.isBrace = false) : c.Flat c.advance := by
  cases hr : c.rest with
  | nil =>
    rw [advance_nil hr]
    exact .refl c
  | cons t ts =>
    refine ⟨[t], consumed_advance hr, ?_⟩
    intro u hu
    rw [List.mem_singleton.1 hu, ← current_cons hr]
    exact hk

/-- From one place to a later one no brace has been consumed and no error raised. -/
structure Near (c d : Cursor) : Prop where
  flat : c.Flat d
  panicking : d.panicking = c.panicking
  stop : d.stop = c.stop

theorem Near.refl (c : Cursor) : c.Near c := ⟨.refl c, rfl, rfl⟩

theorem Near.advance (h : c.Near d) (hk : d.kind.isBrace = false) : c.Near d.advance :=
  ⟨h.flat.trans (flat_advance hk), by rw [panicking_advance, h.panicking],
    by rw [stop_advance, h.stop]⟩

end Cursor

namespace Parse

variable {α β : Type} {c : Cursor}

/-- A run of `p` from `c` consumes no brace, and `Q` holds of its value. -/
def Passes (p : Parse .short α) (c : Cursor) (Q : α → Prop) : Prop :=
  c.Flat (p c).cursor ∧ Q (p c).value

/-! ### Rules for steps -/

theorem Passes.imp {p : Parse .short α} {Q Q' : α → Prop} (h : p.Passes c Q)
    (hQ : ∀ a, Q a → Q' a) :
    p.Passes c Q' :=
  ⟨h.1, hQ _ h.2⟩

theorem passes_pure {a : α} {Q : α → Prop} (h : Q a) : (Pure.pure a : Parse .short α).Passes c Q :=
  ⟨.refl c, h⟩

theorem Passes.bind {p : Parse .short α} {f : α → Parse .short β} {Q : α → Prop} {Q' : β → Prop}
    (hp : p.Passes c Q) (hf : ∀ a d, Q a → (f a).Passes d Q') : (p >>= f).Passes c Q' := by
  have hnext := hf _ (p c).cursor hp.2
  exact ⟨hp.1.trans hnext.1, hnext.2⟩

theorem Passes.map {p : Parse .short α} {f : α → β} {Q : β → Prop}
    (h : p.Passes c fun a => Q (f a)) :
    (f <$> p).Passes c Q := by
  rw [Passes, map_apply]
  exact h

theorem passes_look_bind {g : Cursor → α} {f : α → Parse .short β} {Q : β → Prop}
    (h : (f (g c)).Passes c Q) : (look g >>= f).Passes c Q := h

theorem passes_panicking_bind {f : Bool → Parse .short β} {Q : β → Prop}
    (h : ∀ b, (f b).Passes c Q) : (panicking >>= f).Passes c Q := h c.panicking

theorem passes_advance_bind (hk : c.kind.isBrace = false) {f : Token → Parse .short β}
    {Q : β → Prop} (h : (f c.current).Passes c.advance Q) : (advance >>= f).Passes c Q :=
  ⟨(Cursor.flat_advance hk).trans h.1, h.2⟩

theorem passes_spanned {node : Parse .short (Span → α)} {Q : α → Prop}
    (h : node.Passes c fun build => ∀ s, Q (build s)) : (spanned node).Passes c Q :=
  passes_look_bind (h.bind fun _ _ hbuild => passes_look_bind (passes_pure (hbuild _)))

theorem passes_fail (x : Complaint) {Q : Unit → Prop} (h : Q ()) : (fail x).Passes c Q := by
  refine ⟨?_, h⟩
  unfold fail
  split
  · exact .refl c
  · split <;> exact (Cursor.Flat.refl c).panic true

theorem passes_fail_bind (x : Complaint) {f : Unit → Parse .short β} {Q : β → Prop}
    (h : ∀ d, (f ()).Passes d Q) : (fail x >>= f).Passes c Q :=
  (passes_fail x (Q := fun _ => True) trivial).bind fun _ d _ => h d

theorem passes_report_bind (x : Diagnostic) {f : Unit → Parse .short β} {Q : β → Prop}
    (h : ∀ d, (f ()).Passes d Q) : (report x >>= f).Passes c Q := by
  have hreport : (report x).Passes c fun _ => True := by
    apply passes_panicking_bind
    intro b
    cases b
    · exact ⟨.refl c, trivial⟩
    · exact passes_pure trivial
  exact hreport.bind fun _ d _ => h d

theorem passes_expect_bind {k : Kind} (hk : k.isBrace = false) {f : Bool → Parse .short β}
    {Q : β → Prop} (h : ∀ b d, (f b).Passes d Q) : (expect k >>= f).Passes c Q := by
  have hexpect : (expect k).Passes c fun _ => True := by
    apply passes_look_bind
    split
    · next hfound =>
      have hbrace : c.kind.isBrace = false := by
        rw [show c.kind = k from hfound]
        exact hk
      exact passes_advance_bind hbrace (passes_pure trivial)
    · exact passes_fail_bind _ fun _ => passes_pure trivial
  exact hexpect.bind fun b d _ => h b d

theorem passes_expectIdent_bind {f : Ident × Bool → Parse .short β} {Q : β → Prop}
    (h : ∀ name there d, (f (name, there)).Passes d Q) : (expectIdent >>= f).Passes c Q := by
  have hexpect : expectIdent.Passes c fun _ => True :=
    passes_look_bind (passes_expect_bind rfl fun _ _ => passes_pure trivial)
  exact hexpect.bind fun x d _ => h x.1 x.2 d

theorem passes_expectWord_bind {words : List Text} {f : Ident × Bool → Parse .short β}
    {Q : β → Prop}
    (h : ∀ name there d, (f (name, there)).Passes d Q) : (expectWord words >>= f).Passes c Q := by
  have hexpect : (expectWord words).Passes c fun _ => True := by
    apply passes_look_bind
    split
    · next hfound =>
      have hbrace : c.kind.isBrace = false := by
        rw [show c.kind = .ident from hfound.1]
        rfl
      exact passes_advance_bind hbrace (passes_pure trivial)
    · exact passes_fail_bind _ fun _ => passes_pure trivial
  exact hexpect.bind fun x d _ => h x.1 x.2 d

theorem passes_untilNone {item : Parse .short (Option α)} {P : α → Prop}
    (h : ∀ d, item.Passes d fun x => ∀ a ∈ x, P a) :
    (untilNone item).Passes c fun xs => ∀ a ∈ xs, P a := by
  have hcollect : ∀ n d, (collectUntil item n).Passes d fun xs => ∀ a ∈ xs, P a := by
    intro n
    induction n with
    | zero => exact fun d => passes_pure fun _ ha => nomatch ha
    | succ n ih =>
      intro d
      apply (h d).bind
      intro x e hx
      cases x with
      | none => exact passes_pure fun _ ha => nomatch ha
      | some x =>
        exact (ih e).bind fun xs _ hxs => passes_pure (List.forall_mem_cons.2 ⟨hx x rfl, hxs⟩)
  exact hcollect _ c

end Parse

/-! ### Operands that are there -/

mutual

/-- No operand is missing, down to the leaves; where none was read there is a broken one. -/
inductive Expr.Whole : Expr → Prop
  | binary {s level op t left right} (hl : Expr.Whole left) (hr : Expr.Whole right) :
    Expr.Whole (.binary s level op t left right)
  | unary {s op operand} (h : Expr.Whole operand) : Expr.Whole (.unary s op operand)
  | step {s op operand} (h : Expr.Whole operand) : Expr.Whole (.step s op operand)
  | cast {s type operand} (h : Expr.Whole operand) : Expr.Whole (.cast s (some type) operand)
  | paren {s inner} (h : Expr.Whole inner) : Expr.Whole (.paren s inner)
  | literal {s sort raw} : Expr.Whole (.literal s sort raw)
  | name {s head selectors} (h : ∀ x ∈ selectors, Selector.Whole x) :
    Expr.Whole (.name s head selectors)
  | new {s className args} (h : ∀ a ∈ args, Expr.Whole a) : Expr.Whole (.new s className args)
  | bad {s} : Expr.Whole (.bad s)

/-- No argument is missing. -/
inductive Selector.Whole : Selector → Prop
  | field {s name} : Selector.Whole (.field s name)
  | call {s args} (h : ∀ a ∈ args, Expr.Whole a) : Selector.Whole (.call s args)

end

/-- An initializer or an argument that need not be written. -/
def Expr.Optional (e : Expr) : Prop := e = .missing ∨ e.Whole

/-- A statement other than a block that misses no operand. -/
inductive Stmt.Simple : Stmt → Prop
  | varDecl {s isFinal type name init} (h : Expr.Optional init) :
    Stmt.Simple (.varDecl s isFinal type name init)
  | print {s method arg} (h : Expr.Optional arg) : Stmt.Simple (.print s method arg)
  | expr {s target t} (h : Expr.Whole target) : Stmt.Simple (.expr s target .none t .missing)
  | assign {s target op t value} (ht : Expr.Whole target) (hv : Expr.Whole value) :
    Stmt.Simple (.expr s target op t value)

/-- A field that misses no operand. -/
inductive Member.IsField : Member → Prop
  | field {s modifiers isFinal type name init} (h : Expr.Optional init) :
    Member.IsField (.field s modifiers isFinal type name init)

namespace Parse

variable {c : Cursor}

/-! ### Expressions -/

theorem passes_expressionExpected : expressionExpected.Passes c Expr.Whole :=
  passes_look_bind (passes_fail_bind _ fun _ => passes_pure .bad)

theorem isBrace_of_op? : ∀ tier ∈ tiers, tier.op? .lbrace = none ∧ tier.op? .rbrace = none := by
  decide

theorem passes_chain {tier : Tier} (htier : tier ∈ tiers) {operand : Parse .short Expr}
    (h : ∀ d, operand.Passes d Expr.Whole) (n : Nat) :
    ∀ left (d : Cursor), left.Whole → (chain tier operand n left).Passes d Expr.Whole := by
  induction n with
  | zero => exact fun left d hleft => passes_pure hleft
  | succ n ih =>
    intro left d hleft
    apply passes_look_bind
    cases hop : tierOp? tier d with
    | none => exact passes_pure hleft
    | some op =>
      have hkind : d.kind.isBrace = false := by
        obtain ⟨hl, hr⟩ := isBrace_of_op? tier htier
        apply Kind.isBrace_of (f := fun k => (tier.op? k).isSome) (by rw [hl]; rfl) (by rw [hr]; rfl)
        unfold tierOp? at hop
        split at hop
        · cases hop
        · rw [hop]; rfl
      apply passes_advance_bind hkind
      exact (h _).bind fun right e hright => ih _ e (.binary hleft hright)

theorem passes_climb {operand : Parse .short Expr} (h : ∀ d, operand.Passes d Expr.Whole)
    {ts : List Tier} (hts : ∀ tier ∈ ts, tier ∈ tiers) : (climb operand ts).Passes c Expr.Whole := by
  induction ts generalizing c with
  | nil => exact h c
  | cons tier tighter ih =>
    have htighter : ∀ d, (climb operand tighter).Passes d Expr.Whole := fun d =>
      ih fun t ht => hts t (List.mem_cons_of_mem tier ht)
    apply (htighter c).bind
    intro left d hleft
    exact passes_look_bind (passes_chain (hts tier List.mem_cons_self) htighter _ left d hleft)

section Operands

variable {expr : Parse .short Expr} (h : ∀ d, expr.Passes d Expr.Whole)

include h

theorem passes_argument : (argument expr).Passes c fun x => ∀ a ∈ x, a.Whole := by
  apply passes_look_bind
  split
  · next hgo =>
    have hkind : c.kind = .comma := by simpa using (Bool.and_eq_true_iff.1 hgo).2
    apply passes_advance_bind (by rw [hkind]; rfl)
    refine (h _).bind fun e _ he => passes_pure ?_
    intro a ha
    cases ha
    exact he
  · exact passes_pure fun _ ha => nomatch ha

theorem passes_arguments : (arguments expr).Passes c fun xs => ∀ a ∈ xs, a.Whole := by
  apply passes_look_bind
  split
  · apply (h c).bind
    intro first d hfirst
    refine (passes_untilNone fun e => passes_argument h).bind fun more _ hmore => ?_
    exact passes_pure (List.forall_mem_cons.2 ⟨hfirst, hmore⟩)
  · exact passes_pure fun _ ha => nomatch ha

omit h in
theorem passes_fieldSelector (hk : c.kind = .dot) :
    fieldSelector.Passes c fun x => ∀ a ∈ x, a.Whole := by
  apply passes_advance_bind (by rw [hk]; rfl)
  apply passes_expectIdent_bind
  intro name there d
  cases there
  · exact passes_pure fun _ ha => nomatch ha
  · refine passes_pure fun a ha => ?_
    cases ha
    exact .field

theorem passes_callSelector (hk : c.kind = .lparen) :
    (callSelector expr).Passes c fun x => ∀ a ∈ x, a.Whole := by
  apply passes_advance_bind (by rw [hk]; rfl)
  apply (passes_arguments h).bind
  intro args d hargs
  apply passes_panicking_bind
  intro b
  cases b
  · apply passes_expect_bind rfl
    intro closed e
    cases closed
    · exact passes_pure fun _ ha => nomatch ha
    · refine passes_look_bind (passes_pure fun a ha => ?_)
      cases ha
      exact .call hargs
  · exact passes_pure fun _ ha => nomatch ha

theorem passes_selector : (selector expr).Passes c fun x => ∀ a ∈ x, a.Whole := by
  apply passes_panicking_bind
  intro b
  cases b
  · apply passes_look_bind
    split
    · next hk => exact passes_fieldSelector hk
    · next hk => exact passes_callSelector h hk
    · exact passes_pure fun _ ha => nomatch ha
  · exact passes_pure fun _ ha => nomatch ha

theorem passes_nameExpr (hk : c.kind = .ident) : (nameExpr expr).Passes c Expr.Whole := by
  apply passes_spanned
  apply passes_advance_bind (by rw [hk]; rfl)
  refine (passes_untilNone fun e => passes_selector h).bind fun selectors _ hselectors => ?_
  exact passes_pure fun _ => .name hselectors

theorem passes_newExpr (hk : c.kind = .kwNew) : (newExpr expr).Passes c Expr.Whole := by
  have hnone : ∀ a ∈ ([] : List Expr), a.Whole := fun _ ha => nomatch ha
  apply passes_spanned
  apply passes_advance_bind (by rw [hk]; rfl)
  apply passes_expectIdent_bind
  intro className there d
  cases there
  · exact passes_pure fun _ => .new hnone
  · apply passes_expect_bind rfl
    intro opened e
    cases opened
    · exact passes_pure fun _ => .new hnone
    · apply (passes_arguments h).bind
      intro args f hargs
      apply passes_panicking_bind
      intro b
      cases b
      · exact passes_expect_bind rfl fun _ _ => passes_pure fun _ => .new hargs
      · exact passes_pure fun _ => .new hargs

theorem passes_parenExpr (hk : c.kind = .lparen) : (parenExpr expr).Passes c Expr.Whole := by
  apply passes_spanned
  apply passes_advance_bind (by rw [hk]; rfl)
  apply (h _).bind
  intro inner d hinner
  apply passes_panicking_bind
  intro b
  cases b
  · exact passes_expect_bind rfl fun _ _ => passes_pure fun _ => .paren hinner
  · exact passes_pure fun _ => .paren hinner

theorem passes_primary : (primary expr).Passes c Expr.Whole := by
  apply passes_look_bind
  split
  · next sort hsort =>
    have hkind : c.kind.isBrace = false := by
      apply Kind.isBrace_of (f := fun k => (LiteralSort.ofKind? k).isSome) rfl rfl
      rw [show LiteralSort.ofKind? c.kind = some sort from hsort]
      rfl
    exact passes_advance_bind hkind (passes_pure .literal)
  · split
    · next hk => exact passes_nameExpr h hk
    · next hk => exact passes_parenExpr h hk
    · next hk => exact passes_newExpr h hk
    · exact passes_expressionExpected

theorem passes_stepped : (stepped expr).Passes c Expr.Whole := by
  apply (passes_primary h).bind
  intro operand d hoperand
  apply passes_look_bind
  split
  · next op hop =>
    have hkind : d.kind.isBrace = false := by
      apply Kind.isBrace_of (f := fun k => (UnaryOp.ofKind? k).isSome) rfl rfl
      rw [(ofKind?_of_stepOp? hop).1]
      rfl
    exact passes_advance_bind hkind (passes_pure (.step hoperand))
  · exact passes_pure hoperand

theorem passes_castExpr (hs : c.startsCast = true) : (castExpr expr).Passes c Expr.Whole := by
  obtain ⟨hopen, hword⟩ := Bool.and_eq_true_iff.1 hs
  have hkind : c.kind = .lparen := by simpa using hopen
  have hnext : c.advance.kind.isPrimitive = true := by
    show (c.advance.ahead 0).kind.isPrimitive = true
    rw [Cursor.ahead_advance]
    exact hword
  apply passes_advance_bind (by rw [hkind]; rfl)
  apply passes_advance_bind (Kind.isBrace_of rfl rfl hnext)
  apply passes_expect_bind rfl
  intro closed d
  cases closed
  · exact passes_look_bind (passes_look_bind (passes_pure (.cast .bad)))
  · exact (h d).bind fun e _ he => passes_pure (.cast he)

theorem passes_unaryWith : (unaryWith expr).Passes c Expr.Whole := by
  apply passes_look_bind
  split
  · next op hop =>
    have hkind : c.kind.isBrace = false := by
      apply Kind.isBrace_of (f := fun k => (UnaryOp.ofKind? k).isSome) rfl rfl
      rw [hop]
      rfl
    exact passes_advance_bind hkind ((h _).bind fun e _ he => passes_pure (.unary he))
  · apply passes_look_bind
    split
    · next hs => exact passes_castExpr h hs
    · exact passes_stepped fun d => passes_climb h fun _ ht => ht

end Operands

theorem passes_unary (n : Nat) : (unary n).Passes c Expr.Whole := by
  induction n generalizing c with
  | zero => exact passes_expressionExpected
  | succ n ih => exact passes_unaryWith fun _ => ih

/-- An expression is read without a brace, and no operand of it is missing. -/
theorem passes_expression : expression.Passes c Expr.Whole := by
  have hclimb : (climb (unary (c.rest.length + 1)) tiers).Passes c Expr.Whole :=
    passes_climb (fun _ => passes_unary _) fun _ ht => ht
  exact ⟨hclimb.1, hclimb.2⟩

/-! ### Declarations and simple statements -/

theorem passes_typeSpec_bind {β : Type} {f : Option TypeSpec → Parse .short β} {Q : β → Prop}
    (h : ∀ type d, (f type).Passes d Q) : (typeSpec >>= f).Passes c Q := by
  have htype : typeSpec.Passes c fun _ => True := by
    apply passes_look_bind
    split
    · next hword =>
      apply passes_spanned
      apply passes_advance_bind (Kind.isBrace_of (f := Kind.isTypeWord) rfl rfl hword)
      apply passes_look_bind
      split
      · next hopen =>
        have hkind : c.advance.kind = .lbracket := by simpa using hopen
        apply passes_advance_bind (by rw [hkind]; rfl)
        exact passes_expect_bind rfl fun _ _ => passes_pure fun _ => trivial
      · exact passes_pure fun _ => trivial
    · exact passes_fail_bind _ fun _ => passes_pure trivial
  exact htype.bind fun type d _ => h type d

theorem passes_assigned : assigned.Passes c Expr.Whole := by
  apply passes_expression.bind
  intro value d hvalue
  apply passes_panicking_bind
  intro b
  cases b
  · exact passes_expect_bind rfl fun _ _ => passes_pure hvalue
  · exact passes_pure hvalue

theorem passes_initialized : initialized.Passes c Expr.Optional := by
  apply passes_look_bind
  split
  · next hgo =>
    have hkind : c.kind = .equals := by simpa using hgo
    apply passes_advance_bind (by rw [hkind]; rfl)
    exact passes_assigned.imp fun _ he => .inr he
  · exact passes_expect_bind rfl fun _ _ => passes_pure (.inl rfl)

/-- A type, a name and an initializer, as far as they go; `build` makes a node of them. -/
theorem passes_declared {α : Type} (build : Option TypeSpec → Ident → Expr → Span → α)
    {Q : (Span → α) → Prop} (h : ∀ type name init, init.Optional → Q (build type name init)) :
    Passes (do
      match ← typeSpec with
      | none => return build none .absent .missing
      | some type =>
        let (name, there) ← expectIdent
        if there then
          let init ← initialized
          return build (some type) name init
        else return build (some type) name .missing) c Q := by
  apply passes_typeSpec_bind
  intro type d
  cases type with
  | none => exact passes_pure (h _ _ _ (.inl rfl))
  | some type =>
    apply passes_expectIdent_bind
    intro name there e
    cases there
    · exact passes_pure (h _ _ _ (.inl rfl))
    · exact passes_initialized.bind fun init _ hinit => passes_pure (h _ _ _ hinit)

theorem passes_varDecl : varDecl.Passes c Stmt.Simple := by
  have hfinal : finalMark.Passes c fun _ => True := by
    apply passes_look_bind
    split
    · next hgo =>
      have hkind : c.kind = .kwFinal := by simpa using hgo
      exact passes_advance_bind (by rw [hkind]; rfl) (passes_pure trivial)
    · exact passes_pure trivial
  apply passes_spanned
  apply hfinal.bind
  intro isFinal d _
  apply passes_declared fun type name init s => Stmt.varDecl s isFinal type name init
  exact fun type name init hinit s => .varDecl hinit

theorem passes_printArgument : printArgument.Passes c Expr.Optional := by
  apply passes_look_bind
  split
  · exact passes_expression.imp fun _ he => .inr he
  · exact passes_pure (.inl rfl)

theorem passes_printStmt (hs : c.startsPrint = true) : printStmt.Passes c Stmt.Simple := by
  obtain ⟨hk₀, -, hk₁, hk₂, -, hk₃⟩ : c.kind = .ident ∧ c.current.value = "System"
      ∧ c.advance.kind = .dot ∧ c.advance.advance.kind = .ident
      ∧ c.advance.advance.current.value = "out" ∧ c.advance.advance.advance.kind = .dot := by
    simpa [Cursor.startsPrint, Cursor.kind, Cursor.current, Cursor.ahead_advance, Token.isWord,
      and_assoc] using hs
  apply passes_spanned
  apply passes_advance_bind (by rw [hk₀]; rfl)
  apply passes_advance_bind (by rw [hk₁]; rfl)
  apply passes_advance_bind (by rw [hk₂]; rfl)
  apply passes_advance_bind (by rw [hk₃]; rfl)
  apply passes_expectWord_bind
  intro method there d
  cases there
  · exact passes_pure fun _ => .print (.inl rfl)
  · apply passes_expect_bind rfl
    intro opened e
    cases opened
    · exact passes_pure fun _ => .print (.inl rfl)
    · apply passes_printArgument.bind
      intro arg f harg
      apply passes_panicking_bind
      intro b
      cases b
      · apply passes_expect_bind rfl
        intro closed g
        cases closed
        · exact passes_pure fun _ => .print harg
        · exact passes_expect_bind rfl fun _ _ => passes_pure fun _ => .print harg
      · exact passes_pure fun _ => .print harg

theorem passes_exprStmt : exprStmt.Passes c Stmt.Simple := by
  apply passes_spanned
  apply passes_expression.bind
  intro target d htarget
  apply passes_panicking_bind
  intro b
  cases b
  · apply passes_look_bind
    split
    · next op hop =>
      have hkind : d.kind.isBrace = false := by
        apply Kind.isBrace_of (f := fun k => (AssignOp.ofKind? k).isSome) rfl rfl
        rw [hop]
        rfl
      apply passes_advance_bind hkind
      split
      · exact passes_assigned.bind fun value _ hvalue => passes_pure fun _ => .assign htarget hvalue
      · apply passes_report_bind
        intro e
        exact passes_assigned.bind fun value _ hvalue => passes_pure fun _ => .assign htarget hvalue
    · exact passes_expect_bind rfl fun _ _ => passes_pure fun _ => .expr htarget
  · exact passes_pure fun _ => .expr htarget

theorem passes_fieldDecl : fieldDecl.Passes c Member.IsField := by
  have hmodifier : ∀ d, modifier.Passes d fun x => ∀ a ∈ x, True := by
    intro d
    apply passes_look_bind
    split
    · next hword =>
      have hkind := Kind.isBrace_of (f := Kind.isModifier) rfl rfl hword
      apply Passes.map
      exact ⟨Cursor.flat_advance hkind, fun _ _ => trivial⟩
    · exact passes_pure fun _ ha => nomatch ha
  apply passes_spanned
  apply (passes_untilNone hmodifier).bind
  intro modifiers d _
  apply passes_declared fun type name init s =>
    Member.field s (modifiers.map (·.value)) (modifiers.any (·.kind = .kwFinal)) type name init
  exact fun type name init hinit s => .field hinit

/-! ### Up to a brace -/

/-- What a run gives and where it ends. -/
def Leads {α : Type} (p : Parse .short α) (c : Cursor) (Q : α → Cursor → Prop) : Prop :=
  Q (p c).value (p c).cursor

variable {α β : Type}

theorem Leads.bind {p : Parse .short α} {f : α → Parse .short β} {Q : α → Cursor → Prop}
    {Q' : β → Cursor → Prop} (hp : p.Leads c Q) (hf : ∀ a d, Q a d → (f a).Leads d Q') :
    (p >>= f).Leads c Q' := hf _ _ hp

theorem leads_look_bind {g : Cursor → α} {f : α → Parse .short β} {Q : β → Cursor → Prop}
    (h : (f (g c)).Leads c Q) : (look g >>= f).Leads c Q := h

theorem leads_advance_bind {f : Token → Parse .short β} {Q : β → Cursor → Prop}
    (h : (f c.current).Leads c.advance Q) : (advance >>= f).Leads c Q := h

theorem leads_spanned {node : Parse .short (Span → α)} {Q : α → Cursor → Prop}
    (h : node.Leads c fun build d => Q (build (d.spanSince c.current.span)) d) :
    (spanned node).Leads c Q := h

/-- Either there is the wanted token, which is consumed, or nothing is. -/
theorem leads_expect (k : Kind) : (expect k).Leads c fun b d =>
    b = true ∧ c.kind = k ∧ d = c.advance ∨ b = false ∧ c.kind ≠ k ∧ c.Flat d := by
  apply leads_look_bind
  split
  · next hk => exact .inl ⟨rfl, hk, rfl⟩
  · next hk => exact .inr ⟨rfl, hk, (passes_fail (c := c) (.token k c.current) (Q := fun _ => True) trivial).1⟩

section Onward

-- `b` is where the construct starts
variable {b : Cursor} (hb : b.Near c)

include hb

theorem leads_expect_bind {k : Kind} (hk : k.isBrace = false) {f : Bool → Parse .short β}
    {Q : β → Cursor → Prop} (htrue : ∀ d, b.Near d → (f true).Leads d Q)
    (hfalse : ∀ d, b.Flat d → (f false).Leads d Q) : (expect k >>= f).Leads c Q := by
  apply (leads_expect k).bind
  rintro there d (⟨rfl, hkind, rfl⟩ | ⟨rfl, -, hd⟩)
  · apply htrue
    apply hb.advance
    rw [hkind]
    exact hk
  · exact hfalse d (hb.flat.trans hd)

theorem leads_expectAll_bind {ks : List Kind} (hks : ∀ k ∈ ks, k.isBrace = false)
    {f : Bool → Parse .short β} {Q : β → Cursor → Prop} (htrue : ∀ d, b.Near d → (f true).Leads d Q)
    (hfalse : ∀ d, b.Flat d → (f false).Leads d Q) : (expectAll ks >>= f).Leads c Q := by
  have hall : (expectAll ks).Leads c fun there d =>
      there = true ∧ b.Near d ∨ there = false ∧ b.Flat d := by
    induction ks generalizing c with
    | nil => exact .inl ⟨rfl, hb⟩
    | cons k ks ih =>
      apply leads_expect_bind hb (hks k List.mem_cons_self)
      · exact fun d hd => ih hd fun j hj => hks j (List.mem_cons_of_mem k hj)
      · exact fun d hd => .inr ⟨rfl, hd⟩
  apply hall.bind
  rintro there d (⟨rfl, hd⟩ | ⟨rfl, hd⟩)
  · exact htrue d hd
  · exact hfalse d hd

theorem leads_expectIdent_bind {f : Ident × Bool → Parse .short β} {Q : β → Cursor → Prop}
    (htrue : ∀ name d, b.Near d → (f (name, true)).Leads d Q)
    (hfalse : ∀ name d, b.Flat d → (f (name, false)).Leads d Q) :
    (expectIdent >>= f).Leads c Q := by
  have hident : expectIdent.Leads c fun x d =>
      x.2 = true ∧ b.Near d ∨ x.2 = false ∧ b.Flat d := by
    apply leads_look_bind
    apply leads_expect_bind hb rfl
    · exact fun d hd => .inl ⟨rfl, hd⟩
    · exact fun d hd => .inr ⟨rfl, hd⟩
  apply hident.bind
  rintro ⟨name, there⟩ d (⟨rfl, hd⟩ | ⟨rfl, hd⟩)
  · exact htrue name d hd
  · exact hfalse name d hd

end Onward

/-- The main method either breaks off before its body or ends in a block. -/
theorem leads_mainMethod (hs : c.startsMain = true) : mainMethod.Leads c fun x e =>
    (c.Flat e ∧ ∃ s name param, x = .main s name param none)
    ∨ ∃ d s name param, c.Near d ∧ d.kind = .lbrace ∧ e = (block statement d).cursor
      ∧ x = .main s name param (some (block statement d).value) := by
  obtain ⟨hk₀, hk₁, hk₂⟩ : c.kind = .kwPublic ∧ c.advance.kind = .kwStatic
      ∧ c.advance.advance.kind = .kwVoid := by
    simpa [Cursor.startsMain, Cursor.kind, Cursor.current, Cursor.ahead_advance, and_assoc] using hs
  have hthree : c.Near c.advance.advance.advance := by
    apply (((Cursor.Near.refl c).advance ?_).advance ?_).advance ?_
    · rw [hk₀]; rfl
    · rw [hk₁]; rfl
    · rw [hk₂]; rfl
  apply leads_spanned
  apply leads_advance_bind
  apply leads_advance_bind
  apply leads_advance_bind
  apply leads_expectIdent_bind hthree
  case hfalse => exact fun name d hd => .inl ⟨hd, _, _, _, rfl⟩
  intro name d hd
  apply leads_expectAll_bind hd (by decide)
  case hfalse => exact fun e he => .inl ⟨he, _, _, _, rfl⟩
  intro e he
  apply leads_expectIdent_bind he
  case hfalse => exact fun param f hf => .inl ⟨hf, _, _, _, rfl⟩
  intro param f hf
  apply leads_expect_bind hf rfl
  case hfalse => exact fun g hg => .inl ⟨hg, _, _, _, rfl⟩
  intro g hg
  have hbody : methodBody.Leads g fun body h => (c.Flat h ∧ body = none)
      ∨ g.kind = .lbrace ∧ h = (block statement g).cursor
        ∧ body = some (block statement g).value := by
    apply leads_look_bind
    by_cases hopen : g.kind = .lbrace
    · rw [if_pos (by simpa using hopen), Leads, map_apply]
      exact .inr ⟨hopen, rfl, rfl⟩
    · rw [if_neg (by simpa using hopen)]
      apply (leads_expect .lbrace).bind
      rintro there h (⟨-, hkind, -⟩ | ⟨-, -, hh⟩)
      · exact absurd hkind hopen
      · exact .inl ⟨hg.flat.trans hh, rfl⟩
  apply hbody.bind
  rintro body h (⟨hh, rfl⟩ | ⟨hopen, rfl, rfl⟩)
  · exact .inl ⟨hh, _, _, _, rfl⟩
  · exact .inr ⟨g, _, _, _, hg, hopen, rfl, rfl⟩

/-- The members of a class, with their recovery. -/
def membersWhile : Parse .short (List Member) :=
  whileMore inBlock (recovering Cursor.endMember (some <$> member))

/-- A class either breaks off before its brace or goes on behind it. -/
theorem leads_classDecl (hs : c.startsClass = true) : classDecl.Leads c fun x e =>
    (c.advance.Flat e ∧ ∃ name, x = ⟨e.spanSince c.current.span, name, []⟩)
    ∨ ∃ d name, c.advance.Near d ∧ d.kind = .lbrace
      ∧ e = (expect .rbrace (membersWhile d.advance).cursor).cursor
      ∧ x = ⟨e.spanSince c.current.span, name, (membersWhile d.advance).value⟩ := by
  have hk : c.advance.kind = .kwClass := by
    show (c.advance.ahead 0).kind = .kwClass
    rw [Cursor.ahead_advance]
    simpa using (Bool.and_eq_true_iff.1 hs).2
  have hone : c.advance.Near c.advance.advance :=
    (Cursor.Near.refl c.advance).advance (by rw [hk]; rfl)
  apply leads_spanned
  apply leads_advance_bind
  apply leads_advance_bind
  apply leads_expectIdent_bind hone
  case hfalse => exact fun name d hd => .inl ⟨hd, _, rfl⟩
  intro name d hd
  apply (leads_expect .lbrace).bind
  rintro opened e (⟨rfl, hopen, rfl⟩ | ⟨rfl, -, he⟩)
  · exact .inr ⟨d, name, hd, hopen, rfl, rfl⟩
  · exact .inl ⟨hd.flat.trans he, name, rfl⟩

end Parse

end JavaPrimer
