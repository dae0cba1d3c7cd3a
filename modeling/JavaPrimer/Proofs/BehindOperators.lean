import JavaPrimer.Proofs.RangedReading
import JavaPrimer.Proofs.StatementBoundary
import JavaPrimer.Proofs.Termination

/-!
# What stands behind an operator

The tokens behind an operator are read the same way whatever stands in front of it: a unary operator
and a binary one of any tier are followed by the same operands and operators, with the same
complaints, although the trees differ. Where no expression starts, the first token is complained
about; where one starts, that token is consumed before any complaint.

* `Step.trail` — what a step leaves behind apart from its value;
* `Parse.joined`, `Parse.climb_eq_joined` — an expression is an operand and what is joined to it;
* `Parse.trail_joined` — joining does not depend on the left operand;
* `Parse.trail_expression_unary`, `Parse.trail_joined_op` — behind an operator stands an expression;
* `Parse.expression_fails` — where no expression starts;
* `Parse.clears_expression` — where one starts.
-/

namespace JavaPrimer

/-- What a parse step leaves behind, apart from what it has read. -/
def Step.trail {α : Type} (s : Step .short α) : List Diagnostic × Cursor :=
  (s.diagnostics, s.cursor)

namespace Parse

variable {α β γ δ : Type} {c d : Cursor}

theorem trail_bind {p : Parse .short α} {q : Parse .short β} {f : α → Parse .short γ}
    {g : β → Parse .short δ}
    (h : (p c).trail = (q d).trail) (hfg : ∀ a b e, (f a e).trail = (g b e).trail) :
    ((p >>= f) c).trail = ((q >>= g) d).trail := by
  obtain ⟨hdiagnostics, hcursor⟩ := Prod.mk.inj h
  obtain ⟨hthen, hend⟩ := Prod.mk.inj (hfg (p c).value (q d).value (q d).cursor)
  simp only [Step.trail, bind_apply, hdiagnostics, hcursor, hthen, hend]

theorem trail_bind_pure (p : Parse .short α) (f : α → β) (c : Cursor) :
    ((p >>= fun a => Pure.pure (f a)) c).trail = (p c).trail := by
  simp [Step.trail]

theorem trail_spanned (node : Parse .short (Span → α)) (c : Cursor) :
    (spanned node c).trail = (node c).trail := by
  simp [Step.trail, spanned, look]

theorem look_bind_apply (g : Cursor → α) (f : α → Parse .short β) (c : Cursor) :
    (look g >>= f) c = f (g c) c := rfl

theorem advance_bind_apply (f : Token → Parse .short α) (c : Cursor) :
    (advance >>= f) c = f c.current c.advance := rfl

theorem ended_advance (hc : c.Ended) : c.advance.Ended := forward_advance.ended hc

/-! ### Joining operands -/

/-- An operator of none of the tiers comes next. -/
def NoneJoins {ρ : Reach} (ts : List Tier) (c : Cursor ρ) : Prop :=
  ∀ tier ∈ ts, tierOp? tier c = none

/-- The operators of one tier and the operands behind them, joined to `left`. -/
def joinedBy (tier : Tier) (operand : Parse .short Expr) (left : Expr) : Parse .short Expr :=
  fun c => chain tier operand c.rest.length left c

/-- The operators of a list of tiers, loosest first, and the operands behind them, joined to
`left`. -/
def joined (operand : Parse .short Expr) : List Tier → Expr → Parse .short Expr
  | [], left => return left
  | tier :: tighter, left => joined operand tighter left >>= joinedBy tier (climb operand tighter)

theorem climb_eq_joined (operand : Parse .short Expr) (ts : List Tier) :
    climb operand ts = operand >>= joined operand ts := by
  induction ts with
  | nil => exact (bind_pure operand).symm
  | cons tier tighter ih =>
    calc climb operand (tier :: tighter)
        = climb operand tighter >>= joinedBy tier (climb operand tighter) := rfl
      _ = (operand >>= joined operand tighter) >>= joinedBy tier (climb operand tighter) :=
          congrArg (· >>= joinedBy tier (climb operand tighter)) ih
      _ = operand >>= joined operand (tier :: tighter) := bind_assoc operand _ _

theorem chain_none {tier : Tier} (h : tierOp? tier c = none) (operand : Parse .short Expr) (n : Nat)
    (left : Expr) : chain tier operand n left c = ⟨left, [], c⟩ := by
  cases n with
  | zero => rfl
  | succ n => simp [chain, look, h]

theorem joined_none (operand : Parse .short Expr) {ts : List Tier} (h : NoneJoins ts c)
    (left : Expr) :
    joined operand ts left c = ⟨left, [], c⟩ := by
  induction ts with
  | nil => rfl
  | cons tier tighter ih =>
    obtain ⟨hhere, htighter⟩ := List.forall_mem_cons.1 h
    rw [joined, bind_of_apply (ih htighter)]
    exact chain_none hhere _ _ left

theorem chain_some {tier : Tier} {op : BinaryOp} (h : tierOp? tier c = some op)
    (operand : Parse .short Expr) (n : Nat) (left : Expr) :
    chain tier operand (n + 1) left c = (advance >>= fun mark => operand >>= fun right =>
      chain tier operand n
        (.binary (left.span.through right.span) tier.level op mark.span left right)) c := by
  simp [chain, look, h]

/-- The left operand has no part in how the right ones are read. -/
theorem trail_chain (tier : Tier) (operand : Parse .short Expr) (n : Nat) : ∀ (left left' : Expr) c,
    (chain tier operand n left c).trail = (chain tier operand n left' c).trail := by
  induction n with
  | zero => exact fun _ _ _ => rfl
  | succ n ih =>
    intro left left' c
    cases hop : tierOp? tier c with
    | none =>
      rw [chain_none hop, chain_none hop]
      rfl
    | some op =>
      rw [chain_some hop, chain_some hop]
      exact trail_bind rfl fun _ _ _ => trail_bind rfl fun _ _ e => ih _ _ e

theorem trail_joined (operand : Parse .short Expr) (ts : List Tier) (left left' : Expr)
    (c : Cursor) :
    (joined operand ts left c).trail = (joined operand ts left' c).trail := by
  induction ts with
  | nil => rfl
  | cons tier tighter ih =>
    exact trail_bind ih fun inner inner' e => trail_chain tier _ e.rest.length inner inner' e

/-- One operator of a tier with the operand behind it, and then the others. -/
theorem joinedBy_some {tier : Tier} (htier : tier ∈ tiers) {operand : Parse .short Expr}
    (hf : Forward operand) (hc : c.Ended) {op : BinaryOp} (hop : tierOp? tier c = some op)
    (left : Expr) :
    joinedBy tier operand left c = (advance >>= fun mark => operand >>= fun right =>
      joinedBy tier operand
        (.binary (left.span.through right.span) tier.level op mark.span left right)) c := by
  refine ((ends_chain htier hf (stopsShort_self operand)).unfolds (left, c) hc).symm.trans ?_
  simp only [chainRound, look, bind_apply, hop]
  rfl

/-- Behind an operator of a tier stands what could stand there without it. -/
theorem trail_joinedBy {tier : Tier} (htier : tier ∈ tiers) {operand : Parse .short Expr}
    (hf : Forward operand) (hc : c.Ended) {op : BinaryOp} (hop : tierOp? tier c = some op)
    (left : Expr) :
    (joinedBy tier operand left c).trail
      = ((operand >>= joinedBy tier operand) c.advance).trail := by
  rw [joinedBy_some htier hf hc hop, advance_bind_apply]
  exact trail_bind rfl fun _ _ e => trail_chain tier operand e.rest.length _ _ e

/-- Behind an operator of some tiers stands what could stand there without it. -/
theorem trail_joined_op {operand : Parse .short Expr} (hf : Forward operand) {ts : List Tier}
    (hts : ts ⊆ tiers) (hc : c.Ended) (hop : ¬ NoneJoins ts c) (left : Expr) :
    (joined operand ts left c).trail = (climb operand ts c.advance).trail := by
  induction ts with
  | nil => exact absurd (List.forall_mem_nil _) hop
  | cons tier tighter ih =>
    obtain ⟨htier, htighter⟩ := List.cons_subset.1 hts
    by_cases hnone : NoneJoins tighter c
    · have hhere : tierOp? tier c ≠ none := fun h => hop (List.forall_mem_cons.2 ⟨h, hnone⟩)
      obtain ⟨op, hop⟩ := Option.ne_none_iff_exists'.1 hhere
      rw [joined, bind_of_apply (joined_none operand hnone left)]
      exact trail_joinedBy htier (forward_climb hf tighter) hc hop left
    · exact trail_bind (ih htighter hnone) fun inner inner' e =>
        trail_chain tier _ e.rest.length inner inner' e

/-! ### Expressions -/

theorem operand_unary (hc : c.Ended) {op : UnaryOp} (hop : UnaryOp.ofKind? c.kind = some op) :
    operand c = (operand >>= fun e =>
      Pure.pure (.unary (c.current.span.through e.span) op e)) c.advance := by
  rw [← ends_operand.unfolds c hc, unaryWith, look_bind_apply, hop]
  rfl

/-- Behind a unary operator stands an expression, as far as complaints and tokens go. -/
theorem trail_expression_unary (hc : c.Ended) {op : UnaryOp}
    (hop : UnaryOp.ofKind? c.kind = some op) :
    (expression c).trail = (expression c.advance).trail := by
  have hmove : (operand >>= joined operand tiers) c = (operand >>= fun e =>
      joined operand tiers (.unary (c.current.span.through e.span) op e)) c.advance := by
    rw [bind_apply, operand_unary hc hop]
    simp only [bind_apply, pure_apply, List.append_nil]
  rw [expression_eq hc, expression_eq (ended_advance hc), climb_eq_joined, hmove]
  exact trail_bind rfl fun _ _ e => trail_joined operand tiers _ _ e

/-- Behind a binary operator stands an expression, as far as complaints and tokens go. -/
theorem trail_joined_expression (hc : c.Ended) (hop : ¬ NoneJoins tiers c) (left : Expr) :
    (joined operand tiers left c).trail = (expression c.advance).trail := by
  rw [expression_eq (ended_advance hc)]
  exact trail_joined_op forward_operand (List.Subset.refl _) hc hop left

/-- An expression that starts at a place and cannot be assigned to. -/
structure FixedAt (p : Position) (e : Expr) : Prop where
  fixed : e.isAssignable = false
  start : e.span.start = p

/-- What is joined to such an expression makes another one. -/
theorem fixedAt_chain {p : Position} (tier : Tier) (operand : Parse .short Expr) (n : Nat) :
    ∀ {left : Expr} (c : Cursor), FixedAt p left →
      FixedAt p (chain tier operand n left c).value := by
  induction n with
  | zero => exact fun _ h => h
  | succ n ih =>
    intro left c h
    cases hop : tierOp? tier c with
    | none =>
      rw [chain_none hop]
      exact h
    | some op =>
      rw [chain_some hop, advance_bind_apply, bind_apply]
      apply ih
      exact ⟨rfl, h.start⟩

theorem fixedAt_joined {p : Position} (operand : Parse .short Expr) (ts : List Tier) {left : Expr}
    (c : Cursor) (h : FixedAt p left) : FixedAt p (joined operand ts left c).value := by
  induction ts with
  | nil => exact h
  | cons tier tighter ih => exact fixedAt_chain tier _ _ _ ih

/-- What starts with a unary operator cannot be assigned to. -/
theorem fixedAt_expression (hc : c.Ended) {op : UnaryOp} (hop : UnaryOp.ofKind? c.kind = some op) :
    FixedAt c.current.span.start (expression c).value := by
  have hunary : FixedAt c.current.span.start (operand c).value := by
    rw [operand_unary hc hop]
    exact ⟨rfl, rfl⟩
  simp only [expression_eq hc, climb_eq_joined, bind_apply]
  exact fixedAt_joined operand tiers _ hunary

/-! ### Operands without an operator in front -/

theorem operand_eq (hc : c.Ended) (hop : UnaryOp.ofKind? c.kind = none) :
    operand c = (if c.startsCast then castExpr operand else stepped (climb operand tiers)) c := by
  rw [← ends_operand.unfolds c hc, unaryWith, look_bind_apply, hop]
  rfl

theorem operand_eq_stepped (hc : c.Ended) (hop : UnaryOp.ofKind? c.kind = none)
    (hparen : c.kind ≠ .lparen) : operand c = stepped (climb operand tiers) c := by
  have hcast : c.startsCast = false := by
    rw [Cursor.startsCast, beq_eq_false_iff_ne.2 hparen, Bool.false_and]
  rw [operand_eq hc hop, hcast, if_neg Bool.false_ne_true]

theorem stepped_none {expr : Parse .short Expr} (h : stepOp? (primary expr c).cursor = none) :
    stepped expr c = primary expr c := by
  simp [stepped, look, h]

theorem stepped_some {expr : Parse .short Expr} {op : UnaryOp}
    (h : stepOp? (primary expr c).cursor = some op) :
    stepped expr c = ⟨.step ((primary expr c).value.span.through
      (primary expr c).cursor.current.span) op (primary expr c).value,
      (primary expr c).diagnostics, (primary expr c).cursor.advance⟩ := by
  simp [stepped, look, advance, h]

/-! ### Where no expression starts -/

theorem expressionExpected_apply (hp : c.panicking = false)
    (hl : ∀ t ∈ c.last, t.unterminated = false) :
    expressionExpected c = ⟨.bad c.current.span, [(Complaint.expression c.current).diagnostic c],
      { c with panicking := true }⟩ := by
  have hlook : expressionExpected c
      = (fail (.expression c.current) >>= fun _ => Pure.pure (.bad c.current.span)) c := rfl
  rw [hlook, bind_apply, fail_quiet _ hp hl]
  rfl

theorem primary_apply (expr : Parse .short Expr) (c : Cursor) :
    primary expr c = (match LiteralSort.ofKind? c.kind with
      | some sort => advance >>= fun _ =>
          Pure.pure (Expr.literal c.current.span sort c.current.value)
      | none => match c.kind with
        | .ident => nameExpr expr
        | .lparen => parenExpr expr
        | .kwNew => newExpr expr
        | _ => expressionExpected) c := rfl

theorem primary_eq_expressionExpected (hk : c.kind.startsExpression = false)
    (expr : Parse .short Expr) :
    primary expr c = expressionExpected c := by
  rw [primary_apply]
  generalize c.kind = k at hk
  revert hk
  cases k <;> first | exact fun _ => rfl | exact fun h => nomatch h

/-- Where no expression starts, the next token is complained about and left there. -/
theorem expression_fails (hc : c.Ended) (hk : c.kind.startsExpression = false)
    (hp : c.panicking = false) (hl : ∀ t ∈ c.last, t.unterminated = false) :
    expression c = ⟨.bad c.current.span, [(Complaint.expression c.current).diagnostic c],
      { c with panicking := true }⟩ := by
  have hop : UnaryOp.ofKind? c.kind = none := by
    cases hop : UnaryOp.ofKind? c.kind with
    | none => rfl
    | some op => simp [Kind.startsExpression, hop] at hk
  have hparen : c.kind ≠ .lparen := by
    intro h
    rw [h] at hk
    cases hk
  have hprimary : primary (climb operand tiers) c = ⟨.bad c.current.span,
      [(Complaint.expression c.current).diagnostic c], { c with panicking := true }⟩ :=
    (primary_eq_expressionExpected hk _).trans (expressionExpected_apply hp hl)
  have hstep : stepOp? (primary (climb operand tiers) c).cursor = none := by
    rw [hprimary]
    rfl
  have hnone : NoneJoins tiers { c with panicking := true } := fun tier _ => rfl
  have hoperand : operand c = primary (climb operand tiers) c :=
    (operand_eq_stepped hc hop hparen).trans (stepped_none hstep)
  rw [expression_eq hc, climb_eq_joined, bind_apply, hoperand, hprimary, joined_none operand hnone]
  rfl

/-! ### Where an expression starts -/

variable {P : Position → Prop}

/-- From behind the next token on all tokens are in place: the step consumes that token before it
complains, and its complaints are in place. -/
def Clears (P : Position → Prop) (c : Cursor) (p : Parse .short α) : Prop :=
  c.advance.Onward (p c).cursor ∧ ∀ d ∈ (p c).diagnostics, d.span.Ranged P

theorem clears_advance_bind (hc : c.advance.Ranged P) {f : Token → Parse .short α}
    (hf : ∀ t, Keeps P (fun _ => True) (f t)) : Clears P c (advance >>= f) := by
  obtain ⟨honward, hdiagnostics, -⟩ := hf c.current _ c.advance hc (le_refl _)
  exact ⟨honward, hdiagnostics⟩

theorem clears_bind (hc : c.advance.Ranged P) {p : Parse .short α} (hp : Clears P c p)
    {f : α → Parse .short β} (hf : ∀ a, Keeps P (fun _ => True) (f a)) : Clears P c (p >>= f) := by
  obtain ⟨honward, hdiagnostics⟩ := hp
  obtain ⟨hend, hthen, -⟩ := hf (p c).value _ (p c).cursor (hc.onward honward) (le_refl _)
  exact ⟨honward.trans hend, List.forall_mem_append.2 ⟨hdiagnostics, hthen⟩⟩

theorem clears_spanned (hahead : c.advance.Ranged P) {node : Parse .short (Span → α)}
    (h : Clears P c node) : Clears P c (spanned node) := by
  have hbuild : Clears P c (node >>= fun build =>
      look (Cursor.spanSince c.current.span) >>= fun s => Pure.pure (build s)) :=
    clears_bind hahead h fun _ => keeps_look fun _ => keeps_pure trivial
  exact hbuild

section Operands

variable {expr : Parse .short Expr} (h : ReadsSited P expr) (hahead : c.advance.Ranged P)

include h hahead

theorem clears_nameExpr : Clears P c (nameExpr expr) :=
  clears_spanned hahead <| clears_advance_bind hahead fun _ =>
    keeps_bind (keeps_untilNone (keeps_selector h)) fun _ _ => keeps_pure trivial

theorem clears_parenExpr : Clears P c (parenExpr expr) := by
  refine clears_spanned hahead <| clears_advance_bind hahead fun _ =>
    keeps_bind h.keeps fun _ _ => keeps_look fun b => ?_
  cases b
  · exact keeps_bind (keeps_expect _) fun _ _ => keeps_pure trivial
  · exact keeps_pure trivial

theorem clears_newExpr : Clears P c (newExpr expr) := by
  refine clears_spanned hahead <| clears_advance_bind hahead fun _ =>
    keeps_bind keeps_expectIdent fun x _ => ?_
  obtain ⟨className, there⟩ := x
  cases there
  · exact keeps_pure trivial
  refine keeps_bind (keeps_expect _) fun b _ => ?_
  cases b
  · exact keeps_pure trivial
  refine keeps_bind (keeps_arguments h) fun _ _ => keeps_look fun b => ?_
  cases b
  · exact keeps_bind (keeps_expect _) fun _ _ => keeps_pure trivial
  · exact keeps_pure trivial

theorem clears_castExpr : Clears P c (castExpr expr) := by
  refine clears_advance_bind hahead fun _ => keeps_bind keeps_advance fun _ _ =>
    keeps_bind (keeps_expect _) fun b _ => ?_
  cases b
  · exact keeps_look fun _ => keeps_look fun _ => keeps_pure trivial
  · exact keeps_bind h.keeps fun _ _ => keeps_pure trivial

theorem clears_primary (hk : c.kind.startsExpression = true) (hop : UnaryOp.ofKind? c.kind = none) :
    Clears P c (primary expr) := by
  rw [Clears, primary_apply]
  cases hsort : LiteralSort.ofKind? c.kind with
  | some sort => exact clears_advance_bind hahead fun _ => keeps_pure trivial
  | none =>
    dsimp only
    rcases kind_of_operand hk hop hsort with hkind | hkind | hkind
    all_goals rw [hkind]
    · exact clears_nameExpr h hahead
    · exact clears_parenExpr h hahead
    · exact clears_newExpr h hahead

theorem clears_stepped (hk : c.kind.startsExpression = true)
    (hop : UnaryOp.ofKind? c.kind = none) : Clears P c (stepped expr) := by
  refine clears_bind hahead (clears_primary h hahead hk hop) fun _ => keeps_look fun op => ?_
  cases op with
  | none => exact keeps_pure trivial
  | some op => exact keeps_bind keeps_advance fun _ _ => keeps_pure trivial

end Operands

theorem keeps_chain (tier : Tier) {operand : Parse .short Expr} (h : ReadsSited P operand)
    (n : Nat) :
    ∀ left, Keeps P (fun _ => True) (chain tier operand n left) := by
  induction n with
  | zero => exact fun _ => keeps_pure trivial
  | succ n ih =>
    refine fun left => keeps_look fun op => ?_
    cases op with
    | none => exact keeps_pure trivial
    | some op =>
      exact keeps_bind keeps_advance fun _ _ => keeps_bind h.keeps fun _ _ => ih _

theorem keeps_joined {operand : Parse .short Expr} (h : ReadsSited P operand) (ts : List Tier)
    (left : Expr) : Keeps P (fun _ => True) (joined operand ts left) := by
  induction ts with
  | nil => exact keeps_pure trivial
  | cons tier tighter ih =>
    refine keeps_bind ih fun inner _ => ?_
    exact fun low c => keeps_chain tier (readsSited_climb h tighter) c.rest.length inner low c

theorem readsSited_operand : ReadsSited P operand :=
  fun low c => readsSited_unary (c.rest.length + 1) low c

/-- An expression that starts with a token consumes it before anything is complained about. -/
theorem clears_expression (hc : c.Ended) (hahead : c.advance.Ranged P)
    (hk : c.kind.startsExpression = true) : Clears P c expression := by
  have hclimb : ReadsSited P (climb operand tiers) := readsSited_climb readsSited_operand tiers
  cases hop : UnaryOp.ofKind? c.kind with
  | some op =>
    obtain ⟨hdiagnostics, hcursor⟩ := Prod.mk.inj (trail_expression_unary hc hop)
    obtain ⟨honward, hranged, -⟩ := readsSited_expression _ c.advance hahead (le_refl _)
    rw [Clears, hdiagnostics, hcursor]
    exact ⟨honward, hranged⟩
  | none =>
    have hoperand : Clears P c operand := by
      rw [Clears, operand_eq hc hop]
      split
      · exact clears_castExpr readsSited_operand hahead
      · exact clears_stepped hclimb hahead hk hop
    rw [Clears, expression_eq hc, climb_eq_joined]
    exact clears_bind hahead hoperand (keeps_joined readsSited_operand tiers)

end Parse

end JavaPrimer
