import JavaPrimer.Proofs.CleanReading
import JavaPrimer.Proofs.MirroredSteps

/-!
# Expressions that mirror each other

Two runs read expressions of one shape from tokens that are alike: with the same spans, and both
or neither can be assigned to. The bounds of the two runs may differ, since neither is ever
reached; so may what each would do with an operand beyond its bound.

* `Mirror.Exprs`, `Mirror.Selectors` — expressions and selectors of one shape;
* `Mirror.mirroring_climb` — the tiers of binary operators;
* `Mirror.mirroring_unaryWith` — one operand, if those nested in it mirror each other;
* `Mirror.mirroring_unary`, `Mirror.mirrors_expression` — the recursion.
-/

namespace JavaPrimer

namespace Mirror

open Parse

variable {ρ : Reach} {M : Mirror ρ} {n : Nat} {c : Cursor} {d : Cursor ρ}

/-- Two expressions at one place, of which both or neither can be assigned to. -/
structure Exprs (M : Mirror ρ) (e f : Expr) : Prop where
  span : f.span = e.span
  isAssignable : f.isAssignable = e.isAssignable
  same : M.Same e f

/-- Whether a name goes on with a call. -/
def isCall : Selector → Bool
  | .call .. => true
  | .field .. => false

/-- Two selectors of one sort. -/
structure Selectors (M : Mirror ρ) (x y : Selector) : Prop where
  sort : isCall y = isCall x
  same : M.Same x y

/-- Lists of the same, as far as the tokens are the same. -/
theorem same_list {α : Type} {V : α → α → Prop} (hV : ∀ a b, V a b → M.Same a b) {xs ys : List α}
    (h : List.Forall₂ V xs ys) : M.Same xs ys := by
  intro he
  induction h with
  | nil => rfl
  | cons hxy _ ih => rw [hV _ _ hxy he, ih]

theorem same_args {es fs : List Expr} (h : List.Forall₂ M.Exprs es fs) : M.Same es fs :=
  same_list (fun _ _ hef => hef.same) h

theorem isAssignable_name {s : Span} {head : Ident} {selectors : List Selector} :
    (Expr.name s head selectors).isAssignable = !selectors.getLast?.any isCall := by
  unfold Expr.isAssignable
  cases hlast : selectors.getLast? with
  | none => rfl
  | some x => cases x <;> rfl

theorem isCall_getLast? {xs ys : List Selector} (h : List.Forall₂ M.Selectors xs ys) :
    ys.getLast?.any isCall = xs.getLast?.any isCall := by
  induction h with
  | nil => rfl
  | @cons x y xs ys hxy htail ih =>
    cases htail with
    | nil => simp [hxy.sort]
    | cons _ _ => simpa [List.getLast?_cons_cons] using ih

theorem exprs_bad {t u : Token} (h : M.token t u) : M.Exprs (.bad t.span) (.bad u.span) := by
  have hspan := (M.alike t u h).span
  constructor
  case span => exact hspan
  case isAssignable => rfl
  case same => exact fun _ => by rw [hspan]

theorem mirrors_expressionExpected (hc : M.Places n c d) :
    M.Mirrors n M.Exprs expressionExpected expressionExpected c d := by
  by_cases hbehind : M.behind = []
  · have htoken := hc.current fun _ => hbehind
    apply mirrors_look_bind
    apply mirrors_fail_bind hc fun _ => .expression htoken
    exact fun c' d' h => mirrors_pure h (exprs_bad htoken)
  · exact mirrors_of_complaint hc hbehind fun hcalm => reads_expressionExpected hcalm

/-! ### Binary operators -/

theorem op?_rbrace : ∀ tier ∈ tiers, tier.op? .rbrace = tier.op? .eof := by decide

theorem chain_of_none {tier : Tier} {operand : Parse ρ Expr} {left : Expr}
    (h : tierOp? tier d = none) (k : Nat) : chain tier operand k left d = ⟨left, [], d⟩ := by
  cases k with
  | zero => rfl
  | succ k => simp [chain, look, h]

/-- Before an operator a token is ahead. -/
theorem kind_of_tierOp? {tier : Tier} (htier : tier ∈ tiers) {op : BinaryOp}
    (h : tierOp? tier d = some op) : d.kind ≠ .eof := by
  intro hk
  rw [tierOp?, hk, op?_eof tier htier, ite_self] at h
  cases h

theorem mirrors_chain {tier : Tier} (htier : tier ∈ tiers) {operand : Parse .short Expr}
    {operand' : Parse ρ Expr} (h : M.Mirroring n M.Exprs operand operand') :
    ∀ k l m left left' c d, m ≤ n → M.Exprs left left' → M.Places m c d → c.rest.length ≤ k →
      d.rest.length ≤ l →
      M.Mirrors m M.Exprs (chain tier operand k left) (chain tier operand' l left') c d := by
  have hop : ∀ {m c d}, M.Places m c d → tierOp? tier d = tierOp? tier c := by
    intro m c d hc
    simp only [tierOp?, hc.panicking, hc.test tier.op? (op?_rbrace tier htier)]
  have hend : ∀ {k l m left left' c d}, M.Exprs left left' → M.Places m c d →
      tierOp? tier c = none →
      M.Mirrors m M.Exprs (chain tier operand k left) (chain tier operand' l left') c d := by
    intro k l m left left' c d hleft hc hnone _
    rw [chain_of_none hnone, chain_of_none ((hop hc).trans hnone)]
    exact ⟨hleft, .nil, hc⟩
  intro k
  induction k with
  | zero =>
    intro l m left left' c d hm hleft hc hk hl
    cases hval : tierOp? tier c with
    | none => exact hend hleft hc hval
    | some op =>
      have hpos := hc.ahead_pos (kind_of_tierOp? htier hval)
      omega
  | succ k ih =>
    intro l m left left' c d hm hleft hc hk hl
    cases hval : tierOp? tier c with
    | none => exact hend hleft hc hval
    | some op =>
      have hne := kind_of_tierOp? htier hval
      have hlength := hc.length
      have hpos := hc.ahead_pos hne
      have hfewer := hc.fewer
      obtain ⟨l, rfl⟩ : ∃ j, l = j + 1 := ⟨l - 1, by omega⟩
      apply mirrors_look_bind
      rw [hop hc, hval]
      apply mirrors_advance_bind hc.tight hne
      intro mark mark' hmark h₁
      apply (h _ (by omega) _ _ h₁).bind
      intro right right' c₂ d₂ hright h₂
      have hfewer₂ := h₂.fewer
      have hlength₂ := h₂.length
      apply ih l m _ _ c₂ d₂ hm _ (h₂.mono (by omega)) (by omega) (by omega)
      have hspan := (M.alike _ _ hmark).span
      constructor
      case span => rw [Expr.span, Expr.span, hleft.span, hright.span]
      case isAssignable => rfl
      case same =>
        intro he
        rw [hleft.same he, hright.same he, hspan]

theorem mirroring_climb {operand : Parse .short Expr} {operand' : Parse ρ Expr}
    (h : M.Mirroring n M.Exprs operand operand') :
    ∀ ts, ts <:+ tiers → M.Mirroring n M.Exprs (climb operand ts) (climb operand' ts) := by
  intro ts
  induction ts with
  | nil => exact fun _ => h
  | cons tier tighter ih =>
    intro hts m hm c d hc
    have hinner := ih ((List.suffix_cons tier tighter).trans hts)
    have htier : tier ∈ tiers := hts.subset List.mem_cons_self
    apply (hinner m hm c d hc).bind
    intro left left' c₁ d₁ hleft h₁
    exact mirrors_chain htier hinner _ _ m left left' c₁ d₁ hm hleft h₁ (Nat.le_refl _)
      (Nat.le_refl _)

/-! ### Operands -/

/-- An item that gives nothing at the end of input pays there too. -/
theorem pays_of_left {α : Type} {item : Parse .short (Option α)}
    (h : ∀ c : Cursor, c.rest ≠ [] → Pays item c)
    (hend : ∀ c : Cursor, c.kind = .eof → (item c).value = none) (c : Cursor)
    (hs : c.stop.kind = .eof) : Pays item c := by
  by_cases hc : c.rest = []
  · have hk : c.kind = .eof := by simpa [Cursor.kind, Cursor.current, Cursor.ahead_short,
      hc] using hs
    intro hsome
    rw [hend c hk] at hsome
    cases hsome
  · exact h c hc

section Operands

variable {expr : Parse .short Expr} {expr' : Parse ρ Expr} (h : M.Mirroring n M.Exprs expr expr')

include h

theorem mirroring_argument :
    M.Mirroring n (Option.Rel M.Exprs) (argument expr) (argument expr') := by
  intro m hm c d hc
  have hcomma : (!d.panicking && d.kind == .comma) = (!c.panicking && c.kind == .comma) := by
    rw [hc.panicking, hc.isKind (by decide)]
  apply mirrors_look_bind
  apply mirrors_if hcomma
  · intro hmore
    have hk : c.kind = .comma := by
      simp only [Bool.and_eq_true, beq_iff_eq] at hmore
      exact hmore.2
    apply mirrors_advance_bind hc (by simp [hk])
    intro _ _ _ h₁
    apply (h (m - 1) (by omega) _ _ h₁).bind
    intro e f c₂ d₂ hef h₂
    exact mirrors_pure (h₂.mono (Nat.sub_le m 1)) (.some hef)
  · exact fun _ => mirrors_pure hc .none

omit h in
theorem pays_further_argument (hf : Forward expr) (c : Cursor) (hs : c.stop.kind = .eof) :
    Pays (argument expr) c := by
  apply pays_of_left (pays_argument hf) _ c hs
  intro c hk
  simp [argument, look, hk]

theorem mirroring_arguments (hf : Forward expr) :
    M.Mirroring n (List.Forall₂ M.Exprs) (arguments expr) (arguments expr') := by
  intro m hm c d hc
  apply mirrors_look_bind
  apply mirrors_if (hc.test Kind.startsExpression rfl)
  · intro _
    apply (h m hm c d hc).bind
    intro first first' c₁ d₁ hfirst h₁
    have hmore := mirroring_untilNone (mirroring_argument h) (pays_further_argument hf)
    apply (hmore m hm c₁ d₁ h₁).bind
    intro more more' c₂ d₂ hrest h₂
    exact mirrors_pure h₂ (.cons hfirst hrest)
  · exact fun _ => mirrors_pure hc .nil

omit h in
theorem mirrors_fieldSelector {m : Nat} (hc : M.Places m c d) (hk : c.kind = .dot) :
    M.Mirrors m (Option.Rel M.Selectors) fieldSelector fieldSelector c d := by
  apply mirrors_advance_bind hc (by simp [hk])
  intro dot dot' hdot h₁
  apply (mirrors_expectIdent h₁).bind
  rintro ⟨name, there⟩ ⟨name', there'⟩ c₂ d₂ ⟨hthere, hname⟩ h₂
  obtain rfl : there' = there := hthere
  apply mirrors_pure (h₂.mono (Nat.sub_le m 1))
  cases there' with
  | false => exact .none
  | true =>
    apply Option.Rel.some
    constructor
    case sort => rfl
    case same =>
      intro he
      rw [(Prod.mk.inj (hname he)).1, (M.alike _ _ hdot).span]

theorem mirrors_callSelector (hf : Forward expr) {m : Nat} (hm : m ≤ n) (hc : M.Places m c d)
    (hk : c.kind = .lparen) :
    M.Mirrors m (Option.Rel M.Selectors) (callSelector expr) (callSelector expr') c d := by
  apply mirrors_advance_bind hc (by simp [hk])
  intro mark mark' hmark h₁
  apply (mirroring_arguments h hf (m - 1) (by omega) _ _ h₁).bind
  intro args args' c₂ d₂ hargs h₂
  apply mirrors_panicking_bind h₂
  apply mirrors_if rfl
  · exact fun _ => mirrors_pure (h₂.mono (Nat.sub_le m 1)) .none
  intro _
  apply (mirrors_expect h₂ (by decide)).bind
  rintro _ closed c₃ d₃ ⟨rfl, -⟩ h₃
  apply mirrors_if rfl
  · intro _
    apply mirrors_look_bind
    apply mirrors_pure (h₃.mono (Nat.sub_le m 1))
    apply Option.Rel.some
    constructor
    case sort => rfl
    case same =>
      intro he
      rw [same_args hargs he, (M.alike _ _ hmark).span, h₃.spanSince]
  · exact fun _ => mirrors_pure (h₃.mono (Nat.sub_le m 1)) .none

theorem mirroring_selector (hf : Forward expr) :
    M.Mirroring n (Option.Rel M.Selectors) (selector expr) (selector expr') := by
  intro m hm c d hc
  apply mirrors_panicking_bind hc
  apply mirrors_if rfl
  · exact fun _ => mirrors_pure hc .none
  intro _
  apply mirrors_look_bind
  rcases hc.kind_cases with hsame | ⟨hend, hbrace⟩
  · rw [hsame]
    generalize hk : c.kind = k
    split
    · exact mirrors_fieldSelector hc hk
    · exact mirrors_callSelector h hf hm hc hk
    · exact mirrors_pure hc .none
  · rw [hend, hbrace]
    exact mirrors_pure hc .none

omit h in
theorem pays_further_selector (hf : Forward expr) (c : Cursor) (hs : c.stop.kind = .eof) :
    Pays (selector expr) c := by
  apply pays_of_left (pays_selector hf) _ c hs
  intro c hk
  by_cases hp : c.panicking = true
  · simp [selector, panicking, look, hp]
  · simp [selector, panicking, look, hp, hk]

/-! What follows starts by consuming a token, so it only asks for a bound one smaller. -/

theorem mirrors_nameExpr (hf : Forward expr) (hc : M.Places (n + 1) c d) (hk : c.kind = .ident) :
    M.Mirrors n M.Exprs (nameExpr expr) (nameExpr expr') c d := by
  apply mirrors_spanned hc fun he => absurd (hk.symm.trans he) (by decide)
  apply mirrors_advance_bind hc (by simp [hk])
  intro head head' hhead h₁
  have hmore := mirroring_untilNone (mirroring_selector h hf) (pays_further_selector hf)
  apply (hmore n (Nat.le_refl n) _ _ h₁).bind
  intro selectors selectors' c₂ d₂ hsel h₂
  apply mirrors_pure h₂
  intro s
  constructor
  case span => rfl
  case isAssignable => rw [isAssignable_name, isAssignable_name, isCall_getLast? hsel]
  case same =>
    intro he
    rw [he _ _ hhead, same_list (fun _ _ hxy => hxy.same) hsel he]

theorem mirrors_parenExpr (hc : M.Places (n + 1) c d) (hk : c.kind = .lparen) :
    M.Mirrors n M.Exprs (parenExpr expr) (parenExpr expr') c d := by
  have hparen : ∀ {e f : Expr}, M.Exprs e f → ∀ s, M.Exprs (.paren s e) (.paren s f) := by
    intro e f hef s
    exact ⟨rfl, hef.isAssignable, fun he => by rw [hef.same he]⟩
  apply mirrors_spanned hc fun he => absurd (hk.symm.trans he) (by decide)
  apply mirrors_advance_bind hc (by simp [hk])
  intro _ _ _ h₁
  apply (h n (Nat.le_refl n) _ _ h₁).bind
  intro inner inner' c₂ d₂ hinner h₂
  apply mirrors_panicking_bind h₂
  apply mirrors_if rfl
  · exact fun _ => mirrors_pure h₂ (hparen hinner)
  intro _
  apply (mirrors_expect h₂ (by decide)).bind
  exact fun _ _ c₃ d₃ _ h₃ => mirrors_pure h₃ (hparen hinner)

theorem mirrors_newExpr (hf : Forward expr) (hc : M.Places (n + 1) c d) (hk : c.kind = .kwNew) :
    M.Mirrors n M.Exprs (newExpr expr) (newExpr expr') c d := by
  have hnew : ∀ {x y : Ident × Bool} {es fs : List Expr}, M.Same x y → M.Same es fs →
      ∀ s, M.Exprs (.new s x.1 es) (.new s y.1 fs) := by
    intro x y es fs hxy hef s
    exact ⟨rfl, rfl, fun he => by rw [hxy he, hef he]⟩
  apply mirrors_spanned hc fun he => absurd (hk.symm.trans he) (by decide)
  apply mirrors_advance_bind hc (by simp [hk])
  intro _ _ _ h₁
  apply (mirrors_expectIdent h₁).bind
  rintro ⟨className, there⟩ ⟨className', there'⟩ c₂ d₂ ⟨hthere, hname⟩ h₂
  obtain rfl : there' = there := hthere
  have hnone := hnew hname fun _ => (rfl : ([] : List Expr) = [])
  apply mirrors_if rfl
  · exact fun _ => mirrors_pure h₂ hnone
  intro _
  apply (mirrors_expect h₂ (by decide)).bind
  rintro _ opened c₃ d₃ ⟨rfl, -⟩ h₃
  apply mirrors_if rfl
  · intro _
    apply (mirroring_arguments h hf n (Nat.le_refl n) _ _ h₃).bind
    intro args args' c₄ d₄ hargs h₄
    have hall := hnew hname (same_args hargs)
    apply mirrors_panicking_bind h₄
    apply mirrors_if rfl
    · exact fun _ => mirrors_pure h₄ hall
    intro _
    apply (mirrors_expect h₄ (by decide)).bind
    exact fun _ _ c₅ d₅ _ h₅ => mirrors_pure h₅ hall
  · exact fun _ => mirrors_pure h₃ hnone

theorem mirroring_primary (hf : Forward expr) :
    M.Mirroring (n + 1) M.Exprs (primary expr) (primary expr') := by
  intro m hm c d hc
  have hc' : M.Places (m - 1 + 1) c d := hc.mono (by omega)
  have hle : m - 1 ≤ m := Nat.sub_le m 1
  have hinner : M.Mirroring (m - 1) M.Exprs expr expr' := h.le (by omega)
  apply mirrors_look_bind
  by_cases hk : c.kind = .eof → M.behind = []
  · have htoken := hc.current hk
    have halike := M.alike _ _ htoken
    rw [halike.kind]
    cases hsort : LiteralSort.ofKind? c.current.kind with
    | some sort =>
      have hne : c.kind ≠ .eof := by
        intro he
        rw [show c.current.kind = .eof from he] at hsort
        cases hsort
      apply mirrors_advance_bind hc hne
      intro _ _ _ h₁
      apply mirrors_pure (h₁.mono hle)
      constructor
      case span => exact halike.span
      case isAssignable => rfl
      case same =>
        intro he
        rw [he _ _ htoken]
    | none =>
      dsimp only
      generalize hkind : c.current.kind = k
      split
      · exact (mirrors_nameExpr hinner hf hc' hkind).mono hle
      · exact (mirrors_parenExpr hinner hc' hkind).mono hle
      · exact (mirrors_newExpr hinner hf hc' hkind).mono hle
      · exact mirrors_expressionExpected hc
  · obtain ⟨hend, hbehind⟩ := Classical.not_imp.1 hk
    apply mirrors_of_complaint hc hbehind
    intro hcalm
    rw [show c.current.kind = .eof from hend]
    exact reads_expressionExpected hcalm

omit h in
theorem stepOp?_eq (hc : M.Places n c d) : stepOp? d = stepOp? c := by
  rcases hc.kind_cases with hsame | ⟨hend, hbrace⟩
  · simp only [stepOp?, hc.panicking, hsame]
  · simp only [stepOp?, hend, hbrace, ite_self]

theorem mirroring_stepped (hf : Forward expr) :
    M.Mirroring (n + 1) M.Exprs (stepped expr) (stepped expr') := by
  intro m hm c d hc
  apply (mirroring_primary h hf m hm c d hc).bind
  intro e f c₁ d₁ hef h₁
  apply mirrors_look_bind
  rw [stepOp?_eq h₁]
  cases hval : stepOp? c₁ with
  | none => exact mirrors_pure h₁ hef
  | some op =>
    have hne : c₁.kind ≠ .eof := by
      intro he
      rw [stepOp?, he, ite_self] at hval
      cases hval
    apply mirrors_advance_bind h₁ hne
    intro mark mark' hmark h₂
    apply mirrors_pure (h₂.mono (Nat.sub_le m 1))
    have hspan := (M.alike _ _ hmark).span
    constructor
    case span => rw [Expr.span, Expr.span, hef.span, hspan]
    case isAssignable => rfl
    case same =>
      intro he
      rw [hef.same he, hspan]

end Operands

section Unary

variable {operand : Parse .short Expr} {operand' : Parse ρ Expr}
    (h : M.Mirroring n M.Exprs operand operand')

include h

theorem mirrors_castExpr (hc : M.Places (n + 1) c d) (hs : c.startsCast = true) :
    M.Mirrors n M.Exprs (castExpr operand) (castExpr operand') c d := by
  obtain ⟨hk, hprim⟩ : c.kind = .lparen ∧ (c.ahead 1).kind.isPrimitive = true := by
    simpa [Cursor.startsCast] using hs
  apply mirrors_advance_bind hc (by simp [hk])
  intro mark mark' hmark h₁
  have hword : c.advance.kind.isPrimitive = true := by
    rw [← Cursor.ahead_advance] at hprim
    exact hprim
  apply mirrors_advance_bind h₁ (isPrimitive_ne_eof hword)
  intro word word' hword h₂
  have h₂ : M.Places n c.advance.advance d.advance.advance := h₂.mono (Nat.sub_le n 1)
  have hmark := (M.alike _ _ hmark).span
  apply (mirrors_expect h₂ (by decide)).bind
  rintro _ closed c₃ d₃ ⟨rfl, hfail⟩ h₃
  apply mirrors_if rfl
  · intro _
    apply (h n (Nat.le_refl n) c₃ d₃ h₃).bind
    intro e f c₄ d₄ hef h₄
    apply mirrors_pure h₄
    constructor
    case span => rw [Expr.span, Expr.span, hef.span, hmark]
    case isAssignable => rfl
    case same =>
      intro he
      rw [hef.same he, hmark, he _ _ hword]
  · intro hclosed
    have hfound := (M.alike _ _ (h₃.current fun _ => hfail hclosed)).span
    apply mirrors_look_bind
    apply mirrors_look_bind
    apply mirrors_pure h₃
    rw [h₃.spanSince, hfound, hmark]
    constructor
    case span => rfl
    case isAssignable => rfl
    case same =>
      intro he
      rw [he _ _ hword]

/-- One operand, if those nested in it mirror each other. -/
theorem mirroring_unaryWith (hf : Forward operand) :
    M.Mirroring (n + 1) M.Exprs (unaryWith operand) (unaryWith operand') := by
  intro m hm c d hc
  have hc' : M.Places (m - 1 + 1) c d := hc.mono (by omega)
  have hle : m - 1 ≤ m := Nat.sub_le m 1
  apply mirrors_look_bind
  rw [hc.test UnaryOp.ofKind? rfl]
  cases hop : UnaryOp.ofKind? c.kind with
  | some op =>
    have hne : c.kind ≠ .eof := by
      intro he
      rw [he] at hop
      cases hop
    apply mirrors_advance_bind hc hne
    intro mark mark' hmark h₁
    apply (h (m - 1) (by omega) _ _ h₁).bind
    intro e f c₂ d₂ hef h₂
    apply mirrors_pure (h₂.mono hle)
    have hspan := (M.alike _ _ hmark).span
    constructor
    case span => rw [Expr.span, Expr.span, hef.span, hspan]
    case isAssignable => rfl
    case same =>
      intro he
      rw [hef.same he, hspan]
  | none =>
    apply mirrors_look_bind
    apply mirrors_if hc.startsCast
    · exact fun hs => (mirrors_castExpr (h.le (by omega)) hc' hs).mono hle
    · intro _
      have hinner := mirroring_climb h tiers (List.suffix_refl _)
      exact mirroring_stepped hinner (forward_climb hf tiers) m hm c d hc

end Unary

/-! ### The recursion -/

/-- However deep each run may nest, if the first may nest as deep as it has tokens ahead. -/
theorem mirroring_unary : ∀ n k l, n ≤ k → n ≤ l → M.Mirroring n M.Exprs (unary k) (unary l) := by
  intro n
  induction n with
  | zero =>
    intro k l _ _ m hm c d hc
    exact absurd (Nat.lt_of_lt_of_le hc.fewer hm) (Nat.not_lt_zero _)
  | succ n ih =>
    intro k l hk hl
    obtain ⟨k, rfl⟩ : ∃ j, k = j + 1 := ⟨k - 1, by omega⟩
    obtain ⟨l, rfl⟩ : ∃ j, l = j + 1 := ⟨l - 1, by omega⟩
    exact mirroring_unaryWith (ih k l (by omega) (by omega)) (forward_unary k)

theorem mirrors_expression (hc : M.Places n c d) :
    M.Mirrors n M.Exprs expression expression c d := by
  have hlength := hc.length
  have hfewer := hc.fewer
  have hunary := mirroring_unary (M := M) (c.rest.length + 1) (c.rest.length + 1)
    (d.rest.length + 1) (Nat.le_refl _) (by omega)
  have hclimb := mirroring_climb hunary tiers (List.suffix_refl _) _ (Nat.le_refl _) c d hc.tight
  intro hclean
  have hreflects := hclimb hclean
  rw [expression, expression]
  exact ⟨hreflects.value, hreflects.diagnostics, hreflects.places.mono (by omega)⟩

end Mirror

end JavaPrimer
