import JavaPrimer.Proofs.CleanRun
import JavaPrimer.Proofs.InStep

/-!
# Expressions in step

Before the semicolon that ends its statement no part of an expression can tell whether more
tokens stand behind it: none consumes a semicolon, and each looks past the next token only when
that is not one. The bounds of the two runs differ, since the longer one has more tokens ahead;
no bound is ever reached.

* `Parse.inStep_chain`, `Parse.inStep_climb` — the tiers of binary operators;
* `Parse.inStep_arguments`, `Parse.inStep_selector`, `Parse.inStep_primary` — the operands;
* `Parse.inStep_unary`, `Parse.inStep_expression` — the recursion.
-/

namespace JavaPrimer

namespace Parse

variable {after : List Token} {n : Nat}

theorem inStep_expressionExpected : InStep after n expressionExpected expressionExpected := by
  intro m hm c d hc
  refine agree_look_bind hc.current ((agree_fail hc _).bind fun _ _ _ hcd => ?_)
  exact agree_pure hcd _

/-! ### Binary operators -/

theorem op?_semi : ∀ tier ∈ tiers, tier.op? .semi = none := by decide

theorem agree_chain {tier : Tier} (htier : tier ∈ tiers) {operand operand' : Parse .short Expr}
    (h : InStep after n operand operand') :
    ∀ k m left l c d, l ≤ n → Cursor.Beside after l c d → c.rest.length ≤ k →
      d.rest.length ≤ m → Agree (Cursor.Beside after l) (chain tier operand k left c)
        (chain tier operand' m left d) := by
  intro k
  induction k with
  | zero =>
    intro m left l c d hl hc hk hm
    exact absurd (List.eq_nil_of_length_eq_zero (Nat.le_zero.1 hk)) hc.ahead
  | succ k ih =>
    intro m left l c d hl hc hk hm
    have hlength := hc.length
    have hpos := List.length_pos_iff.2 hc.ahead
    have hfewer := hc.fewer
    cases m with
    | zero => omega
    | succ m =>
      have hop : tierOp? tier d = tierOp? tier c := by
        simp only [tierOp?, hc.panicking, hc.kind]
      refine agree_look_bind hop ?_
      cases hval : tierOp? tier c with
      | none => exact agree_pure hc left
      | some op =>
        have hsemi : c.kind ≠ .semi := by
          intro hsemi
          rw [tierOp?, hsemi, op?_semi tier htier, ite_self] at hval
          cases hval
        refine agree_advance_bind hc.tight hsemi fun mark c₁ d₁ h₁ => ?_
        refine (h _ (by omega) c₁ d₁ h₁).bind fun right c₂ d₂ h₂ => ?_
        have hfewer₂ := h₂.fewer
        have hlength₂ := h₂.length
        exact ih m _ l c₂ d₂ hl (h₂.mono (by omega)) (by omega) (by omega)

theorem inStep_climb {operand operand' : Parse .short Expr} (h : InStep after n operand operand') :
    ∀ ts, ts <:+ tiers → InStep after n (climb operand ts) (climb operand' ts) := by
  intro ts
  induction ts with
  | nil => exact fun _ => h
  | cons tier tighter ih =>
    intro hts m hm c d hc
    have hinner := ih ((List.suffix_cons tier tighter).trans hts)
    have htier : tier ∈ tiers := hts.subset List.mem_cons_self
    refine (hinner m hm c d hc).bind fun left c₁ d₁ h₁ => ?_
    exact agree_chain htier hinner _ _ left m c₁ d₁ hm h₁ (Nat.le_refl _) (Nat.le_refl _)

/-! ### Operands -/

section Operands

variable {expr expr' : Parse .short Expr} (h : InStep after n expr expr')

include h

theorem inStep_argument : InStep after n (argument expr) (argument expr') := by
  intro m hm c d hc
  have hcomma : (!d.panicking && d.kind == .comma) = (!c.panicking && c.kind == .comma) := by
    rw [hc.panicking, hc.kind]
  refine agree_look_bind hcomma (agree_ite (fun hmore => ?_) fun _ => agree_pure hc none)
  have hk : c.kind = .comma := by
    simp only [Bool.and_eq_true, beq_iff_eq] at hmore
    exact hmore.2
  refine agree_advance_bind hc (by simp [hk]) fun mark c₁ d₁ h₁ => ?_
  refine (h (m - 1) (by omega) c₁ d₁ h₁).bind fun e c₂ d₂ h₂ => ?_
  exact agree_pure (h₂.mono (Nat.sub_le m 1)) (some e)

omit h in
/-- A further argument takes at least its comma. -/
theorem pays_argument (hf : Forward expr) (c : Cursor) (hc : c.rest ≠ []) :
    Pays (argument expr) c :=
  pays_look_bind <| pays_ite
    (fun _ => pays_advance_bind (fun _ => forward_bind hf fun _ => forward_pure _) hc)
    (fun _ => pays_none c)

theorem inStep_arguments (hf : Forward expr) :
    InStep after n (arguments expr) (arguments expr') := by
  intro m hm c d hc
  refine agree_look_bind (congrArg Kind.startsExpression hc.kind)
    (agree_ite (fun _ => ?_) fun _ => agree_pure hc [])
  refine (h m hm c d hc).bind fun first c₁ d₁ h₁ => ?_
  have hmore := inStep_untilNone (inStep_argument h) (pays_argument hf)
  exact (hmore m hm c₁ d₁ h₁).bind fun more _ _ h₂ => agree_pure h₂ (first :: more)

omit h in
theorem agree_fieldSelector {m : Nat} {c d : Cursor} (hc : Cursor.Beside after m c d)
    (hk : c.kind = .dot) : Agree (Cursor.Beside after m) (fieldSelector c) (fieldSelector d) := by
  refine agree_advance_bind hc (by simp [hk]) fun dot c₁ d₁ h₁ => ?_
  refine (agree_expectIdent h₁).bind fun name c₂ d₂ h₂ => ?_
  exact agree_pure (h₂.mono (Nat.sub_le m 1)) _

theorem agree_callSelector (hf : Forward expr) {m : Nat} (hm : m ≤ n) {c d : Cursor}
    (hc : Cursor.Beside after m c d) (hk : c.kind = .lparen) :
    Agree (Cursor.Beside after m) (callSelector expr c) (callSelector expr' d) := by
  refine agree_advance_bind hc (by simp [hk]) fun mark c₁ d₁ h₁ => ?_
  refine (inStep_arguments h hf (m - 1) (by omega) c₁ d₁ h₁).bind fun args c₂ d₂ h₂ => ?_
  refine agree_panicking_bind h₂.panicking fun b => agree_ite (fun _ => ?_) fun _ => ?_
  · exact agree_pure (h₂.mono (Nat.sub_le m 1)) none
  · refine (agree_expect h₂ (by decide)).bind fun closed c₃ d₃ h₃ => ?_
    have h₃ := h₃.mono (Nat.sub_le m 1)
    refine agree_ite (fun _ => ?_) fun _ => agree_pure h₃ none
    exact agree_look_bind (h₃.spanSince _) (agree_pure h₃ _)

theorem inStep_selector (hf : Forward expr) :
    InStep after n (selector expr) (selector expr') := by
  intro m hm c d hc
  refine agree_panicking_bind hc.panicking fun b => agree_ite (fun _ => agree_pure hc none) fun _ => ?_
  refine agree_look_bind hc.kind ?_
  generalize hk : c.kind = k
  split
  · exact agree_fieldSelector hc hk
  · exact agree_callSelector h hf hm hc hk
  · exact agree_pure hc none

omit h in
/-- A further selector takes at least the token that announces it. -/
theorem pays_selector (hf : Forward expr) (c : Cursor) (hc : c.rest ≠ []) :
    Pays (selector expr) c := by
  refine pays_look_bind (pays_ite (fun _ => pays_none c) fun _ => pays_look_bind ?_)
  split
  · exact pays_advance_bind
      (fun _ => forward_bind forward_expectIdent fun _ => forward_pure _) hc
  · refine pays_advance_bind (fun _ => forward_bind (forward_arguments hf) fun _ =>
      forward_bind forward_panicking fun b => ?_) hc
    cases b
    · refine forward_bind (forward_expect _) fun b => ?_
      cases b
      · exact forward_pure none
      · exact forward_bind (forward_look _) fun _ => forward_pure _
    · exact forward_pure none
  · exact pays_none c

/-! What follows starts by consuming a token, so it only asks for a bound one smaller. -/

theorem agree_nameExpr (hf : Forward expr) {c d : Cursor}
    (hc : Cursor.Beside after (n + 1) c d) (hk : c.kind = .ident) :
    Agree (Cursor.Beside after n) (nameExpr expr c) (nameExpr expr' d) := by
  refine agree_spanned hc (fun _ _ => Cursor.Beside.toAlong) ?_
  refine agree_advance_bind hc (by simp [hk]) fun head c₁ d₁ h₁ => ?_
  have hmore := inStep_untilNone (inStep_selector h hf) (pays_selector hf)
  exact (hmore n (Nat.le_refl n) c₁ d₁ h₁).bind fun selectors _ _ h₂ => agree_pure h₂ _

theorem agree_parenExpr {c d : Cursor} (hc : Cursor.Beside after (n + 1) c d)
    (hk : c.kind = .lparen) :
    Agree (Cursor.Beside after n) (parenExpr expr c) (parenExpr expr' d) := by
  refine agree_spanned hc (fun _ _ => Cursor.Beside.toAlong) ?_
  refine agree_advance_bind hc (by simp [hk]) fun mark c₁ d₁ h₁ => ?_
  refine (h n (Nat.le_refl n) c₁ d₁ h₁).bind fun inner c₂ d₂ h₂ => ?_
  refine agree_panicking_bind h₂.panicking fun b =>
    agree_ite (fun _ => agree_pure h₂ _) fun _ => ?_
  exact (agree_expect h₂ (by decide)).bind fun _ _ _ h₃ => agree_pure h₃ _

theorem agree_newExpr (hf : Forward expr) {c d : Cursor}
    (hc : Cursor.Beside after (n + 1) c d) (hk : c.kind = .kwNew) :
    Agree (Cursor.Beside after n) (newExpr expr c) (newExpr expr' d) := by
  refine agree_spanned hc (fun _ _ => Cursor.Beside.toAlong) ?_
  refine agree_advance_bind hc (by simp [hk]) fun mark c₁ d₁ h₁ => ?_
  refine (agree_expectIdent h₁).bind fun x c₂ d₂ h₂ => ?_
  obtain ⟨className, there⟩ := x
  refine agree_ite (fun _ => agree_pure h₂ _) fun _ => ?_
  refine (agree_expect h₂ (by decide)).bind fun opened c₃ d₃ h₃ => ?_
  refine agree_ite (fun _ => ?_) fun _ => agree_pure h₃ _
  refine (inStep_arguments h hf n (Nat.le_refl n) c₃ d₃ h₃).bind fun args c₄ d₄ h₄ => ?_
  refine agree_panicking_bind h₄.panicking fun b =>
    agree_ite (fun _ => agree_pure h₄ _) fun _ => ?_
  exact (agree_expect h₄ (by decide)).bind fun _ _ _ h₅ => agree_pure h₅ _

theorem inStep_primary (hf : Forward expr) :
    InStep after (n + 1) (primary expr) (primary expr') := by
  intro m hm c d hc
  have hc' : Cursor.Beside after (m - 1 + 1) c d := hc.mono (by omega)
  have hle : m - 1 ≤ m := Nat.sub_le m 1
  have hinner : InStep after (m - 1) expr expr' := h.le (by omega)
  refine agree_look_bind hc.current ?_
  cases hsort : LiteralSort.ofKind? c.current.kind with
  | some sort =>
    refine agree_advance_bind hc (fun hk => ?_) fun _ _ _ h₁ => agree_pure (h₁.mono hle) _
    rw [show c.current.kind = .semi from hk] at hsort
    cases hsort
  | none =>
    dsimp only
    generalize hk : c.current.kind = k
    split
    · exact (agree_nameExpr hinner hf hc' hk).mono hle
    · exact (agree_parenExpr hinner hc' hk).mono hle
    · exact (agree_newExpr hinner hf hc' hk).mono hle
    · exact inStep_expressionExpected m (Nat.le_refl m) c d hc

omit h in
theorem stepOp?_semi {c : Cursor} (hk : c.kind = .semi) : stepOp? c = none := by
  simp only [stepOp?, hk, ite_self]

theorem inStep_stepped (hf : Forward expr) :
    InStep after (n + 1) (stepped expr) (stepped expr') := by
  intro m hm c d hc
  refine (inStep_primary h hf m hm c d hc).bind fun operand c₁ d₁ h₁ => ?_
  have hop : stepOp? d₁ = stepOp? c₁ := by simp only [stepOp?, h₁.panicking, h₁.kind]
  refine agree_look_bind hop ?_
  cases hval : stepOp? c₁ with
  | none => exact agree_pure h₁ operand
  | some op =>
    have hk : c₁.kind ≠ .semi := by
      intro hk
      rw [stepOp?_semi hk] at hval
      cases hval
    refine agree_advance_bind h₁ hk fun mark c₂ d₂ h₂ => ?_
    exact agree_pure (h₂.mono (Nat.sub_le m 1)) _

end Operands

section Unary

variable {operand operand' : Parse .short Expr} (h : InStep after n operand operand')

include h

theorem agree_castExpr {c d : Cursor} (hc : Cursor.Beside after (n + 1) c d)
    (hs : c.startsCast = true) :
    Agree (Cursor.Beside after n) (castExpr operand c) (castExpr operand' d) := by
  obtain ⟨hk, hprim⟩ : c.kind = .lparen ∧ (c.ahead 1).kind.isPrimitive = true := by
    simpa [Cursor.startsCast] using hs
  refine agree_advance_bind_at hc (by simp [hk]) fun h₁ => ?_
  have hword : c.advance.kind.isPrimitive = true := by
    rw [← Cursor.ahead_advance] at hprim
    exact hprim
  have hsemi : c.advance.kind ≠ .semi := by
    intro hk
    rw [hk] at hword
    cases hword
  refine agree_advance_bind h₁ hsemi fun word c₂ d₂ h₂ => ?_
  have h₂ : Cursor.Beside after n c₂ d₂ := h₂.mono (Nat.sub_le n 1)
  refine (agree_expect h₂ (by decide)).bind fun closed c₃ d₃ h₃ => agree_ite (fun _ => ?_) fun _ => ?_
  · exact (h n (Nat.le_refl n) c₃ d₃ h₃).bind fun e _ _ h₄ => agree_pure h₄ _
  · exact agree_look_bind (h₃.spanSince _) (agree_look_bind h₃.current (agree_pure h₃ _))

theorem inStep_unaryWith (hf : Forward operand) :
    InStep after (n + 1) (unaryWith operand) (unaryWith operand') := by
  intro m hm c d hc
  have hc' : Cursor.Beside after (m - 1 + 1) c d := hc.mono (by omega)
  have hle : m - 1 ≤ m := Nat.sub_le m 1
  refine agree_look_bind (congrArg UnaryOp.ofKind? hc.kind) ?_
  cases hop : UnaryOp.ofKind? c.kind with
  | some op =>
    have hk : c.kind ≠ .semi := by
      intro hk
      rw [hk] at hop
      cases hop
    refine agree_advance_bind hc hk fun mark c₁ d₁ h₁ => ?_
    refine (h (m - 1) (by omega) c₁ d₁ h₁).bind fun e c₂ d₂ h₂ => ?_
    exact agree_pure (h₂.mono hle) _
  | none =>
    refine agree_look_bind hc.startsCast (agree_ite (fun hs => ?_) fun _ => ?_)
    · exact (agree_castExpr (h.le (by omega)) hc' hs).mono hle
    · have hinner := inStep_climb h tiers (List.suffix_refl _)
      exact inStep_stepped hinner (forward_climb hf tiers) m hm c d hc

end Unary

/-! ### The recursion -/

/-- However deep each run may nest, if it is deeper than the shorter run has tokens ahead. -/
theorem inStep_unary : ∀ n k l, n < k → n < l → InStep after n (unary k) (unary l) := by
  intro n
  induction n with
  | zero => exact fun k l _ _ m hm c d hc => absurd hc.pos (by omega)
  | succ n ih =>
    intro k l hk hl
    cases k with
    | zero => exact absurd hk (Nat.not_lt_zero _)
    | succ k =>
      cases l with
      | zero => exact absurd hl (Nat.not_lt_zero _)
      | succ l => exact inStep_unaryWith (ih k l (by omega) (by omega)) (forward_unary k)

theorem inStep_expression : InStep after n expression expression := by
  intro m _ c d hc
  have hlength := hc.length
  have hunary : InStep after c.rest.length (unary (c.rest.length + 1)) (unary (d.rest.length + 1)) :=
    inStep_unary _ _ _ (by omega) (by omega)
  have htight := inStep_climb hunary tiers (List.suffix_refl _) _ (Nat.le_refl _) c d hc.tight
  exact htight.mono hc.fewer

end Parse

end JavaPrimer
