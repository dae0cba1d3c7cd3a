import JavaPrimer.Proofs.InStepExpr

/-!
# Statements in step

A statement that opens no block ends at a semicolon at the latest, whether it is broken or not:
the last thing it consumes is a semicolon, and so does its recovery stop there. Two runs before
the semicolon therefore read the same statement and come out at the same place, behind the
semicolon at most.

* `Parse.agree_varDecl`, `Parse.agree_printStmt`, `Parse.agree_exprStmt` — the statements;
* `Parse.agree_statement` — one statement, whatever nesting each run allows;
* `Cursor.Beside.endStatement` — skipping the rest of a broken statement;
* `Parse.agree_recovering` — one statement with its recovery.
-/

namespace JavaPrimer

namespace Parse

variable {after : List Token} {n : Nat} {c d : Cursor}

/-! ### Parts of declarations -/

theorem ne_semi_of_isTypeWord {k : Kind} (h : k.isTypeWord = true) : k ≠ .semi := by
  rintro rfl
  cases h

theorem agree_typeSpec (hc : Cursor.Beside after n c d) :
    Agree (Cursor.Beside after n) (typeSpec c) (typeSpec d) := by
  refine agree_look_bind hc.current (agree_ite (fun hword => ?_) fun _ => ?_)
  · refine agree_spanned hc (fun _ _ => Cursor.Beside.toAlong) ?_
    refine agree_advance_bind hc (ne_semi_of_isTypeWord hword) fun word c₁ d₁ h₁ => ?_
    have h₁ := h₁.mono (Nat.sub_le n 1)
    have hbracket : (d₁.kind == .lbracket) = (c₁.kind == .lbracket) := by rw [h₁.kind]
    refine agree_look_bind hbracket (agree_ite (fun hk => ?_) fun _ => agree_pure h₁ _)
    refine agree_advance_bind h₁ (by simp [beq_iff_eq.1 hk]) fun mark c₂ d₂ h₂ => ?_
    have h₂ := h₂.mono (Nat.sub_le n 1)
    exact (agree_expect h₂ (by decide)).bind fun _ _ _ h₃ => agree_pure h₃ _
  · exact (agree_fail hc _).bind fun _ _ _ h₁ => agree_pure h₁ none

theorem agree_expression (hc : Cursor.Beside after n c d) :
    Agree (Cursor.Beside after n) (expression c) (expression d) :=
  inStep_expression n (Nat.le_refl n) c d hc

/-- An expression and the semicolon behind it. -/
theorem agree_assigned (hc : Cursor.Beside after n c d) :
    Agree (Cursor.Along after) (assigned c) (assigned d) := by
  refine (agree_expression hc).bind fun value c₁ d₁ h₁ => ?_
  refine agree_panicking_bind h₁.panicking fun b =>
    agree_ite (fun _ => agree_pure h₁.toAlong value) fun _ => ?_
  exact (agree_expect_semi h₁).bind fun _ _ _ h₂ => agree_pure h₂ value

theorem agree_initialized (hc : Cursor.Beside after n c d) :
    Agree (Cursor.Along after) (initialized c) (initialized d) := by
  have hequals : (d.kind == .equals) = (c.kind == .equals) := by rw [hc.kind]
  refine agree_look_bind hequals (agree_ite (fun hk => ?_) fun _ => ?_)
  · refine agree_advance_bind hc (by simp [beq_iff_eq.1 hk]) fun mark c₁ d₁ h₁ => ?_
    exact agree_assigned h₁
  · exact (agree_expect_semi hc).bind fun _ _ _ h₁ => agree_pure h₁ Expr.missing

theorem agree_finalMark (hc : Cursor.Beside after n c d) :
    Agree (Cursor.Beside after n) (finalMark c) (finalMark d) := by
  have hfinal : (d.kind == .kwFinal) = (c.kind == .kwFinal) := by rw [hc.kind]
  refine agree_look_bind hfinal (agree_ite (fun hk => ?_) fun _ => agree_pure hc false)
  refine agree_advance_bind hc (by simp [beq_iff_eq.1 hk]) fun mark c₁ d₁ h₁ => ?_
  exact agree_pure (h₁.mono (Nat.sub_le n 1)) true

/-! ### Statements that hold expressions -/

theorem agree_varDecl (hc : Cursor.Beside after n c d) :
    Agree (Cursor.Along after) (varDecl c) (varDecl d) := by
  refine agree_spanned hc (fun _ _ h => h) ?_
  refine (agree_finalMark hc).bind fun isFinal c₁ d₁ h₁ => ?_
  refine (agree_typeSpec h₁).bind fun type c₂ d₂ h₂ => ?_
  cases type with
  | none => exact agree_pure h₂.toAlong _
  | some type =>
    refine (agree_expectIdent h₂).bind fun x c₃ d₃ h₃ => ?_
    obtain ⟨name, there⟩ := x
    refine agree_ite (fun _ => ?_) fun _ => agree_pure h₃.toAlong _
    exact (agree_initialized h₃).bind fun init _ _ h₄ => agree_pure h₄ _

theorem agree_printArgument (hc : Cursor.Beside after n c d) :
    Agree (Cursor.Beside after n) (printArgument c) (printArgument d) :=
  agree_look_bind (congrArg Kind.startsExpression hc.kind) <|
    agree_ite (fun _ => agree_expression hc) fun _ => agree_pure hc Expr.missing

theorem agree_printStmt (hc : Cursor.Beside after n c d) (hs : c.startsPrint = true) :
    Agree (Cursor.Along after) (printStmt c) (printStmt d) := by
  -- the lookahead has seen that none of the four tokens consumed is the semicolon
  simp only [Cursor.startsPrint, Bool.and_eq_true, beq_iff_eq] at hs
  obtain ⟨⟨⟨h₀, h₁⟩, h₂⟩, h₃⟩ := hs
  rw [← Cursor.ahead_advance c 0] at h₁
  rw [← Cursor.ahead_advance c 1, ← Cursor.ahead_advance c.advance 0] at h₂
  rw [← Cursor.ahead_advance c 2, ← Cursor.ahead_advance c.advance 1,
    ← Cursor.ahead_advance c.advance.advance 0] at h₃
  have k₁ : c.advance.kind ≠ .semi := by
    rw [show c.advance.kind = .dot from h₁]
    decide
  have k₃ : c.advance.advance.advance.kind ≠ .semi := by
    rw [show c.advance.advance.advance.kind = .dot from h₃]
    decide
  refine agree_spanned hc (fun _ _ h => h) ?_
  refine agree_advance_bind_at hc (Cursor.ne_semi_of_isWord h₀) fun b₁ => ?_
  refine agree_advance_bind_at b₁ k₁ fun b₂ => ?_
  refine agree_advance_bind_at b₂ (Cursor.ne_semi_of_isWord h₂) fun b₃ => ?_
  refine agree_advance_bind_at b₃ k₃ fun b₄ => ?_
  refine (agree_expectWord b₄ _).bind fun x c₅ d₅ b₅ => ?_
  obtain ⟨method, there⟩ := x
  refine agree_ite (fun _ => agree_pure b₅.toAlong _) fun _ => ?_
  refine (agree_expect b₅ (by decide)).bind fun opened c₆ d₆ b₆ => ?_
  refine agree_ite (fun _ => ?_) fun _ => agree_pure b₆.toAlong _
  refine (agree_printArgument b₆).bind fun arg c₇ d₇ b₇ => ?_
  refine agree_panicking_bind b₇.panicking fun b =>
    agree_ite (fun _ => agree_pure b₇.toAlong _) fun _ => ?_
  refine (agree_expect b₇ (by decide)).bind fun closed c₈ d₈ b₈ => ?_
  refine agree_ite (fun _ => ?_) fun _ => agree_pure b₈.toAlong _
  exact (agree_expect_semi b₈).bind fun _ _ _ h => agree_pure h _

theorem agree_exprStmt (hc : Cursor.Beside after n c d) :
    Agree (Cursor.Along after) (exprStmt c) (exprStmt d) := by
  refine agree_spanned hc (fun _ _ h => h) ?_
  refine (agree_expression hc).bind fun target c₁ d₁ h₁ => ?_
  refine agree_panicking_bind h₁.panicking fun b =>
    agree_ite (fun _ => agree_pure h₁.toAlong _) fun _ => ?_
  refine agree_look_bind (congrArg AssignOp.ofKind? h₁.kind) ?_
  cases hop : AssignOp.ofKind? c₁.kind with
  | none => exact (agree_expect_semi h₁).bind fun _ _ _ h₂ => agree_pure h₂ _
  | some op =>
    have hk : c₁.kind ≠ .semi := by
      intro hk
      rw [hk] at hop
      cases hop
    refine agree_advance_bind h₁ hk fun mark c₂ d₂ h₂ => agree_ite (fun _ => ?_) fun _ => ?_
    · exact (agree_assigned h₂).bind fun value _ _ h₃ => agree_pure h₃ _
    · refine (agree_report h₂ _).bind fun _ c₃ d₃ h₃ => ?_
      exact (agree_assigned h₃).bind fun value _ _ h₄ => agree_pure h₄ _

/-- One statement. No brace is ahead in the shorter run, so neither run looks into a block. -/
theorem agree_statementWith {inner inner' : Parse .short (Option Stmt)}
    (hc : Cursor.Beside after n c d) :
    Agree (Cursor.Along after) (statementWith inner c) (statementWith inner' d) := by
  have hbrace : (c.kind == .lbrace) = false := by
    obtain ⟨t, ts, hts⟩ := List.exists_cons_of_ne_nil hc.ahead
    have hflat := hc.flat t (by rw [hts]; exact List.mem_cons_self)
    rw [Cursor.kind, Cursor.current_cons hts]
    exact beq_eq_false_iff_ne.2 hflat
  have hbrace' : (d.kind == .lbrace) = false := by rw [hc.kind, hbrace]
  have hvar := congrArg Kind.startsVarDecl hc.kind
  have hexpr := congrArg Kind.startsExpression hc.kind
  refine agree_if hc.ident_ident (fun _ => ?_) (agree_if hc.startsPrint (fun hs => ?_)
    (agree_if hvar (fun _ => ?_) (agree_if hexpr (fun _ => ?_)
      (agree_if (hbrace'.trans hbrace.symm) (fun h => ?_) ?_))))
  · have hvalue := congrArg Token.value hc.current
    show Agree _ ((fail (.unknownType c.current.value) >>= _) c)
      ((fail (.unknownType d.current.value) >>= _) d)
    rw [hvalue]
    exact (agree_fail hc _).along.bind fun _ _ _ h => agree_pure h none
  · exact (agree_printStmt hc hs).map some
  · exact (agree_varDecl hc).map some
  · exact (agree_exprStmt hc).map some
  · exact absurd (hbrace.symm.trans h) (by decide)
  · show Agree _ ((fail (.statement c.current) >>= _) c) ((fail (.statement d.current) >>= _) d)
    rw [hc.current]
    exact (agree_fail hc _).along.bind fun _ _ _ h => agree_pure h none

theorem agree_statement (hc : Cursor.Beside after n c d) :
    Agree (Cursor.Along after) (statement c) (statement d) :=
  agree_statementWith hc

end Parse

/-! ### Recovery -/

namespace Cursor

variable {after : List Token} {n : Nat} {c d : Cursor}

/-- Skipping depends on where it starts only through the end of input and the panic flag. -/
theorem skipTo_loop_update {ρ : Reach} (halt : Cursor ρ → Bool) (c : Cursor ρ) (l : Option Token)
    (r : List Token) (rest : List Token) :
    ∀ last, skipTo.loop halt { c with last := l, rest := r } last rest
      = skipTo.loop halt c last rest := by
  induction rest with
  | nil => exact fun _ => rfl
  | cons t rest ih =>
    intro last
    simp only [skipTo.loop, ih]

section Halts

variable {ρ : Reach} {c : Cursor ρ}

theorem skipTo_of_nil (halt : Cursor ρ → Bool) (hc : c.rest = []) : c.skipTo halt = c := by
  rw [skipTo, hc, skipTo.loop, ← hc]

theorem skipTo_of_halt {halt : Cursor ρ → Bool} (hc : c.rest ≠ []) (h : halt c = true) :
    c.skipTo halt = c := by
  obtain ⟨t, ts, hts⟩ := List.exists_cons_of_ne_nil hc
  have hself : ({ c with last := c.last, rest := t :: ts } : Cursor ρ) = c := by rw [← hts]
  rw [skipTo, hts]
  simp only [skipTo.loop, hself, h, if_true]

theorem skipTo_of_not_halt {halt : Cursor ρ → Bool} (hc : c.rest ≠ []) (h : halt c = false) :
    c.skipTo halt = c.advance.skipTo halt := by
  obtain ⟨t, ts, hts⟩ := List.exists_cons_of_ne_nil hc
  have hself : ({ c with last := c.last, rest := t :: ts } : Cursor ρ) = c := by rw [← hts]
  have hloop := skipTo_loop_update halt c (some t) ts ts (some t)
  rw [skipTo, skipTo, hts, advance_cons hts, hloop]
  simp only [skipTo.loop, hself, h, Bool.false_eq_true, if_false]

end Halts

/-- Skipping stops before the semicolon at the latest, in both runs at the same place. -/
theorem Beside.skipTo {halt halt' : Cursor → Bool}
    (hsame : ∀ n c d, Beside after n c d → halt' d = halt c)
    (hsemi : ∀ c : Cursor, c.kind = .semi → halt c = true) :
    ∀ {n c d}, Beside after n c d → Beside after n (c.skipTo halt) (d.skipTo halt') := by
  intro n
  induction n with
  | zero => exact fun h => absurd h.pos (Nat.lt_irrefl 0)
  | succ n ih =>
    intro c d h
    have hd : d.rest ≠ [] := by
      rw [h.rest]
      exact List.append_ne_nil_of_left_ne_nil h.ahead after
    cases hhalt : halt c with
    | true =>
      rw [skipTo_of_halt h.ahead hhalt, skipTo_of_halt hd ((hsame _ c d h).trans hhalt)]
      exact h
    | false =>
      have hk : c.kind ≠ .semi := by
        intro hk
        rw [hsemi c hk] at hhalt
        cases hhalt
      rw [skipTo_of_not_halt h.ahead hhalt, skipTo_of_not_halt hd ((hsame _ c d h).trans hhalt)]
      exact (ih (h.advance hk)).mono (Nat.le_succ n)

/-- The two runs have consumed something since their starts, or neither has. -/
theorem Along.since (h : Along after c d) (start : Nat) :
    d.rest.length < start + after.length ↔ c.rest.length < start := by
  rw [h.length]
  omega

theorem Along.endedBy (h : Along after c d) (kinds : List Kind) (start : Nat) :
    d.endedBy kinds (start + after.length) = c.endedBy kinds start := by
  simp only [Cursor.endedBy, h.last, h.since start]

theorem Beside.haltsStatement (h : Beside after n c d) (start : Nat) :
    d.haltsStatement (start + after.length) = c.haltsStatement start := by
  simp only [Cursor.haltsStatement, h.kind, h.toAlong.since start, h.atFreshStart, h.atLineStart]

/-- What is left of a broken statement ends at the same place in both runs, at the semicolon at
the latest. -/
theorem Along.endStatement (h : Along after c d) {start : Nat} (hstart : 0 < start) :
    Along after (c.endStatement start) (d.endStatement (start + after.length)) := by
  cases hended : c.endedBy [.semi] start with
  | true =>
    simp only [Cursor.endStatement, h.endedBy, hended, if_true]
    exact h
  | false =>
    have hc : c.rest ≠ [] := by
      intro hnil
      -- with nothing left, the semicolon is what was consumed last
      obtain ⟨q, hq, hkind, -⟩ := h.closed
      rw [hnil, List.append_nil] at hq
      cases hlast : c.last with
      | none => simp [hlast] at hq
      | some t =>
        obtain rfl : t = q := by simpa [hlast] using hq
        simp [Cursor.endedBy, hnil, hlast, hkind, hstart] at hended
    have hskip := Beside.skipTo (fun _ _ _ h => h.haltsStatement start)
      (fun c hk => by simp [Cursor.haltsStatement, hk])
      (⟨h, hc, Nat.le_refl _⟩ : Beside after c.rest.length c d)
    simp only [Cursor.endStatement, h.endedBy, hended, Bool.false_eq_true, if_false, Cursor.past,
      hskip.kind]
    split
    · exact hskip.toAlong.advance hskip.ahead
    · exact hskip.toAlong

end Cursor

namespace Parse

variable {α : Type} {after : List Token} {n : Nat} {c d : Cursor}

/-- A statement with its recovery: both runs come out at the same place, and the panic is over. -/
theorem agree_recovering {item item' : Parse .short α} (hc : Cursor.Beside after n c d)
    (h : Agree (Cursor.Along after) (item c) (item' d)) :
    Agree (Cursor.Along after) (recovering Cursor.endStatement item c)
      (recovering Cursor.endStatement item' d) := by
  have hpos := List.length_pos_iff.2 hc.ahead
  have hsettle : Cursor.Along after (settle Cursor.endStatement c.rest.length (item c).cursor).cursor
      (settle Cursor.endStatement d.rest.length (item' d).cursor).cursor := by
    simp only [settle, move, h.cursor.panicking, hc.length]
    split
    · exact (h.cursor.endStatement hpos).panic false
    · exact h.cursor
  have hnudge : ∀ {e f : Cursor}, Cursor.Along after e f →
      Cursor.Along after (nudge c.rest.length e).cursor (nudge d.rest.length f).cursor := by
    intro e f hef
    have hsame : f.rest.length = d.rest.length ↔ e.rest.length = c.rest.length := by
      rw [hef.length, hc.length]
      omega
    simp only [nudge, move, hsame]
    split
    · next heq => exact hef.advance (List.length_pos_iff.1 (heq ▸ hpos))
    · exact hef
  rw [recovering_apply, recovering_apply]
  exact ⟨h.value, h.diagnostics, hnudge hsettle⟩

/-- Recovery ends every panic. -/
theorem panicking_recovering (skip : Nat → Cursor → Cursor) (item : Parse .short α) (c : Cursor) :
    (recovering skip item c).cursor.panicking = false := by
  have hsettle : (settle skip c.rest.length (item c).cursor).cursor.panicking = false := by
    simp only [settle, move]
    split
    · rfl
    · next h => exact Bool.eq_false_iff.2 h
  rw [recovering_apply]
  simp only [nudge, move]
  split
  · rw [Cursor.panicking_advance, hsettle]
  · exact hsettle

end Parse

end JavaPrimer
