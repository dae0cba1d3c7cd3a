import JavaPrimer.Proofs.BehindOperators

/-!
# Statements one after another

What a run over statements complains about is what the first of them complains about, and then what
is wrong behind the place where the statements go on after it. Where that is does not depend on how
many tokens were ahead at its start, once one of them is consumed. A statement that ends in an
expression ends in a semicolon, whether the expression is a statement of its own or stands on the
right side of something; on its own an assignment operator may follow, and then the expression has
to be something that can be assigned to.

* `Parse.faults`, `Parse.faults_eq` — the complaints about the statements ahead, one by one;
* `Parse.resume`, `Parse.resume_of_lt` — where they go on after a statement;
* `Parse.faultsFrom` — the complaints of the rest of a statement and of what comes behind it;
* `Parse.closed`, `Parse.assigned_eq` — the right side of something and its end;
* `Parse.trail_exprStmt_assigned`, `Parse.trail_exprStmt_assigns` — statements of their own.
-/

namespace JavaPrimer

/-- An expression is read from here without an error, up to an assignment operator. -/
def Cursor.assigns (c : Cursor) : Bool :=
  !(Parse.expression c).cursor.panicking
    && (AssignOp.ofKind? (Parse.expression c).cursor.kind).isSome

/-! ### Recovery -/

namespace Cursor

variable {c d : Cursor}

theorem skipTo_loop_congr (c : Cursor) {halt halt' : Cursor → Bool} (ts : List Token) :
    ∀ last, (∀ d : Cursor, d.rest.length ≤ ts.length → halt d = halt' d) →
      skipTo.loop halt c last ts = skipTo.loop halt' c last ts := by
  induction ts with
  | nil => exact fun _ _ => rfl
  | cons t ts ih =>
    intro last h
    simp only [skipTo.loop, h { c with last := last, rest := t :: ts } (Nat.le_refl _)]
    rw [ih (some t) fun d hd => h d (Nat.le_succ_of_le hd)]

/-- Once a token of a statement is consumed, how many were ahead at its start does not matter. -/
theorem endStatement_of_lt {m n : Nat} (hm : c.rest.length < m) (hn : c.rest.length < n) :
    c.endStatement m = c.endStatement n := by
  have hhalts : ∀ d : Cursor, d.rest.length ≤ c.rest.length →
      d.haltsStatement m = d.haltsStatement n := by
    intro d hd
    simp only [haltsStatement, Nat.lt_of_le_of_lt hd hm, Nat.lt_of_le_of_lt hd hn]
  have hskip : c.skipTo (haltsStatement m) = c.skipTo (haltsStatement n) :=
    skipTo_loop_congr c c.rest c.last hhalts
  simp only [endStatement, endedBy, hm, hn, hskip]

end Cursor

/-! ### The complaints about statements -/

namespace Parse

variable {α β : Type} {c d : Cursor}

theorem statement_eq (c : Cursor) :
    statement c = statementWith (statementWithin c.rest.length) c := rfl

/-- The complaints about the statements ahead. -/
def faults (c : Cursor) : List Diagnostic := (statementsWithin c.rest.length c).diagnostics

/-- Where statements go on after one with `n` tokens ahead at its start. -/
def resume (n : Nat) (c : Cursor) : Cursor :=
  (nudge n (settle Cursor.endStatement n c).cursor).cursor

theorem onward_resume (n : Nat) (c : Cursor) : c.Onward (resume n c) :=
  (forward_settle Cursor.endStatement_skips n c).trans (forward_nudge n _)

theorem resume_of_lt {m n : Nat} (hm : c.rest.length < m) (hn : c.rest.length < n) :
    resume m c = resume n c := by
  have hsettle : (settle Cursor.endStatement m c).cursor
      = (settle Cursor.endStatement n c).cursor := by
    simp only [settle, move, Cursor.endStatement_of_lt hm hn]
  have hless := (forward_settle Cursor.endStatement_skips n).length_le c
  simp only [resume, nudge, move, hsettle]
  rw [if_neg (by omega), if_neg (by omega)]

theorem faults_eq (hc : c.rest ≠ []) : faults c
    = (statement c).diagnostics ++ faults (resume c.rest.length (statement c).cursor) := by
  obtain ⟨n, hn⟩ : ∃ n, c.rest.length = n + 1 :=
    Nat.exists_eq_add_one.2 (List.length_pos_iff.2 hc)
  have hlt := recovering_statement_lt hc
  rw [recovering_apply] at hlt
  have henough : statementsWithin n (resume c.rest.length (statement c).cursor)
      = statementsWithin (resume c.rest.length (statement c).cursor).rest.length
        (resume c.rest.length (statement c).cursor) :=
    statementsWithin_enough (Nat.le_of_lt_succ (hn ▸ hlt)) (Nat.le_refl _)
  rw [faults, faults, ← henough, hn, statementsWithin_succ hc, bind_apply, recovering_apply, hn]
  simp only [bind_apply, pure_apply, List.append_nil]
  rfl

theorem ranged_faults {P : Position → Prop} (hc : c.Ranged P) :
    ∀ d ∈ faults c, d.span.Ranged P :=
  (keeps_collect (keeps_recovering Cursor.endStatement_skips keeps_statement) c.rest.length _ c hc
    (le_refl _)).2.1

theorem faults_ofTokens (tokens : List Token) :
    (parseStatements tokens).diagnostics = faults (.ofTokens tokens) := by
  obtain ⟨s, -, h⟩ := parseStatements_eq tokens
  exact h

/-! ### The rest of a statement -/

/-- The complaints of a step, and those about the statements after it when the step is most of a
statement with `n` tokens ahead at its start. -/
def faultsFrom {α : Type} (n : Nat) (p : Parse .short α) (c : Cursor) : List Diagnostic :=
  (p c).diagnostics ++ faults (resume n (p c).cursor)

theorem faultsFrom_congr {n : Nat} {p : Parse .short α} {q : Parse .short β}
    (h : (p c).trail = (q d).trail) :
    faultsFrom n p c = faultsFrom n q d := by
  obtain ⟨hdiagnostics, hcursor⟩ := Prod.mk.inj h
  rw [faultsFrom, faultsFrom, hdiagnostics, hcursor]

theorem faultsFrom_of_lt {m n : Nat} {p : Parse .short α} (hm : (p c).cursor.rest.length < m)
    (hn : (p c).cursor.rest.length < n) : faultsFrom m p c = faultsFrom n p c := by
  rw [faultsFrom, faultsFrom, resume_of_lt hm hn]

theorem ranged_faultsFrom {P : Position → Prop} (hc : c.Ranged P) {p : Parse .short α}
    (hp : Keeps P (fun _ => True) p) (n : Nat) : ∀ x ∈ faultsFrom n p c, x.span.Ranged P := by
  obtain ⟨honward, hdiagnostics, -⟩ := hp _ c hc (le_refl _)
  exact List.forall_mem_append.2
    ⟨hdiagnostics, ranged_faults (hc.onward (honward.trans (onward_resume n _)))⟩

/-! ### Ends of statements -/

/-- The semicolon of a statement that ends in an expression. -/
def closed (value : Expr) : Parse .short Expr := do
  if ← panicking then return value
  else
    let _ ← expect .semi
    return value

theorem assigned_eq : assigned = expression >>= closed := rfl

theorem keeps_closed {P : Position → Prop} (value : Expr) :
    Keeps P (fun _ => True) (closed value) :=
  keeps_look fun b => by
    cases b
    · exact keeps_bind (keeps_expect _) fun _ _ => keeps_pure trivial
    · exact keeps_pure trivial

theorem closed_panic (hp : c.panicking = true) (value : Expr) :
    closed value c = ⟨value, [], c⟩ := by
  simp [closed, panicking, look, hp]

theorem trail_closed_calm (hp : c.panicking = false) (value : Expr) :
    (closed value c).trail = (expect .semi c).trail := by
  simp [closed, panicking, look, hp, Step.trail]

theorem trail_closed (value value' : Expr) (c : Cursor) :
    (closed value c).trail = (closed value' c).trail := by
  cases hp : c.panicking with
  | true =>
    rw [closed_panic hp, closed_panic hp]
    rfl
  | false => rw [trail_closed_calm hp, trail_closed_calm hp]

theorem trail_expect_fails {k : Kind} (hk : c.kind ≠ k) :
    (expect k c).trail = (fail (.token k c.current) c).trail := by
  have hcurrent : c.current.kind ≠ k := hk
  simp [expect, look, hcurrent, Step.trail]

theorem expect_eq_advance {k : Kind} (hk : c.kind = k) : expect k c = ⟨true, [], c.advance⟩ := by
  have hcurrent : c.current.kind = k := hk
  simp [expect, look, advance, hcurrent]

/-- What an expression statement is after its expression. -/
def targeted (target : Expr) : Parse .short (Span → Stmt) := do
  if ← panicking then return fun span => .expr span target .none .nowhere .missing
  else match ← look fun c => AssignOp.ofKind? c.kind with
    | some op =>
      let mark ← advance
      if target.isAssignable then
        let value ← assigned
        return fun span => .expr span target op mark.span value
      else
        report target.targetDiagnostic
        let value ← assigned
        return fun span => .expr span target op mark.span value
    | none =>
      let _ ← expect .semi
      return fun span => .expr span target .none .nowhere .missing

theorem trail_exprStmt (c : Cursor) : (exprStmt c).trail = ((expression >>= targeted) c).trail :=
  trail_spanned (expression >>= targeted) c

/-- Without an assignment operator an expression statement ends like the right side of an
assignment. -/
theorem trail_exprStmt_assigned (h : c.assigns = false) :
    (exprStmt c).trail = (assigned c).trail := by
  have hend : (targeted (expression c).value (expression c).cursor).trail
      = (closed (expression c).value (expression c).cursor).trail := by
    cases hp : (expression c).cursor.panicking with
    | true => simp [targeted, closed_panic hp, panicking, look, hp, Step.trail]
    | false =>
      have hnone : AssignOp.ofKind? (expression c).cursor.kind = none := by
        simpa [Cursor.assigns, hp] using h
      rw [trail_closed_calm hp]
      simp [targeted, panicking, look, hp, hnone, Step.trail]
  obtain ⟨hdiagnostics, hcursor⟩ := Prod.mk.inj hend
  rw [trail_exprStmt, assigned_eq]
  simp only [Step.trail, bind_apply, hdiagnostics, hcursor]

/-- An assignment operator behind something that cannot be assigned to. -/
theorem trail_exprStmt_assigns (h : c.assigns = true)
    (hfixed : (expression c).value.isAssignable = false) :
    (exprStmt c).trail = ((expression c).diagnostics ++ (expression c).value.targetDiagnostic
      :: (assigned (expression c).cursor.advance).diagnostics,
        (assigned (expression c).cursor.advance).cursor) := by
  obtain ⟨hp, hop⟩ := Bool.and_eq_true_iff.1 h
  obtain ⟨op, hop⟩ := Option.isSome_iff_exists.1 hop
  have hp : (expression c).cursor.panicking = false := by simpa using hp
  have hreport : report (expression c).value.targetDiagnostic (expression c).cursor.advance
      = ⟨(), [(expression c).value.targetDiagnostic], (expression c).cursor.advance⟩ := by
    simp [report, emit, panicking, look, hp]
  have hend : (targeted (expression c).value (expression c).cursor).trail
      = ((expression c).value.targetDiagnostic
        :: (assigned (expression c).cursor.advance).diagnostics,
          (assigned (expression c).cursor.advance).cursor) := by
    simp [targeted, panicking, look, advance, hp, hop, hfixed, hreport, Step.trail]
  obtain ⟨hdiagnostics, hcursor⟩ := Prod.mk.inj hend
  rw [trail_exprStmt, Step.trail, bind_apply, ← hdiagnostics, ← hcursor]

end Parse

end JavaPrimer
