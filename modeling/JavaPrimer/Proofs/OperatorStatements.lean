import JavaPrimer.Proofs.Places
import JavaPrimer.Proofs.StatementRun

/-!
# Statements that start with an operator

A statement that starts with an operator is an expression statement. It is complained about as the
right side of something would be, except for an assignment operator behind its expression: nothing
that starts with an operator can be assigned to. What is missing behind the operator is complained
about first; if nothing is missing there, all complaints but that about the assignment are about
what stands behind the next token.

* `Cursor.Before` — a place before tokens of a source, and what that says about the next place;
* `Parse.faultsFrom_assigned_iff` — the statement, and its expression as a right side;
* `Parse.faults_fails`, `Parse.faults_starts` — where no expression starts behind the operator, and
  where one starts;
* `Parse.span_expression`, `Parse.faultsFrom_expect_fails` — where complaints are shown.
-/

namespace JavaPrimer

/-! ### Before tokens of a source -/

/-- A place before some tokens of a source, the first of them `b`. -/
structure Cursor.Before (b : Token) (ts : List Token) (d : Cursor) : Prop where
  rest : d.rest = b :: ts
  stop : d.stop = Cursor.impliedEnd (b :: ts)
  calm : d.panicking = false
  spaced : Spaced (b :: ts)

namespace Cursor.Before

variable {b t : Token} {ts us : List Token} {d : Cursor}

theorem current (h : d.Before b ts) : d.current = b := current_cons h.rest

theorem rest_ne_nil (h : d.Before b ts) : d.rest ≠ [] := by
  rw [h.rest]
  exact List.cons_ne_nil b ts

theorem ended (h : d.Before b ts) : d.Ended := by
  rw [Ended, h.stop]
  rfl

theorem advance_eq (h : d.Before b ts) :
    d.advance = ⟨some b, ts, impliedEnd (b :: ts), (), false⟩ := by
  rw [advance_cons h.rest, ← h.stop, ← h.calm]
  rfl

theorem next (h : d.Before b (t :: us)) : d.advance.Before t us := by
  rw [h.advance_eq]
  refine ⟨rfl, ?_, rfl, h.spaced.sublist (List.sublist_cons_self b _)⟩
  rw [impliedEnd, impliedEnd, List.getLast?_cons_cons]

/-- Behind the first token all places are behind its start. -/
theorem ranged (h : d.Before b ts) : d.advance.Ranged (b.span.start < ·) := by
  rw [h.advance_eq]
  exact h.spaced.ranged rfl rfl rfl

theorem calm_advance (h : d.Before b ts) : d.advance.panicking = false :=
  (panicking_advance d).trans h.calm

theorem last_advance (h : d.Before b ts) : d.advance.last = some b := by rw [h.advance_eq]

theorem whole_advance (h : d.Before b ts) (hwhole : b.unterminated = false) :
    ∀ t ∈ d.advance.last, t.unterminated = false := by
  rw [h.last_advance]
  exact fun t ht => Option.some.inj ht ▸ hwhole

theorem current_advance (h : d.Before b ts) : d.advance.current = d.ahead 1 := by
  rw [h.advance_eq, Cursor.current, Cursor.ahead_short, Cursor.ahead_short, h.rest, h.stop]
  rfl

theorem exists_next (h : d.Before b ts) (hk : d.advance.kind ≠ .eof) :
    ∃ us, ts = d.advance.current :: us := by
  have hrest : d.advance.rest = ts := by rw [h.advance_eq]
  obtain ⟨us, hus⟩ := rest_eq_of_kind (Parse.ended_advance h.ended) hk
  exact ⟨us, hrest.symm.trans hus⟩

end Cursor.Before

theorem Expr.span_targetDiagnostic (e : Expr) : e.targetDiagnostic.span = e.span := rfl

namespace Parse

variable {b : Token} {ts : List Token} {c d : Cursor}

/-! ### The statement and its expression -/

/-- An operator in front changes nothing but the tree. -/
theorem trail_assigned_advance (hc : c.Ended) (hk : (UnaryOp.ofKind? c.kind).isSome) :
    (assigned c).trail = (assigned c.advance).trail := by
  obtain ⟨op, hop⟩ := Option.isSome_iff_exists.1 hk
  exact trail_bind (trail_expression_unary hc hop) trail_closed

/-- A statement that starts with an operator is an expression statement. -/
theorem trail_statement (hk : (UnaryOp.ofKind? d.kind).isSome) :
    (statement d).trail = (exprStmt d).trail := by
  have hkind : (d.kind == .ident) = false ∧ d.kind.startsVarDecl = false
      ∧ d.kind.startsExpression = true := by
    generalize d.kind = k at hk
    cases k <;> first | decide | exact nomatch hk
  obtain ⟨hident, hdecl, hexpr⟩ := hkind
  have hprint : d.startsPrint = false := by
    have hident : (d.current.kind == .ident) = false := hident
    simp [Cursor.startsPrint, Token.isWord, hident]
  rw [statement_eq, statementWith_apply, hident, hprint, hdecl, hexpr]
  exact trail_bind_pure exprStmt some d

section Operator

variable (h : d.Before b ts) (hk : (UnaryOp.ofKind? d.kind).isSome)

include h hk

theorem faults_exprStmt : faults d = faultsFrom d.rest.length exprStmt d :=
  (faults_eq h.rest_ne_nil).trans (faultsFrom_congr (trail_statement hk))

theorem trail_expression_advance : (expression d).trail = (expression d.advance).trail := by
  obtain ⟨op, hop⟩ := Option.isSome_iff_exists.1 hk
  exact trail_expression_unary h.ended hop

theorem fixedAt_first : FixedAt b.span.start (expression d).value := by
  obtain ⟨op, hop⟩ := Option.isSome_iff_exists.1 hk
  rw [← h.current]
  exact fixedAt_expression h.ended hop

omit h hk in
theorem faultsFrom_assigned (n : Nat) (d : Cursor) : faultsFrom n assigned d
    = (expression d).diagnostics
      ++ faultsFrom n (closed (expression d).value) (expression d).cursor := by
  rw [assigned_eq, faultsFrom, faultsFrom, bind_apply, List.append_assoc]

/-- The assignment to the expression is complained about, and then what is wrong behind it. -/
theorem faults_assigns (hassigns : d.assigns = true) : faults d = (expression d).diagnostics
    ++ (expression d).value.targetDiagnostic
      :: faultsFrom d.rest.length assigned (expression d).cursor.advance := by
  obtain ⟨hdiagnostics, hcursor⟩ :=
    Prod.mk.inj (trail_exprStmt_assigns hassigns (fixedAt_first h hk).fixed)
  rw [faults_exprStmt h hk, faultsFrom, hdiagnostics, hcursor, List.append_assoc]
  rfl

/-- An expression statement that starts with an operator, read as the right side of something: the
only difference is that nothing can be assigned to there. -/
theorem faultsFrom_assigned_iff {n : Nat} (hn : d.rest.length ≤ n) :
    faultsFrom n assigned d = faults d ↔ d.assigns = false := by
  have hreads := trail_expression_advance h hk
  cases hassigns : d.assigns with
  | false =>
    have hless : (assigned d).cursor.rest.length < d.rest.length := by
      have hle := forward_assigned.length_le d.advance
      rw [Cursor.rest_advance, h.rest, List.tail_cons] at hle
      rw [(Prod.mk.inj (trail_assigned_advance h.ended hk)).2, h.rest]
      exact Nat.lt_succ_of_le hle
    rw [faults_exprStmt h hk, faultsFrom_congr (trail_exprStmt_assigned hassigns),
      faultsFrom_of_lt hless (Nat.lt_of_lt_of_le hless hn)]
    simp
  | true =>
    -- whatever is complained about in the other reading stands behind the operator
    have hlater : ∀ x ∈ faultsFrom n (closed (expression d).value) (expression d).cursor,
        x.span.Ranged (b.span.start < ·) := by
      apply ranged_faultsFrom _ (keeps_closed _)
      rw [(Prod.mk.inj hreads).2]
      exact h.ranged.onward (forward_expression d.advance)
    simp only [Bool.true_eq_false, iff_false]
    intro heq
    rw [faultsFrom_assigned, faults_assigns h hk hassigns] at heq
    rw [List.append_cancel_left heq] at hlater
    have hlate : b.span.start < (expression d).value.targetDiagnostic.span.start :=
      (hlater _ List.mem_cons_self).start
    rw [Expr.span_targetDiagnostic, (fixedAt_first h hk).start] at hlate
    exact lt_irrefl _ hlate

/-- Where no expression starts behind the operator, that is complained about first. -/
theorem faults_fails (hwhole : b.unterminated = false)
    (hnone : d.advance.kind.startsExpression = false) : ∃ ds, faults d
      = (Complaint.expression d.advance.current).diagnostic d.advance :: ds := by
  have hfails := expression_fails (ended_advance h.ended) hnone h.calm_advance
    (h.whole_advance hwhole)
  obtain ⟨hdiagnostics, -⟩ := Prod.mk.inj (trail_exprStmt d)
  obtain ⟨hread, -⟩ := Prod.mk.inj (trail_expression_advance h hk)
  rw [faults_exprStmt h hk, faultsFrom, hdiagnostics, bind_apply, hread, hfails]
  exact ⟨_, rfl⟩

/-- Where an expression starts behind the operator, all complaints are about what stands behind its
first token, except for that about an assignment to the expression. -/
theorem faults_starts {t : Token} {us : List Token} (hts : ts = t :: us)
    (hstarts : t.kind.startsExpression = true) : ∀ x ∈ faults d,
      x = (expression d).value.targetDiagnostic ∨ x.span.Ranged (t.span.start < ·) := by
  subst hts
  have hnext : d.advance.Before t us := h.next
  have hstarts : d.advance.kind.startsExpression = true := by
    rw [Cursor.kind, hnext.current]
    exact hstarts
  obtain ⟨hdiagnostics, hcursor⟩ := Prod.mk.inj (trail_expression_advance h hk)
  obtain ⟨honward, hread⟩ := clears_expression hnext.ended hnext.ranged hstarts
  rw [← hdiagnostics] at hread
  rw [← hcursor] at honward
  have hranged := hnext.ranged.onward honward
  cases hassigns : d.assigns with
  | false =>
    have hown : faults d = faultsFrom d.rest.length assigned d :=
      (faults_exprStmt h hk).trans (faultsFrom_congr (trail_exprStmt_assigned hassigns))
    rw [hown, faultsFrom_assigned]
    refine fun x hx => .inr ?_
    rcases List.mem_append.1 hx with hx | hx
    · exact hread x hx
    · exact ranged_faultsFrom hranged (keeps_closed _) _ x hx
  | true =>
    rw [faults_assigns h hk hassigns]
    intro x hx
    rcases List.mem_append.1 hx with hx | hx
    · exact .inr (hread x hx)
    rcases List.mem_cons.1 hx with rfl | hx
    · exact .inl rfl
    · exact .inr (ranged_faultsFrom (hranged.onward (Cursor.onward_advance _))
        (keeps_assigned.mono fun _ _ => trivial) _ x hx)

end Operator

/-! ### Where complaints are shown -/

theorem start_span (x : Complaint) {q : Token} (hq : c.last = some q) :
    (x.span c).start = q.span.stop ∨ (x.span c).start = c.current.span.start := by
  rw [Complaint.span, hq]
  dsimp only
  split
  · exact .inl rfl
  · exact .inr rfl

theorem category_expression (t : Token) :
    (Complaint.expression t).category = .invalidAssignmentTarget
      ∨ (Complaint.expression t).category = .generalSyntax := by
  have hsemi : (Complaint.expression t).expected.contains (";" : Text) = false := rfl
  have hbrace : (Complaint.expression t).expected.contains ("\x7d" : Text) = false := rfl
  have hparen : (Complaint.expression t).expected.contains (")" : Text) = false := rfl
  have htype : (Complaint.expression t).expected.contains ("type" : Text) = false := rfl
  have hsome : (Complaint.expression t).expected.isEmpty = false := rfl
  simp only [Complaint.category, classify, hsemi, hbrace, hparen, htype, hsome, Bool.false_eq_true,
    if_false]
  split
  · exact .inl rfl
  · exact .inr rfl

/-- A complaint about an expression is shown where none starts. -/
theorem span_expression (t : Token) (c : Cursor) :
    ((Complaint.expression t).span c) = c.current.span := by
  have hcloser : Complaint.closerCategories.contains (Complaint.expression t).category = false := by
    rcases category_expression t with h | h <;> rw [h] <;> rfl
  rw [Complaint.span, hcloser]
  split <;> rfl

/-- A semicolon that is missing is complained about first. -/
theorem faultsFrom_expect_fails (hp : c.panicking = false)
    (hl : ∀ t ∈ c.last, t.unterminated = false) (hk : c.kind ≠ .semi) (n : Nat) :
    ∃ ds, faultsFrom n (expect .semi) c = (Complaint.token .semi c.current).diagnostic c :: ds := by
  have htrail := (trail_expect_fails hk).trans (congrArg Step.trail (fail_quiet _ hp hl))
  rw [faultsFrom, (Prod.mk.inj htrail).1]
  exact ⟨_, rfl⟩

theorem ranged_faultsFrom_expect {P : Position → Prop} (hk : c.kind = .semi)
    (hc : c.advance.Ranged P) (n : Nat) :
    ∀ x ∈ faultsFrom n (expect .semi) c, x.span.Ranged P := by
  rw [faultsFrom, expect_eq_advance hk, List.nil_append]
  exact ranged_faults (hc.onward (onward_resume n _))

end Parse

end JavaPrimer
