import JavaPrimer.Proofs.BraceMatching
import JavaPrimer.Proofs.OmittedSemicolon
import JavaPrimer.Proofs.ReadBackTree

/-!
# A semicolon that was forgotten

If nothing but its semicolon is missing from a statement, and the next statement starts on a line of
its own, the semicolon is reported once, right behind the last token of the statement. The statement
is kept, and the next one is read as if nothing stood in front of it.

* `Stmt.endingAt` — a statement whose span ends elsewhere;
* `Omission.Lacks` — the second run does what the first one does, and then misses the semicolon;
* `Omission.lacks_varDecl`, `Omission.lacks_printStmt`, `Omission.lacks_exprStmt`,
  `Omission.lacks_statement` — statements;
* `Omission.resume_lost`, `Omission.recovering_lacking` — the recovery;
* `parseStatements_forgotten_semicolon` — whole lists of tokens.
-/

namespace JavaPrimer

/-- A statement whose span ends at another place. -/
def Stmt.endingAt (p : Position) : Stmt → Stmt
  | .block s stmts => .block ⟨s.start, p⟩ stmts
  | .varDecl s isFinal type name init => .varDecl ⟨s.start, p⟩ isFinal type name init
  | .print s method arg => .print ⟨s.start, p⟩ method arg
  | .expr s target op mark value => .expr ⟨s.start, p⟩ target op mark value
  | .missing => .missing

namespace Omission

open Parse

variable {O : Omission} {α β : Type} {m n : Nat} {c d : Cursor}
variable {V : α → α → Prop} {W : β → β → Prop}

/-! ### The report -/

/-- What is reported where the semicolon should be. -/
def report (O : Omission) : Diagnostic :=
  (Complaint.token .semi O.after.current).diagnostic O.after

theorem category_report (O : Omission) : O.report.category = .missingSemicolon := rfl

/-- The report stands right behind the last token in front of the semicolon. -/
theorem span_report (O : Omission) : O.report.span = .point O.before.span.stop := by
  refine span_of_closer (c := O.after) (x := .token .semi O.after.current) rfl rfl ?_
  rcases O.after_cases with ⟨-, hk⟩ | ⟨-, -, hline⟩
  · exact .inl hk
  · exact .inr hline

/-! ### The rules -/

/-- Where the second run stands with the report behind it. -/
abbrev lost (O : Omission) : Cursor := { O.after with panicking := true }

/-- Two outcomes, the second of which misses the semicolon. -/
structure Lack (O : Omission) (V : α → α → Prop) (s t : Step .short α) : Prop where
  value : V s.value t.value
  diagnostics : t.diagnostics = [O.report]
  cursor : t.cursor = O.lost

/-- If a run of `p` from the first place reports nothing, there is no panic after it. If it also
takes all tokens, a run from the second place misses the semicolon and nothing else. -/
abbrev Lacks (O : Omission) (V : α → α → Prop) (p : Parse .short α) (c d : Cursor) : Prop :=
  Quietly (fun s t => s.cursor.panicking = false ∧ (s.cursor.rest = [] → O.Lack V s t)) p c d

theorem Follows.lacks_bind {p : Parse .short α} {f : α → Parse .short β} (hp : O.Follows m p c d)
    (hf : ∀ a c' d', O.Places m c' d' → O.Lacks W (f a) c' d') : O.Lacks W (p >>= f) c d := by
  intro hd
  rw [bind_apply] at hd
  obtain ⟨hd₁, hd₂⟩ := List.append_eq_nil_iff.1 hd
  have hfirst := hp hd₁
  have hsecond := hf _ _ _ hfirst.cursor hd₂
  rw [bind_apply, bind_apply, hfirst.value, hfirst.diagnostics, hd₁]
  exact hsecond

theorem Quietly.lacks_bind_pure {p : Parse .short α} {g : α → β} (hp : O.Lacks V p c d)
    (hg : ∀ a b, V a b → W (g a) (g b)) : O.Lacks W (p >>= fun a => Pure.pure (g a)) c d := by
  intro hd
  rw [bind_apply] at hd
  obtain ⟨hquiet, hlack⟩ := hp (List.append_eq_nil_iff.1 hd).1
  rw [bind_apply, bind_apply]
  refine ⟨hquiet, fun hrest => ⟨hg _ _ (hlack hrest).value, ?_, (hlack hrest).cursor⟩⟩
  show (p d).diagnostics ++ [] = _
  rw [List.append_nil]
  exact (hlack hrest).diagnostics

/-- With the semicolon still ahead the first run has not taken all tokens. -/
theorem lacks_pure (hc : O.Places n c d) (a : α) : O.Lacks V (Pure.pure a) c d := by
  intro _
  exact ⟨hc.steady.quiet, fun hrest => absurd hrest hc.rest_ne_nil⟩

/-- The semicolon that the first run finds behind all tokens is missing from the second run. -/
theorem lacks_expect_semi (hc : O.Places n c d) :
    O.Lacks (fun _ _ => True) (expect .semi) c d := by
  by_cases hk : c.kind = .semi
  · intro _
    rw [expect_eq_advance hk]
    refine ⟨(Cursor.panicking_advance c).trans hc.steady.quiet, fun hrest => ?_⟩
    rcases hc.cases_ahead with ⟨-, rfl⟩ | ⟨t, us, hts, -⟩
    · have hne : O.after.current.kind ≠ .semi := O.kind_after_ne_semi
      have hfail := fail_quiet (.token .semi O.after.current) rfl O.steady_after.last
      have hexpect : expect .semi O.after
          = (fail (.token .semi O.after.current) >>= fun _ => Pure.pure false) O.after := by
        rw [expect, look_bind_apply, if_neg hne]
      rw [hexpect, bind_apply, hfail]
      exact ⟨trivial, rfl, rfl⟩
    · -- a semicolon further in front: the first run has not taken all tokens
      rw [Cursor.rest_advance, hts] at hrest
      exact absurd hrest (List.append_ne_nil_of_right_ne_nil us (List.cons_ne_nil O.semi []))
  · exact quietly_of_complains (complains_expect hc.steady hk)

/-- The semicolon at the end, and then a value. -/
theorem lacks_closed (hc : O.Places n c d) {b : β} (hb : W b b) :
    O.Lacks W (expect .semi >>= fun _ => Pure.pure b) c d :=
  (lacks_expect_semi hc).lacks_bind_pure fun _ _ _ => hb

/-! ### Parts of declarations -/

/-- No type starts with a semicolon. -/
theorem complains_typeSpec_semi (hc : c.Steady) (hk : c.kind = .semi) : Complains typeSpec c := by
  have hword : c.current.kind.isTypeWord = false := by
    rw [show c.current.kind = .semi from hk]
    rfl
  apply complains_look_bind
  rw [hword]
  exact (complains_fail hc _).bind

theorem follows_typeSpec (hc : O.Places n c d) : O.Follows n typeSpec c d := by
  by_cases hk : c.kind = .semi
  · exact quietly_of_complains (complains_typeSpec_semi hc.steady hk)
  refine quietly_look_bind (hc.current hk) (quietly_ite (fun _ => ?_) fun _ => ?_)
  · refine follows_spanned hc hk (quietly_advance_bind hc hk fun h₁ => ?_)
    have hbracket : (d.advance.kind == .lbracket) = (c.advance.kind == .lbracket) :=
      h₁.test (· == .lbracket) (by decide)
    refine quietly_look_bind hbracket (quietly_ite (fun hopen => ?_) fun _ => ?_)
    · refine quietly_advance_bind h₁ (by simp [beq_iff_eq.1 hopen]) fun h₂ => ?_
      refine quietly_expect_bind h₂ (by decide) fun h₃ => ?_
      exact follows_pure (h₃.mono (by omega)) _
    · exact follows_pure (h₁.mono (by omega)) _
  · exact quietly_of_complains (complains_fail hc.steady _).bind

theorem lacks_assigned (hc : O.Places n c d) : O.Lacks Eq assigned c d := by
  refine (follows_expression hc).lacks_bind fun value c₁ d₁ h₁ => ?_
  exact quietly_panicking_bind h₁ (lacks_closed h₁ rfl)

theorem lacks_initialized (hc : O.Places n c d) : O.Lacks Eq initialized c d := by
  have hequals : (d.kind == .equals) = (c.kind == .equals) := hc.test (· == .equals) (by decide)
  refine quietly_look_bind hequals (quietly_ite (fun hk => ?_) fun _ => ?_)
  · exact quietly_advance_bind hc (by simp [beq_iff_eq.1 hk]) fun h₁ => lacks_assigned h₁
  · exact lacks_closed hc rfl

theorem follows_finalMark (hc : O.Places n c d) (hk : c.kind ≠ .semi) :
    O.Follows n finalMark c d := by
  have hfinal : (d.kind == .kwFinal) = (c.kind == .kwFinal) := by rw [hc.kind hk]
  refine quietly_look_bind hfinal (quietly_ite (fun _ => ?_) fun _ => follows_pure hc false)
  exact quietly_advance_bind hc hk fun h₁ => follows_pure (h₁.mono (Nat.sub_le n 1)) true

/-! ### Statements that hold expressions -/

/-- Two nodes are the same, and where the span ends is no part of anything but the span. -/
def SameNode (build build' : Span → Stmt) : Prop :=
  build' = build ∧ ∀ s p, build ⟨s.start, p⟩ = (build s).endingAt p

/-- The same statement, but for the end of its span. -/
def SameStart (x y : Stmt) : Prop := ∃ p, y = x.endingAt p

theorem start_spanSince (s : Span) (c : Cursor) : (c.spanSince s).start = s.start := by
  unfold Cursor.spanSince
  split
  · split <;> rfl
  · rfl

theorem lacks_spanned {node : Parse .short (Span → Stmt)} (hc : O.Places n c d)
    (hk : c.kind ≠ .semi)
    (h : O.Lacks SameNode node c d) : O.Lacks SameStart (spanned node) c d := by
  intro hd
  have happly : ∀ e : Cursor, spanned node e
      = ⟨(node e).value ((node e).cursor.spanSince e.current.span), (node e).diagnostics,
          (node e).cursor⟩ := by
    intro e
    simp [spanned, look]
  rw [happly] at hd
  obtain ⟨hquiet, hlack⟩ := h hd
  rw [happly, happly]
  refine ⟨hquiet, fun hrest => ?_⟩
  obtain ⟨⟨hsame, hspan⟩, hreport, hcursor⟩ := hlack hrest
  rw [hsame, hc.current hk]
  refine ⟨⟨((node d).cursor.spanSince c.current.span).stop, ?_⟩, hreport, hcursor⟩
  rw [← hspan, start_spanSince, ← start_spanSince c.current.span (node d).cursor]

theorem lacks_varDecl (hc : O.Places n c d) (hk : c.kind ≠ .semi) :
    O.Lacks SameStart varDecl c d := by
  refine lacks_spanned hc hk ((follows_finalMark hc hk).lacks_bind fun isFinal c₁ d₁ h₁ => ?_)
  refine (follows_typeSpec h₁).lacks_bind fun type c₂ d₂ h₂ => ?_
  cases type with
  | none => exact lacks_pure h₂ _
  | some type =>
    refine quietly_expectIdent_bind h₂ fun h₃ => ?_
    refine (lacks_initialized h₃).lacks_bind_pure ?_
    rintro init _ rfl
    exact ⟨rfl, fun _ _ => rfl⟩

theorem quietly_expectWord_bind {Y : Step .short β → Step .short β → Prop} {words : List Text}
    {f : Ident × Bool → Parse .short β} (hc : O.Places n c d)
    (h : O.Places (n - 1) c.advance d.advance →
      Quietly Y (f (⟨c.current.value, c.current.span⟩, true)) c.advance d.advance) :
    Quietly Y (expectWord words >>= f) c d := by
  by_cases hword : c.current.kind = .ident ∧ words.contains c.current.value = true
  · have hk : c.kind ≠ .semi := by
      intro hk
      rw [show c.current.kind = .semi from hk] at hword
      cases hword.1
    have happly : ∀ e : Cursor, e.current = c.current →
        expectWord words e = ⟨(⟨c.current.value, c.current.span⟩, true), [], e.advance⟩ := by
      intro e he
      rw [expectWord, look_bind_apply, he, if_pos hword]
      rfl
    intro hd
    rw [bind_of_apply (happly c rfl)] at hd ⊢
    rw [bind_of_apply (happly d (hc.current hk))]
    exact h (hc.advance hk) hd
  · have hnone : Complains (expectWord words) c := by
      apply complains_look_bind
      rw [if_neg hword]
      exact (complains_fail hc.steady _).bind
    exact quietly_of_complains hnone.bind

theorem printArgument_none (hk : c.kind.startsExpression = false) :
    printArgument c = ⟨.missing, [], c⟩ := by
  rw [printArgument, look_bind_apply, hk, if_neg Bool.false_ne_true]
  rfl

theorem lacks_printStmt (hc : O.Places n c d) (hs : c.startsPrint = true) :
    O.Lacks SameStart printStmt c d := by
  -- the lookahead has seen that none of the four tokens consumed is the semicolon
  rw [Cursor.startsPrint_meets] at hs
  simp only [Cursor.meets, Bool.and_eq_true, beq_iff_eq, and_true] at hs
  obtain ⟨h₀, h₁, h₂, h₃⟩ := hs
  have k₀ : c.kind ≠ .semi := Cursor.ne_semi_of_isWord h₀
  have k₁ : c.advance.kind ≠ .semi := by
    rw [show c.advance.kind = .dot from h₁]
    decide
  have k₃ : c.advance.advance.advance.kind ≠ .semi := by
    rw [show c.advance.advance.advance.kind = .dot from h₃]
    decide
  refine lacks_spanned hc k₀ (quietly_advance_bind hc k₀ fun b₁ => ?_)
  refine quietly_advance_bind b₁ k₁ fun b₂ => ?_
  refine quietly_advance_bind b₂ (Cursor.ne_semi_of_isWord h₂) fun b₃ => ?_
  refine quietly_advance_bind b₃ k₃ fun b₄ => ?_
  refine quietly_expectWord_bind b₄ fun b₅ => ?_
  refine quietly_expect_bind b₅ (by decide) fun b₆ => ?_
  -- an argument has to be followed by a parenthesis, so it does not start at the semicolon
  by_cases hk : c.advance.advance.advance.advance.advance.advance.kind = .semi
  · have hnone := printArgument_none (c := c.advance.advance.advance.advance.advance.advance)
      (by rw [hk]; rfl)
    exact quietly_of_apply_bind hnone (complains_closing b₆.steady hk)
  · have harg : O.Follows _ printArgument _ _ :=
      quietly_look_bind (congrArg Kind.startsExpression (b₆.kind hk))
        (quietly_ite (fun _ => follows_expression b₆) fun _ => follows_pure b₆ Expr.missing)
    refine harg.lacks_bind fun arg c₇ d₇ b₇ => quietly_panicking_bind b₇ ?_
    refine quietly_expect_bind b₇ (by decide) fun b₈ => ?_
    exact lacks_closed b₈ ⟨rfl, fun _ _ => rfl⟩

theorem lacks_exprStmt (hc : O.Places n c d) : O.Lacks SameStart exprStmt c d := by
  by_cases hk : c.kind = .semi
  · exact quietly_of_complains (complains_spanned (complains_expression_semi hc.steady hk).bind)
  refine lacks_spanned hc hk ((follows_expression hc).lacks_bind fun target c₁ d₁ h₁ => ?_)
  have hop : AssignOp.ofKind? d₁.kind = AssignOp.ofKind? c₁.kind := by
    exact h₁.test AssignOp.ofKind? (by decide)
  refine quietly_panicking_bind h₁ (quietly_look_bind hop ?_)
  cases hval : AssignOp.ofKind? c₁.kind with
  | none => exact lacks_closed h₁ ⟨rfl, fun _ _ => rfl⟩
  | some op =>
    have hsemi : c₁.kind ≠ .semi := by
      intro hk
      rw [hk] at hval
      cases hval
    refine quietly_advance_bind h₁ hsemi fun h₂ => quietly_ite (fun _ => ?_) fun _ => ?_
    · refine (lacks_assigned h₂).lacks_bind_pure ?_
      rintro value _ rfl
      exact ⟨rfl, fun _ _ => rfl⟩
    · exact quietly_of_complains (complains_report h₂.steady _).bind

/-! ### Statements -/

/-- A point with no name behind it is reported, here behind the first name of a statement. -/
theorem complains_exprStmt_dot (hc : O.Places n c d) (hk : c.kind = .ident)
    (hdot : c.advance.kind = .dot) (hsemi : c.advance.advance.kind = .semi) :
    Complains exprStmt c := by
  have hc₁ := hc.advance (by rw [hk]; decide)
  have hc₂ := hc₁.advance (by rw [hdot]; decide)
  have hfield : Complains fieldSelector c.advance :=
    complains_advance_bind (complains_expectIdent hc₂.steady (by rw [hsemi]; decide)).bind
  have hselector : Complains (selector (climb operand tiers)) c.advance := by
    refine complains_panicking_bind hc₁.steady (complains_look_bind ?_)
    rw [hdot]
    exact hfield
  have hselectors : Complains (untilNone (selector (climb operand tiers))) c.advance :=
    hselector.bind
  have hprimary : Complains (primary (climb operand tiers)) c := by
    refine complains_congr (primary_apply _ c) ?_
    rw [hk]
    exact complains_spanned (complains_advance_bind hselectors.bind)
  have hoperand : Complains operand c :=
    complains_congr (operand_eq_stepped hc.ended (by rw [hk]; rfl) (by rw [hk]; decide))
      hprimary.bind
  have hexpression : Complains expression c := by
    refine complains_congr (expression_eq hc.ended) ?_
    rw [climb_eq_joined]
    exact hoperand.bind
  exact complains_spanned hexpression.bind

/-- A print statement is seen in both runs or in neither, unless the first one has to complain. -/
theorem Places.startsPrint_cases (h : O.Places n c d) (hk : c.kind ≠ .semi) :
    d.startsPrint = c.startsPrint
      ∨ c.kind = .ident ∧ c.advance.kind = .dot ∧ c.advance.advance.kind = .semi := by
  rw [Cursor.startsPrint_meets, Cursor.startsPrint_meets]
  simp only [Cursor.meets, h.current hk]
  cases h₀ : c.current.isWord "System" with
  | false => exact .inl rfl
  | true =>
    have b₁ := h.advance hk
    have hdot : (d.advance.current.kind == .dot) = (c.advance.current.kind == .dot) :=
      b₁.test (· == .dot) (by decide)
    rw [hdot]
    cases h₁ : c.advance.current.kind == .dot with
    | false => exact .inl rfl
    | true =>
      have hkind : c.advance.kind = .dot := beq_iff_eq.1 h₁
      have b₂ := b₁.advance (by rw [hkind]; decide)
      by_cases k₂ : c.advance.advance.kind = .semi
      · have hident : c.kind = .ident := by
          simp only [Token.isWord, Bool.and_eq_true, beq_iff_eq] at h₀
          exact h₀.1
        exact .inr ⟨hident, hkind, k₂⟩
      · have hlast : (d.advance.advance.advance.current.kind == .dot)
            = (c.advance.advance.advance.current.kind == .dot) :=
          (b₂.advance k₂).test (· == .dot) (by decide)
        rw [b₂.current k₂, hlast]
        exact .inl rfl

/-- Two names one after the other are seen in both runs or in neither, unless the second run has
the second name instead of the semicolon. -/
theorem Places.pair (h : O.Places n c d) (hk : c.kind ≠ .semi)
    (hlone : c.kind = .ident → c.advance.rest = [O.semi] → O.after.kind ≠ .ident) :
    (d.kind == .ident && (d.ahead 1).kind == .ident)
      = (c.kind == .ident && (c.ahead 1).kind == .ident) := by
  rw [h.kind hk, ← Cursor.ahead_advance, ← Cursor.ahead_advance]
  by_cases hident : c.kind = .ident
  · have hsecond : (d.advance.kind == .ident) = (c.advance.kind == .ident) := by
      rcases (h.advance hk).cases_ahead with ⟨hrest, hd⟩ | ⟨t, us, hc, hd, -, -⟩
      · rw [hd, beq_eq_false_iff_ne.2 (hlone hident hrest), Places.kind_semi hrest]
        rfl
      · rw [Cursor.kind, Cursor.kind, Cursor.current_cons hc, Cursor.current_cons hd]
    exact congrArg (c.kind == .ident && ·) hsecond
  · rw [beq_eq_false_iff_ne.2 hident, Bool.false_and, Bool.false_and]

theorem Quietly.lacks_map {p : Parse .short α} {g : α → β} (hp : O.Lacks V p c d)
    (hg : ∀ a b, V a b → W (g a) (g b)) : O.Lacks W (g <$> p) c d := by
  intro hd
  rw [map_apply] at hd
  obtain ⟨hquiet, hlack⟩ := hp hd
  rw [map_apply, map_apply]
  exact ⟨hquiet, fun hrest =>
    ⟨hg _ _ (hlack hrest).value, (hlack hrest).diagnostics, (hlack hrest).cursor⟩⟩

/-- No statement starts with a semicolon. -/
theorem complains_statement_semi (hc : c.Steady) (hk : c.kind = .semi) : Complains statement c := by
  refine complains_congr (statementWith_apply (statementWithin c.rest.length) c) ?_
  rw [startsPrint_of_kind (by rw [hk]; decide), hk]
  exact (complains_fail hc _).bind

/-- A statement that is no block. With a name alone in front of the semicolon, no name may follow in
the second run: two names are taken for a declaration with a misspelled type. -/
theorem lacks_statement (hc : O.Places n c d) (hbrace : c.kind ≠ .lbrace)
    (hlone : c.kind = .ident → c.advance.rest = [O.semi] → O.after.kind ≠ .ident) :
    O.Lacks (Option.Rel SameStart) statement c d := by
  have hsome : ∀ {p : Parse .short Stmt}, O.Lacks SameStart p c d →
      O.Lacks (Option.Rel SameStart) (some <$> p) c d :=
    fun hp => Quietly.lacks_map hp fun _ _ hab => .some hab
  by_cases hk : c.kind = .semi
  · exact quietly_of_complains (complains_statement_semi hc.steady hk)
  have hunfold := (ends_statement (ρ := .short)).unfolds
  refine quietly_congr (hunfold c hc.ended).symm (hunfold d hc.ended_second).symm ?_
  have hpair := hc.pair hk hlone
  rcases hc.startsPrint_cases hk with hprint | ⟨hident, hdot, hsemi⟩
  · have hd : statementWith statement d = _ := statementWith_apply statement d
    rw [hpair, hprint, hc.kind hk, hc.current hk] at hd
    refine quietly_congr (statementWith_apply statement c) hd ?_
    refine quietly_ite (fun _ => ?_) fun _ => quietly_ite (fun hs => ?_) fun _ =>
      quietly_ite (fun _ => ?_) fun _ => quietly_ite (fun _ => ?_) fun _ =>
      quietly_ite (fun h => ?_) fun _ => ?_
    · exact quietly_of_complains (complains_fail hc.steady _).bind
    · exact hsome (lacks_printStmt hc hs)
    · exact hsome (lacks_varDecl hc hk)
    · exact hsome (lacks_exprStmt hc)
    · exact absurd (beq_iff_eq.1 h) hbrace
    · exact quietly_of_complains (complains_fail hc.steady _).bind
  · -- the second run may see a print statement here, but the first one has to complain
    have hone : (c.ahead 1).kind = .dot := by
      rw [← Cursor.ahead_advance]
      exact hdot
    have htwo : (c.ahead 2).kind = .semi := by
      rw [← Cursor.ahead_advance, ← Cursor.ahead_advance]
      exact hsemi
    have hprint : c.startsPrint = false := by
      simp [Cursor.startsPrint, Token.isWord, show (c.ahead 2).kind = .semi from htwo]
    refine quietly_of_complains (complains_congr (statementWith_apply statement c) ?_)
    rw [hone, hident, hprint]
    exact (complains_exprStmt_dot hc hident hdot hsemi).map

/-! ### Recovery -/

/-- The recovery from the report stays where it is: nothing is left to skip, or a statement starts
on a line of its own. -/
theorem endStatement_lost {start : Nat} (hstart : O.behind.length < start) :
    O.lost.endStatement start = O.lost := by
  have hpast : O.lost.past .semi = O.lost := if_neg O.kind_after_ne_semi
  have hskip : O.lost.skipTo (Cursor.haltsStatement start) = O.lost := by
    rcases O.after_cases with ⟨hnil, -⟩ | ⟨hne, hk, hline⟩
    · exact Cursor.skipTo_of_nil _ hnil
    · refine Cursor.skipTo_of_halt hne ?_
      have hstarts : ∀ k ∈ freshStarts, k.startsStatement = true := by decide
      have hfresh : (decide (O.behind.length < start) && (O.lost.atFreshStart
          || (O.after.atLineStart && O.after.kind.startsStatement))) = true := by
        rw [hline, hstarts _ hk, decide_eq_true hstart, Bool.and_self, Bool.or_true, Bool.and_self]
      exact Bool.or_eq_true_iff.2 (.inr hfresh)
  rw [Cursor.endStatement, hskip, hpast, ite_self]

theorem resume_lost {start : Nat} (hstart : O.behind.length < start) :
    resume start O.lost = O.after := by
  have hsettle : (settle Cursor.endStatement start O.lost).cursor = O.after := by
    simp only [settle, move, if_true, endStatement_lost hstart]
    rfl
  rw [resume, hsettle]
  exact if_neg (Nat.ne_of_lt hstart)

theorem Lack.recovering {V : Option Stmt → Option Stmt → Prop} {s : Step .short (Option Stmt)}
    (h : O.Lack V s (statement d)) (hstart : O.behind.length < d.rest.length) :
    recovering Cursor.endStatement statement d = ⟨(statement d).value, [O.report], O.after⟩ := by
  rw [recovering_apply, h.diagnostics, h.cursor]
  exact congrArg (Step.mk _ _) (resume_lost hstart)

/-! ### One statement -/

/-- A statement about which nothing is reported is there. -/
theorem exists_of_statement (hc : c.Steady) (hd : (statement c).diagnostics = []) :
    ∃ x, (statement c).value = some x := by
  have happly := statementWith_apply (statementWithin c.rest.length) c
  rw [← statement_eq] at happly
  have hfail : ∀ x : Complaint, statement c ≠ (fail x >>= fun _ => Pure.pure none) c := by
    intro x hx
    rw [hx] at hd
    exact (complains_fail hc x).bind hd
  have hmap : ∀ p : Parse .short Stmt, statement c = (some <$> p) c →
      ∃ x, (statement c).value = some x :=
    fun p hp => ⟨_, congrArg Step.value (hp.trans (map_apply ..))⟩
  split at happly
  · exact absurd happly (hfail _)
  split at happly
  · exact hmap _ happly
  split at happly
  · exact hmap _ happly
  split at happly
  · exact hmap _ happly
  split at happly
  · exact ⟨_, congrArg Step.value happly⟩
  · exact absurd happly (hfail _)

/-- A statement that starts with a brace is a block. -/
theorem ne_lbrace_of_statement {x : Stmt} (hx : (statement c).value = some x)
    (hblock : x.isBlock = false) : c.kind ≠ .lbrace := by
  intro hk
  rw [statement_eq, statementWith_apply, startsPrint_of_kind (by rw [hk]; decide), hk] at hx
  cases hx
  cases hblock

/-- If no panic is left after a construct, it is not its recovery that takes the last of two or more
tokens. -/
theorem rest_of_recovering {skip : Nat → Cursor → Cursor} {item : Parse .short α}
    (hmore : 1 < c.rest.length) (hquiet : (item c).cursor.panicking = false)
    (hend : (recovering skip item c).cursor.rest = []) : (item c).cursor.rest = [] := by
  by_cases hstays : (item c).cursor.rest.length = c.rest.length
  · rw [recovering_apply] at hend
    simp only [settle, move, hquiet, nudge, hstays, Bool.false_eq_true, if_false, if_true] at hend
    rw [Cursor.rest_advance] at hend
    have hlength := congrArg List.length hend
    rw [List.length_tail, hstays, List.length_nil] at hlength
    omega
  · rw [recovering_apply] at hend
    simpa only [settle, move, hquiet, nudge, hstays, Bool.false_eq_true, if_false] using hend

/-- As long as the last of some tokens is ahead, none of those consumed is cut off. -/
theorem steady_onward {e : Cursor} {us : List Token} {q : Token} (hc : c.Steady)
    (hrest : c.rest = us ++ [q]) (hus : ∀ t ∈ us, t.unterminated = false) (h : c.Onward e)
    (hquiet : e.panicking = false) (hne : e.rest ≠ []) : e.Steady := by
  obtain ⟨ts, hts⟩ := h.consumed
  refine ⟨hquiet, fun t ht => ?_, (congrArg Token.kind h.stop).trans hc.stop⟩
  have hfront : ∃ vs, us = ts ++ vs := by
    obtain ⟨vs, v, hv⟩ := (List.eq_nil_or_concat' e.rest).resolve_left hne
    have hall : us ++ [q] = ts ++ vs ++ [v] := by
      rw [← hrest, hts.rest, hv, List.append_assoc]
    exact ⟨vs, List.append_inj_left' hall rfl⟩
  obtain ⟨vs, rfl⟩ := hfront
  rw [hts.last] at ht
  rcases Option.or_eq_some_iff.1 ht with hmem | ⟨-, hmem⟩
  · exact hus t (List.mem_append_left vs (List.mem_of_getLast? hmem))
  · exact hc.last t hmem

/-- A run over statements that reports nothing finds a statement first. -/
theorem statementsWithin_clean (hc : c.Steady) (hne : c.rest ≠ [])
    (hd : (statementsWithin (n + 1) c).diagnostics = []) :
    ∃ x, (statement c).diagnostics = [] ∧ (statement c).value = some x
      ∧ (statementsWithin (n + 1) c).value
        = x :: (statementsWithin n (recovering Cursor.endStatement statement c).cursor).value
      ∧ (statementsWithin n (recovering Cursor.endStatement statement c).cursor).diagnostics
        = [] := by
  rw [statementsWithin_succ hne] at hd ⊢
  obtain ⟨hfirst, hmore⟩ := List.append_eq_nil_iff.1 hd
  have hclean : (statement c).diagnostics = [] := by
    rw [recovering_apply] at hfirst
    exact hfirst
  obtain ⟨x, hx⟩ := exists_of_statement hc hclean
  have hvalue : (recovering Cursor.endStatement statement c).value = some x := by
    rw [recovering_apply]
    exact hx
  refine ⟨x, hclean, hx, ?_, (List.append_eq_nil_iff.1 hmore).1⟩
  simp only [bind_apply, pure_apply, hvalue, Option.toList_some, List.singleton_append]

/-- If one statement is found in all tokens and nothing is reported, it is the first one, and no
token is left behind it. -/
theorem statement_of_singleton {us : List Token} {q : Token} {x : Stmt} (hc : c.Steady)
    (hrest : c.rest = us ++ [q]) (hus : ∀ t ∈ us, t.unterminated = false) (hn : c.rest.length ≤ n)
    (hd : (statementsWithin n c).diagnostics = []) (hx : (statementsWithin n c).value = [x]) :
    (statement c).diagnostics = [] ∧ (statement c).value = some x
      ∧ (recovering Cursor.endStatement statement c).cursor.rest = [] := by
  have hne : c.rest ≠ [] := by
    rw [hrest]
    exact List.append_ne_nil_of_right_ne_nil us (List.cons_ne_nil q [])
  have hpos := List.length_pos_iff.2 hne
  obtain ⟨m, rfl⟩ : ∃ m, n = m + 1 := ⟨n - 1, by omega⟩
  obtain ⟨y, hclean, hy, hvalue, hd'⟩ := statementsWithin_clean hc hne hd
  rw [hvalue] at hx
  obtain ⟨rfl, hnil⟩ := List.cons.inj hx
  refine ⟨hclean, hy, ?_⟩
  -- a second statement would be found in what is left
  by_contra hleft
  have hless := recovering_statement_lt hne
  have hlong := List.length_pos_iff.2 hleft
  obtain ⟨k, rfl⟩ : ∃ k, m = k + 1 := ⟨m - 1, by omega⟩
  have hsteady := steady_onward hc hrest hus
    (forward_recovering Cursor.endStatement_skips forward_statement c)
    (panicking_recovering _ _ c) hleft
  obtain ⟨z, -, -, hsecond, -⟩ := statementsWithin_clean hsteady hleft hd'
  rw [hsecond] at hnil
  cases hnil

/-! ### The two runs -/

/-- The first run finds one statement that ends in the semicolon, and the second one finds it, too,
reports the semicolon and goes on right there. -/
theorem recovering_lacking {x : Stmt} (hc : O.Places n c d) (hmore : 1 < c.rest.length)
    (hlone : c.kind = .ident → c.advance.rest = [O.semi] → O.after.kind ≠ .ident)
    (hd : (statementsWithin n c).diagnostics = []) (hx : (statementsWithin n c).value = [x])
    (hblock : x.isBlock = false) :
    ∃ p, recovering Cursor.endStatement statement d
      = ⟨some (x.endingAt p), [O.report], O.after⟩ := by
  obtain ⟨us, hrest, hrest', -, hus⟩ := hc.shared
  obtain ⟨hclean, hvalue, hend⟩ :=
    statement_of_singleton hc.steady hrest hus hc.fewer hd hx
  obtain ⟨hquiet, hlack⟩ :=
    lacks_statement hc (ne_lbrace_of_statement hvalue hblock) hlone hclean
  have hlack := hlack (rest_of_recovering hmore hquiet hend)
  have hlonger : O.behind.length < d.rest.length := by
    rw [hrest, List.length_append, List.length_singleton] at hmore
    rw [hrest', List.length_append]
    omega
  have hsame := hlack.value
  rw [hvalue] at hsame
  obtain ⟨p, hp⟩ : ∃ p, (statement d).value = some (x.endingAt p) := by
    generalize (statement d).value = y at hsame
    cases hsame with
    | some h =>
      obtain ⟨p, rfl⟩ := h
      exact ⟨p, rfl⟩
  exact ⟨p, by rw [hlack.recovering hlonger, hp]⟩

/-- Behind the report the second run goes on as if nothing stood in front. -/
theorem statementsWithin_after (hends : ∀ t ∈ O.behind, t.kind ≠ .eof)
    (hstop : O.behind ≠ [] → O.stop = (Cursor.ofTokens O.behind : Cursor).stop)
    (hn : O.behind.length ≤ n) :
    (statementsWithin n O.after).value = (statementsWithin
        (Cursor.ofTokens O.behind : Cursor).rest.length (.ofTokens O.behind)).value
      ∧ (statementsWithin n O.after).diagnostics = (statementsWithin
        (Cursor.ofTokens O.behind : Cursor).rest.length (.ofTokens O.behind)).diagnostics := by
  have hrest : (Cursor.ofTokens O.behind : Cursor).rest = O.behind := Cursor.rest_of_no_end hends
  by_cases hbehind : O.behind = []
  · rw [statementsWithin_end hbehind, statementsWithin_end (hrest.trans hbehind)]
    exact ⟨rfl, rfl⟩
  · have hanew : Cursor.Anew (.ofTokens O.behind) O.after :=
      ⟨hrest.symm, hstop hbehind, (Cursor.fields_ofTokens _).2.symm,
        (Cursor.steady_ofTokens _).last, O.steady_after.last,
        by rwa [hrest]⟩
    exact statementsWithin_anew hanew (Cursor.fields_ofTokens _).2 (Nat.le_refl _) hn

/-! ### Whole lists of tokens -/

variable {a : List Token}

theorem no_end_append (ha : ∀ t ∈ a, t.kind ≠ .eof ∧ t.unterminated = false) {b : List Token}
    (hb : ∀ t ∈ b, t.kind ≠ .eof) : ∀ t ∈ a ++ b, t.kind ≠ .eof :=
  List.forall_mem_append.2 ⟨fun t ht => (ha t ht).1, hb⟩

theorem rest_ofTokens_semi (ha : ∀ t ∈ a, t.kind ≠ .eof ∧ t.unterminated = false) {q : Token}
    (hsemi : q.kind = .semi) : (Cursor.ofTokens (a ++ [q]) : Cursor).rest = a ++ [q] := by
  apply Cursor.rest_of_no_end (no_end_append ha _)
  intro t ht
  rw [List.mem_singleton.1 ht, hsemi]
  decide

theorem places_ofTokens (ha : ∀ t ∈ a, t.kind ≠ .eof ∧ t.unterminated = false)
    (hends : ∀ t ∈ O.behind, t.kind ≠ .eof) (hlast : a.getLast? = some O.before)
    (hstop : (Cursor.ofTokens (a ++ O.behind) : Cursor).stop = O.stop) :
    O.Places (Cursor.ofTokens (a ++ [O.semi]) : Cursor).rest.length (.ofTokens (a ++ [O.semi]))
      (.ofTokens (a ++ O.behind)) where
  shared := by
    refine ⟨a, rest_ofTokens_semi ha O.isSemi, Cursor.rest_of_no_end (no_end_append ha hends), ?_,
      fun t ht => (ha t ht).2⟩
    rw [hlast, (Cursor.fields_ofTokens _).1]
    rfl
  last := (Cursor.fields_ofTokens _).1.trans (Cursor.fields_ofTokens _).1.symm
  steady := Cursor.steady_ofTokens _
  quiet := (Cursor.fields_ofTokens _).2
  stop := hstop
  fewer := Nat.le_refl _

/-- A semicolon alone is reported. -/
theorem parseStatements_semi {q : Token} (hsemi : q.kind = .semi) :
    (parseStatements [q]).diagnostics ≠ [] := by
  intro hd
  obtain ⟨s, -, hdiag⟩ := parseStatements_eq [q]
  have hrest : (Cursor.ofTokens [q] : Cursor).rest = [q] :=
    rest_ofTokens_semi (a := []) (List.forall_mem_nil _) hsemi
  have hne : (Cursor.ofTokens [q] : Cursor).rest ≠ [] := by
    rw [hrest]
    exact List.cons_ne_nil q []
  have hk : (Cursor.ofTokens [q] : Cursor).kind = .semi := by
    rw [Cursor.kind, Cursor.current_cons hrest]
    exact hsemi
  have hlength : (Cursor.ofTokens [q] : Cursor).rest.length = 0 + 1 := congrArg List.length hrest
  rw [hdiag, hlength] at hd
  obtain ⟨-, hclean, -⟩ := statementsWithin_clean (Cursor.steady_ofTokens _) hne hd
  exact complains_statement_semi (Cursor.steady_ofTokens _) hk hclean

/-- The run over the tokens without the semicolon, with the one over what starts anew in it. -/
theorem parseStatements_lacking {s : Span} {x : Stmt}
    (ha : ∀ t ∈ a, t.kind ≠ .eof ∧ t.unterminated = false)
    (hends : ∀ t ∈ O.behind, t.kind ≠ .eof) (hlast : a.getLast? = some O.before)
    (hstop : (Cursor.ofTokens (a ++ O.behind) : Cursor).stop = O.stop)
    (hclean : (parseStatements (a ++ [O.semi])).diagnostics = [])
    (hone : (parseStatements (a ++ [O.semi])).root = .statements s [x]) (hblock : x.isBlock = false)
    (hlone : ∀ i, a = [i] → i.kind = .ident → O.after.kind ≠ .ident) :
    ∃ p s₁ s₂ ys, (parseStatements O.behind).root = .statements s₂ ys
      ∧ (parseStatements (a ++ O.behind)).root = .statements s₁ (x.endingAt p :: ys)
      ∧ (parseStatements (a ++ O.behind)).diagnostics
        = O.report :: (parseStatements O.behind).diagnostics := by
  have hplaces := places_ofTokens ha hends hlast hstop
  obtain ⟨s₀, hroot₀, hdiag₀⟩ := parseStatements_eq (a ++ [O.semi])
  obtain ⟨s₁, hroot₁, hdiag₁⟩ := parseStatements_eq (a ++ O.behind)
  obtain ⟨s₂, hroot₂, hdiag₂⟩ := parseStatements_eq O.behind
  obtain ⟨-, hvalue⟩ := Root.statements.inj (hroot₀.symm.trans hone)
  rw [hdiag₀] at hclean
  have hrest : (Cursor.ofTokens (a ++ [O.semi]) : Cursor).rest = a ++ [O.semi] :=
    rest_ofTokens_semi ha O.isSemi
  have hrest' : (Cursor.ofTokens (a ++ O.behind) : Cursor).rest = a ++ O.behind :=
    Cursor.rest_of_no_end (no_end_append ha hends)
  have hne : a ≠ [] := by
    rintro rfl
    cases hlast
  obtain ⟨i, as, rfl⟩ := List.exists_cons_of_ne_nil hne
  have hlone' : (Cursor.ofTokens (i :: as ++ [O.semi]) : Cursor).kind = .ident →
      (Cursor.ofTokens (i :: as ++ [O.semi]) : Cursor).advance.rest = [O.semi] →
      O.after.kind ≠ .ident := by
    intro hk hleft
    rw [Cursor.kind, Cursor.current_cons hrest] at hk
    rw [Cursor.rest_advance, hrest] at hleft
    have has : as = [] := List.append_left_eq_self.1 hleft
    exact hlone i (by rw [has]) hk
  have hmore : 1 < (Cursor.ofTokens (i :: as ++ [O.semi]) : Cursor).rest.length := by
    rw [hrest, List.length_append, List.length_cons, List.length_singleton]
    omega
  obtain ⟨p, hp⟩ := recovering_lacking hplaces hmore hlone' hclean hvalue hblock
  have hlength : (Cursor.ofTokens (i :: as ++ O.behind) : Cursor).rest.length
      = (as ++ O.behind).length + 1 := congrArg List.length hrest'
  have hsplit := statementsWithin_succ (c := .ofTokens (i :: as ++ O.behind))
    (by rw [hrest']; exact List.cons_ne_nil i _) (as ++ O.behind).length
  have hstop' : O.behind ≠ [] → O.stop = (Cursor.ofTokens O.behind : Cursor).stop := by
    intro hbehind
    rw [← hstop, Cursor.stop_of_no_end (no_end_append ha hends), Cursor.stop_of_no_end hends,
      Cursor.impliedEnd, Cursor.impliedEnd, List.getLast?_append_of_ne_nil _ hbehind]
  obtain ⟨hsame, hsame'⟩ := statementsWithin_after (n := (as ++ O.behind).length) hends hstop'
    (by rw [List.length_append]; exact Nat.le_add_left _ _)
  refine ⟨p, s₁, s₂, _, hroot₂, ?_, ?_⟩
  · rw [hroot₁, hlength, hsplit, bind_apply, hp, ← hsame]
    rfl
  · rw [hdiag₁, hdiag₂, hlength, hsplit, bind_apply, hp, ← hsame']
    exact congrArg (O.report :: ·) (List.append_nil _)

end Omission

/-! ### Whole lists of tokens -/

/-- A forgotten semicolon is reported once, right behind the last token in front of it. The
statement that lacks it is found all the same, and what starts anew on a later line is read as if
nothing stood in front of it. -/
theorem parseStatements_forgotten_semicolon {a b : List Token} {q : Token} {s : Span} {x : Stmt}
    (ha : ∀ t ∈ a, t.kind ≠ .eof ∧ t.unterminated = false) (hsemi : q.kind = .semi)
    (hclean : (parseStatements (a ++ [q])).diagnostics = [])
    (hone : (parseStatements (a ++ [q])).root = .statements s [x]) (hblock : x.isBlock = false)
    (hb : ∀ t ∈ b, t.kind ≠ .eof) (hfresh : ∀ t ∈ b.head?, t.kind ∈ freshStarts)
    (hbelow : ∀ z ∈ a.getLast?, ∀ t ∈ b.head?, z.span.stop.line < t.span.start.line)
    (hlone : ∀ i, a = [i] → i.kind = .ident → ∀ t ∈ b.head?, t.kind ≠ .ident) :
    ∃ z p s₁ s₂ ys report, a.getLast? = some z
      ∧ (parseStatements b).root = .statements s₂ ys
      ∧ (parseStatements (a ++ b)).root = .statements s₁ (x.endingAt p :: ys)
      ∧ (parseStatements (a ++ b)).diagnostics = report :: (parseStatements b).diagnostics
      ∧ report.category = .missingSemicolon ∧ report.span = .point z.span.stop := by
  have hne : a ≠ [] := by
    rintro rfl
    exact Omission.parseStatements_semi hsemi hclean
  obtain ⟨z, hz⟩ : ∃ z, a.getLast? = some z := ⟨_, List.getLast?_eq_some_getLast hne⟩
  let O : Omission :=
    { before := z, semi := q, behind := b, stop := (Cursor.ofTokens (a ++ b) : Cursor).stop
      isSemi := hsemi, isStop := Cursor.kind_stop_ofTokens _,
      whole := (ha z (List.mem_of_getLast? hz)).2
      fresh := hfresh, below := hbelow z hz }
  have hlone' : ∀ i, a = [i] → i.kind = .ident → O.after.kind ≠ .ident := by
    intro i hi hk
    cases b with
    | nil =>
      have hend : O.after.kind = .eof := O.isStop
      rw [hend]
      decide
    | cons t ts => exact hlone i hi hk t rfl
  obtain ⟨p, s₁, s₂, ys, hroot₂, hroot, hdiag⟩ :=
    Omission.parseStatements_lacking (O := O) ha hb hz rfl hclean hone hblock hlone'
  exact ⟨z, p, s₁, s₂, ys, O.report, hz, hroot₂, hroot, hdiag, O.category_report, O.span_report⟩

/-- A declaration without its semicolon, `int x`. -/
def unfinishedDeclaration : List Token :=
  [⟨.kwInt, "int", ⟨⟨1, 1⟩, ⟨1, 4⟩⟩, false⟩, ⟨.ident, "x", ⟨⟨1, 5⟩, ⟨1, 6⟩⟩, false⟩]

/-- The semicolon of that line. -/
def closingSemicolon : Token := ⟨.semi, ";", ⟨⟨1, 6⟩, ⟨1, 7⟩⟩, false⟩

/-- An assignment without its value, `y = ;`, on the next line. -/
def brokenSecondLine : List Token :=
  [⟨.ident, "y", ⟨⟨2, 1⟩, ⟨2, 2⟩⟩, false⟩, ⟨.equals, "=", ⟨⟨2, 3⟩, ⟨2, 4⟩⟩, false⟩,
    ⟨.semi, ";", ⟨⟨2, 5⟩, ⟨2, 6⟩⟩, false⟩]

/-- The error of the second line comes after the report of the semicolon. -/
theorem parseStatements_forgotten_semicolon_broken :
    (parseStatements (unfinishedDeclaration ++ [closingSemicolon])).diagnostics = []
      ∧ (parseStatements brokenSecondLine).diagnostics.length = 1
      ∧ ∃ z p s₁ s₂ ys report, unfinishedDeclaration.getLast? = some z
        ∧ (parseStatements brokenSecondLine).root = .statements s₂ ys
        ∧ (parseStatements (unfinishedDeclaration ++ brokenSecondLine)).root
          = .statements s₁ (.endingAt p (.varDecl ⟨⟨1, 1⟩, ⟨1, 7⟩⟩ false
            (some ⟨⟨⟨1, 1⟩, ⟨1, 4⟩⟩, "int", false⟩) ⟨"x", ⟨⟨1, 5⟩, ⟨1, 6⟩⟩⟩ .missing) :: ys)
        ∧ (parseStatements (unfinishedDeclaration ++ brokenSecondLine)).diagnostics
          = report :: (parseStatements brokenSecondLine).diagnostics
        ∧ report.category = .missingSemicolon ∧ report.span = .point z.span.stop :=
  ⟨by decide, by decide,
    parseStatements_forgotten_semicolon (q := closingSemicolon) (s := ⟨⟨1, 1⟩, ⟨1, 7⟩⟩) (by decide)
      rfl (by decide) rfl rfl (by decide) (by rintro t ⟨⟩; decide)
      (by rintro z ⟨⟩ t ⟨⟩; decide) (fun i hi => by cases hi)⟩

/-- The name `x` and its semicolon, and then the end of input. -/
def endedStatement : List Token :=
  [⟨.ident, "x", ⟨⟨1, 1⟩, ⟨1, 2⟩⟩, false⟩, ⟨.semi, ";", ⟨⟨1, 2⟩, ⟨1, 3⟩⟩, false⟩,
    ⟨.eof, "", ⟨⟨1, 3⟩, ⟨1, 3⟩⟩, false⟩]

/-- A semicolon behind the end of input is not read, and so it is not missed either. -/
theorem parseStatements_semicolon_behind_end :
    (∀ t ∈ endedStatement, t.unterminated = false)
      ∧ (parseStatements (endedStatement ++ [closingSemicolon])).diagnostics = []
      ∧ (∃ s x, (parseStatements (endedStatement ++ [closingSemicolon])).root = .statements s [x]
        ∧ x.isBlock = false)
      ∧ ¬ ∃ report, (parseStatements (endedStatement ++ [])).diagnostics
        = report :: (parseStatements []).diagnostics := by
  refine ⟨by decide, by decide, ⟨_, _, rfl, rfl⟩, ?_⟩
  rintro ⟨report, hreport⟩
  have hnone : (parseStatements (endedStatement ++ [])).diagnostics = [] := by decide
  rw [hnone] at hreport
  cases hreport

end JavaPrimer
