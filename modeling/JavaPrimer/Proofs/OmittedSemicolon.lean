import JavaPrimer.Proofs.ReadBack
import JavaPrimer.Proofs.StatementRun

/-!
# A semicolon that only one of two runs has

Two runs stand before the same tokens. Behind these the first run has a semicolon, and the second
one has the end of input or a token that starts a new line of its own: one that no expression goes
on with. As long as the first run reports nothing, the second does the same, up to the semicolon.

Looking ahead the two runs may differ only where the tokens end. There either the kinds of token
that the second run can see are as good as a semicolon, or the first run has to complain: it wants
an operand, a name or a closing parenthesis, and finds the semicolon.

* `freshStarts` — the tokens that start anew;
* `Omission`, `Omission.Places` — the two runs;
* `Omission.Follows` — the second run does what the first one does;
* `Omission.Follows.bind`, `Omission.quietly_expect_bind` — the rules for steps;
* `Omission.follows_operand`, `Omission.follows_expression` — expressions.
-/

namespace JavaPrimer

/-! ### Runs that have something to report -/

/-- No panic, and no literal cut off right before: an error is always reported here. -/
structure Cursor.Steady (c : Cursor) : Prop where
  quiet : c.panicking = false
  last : ∀ t ∈ c.last, t.unterminated = false
  stop : c.Ended

theorem Cursor.steady_ofTokens (tokens : List Token) : (Cursor.ofTokens tokens).Steady := by
  obtain ⟨hlast, hpanicking⟩ := fields_ofTokens (ρ := .short) tokens
  refine ⟨hpanicking, ?_, kind_stop_ofTokens tokens⟩
  rw [hlast]
  rintro t ⟨⟩

namespace Parse

variable {α β : Type} {c : Cursor}

/-- A run of `p` from `c` reports something. -/
def Complains (p : Parse .short α) (c : Cursor) : Prop := (p c).diagnostics ≠ []

theorem complains_congr {p q : Parse .short α} (h : p c = q c) (hq : Complains q c) :
    Complains p c := by
  rw [Complains, h]
  exact hq

theorem Complains.bind {p : Parse .short α} {f : α → Parse .short β} (h : Complains p c) :
    Complains (p >>= f) c := by
  rw [Complains, bind_apply]
  exact List.append_ne_nil_of_left_ne_nil h _

theorem Complains.map {p : Parse .short α} {f : α → β} (h : Complains p c) :
    Complains (f <$> p) c := by
  rw [Complains, map_apply]
  exact h

theorem complains_look_bind {g : Cursor → α} {f : α → Parse .short β} (h : Complains (f (g c)) c) :
    Complains (look g >>= f) c := h

theorem complains_panicking_bind {f : Bool → Parse .short β} (hc : c.Steady)
    (h : Complains (f false) c) :
    Complains (panicking >>= f) c := by
  apply complains_look_bind
  rw [hc.quiet]
  exact h

theorem complains_advance_bind {f : Token → Parse .short β}
    (h : Complains (f c.current) c.advance) :
    Complains (advance >>= f) c := h

theorem complains_spanned {node : Parse .short (Span → α)} (h : Complains node c) :
    Complains (spanned node) c :=
  complains_look_bind h.bind

/-- An error is reported. -/
theorem complains_fail (hc : c.Steady) (x : Complaint) : Complains (fail x) c := by
  rw [Complains, fail_quiet x hc.quiet hc.last]
  exact List.cons_ne_nil _ _

theorem complains_report (hc : c.Steady) (x : Diagnostic) : Complains (report x) c := by
  apply complains_panicking_bind hc
  exact List.cons_ne_nil _ _

/-- Another token than the one that is wanted is reported. -/
theorem complains_expect {k : Kind} (hc : c.Steady) (hk : c.kind ≠ k) : Complains (expect k) c := by
  apply complains_look_bind
  rw [if_neg (show c.current.kind ≠ k from hk)]
  exact (complains_fail hc _).bind

theorem complains_expectIdent (hc : c.Steady) (hk : c.kind ≠ .ident) : Complains expectIdent c :=
  complains_look_bind (complains_expect hc hk).bind

/-- The closing parenthesis that has to come after arguments. -/
theorem complains_closing {f : Bool → Parse .short β} {g : Parse .short β} (hc : c.Steady)
    (hk : c.kind = .semi) :
    Complains (panicking >>= fun b => if b then g else expect .rparen >>= f) c := by
  have hne : c.kind ≠ .rparen := by
    rw [hk]
    decide
  exact complains_panicking_bind hc (complains_expect hc hne).bind

/-- No operand starts with a semicolon. -/
theorem complains_primary_semi (expr : Parse .short Expr) (hc : c.Steady) (hk : c.kind = .semi) :
    Complains (primary expr) c := by
  refine complains_congr (primary_eq_expressionExpected (by rw [hk]; rfl) expr) ?_
  exact complains_look_bind (complains_fail hc _).bind

/-- An operand that consists of a parenthesis cannot be read. -/
theorem complains_stepped_paren {expr : Parse .short Expr} (hk : c.kind = .lparen)
    (h : Complains expr c.advance) : Complains (stepped expr) c := by
  have hprimary : Complains (primary expr) c := by
    refine complains_congr (primary_apply expr c) ?_
    rw [hk]
    exact complains_spanned (complains_advance_bind h.bind)
  exact hprimary.bind

/-- The step operator that comes next, in tests of single kinds. -/
theorem stepOp?_eq_ite (c : Cursor) : stepOp? c = if c.panicking then none
    else if c.kind == .plusPlus then some .inc
    else if c.kind == .minusMinus then some .dec
    else none := by
  unfold stepOp?
  generalize c.kind = k
  cases k <;> rfl

/-- No expression starts with a semicolon. -/
theorem complains_expression_semi (hc : c.Steady) (hk : c.kind = .semi) :
    Complains expression c := by
  rw [Complains, expression_fails hc.stop (by rw [hk]; rfl) hc.quiet hc.last]
  exact List.cons_ne_nil _ _

end Parse

/-- Kinds of token that start a statement and that no expression goes on with: `final`, the words
for types, names, literals, `new`, `!` and an opening brace. -/
def freshStarts : List Kind :=
  [.kwFinal, .kwInt, .kwDouble, .kwString, .kwChar, .kwBoolean, .kwByte, .kwShort, .kwLong,
    .kwFloat, .ident, .intLit, .floatLit, .stringLit, .charLit, .kwTrue, .kwFalse, .kwNull, .kwNew,
    .bang, .lbrace]

/-- A semicolon that one run has and the other one has not. -/
structure Omission where
  /-- The token in front of it. -/
  before : Token
  /-- The semicolon of the first run. -/
  semi : Token
  /-- What the second run has instead. -/
  behind : List Token
  /-- The end of input of the second run. -/
  stop : Token
  isSemi : semi.kind = .semi
  isStop : stop.kind = .eof
  whole : before.unterminated = false
  fresh : ∀ t ∈ behind.head?, t.kind ∈ freshStarts
  below : ∀ t ∈ behind.head?, before.span.stop.line < t.span.start.line

namespace Omission

variable {O : Omission}

/-- Where the second run stands when the first one is at the semicolon. -/
def after (O : Omission) : Cursor := ⟨some O.before, O.behind, O.stop, (), false⟩

theorem steady_after (O : Omission) : O.after.Steady := by
  refine ⟨rfl, ?_, O.isStop⟩
  rintro t ⟨⟩
  exact O.whole

/-- Nothing is left for the second run, or something that starts anew comes next. -/
theorem after_cases (O : Omission) : O.behind = [] ∧ O.after.kind = .eof
    ∨ O.behind ≠ [] ∧ O.after.kind ∈ freshStarts ∧ O.after.atLineStart = true := by
  have hfresh := O.fresh
  have hbelow := O.below
  cases hbehind : O.behind with
  | nil =>
    have hkind : O.after.kind = O.stop.kind := by
      simp [after, Cursor.kind, Cursor.current, Cursor.ahead_short, hbehind]
    exact .inl ⟨rfl, hkind.trans O.isStop⟩
  | cons t ts =>
    have hcurrent : O.after.current = t := Cursor.current_cons hbehind
    rw [hbehind] at hfresh hbelow
    refine .inr ⟨List.cons_ne_nil t ts, ?_, ?_⟩
    · rw [Cursor.kind, hcurrent]
      exact hfresh t rfl
    · simp only [Cursor.atLineStart, hcurrent]
      exact decide_eq_true (hbelow t rfl)

theorem kind_after (O : Omission) : O.after.kind ∈ Kind.eof :: freshStarts := by
  rcases O.after_cases with ⟨-, hk⟩ | ⟨-, hk, -⟩
  · rw [hk]
    exact List.mem_cons_self
  · exact List.mem_cons_of_mem _ hk

theorem kind_after_ne_semi (O : Omission) : O.after.kind ≠ .semi := by
  have hfresh : ∀ k ∈ Kind.eof :: freshStarts, k ≠ .semi := by decide
  exact hfresh _ O.kind_after

/-- Two cursors at the same place, the first with at most `n` tokens ahead, the last of which is the
semicolon. -/
structure Places (O : Omission) (n : Nat) (c d : Cursor) : Prop where
  shared : ∃ us, c.rest = us ++ [O.semi] ∧ d.rest = us ++ O.behind
    ∧ us.getLast?.or c.last = some O.before ∧ ∀ t ∈ us, t.unterminated = false
  last : d.last = c.last
  steady : c.Steady
  quiet : d.panicking = false
  stop : d.stop = O.stop
  fewer : c.rest.length ≤ n

namespace Places

variable {n : Nat} {c d : Cursor}

theorem mono {m : Nat} (h : O.Places n c d) (hm : n ≤ m) : O.Places m c d :=
  { h with fewer := h.fewer.trans hm }

theorem ended (h : O.Places n c d) : c.Ended := h.steady.stop

theorem ended_second (h : O.Places n c d) : d.Ended := by
  rw [Cursor.Ended, h.stop]
  exact O.isStop

theorem panicking (h : O.Places n c d) : d.panicking = c.panicking :=
  h.quiet.trans h.steady.quiet.symm

theorem spanSince (h : O.Places n c d) (start : Span) :
    d.spanSince start = c.spanSince start := by
  simp only [Cursor.spanSince, h.last]

/-- Either the semicolon comes next, or another token comes next in both runs. -/
theorem cases_ahead (h : O.Places n c d) : c.rest = [O.semi] ∧ d = O.after
    ∨ ∃ t us, c.rest = t :: (us ++ [O.semi]) ∧ d.rest = t :: (us ++ O.behind)
      ∧ us.getLast?.or (some t) = some O.before ∧ ∀ u ∈ t :: us, u.unterminated = false := by
  obtain ⟨us, hc, hd, hlast, hwhole⟩ := h.shared
  cases us with
  | nil =>
    refine .inl ⟨hc, ?_⟩
    have hbefore : d.last = some O.before := h.last.trans hlast
    have hstop := h.stop
    have hquiet := h.quiet
    cases d
    simp_all [after]
    rfl
  | cons t us =>
    refine .inr ⟨t, us, hc, hd, ?_, hwhole⟩
    rw [List.getLast?_cons] at hlast
    cases hus : us.getLast? with
    | none => simpa [hus] using hlast
    | some u => simpa [hus] using hlast

theorem kind_semi (hc : c.rest = [O.semi]) : c.kind = .semi := by
  rw [Cursor.kind, Cursor.current_cons hc]
  exact O.isSemi

theorem rest_ne_nil (h : O.Places n c d) : c.rest ≠ [] := by
  rcases h.cases_ahead with ⟨hc, -⟩ | ⟨t, us, hc, -⟩ <;> rw [hc] <;> exact List.cons_ne_nil _ _

theorem pos (h : O.Places n c d) : 0 < n :=
  (List.length_pos_iff.2 h.rest_ne_nil).trans_le h.fewer

/-- A token that is no semicolon comes next in both runs or in neither. -/
theorem current (h : O.Places n c d) (hk : c.kind ≠ .semi) : d.current = c.current := by
  rcases h.cases_ahead with ⟨hc, -⟩ | ⟨t, us, hc, hd, -, -⟩
  · exact absurd (kind_semi hc) hk
  · rw [Cursor.current_cons hc, Cursor.current_cons hd]

theorem kind (h : O.Places n c d) (hk : c.kind ≠ .semi) : d.kind = c.kind :=
  congrArg Token.kind (h.current hk)

/-- A test that takes what starts anew for a semicolon has one outcome in both runs. -/
theorem test (h : O.Places n c d) {β : Type} (f : Kind → β)
    (hf : ∀ k ∈ Kind.eof :: freshStarts, f k = f .semi) : f d.kind = f c.kind := by
  rcases h.cases_ahead with ⟨hc, rfl⟩ | ⟨t, us, hc, hd, -, -⟩
  · rw [kind_semi hc, hf _ O.kind_after]
  · rw [Cursor.kind, Cursor.kind, Cursor.current_cons hc, Cursor.current_cons hd]

theorem advance (h : O.Places n c d) (hk : c.kind ≠ .semi) :
    O.Places (n - 1) c.advance d.advance := by
  have hfewer := h.fewer
  rcases h.cases_ahead with ⟨hc, -⟩ | ⟨t, us, hc, hd, hlast, hwhole⟩
  · exact absurd (kind_semi hc) hk
  · rw [hc, List.length_cons] at hfewer
    rw [Cursor.advance_cons hc, Cursor.advance_cons hd]
    obtain ⟨ht, hus⟩ := List.forall_mem_cons.1 hwhole
    have hlast' : ∀ u ∈ some t, u.unterminated = false := by
      rintro u ⟨⟩
      exact ht
    refine ⟨⟨us, rfl, rfl, hlast, hus⟩, rfl, ⟨h.steady.quiet, hlast', h.ended⟩, h.quiet, h.stop, ?_⟩
    show (us ++ [O.semi]).length ≤ n - 1
    omega

end Places

/-! ### Rules for steps -/

open Parse

variable {α β : Type} {m n : Nat} {c d : Cursor}

/-- If a run of `p` from the first place reports nothing, its outcome and that of a run from the
second place are related. -/
def Quietly (X : Step .short α → Step .short α → Prop) (p : Parse .short α) (c d : Cursor) : Prop :=
  (p c).diagnostics = [] → X (p c) (p d)

/-- If a run of `p` from the first place reports nothing, one from the second does the same. -/
abbrev Follows (O : Omission) (n : Nat) (p : Parse .short α) (c d : Cursor) : Prop :=
  Quietly (Agree (O.Places n)) p c d

/-- A step that does the same in both runs from every place with at most `n` tokens ahead. -/
def FollowsAll (O : Omission) (n : Nat) (p : Parse .short α) : Prop :=
  ∀ m, m ≤ n → ∀ c d, O.Places m c d → O.Follows m p c d

theorem FollowsAll.le {p : Parse .short α} (h : O.FollowsAll n p) (hm : m ≤ n) : O.FollowsAll m p :=
  fun k hk => h k (hk.trans hm)

theorem Follows.mono {p : Parse .short α} (h : O.Follows m p c d) (hm : m ≤ n) :
    O.Follows n p c d :=
  fun hd => (h hd).imp fun _ _ hcd => hcd.mono hm

theorem follows_pure (h : O.Places n c d) (a : α) : O.Follows n (Pure.pure a) c d :=
  fun _ => agree_pure h a

theorem Follows.bind_at {p : Parse .short α} {f : α → Parse .short β} (hp : O.Follows m p c d)
    (hf : O.Places m (p c).cursor (p d).cursor →
      O.Follows n (f (p c).value) (p c).cursor (p d).cursor) : O.Follows n (p >>= f) c d := by
  intro hd
  rw [bind_apply] at hd
  obtain ⟨hd₁, hd₂⟩ := List.append_eq_nil_iff.1 hd
  exact (hp hd₁).bind_at fun hcd => hf hcd hd₂

theorem Follows.bind {p : Parse .short α} {f : α → Parse .short β} (hp : O.Follows m p c d)
    (hf : ∀ a c' d', O.Places m c' d' → O.Follows n (f a) c' d') :
    O.Follows n (p >>= f) c d :=
  hp.bind_at fun hcd => hf _ _ _ hcd

/-! The other rules do not depend on what is to be shown of the outcomes. -/

variable {X : Step .short α → Step .short α → Prop} {Y : Step .short β → Step .short β → Prop}

/-- Nothing has to be shown where the first run reports something. -/
theorem quietly_of_complains {p : Parse .short α} (h : Complains p c) : Quietly X p c d :=
  fun hd => absurd hd h

/-- A step that does nothing, and then one that has something to report. -/
theorem quietly_of_apply_bind {p : Parse .short α} {f : α → Parse .short β} {a : α}
    (hp : p c = ⟨a, [], c⟩) (h : Complains (f a) c) : Quietly Y (p >>= f) c d :=
  quietly_of_complains (complains_congr (bind_of_apply hp f) h)

theorem quietly_congr {p q : Parse .short α} (hc : p c = q c) (hd : p d = q d)
    (h : Quietly X q c d) : Quietly X p c d := by
  rw [Quietly, hc, hd]
  exact h

theorem quietly_look_bind {g : Cursor → α} {f : α → Parse .short β} (hg : g d = g c)
    (h : Quietly Y (f (g c)) c d) : Quietly Y (look g >>= f) c d := by
  intro hd
  rw [look_bind_apply, look_bind_apply, hg]
  exact h hd

theorem quietly_ite {b : Prop} [Decidable b] {p q : Parse .short α} (hp : b → Quietly X p c d)
    (hq : ¬ b → Quietly X q c d) : Quietly X (if b then p else q) c d := by
  split
  · next hb => exact hp hb
  · next hb => exact hq hb

theorem quietly_panicking_bind {f : Bool → Parse .short β} (hc : O.Places m c d)
    (h : Quietly Y (f false) c d) : Quietly Y (panicking >>= f) c d := by
  refine quietly_look_bind hc.panicking ?_
  rw [hc.steady.quiet]
  exact h

theorem follows_spanned {node : Parse .short (Span → α)} (hc : O.Places m c d) (hk : c.kind ≠ .semi)
    (h : O.Follows n node c d) : O.Follows n (spanned node) c d := by
  refine quietly_look_bind (congrArg Token.span (hc.current hk)) (h.bind fun build c' d' hcd => ?_)
  exact quietly_look_bind (hcd.spanSince _) (follows_pure hcd _)

theorem quietly_advance_bind {f : Token → Parse .short β} (hc : O.Places n c d)
    (hk : c.kind ≠ .semi)
    (h : O.Places (n - 1) c.advance d.advance → Quietly Y (f c.current) c.advance d.advance) :
    Quietly Y (advance >>= f) c d := by
  intro hd
  rw [advance_bind_apply, advance_bind_apply, hc.current hk]
  exact h (hc.advance hk) hd

/-! ### Wanted tokens -/

/-- A token that is wanted and without which the first run has something to report. -/
theorem quietly_expect_bind {k : Kind} {f : Bool → Parse .short β} (hc : O.Places n c d)
    (hk : k ≠ .semi)
    (h : O.Places (n - 1) c.advance d.advance → Quietly Y (f true) c.advance d.advance) :
    Quietly Y (expect k >>= f) c d := by
  by_cases hkind : c.kind = k
  · have hsemi : c.kind ≠ .semi := by
      rw [hkind]
      exact hk
    have hkind' : d.kind = k := (hc.kind hsemi).trans hkind
    intro hd
    rw [bind_of_apply (expect_eq_advance hkind)] at hd ⊢
    rw [bind_of_apply (expect_eq_advance hkind')]
    exact h (hc.advance hsemi) hd
  · exact quietly_of_complains (complains_expect hc.steady hkind).bind

theorem expectIdent_eq_advance (hk : c.kind = .ident) :
    expectIdent c = ⟨(⟨c.current.value, c.current.span⟩, true), [], c.advance⟩ := by
  rw [expectIdent, look_bind_apply, bind_of_apply (expect_eq_advance hk)]
  rfl

theorem quietly_expectIdent_bind {f : Ident × Bool → Parse .short β} (hc : O.Places n c d)
    (h : O.Places (n - 1) c.advance d.advance →
      Quietly Y (f (⟨c.current.value, c.current.span⟩, true)) c.advance d.advance) :
    Quietly Y (expectIdent >>= f) c d := by
  by_cases hkind : c.kind = .ident
  · have hsemi : c.kind ≠ .semi := by
      rw [hkind]
      decide
    have hkind' : d.kind = .ident := (hc.kind hsemi).trans hkind
    intro hd
    rw [bind_of_apply (expectIdent_eq_advance hkind)] at hd ⊢
    rw [bind_of_apply (expectIdent_eq_advance hkind'), hc.current hsemi]
    exact h (hc.advance hsemi) hd
  · exact quietly_of_complains (complains_expectIdent hc.steady hkind).bind

/-! ### Repetition -/

theorem follows_untilNone {item : Parse .short (Option α)} (hf : Forward item)
    (hpays : ∀ c : Cursor, c.Ended → Pays item c) (h : O.FollowsAll n item) :
    O.FollowsAll n (untilNone item) := by
  intro m hm
  induction m with
  | zero => exact fun c d hc => absurd hc.pos (Nat.lt_irrefl 0)
  | succ m ih =>
    intro c d hc
    have hround := (ends_untilNone hf (stopsShort_self item) hpays).unfolds
    refine quietly_congr (hround c hc.ended).symm (hround d hc.ended_second).symm ?_
    refine (h (m + 1) hm c d hc).bind_at fun hcd => ?_
    cases hval : (item c).value with
    | none => exact follows_pure hcd []
    | some x =>
      have hless : (item c).cursor.rest.length < c.rest.length :=
        hpays c hc.ended (by rw [hval]; rfl)
      have hfewer := hc.fewer
      have hcd' : O.Places m (item c).cursor (item d).cursor := { hcd with fewer := by omega }
      refine (ih (by omega) _ _ hcd').bind fun xs _ _ h => ?_
      exact follows_pure (h.mono (Nat.le_succ m)) (x :: xs)

/-! ### Binary operators -/

theorem follows_joinedBy {tier : Tier} (htier : tier ∈ tiers) {operand : Parse .short Expr}
    (hf : Forward operand) (h : O.FollowsAll n operand) : ∀ m, m ≤ n → ∀ left c d,
    O.Places m c d → O.Follows m (joinedBy tier operand left) c d := by
  have hnone : ∀ tier ∈ tiers, ∀ k ∈ Kind.eof :: freshStarts, tier.op? k = tier.op? .semi := by
    decide
  intro m
  induction m with
  | zero => exact fun _ left c d hc => absurd hc.pos (Nat.lt_irrefl 0)
  | succ m ih =>
    intro hm left c d hc
    have hop : tierOp? tier d = tierOp? tier c := by
      simp only [tierOp?, hc.panicking, hc.test tier.op? (hnone tier htier)]
    cases hval : tierOp? tier c with
    | none =>
      have hstop : ∀ e : Cursor, tierOp? tier e = none →
          joinedBy tier operand left e = (Pure.pure left : Parse .short Expr) e :=
        fun e he => chain_none he operand _ left
      exact quietly_congr (hstop c hval) (hstop d (hop.trans hval)) (follows_pure hc left)
    | some op =>
      have hsemi : c.kind ≠ .semi := by
        intro hk
        rw [tierOp?, hk, op?_semi tier htier, ite_self] at hval
        cases hval
      refine quietly_congr (joinedBy_some htier hf hc.ended hval left)
        (joinedBy_some htier hf hc.ended_second (hop.trans hval) left) ?_
      refine quietly_advance_bind hc hsemi fun h₁ => ?_
      refine (h m (by omega) _ _ h₁).bind fun right c₂ d₂ h₂ => ?_
      exact (ih (by omega) _ c₂ d₂ h₂).mono (Nat.le_succ m)

theorem follows_climb {operand : Parse .short Expr} (hf : Forward operand)
    (h : O.FollowsAll n operand) :
    ∀ ts ⊆ tiers, O.FollowsAll n (climb operand ts) := by
  intro ts
  induction ts with
  | nil => exact fun _ => h
  | cons tier tighter ih =>
    intro hts m hm c d hc
    obtain ⟨htier, htighter⟩ := List.cons_subset.1 hts
    have hinner := ih htighter
    refine (hinner m hm c d hc).bind fun left c₁ d₁ h₁ => ?_
    exact follows_joinedBy htier (forward_climb hf tighter) hinner m hm left c₁ d₁ h₁

/-! ### Operands -/

section Operands

variable {expr : Parse .short Expr} (hf : Forward expr) (h : O.FollowsAll n expr)

include h in
theorem follows_argument : O.FollowsAll n (argument expr) := by
  intro m hm c d hc
  have hcomma : (!d.panicking && d.kind == .comma) = (!c.panicking && c.kind == .comma) := by
    rw [hc.panicking, hc.test (· == .comma) (by decide)]
  refine quietly_look_bind hcomma (quietly_ite (fun hmore => ?_) fun _ => follows_pure hc none)
  have hk : c.kind = .comma := by
    simp only [Bool.and_eq_true, beq_iff_eq] at hmore
    exact hmore.2
  refine quietly_advance_bind hc (by simp [hk]) fun h₁ => ?_
  refine (h (m - 1) (by omega) _ _ h₁).bind fun e c₂ d₂ h₂ => ?_
  exact follows_pure (h₂.mono (Nat.sub_le m 1)) (some e)

omit hf h in
theorem arguments_none (expr : Parse .short Expr) (hk : c.kind.startsExpression = false) :
    arguments expr c = ⟨[], [], c⟩ := by
  rw [arguments, look_bind_apply, hk, if_neg Bool.false_ne_true]
  rfl

include hf h in
/-- At the semicolon there are no arguments, although the second run may see one. What comes after
the arguments has to complain there. -/
theorem follows_arguments_bind {f : List Expr → Parse .short β} {k : Nat} (hm : m ≤ n)
    (hc : O.Places m c d) (hsemi : c.Steady → c.kind = .semi → Complains (f []) c)
    (hnext : ∀ args c' d', O.Places m c' d' → O.Follows k (f args) c' d') :
    O.Follows k (arguments expr >>= f) c d := by
  by_cases hk : c.kind = .semi
  · exact quietly_of_apply_bind (arguments_none expr (by rw [hk]; rfl)) (hsemi hc.steady hk)
  · refine Follows.bind ?_ hnext
    refine quietly_look_bind (congrArg Kind.startsExpression (hc.kind hk))
      (quietly_ite (fun _ => ?_) fun _ => follows_pure hc [])
    refine (h m hm c d hc).bind fun first c₁ d₁ h₁ => ?_
    have hmore := follows_untilNone (O := O) (forward_argument hf)
      (fun c hs => Mirror.pays_further_argument hf c hs) (follows_argument h)
    exact (hmore m hm c₁ d₁ h₁).bind fun more _ _ h₂ => follows_pure h₂ (first :: more)

omit hf h in
theorem follows_fieldSelector (hc : O.Places m c d) (hk : c.kind = .dot) :
    O.Follows m fieldSelector c d := by
  refine quietly_advance_bind hc (by simp [hk]) fun h₁ => ?_
  refine quietly_expectIdent_bind h₁ fun h₂ => follows_pure (h₂.mono ?_) _
  omega

include hf h in
theorem follows_callSelector (hm : m ≤ n) (hc : O.Places m c d) (hk : c.kind = .lparen) :
    O.Follows m (callSelector expr) c d := by
  refine quietly_advance_bind hc (by simp [hk]) fun h₁ => ?_
  refine follows_arguments_bind hf h (by omega) h₁
    (fun hsteady hsemi => complains_closing hsteady hsemi) fun args c₂ d₂ h₂ => ?_
  refine quietly_panicking_bind h₂ (quietly_expect_bind h₂ (by decide) fun h₃ => ?_)
  exact quietly_look_bind (h₃.spanSince _) (follows_pure (h₃.mono (by omega)) _)

omit hf h in
theorem selector_none (expr : Parse .short Expr) (hdot : c.kind ≠ .dot)
    (hparen : c.kind ≠ .lparen) :
    selector expr c = (Pure.pure none : Parse .short (Option Selector)) c := by
  show (if c.panicking = true then Pure.pure none else look Cursor.kind >>= fun k => _) c = _
  split
  · rfl
  · rw [look_bind_apply]
    generalize c.kind = k at hdot hparen
    split
    · exact absurd rfl hdot
    · exact absurd rfl hparen
    · rfl

include hf h in
theorem follows_selector : O.FollowsAll n (selector expr) := by
  intro m hm c d hc
  have hdot : (d.kind == .dot) = (c.kind == .dot) := hc.test (· == .dot) (by decide)
  have hparen : (d.kind == .lparen) = (c.kind == .lparen) := hc.test (· == .lparen) (by decide)
  by_cases hk : c.kind = .dot ∨ c.kind = .lparen
  · have hsemi : c.kind ≠ .semi := by
      rcases hk with hk | hk <;> rw [hk] <;> decide
    refine quietly_panicking_bind hc (quietly_look_bind (hc.kind hsemi) ?_)
    rcases hk with hk | hk <;> rw [hk]
    · exact follows_fieldSelector hc hk
    · exact follows_callSelector hf h hm hc hk
  · obtain ⟨h₁, h₂⟩ := not_or.1 hk
    have hd₁ : d.kind ≠ .dot := by simpa [beq_eq_false_iff_ne.2 h₁] using hdot
    have hd₂ : d.kind ≠ .lparen := by simpa [beq_eq_false_iff_ne.2 h₂] using hparen
    exact quietly_congr (selector_none expr h₁ h₂) (selector_none expr hd₁ hd₂)
      (follows_pure hc none)

/-! What follows starts by consuming a token, so it only asks for a bound one smaller. -/

include hf h in
theorem follows_nameExpr (hc : O.Places (n + 1) c d) (hk : c.kind = .ident) :
    O.Follows n (nameExpr expr) c d := by
  have hsemi : c.kind ≠ .semi := by
    rw [hk]
    decide
  refine follows_spanned hc hsemi (quietly_advance_bind hc hsemi fun h₁ => ?_)
  have hmore := follows_untilNone (O := O) (forward_selector hf)
    (fun c hs => Mirror.pays_further_selector hf c hs) (follows_selector hf h)
  exact (hmore n (Nat.le_refl n) _ _ h₁).bind fun selectors _ _ h₂ => follows_pure h₂ _

include h in
theorem follows_parenExpr (hc : O.Places (n + 1) c d) (hk : c.kind = .lparen) :
    O.Follows n (parenExpr expr) c d := by
  have hsemi : c.kind ≠ .semi := by
    rw [hk]
    decide
  refine follows_spanned hc hsemi (quietly_advance_bind hc hsemi fun h₁ => ?_)
  refine (h n (Nat.le_refl n) _ _ h₁).bind fun inner c₂ d₂ h₂ => ?_
  refine quietly_panicking_bind h₂ (quietly_expect_bind h₂ (by decide) fun h₃ => ?_)
  exact follows_pure (h₃.mono (Nat.sub_le n 1)) _

include hf h in
theorem follows_newExpr (hc : O.Places (n + 1) c d) (hk : c.kind = .kwNew) :
    O.Follows n (newExpr expr) c d := by
  have hsemi : c.kind ≠ .semi := by
    rw [hk]
    decide
  refine follows_spanned hc hsemi (quietly_advance_bind hc hsemi fun h₁ => ?_)
  refine quietly_expectIdent_bind h₁ fun h₂ => ?_
  refine quietly_expect_bind h₂ (by decide) fun h₃ => ?_
  refine follows_arguments_bind hf h (by omega) h₃
    (fun hsteady hsemi => complains_closing hsteady hsemi) fun args c₄ d₄ h₄ => ?_
  refine quietly_panicking_bind h₄ (quietly_expect_bind h₄ (by decide) fun h₅ => ?_)
  exact follows_pure (h₅.mono (by omega)) _

include hf h in
theorem follows_primary : O.FollowsAll (n + 1) (primary expr) := by
  intro m hm c d hc
  by_cases hk : c.kind = .semi
  · exact quietly_of_complains (complains_primary_semi expr hc.steady hk)
  have hc' : O.Places (m - 1 + 1) c d := hc.mono (by omega)
  have hle : m - 1 ≤ m := Nat.sub_le m 1
  have hinner : O.FollowsAll (m - 1) expr := h.le (by omega)
  refine quietly_look_bind (hc.current hk) ?_
  split
  · exact quietly_advance_bind hc hk fun h₁ => follows_pure (h₁.mono hle) _
  · split
    · next hk => exact (follows_nameExpr hf hinner hc' hk).mono hle
    · next hk => exact (follows_parenExpr hinner hc' hk).mono hle
    · next hk => exact (follows_newExpr hf hinner hc' hk).mono hle
    · exact quietly_of_complains (complains_look_bind (complains_fail hc.steady _).bind)

include hf h in
theorem follows_stepped : O.FollowsAll (n + 1) (stepped expr) := by
  intro m hm c d hc
  refine (follows_primary hf h m hm c d hc).bind fun operand c₁ d₁ h₁ => ?_
  have hop : stepOp? d₁ = stepOp? c₁ := by
    have hinc : (d₁.kind == .plusPlus) = (c₁.kind == .plusPlus) :=
      h₁.test (· == .plusPlus) (by decide)
    have hdec : (d₁.kind == .minusMinus) = (c₁.kind == .minusMinus) :=
      h₁.test (· == .minusMinus) (by decide)
    rw [stepOp?_eq_ite, stepOp?_eq_ite, h₁.panicking, hinc, hdec]
  refine quietly_look_bind hop ?_
  cases hval : stepOp? c₁ with
  | none => exact follows_pure h₁ operand
  | some op =>
    have hk : c₁.kind ≠ .semi := by
      intro hk
      rw [stepOp?_semi hk] at hval
      cases hval
    refine quietly_advance_bind h₁ hk fun h₂ => ?_
    exact follows_pure (h₂.mono (Nat.sub_le m 1)) _

end Operands

section Unary

variable {operand : Parse .short Expr} (hf : Forward operand) (h : O.FollowsAll n operand)

include h in
theorem follows_castExpr (hc : O.Places (n + 1) c d) (hs : c.startsCast = true) :
    O.Follows n (castExpr operand) c d := by
  obtain ⟨hk, hprim⟩ : c.kind = .lparen ∧ (c.ahead 1).kind.isPrimitive = true := by
    simpa [Cursor.startsCast] using hs
  refine quietly_advance_bind hc (by simp [hk]) fun h₁ => ?_
  have hword : c.advance.kind.isPrimitive = true := by
    rw [← Cursor.ahead_advance] at hprim
    exact hprim
  have hsemi : c.advance.kind ≠ .semi := by
    intro hk
    rw [hk] at hword
    cases hword
  refine quietly_advance_bind h₁ hsemi fun h₂ => ?_
  refine quietly_expect_bind h₂ (by decide) fun h₃ => ?_
  refine (h _ (by omega) _ _ h₃).bind fun e _ _ h₄ => ?_
  exact follows_pure (h₄.mono (by omega)) _

include hf h in
theorem follows_unaryWith (hexpr : ∀ c : Cursor, c.Steady → c.kind = .semi →
    Complains (climb operand tiers) c) :
    O.FollowsAll (n + 1) (unaryWith operand) := by
  intro m hm c d hc
  have hstepped := follows_stepped (forward_climb hf tiers)
    (follows_climb hf h tiers (List.Subset.refl _)) m hm c d hc
  by_cases hk : c.kind = .semi
  · have hcast : c.startsCast = false := by simp [Cursor.startsCast, hk]
    refine quietly_of_complains (complains_look_bind ?_)
    rw [hk]
    apply complains_look_bind
    rw [hcast]
    exact (complains_primary_semi _ hc.steady hk).bind
  refine quietly_look_bind (congrArg UnaryOp.ofKind? (hc.kind hk)) ?_
  split
  · refine quietly_advance_bind hc hk fun h₁ => ?_
    refine (h (m - 1) (by omega) _ _ h₁).bind fun e c₂ d₂ h₂ => ?_
    exact follows_pure (h₂.mono (Nat.sub_le m 1)) _
  · by_cases hparen : c.kind = .lparen ∧ c.advance.kind = .semi
    · -- the second run may see a cast here, but the first one has to complain
      have hcast : c.startsCast = false := by
        have hone : (c.ahead 1).kind = .semi := by
          rw [← Cursor.ahead_advance]
          exact hparen.2
        simp [Cursor.startsCast, hone, Kind.isPrimitive]
      refine quietly_of_complains (complains_look_bind ?_)
      rw [hcast]
      exact complains_stepped_paren hparen.1 (hexpr _ (hc.advance hk).steady hparen.2)
    · have hcast : d.startsCast = c.startsCast := by
        rw [Cursor.startsCast, Cursor.startsCast, hc.kind hk]
        by_cases hkind : c.kind = .lparen
        · have hnext := (hc.advance hk).kind fun h => hparen ⟨hkind, h⟩
          rw [← Cursor.ahead_advance, ← Cursor.ahead_advance]
          exact congrArg (fun k : Kind => c.kind == .lparen && k.isPrimitive) hnext
        · rw [beq_eq_false_iff_ne.2 hkind, Bool.false_and, Bool.false_and]
      refine quietly_look_bind hcast (quietly_ite (fun hs => ?_) fun _ => hstepped)
      have hc' : O.Places (m - 1 + 1) c d := hc.mono (by omega)
      exact (follows_castExpr (h.le (by omega)) hc' hs).mono (Nat.sub_le m 1)

end Unary

/-! ### The recursion -/

theorem follows_operand : ∀ n, O.FollowsAll n operand := by
  intro n
  induction n with
  | zero => exact fun m hm c d hc => absurd hc.pos (by omega)
  | succ n ih =>
    intro m hm c d hc
    have hunfold := (ends_operand (ρ := .short)).unfolds
    refine quietly_congr (hunfold c hc.ended).symm (hunfold d hc.ended_second).symm ?_
    have hexpr : ∀ c : Cursor, c.Steady → c.kind = .semi → Complains (climb operand tiers) c :=
      fun c hc hk => complains_congr (expression_eq hc.stop).symm (complains_expression_semi hc hk)
    exact follows_unaryWith forward_operand ih hexpr m hm c d hc

theorem follows_expression (hc : O.Places n c d) : O.Follows n expression c d := by
  refine quietly_congr (expression_eq hc.ended) (expression_eq hc.ended_second) ?_
  exact follows_climb forward_operand (follows_operand n) tiers (List.Subset.refl _) n
    (Nat.le_refl n) c d hc

end Omission

end JavaPrimer
