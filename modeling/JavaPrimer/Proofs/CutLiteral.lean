import JavaPrimer.Proofs.OperatorStatements
import Mathlib

/-!
# Behind a literal that was cut off

A string literal that ends with its line takes the semicolon of its declaration with it. Nothing is
complained about right behind it, and recovery goes on with the next line. The statements there are
complained about as if they stood alone, with three exceptions. If the first one starts with two
identifiers, the complaint about the unknown type is lost, since it is one right behind the literal.
A step operator is taken for one behind the literal. A sign joins the literal and what is behind the
sign; that makes no difference up to an assignment operator, which may stand behind an expression of
its own but not behind the value of a declaration.

* `Cursor.astray` — the exceptions;
* `Parse.trail_declaration`, `Parse.expression_literal` — the declaration up to its literal;
* `Cursor.BehindCut` — the place behind the literal, where nothing is complained about;
* `Parse.faults_facing` — the statements from there, and on their own;
* `Parse.faultsFrom_joined_sign` — an expression with a sign in front, and one joined by the sign;
* `Parse.faultsFrom_step_ne` — a step operator that no sign follows;
* `parseStatements_cut_iff` — whole lists of tokens.
-/

namespace JavaPrimer

/-- Step operators. -/
def Kind.isStep (k : Kind) : Bool := k == .plusPlus || k == .minusMinus

/-- Signs, which stand in front of an operand and between two. -/
def Kind.isSign (k : Kind) : Bool := k == .plus || k == .minus

/-- The statement ahead is complained about in another way when a literal that was cut off stands in
front of it: it starts with a step operator that no sign follows, with an operator and has an
assignment operator behind its expression, or with two identifiers. -/
def Cursor.astray (c : Cursor) : Bool :=
  if c.kind.isStep then !(c.ahead 1).kind.isSign || c.assigns
  else if c.kind.isSign then c.assigns
  else c.kind == .ident && (c.ahead 1).kind == .ident

namespace Parse

variable {c d : Cursor}

/-! ### A declaration with a literal -/

theorem initialized_equals (hk : c.kind = .equals) : initialized c = assigned c.advance := by
  have hlook : initialized c = (if c.kind == .equals then advance >>= fun _ => assigned
      else expect .semi >>= fun _ => Pure.pure Expr.missing) c := rfl
  rw [hlook, if_pos (beq_iff_eq.2 hk), advance_bind_apply]

/-- After the type, the name and the sign of a declaration comes what an assignment has there. -/
theorem trail_declaration {s x e : Token} (hs : s.kind = .kwString) (hx : x.kind = .ident)
    (he : e.kind = .equals) (c : Cursor) :
    (statement { c with last := none, rest := s :: x :: e :: c.rest }).trail
      = (assigned { c with last := some e }).trail := by
  let c₁ : Cursor := { c with last := none, rest := s :: x :: e :: c.rest }
  have hk₁ : c₁.kind = .kwString := hs
  have hk₂ : c₁.advance.kind = .ident := hx
  have hk₃ : c₁.advance.advance.kind = .equals := he
  have hstatement : statement c₁ = (some <$> varDecl) c₁ := by
    have hprint : c₁.startsPrint = false := by
      simp [Cursor.startsPrint, Token.isWord, show c₁.current.kind = .kwString from hk₁]
    show statementWith (statementWithin c₁.rest.length) c₁ = _
    rw [statementWith_apply, hk₁, hprint]
    rfl
  have hfinal : finalMark c₁ = ⟨false, [], c₁⟩ := by
    simp [finalMark, look, hk₁]
  obtain ⟨type, htype⟩ : ∃ type, typeSpec c₁ = ⟨some type, [], c₁.advance⟩ := by
    have hword : c₁.current.kind.isTypeWord = true := congrArg Kind.isTypeWord hk₁
    simp [typeSpec, look, spanned, advance, hword, hk₂]
  obtain ⟨name, hname⟩ : ∃ name,
      expectIdent c₁.advance = ⟨(name, true), [], c₁.advance.advance⟩ := by
    have hident : c₁.advance.current.kind = .ident := hk₂
    simp [expectIdent, expect, look, advance, hident]
  calc (statement c₁).trail = (varDecl c₁).trail := by
        rw [hstatement]
        exact trail_bind_pure _ _ _
    _ = (initialized c₁.advance.advance).trail := by
        rw [varDecl, trail_spanned, bind_of_apply hfinal, bind_of_apply htype]
        dsimp only
        rw [bind_of_apply hname]
        exact trail_bind_pure _ _ _
    _ = (assigned { c with last := some e }).trail := by
        rw [initialized_equals hk₃]
        rfl

/-! ### Expressions that start with a literal -/

theorem stepOp?_of_calm (hp : c.panicking = false) :
    if c.kind.isStep then ∃ op, stepOp? c = some op else stepOp? c = none := by
  rw [stepOp?, hp, if_neg Bool.false_ne_true]
  generalize c.kind = k
  cases k <;> first | rfl | exact ⟨_, rfl⟩

theorem no_operator_of_literal {k : Kind} {sort : LiteralSort}
    (h : LiteralSort.ofKind? k = some sort) :
    UnaryOp.ofKind? k = none ∧ k ≠ .lparen := by
  cases k <;> first | exact ⟨rfl, by decide⟩ | exact nomatch h

/-- A literal at the start of an expression: a step operator behind it belongs to it, and what is
behind that is joined. -/
theorem expression_literal (hc : c.Ended) (hp : c.panicking = false) {sort : LiteralSort}
    (hk : LiteralSort.ofKind? c.kind = some sort) :
    ∃ left, expression c = joined operand tiers left
      (if c.advance.kind.isStep then c.advance.advance else c.advance) := by
  obtain ⟨hop, hparen⟩ := no_operator_of_literal hk
  have hprimary : primary (climb operand tiers) c
      = ⟨.literal c.current.span sort c.current.value, [], c.advance⟩ := by
    rw [primary_apply, hk]
    rfl
  have hstepped : ∃ left, stepped (climb operand tiers) c
      = ⟨left, [], if c.advance.kind.isStep then c.advance.advance else c.advance⟩ := by
    have hstep := stepOp?_of_calm (c := c.advance) ((Cursor.panicking_advance c).trans hp)
    have hcursor : (primary (climb operand tiers) c).cursor = c.advance := by rw [hprimary]
    split at hstep
    · next hk =>
      obtain ⟨op, hop⟩ := hstep
      rw [← hcursor] at hop
      rw [stepped_some hop, hprimary, if_pos hk]
      exact ⟨_, rfl⟩
    · next hk =>
      rw [← hcursor] at hstep
      rw [stepped_none hstep, hprimary, if_neg hk]
      exact ⟨_, rfl⟩
  obtain ⟨left, hleft⟩ := hstepped
  have hoperand := (operand_eq_stepped hc hop hparen).trans hleft
  refine ⟨left, ?_⟩
  rw [expression_eq hc, climb_eq_joined, bind_of_apply hoperand]

end Parse

/-! ### Behind the cut -/

/-- Right behind a string literal that was cut off, where a statement can start on a later line. -/
structure Cursor.BehindCut (q : Token) (c : Cursor) : Prop where
  last : c.last = some q
  literal : q.kind = .stringLit
  cut : q.unterminated = true
  later : q.span.stop.line < c.current.span.start.line
  starts : c.kind.startsStatement = true
  ended : c.Ended
  calm : c.panicking = false

namespace Cursor.BehindCut

open Parse

variable {q : Token} {c : Cursor} (h : c.BehindCut q)

include h

theorem kind_ne {k : Kind} (hk : k.startsStatement = false) : c.kind ≠ k := by
  rintro rfl
  exact Bool.false_ne_true (hk.symm.trans h.starts)

theorem rest_ne_nil : c.rest ≠ [] := by
  obtain ⟨ts, hts⟩ := rest_eq_of_kind h.ended (h.kind_ne rfl)
  rw [hts]
  exact List.cons_ne_nil _ _

/-- Right behind the literal nothing is complained about. -/
theorem fail_silent (x : Complaint) : fail x c = ⟨(), [], { c with panicking := true }⟩ := by
  simp [fail, h.calm, h.last, h.cut]

/-- Recovery finds the start of the statement right away. -/
theorem resume_eq {n : Nat} (hn : c.rest.length < n) :
    resume n { c with panicking := true } = c := by
  let g : Cursor := { c with panicking := true }
  have hrest : g.rest ≠ [] := h.rest_ne_nil
  have hless : g.rest.length < n := hn
  have hended : g.endedBy [.semi] n = false := by
    have hlast : g.last = some q := h.last
    simp [endedBy, hlast, h.literal]
  have hhalts : g.haltsStatement n = true := by
    have hline : g.atLineStart = true := by
      show (c.last.any fun t => t.span.stop.line < c.current.span.start.line) = true
      rw [h.last]
      exact decide_eq_true h.later
    have hstarts : g.kind.startsStatement = true := h.starts
    simp [haltsStatement, hline, hstarts, hless]
  have hstay : g.endStatement n = g := by
    have hpast : g.past .semi = g := if_neg (h.kind_ne rfl)
    rw [endStatement, hended, if_neg Bool.false_ne_true, skipTo_of_halt hrest hhalts, hpast]
  have hsettle : (settle endStatement n g).cursor = c := by
    simp only [settle, move, hstay, g, if_true]
    rw [← h.calm]
  show (nudge n (settle endStatement n g).cursor).cursor = c
  rw [hsettle, nudge, move]
  exact if_neg (Nat.ne_of_lt hn)

/-- The semicolon of the declaration is missing, and the statement is all that is left. -/
theorem faultsFrom_expect {n : Nat} (hn : c.rest.length < n) :
    faultsFrom n (expect .semi) c = faults c := by
  have htrail := (trail_expect_fails (h.kind_ne (k := .semi) rfl)).trans
    (congrArg Step.trail (h.fail_silent _))
  rw [faultsFrom, (Prod.mk.inj htrail).1, (Prod.mk.inj htrail).2, List.nil_append, h.resume_eq hn]

end Cursor.BehindCut

/-! ### Statements of their own -/

namespace Parse

variable {q : Token} {c d : Cursor}

/-- What can start a statement and is no sign joins nothing. -/
theorem op?_of_startsStatement {k : Kind} (hk : k.startsStatement = true)
    (hsign : k.isSign = false) : ∀ tier ∈ tiers, tier.op? k = none := by
  cases k <;> first
    | exact absurd hk Bool.false_ne_true
    | decide
    | exact absurd hsign (by decide)

theorem noneJoins_of_startsStatement (hk : c.kind.startsStatement = true)
    (hsign : c.kind.isSign = false) : NoneJoins tiers c := by
  intro tier htier
  rw [tierOp?, op?_of_startsStatement hk hsign tier htier, ite_self]

/-- Right behind the cut a statement is read as on its own, unless it starts with two
identifiers. -/
theorem statement_facing (h : c.BehindCut q) (hd : Cursor.Facing d c)
    (htwo : ¬ (d.kind = .ident ∧ (d.ahead 1).kind = .ident)) : statement c = statement d := by
  rw [statement_eq, statement_eq, hd.rest]
  rcases statementWith_facing hd (statementWithin d.rest.length) with heq | ⟨x, -, -, hcase⟩
  · exact heq
  · rcases hcase with hcase | hcase
    · exact absurd hcase htwo
    · have hstarts := h.starts
      rw [hd.kind, hcase] at hstarts
      cases hstarts

theorem faults_congr (hd : Cursor.Facing d c) (hstatement : statement c = statement d) :
    faults c = faults d := by
  have hc : c.rest ≠ [] := hd.rest ▸ hd.ahead
  rw [faults_eq hc, faults_eq hd.ahead, hstatement, hd.rest]

/-- Two identifiers are complained about, but not right behind the cut. -/
theorem faults_two (h : c.BehindCut q) (hd : Cursor.Facing d c) (hlast : d.last = none)
    (htwo : d.kind = .ident ∧ (d.ahead 1).kind = .ident) :
    faults d = (Complaint.unknownType d.current.value).diagnostic d :: faults c := by
  have hfails : ∀ e : Cursor, Cursor.Facing d e → statement e
      = (fail (.unknownType d.current.value) >>= fun _ =>
        (Pure.pure none : Parse .short (Option Stmt))) e := by
    intro e he
    rw [statement_eq, statementWith_apply, he.kind, he.ahead_eq, he.current, if_pos]
    rw [htwo.1, htwo.2]
    rfl
  have hcalm : d.panicking = false := hd.panicking.symm.trans h.calm
  have hsaid : statement d = ⟨none, [(Complaint.unknownType d.current.value).diagnostic d],
      { d with panicking := true }⟩ := by
    rw [hfails d ⟨rfl, rfl, rfl, hd.ahead⟩, bind_apply, fail_quiet _ hcalm (by simp [hlast])]
    rfl
  have hunsaid : statement c = ⟨none, [], { c with panicking := true }⟩ := by
    rw [hfails c hd, bind_apply, h.fail_silent]
    rfl
  have hmeet : resume d.rest.length { c with panicking := true }
      = resume d.rest.length { d with panicking := true } := settled_anew hd
  rw [faults_eq hd.ahead, faults_eq h.rest_ne_nil, hsaid, hunsaid, congrArg List.length hd.rest,
    hmeet]
  rfl

/-- A statement right behind the cut, all of it still ahead. -/
theorem faults_facing (h : c.BehindCut q) (hd : Cursor.Facing d c) (hlast : d.last = none) :
    faults c = faults d ↔ ¬ (d.kind = .ident ∧ (d.ahead 1).kind = .ident) := by
  refine ⟨fun heq htwo => ?_, fun htwo => faults_congr hd (statement_facing h hd htwo)⟩
  rw [faults_two h hd hlast htwo] at heq
  exact List.cons_ne_self _ _ heq.symm

end Parse

/-! ### Behind a step operator -/

namespace Parse

variable {b : Token} {ts : List Token} {c d : Cursor}

/-- Where no operator joins, the semicolon is wanted. -/
theorem faultsFrom_joined_none (hp : c.panicking = false) (hnone : NoneJoins tiers c) (left : Expr)
    (n : Nat) : faultsFrom n (joined operand tiers left >>= closed) c
      = faultsFrom n (expect .semi) c := by
  apply faultsFrom_congr
  rw [bind_of_apply (joined_none operand hnone left)]
  exact trail_closed_calm hp left

theorem faultsFrom_joined_op (hc : c.Ended) (hop : ¬ NoneJoins tiers c) (left : Expr) (n : Nat) :
    faultsFrom n (joined operand tiers left >>= closed) c = faultsFrom n assigned c.advance :=
  faultsFrom_congr (trail_bind (trail_joined_expression hc hop left) trail_closed)

section Apart

variable (h : d.Before b ts) (hk : (UnaryOp.ofKind? d.kind).isSome)
  (hwhole : b.unterminated = false)

include h hk hwhole

/-- An expression behind an operator that belongs to the literal: the semicolon that is missing is
not missing in the statement. -/
theorem faultsFrom_starts_ne (hstarts : d.advance.kind.startsExpression = true)
    (hsign : d.advance.kind.isSign = false) (left : Expr) (n : Nat) :
    faultsFrom n (joined operand tiers left >>= closed) d.advance ≠ faults d := by
  have hstatement : d.advance.kind.startsStatement = true := by
    simp [Kind.startsStatement, hstarts]
  have hnone : NoneJoins tiers d.advance := noneJoins_of_startsStatement hstatement hsign
  have hother : ∀ k : Kind, k.startsExpression = false → d.advance.kind ≠ k := by
    rintro k hno rfl
    exact Bool.false_ne_true (hno.symm.trans hstarts)
  obtain ⟨us, hus⟩ := h.exists_next (hother .eof rfl)
  obtain ⟨ds, hds⟩ := faultsFrom_expect_fails h.calm_advance (h.whole_advance hwhole)
    (hother .semi rfl) n
  rw [faultsFrom_joined_none h.calm_advance hnone, hds]
  intro heq
  have hmem : (Complaint.token .semi d.advance.current).diagnostic d.advance ∈ faults d :=
    heq ▸ List.mem_cons_self
  rcases faults_starts h hk hus hstarts _ hmem with htarget | hranged
  · cases congrArg Diagnostic.category htarget
  · have hlate : d.advance.current.span.start
        < ((Complaint.token .semi d.advance.current).span d.advance).start := hranged.start
    rcases start_span (Complaint.token .semi d.advance.current) h.last_advance with hstop | hstart
    · have hapart : b.span.stop ≤ d.advance.current.span.start :=
        (List.pairwise_cons.1 h.spaced.apart).1 _ (hus ▸ List.mem_cons_self)
      rw [hstop] at hlate
      exact not_le_of_gt hlate hapart
    · rw [hstart] at hlate
      exact lt_irrefl _ hlate

/-- No expression behind an operator that belongs to the literal: the expression that is missing in
the statement is not missed. -/
theorem faultsFrom_fails_ne (hstarts : d.advance.kind.startsExpression = false) (left : Expr)
    (n : Nat) : faultsFrom n (joined operand tiers left >>= closed) d.advance ≠ faults d := by
  obtain ⟨ds, hds⟩ := faults_fails h hk hwhole hstarts
  rw [hds]
  -- what is complained about behind the next token is not that token
  have hread : d.advance.kind ≠ .eof → ∀ xs : List Diagnostic,
      (d.advance.advance.Ranged (d.advance.current.span.start < ·) →
        ∀ x ∈ xs, x.span.Ranged (d.advance.current.span.start < ·)) →
      xs ≠ (Complaint.expression d.advance.current).diagnostic d.advance :: ds := by
    rintro heof xs hxs rfl
    obtain ⟨us, hus⟩ := h.exists_next heof
    have hnext : d.advance.Before d.advance.current us := (hus ▸ h).next
    have hlate : d.advance.current.span.start
        < ((Complaint.expression d.advance.current).span d.advance).start :=
      (hxs hnext.ranged _ List.mem_cons_self).start
    rw [span_expression] at hlate
    exact lt_irrefl _ hlate
  by_cases hnone : NoneJoins tiers d.advance
  · rw [faultsFrom_joined_none h.calm_advance hnone]
    by_cases hsemi : d.advance.kind = .semi
    · refine hread ?_ _ fun hranged => ranged_faultsFrom_expect hsemi hranged n
      rw [hsemi]
      exact nofun
    · obtain ⟨es, hes⟩ := faultsFrom_expect_fails h.calm_advance (h.whole_advance hwhole) hsemi n
      rw [hes]
      intro heq
      have hcategory : Category.closed .missingSemicolon
          = Category.closed (Complaint.expression d.advance.current).category :=
        congrArg Diagnostic.category (List.cons.inj heq).1
      rcases category_expression d.advance.current with hother | hother
      all_goals
        rw [hother] at hcategory
        cases hcategory
  · rw [faultsFrom_joined_op (ended_advance h.ended) hnone]
    refine hread ?_ _ fun hranged =>
      ranged_faultsFrom hranged (keeps_assigned.mono fun _ _ => trivial) n
    intro heof
    apply hnone
    intro tier htier
    rw [tierOp?, heof, op?_eof tier htier, ite_self]

end Apart

/-- A step operator that belongs to the literal, and no sign behind it: what is complained about is
not what is wrong with the statement. -/
theorem faultsFrom_step_ne (h : d.Before b ts) (hk : (UnaryOp.ofKind? d.kind).isSome)
    (hwhole : b.unterminated = false) (hsign : d.advance.kind.isSign = false) (left : Expr)
    (n : Nat) : faultsFrom n (joined operand tiers left >>= closed) d.advance ≠ faults d := by
  cases hstarts : d.advance.kind.startsExpression with
  | true => exact faultsFrom_starts_ne h hk hwhole hstarts hsign left n
  | false => exact faultsFrom_fails_ne h hk hwhole hstarts left n

/-! ### Behind a declaration that was cut off -/

/-- The statements ahead, in front of them a declaration with a literal that was cut off: the
literal takes a step operator, and what is behind that is joined to it. -/
theorem faults_declaration {s x e : Token} (hs : s.kind = .kwString) (hx : x.kind = .ident)
    (he : e.kind = .equals) (h : c.BehindCut q) :
    ∃ left, faults { c with last := none, rest := s :: x :: e :: q :: c.rest }
      = faultsFrom (c.rest.length + 4) (joined operand tiers left >>= closed)
        (if c.kind.isStep then c.advance else c) := by
  let literal : Cursor := { c with last := some e, rest := q :: c.rest }
  have hbehind : literal.advance = c := by
    show ({ c with last := some q } : Cursor) = c
    rw [← h.last]
  have hliteral : LiteralSort.ofKind? literal.kind = some .string :=
    congrArg LiteralSort.ofKind? h.literal
  obtain ⟨left, hleft⟩ := expression_literal (c := literal) h.ended h.calm hliteral
  rw [hbehind] at hleft
  refine ⟨left, ?_⟩
  have htrail := trail_declaration hs hx he { c with rest := q :: c.rest }
  have hread : (assigned literal).trail = ((joined operand tiers left >>= closed)
      (if c.kind.isStep then c.advance else c)).trail := by
    rw [assigned_eq, Step.trail, Step.trail, bind_apply, bind_apply, hleft]
  exact (faults_eq (List.cons_ne_nil s _)).trans (faultsFrom_congr (htrail.trans hread))

theorem unaryOp_of_isSign {k : Kind} (hk : k.isSign = true) : (UnaryOp.ofKind? k).isSome := by
  cases k <;> first | rfl | exact absurd hk Bool.false_ne_true

theorem unaryOp_of_isStep {k : Kind} (hk : k.isStep = true) : (UnaryOp.ofKind? k).isSome := by
  cases k <;> first | rfl | exact absurd hk Bool.false_ne_true

theorem not_noneJoins_of_isSign (hp : c.panicking = false) (hk : c.kind.isSign = true) :
    ¬ NoneJoins tiers c := by
  intro hnone
  have hadditive := hnone ⟨.additive, [(.plus, .add), (.minus, .sub)]⟩ (by decide)
  rw [tierOp?, hp, if_neg Bool.false_ne_true] at hadditive
  generalize c.kind = k at hk hadditive
  cases k <;> first | exact absurd hk Bool.false_ne_true | cases hadditive

/-- A sign that joins two operands is read as one in front of the second. -/
theorem faultsFrom_joined_sign (hc : c.Ended) (hp : c.panicking = false)
    (hk : c.kind.isSign = true) (left : Expr) (n : Nat) :
    faultsFrom n (joined operand tiers left >>= closed) c = faultsFrom n assigned c := by
  rw [faultsFrom_joined_op hc (not_noneJoins_of_isSign hp hk)]
  exact faultsFrom_congr (trail_assigned_advance hc (unaryOp_of_isSign hk)).symm

/-- What is no sign does not belong to the declaration. -/
theorem faultsFrom_declaration (h : c.BehindCut q) (hsign : c.kind.isSign = false) (left : Expr) :
    faultsFrom (c.rest.length + 4) (joined operand tiers left >>= closed) c = faults c := by
  have hnone := noneJoins_of_startsStatement h.starts hsign
  rw [faultsFrom_joined_none h.calm hnone]
  exact h.faultsFrom_expect (Nat.lt_add_of_pos_right (Nat.succ_pos 3))

/-- What stands behind the literal is complained about as on its own if and only if it is not led
astray. -/
theorem faults_declaration_iff {s x e b : Token} {ts : List Token} (hs : s.kind = .kwString)
    (hx : x.kind = .ident) (he : e.kind = .equals) (h : c.BehindCut q) (hd : Cursor.Facing d c)
    (hlast : d.last = none) (hb : d.Before b ts)
    (hwhole : b.unterminated = true → (LiteralSort.ofKind? b.kind).isSome) :
    faults { c with last := none, rest := s :: x :: e :: q :: c.rest } = faults d
      ↔ d.astray = false := by
  obtain ⟨left, hleft⟩ := faults_declaration hs hx he h
  have hlength : d.rest.length ≤ c.rest.length + 4 := by rw [hd.rest]; omega
  have hahead : (d.ahead 1).kind = d.advance.kind := congrArg Token.kind hb.current_advance.symm
  rw [hleft, hd.kind, Cursor.astray, hahead]
  cases hstep : d.kind.isStep with
  | true =>
    have hunary := unaryOp_of_isStep hstep
    simp only [if_true, hd.advance]
    cases hsign : d.advance.kind.isSign with
    | true =>
      rw [faultsFrom_joined_sign (ended_advance hb.ended) hb.calm_advance hsign,
        faultsFrom_congr (trail_assigned_advance hb.ended hunary).symm,
        faultsFrom_assigned_iff hb hunary hlength]
      simp
    | false =>
      have hcut : b.unterminated = false := by
        rw [← Bool.not_eq_true]
        intro hcut
        obtain ⟨sort, hsort⟩ := Option.isSome_iff_exists.1 (hwhole hcut)
        rw [Cursor.kind, hb.current, (no_operator_of_literal hsort).1] at hunary
        cases hunary
      have hne := faultsFrom_step_ne hb hunary hcut hsign left (c.rest.length + 4)
      simp [hne]
  | false =>
    simp only [Bool.false_eq_true, if_false]
    cases hsign : d.kind.isSign with
    | true =>
      have hsignc : c.kind.isSign = true := hd.kind ▸ hsign
      have hunary := unaryOp_of_isSign hsign
      have hmove : (assigned c).trail = (assigned d).trail := by
        rw [trail_assigned_advance h.ended (unaryOp_of_isSign hsignc), hd.advance,
          trail_assigned_advance hb.ended hunary]
      rw [faultsFrom_joined_sign h.ended h.calm hsignc, faultsFrom_congr hmove,
        faultsFrom_assigned_iff hb hunary hlength]
      simp
    | false =>
      rw [faultsFrom_declaration h (hd.kind ▸ hsign) left, faults_facing h hd hlast]
      simp [hahead]

end Parse

section Lists

variable {s x e q b : Token} {ts : List Token} (hs : s.kind = .kwString) (hx : x.kind = .ident)
  (he : e.kind = .equals) (hq : q.kind = .stringLit) (hcut : q.unterminated = true)
  (hend : ∀ t ∈ b :: ts, t.kind ≠ .eof) (hline : q.span.stop.line < b.span.start.line)
  (hstarts : b.kind.startsStatement = true)

include hs hx he hq hend

theorem ofTokens_declaration : Cursor.ofTokens (s :: x :: e :: q :: b :: ts)
    = (⟨none, s :: x :: e :: q :: b :: ts, Cursor.impliedEnd (b :: ts), (), false⟩ : Cursor) := by
  have hwhole : ∀ t ∈ s :: x :: e :: q :: b :: ts, t.kind ≠ .eof := by
    simp only [List.forall_mem_cons, hs, hx, he, hq]
    exact ⟨nofun, nofun, nofun, nofun, List.forall_mem_cons.1 hend⟩
  rw [Cursor.ofTokens_of_no_end hwhole]
  simp only [Cursor.impliedEnd, List.getLast?_cons_cons]

include hcut hline hstarts

/-- Where the statements start with two identifiers, the complaint about the unknown type is lost,
and nothing else. -/
theorem parseStatements_two_identifiers (hb : b.kind = .ident)
    (hnext : ((Cursor.ofTokens (b :: ts) : Cursor).ahead 1).kind = .ident) :
    (parseStatements (b :: ts)).diagnostics
      = (Complaint.unknownType b.value).diagnostic (.ofTokens (b :: ts) : Cursor)
        :: (parseStatements (s :: x :: e :: q :: b :: ts)).diagnostics := by
  have hbehind : Cursor.BehindCut q ⟨some q, b :: ts, Cursor.impliedEnd (b :: ts), (), false⟩ :=
    ⟨rfl, hq, hcut, hline, hstarts, rfl, rfl⟩
  obtain ⟨left, hleft⟩ := Parse.faults_declaration hs hx he hbehind
  have hown : Parse.faults
      ⟨none, s :: x :: e :: q :: b :: ts, Cursor.impliedEnd (b :: ts), (), false⟩
      = Parse.faults ⟨some q, b :: ts, Cursor.impliedEnd (b :: ts), (), false⟩ := by
    have hstep : ¬ b.kind.isStep = true := by rw [hb]; exact nofun
    have hsign : b.kind.isSign = false := by rw [hb]; rfl
    rw [← Parse.faultsFrom_declaration hbehind hsign left]
    exact hleft.trans (congrArg _ (if_neg hstep))
  rw [Cursor.ofTokens_of_no_end hend] at hnext
  have htwo := Parse.faults_two hbehind
    (d := ⟨none, b :: ts, Cursor.impliedEnd (b :: ts), (), false⟩)
    ⟨rfl, rfl, rfl, List.cons_ne_nil b ts⟩ rfl ⟨hb, hnext⟩
  rw [Parse.faults_ofTokens, Parse.faults_ofTokens, Cursor.ofTokens_of_no_end hend,
    ofTokens_declaration hs hx he hq hend, hown]
  exact htwo

/-- A declaration with a string literal that was cut off, and statements on later lines: they are
complained about as if they stood alone, if and only if they are not led astray. -/
theorem parseStatements_cut_iff {source : Text} (hsource : b :: ts <:+: (lex source).tokens) :
    (parseStatements (s :: x :: e :: q :: b :: ts)).diagnostics
        = (parseStatements (b :: ts)).diagnostics
      ↔ (Cursor.ofTokens (b :: ts)).astray = false := by
  obtain ⟨hspaced, hliteral⟩ := spaced_of_infix_lex hsource hend
  have hbehind : Cursor.BehindCut q ⟨some q, b :: ts, Cursor.impliedEnd (b :: ts), (), false⟩ :=
    ⟨rfl, hq, hcut, hline, hstarts, rfl, rfl⟩
  have hiff := Parse.faults_declaration_iff hs hx he hbehind
    (d := ⟨none, b :: ts, Cursor.impliedEnd (b :: ts), (), false⟩)
    ⟨rfl, rfl, rfl, List.cons_ne_nil b ts⟩ rfl ⟨rfl, rfl, rfl, hspaced⟩
    (hliteral b List.mem_cons_self)
  rw [Parse.faults_ofTokens, Parse.faults_ofTokens, Cursor.ofTokens_of_no_end hend,
    ofTokens_declaration hs hx he hq hend]
  exact hiff

end Lists

/-- The declaration `String s = "abc`, its literal cut off. -/
def cutDeclaration : List Token :=
  [⟨.kwString, "String", ⟨⟨1, 1⟩, ⟨1, 7⟩⟩, false⟩, ⟨.ident, "s", ⟨⟨1, 8⟩, ⟨1, 9⟩⟩, false⟩,
    ⟨.equals, "=", ⟨⟨1, 10⟩, ⟨1, 11⟩⟩, false⟩, ⟨.stringLit, "\"abc", ⟨⟨1, 12⟩, ⟨1, 16⟩⟩, true⟩]

/-- The line `int y = 2` after it, without a semicolon. -/
def unended : List Token :=
  [⟨.kwInt, "int", ⟨⟨2, 1⟩, ⟨2, 4⟩⟩, false⟩, ⟨.ident, "y", ⟨⟨2, 5⟩, ⟨2, 6⟩⟩, false⟩,
    ⟨.equals, "=", ⟨⟨2, 7⟩, ⟨2, 8⟩⟩, false⟩, ⟨.intLit, "2", ⟨⟨2, 9⟩, ⟨2, 10⟩⟩, false⟩]

/-- The line `string t;` after it, with an unknown type. -/
def unknownTyped : List Token :=
  [⟨.ident, "string", ⟨⟨2, 1⟩, ⟨2, 7⟩⟩, false⟩, ⟨.ident, "t", ⟨⟨2, 8⟩, ⟨2, 9⟩⟩, false⟩,
    ⟨.semi, ";", ⟨⟨2, 9⟩, ⟨2, 10⟩⟩, false⟩]

/-- The missing semicolon is complained about behind the literal, too. -/
theorem parseStatements_cut_iff_unended :
    (Cursor.ofTokens unended).astray = false
      ∧ (parseStatements unended).diagnostics.length = 1
      ∧ ((parseStatements (cutDeclaration ++ unended)).diagnostics
          = (parseStatements unended).diagnostics
        ↔ (Cursor.ofTokens unended).astray = false) :=
  have hsource : unended <:+: (lex "String s = \"abc\nint y = 2").tokens :=
    ⟨cutDeclaration, [.endOfInput ⟨2, 10⟩], by cbv⟩
  ⟨by decide, by decide +kernel,
    parseStatements_cut_iff rfl rfl rfl rfl rfl (by decide) (by decide) rfl hsource⟩

/-- The unknown type is not complained about behind the literal. -/
theorem parseStatements_cut_unknownTyped :
    unknownTyped <:+: (lex "String s = \"abc\nstring t;").tokens
      ∧ (parseStatements unknownTyped).diagnostics
        = [.make .missingType "'string' is not a known type" ⟨⟨2, 1⟩, ⟨2, 7⟩⟩]
      ∧ (parseStatements (cutDeclaration ++ unknownTyped)).diagnostics = [] :=
  ⟨⟨cutDeclaration, [.endOfInput ⟨2, 10⟩], by cbv⟩, by decide +kernel, by decide +kernel⟩

end JavaPrimer
