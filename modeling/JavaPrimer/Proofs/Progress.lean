import JavaPrimer.Parsing.Program

/-!
# Parse steps only move forward

Whatever a parse step meets, it does nothing to the tokens but consume some of those ahead, one
after the other, and the end of input stays the same. A construct with its recovery consumes a
token whenever one is left, so a repetition bounded by the tokens ahead ends only where its
condition fails.

* `Cursor.Consumed`, `Cursor.Onward` — some tokens were consumed, nothing else happened to them;
* `Parse.Forward` — a step that only moves onward;
* `Parse.forward_statement`, `Parse.forward_classOrSkip` — every construct moves forward;
* `Parse.recovering_lt` — recovery makes progress;
* `Parse.more_whileMore` — a repetition with progress ends where its condition fails;
* `Parse.rest_statements`, `Parse.rest_program` — a whole run leaves no token.
-/

namespace JavaPrimer

variable {ρ : Reach}

namespace Cursor

/-- From one place to a later one some tokens have been consumed. -/
structure Consumed (c : Cursor ρ) (ts : List Token) (d : Cursor ρ) : Prop where
  rest : c.rest = ts ++ d.rest
  last : d.last = ts.getLast?.or c.last

theorem Consumed.refl (c : Cursor ρ) : c.Consumed [] c := ⟨rfl, rfl⟩

theorem Consumed.trans {c d e : Cursor ρ} {us vs : List Token} (hus : c.Consumed us d)
    (hvs : d.Consumed vs e) : c.Consumed (us ++ vs) e := by
  refine ⟨?_, ?_⟩
  · rw [hus.rest, hvs.rest, List.append_assoc]
  · rw [hvs.last, hus.last, List.getLast?_append, Option.or_assoc]

theorem Consumed.suffix {c d : Cursor ρ} {ts : List Token} (h : c.Consumed ts d) :
    d.rest <:+ c.rest := ⟨ts, h.rest.symm⟩

theorem consumed_advance {c : Cursor ρ} {t : Token} {ts : List Token} (h : c.rest = t :: ts) :
    c.Consumed [t] c.advance := by
  rw [advance_cons h]
  exact ⟨h, rfl⟩

/-- From one place to a later one: tokens have been consumed, one after the other. The panic flag
is no part of the place. -/
inductive Onward (c : Cursor ρ) : Cursor ρ → Prop
  | refl : Onward c c
  | advance {d : Cursor ρ} (h : Onward c d) : Onward c d.advance
  | panic {d : Cursor ρ} (h : Onward c d) (b : Bool) : Onward c { d with panicking := b }

theorem Onward.trans {c d e : Cursor ρ} (hd : c.Onward d) (he : d.Onward e) : c.Onward e := by
  induction he with
  | refl => exact hd
  | advance _ ih => exact ih.advance
  | panic _ b ih => exact ih.panic b

theorem onward_advance (c : Cursor ρ) : c.Onward c.advance := Onward.refl.advance

/-- A short cursor consumes no end of input on the way. -/
theorem Onward.consumed {c d : Cursor} (h : c.Onward d) : ∃ ts, c.Consumed ts d := by
  induction h with
  | refl => exact ⟨[], .refl c⟩
  | @advance d _ ih =>
    obtain ⟨ts, hts⟩ := ih
    cases hr : d.rest with
    | nil => exact ⟨ts, by rwa [advance_nil hr]⟩
    | cons t us => exact ⟨ts ++ [t], hts.trans (consumed_advance hr)⟩
  | panic _ b ih =>
    obtain ⟨ts, hts⟩ := ih
    exact ⟨ts, hts.rest, hts.last⟩

theorem Onward.stop {c d : Cursor} (h : c.Onward d) : d.stop = c.stop := by
  induction h with
  | refl => rfl
  | advance _ ih => rw [stop_advance, ih]
  | panic _ _ ih => exact ih

theorem Onward.suffix {c d : Cursor} (h : c.Onward d) : d.rest <:+ c.rest := by
  obtain ⟨ts, hts⟩ := h.consumed
  exact hts.suffix

/-- Skipping among the tokens ahead consumes a front of them. -/
theorem onward_skipTo_loop (c : Cursor ρ) (halt : Cursor ρ → Bool) (rest : List Token) :
    ∀ last, { c with last := last, rest := rest }.Onward (skipTo.loop halt c last rest) := by
  induction rest with
  | nil => exact fun last => .refl
  | cons t rest ih =>
    intro last
    simp only [skipTo.loop]
    split
    · exact .refl
    · exact (onward_advance { c with last := last, rest := t :: rest }).trans (ih (some t))

theorem onward_skipTo (halt : Cursor ρ → Bool) (c : Cursor ρ) : c.Onward (c.skipTo halt) :=
  onward_skipTo_loop c halt c.rest c.last

theorem onward_past (k : Kind) (c : Cursor ρ) : c.Onward (c.past k) := by
  unfold past
  split
  · exact onward_advance c
  · exact .refl

theorem onward_skipBody_loop (c : Cursor ρ) (rest : List Token) :
    ∀ depth last,
      { c with last := last, rest := rest }.Onward (skipBody.loop c depth last rest) := by
  induction rest with
  | nil => exact fun depth last => .refl
  | cons t rest ih =>
    intro depth last
    have hstep := onward_advance { c with last := last, rest := t :: rest }
    simp only [skipBody.loop]
    split
    · exact hstep.trans (ih _ _)
    · split
      · exact hstep
      · exact hstep.trans (ih _ _)
    · exact hstep.trans (ih _ _)

theorem onward_skipBody (c : Cursor ρ) : c.Onward c.skipBody :=
  onward_skipBody_loop c c.rest 0 c.last

/-- A way to skip that only moves onward. -/
def Skips (skip : Nat → Cursor ρ → Cursor ρ) : Prop :=
  ∀ start (c : Cursor ρ), c.Onward (skip start c)

theorem endStatement_skips : Skips (endStatement (ρ := ρ)) := by
  intro start c
  unfold endStatement
  split
  · exact .refl
  · exact (onward_skipTo _ c).trans (onward_past .semi _)

theorem endMember_skips : Skips (endMember (ρ := ρ)) := by
  intro start c
  unfold endMember
  split
  · exact .refl
  · dsimp only
    split
    · exact (onward_skipTo _ c).trans (onward_skipBody _)
    · exact (onward_skipTo _ c).trans (onward_past .semi _)

theorem endClass_skips : Skips (endClass (ρ := ρ)) := fun _ c => onward_skipTo _ c

end Cursor

namespace Parse

variable {α β : Type}

/-- A step after which some of the tokens ahead have been consumed, and nothing else has happened
to them. -/
def Forward (p : Parse ρ α) : Prop :=
  ∀ c : Cursor ρ, c.Onward (p c).cursor

/-! ### Steps that only look, move or complain -/

theorem Forward.length_le {p : Parse .short α} (h : Forward p) (c : Cursor) :
    (p c).cursor.rest.length ≤ c.rest.length :=
  (h c).suffix.length_le

theorem forward_pure (a : α) : Forward (Pure.pure a : Parse ρ α) :=
  fun _ => .refl

theorem forward_bind {p : Parse ρ α} {f : α → Parse ρ β} (hp : Forward p)
    (hf : ∀ a, Forward (f a)) :
    Forward (p >>= f) :=
  fun c => (hp c).trans (hf (p c).value (p c).cursor)

theorem forward_map {p : Parse ρ α} (f : α → β) (hp : Forward p) : Forward (f <$> p) := by
  intro c
  rw [map_apply]
  exact hp c

theorem forward_look (f : Cursor ρ → α) : Forward (look f) := fun _ => .refl

theorem forward_panicking : Forward (panicking : Parse ρ _) := forward_look _

theorem forward_advance : Forward (advance : Parse ρ _) := Cursor.onward_advance

theorem forward_fail (x : Complaint) : Forward (fail x : Parse ρ _) := by
  intro c
  unfold fail
  split
  · exact .refl
  · split <;> exact Cursor.Onward.refl.panic true

/-- An error leaves a panic. -/
theorem panicking_fail (x : Complaint) (c : Cursor ρ) : (fail x c).cursor.panicking = true := by
  unfold fail
  split
  · next hp => exact hp
  · split <;> rfl

theorem forward_report (d : Diagnostic) : Forward (report d : Parse ρ _) :=
  forward_bind forward_panicking fun b => by
    cases b
    · exact fun _ => .refl
    · exact forward_pure ()

theorem forward_spanned {node : Parse ρ (Span → α)} (h : Forward node) : Forward (spanned node) :=
  forward_bind (forward_look _) fun _ =>
    forward_bind h fun _ => forward_bind (forward_look _) fun _ => forward_pure _

theorem forward_expect (k : Kind) : Forward (expect k : Parse ρ _) :=
  forward_bind (forward_look _) fun _ => by
    split
    · exact forward_bind forward_advance fun _ => forward_pure _
    · exact forward_bind (forward_fail _) fun _ => forward_pure _

theorem forward_expectAll (ks : List Kind) : Forward (expectAll ks : Parse ρ _) := by
  induction ks with
  | nil => exact forward_pure true
  | cons k rest ih =>
    refine forward_bind (forward_expect k) fun b => ?_
    cases b
    · exact forward_pure false
    · exact ih

theorem forward_expectIdent : Forward (expectIdent : Parse ρ _) :=
  forward_bind (forward_look _) fun _ => forward_bind (forward_expect _) fun _ => forward_pure _

theorem forward_expectWord (words : List Text) : Forward (expectWord words : Parse ρ _) :=
  forward_bind (forward_look _) fun _ => by
    split
    · exact forward_bind forward_advance fun _ => forward_pure _
    · exact forward_bind (forward_fail _) fun _ => forward_pure _

/-! ### Repetition -/

theorem forward_collect (more : Cursor ρ → Bool) {item : Parse ρ (Option α)} (h : Forward item)
    (n : Nat) : Forward (collect more item n) := by
  induction n with
  | zero => exact forward_pure []
  | succ n ih =>
    refine forward_bind (forward_look _) fun b => ?_
    cases b
    · exact forward_pure []
    · exact forward_bind h fun _ => forward_bind ih fun _ => forward_pure _

theorem forward_whileMore (more : Cursor ρ → Bool) {item : Parse ρ (Option α)} (h : Forward item) :
    Forward (whileMore more item) :=
  fun c => forward_collect more h c.rest.length c

theorem forward_collectUntil {item : Parse ρ (Option α)} (h : Forward item) (n : Nat) :
    Forward (collectUntil item n) := by
  induction n with
  | zero => exact forward_pure []
  | succ n ih =>
    refine forward_bind h fun x => ?_
    cases x with
    | none => exact forward_pure []
    | some x => exact forward_bind ih fun _ => forward_pure _

theorem forward_untilNone {item : Parse ρ (Option α)} (h : Forward item) :
    Forward (untilNone item) :=
  fun c => forward_collectUntil h (c.rest.length + 1) c

/-- A construct with its recovery: the value and the complaints are those of the construct. -/
theorem recovering_apply (skip : Nat → Cursor ρ → Cursor ρ) (item : Parse ρ α) (c : Cursor ρ) :
    recovering skip item c
      = ⟨(item c).value, (item c).diagnostics,
          (nudge c.rest.length (settle skip c.rest.length (item c).cursor).cursor).cursor⟩ := by
  show Step.mk (item c).value ((item c).diagnostics ++ []) _ = _
  rw [List.append_nil]
  rfl

theorem forward_settle {skip : Nat → Cursor ρ → Cursor ρ} (hs : Cursor.Skips skip) (start : Nat) :
    Forward (settle skip start) := by
  intro c
  simp only [settle, move]
  split
  · exact (hs start c).panic false
  · exact .refl

theorem forward_nudge (start : Nat) : Forward (nudge start : Parse ρ _) := by
  intro c
  simp only [nudge, move]
  split
  · exact Cursor.onward_advance c
  · exact .refl

theorem forward_recovering {skip : Nat → Cursor ρ → Cursor ρ} (hs : Cursor.Skips skip)
    {item : Parse ρ α} (h : Forward item) : Forward (recovering skip item) :=
  forward_bind (forward_look _) fun _ => forward_bind h fun _ =>
    forward_bind (forward_settle hs _) fun _ => forward_bind (forward_nudge _) fun _ =>
      forward_pure _

/-! ### Expressions -/

theorem forward_expressionExpected : Forward (expressionExpected : Parse ρ _) :=
  forward_bind (forward_look _) fun _ => forward_bind (forward_fail _) fun _ => forward_pure _

theorem forward_chain (tier : Tier) {operand : Parse ρ Expr} (h : Forward operand) :
    ∀ n left, Forward (chain tier operand n left)
  | 0, left => forward_pure left
  | n + 1, left => by
    refine forward_bind (forward_look _) fun op => ?_
    cases op with
    | none => exact forward_pure left
    | some op =>
      exact forward_bind forward_advance fun _ => forward_bind h fun _ => forward_chain tier h n _

theorem forward_climb {operand : Parse ρ Expr} (h : Forward operand) (ts : List Tier) :
    Forward (climb operand ts) := by
  induction ts with
  | nil => exact h
  | cons tier tighter ih =>
    exact forward_bind ih fun _ => forward_bind (forward_look _) fun _ => forward_chain tier ih _ _

section Operands

variable {expr : Parse ρ Expr} (h : Forward expr)

include h

theorem forward_argument : Forward (argument expr) :=
  forward_bind (forward_look _) fun b => by
    cases b
    · exact forward_pure none
    · exact forward_bind forward_advance fun _ => forward_bind h fun _ => forward_pure _

theorem forward_arguments : Forward (arguments expr) :=
  forward_bind (forward_look _) fun b => by
    cases b
    · exact forward_pure []
    · exact forward_bind h fun _ =>
        forward_bind (forward_untilNone (forward_argument h)) fun _ => forward_pure _

omit h in
theorem forward_fieldSelector : Forward (fieldSelector : Parse ρ _) :=
  forward_bind forward_advance fun _ => forward_bind forward_expectIdent fun _ => forward_pure _

theorem forward_callSelector : Forward (callSelector expr) :=
  forward_bind forward_advance fun _ => forward_bind (forward_arguments h) fun _ =>
    forward_bind forward_panicking fun b => by
      cases b
      · refine forward_bind (forward_expect _) fun b => ?_
        cases b
        · exact forward_pure none
        · exact forward_bind (forward_look _) fun _ => forward_pure _
      · exact forward_pure none

theorem forward_selector : Forward (selector expr) :=
  forward_bind forward_panicking fun b => by
    cases b
    · refine forward_bind (forward_look _) fun k => ?_
      split
      · exact forward_fieldSelector
      · exact forward_callSelector h
      · exact forward_pure none
    · exact forward_pure none

theorem forward_nameExpr : Forward (nameExpr expr) :=
  forward_spanned (forward_bind forward_advance fun _ =>
    forward_bind (forward_untilNone (forward_selector h)) fun _ => forward_pure _)

theorem forward_newExpr : Forward (newExpr expr) := by
  refine forward_spanned (forward_bind forward_advance fun _ =>
    forward_bind forward_expectIdent fun x => ?_)
  obtain ⟨name, there⟩ := x
  cases there
  · exact forward_pure _
  · refine forward_bind (forward_expect _) fun b => ?_
    cases b
    · exact forward_pure _
    · refine forward_bind (forward_arguments h) fun _ => forward_bind forward_panicking fun b => ?_
      cases b
      · exact forward_bind (forward_expect _) fun _ => forward_pure _
      · exact forward_pure _

theorem forward_parenExpr : Forward (parenExpr expr) :=
  forward_spanned (forward_bind forward_advance fun _ => forward_bind h fun _ =>
    forward_bind forward_panicking fun b => by
      cases b
      · exact forward_bind (forward_expect _) fun _ => forward_pure _
      · exact forward_pure _)

theorem forward_primary : Forward (primary expr) :=
  forward_bind (forward_look _) fun next => by
    split
    · exact forward_bind forward_advance fun _ => forward_pure _
    · split
      · exact forward_nameExpr h
      · exact forward_parenExpr h
      · exact forward_newExpr h
      · exact forward_expressionExpected

theorem forward_stepped : Forward (stepped expr) :=
  forward_bind (forward_primary h) fun _ => forward_bind (forward_look _) fun op => by
    cases op with
    | none => exact forward_pure _
    | some op => exact forward_bind forward_advance fun _ => forward_pure _

theorem forward_castExpr : Forward (castExpr expr) :=
  forward_bind forward_advance fun _ => forward_bind forward_advance fun _ =>
    forward_bind (forward_expect _) fun b => by
      cases b
      · exact forward_bind (forward_look _) fun _ =>
          forward_bind (forward_look _) fun _ => forward_pure _
      · exact forward_bind h fun _ => forward_pure _

theorem forward_unaryWith : Forward (unaryWith expr) :=
  forward_bind (forward_look _) fun op => by
    cases op with
    | none =>
      refine forward_bind (forward_look _) fun b => ?_
      cases b
      · exact forward_stepped (forward_climb h tiers)
      · exact forward_castExpr h
    | some op => exact forward_bind forward_advance fun _ => forward_bind h fun _ => forward_pure _

end Operands

theorem forward_unary (n : Nat) : Forward (unary n : Parse ρ _) := by
  induction n with
  | zero => exact forward_expressionExpected
  | succ n ih => exact forward_unaryWith ih

theorem forward_expression : Forward (expression : Parse ρ _) :=
  fun c => forward_climb (forward_unary (c.rest.length + 1)) tiers c

/-! ### Statements -/

theorem forward_typeSpec : Forward (typeSpec : Parse ρ _) :=
  forward_bind (forward_look _) fun word => by
    split
    · refine forward_spanned (forward_bind forward_advance fun _ =>
        forward_bind (forward_look _) fun b => ?_)
      cases b
      · exact forward_pure _
      · exact forward_bind forward_advance fun _ =>
          forward_bind (forward_expect _) fun _ => forward_pure _
    · exact forward_bind (forward_fail _) fun _ => forward_pure _

theorem forward_assigned : Forward (assigned : Parse ρ _) :=
  forward_bind forward_expression fun _ => forward_bind forward_panicking fun b => by
    cases b
    · exact forward_bind (forward_expect _) fun _ => forward_pure _
    · exact forward_pure _

theorem forward_initialized : Forward (initialized : Parse ρ _) :=
  forward_bind (forward_look _) fun b => by
    cases b
    · exact forward_bind (forward_expect _) fun _ => forward_pure _
    · exact forward_bind forward_advance fun _ => forward_assigned

theorem forward_finalMark : Forward (finalMark : Parse ρ _) :=
  forward_bind (forward_look _) fun b => by
    cases b
    · exact forward_pure false
    · exact forward_bind forward_advance fun _ => forward_pure _

theorem forward_varDecl : Forward (varDecl : Parse ρ _) :=
  forward_spanned (forward_bind forward_finalMark fun _ => forward_bind forward_typeSpec fun t => by
    cases t with
    | none => exact forward_pure _
    | some t =>
      refine forward_bind forward_expectIdent fun x => ?_
      obtain ⟨name, there⟩ := x
      cases there
      · exact forward_pure _
      · exact forward_bind forward_initialized fun _ => forward_pure _)

theorem forward_printArgument : Forward (printArgument : Parse ρ _) :=
  forward_bind (forward_look _) fun b => by
    cases b
    · exact forward_pure _
    · exact forward_expression

theorem forward_printStmt : Forward (printStmt : Parse ρ _) := by
  refine forward_spanned (forward_bind forward_advance fun _ => forward_bind forward_advance
    fun _ => forward_bind forward_advance fun _ => forward_bind forward_advance fun _ =>
    forward_bind (forward_expectWord _) fun x => ?_)
  obtain ⟨method, there⟩ := x
  cases there
  · exact forward_pure _
  · refine forward_bind (forward_expect _) fun b => ?_
    cases b
    · exact forward_pure _
    · refine forward_bind forward_printArgument fun _ => forward_bind forward_panicking fun b => ?_
      cases b
      · refine forward_bind (forward_expect _) fun b => ?_
        cases b
        · exact forward_pure _
        · exact forward_bind (forward_expect _) fun _ => forward_pure _
      · exact forward_pure _

theorem forward_exprStmt : Forward (exprStmt : Parse ρ _) :=
  forward_spanned (forward_bind forward_expression fun target =>
    forward_bind forward_panicking fun b => by
      cases b
      · refine forward_bind (forward_look _) fun op => ?_
        cases op with
        | none => exact forward_bind (forward_expect _) fun _ => forward_pure _
        | some op =>
          refine forward_bind forward_advance fun _ => ?_
          split
          · exact forward_bind forward_assigned fun _ => forward_pure _
          · exact forward_bind (forward_report _) fun _ =>
              forward_bind forward_assigned fun _ => forward_pure _
      · exact forward_pure _)

theorem forward_block {stmt : Parse ρ (Option Stmt)} (h : Forward stmt) : Forward (block stmt) :=
  forward_spanned (forward_bind forward_advance fun _ =>
    forward_bind (forward_whileMore _ (forward_recovering Cursor.endStatement_skips h)) fun _ =>
      forward_bind (forward_expect _) fun _ => forward_pure _)

theorem forward_statementWith {inner : Parse ρ (Option Stmt)} (h : Forward inner) :
    Forward (statementWith inner) :=
  forward_bind (forward_look _) fun c => by
    split
    · exact forward_bind (forward_fail _) fun _ => forward_pure _
    split
    · exact forward_map _ forward_printStmt
    split
    · exact forward_map _ forward_varDecl
    split
    · exact forward_map _ forward_exprStmt
    split
    · exact forward_bind (forward_block h) fun _ => forward_pure _
    · exact forward_bind (forward_fail _) fun _ => forward_pure _

theorem forward_statementWithin (n : Nat) : Forward (statementWithin n : Parse ρ _) := by
  induction n with
  | zero => exact forward_pure none
  | succ n ih => exact forward_statementWith ih

theorem forward_statement : Forward (statement : Parse ρ _) :=
  fun c => forward_statementWithin (c.rest.length + 1) c

/-! ### Classes -/

theorem forward_methodBody : Forward (methodBody : Parse ρ _) :=
  forward_bind (forward_look _) fun b => by
    cases b
    · exact forward_bind (forward_expect _) fun _ => forward_pure _
    · exact forward_map _ (forward_block forward_statement)

theorem forward_mainMethod : Forward (mainMethod : Parse ρ _) := by
  refine forward_spanned (forward_bind forward_advance fun _ => forward_bind forward_advance
    fun _ => forward_bind forward_advance fun _ => forward_bind forward_expectIdent fun x => ?_)
  obtain ⟨name, named⟩ := x
  cases named
  · exact forward_pure _
  · refine forward_bind (forward_expectAll _) fun b => ?_
    cases b
    · exact forward_pure _
    · refine forward_bind forward_expectIdent fun y => ?_
      obtain ⟨param, there⟩ := y
      cases there
      · exact forward_pure _
      · refine forward_bind (forward_expect _) fun b => ?_
        cases b
        · exact forward_pure _
        · exact forward_bind forward_methodBody fun _ => forward_pure _

theorem forward_modifier : Forward (modifier : Parse ρ _) :=
  forward_bind (forward_look _) fun b => by
    cases b
    · exact forward_pure none
    · exact forward_map _ forward_advance

theorem forward_fieldDecl : Forward (fieldDecl : Parse ρ _) :=
  forward_spanned (forward_bind (forward_untilNone forward_modifier) fun _ =>
    forward_bind forward_typeSpec fun t => by
      cases t with
      | none => exact forward_pure _
      | some t =>
        refine forward_bind forward_expectIdent fun x => ?_
        obtain ⟨name, there⟩ := x
        cases there
        · exact forward_pure _
        · exact forward_bind forward_initialized fun _ => forward_pure _)

theorem forward_member : Forward (member : Parse ρ _) :=
  forward_bind (forward_look _) fun b => by
    cases b
    · exact forward_fieldDecl
    · exact forward_mainMethod

theorem forward_classDecl : Forward (classDecl : Parse ρ _) := by
  refine forward_spanned (forward_bind forward_advance fun _ => forward_bind forward_advance
    fun _ => forward_bind forward_expectIdent fun x => ?_)
  obtain ⟨name, named⟩ := x
  cases named
  · exact forward_pure _
  · refine forward_bind (forward_expect _) fun b => ?_
    cases b
    · exact forward_pure _
    · exact forward_bind (forward_whileMore _ (forward_recovering Cursor.endMember_skips
        (forward_map _ forward_member))) fun _ =>
          forward_bind (forward_expect _) fun _ => forward_pure _

theorem forward_classOrSkip : Forward (classOrSkip : Parse ρ _) :=
  forward_bind (forward_look _) fun b => by
    cases b
    · exact forward_bind (forward_look _) fun _ =>
        forward_bind (forward_fail _) fun _ => forward_pure _
    · exact forward_map _ forward_classDecl

/-! ### Whole runs -/

theorem forward_statements : Forward (statements : Parse ρ _) :=
  forward_spanned (forward_bind (forward_whileMore _
    (forward_recovering Cursor.endStatement_skips forward_statement)) fun _ => forward_pure _)

theorem forward_classes : Forward (classes : Parse ρ _) :=
  forward_whileMore _ (forward_recovering Cursor.endClass_skips forward_classOrSkip)

theorem forward_listen {p : Parse ρ α} (h : Forward p) : Forward (listen p) := h

theorem forward_calm : Forward (calm : Parse ρ _) := fun _ => Cursor.Onward.refl.panic false

theorem forward_program : Forward (program : Parse ρ _) :=
  forward_spanned (forward_bind (forward_listen forward_classes) fun x => by
    dsimp only
    split
    · exact forward_bind (forward_fail _) fun _ => forward_bind forward_calm fun _ => forward_pure _
    · exact forward_pure _)

/-! ### Progress of recovery -/

/-- If nothing has been consumed, the nudge takes a token. -/
theorem nudge_lt {start : Nat} {c : Cursor} (hs : 0 < start) (hc : c.rest.length ≤ start) :
    (nudge start c).cursor.rest.length < start := by
  simp only [nudge, move]
  split
  · rw [Cursor.rest_advance, List.length_tail]
    omega
  · omega

/-- A construct with its recovery consumes a token if one is left. -/
theorem recovering_lt {skip : Nat → Cursor → Cursor} (hs : Cursor.Skips skip)
    {item : Parse .short α} (h : Forward item) (c : Cursor) (hc : c.rest ≠ []) :
    (recovering skip item c).cursor.rest.length < c.rest.length := by
  have hitem : (item c).cursor.rest.length ≤ c.rest.length := h.length_le c
  have hskip := (forward_settle hs c.rest.length).length_le (item c).cursor
  rw [recovering_apply]
  exact nudge_lt (List.length_pos_iff.2 hc) (Nat.le_trans hskip hitem)

/-- Repeating an item that consumes a token each time, as often as there are tokens, ends where
the condition fails. -/
theorem more_collect {more : Cursor → Bool} {item : Parse .short (Option α)}
    (hmore : ∀ c, more c → c.rest ≠ [])
    (hitem : ∀ c, c.rest ≠ [] → (item c).cursor.rest.length < c.rest.length) :
    ∀ n c, c.rest.length ≤ n → more (collect more item n c).cursor = false := by
  intro n
  induction n with
  | zero =>
    intro c hn
    cases hm : more c with
    | false => exact hm
    | true => exact absurd (List.eq_nil_of_length_eq_zero (Nat.le_zero.1 hn)) (hmore c hm)
  | succ n ih =>
    intro c hn
    cases hm : more c with
    | false => simp [collect, look, hm]
    | true =>
      have hlt := hitem c (hmore c hm)
      simpa [collect, look, hm] using ih (item c).cursor (by omega)

theorem more_whileMore {more : Cursor → Bool} {item : Parse .short (Option α)}
    (hmore : ∀ c, more c → c.rest ≠ [])
    (hitem : ∀ c, c.rest ≠ [] → (item c).cursor.rest.length < c.rest.length) (c : Cursor) :
    more (whileMore more item c).cursor = false :=
  more_collect hmore hitem c.rest.length c (Nat.le_refl _)

/-- Constructs repeated to the end of input leave nothing. -/
theorem rest_whileMore_atEnd {skip : Nat → Cursor → Cursor} (hs : Cursor.Skips skip)
    {item : Parse .short (Option α)} (h : Forward item) (c : Cursor) :
    (whileMore (fun d => !d.atEnd) (recovering skip item) c).cursor.rest = [] := by
  have hmore : ∀ d : Cursor, (!d.atEnd) = true → d.rest ≠ [] := by
    intro d hd
    simpa [Cursor.atEnd] using hd
  have hend := more_whileMore hmore (recovering_lt hs h) c
  simpa [Cursor.atEnd] using hend

theorem rest_statements (c : Cursor) : (statements c).cursor.rest = [] :=
  rest_whileMore_atEnd Cursor.endStatement_skips forward_statement c

theorem rest_program (c : Cursor) : (program c).cursor.rest = [] := by
  have hrest : (classes c).cursor.rest = [] :=
    rest_whileMore_atEnd Cursor.endClass_skips forward_classOrSkip c
  -- nothing is consumed after the classes, whether or not there is one
  show ((if _ then _ else _ : Parse .short (Span → Root)) (classes c).cursor).cursor.rest = []
  split
  · have hfail := (forward_fail .noClass (classes c).cursor).suffix
    rw [hrest] at hfail
    exact List.suffix_nil.1 hfail
  · exact hrest

end Parse

end JavaPrimer
