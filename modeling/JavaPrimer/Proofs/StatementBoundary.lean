import JavaPrimer.Proofs.InStepStmt
import JavaPrimer.Proofs.WholeLists
import Mathlib.Data.List.TakeWhile

/-!
# Errors stay in their statement

A list of tokens that opens no brace and ends in a semicolon is read the same way whatever stands
behind it, and what stands behind it is read the same way as on its own, whatever errors there
are on either side.

The first half compares two runs before the semicolon (`Cursor.Along`). For the second half, two
runs stand before the same tokens and differ only in what was consumed before: nothing, or a
semicolon. Either the first thing that a statement does is to consume a token, or it fails at
once; after its recovery the two runs are at one and the same cursor.

* `Cursor.Facing`, `Cursor.Anew` — the same tokens ahead after different ones;
* `Parse.statement_anew`, `Parse.recovering_anew` — the first statement read from there;
* `Parse.collect_split` — the run up to the semicolon, and the run from there on;
* `parseStatements_append` — whole lists.
-/

namespace JavaPrimer

/-! ### Starting anew -/

/-- Two cursors before the same tokens, of which there is at least one. -/
structure Cursor.Facing (c d : Cursor) : Prop where
  rest : d.rest = c.rest
  stop : d.stop = c.stop
  panicking : d.panicking = c.panicking
  ahead : c.rest ≠ []

/-- Two cursors before the same tokens, of which there is at least one; no literal was cut off
right before either of them. -/
structure Cursor.Anew (c d : Cursor) : Prop where
  rest : d.rest = c.rest
  stop : d.stop = c.stop
  panicking : d.panicking = c.panicking
  whole : ∀ t ∈ c.last, t.unterminated = false
  whole' : ∀ t ∈ d.last, t.unterminated = false
  ahead : c.rest ≠ []

namespace Cursor

variable {c d : Cursor}

theorem Anew.facing (h : Anew c d) : Facing c d := ⟨h.rest, h.stop, h.panicking, h.ahead⟩

theorem Facing.ahead_eq (h : Facing c d) (i : Nat) : d.ahead i = c.ahead i := by
  rw [Cursor.ahead_short, Cursor.ahead_short, h.rest, h.stop]

theorem Facing.current (h : Facing c d) : d.current = c.current := h.ahead_eq 0

theorem Facing.kind (h : Facing c d) : d.kind = c.kind := congrArg Token.kind h.current

theorem Facing.startsCast (h : Facing c d) : d.startsCast = c.startsCast := by
  simp only [Cursor.startsCast, h.kind, h.ahead_eq]

theorem Facing.startsPrint (h : Facing c d) : d.startsPrint = c.startsPrint := by
  simp only [Cursor.startsPrint, h.current, h.ahead_eq]

/-- Once a token is consumed there is no difference left. -/
theorem Facing.advance (h : Facing c d) : d.advance = c.advance := by
  obtain ⟨t, ts, hts⟩ := List.exists_cons_of_ne_nil h.ahead
  rw [advance_cons hts, advance_cons (h.rest.trans hts)]
  simp only [h.stop, h.panicking]
  rfl

theorem Facing.panic (h : Facing c d) (b : Bool) :
    Facing { c with panicking := b } { d with panicking := b } :=
  ⟨h.rest, h.stop, rfl, h.ahead⟩

end Cursor

namespace Parse

variable {α β : Type} {c d : Cursor}

theorem anew_bind {p : Parse .short α} (h : p d = p c) (f : α → Parse .short β) :
    (p >>= f) d = (p >>= f) c := by
  rw [bind_apply, bind_apply, h]

theorem bind_of_apply {p : Parse .short α} {a : α} {e : Cursor} (h : p c = ⟨a, [], e⟩)
    (f : α → Parse .short β) : (p >>= f) c = f a e := by
  rw [bind_apply, h]
  rfl

theorem anew_look_bind {g : Cursor → α} {f : α → Parse .short β} (hg : g d = g c)
    (h : f (g c) d = f (g c) c) : (look g >>= f) d = (look g >>= f) c := by
  have hlook : ∀ e, (look g >>= f) e = f (g e) e := fun _ => rfl
  rw [hlook, hlook, hg, h]

theorem anew_advance_bind (h : Cursor.Facing c d) (f : Token → Parse .short β) :
    (advance >>= f) d = (advance >>= f) c := by
  refine anew_bind ?_ f
  rw [advance, advance, h.current, h.advance]

theorem anew_spanned (h : Cursor.Facing c d) {node : Parse .short (Span → α)}
    (hn : node d = node c) :
    spanned node d = spanned node c :=
  anew_look_bind (congrArg Token.span h.current) (anew_bind hn _)

/-! ### Statements that start by consuming a token -/

/-- An operand that is no literal starts with an identifier, a parenthesis or `new`. -/
theorem kind_of_operand {k : Kind} (hk : k.startsExpression = true)
    (hop : UnaryOp.ofKind? k = none) (hsort : LiteralSort.ofKind? k = none) :
    k = .ident ∨ k = .lparen ∨ k = .kwNew := by
  simpa [Kind.startsExpression, hop, hsort, or_assoc, or_left_comm] using hk

theorem primary_anew (h : Cursor.Facing c d) (hk : c.kind.startsExpression = true)
    (hop : UnaryOp.ofKind? c.kind = none) (expr : Parse .short Expr) :
    primary expr d = primary expr c := by
  refine anew_look_bind h.current ?_
  cases hsort : LiteralSort.ofKind? c.current.kind with
  | some sort => exact anew_advance_bind h _
  | none =>
    dsimp only
    rcases kind_of_operand hk hop hsort with hkind | hkind | hkind
    all_goals
      rw [show c.current.kind = _ from hkind]
      exact anew_spanned h (anew_advance_bind h _)

theorem unaryWith_anew (h : Cursor.Facing c d) (hk : c.kind.startsExpression = true)
    (operand : Parse .short Expr) : unaryWith operand d = unaryWith operand c := by
  refine anew_look_bind (congrArg UnaryOp.ofKind? h.kind) ?_
  cases hop : UnaryOp.ofKind? c.kind with
  | some op => exact anew_advance_bind h _
  | none =>
    refine anew_look_bind h.startsCast ?_
    split
    · exact anew_advance_bind h _
    · exact anew_bind (primary_anew h hk hop _) _

theorem climb_anew {operand : Parse .short Expr} (h : operand d = operand c) (ts : List Tier) :
    climb operand ts d = climb operand ts c := by
  induction ts with
  | nil => exact h
  | cons tier tighter ih => exact anew_bind ih _

theorem expression_anew (h : Cursor.Facing c d) (hk : c.kind.startsExpression = true) :
    expression d = expression c := by
  rw [expression, expression, h.rest]
  exact climb_anew (unaryWith_anew h hk _) tiers

theorem typeSpec_anew (h : Cursor.Facing c d) (hk : c.kind.isTypeWord = true) :
    typeSpec d = typeSpec c := by
  refine anew_look_bind h.current ?_
  have hword : c.current.kind.isTypeWord = true := hk
  rw [if_pos hword]
  exact anew_spanned h (anew_advance_bind h _)

theorem varDecl_anew (h : Cursor.Facing c d) (hk : c.kind.startsVarDecl = true) :
    varDecl d = varDecl c := by
  refine anew_spanned h ?_
  have hfinal : (d.kind == .kwFinal) = (c.kind == .kwFinal) := by rw [h.kind]
  cases hmark : c.kind == .kwFinal with
  | true =>
    refine anew_bind (anew_look_bind hfinal ?_) _
    rw [if_pos hmark]
    exact anew_advance_bind h _
  | false =>
    have hword : c.kind.isTypeWord = true := by
      simpa only [Kind.startsVarDecl, hmark, Bool.false_or] using hk
    have hskip : ∀ {e : Cursor}, (e.kind == .kwFinal) = false → finalMark e = ⟨false, [], e⟩ := by
      intro e he
      simp [finalMark, look, he]
    rw [bind_of_apply (hskip hmark), bind_of_apply (hskip (hfinal.trans hmark))]
    exact anew_bind (typeSpec_anew h hword) _

/-! ### Statements that fail at once -/

/-- What an error is not about is not shown after the last token. -/
theorem diagnostic_anew (h : Cursor.Facing c d) {x : Complaint}
    (hx : Complaint.closerCategories.contains x.category = false) :
    x.diagnostic d = x.diagnostic c := by
  have hspan : ∀ e : Cursor, x.span e = e.current.span := by
    intro e
    unfold Complaint.span
    split
    · rw [hx, Bool.false_and, if_neg Bool.false_ne_true]
    · rfl
  rw [Complaint.diagnostic, Complaint.diagnostic, hspan, hspan, h.current]

theorem fail_quiet (x : Complaint) (hp : c.panicking = false)
    (hl : ∀ t ∈ c.last, t.unterminated = false) :
    fail x c = ⟨(), [x.diagnostic c], { c with panicking := true }⟩ := by
  have hlast : c.last.any (·.unterminated) = false := by
    cases hc : c.last with
    | none => rfl
    | some t => exact hl t hc
  simp [fail, hp, hlast]

/-- A closer that is missing at the end of a line is reported right behind the last token. -/
theorem span_of_closer {x : Complaint} {q : Token} (hq : c.last = some q)
    (hx : Complaint.closerCategories.contains x.category = true)
    (hend : c.kind = .eof ∨ c.atLineStart = true) : x.span c = .point q.span.stop := by
  have hshown : (c.kind = .eof || c.atLineStart) = true := by
    simpa [Bool.or_eq_true] using hend
  rw [Complaint.span, hq]
  exact if_pos (by rw [hx, hshown]; rfl)

/-- Where no statement can start the category is that of no closer. -/
theorem category_statement (t : Token) :
    Complaint.closerCategories.contains (Complaint.statement t).category = false := by
  have hnone : ∀ x : Text, ([] : List Text).contains x = false := fun _ => rfl
  simp only [Complaint.category, Complaint.expected, classify, hnone, Bool.false_eq_true, if_false]
  split <;> rfl

theorem category_unknownType (name : Text) :
    Complaint.closerCategories.contains (Complaint.unknownType name).category = false := rfl

/-- A statement that fails where it starts. -/
theorem statement_fails (h : Cursor.Anew c d) (hp : c.panicking = false) {x : Complaint}
    (hx : Complaint.closerCategories.contains x.category = false) :
    (fail x >>= fun _ => (Pure.pure none : Parse .short (Option Stmt))) c
        = ⟨none, [x.diagnostic c], { c with panicking := true }⟩
      ∧ (fail x >>= fun _ => (Pure.pure none : Parse .short (Option Stmt))) d
        = ⟨none, [x.diagnostic c], { d with panicking := true }⟩ := by
  rw [bind_apply, bind_apply, fail_quiet x hp h.whole,
    fail_quiet x (h.panicking.trans hp) h.whole', diagnostic_anew h.facing hx]
  exact ⟨rfl, rfl⟩

theorem statementWith_apply (inner : Parse .short (Option Stmt)) (c : Cursor) :
    statementWith inner c
      = (if c.kind == .ident && (c.ahead 1).kind == .ident then
          fail (.unknownType c.current.value) >>= fun _ => Pure.pure none
        else if c.startsPrint then some <$> printStmt
        else if c.kind.startsVarDecl then some <$> varDecl
        else if c.kind.startsExpression then some <$> exprStmt
        else if c.kind == .lbrace then
          block inner >>= fun b => Pure.pure (some (.block b.span b.stmts))
        else fail (.statement c.current) >>= fun _ => Pure.pure none) c := rfl

/-- Two statements read from before the same tokens are the same, with the same cursor after them,
or none can start there: there are two identifiers, or another token that starts none. -/
theorem statementWith_facing (h : Cursor.Facing c d) (inner : Parse .short (Option Stmt)) :
    statementWith inner d = statementWith inner c
      ∨ ∃ x : Complaint, Complaint.closerCategories.contains x.category = false
        ∧ (∀ e : Cursor, Cursor.Facing c e → statementWith inner e
          = (fail x >>= fun _ => (Pure.pure none : Parse .short (Option Stmt))) e)
        ∧ (c.kind = .ident ∧ (c.ahead 1).kind = .ident ∨ c.kind.startsStatement = false) := by
  have hface : ∀ e, Cursor.Facing c e → statementWith inner e
      = (if c.kind == .ident && (c.ahead 1).kind == .ident then
          fail (.unknownType c.current.value) >>= fun _ => Pure.pure none
        else if c.startsPrint then some <$> printStmt
        else if c.kind.startsVarDecl then some <$> varDecl
        else if c.kind.startsExpression then some <$> exprStmt
        else if c.kind == .lbrace then
          block inner >>= fun b => Pure.pure (some (.block b.span b.stmts))
        else fail (.statement c.current) >>= fun _ => Pure.pure none) e := by
    intro e he
    rw [statementWith_apply, he.startsPrint, he.kind, he.current, he.ahead_eq]
  rw [hface d h, statementWith_apply]
  split
  · next htwo =>
    refine .inr ⟨.unknownType c.current.value, category_unknownType _, fun e he => ?_, .inl ?_⟩
    · rw [hface e he, if_pos htwo]
    · simpa using htwo
  next htwo =>
  split
  · exact .inl (anew_bind (anew_spanned h (anew_advance_bind h _)) _)
  next hprint =>
  split
  · next hk => exact .inl (anew_bind (varDecl_anew h hk) _)
  next hdecl =>
  split
  · next hk =>
    exact .inl (anew_bind (anew_spanned h (anew_bind (expression_anew h hk) _)) _)
  next hexpr =>
  split
  · exact .inl (anew_bind (anew_spanned h (anew_advance_bind h _)) _)
  next hbrace =>
  refine .inr ⟨.statement c.current, category_statement _, fun e he => ?_, .inr ?_⟩
  · rw [hface e he, if_neg htwo, if_neg hprint, if_neg hdecl, if_neg hexpr, if_neg hbrace]
  · simp [Kind.startsStatement, hdecl, hexpr, hbrace]

/-- Two statements read anew are the same, with the same cursor after them, or both have failed
where they start. -/
theorem statementWith_anew (h : Cursor.Anew c d) (hp : c.panicking = false)
    (inner : Parse .short (Option Stmt)) :
    statementWith inner d = statementWith inner c
      ∨ ∃ x, statementWith inner c = ⟨none, [x], { c with panicking := true }⟩
        ∧ statementWith inner d = ⟨none, [x], { d with panicking := true }⟩ := by
  have hself : Cursor.Facing c c := ⟨rfl, rfl, rfl, h.ahead⟩
  rcases statementWith_facing h.facing inner with heq | ⟨x, hx, hfails, -⟩
  · exact .inl heq
  · rw [hfails c hself, hfails d h.facing]
    exact .inr ⟨_, statement_fails h hp hx⟩

/-! ### After recovery -/

/-- Skipping from where a statement started. Only a brace ends it right there; otherwise a token
is consumed, and the cursors meet. -/
theorem endStatement_anew (h : Cursor.Facing c d) :
    d.endStatement d.rest.length = c.endStatement c.rest.length
      ∨ d.endStatement d.rest.length = d ∧ c.endStatement c.rest.length = c := by
  have hd : d.rest ≠ [] := by
    rw [h.rest]
    exact h.ahead
  have hhalt : ∀ e : Cursor, e.haltsStatement e.rest.length
      = (e.kind == .rbrace || e.kind == .semi) := by
    intro e
    simp [Cursor.haltsStatement]
  have hskip : ∀ e : Cursor, e.endStatement e.rest.length
      = (e.skipTo (Cursor.haltsStatement e.rest.length)).past .semi := by
    intro e
    simp [Cursor.endStatement, Cursor.endedBy]
  have hsame : d.haltsStatement d.rest.length = c.haltsStatement c.rest.length := by
    rw [hhalt, hhalt, h.kind]
  rw [hskip, hskip]
  cases hstop : c.haltsStatement c.rest.length with
  | false =>
    rw [Cursor.skipTo_of_not_halt h.ahead hstop, Cursor.skipTo_of_not_halt hd (hsame.trans hstop),
      h.advance, h.rest]
    exact .inl rfl
  | true =>
    rw [Cursor.skipTo_of_halt h.ahead hstop, Cursor.skipTo_of_halt hd (hsame.trans hstop),
      Cursor.past, Cursor.past, h.kind, h.advance]
    split
    · exact .inl rfl
    · exact .inr ⟨rfl, rfl⟩

/-- After the recovery of a statement that failed where it started the cursors have met. -/
theorem settled_anew (h : Cursor.Facing c d) :
    (nudge c.rest.length (settle Cursor.endStatement c.rest.length
        { d with panicking := true }).cursor).cursor
      = (nudge c.rest.length (settle Cursor.endStatement c.rest.length
        { c with panicking := true }).cursor).cursor := by
  have hpanic := endStatement_anew (h.panic true)
  have hquiet := (h.panic false).advance
  have hlength : d.rest.length = c.rest.length := by rw [h.rest]
  simp only [hlength] at hpanic
  simp only [settle, move, if_true, nudge]
  rcases hpanic with heq | ⟨hd, hc⟩
  · rw [heq]
  · simp only [hd, hc, hlength, if_true]
    exact hquiet

/-- The first statement read anew: the same value, the same diagnostics and, after its recovery,
the same cursor. -/
theorem recovering_anew (h : Cursor.Anew c d) (hp : c.panicking = false) :
    recovering Cursor.endStatement statement d = recovering Cursor.endStatement statement c := by
  have hstatement : ∀ e : Cursor, statement e = statementWith (statementWithin e.rest.length) e :=
    fun _ => rfl
  rw [recovering_apply, recovering_apply, hstatement, hstatement, h.rest]
  rcases statementWith_anew h hp (statementWithin c.rest.length) with heq | ⟨x, hc, hd⟩
  · rw [heq]
  · rw [hc, hd]
    exact congrArg (Step.mk none [x]) (settled_anew h.facing)

/-! ### The whole run -/

/-- Whether statements go on. -/
def goesOn (c : Cursor) : Bool := !c.atEnd

theorem goesOn_iff : goesOn c = true ↔ c.rest ≠ [] := by
  simp [goesOn, Cursor.atEnd]

/-- Statements with their recovery, at most `n` of them. -/
def statementsWithin (n : Nat) : Parse .short (List Stmt) :=
  collect goesOn (recovering Cursor.endStatement statement) n

theorem statementsWithin_end (hc : c.rest = []) (n : Nat) : statementsWithin n c = ⟨[], [], c⟩ := by
  cases n with
  | zero => rfl
  | succ n => simp [statementsWithin, collect, look, goesOn, Cursor.atEnd, hc]

theorem statementsWithin_succ (hc : c.rest ≠ []) (n : Nat) :
    statementsWithin (n + 1) c
      = (recovering Cursor.endStatement statement >>= fun x => statementsWithin n >>= fun xs =>
          Pure.pure (x.toList ++ xs)) c := by
  have hgo := goesOn_iff.2 hc
  show (if goesOn c then _ else _ : Parse .short (List Stmt)) c = _
  rw [if_pos hgo]
  rfl

theorem recovering_statement_lt (hc : c.rest ≠ []) :
    (recovering Cursor.endStatement statement c).cursor.rest.length < c.rest.length :=
  recovering_lt Cursor.endStatement_skips forward_statement c hc

/-- As many statements as there are tokens are never too few. -/
theorem statementsWithin_enough : ∀ {m n c}, c.rest.length ≤ m → c.rest.length ≤ n →
    statementsWithin m c = statementsWithin n c := by
  intro m
  induction m with
  | zero =>
    intro n c hm _
    have hc := List.eq_nil_of_length_eq_zero (Nat.le_zero.1 hm)
    rw [statementsWithin_end hc, statementsWithin_end hc]
  | succ m ih =>
    intro n c hm hn
    by_cases hc : c.rest = []
    · rw [statementsWithin_end hc, statementsWithin_end hc]
    · have hpos := List.length_pos_iff.2 hc
      have hlt := recovering_statement_lt hc
      obtain ⟨n, rfl⟩ : ∃ k, n = k + 1 := ⟨n - 1, by omega⟩
      rw [statementsWithin_succ hc, statementsWithin_succ hc, bind_apply, bind_apply, bind_apply,
        bind_apply, ih (n := n) (by omega) (by omega)]

/-- Up to the semicolon the two runs read the same statements; the longer one goes on from right
behind it. -/
theorem statementsWithin_split {after : List Token} : ∀ {k m c d}, Cursor.Along after c d →
    c.panicking = false → c.rest.length ≤ k → d.rest.length ≤ m →
    ∃ l e, after.length ≤ l ∧ e.rest = after ∧ e.stop = d.stop ∧ e.panicking = false
      ∧ (∃ q ∈ e.last, q.IsBreak)
      ∧ (statementsWithin m d).value
        = (statementsWithin k c).value ++ (statementsWithin l e).value
      ∧ (statementsWithin m d).diagnostics
        = (statementsWithin k c).diagnostics ++ (statementsWithin l e).diagnostics := by
  intro k
  -- with nothing left in the shorter run, the longer one stands right behind the semicolon
  have hend : ∀ {k m c d}, Cursor.Along after c d → c.panicking = false → c.rest = [] →
      d.rest.length ≤ m →
      ∃ l e, after.length ≤ l ∧ e.rest = after ∧ e.stop = d.stop ∧ e.panicking = false
        ∧ (∃ q ∈ e.last, q.IsBreak)
        ∧ (statementsWithin m d).value
          = (statementsWithin k c).value ++ (statementsWithin l e).value
        ∧ (statementsWithin m d).diagnostics
          = (statementsWithin k c).diagnostics ++ (statementsWithin l e).diagnostics := by
    intro k m c d h hp hc hm
    have hrest : d.rest = after := by rw [h.rest, hc, List.nil_append]
    obtain ⟨q, hq, hbreak⟩ := h.closed
    have hlast : q ∈ d.last := by
      rw [hc, List.append_nil] at hq
      rw [h.last]
      cases hl : c.last with
      | none => simp [hl] at hq
      | some t => simpa [hl] using hq
    refine ⟨m, d, hrest ▸ hm, hrest, rfl, h.panicking.trans hp, ⟨q, hlast, hbreak⟩, ?_⟩
    rw [statementsWithin_end hc]
    exact ⟨rfl, rfl⟩
  induction k with
  | zero =>
    intro m c d h hp hk hm
    exact hend h hp (List.eq_nil_of_length_eq_zero (Nat.le_zero.1 hk)) hm
  | succ k ih =>
    intro m c d h hp hk hm
    by_cases hc : c.rest = []
    · exact hend h hp hc hm
    have hd : d.rest ≠ [] := by
      rw [h.rest]
      exact List.append_ne_nil_of_left_ne_nil hc after
    have hfirst := agree_recovering (⟨h, hc, Nat.le_refl _⟩ : Cursor.Beside after c.rest.length c d)
      (agree_statement ⟨h, hc, Nat.le_refl _⟩)
    have hltc := recovering_statement_lt hc
    have hltd := recovering_statement_lt hd
    have hpos := List.length_pos_iff.2 hd
    obtain ⟨m, rfl⟩ : ∃ j, m = j + 1 := ⟨m - 1, by omega⟩
    obtain ⟨l, e, hl, hrest, hstop, hquiet, hlast, hvalue, hdiag⟩ :=
      ih (m := m) hfirst.cursor (panicking_recovering _ _ c) (by omega) (by omega)
    refine ⟨l, e, hl, hrest, ?_, hquiet, hlast, ?_, ?_⟩
    · rw [hstop]
      exact (forward_recovering Cursor.endStatement_skips forward_statement d).stop
    · rw [statementsWithin_succ hc, statementsWithin_succ hd]
      simp only [bind_apply, pure_apply, hfirst.value, hvalue, List.append_assoc]
    · rw [statementsWithin_succ hc, statementsWithin_succ hd]
      simp only [bind_apply, pure_apply, hfirst.diagnostics, hdiag, List.append_assoc,
        List.append_nil]

/-- A run from right behind a semicolon is a run from the beginning. -/
theorem statementsWithin_anew {m n : Nat} (h : Cursor.Anew c d) (hp : c.panicking = false)
    (hm : c.rest.length ≤ m) (hn : d.rest.length ≤ n) :
    (statementsWithin n d).value = (statementsWithin m c).value
      ∧ (statementsWithin n d).diagnostics = (statementsWithin m c).diagnostics := by
  have hd : d.rest ≠ [] := by
    rw [h.rest]
    exact h.ahead
  have hfirst := recovering_anew h hp
  have hpos := List.length_pos_iff.2 h.ahead
  have hlt := recovering_statement_lt h.ahead
  rw [h.rest] at hn
  obtain ⟨m, rfl⟩ : ∃ j, m = j + 1 := ⟨m - 1, by omega⟩
  obtain ⟨n, rfl⟩ : ∃ j, n = j + 1 := ⟨n - 1, by omega⟩
  rw [statementsWithin_succ h.ahead, statementsWithin_succ hd, anew_bind hfirst, bind_apply,
    bind_apply, bind_apply, bind_apply,
    statementsWithin_enough (m := n) (n := m) (by omega) (by omega)]
  exact ⟨rfl, rfl⟩

end Parse

/-! ### Whole lists of tokens -/

theorem parseStatements_eq (tokens : List Token) :
    ∃ s, (parseStatements tokens).root = .statements s (Parse.statementsWithin
        (Cursor.ofTokens tokens : Cursor).rest.length (.ofTokens tokens)).value
      ∧ (parseStatements tokens).diagnostics = (Parse.statementsWithin
        (Cursor.ofTokens tokens : Cursor).rest.length (.ofTokens tokens)).diagnostics := by
  rw [parseStatements_short]
  refine ⟨_, rfl, ?_⟩
  show [] ++ ((Parse.statementsWithin (Cursor.ofTokens tokens : Cursor).rest.length
    (.ofTokens tokens)).diagnostics ++ [] ++ ([] ++ [])) = _
  simp only [List.append_nil, List.nil_append]

/-- Errors stay in their statement: a list `a` that opens no brace and ends in a semicolon that is
not cut off, followed by a list `b`, is read as the statements of `a` and then those of `b`, with
the errors of `a` and then those of `b`. -/
theorem parseStatements_append {a b : List Token} {q : Token}
    (ha : ∀ t ∈ a, t.kind ≠ .eof ∧ t.kind ≠ .lbrace) (hb : ∀ t ∈ b, t.kind ≠ .eof)
    (hq : a.getLast? = some q) (hsemi : q.kind = .semi) (hcut : q.unterminated = false) :
    ∃ s₁ s₂ s xs ys, (parseStatements a).root = .statements s₁ xs
      ∧ (parseStatements b).root = .statements s₂ ys
      ∧ (parseStatements (a ++ b)).root = .statements s (xs ++ ys)
      ∧ (parseStatements (a ++ b)).diagnostics
        = (parseStatements a).diagnostics ++ (parseStatements b).diagnostics := by
  have hab : ∀ t ∈ a ++ b, t.kind ≠ .eof := by
    intro t ht
    rcases List.mem_append.1 ht with ht | ht
    · exact (ha t ht).1
    · exact hb t ht
  have hrestb : (Cursor.ofTokens b : Cursor).rest = b := Cursor.rest_of_no_end hb
  obtain ⟨s₁, hroot₁, hdiag₁⟩ := parseStatements_eq a
  obtain ⟨s₂, hroot₂, hdiag₂⟩ := parseStatements_eq b
  obtain ⟨s, hroot, hdiag⟩ := parseStatements_eq (a ++ b)
  have halong : Cursor.Along b (.ofTokens a) (.ofTokens (a ++ b)) := by
    rw [Cursor.ofTokens_of_no_end fun t ht => (ha t ht).1, Cursor.ofTokens_of_no_end hab]
    exact ⟨rfl, rfl, rfl, fun t ht => (ha t ht).2, q, hq, hsemi, hcut⟩
  obtain ⟨l, e, hl, hrest, hstop, hquiet, ⟨p, hp, -, hwhole⟩, hvalue, herrors⟩ :=
    Parse.statementsWithin_split halong (Cursor.fields_ofTokens a).2 (Nat.le_refl _) (Nat.le_refl _)
  have hsecond : (Parse.statementsWithin l e).value
        = (Parse.statementsWithin (Cursor.ofTokens b : Cursor).rest.length (.ofTokens b)).value
      ∧ (Parse.statementsWithin l e).diagnostics
        = (Parse.statementsWithin (Cursor.ofTokens b : Cursor).rest.length
          (.ofTokens b)).diagnostics := by
    cases b with
    | nil =>
      rw [Parse.statementsWithin_end hrest, Parse.statementsWithin_end hrestb]
      exact ⟨rfl, rfl⟩
    | cons t ts =>
      have hanew : Cursor.Anew (.ofTokens (t :: ts)) e := by
        rw [Cursor.ofTokens_of_no_end hb]
        refine ⟨hrest, ?_, hquiet, ?_, ?_, List.cons_ne_nil t ts⟩
        · rw [hstop, Cursor.stop_of_no_end hab, Cursor.impliedEnd, Cursor.impliedEnd,
            List.getLast?_append_of_ne_nil a (List.cons_ne_nil t ts)]
        · intro u hu
          cases hu
        · intro u hu
          rw [Option.mem_def] at hp hu
          rw [hp] at hu
          cases hu
          exact hwhole
      exact Parse.statementsWithin_anew hanew (Cursor.fields_ofTokens _).2 (Nat.le_refl _)
        (hrest ▸ hl)
  refine ⟨s₁, s₂, s, _, _, hroot₁, hroot₂, ?_, ?_⟩
  · rw [hroot, hvalue, hsecond.1]
  · rw [hdiag, hdiag₁, hdiag₂, herrors, hsecond.2]

/-- An assignment without its value, `x = ;`. -/
def brokenAssignment : List Token :=
  [⟨.ident, "x", ⟨⟨1, 1⟩, ⟨1, 2⟩⟩, false⟩, ⟨.equals, "=", ⟨⟨1, 3⟩, ⟨1, 4⟩⟩, false⟩,
    ⟨.semi, ";", ⟨⟨1, 5⟩, ⟨1, 6⟩⟩, false⟩]

/-- A closing parenthesis before a declaration without its name, `) int ;`, on the next line. -/
def strayParenthesis : List Token :=
  [⟨.rparen, ")", ⟨⟨2, 1⟩, ⟨2, 2⟩⟩, false⟩, ⟨.kwInt, "int", ⟨⟨2, 3⟩, ⟨2, 6⟩⟩, false⟩,
    ⟨.semi, ";", ⟨⟨2, 7⟩, ⟨2, 8⟩⟩, false⟩]

/-- One error before the boundary and two behind it. -/
theorem parseStatements_append_broken :
    (parseStatements brokenAssignment).diagnostics.length = 1
      ∧ (parseStatements strayParenthesis).diagnostics.length = 2
      ∧ ∃ s₁ s₂ s xs ys, (parseStatements brokenAssignment).root = .statements s₁ xs
        ∧ (parseStatements strayParenthesis).root = .statements s₂ ys
        ∧ (parseStatements (brokenAssignment ++ strayParenthesis)).root = .statements s (xs ++ ys)
        ∧ (parseStatements (brokenAssignment ++ strayParenthesis)).diagnostics
          = (parseStatements brokenAssignment).diagnostics
            ++ (parseStatements strayParenthesis).diagnostics :=
  ⟨by decide, by decide,
    parseStatements_append (by decide) (by decide) rfl rfl rfl⟩

end JavaPrimer
