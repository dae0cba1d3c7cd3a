import JavaPrimer.Proofs.Progress
import JavaPrimer.Proofs.TokenLists
import Mathlib.Data.List.GetD

/-!
# Positions in a token list

A parser that reads a list of tokens by an index stands at a place of the list, which ends in an end
of input. A cursor that reaches over the whole list is such a place: what is ahead of it, up to the
next end of input and behind it, is the list from the index on. It looks ahead where the index and
the offset together point to, or at the last token if that is behind the list; and it moves on by
one, unless it is at the last token. None of this depends on where ends of input stand in the list.

* `Cursor.tokensAhead`, `Cursor.ahead_eq` — all tokens ahead, and which of them is seen;
* `Cursor.StandsAt` — the index of a cursor;
* `Cursor.StandsAt.seen`, `Cursor.StandsAt.advance` — looking ahead and moving on;
* `Cursor.StandsAt.onward` — moving onward never decreases the index;
* `Cursor.standsAt_ofTokens` — where a run starts;
* `Parse.Construct`, `Parse.forward_of_construct` — every function of the parser moves onward;
* `Cursor.ofTokens_closedOff` — what a list is up to its first end of input.
-/

namespace JavaPrimer

/-- The index of the first end of input. -/
def endIndex (slice : List Token) : Nat := slice.findIdx (·.kind = .eof)

/-- The index that is looked at for an index that may be behind the list: the last one there is. -/
def lastOr (slice : List Token) (i : Nat) : Nat := min i (slice.length - 1)

theorem getElem?_nthOrLast (t : Token) (ts : List Token) (i : Nat) :
    (t :: ts)[min i ts.length]? = some (nthOrLast t ts i) := by
  induction ts generalizing t i with
  | nil => simp [nthOrLast]
  | cons u us ih =>
    cases i with
    | zero => simp [nthOrLast]
    | succ i =>
      rw [List.length_cons, Nat.succ_min_succ, List.getElem?_cons_succ, ih, nthOrLast]

namespace Cursor

/-- All tokens from a cursor on. -/
def tokensAhead (c : Cursor .whole) : List Token := c.rest ++ c.stop :: Reach.tokens c.behind

theorem length_tokensAhead (c : Cursor .whole) :
    c.tokensAhead.length = c.rest.length + ((Reach.tokens c.behind).length + 1) := by
  rw [tokensAhead, List.length_append, List.length_cons]

/-- The token that is seen ahead is one of them. -/
theorem ahead_eq (c : Cursor .whole) (k : Nat) :
    c.tokensAhead[lastOr c.tokensAhead k]? = some (c.ahead k) := by
  have hlength := c.length_tokensAhead
  unfold lastOr ahead
  by_cases hk : k < c.rest.length
  · have hmin : min k (c.tokensAhead.length - 1) = k := by omega
    rw [hmin, tokensAhead, List.getElem?_append_left hk, List.getD_eq_getElem _ _ hk,
      List.getElem?_eq_getElem hk]
  · have hmin : min k (c.tokensAhead.length - 1) - c.rest.length
        = min (k - c.rest.length) (Reach.tokens c.behind).length := by omega
    rw [tokensAhead, List.getElem?_append_right (by rw [← tokensAhead]; omega), ← tokensAhead, hmin,
      getElem?_nthOrLast, List.getD_eq_default _ _ (by omega)]

/-- The tokens of a list that is split at its first end of input. -/
theorem tokensAhead_before (last : Option Token) (panicking : Bool) (t : Token) (ts : List Token) :
    (before last panicking t ts : Cursor .whole).tokensAhead = t :: ts := by
  induction ts generalizing t with
  | nil => rfl
  | cons u us ih =>
    by_cases hk : t.kind = .eof
    · rw [before_end hk]
      rfl
    · rw [before_token hk]
      exact congrArg (t :: ·) (ih u)

/-- A cursor at the index `i` of a list that ends in an end of input. -/
structure StandsAt (slice : List Token) (i : Nat) (c : Cursor .whole) : Prop where
  closed : ∃ e ∈ slice.getLast?, e.kind = .eof
  ahead : c.tokensAhead = slice.drop i
  last : c.last = if i = 0 then none else slice[i - 1]?
  noEnd : ∀ t ∈ c.rest, t.kind ≠ .eof
  isEnd : c.stop.kind = .eof

variable {slice : List Token} {i : Nat} {c d : Cursor .whole}

/-- A list that is split stands where the tokens of the list do. -/
theorem standsAt_before (hclosed : ∃ e ∈ slice.getLast?, e.kind = .eof) {last : Option Token}
    (hlast : last = if i = 0 then none else slice[i - 1]?) (panicking : Bool) {t : Token}
    {ts : List Token} (hdrop : slice.drop i = t :: ts) :
    StandsAt slice i (before last panicking t ts) := by
  have hmem : ∃ e ∈ t :: ts, e.kind = .eof := by
    obtain ⟨e, he, hk⟩ := hclosed
    refine ⟨e, ?_, hk⟩
    have hne : ¬ slice.length ≤ i := by
      intro hle
      rw [List.drop_eq_nil_of_le hle] at hdrop
      cases hdrop
    rw [← hdrop]
    apply List.mem_of_getLast?
    rwa [List.getLast?_drop, if_neg hne]
  obtain ⟨hrest, hstop⟩ := before_eq (ρ := .whole) hmem
  constructor
  case closed => exact hclosed
  case ahead => rw [tokensAhead_before, hdrop]
  case last => rw [before_fields.1, hlast]
  case noEnd =>
    intro u hu
    rw [hrest] at hu
    simpa using List.mem_takeWhile_imp hu
  case isEnd => simpa using List.find?_some hstop

namespace StandsAt

theorem inside (h : StandsAt slice i c) : i < slice.length := by
  have hlength := congrArg List.length h.ahead
  rw [length_tokensAhead, List.length_drop] at hlength
  omega

/-- What is seen ahead is what stands in the list. -/
theorem seen (h : StandsAt slice i c) (k : Nat) :
    slice[lastOr slice (i + k)]? = some (c.ahead k) := by
  have hinside := h.inside
  have hindex : i + lastOr (slice.drop i) k = lastOr slice (i + k) := by
    simp only [lastOr, List.length_drop]
    omega
  rw [← c.ahead_eq, h.ahead, List.getElem?_drop, hindex]

theorem current (h : StandsAt slice i c) : slice[i]? = some c.current := by
  have hinside := h.inside
  have hindex : lastOr slice (i + 0) = i := by
    unfold lastOr
    omega
  rw [← hindex]
  exact h.seen 0

/-- The parser is at an end of input where one stands in the list, and nowhere else. -/
theorem atEnd_iff (h : StandsAt slice i c) : c.atEnd = true ↔ c.kind = .eof := by
  cases hrest : c.rest with
  | nil => simp [atEnd, kind, current_nil hrest, hrest, h.isEnd]
  | cons t ts =>
    have hne := h.noEnd t (by rw [hrest]; exact List.mem_cons_self)
    simp [atEnd, kind, current_cons hrest, hrest, hne]

/-- Moving on by one, unless at the last token. -/
theorem advance (h : StandsAt slice i c) : StandsAt slice (lastOr slice (i + 1)) c.advance := by
  have hinside := h.inside
  have hlength := congrArg List.length h.ahead
  rw [length_tokensAhead, List.length_drop] at hlength
  have hnext : ∀ {ts}, c.tokensAhead = c.current :: ts → slice.drop (i + 1) = ts := by
    intro ts hts
    rw [← List.drop_drop, ← h.ahead, hts]
    rfl
  have hcurrent : some c.current = if i + 1 = 0 then none else slice[i + 1 - 1]? := by
    rw [if_neg (Nat.succ_ne_zero i), Nat.add_sub_cancel, h.current]
  cases hrest : c.rest with
  | cons t ts =>
    rw [hrest, List.length_cons] at hlength
    have hindex : lastOr slice (i + 1) = i + 1 := by
      unfold lastOr
      omega
    have hdrop := hnext (by rw [current_cons hrest, tokensAhead, hrest, List.cons_append])
    rw [hindex, advance_cons hrest]
    constructor
    case closed => exact h.closed
    case ahead => exact hdrop.symm
    case last => rw [← hcurrent, current_cons hrest]
    case noEnd => exact fun u hu => h.noEnd u (by rw [hrest]; exact List.mem_cons_of_mem t hu)
    case isEnd => exact h.isEnd
  | nil =>
    rw [hrest, List.length_nil] at hlength
    have hdrop := hnext (by rw [current_nil hrest, tokensAhead, hrest, List.nil_append])
    cases hbehind : Reach.tokens c.behind with
    | nil =>
      rw [hbehind, List.length_nil] at hlength
      have hindex : lastOr slice (i + 1) = i := by
        unfold lastOr
        omega
      have hstay : c.advance = c := by
        unfold Cursor.advance
        rw [hrest, hbehind]
      rw [hindex, hstay]
      exact h
    | cons t ts =>
      rw [hbehind, List.length_cons] at hlength
      have hindex : lastOr slice (i + 1) = i + 1 := by
        unfold lastOr
        omega
      have hmove : c.advance = before (some c.stop) c.panicking t ts := by
        unfold Cursor.advance
        rw [hrest, hbehind]
      rw [hindex, hmove]
      rw [current_nil hrest] at hcurrent
      exact standsAt_before h.closed hcurrent c.panicking (hdrop.trans hbehind)

/-- Moving onward never decreases the index. -/
theorem onward (h : StandsAt slice i c) (hd : c.Onward d) : ∃ j, i ≤ j ∧ StandsAt slice j d := by
  induction hd with
  | refl => exact ⟨i, Nat.le_refl i, h⟩
  | advance _ ih =>
    obtain ⟨j, hj, hstands⟩ := ih
    have hinside := hstands.inside
    refine ⟨_, ?_, hstands.advance⟩
    unfold lastOr
    omega
  | panic _ b ih =>
    obtain ⟨j, hj, hstands⟩ := ih
    exact ⟨j, hj, hstands.closed, hstands.ahead, hstands.last, hstands.noEnd, hstands.isEnd⟩

end StandsAt

/-! ### Where a run starts -/

theorem closed_closedOff (tokens : List Token) :
    ∃ e ∈ (closedOff tokens).getLast?, e.kind = .eof := by
  unfold closedOff
  split
  · next h =>
    obtain ⟨e, he, hk⟩ := (Option.any_eq_true _ _).1 h
    exact ⟨e, he, of_decide_eq_true hk⟩
  · exact ⟨impliedEnd tokens, List.getLast?_concat, rfl⟩

theorem standsAt_ofTokens (tokens : List Token) :
    StandsAt (closedOff tokens) 0 (.ofTokens tokens) := by
  obtain ⟨t, ts, hts, hcursor⟩ := ofTokens_eq (ρ := .whole) tokens
  rw [hcursor]
  exact standsAt_before (closed_closedOff tokens) rfl false hts

/-! ### Up to the first end of input -/

theorem endIndex_append {front : List Token} (h : ∀ t ∈ front, t.kind ≠ .eof) {e : Token}
    (he : e.kind = .eof) (behind : List Token) : endIndex (front ++ e :: behind) = front.length := by
  unfold endIndex
  induction front with
  | nil => simp [List.findIdx_cons, he]
  | cons t ts ih =>
    have ht := h t List.mem_cons_self
    have hrest := ih fun u hu => h u (List.mem_cons_of_mem t hu)
    rw [List.cons_append, List.findIdx_cons, hrest]
    simp [ht]

/-- The place before the first end of input. -/
theorem StandsAt.endIndex_eq (h : StandsAt slice 0 c) : endIndex slice = c.rest.length := by
  rw [← List.drop_zero (l := slice), ← h.ahead]
  exact endIndex_append h.noEnd h.isEnd _

/-- What is read of a list goes up to its first end of input, whatever stands behind that. -/
theorem ofTokens_closedOff (tokens behind : List Token) :
    ofTokens ((closedOff tokens).take (endIndex (closedOff tokens) + 1) ++ behind)
      = (ofTokens tokens : Cursor) := by
  have hstands := standsAt_ofTokens tokens
  have hsplit := hstands.ahead
  rw [List.drop_zero, tokensAhead] at hsplit
  have hread : (closedOff tokens).take (endIndex (closedOff tokens) + 1) ++ behind
      = (ofTokens tokens : Cursor .whole).rest
        ++ (ofTokens tokens : Cursor .whole).stop :: behind := by
    rw [hstands.endIndex_eq, ← hsplit, List.take_append, List.take_of_length_le (Nat.le_succ _),
      Nat.add_sub_cancel_left, List.append_assoc]
    rfl
  rw [hread, ofTokens_append_end hstands.noEnd hstands.isEnd, ofTokens_short, rest_ofTokens,
    stop_ofTokens]

end Cursor

/-! ### The functions of the parser -/

namespace Parse

/-- The functions of the parser, and how those that are given others are put together. -/
inductive Construct : {α : Type} → Parse .whole α → Prop
  | advance : Construct advance
  | fail (x : Complaint) : Construct (fail x)
  | report (d : Diagnostic) : Construct (report d)
  | expect (k : Kind) : Construct (expect k)
  | expectAll (ks : List Kind) : Construct (expectAll ks)
  | expectIdent : Construct expectIdent
  | expectWord (words : List Text) : Construct (expectWord words)
  | unary (n : Nat) : Construct (unary n)
  | chain (tier : Tier) {operand : Parse .whole Expr} (h : Construct operand) (n : Nat)
      (left : Expr) :
    Construct (chain tier operand n left)
  | climb {operand : Parse .whole Expr} (h : Construct operand) (ts : List Tier) :
    Construct (climb operand ts)
  | argument {expr : Parse .whole Expr} (h : Construct expr) : Construct (argument expr)
  | arguments {expr : Parse .whole Expr} (h : Construct expr) : Construct (arguments expr)
  | selector {expr : Parse .whole Expr} (h : Construct expr) : Construct (selector expr)
  | primary {expr : Parse .whole Expr} (h : Construct expr) : Construct (primary expr)
  | stepped {expr : Parse .whole Expr} (h : Construct expr) : Construct (stepped expr)
  | castExpr {operand : Parse .whole Expr} (h : Construct operand) : Construct (castExpr operand)
  | expression : Construct expression
  | typeSpec : Construct typeSpec
  | initialized : Construct initialized
  | assigned : Construct assigned
  | varDecl : Construct varDecl
  | printStmt : Construct printStmt
  | exprStmt : Construct exprStmt
  | block {stmt : Parse .whole (Option Stmt)} (h : Construct stmt) : Construct (block stmt)
  | statementWithin (n : Nat) : Construct (statementWithin n)
  | statement : Construct statement
  | methodBody : Construct methodBody
  | mainMethod : Construct mainMethod
  | fieldDecl : Construct fieldDecl
  | member : Construct member
  | classDecl : Construct classDecl
  | classOrSkip : Construct classOrSkip
  | settle {skip : Nat → Cursor .whole → Cursor .whole}
    (h : skip ∈ [Cursor.endStatement, Cursor.endMember, Cursor.endClass]) (start : Nat) :
    Construct (settle skip start)
  | nudge (start : Nat) : Construct (nudge start)
  | classes : Construct classes
  | program : Construct program
  | statements : Construct statements

theorem skips_recovery {skip : Nat → Cursor .whole → Cursor .whole}
    (h : skip ∈ [Cursor.endStatement, Cursor.endMember, Cursor.endClass]) : Cursor.Skips skip := by
  simp only [List.mem_cons, List.not_mem_nil, or_false] at h
  rcases h with rfl | rfl | rfl
  · exact Cursor.endStatement_skips
  · exact Cursor.endMember_skips
  · exact Cursor.endClass_skips

/-- Every function of the parser moves onward. -/
theorem forward_of_construct {α : Type} {p : Parse .whole α} (h : Construct p) : Forward p := by
  induction h with
  | advance => exact forward_advance
  | fail x => exact forward_fail x
  | report d => exact forward_report d
  | expect k => exact forward_expect k
  | expectAll ks => exact forward_expectAll ks
  | expectIdent => exact forward_expectIdent
  | expectWord words => exact forward_expectWord words
  | unary n => exact forward_unary n
  | chain tier _ n left ih => exact forward_chain tier ih n left
  | climb _ ts ih => exact forward_climb ih ts
  | argument _ ih => exact forward_argument ih
  | arguments _ ih => exact forward_arguments ih
  | selector _ ih => exact forward_selector ih
  | primary _ ih => exact forward_primary ih
  | stepped _ ih => exact forward_stepped ih
  | castExpr _ ih => exact forward_castExpr ih
  | expression => exact forward_expression
  | typeSpec => exact forward_typeSpec
  | initialized => exact forward_initialized
  | assigned => exact forward_assigned
  | varDecl => exact forward_varDecl
  | printStmt => exact forward_printStmt
  | exprStmt => exact forward_exprStmt
  | block _ ih => exact forward_block ih
  | statementWithin n => exact forward_statementWithin n
  | statement => exact forward_statement
  | methodBody => exact forward_methodBody
  | mainMethod => exact forward_mainMethod
  | fieldDecl => exact forward_fieldDecl
  | member => exact forward_member
  | classDecl => exact forward_classDecl
  | classOrSkip => exact forward_classOrSkip
  | settle h start => exact forward_settle (skips_recovery h) start
  | nudge start => exact forward_nudge start
  | classes => exact forward_classes
  | program => exact forward_program
  | statements => exact forward_statements

end Parse

end JavaPrimer
