import JavaPrimer.Parsing.Cursor
import Mathlib.Data.List.TakeWhile

/-!
# Lists of tokens and their first end of input

The list that is read ends in an end of input. A cursor before its first token splits it at the
first one, so that nothing is lost where the cursor reaches over the whole list.

* `eof_mem_closedOff` — the list that is read has an end of input;
* `Cursor.before_eq` — where a list with one is split;
* `Cursor.ahead_before`, `Cursor.ahead_advance` — looking ahead and moving;
* `Cursor.rest_ofTokens`, `Cursor.stop_ofTokens` — the first place of a list.
-/

namespace JavaPrimer

variable {ρ : Reach}

theorem closedOff_ne_nil (tokens : List Token) : closedOff tokens ≠ [] := by
  unfold closedOff
  split
  · rintro rfl
    contradiction
  · exact List.append_ne_nil_of_right_ne_nil _ (List.cons_ne_nil _ _)

/-- The list that is read has an end of input. -/
theorem eof_mem_closedOff (tokens : List Token) : ∃ e ∈ closedOff tokens, e.kind = .eof := by
  unfold closedOff
  split
  · next h =>
    obtain ⟨e, he, hk⟩ := (Option.any_eq_true _ _).1 h
    exact ⟨e, List.mem_of_getLast? he, of_decide_eq_true hk⟩
  · exact ⟨_, List.mem_append_right _ (List.mem_singleton.2 rfl), rfl⟩

theorem takeWhile_closedOff (tokens : List Token) :
    (closedOff tokens).takeWhile (·.kind ≠ .eof) = tokens.takeWhile (·.kind ≠ .eof) := by
  unfold closedOff
  split
  · rfl
  · rw [List.takeWhile_append]
    split
    · next h =>
      rw [List.takeWhile_cons_of_neg (by simp [Cursor.impliedEnd, Token.endOfInput]),
        List.append_nil]
      exact ((List.takeWhile_prefix _).eq_of_length h).symm
    · rfl

theorem find?_closedOff (tokens : List Token) : (closedOff tokens).find? (·.kind = .eof)
    = some ((tokens.find? (·.kind = .eof)).getD (Cursor.impliedEnd tokens)) := by
  unfold closedOff
  split
  · next h =>
    obtain ⟨e, he, hk⟩ := (Option.any_eq_true _ _).1 h
    have hsome : (tokens.find? (·.kind = .eof)).isSome := by
      rw [List.find?_isSome]
      exact ⟨e, List.mem_of_getLast? he, hk⟩
    obtain ⟨t, ht⟩ := Option.isSome_iff_exists.1 hsome
    rw [ht, Option.getD_some]
  · rw [List.find?_append]
    cases tokens.find? (·.kind = .eof) <;> rfl

namespace Cursor

/-! ### The split -/

section Before

variable {last : Option Token} {panicking : Bool} {t u : Token} {ts us : List Token}

theorem before_end (hk : t.kind = .eof) :
    (before last panicking t ts : Cursor ρ) = ⟨last, [], t, ρ.hold ts, panicking⟩ := by
  cases ts with
  | nil => rfl
  | cons u us => rw [before, if_pos hk]

theorem before_token (hk : t.kind ≠ .eof) : (before last panicking t (u :: us) : Cursor ρ)
    = { (before last panicking u us : Cursor ρ) with
      rest := t :: (before last panicking u us : Cursor ρ).rest } := by
  rw [before, if_neg hk]

/-- A list with an end of input is split at the first one. -/
theorem before_eq (h : ∃ e ∈ t :: ts, e.kind = .eof) :
    (before last panicking t ts : Cursor ρ).rest = (t :: ts).takeWhile (·.kind ≠ .eof)
      ∧ (t :: ts).find? (·.kind = .eof) = some (before last panicking t ts : Cursor ρ).stop := by
  induction ts generalizing t with
  | nil =>
    obtain ⟨e, he, hk⟩ := h
    rw [List.mem_singleton.1 he] at hk
    simp [before, hk]
  | cons u us ih =>
    by_cases hk : t.kind = .eof
    · simp [before, hk]
    · have hlater : ∃ e ∈ u :: us, e.kind = .eof := by
        obtain ⟨e, he, hke⟩ := h
        rcases List.mem_cons.1 he with rfl | he
        · exact absurd hke hk
        · exact ⟨e, he, hke⟩
      obtain ⟨hrest, hstop⟩ := ih hlater
      rw [before_token hk]
      constructor
      · rw [List.takeWhile_cons_of_pos (by simpa using hk), ← hrest]
      · rw [List.find?_cons_of_neg (by simpa using hk), hstop]

theorem before_fields : (before last panicking t ts : Cursor ρ).last = last
    ∧ (before last panicking t ts : Cursor ρ).panicking = panicking := by
  induction ts generalizing t with
  | nil => exact ⟨rfl, rfl⟩
  | cons u us ih =>
    by_cases hk : t.kind = .eof
    · rw [before_end hk]
      exact ⟨rfl, rfl⟩
    · rw [before_token hk]
      exact ih

end Before

/-! ### Looking ahead and moving -/

/-- Where a cursor reaches over the whole list, it sees every token of it. -/
theorem ahead_before (i : Nat) (last : Option Token) (panicking : Bool) (t : Token)
    (ts : List Token) :
    (before last panicking t ts : Cursor .whole).ahead i = nthOrLast t ts i := by
  induction ts generalizing t i with
  | nil => rfl
  | cons u us ih =>
    by_cases hk : t.kind = .eof
    · rw [before_end hk]
      simp [ahead, Reach.tokens, Reach.hold]
    · rw [before_token hk]
      cases i with
      | zero => rfl
      | succ i =>
        rw [nthOrLast, ← ih]
        simp [ahead]

/-- After one token is consumed, what was behind it comes next. -/
theorem ahead_advance (c : Cursor ρ) (i : Nat) : c.advance.ahead i = c.ahead (i + 1) := by
  cases hr : c.rest with
  | cons t ts => simp [ahead, advance_cons hr, hr]
  | nil =>
    cases ρ with
    | short => rw [advance_nil hr, ahead_short, ahead_short, hr, List.getD_nil, List.getD_nil]
    | whole =>
      unfold advance
      rw [hr]
      cases hb : Reach.tokens c.behind with
      | nil => simp [ahead, hr, hb, nthOrLast]
      | cons t ts =>
        rw [ahead_before]
        simp [ahead, hr, hb, nthOrLast]

/-! ### The first place of a list -/

theorem ofTokens_eq (tokens : List Token) : ∃ t ts, closedOff tokens = t :: ts
    ∧ (ofTokens tokens : Cursor ρ) = before none false t ts := by
  obtain ⟨t, ts, hts⟩ := List.exists_cons_of_ne_nil (closedOff_ne_nil tokens)
  exact ⟨t, ts, hts, by rw [ofTokens, hts, List.headD_cons, List.tail_cons]⟩

/-- The tokens ahead at first are those before the first end of input. -/
theorem rest_ofTokens (tokens : List Token) :
    (ofTokens tokens : Cursor ρ).rest = tokens.takeWhile (·.kind ≠ .eof) := by
  obtain ⟨t, ts, hts, hcursor⟩ := ofTokens_eq (ρ := ρ) tokens
  rw [hcursor, (before_eq (hts ▸ eof_mem_closedOff tokens)).1, ← hts,
    takeWhile_closedOff]

theorem stop_ofTokens (tokens : List Token) : (ofTokens tokens : Cursor ρ).stop
    = (tokens.find? (·.kind = .eof)).getD (impliedEnd tokens) := by
  obtain ⟨t, ts, hts, hcursor⟩ := ofTokens_eq (ρ := ρ) tokens
  have hstop : (t :: ts).find? (·.kind = .eof) = some (ofTokens tokens : Cursor ρ).stop := by
    rw [hcursor]
    exact (before_eq (hts ▸ eof_mem_closedOff tokens)).2
  rw [← hts, find?_closedOff] at hstop
  exact (Option.some.inj hstop).symm

theorem kind_stop_ofTokens (tokens : List Token) :
    (ofTokens tokens : Cursor ρ).stop.kind = .eof := by
  rw [stop_ofTokens]
  cases hf : tokens.find? (·.kind = .eof) with
  | none => rfl
  | some t => simpa using List.find?_some hf

theorem fields_ofTokens (tokens : List Token) : (ofTokens tokens : Cursor ρ).last = none
    ∧ (ofTokens tokens : Cursor ρ).panicking = false := by
  obtain ⟨t, ts, -, hcursor⟩ := ofTokens_eq (ρ := ρ) tokens
  rw [hcursor]
  exact before_fields

theorem takeWhile_of_no_end {ts : List Token} (h : ∀ t ∈ ts, t.kind ≠ .eof) :
    ts.takeWhile (·.kind ≠ .eof) = ts := by
  rw [List.takeWhile_eq_self_iff]
  simpa using h

theorem rest_of_no_end {ts : List Token} (h : ∀ t ∈ ts, t.kind ≠ .eof) :
    (ofTokens ts : Cursor ρ).rest = ts := by
  rw [rest_ofTokens, takeWhile_of_no_end h]

theorem stop_of_no_end {ts : List Token} (h : ∀ t ∈ ts, t.kind ≠ .eof) :
    (ofTokens ts : Cursor ρ).stop = impliedEnd ts := by
  have hnone : ts.find? (·.kind = .eof) = none := by simpa using h
  rw [stop_ofTokens, hnone, Option.getD_none]

/-- A short cursor before the first token holds the tokens before the first end of input, and that
end. -/
theorem ofTokens_short (tokens : List Token) : (ofTokens tokens : Cursor)
    = ⟨none, tokens.takeWhile (·.kind ≠ .eof),
        (tokens.find? (·.kind = .eof)).getD (impliedEnd tokens), (), false⟩ := by
  rw [← rest_ofTokens (ρ := .short), ← stop_ofTokens (ρ := .short)]
  obtain ⟨hlast, hpanicking⟩ := fields_ofTokens (ρ := .short) tokens
  exact congrArg₂ (mk (ρ := .short) · _ _ () ·) hlast hpanicking

theorem ofTokens_of_no_end {ts : List Token} (h : ∀ t ∈ ts, t.kind ≠ .eof) :
    ofTokens ts = (⟨none, ts, impliedEnd ts, (), false⟩ : Cursor) := by
  have hnone : ts.find? (·.kind = .eof) = none := by simpa using h
  rw [ofTokens_short, takeWhile_of_no_end h, hnone, Option.getD_none]

theorem ofTokens_append_end {front : List Token} (h : ∀ t ∈ front, t.kind ≠ .eof) {e : Token}
    (he : e.kind = .eof) (behind : List Token) :
    ofTokens (front ++ e :: behind) = (⟨none, front, e, (), false⟩ : Cursor) := by
  have hrest : (front ++ e :: behind).takeWhile (·.kind ≠ .eof) = front := by
    rw [List.takeWhile_append_of_pos (by simpa using h), List.takeWhile_cons_of_neg (by simp [he]),
      List.append_nil]
  have hfind : (front ++ e :: behind).find? (·.kind = .eof) = some e := by
    have hnone : front.find? (·.kind = .eof) = none := by simpa using h
    rw [List.find?_append, hnone, Option.none_or, List.find?_cons_of_pos (by simpa using he)]
  rw [ofTokens_short, hrest, hfind, Option.getD_some]

end Cursor

end JavaPrimer
