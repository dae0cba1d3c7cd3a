import JavaPrimer.Proofs.Progress
import Mathlib.Data.List.Basic
import Mathlib.Data.List.GetD

/-!
# Two runs in step

One run stands among tokens that end in a semicolon, the other at the same place with more tokens
behind them. As long as the semicolon is ahead, neither run can tell that it is not the other:
every token a step looks at stands before the semicolon or is the semicolon.

* `Cursor.Along` — the same place, with and without the tokens behind;
* `Cursor.Beside` — the same, with tokens of the shorter run still ahead;
* `Parse.Agree` — two outcomes with the same value and diagnostics and related cursors;
* `Parse.InStep` — two steps whose runs agree from every place before the semicolon;
* `Parse.Agree.bind`, `Parse.agree_advance_bind`, `Parse.agree_expect` — the rules for steps;
* `Parse.Pays` — an item that consumes a token if it gives something;
* `Parse.inStep_untilNone` — repetition, whatever bound each run has.
-/

namespace JavaPrimer

/-- A semicolon that was not cut off. -/
def Token.IsBreak (t : Token) : Prop := t.kind = .semi ∧ t.unterminated = false

/-- Two cursors at the same place. What the first has ahead, or has just consumed when nothing is
left, ends in a semicolon and opens no brace; the second has the tokens `after` behind that. -/
structure Cursor.Along (after : List Token) (c d : Cursor) : Prop where
  last : d.last = c.last
  panicking : d.panicking = c.panicking
  rest : d.rest = c.rest ++ after
  flat : ∀ t ∈ c.rest, t.kind ≠ .lbrace
  closed : ∃ q ∈ (c.last.toList ++ c.rest).getLast?, q.IsBreak

/-- Two cursors at the same place, the first with at least one and at most `n` tokens ahead. -/
structure Cursor.Beside (after : List Token) (n : Nat) (c d : Cursor) : Prop
    extends Cursor.Along after c d where
  ahead : c.rest ≠ []
  fewer : c.rest.length ≤ n

namespace Cursor

variable {after : List Token} {n : Nat} {c d : Cursor}

/-! ### What both runs see -/

theorem Along.spanSince (h : Along after c d) (start : Span) :
    d.spanSince start = c.spanSince start := by
  simp only [Cursor.spanSince, h.last]

theorem Along.length (h : Along after c d) : d.rest.length = c.rest.length + after.length := by
  rw [h.rest, List.length_append]

/-- After a token is consumed the semicolon is still ahead, or was that token. -/
theorem Along.advance (h : Along after c d) (hc : c.rest ≠ []) :
    Along after c.advance d.advance := by
  obtain ⟨t, ts, hts⟩ := List.exists_cons_of_ne_nil hc
  have hd : d.rest = t :: (ts ++ after) := by rw [h.rest, hts, List.cons_append]
  have hca : c.advance = { c with last := some t, rest := ts } := by simp [Cursor.advance, hts]
  have hda : d.advance = { d with last := some t, rest := ts ++ after } := by
    simp [Cursor.advance, hd]
  obtain ⟨q, hq, hbreak⟩ := h.closed
  rw [hca, hda]
  refine ⟨rfl, h.panicking, rfl, ?_, q, ?_, hbreak⟩
  · intro u hu
    apply h.flat u
    rw [hts]
    exact List.mem_cons_of_mem t hu
  · rw [hts, List.getLast?_append_of_ne_nil _ (List.cons_ne_nil t ts)] at hq
    exact hq

theorem Beside.mono {m : Nat} (h : Beside after n c d) (hm : n ≤ m) : Beside after m c d :=
  ⟨h.toAlong, h.ahead, Nat.le_trans h.fewer hm⟩

/-- The bound of the run itself. -/
theorem Beside.tight (h : Beside after n c d) : Beside after c.rest.length c d :=
  ⟨h.toAlong, h.ahead, Nat.le_refl _⟩

theorem Beside.pos (h : Beside after n c d) : 0 < n :=
  Nat.lt_of_lt_of_le (List.length_pos_iff.2 h.ahead) h.fewer

theorem Beside.ahead_eq (h : Beside after n c d) {i : Nat} (hi : i < c.rest.length) :
    d.ahead i = c.ahead i := by
  have happend := List.getD_append c.rest after c.stop i hi
  have hstop : (c.rest ++ after).getD i d.stop = (c.rest ++ after).getD i c.stop := by
    have hlt : i < (c.rest ++ after).length := by
      rw [List.length_append]
      omega
    rw [List.getD_eq_getElem _ _ hlt, List.getD_eq_getElem _ _ hlt]
  rw [Cursor.ahead_short, Cursor.ahead_short, h.rest, hstop, happend]

theorem Beside.current (h : Beside after n c d) : d.current = c.current :=
  h.ahead_eq (List.length_pos_iff.2 h.ahead)

theorem Beside.kind (h : Beside after n c d) : d.kind = c.kind :=
  congrArg Token.kind h.current

theorem Beside.atLineStart (h : Beside after n c d) : d.atLineStart = c.atLineStart := by
  simp only [Cursor.atLineStart, h.last, h.current]

/-- Behind a token that is no semicolon there is another. -/
theorem Beside.next (h : Beside after n c d) {i : Nat} (hi : i < c.rest.length)
    (hk : (c.ahead i).kind ≠ .semi) : i + 1 < c.rest.length := by
  by_cases hlast : i + 1 < c.rest.length
  · exact hlast
  · obtain ⟨q, hq, hsemi, -⟩ := h.closed
    rw [List.getLast?_append_of_ne_nil _ h.ahead, List.getLast?_eq_getElem?] at hq
    have hindex : c.rest.length - 1 = i := by omega
    rw [hindex] at hq
    have hsame : c.ahead i = q := by rw [Cursor.ahead_short, List.getD_eq_getElem?_getD, hq]; rfl
    exact absurd (hsame ▸ hsemi) hk

theorem Beside.one_lt (h : Beside after n c d) (hk : c.kind ≠ .semi) : 1 < c.rest.length :=
  h.next (List.length_pos_iff.2 h.ahead) hk

/-! Lookahead goes on only past tokens that are no semicolon. -/

theorem Beside.startsCast (h : Beside after n c d) : d.startsCast = c.startsCast := by
  cases hk : c.kind == .lparen with
  | false => simp [Cursor.startsCast, h.kind, hk]
  | true =>
    have hone := h.one_lt (by simp [beq_iff_eq.1 hk])
    simp only [Cursor.startsCast, h.kind, h.ahead_eq hone]

theorem Beside.ident_ident (h : Beside after n c d) :
    (d.kind == .ident && (d.ahead 1).kind == .ident)
      = (c.kind == .ident && (c.ahead 1).kind == .ident) := by
  cases hk : c.kind == .ident with
  | false => simp [h.kind, hk]
  | true =>
    have hone := h.one_lt (by simp [beq_iff_eq.1 hk])
    rw [h.kind, h.ahead_eq hone, hk]

theorem ne_semi_of_isWord {t : Token} {word : Text} (h : t.isWord word = true) :
    t.kind ≠ .semi := by
  intro hk
  simp [Token.isWord, hk] at h

theorem Beside.startsPrint (h : Beside after n c d) : d.startsPrint = c.startsPrint := by
  by_cases h₀ : c.current.isWord "System" = true
  · have hone := h.one_lt (ne_semi_of_isWord h₀)
    cases h₁ : (c.ahead 1).kind == .dot with
    | false => simp [Cursor.startsPrint, h.ahead_eq hone, h₁]
    | true =>
      have htwo := h.next hone (by simp [beq_iff_eq.1 h₁])
      by_cases h₂ : (c.ahead 2).isWord "out" = true
      · have hthree := h.next htwo (ne_semi_of_isWord h₂)
        simp only [Cursor.startsPrint, h.current, h.ahead_eq hone, h.ahead_eq htwo,
          h.ahead_eq hthree]
      · simp [Cursor.startsPrint, h.ahead_eq htwo, h₂]
  · simp [Cursor.startsPrint, h.current, h₀]

theorem Beside.atFreshStart (h : Beside after n c d) : d.atFreshStart = c.atFreshStart := by
  by_cases h₀ : c.current.isWord "System" = true
  · have hone := h.one_lt (ne_semi_of_isWord h₀)
    simp only [Cursor.atFreshStart, h.kind, h.current, h.ahead_eq hone]
  · simp [Cursor.atFreshStart, h.kind, h.current, h₀]

theorem Beside.advance (h : Beside after n c d) (hk : c.kind ≠ .semi) :
    Beside after (n - 1) c.advance d.advance := by
  have hone := h.one_lt hk
  have hlen : c.advance.rest.length = c.rest.length - 1 := by
    rw [rest_advance, List.length_tail]
  have hfewer := h.fewer
  refine ⟨h.toAlong.advance h.ahead, ?_, ?_⟩
  · intro hnil
    rw [hnil, List.length_nil] at hlen
    omega
  · omega

/-- An error looks the same and is shown at the same place. -/
theorem Beside.diagnostic (h : Beside after n c d) (x : Complaint) :
    x.diagnostic d = x.diagnostic c := by
  simp only [Complaint.diagnostic, Complaint.span, h.last, h.kind, h.atLineStart, h.current]

theorem Along.panic (h : Along after c d) (b : Bool) :
    Along after { c with panicking := b } { d with panicking := b } :=
  ⟨h.last, rfl, h.rest, h.flat, h.closed⟩

theorem Beside.panic (h : Beside after n c d) (b : Bool) :
    Beside after n { c with panicking := b } { d with panicking := b } :=
  ⟨h.toAlong.panic b, h.ahead, h.fewer⟩

end Cursor

namespace Parse

variable {α β : Type} {after : List Token} {n : Nat} {c d : Cursor}
variable {R S : Cursor → Cursor → Prop}

/-- Two outcomes with the same value and the same diagnostics, at related cursors. -/
structure Agree (R : Cursor → Cursor → Prop) (s t : Step .short α) : Prop where
  value : t.value = s.value
  diagnostics : t.diagnostics = s.diagnostics
  cursor : R s.cursor t.cursor

/-- Two steps that agree from every place with at most `n` tokens ahead in the shorter run, and
leave the semicolon ahead. -/
def InStep (after : List Token) (n : Nat) (p q : Parse .short α) : Prop :=
  ∀ m, m ≤ n → ∀ c d, Cursor.Beside after m c d → Agree (Cursor.Beside after m) (p c) (q d)

/-! ### Rules for steps -/

theorem Agree.imp {s t : Step .short α} (h : Agree R s t) (hR : ∀ c d, R c d → S c d) :
    Agree S s t :=
  ⟨h.value, h.diagnostics, hR _ _ h.cursor⟩

/-- From a bound to a larger one. -/
theorem Agree.mono {s t : Step .short α} {m : Nat} (h : Agree (Cursor.Beside after m) s t)
    (hm : m ≤ n) :
    Agree (Cursor.Beside after n) s t :=
  h.imp fun _ _ hcd => hcd.mono hm

theorem Agree.along {s t : Step .short α} (h : Agree (Cursor.Beside after n) s t) :
    Agree (Cursor.Along after) s t :=
  h.imp fun _ _ hcd => hcd.toAlong

theorem agree_pure (h : R c d) (a : α) :
    Agree R ((Pure.pure a : Parse .short α) c) ((Pure.pure a : Parse .short α) d) :=
  ⟨rfl, rfl, h⟩

/-- Steps agree in sequence if the second agree from where the first leave off. -/
theorem Agree.bind_at {p q : Parse .short α} {f g : α → Parse .short β} (h : Agree R (p c) (q d))
    (hf : R (p c).cursor (q d).cursor →
      Agree S (f (p c).value (p c).cursor) (g (p c).value (q d).cursor)) :
    Agree S ((p >>= f) c) ((q >>= g) d) := by
  have hsecond := hf h.cursor
  rw [← h.value] at hsecond
  rw [bind_apply, bind_apply, h.diagnostics]
  refine ⟨?_, ?_, ?_⟩
  · rw [hsecond.value, h.value]
  · rw [hsecond.diagnostics, h.value]
  · simpa only [h.value] using hsecond.cursor

theorem Agree.bind {p q : Parse .short α} {f g : α → Parse .short β} (h : Agree R (p c) (q d))
    (hf : ∀ a c' d', R c' d' → Agree S (f a c') (g a d')) :
    Agree S ((p >>= f) c) ((q >>= g) d) :=
  h.bind_at fun hcd => hf _ _ _ hcd

theorem Agree.map {p q : Parse .short α} (f : α → β) (h : Agree R (p c) (q d)) :
    Agree R ((f <$> p) c) ((f <$> q) d) := by
  rw [map_apply, map_apply]
  exact ⟨congrArg f h.value, h.diagnostics, h.cursor⟩

/-- Both runs see the same. -/
theorem agree_look_bind {g g' : Cursor → α} {f f' : α → Parse .short β} (hg : g' d = g c)
    (h : Agree R (f (g c) c) (f' (g c) d)) : Agree R ((look g >>= f) c) ((look g' >>= f') d) := by
  rw [← hg] at h
  have hsame : Agree R (f (g c) c) (f' (g' d) d) := by rwa [← hg]
  exact hsame

/-- Both runs take the same branch. -/
theorem agree_ite {b : Prop} [Decidable b] {p p' q q' : Parse .short α}
    (hp : b → Agree R (p c) (q d)) (hq : ¬ b → Agree R (p' c) (q' d)) :
    Agree R ((if b then p else p') c) ((if b then q else q') d) := by
  by_cases hb : b
  · rw [if_pos hb, if_pos hb]
    exact hp hb
  · rw [if_neg hb, if_neg hb]
    exact hq hb

/-- Both runs take the same branch, since what they test is the same. -/
theorem agree_if {b b' : Bool} (hb : b' = b) {p p' q q' : Parse .short α}
    (hp : b = true → Agree R (p c) (q d)) (hq : Agree R (p' c) (q' d)) :
    Agree R ((if b then p else p') c) ((if b' then q else q') d) := by
  subst hb
  exact agree_ite hp fun _ => hq

theorem agree_panicking_bind {f f' : Bool → Parse .short β} (hc : d.panicking = c.panicking)
    (h : ∀ b, Agree R (f b c) (f' b d)) :
    Agree R ((panicking >>= f) c) ((panicking >>= f') d) :=
  agree_look_bind hc (h _)

theorem agree_spanned {node node' : Parse .short (Span → α)} (hc : Cursor.Beside after n c d)
    (hR : ∀ c d, R c d → Cursor.Along after c d) (h : Agree R (node c) (node' d)) :
    Agree R (spanned node c) (spanned node' d) := by
  refine agree_look_bind (congrArg Token.span hc.current) (h.bind fun build c' d' hcd => ?_)
  exact agree_look_bind ((hR c' d' hcd).spanSince _) (agree_pure hcd _)

/-- Both runs consume the same token, which is not the semicolon. -/
theorem agree_advance_bind_at {f f' : Token → Parse .short β} (hc : Cursor.Beside after n c d)
    (hk : c.kind ≠ .semi) (h : Cursor.Beside after (n - 1) c.advance d.advance →
      Agree R (f c.current c.advance) (f' c.current d.advance)) :
    Agree R ((advance >>= f) c) ((advance >>= f') d) := by
  have hadvance : Agree (Cursor.Beside after (n - 1)) (advance c) (advance d) :=
    ⟨hc.current, rfl, hc.advance hk⟩
  exact hadvance.bind_at h

theorem agree_advance_bind {f f' : Token → Parse .short β} (hc : Cursor.Beside after n c d)
    (hk : c.kind ≠ .semi) (h : ∀ a c' d', Cursor.Beside after (n - 1) c' d' →
      Agree R (f a c') (f' a d')) :
    Agree R ((advance >>= f) c) ((advance >>= f') d) :=
  agree_advance_bind_at hc hk (h _ _ _)

/-! ### Errors -/

theorem agree_fail (hc : Cursor.Beside after n c d) (x : Complaint) :
    Agree (Cursor.Beside after n) (fail x c) (fail x d) := by
  by_cases hp : c.panicking = true
  · rw [fail, fail, if_pos hp, if_pos (hc.panicking.trans hp)]
    exact ⟨rfl, rfl, hc⟩
  · have hp' : ¬ d.panicking = true := by rwa [hc.panicking]
    by_cases hu : c.last.any (·.unterminated) = true
    · have hu' : d.last.any (·.unterminated) = true := by rwa [hc.last]
      rw [fail, fail, if_neg hp, if_neg hp', if_pos hu, if_pos hu']
      exact ⟨rfl, rfl, hc.panic true⟩
    · have hu' : ¬ d.last.any (·.unterminated) = true := by rwa [hc.last]
      rw [fail, fail, if_neg hp, if_neg hp', if_neg hu, if_neg hu']
      exact ⟨rfl, congrArg (fun e => [e]) (hc.diagnostic x), hc.panic true⟩

theorem agree_report (hc : Cursor.Beside after n c d) (x : Diagnostic) :
    Agree (Cursor.Beside after n) (report x c) (report x d) := by
  refine agree_panicking_bind hc.panicking fun b => ?_
  cases b with
  | true => exact agree_pure hc ()
  | false => exact ⟨rfl, rfl, hc⟩

theorem agree_expect (hc : Cursor.Beside after n c d) {k : Kind} (hk : k ≠ .semi) :
    Agree (Cursor.Beside after n) (expect k c) (expect k d) := by
  refine agree_look_bind hc.current ?_
  by_cases hkind : c.current.kind = k
  · rw [if_pos hkind]
    refine agree_advance_bind hc (fun h => hk (hkind.symm.trans h)) fun _ _ _ hcd => ?_
    exact agree_pure (hcd.mono (Nat.sub_le n 1)) true
  · rw [if_neg hkind]
    exact (agree_fail hc _).bind fun _ _ _ hcd => agree_pure hcd false

/-- The semicolon itself may be the last token of the shorter run. -/
theorem agree_expect_semi (hc : Cursor.Beside after n c d) :
    Agree (Cursor.Along after) (expect .semi c) (expect .semi d) := by
  refine agree_look_bind hc.current ?_
  by_cases hkind : c.current.kind = .semi
  · rw [if_pos hkind]
    have hadvance : Agree (Cursor.Along after) (advance c) (advance d) :=
      ⟨hc.current, rfl, hc.toAlong.advance hc.ahead⟩
    exact hadvance.bind fun _ _ _ hcd => agree_pure hcd true
  · rw [if_neg hkind]
    exact (agree_fail hc _).along.bind fun _ _ _ hcd => agree_pure hcd false

theorem agree_expectIdent (hc : Cursor.Beside after n c d) :
    Agree (Cursor.Beside after n) (expectIdent c) (expectIdent d) :=
  agree_look_bind hc.current <|
    (agree_expect hc (by decide)).bind fun _ _ _ hcd => agree_pure hcd _

theorem agree_expectWord (hc : Cursor.Beside after n c d) (words : List Text) :
    Agree (Cursor.Beside after n) (expectWord words c) (expectWord words d) := by
  refine agree_look_bind hc.current ?_
  by_cases hword : c.current.kind = .ident ∧ words.contains c.current.value = true
  · rw [if_pos hword]
    have hk : c.kind ≠ .semi := by
      intro h
      have hident : c.kind = .ident := hword.1
      rw [h] at hident
      cases hident
    refine agree_advance_bind hc hk fun _ _ _ hcd => ?_
    exact agree_pure (hcd.mono (Nat.sub_le n 1)) _
  · rw [if_neg hword]
    exact (agree_fail hc _).bind fun _ _ _ hcd => agree_pure hcd _

/-! ### Repetition -/

/-- An item that consumes a token if it gives something. -/
def Pays (item : Parse .short (Option α)) (c : Cursor) : Prop :=
  (item c).value.isSome → (item c).cursor.rest.length < c.rest.length

theorem pays_none (c : Cursor) : Pays (Pure.pure none : Parse .short (Option α)) c :=
  fun h => nomatch h

theorem pays_look_bind {g : Cursor → β} {f : β → Parse .short (Option α)} (h : Pays (f (g c)) c) :
    Pays (look g >>= f) c := h

theorem pays_ite {b : Prop} [Decidable b] {p q : Parse .short (Option α)} (hp : b → Pays p c)
    (hq : ¬ b → Pays q c) : Pays (if b then p else q) c := by
  split
  · next hb => exact hp hb
  · next hb => exact hq hb

/-- What starts by consuming a token leaves fewer tokens. -/
theorem pays_advance_bind {f : Token → Parse .short (Option α)} (hf : ∀ t, Forward (f t))
    (hc : c.rest ≠ []) : Pays (advance >>= f) c := by
  intro _
  have hrest := (hf c.current).length_le c.advance
  have hpos := List.length_pos_iff.2 hc
  rw [Cursor.rest_advance, List.length_tail] at hrest
  show (f c.current c.advance).cursor.rest.length < _
  omega

/-- An item that consumes a token whenever it gives something is repeated equally often in both
runs, if each run may repeat it once more than it has tokens ahead. -/
theorem agree_collectUntil {item item' : Parse .short (Option α)} (h : InStep after n item item')
    (hlt : ∀ c, c.rest ≠ [] → Pays item c) :
    ∀ k m c d, Cursor.Beside after n c d → c.rest.length < k → d.rest.length < m →
      Agree (Cursor.Beside after n) (collectUntil item k c) (collectUntil item' m d) := by
  intro k
  induction k with
  | zero =>
    intro m c d hc hk hm
    exact absurd hk (Nat.not_lt_zero _)
  | succ k ih =>
    intro m c d hc hk hm
    cases m with
    | zero => exact absurd hm (Nat.not_lt_zero _)
    | succ m =>
      refine (h n (Nat.le_refl n) c d hc).bind_at fun hcd => ?_
      cases hv : (item c).value with
      | none => exact agree_pure hcd []
      | some x =>
        have hless : (item c).cursor.rest.length < c.rest.length :=
          hlt c hc.ahead (by rw [hv]; rfl)
        have hlength := hc.length
        have hlength' := hcd.length
        refine (ih m _ _ hcd (by omega) (by omega)).bind fun xs _ _ hcd' => ?_
        exact agree_pure hcd' (x :: xs)

theorem InStep.le {p q : Parse .short α} {m : Nat} (h : InStep after n p q) (hm : m ≤ n) :
    InStep after m p q :=
  fun k hk => h k (Nat.le_trans hk hm)

theorem inStep_untilNone {item item' : Parse .short (Option α)} (h : InStep after n item item')
    (hlt : ∀ c, c.rest ≠ [] → Pays item c) :
    InStep after n (untilNone item) (untilNone item') := by
  intro m hm c d hc
  exact agree_collectUntil (h.le hm) hlt _ _ c d hc (Nat.lt_succ_self _) (Nat.lt_succ_self _)

end Parse

end JavaPrimer
