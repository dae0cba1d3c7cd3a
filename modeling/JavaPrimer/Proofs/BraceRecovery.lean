import JavaPrimer.Proofs.BraceMatching
import JavaPrimer.Proofs.Termination

/-!
# Recovery and braces

In a list of tokens whose braces match, blocks and classes end at the brace that matches the one
they start with, whatever errors are in them, as long as no broken statement goes on to a brace. A
broken statement stops short of every brace that closes, and of one that opens if that is the first
token on its line; a broken member passes over a pair of braces as a whole; where the next class is
looked for, braces do not count.

* `Cursor.Guarded` — a place from which a broken statement stops short of the next brace;
* `Cursor.Region` — a place in front of a list whose braces match, and of what closes it;
* `Parse.kept_whileMore` — what a loop keeps if every round does;
* `Parse.passes_recovering` — a broken statement consumes no brace;
* `Parse.leads_block_region`, `Parse.blocks_round` — a block, and one round of statements;
* `Parse.blocks_inBlock`, `Parse.blocks_atEnd` — the statements of a region.
-/

namespace JavaPrimer

namespace Cursor

variable {c d e : Cursor}

/-- Skipping keeps what every token that is skipped keeps. -/
theorem skipTo_keeps {P : Cursor → Prop} {halt : Cursor → Bool}
    (hstep : ∀ e : Cursor, P e → e.rest ≠ [] → halt e = false → P e.advance) :
    ∀ {c : Cursor}, P c → P (c.skipTo halt) ∧
      ((c.skipTo halt).rest ≠ [] → halt (c.skipTo halt) = true) := by
  intro c hc
  induction hk : c.rest.length using Nat.strongRecOn generalizing c with
  | ind k ih =>
    by_cases hnil : c.rest = []
    · rw [skipTo_of_nil halt hnil]
      exact ⟨hc, fun hne => absurd hnil hne⟩
    cases hval : halt c with
    | true =>
      rw [skipTo_of_halt hnil hval]
      exact ⟨hc, fun _ => hval⟩
    | false =>
      rw [skipTo_of_not_halt hnil hval]
      have hpos := List.length_pos_iff.2 hnil
      apply ih c.advance.rest.length _ (hstep c hc hnil hval) rfl
      rw [rest_advance, List.length_tail]
      omega

/-- The next token is the same where the same tokens are ahead. -/
theorem kind_of_rest_eq (h : d.rest = c.rest) (hc : c.rest ≠ []) : d.kind = c.kind := by
  obtain ⟨t, ts, hts⟩ := List.exists_cons_of_ne_nil hc
  show d.current.kind = c.current.kind
  rw [current_cons hts, current_cons (h.trans hts)]

theorem Flat.length_le (h : c.Flat d) : d.rest.length ≤ c.rest.length := by
  obtain ⟨ts, hts, -⟩ := h
  exact hts.suffix.length_le

/-- Where as many tokens are ahead nothing has been consumed. -/
theorem Flat.rest_eq (h : c.Flat d) (hlength : ¬ d.rest.length < c.rest.length) :
    d.rest = c.rest := by
  obtain ⟨ts, hts, -⟩ := h
  apply hts.suffix.eq_of_length_le
  omega

/-- The last of the tokens consumed since is no brace. -/
theorem Flat.last (h : c.Flat d) (hlength : d.rest.length < c.rest.length) :
    ∃ t, d.last = some t ∧ t.kind.isBrace = false := by
  obtain ⟨ts, hts, hflat⟩ := h
  have hne : ts ≠ [] := by
    rintro rfl
    rw [hts.rest, List.nil_append] at hlength
    exact absurd hlength (Nat.lt_irrefl _)
  refine ⟨ts.getLast hne, ?_, hflat _ (List.getLast_mem hne)⟩
  rw [hts.last, List.getLast?_eq_some_getLast hne, Option.some_or]

/-! ### Broken statements -/

/-- Wherever a brace opens after tokens that are no braces, the token before it shields it. -/
def Guarded (c : Cursor) : Prop :=
  ∀ e, c.Flat e → e.rest ≠ [] → e.kind = .lbrace → ∀ t ∈ e.last, e.current.Shields t

/-- A broken statement that does not start at a brace is skipped without consuming one. -/
theorem Guarded.flat_endStatement (hg : c.Guarded) (hk : c.kind ≠ .lbrace) (hd : c.Flat d) :
    c.Flat (d.endStatement c.rest.length) := by
  unfold endStatement
  split
  · exact hd
  next hended =>
  -- what has been skipped ends in no semicolon, so that a shielded brace starts its line
  let P : Cursor → Prop := fun e => c.Flat e ∧
    (e.rest.length < c.rest.length → ∀ t ∈ e.last, t.kind ≠ .semi)
  have hstart : P d := by
    refine ⟨hd, fun hlength t ht hsemi => hended ?_⟩
    rw [Option.mem_def] at ht
    simp [endedBy, hlength, ht, hsemi]
  have hstep : ∀ e, P e → e.rest ≠ [] → haltsStatement c.rest.length e = false → P e.advance := by
    intro e he hne hhalt
    simp only [haltsStatement, Bool.or_eq_false_iff, beq_eq_false_iff_ne] at hhalt
    obtain ⟨⟨hrbrace, hsemi⟩, hon⟩ := hhalt
    have hlbrace : e.kind ≠ .lbrace := by
      intro hopen
      by_cases hlength : e.rest.length < c.rest.length
      · obtain ⟨t, ht, hbrace⟩ := he.1.last hlength
        rcases hg e he.1 hne hopen t ht with hcase | hcase | hcase
        · exact he.2 hlength t ht hcase
        · rw [hcase] at hbrace
          cases hbrace
        · have hline : e.atLineStart = true := by simp [atLineStart, ht, hcase]
          simp [hlength, hline, hopen, Kind.startsStatement] at hon
      · have hrest := he.1.rest_eq hlength
        apply hk
        rw [← hopen]
        exact (kind_of_rest_eq hrest (hrest ▸ hne)).symm
    have hplain := Kind.isBrace_of_ne hlbrace hrbrace
    refine ⟨he.1.trans (flat_advance hplain), fun _ t ht => ?_⟩
    obtain ⟨u, us, hus⟩ := List.exists_cons_of_ne_nil hne
    rw [advance_cons hus] at ht
    cases ht
    rw [← current_cons hus]
    exact hsemi
  obtain ⟨⟨hflat, -⟩, -⟩ := skipTo_keeps hstep hstart
  unfold past
  split
  · next hsemi => exact hflat.trans (flat_advance (by rw [hsemi]; rfl))
  · exact hflat

/-! ### Broken members -/

/-- In front of a brace nothing is consumed but with it. -/
theorem Flat.rest_of_lbrace (h : c.Flat d) (hk : c.kind = .lbrace) : d.rest = c.rest := by
  obtain ⟨ts, hts, hflat⟩ := h
  cases ts with
  | nil => exact hts.rest.symm
  | cons t ts =>
    have ht := hflat t List.mem_cons_self
    rw [← current_cons hts.rest, show c.current.kind = .lbrace from hk] at ht
    cases ht

/-- A broken member is skipped without consuming a brace, but for a pair of braces at its end,
which is consumed as a whole. -/
theorem endMember_cases (hd : c.Flat d) :
    (c.Flat (d.endMember c.rest.length) ∧ (c.rest ≠ [] → c.kind ≠ .lbrace))
    ∨ ∃ e, c.Flat e ∧ e.kind = .lbrace ∧ e.stop = d.stop
      ∧ d.endMember c.rest.length = e.skipBody := by
  unfold endMember
  split
  · next hended =>
    refine .inl ⟨hd, fun _ hk => ?_⟩
    rw [endedBy, hd.rest_of_lbrace hk] at hended
    simp at hended
  have hstep : ∀ e : Cursor, c.Flat e → e.rest ≠ [] → haltsMember c.rest.length e = false →
      c.Flat e.advance := by
    intro e he hne hhalt
    simp only [haltsMember, Bool.or_eq_false_iff, beq_eq_false_iff_ne] at hhalt
    obtain ⟨⟨⟨hrbrace, -⟩, hlbrace⟩, -⟩ := hhalt
    exact he.trans (flat_advance (Kind.isBrace_of_ne hlbrace hrbrace))
  obtain ⟨hflat, -⟩ := skipTo_keeps hstep hd
  have hend := (onward_skipTo (haltsMember c.rest.length) d).stop
  dsimp only
  split
  · next hopen => exact .inr ⟨_, hflat, hopen, hend, rfl⟩
  · next hclosed =>
    refine .inl ⟨?_, fun hne hk => ?_⟩
    · unfold past
      split
      · next hsemi => exact hflat.trans (flat_advance (by rw [hsemi]; rfl))
      · exact hflat
    · exact hclosed ((kind_of_rest_eq (hflat.rest_of_lbrace hk) hne).trans hk)

/-- Inside a brace that is open, a list whose braces match is skipped as a whole. -/
theorem skipBody_loop_balanced (c : Cursor) {mid : List Token} (h : Balanced mid) :
    ∀ depth last after, 0 < depth → skipBody.loop c depth last (mid ++ after)
      = skipBody.loop c depth (mid.getLast?.or last) after := by
  induction h with
  | nil => exact fun _ _ _ _ => rfl
  | @plain t ts ht hts ih =>
    intro depth last after hdepth
    have hlast : (t :: ts).getLast?.or last = ts.getLast?.or (some t) := by
      cases hts : ts.getLast? <;> simp [List.getLast?_cons, hts]
    rw [hlast, ← ih depth (some t) after hdepth, List.cons_append, skipBody.loop]
    split
    · next hk => exact absurd hk (Kind.ne_lbrace ht)
    · next hk => exact absurd hk (Kind.ne_rbrace ht)
    · rfl
  | @braces l mid r ts hl hmid hr hts ihmid ihts =>
    intro depth last after hdepth
    have hlast : (l :: mid ++ r :: ts).getLast?.or last = ts.getLast?.or (some r) := by
      cases hts : ts.getLast? <;> simp [List.getLast?_append, List.getLast?_cons, hts]
    have hclose : ¬ depth + 1 = 1 := by omega
    rw [hlast, ← ihts depth (some r) after hdepth, List.append_assoc, List.cons_append,
      List.cons_append, skipBody.loop, hl]
    dsimp only
    rw [ihmid (depth + 1) (some l) _ (Nat.succ_pos _), skipBody.loop, hr]
    simp only [hclose, if_false, Nat.add_sub_cancel]

/-- A pair of braces that match is skipped as a whole. -/
theorem skipBody_eq {l r : Token} {mid after : List Token} (hrest : c.rest = l :: mid ++ r :: after)
    (hl : l.kind = .lbrace) (hmid : Balanced mid) (hr : r.kind = .rbrace) :
    c.skipBody = { c with last := some r, rest := after } := by
  rw [skipBody, hrest, List.cons_append, skipBody.loop, hl]
  dsimp only
  rw [skipBody_loop_balanced c hmid _ _ _ (Nat.succ_pos 0), skipBody.loop, hr]
  rfl

/-! ### Regions -/

/-- A place in front of a list whose braces match, up to what closes it. -/
structure Region (c : Cursor) (mid after : List Token) : Prop where
  rest : c.rest = mid ++ after
  balanced : Balanced mid
  closes : ∀ r ∈ after.head?, r.kind = .rbrace
  stop : c.stop.kind = .eof
  calm : c.panicking = false

variable {mid after : List Token}

/-- What is consumed without a brace is a front of the region. -/
theorem Region.flat (h : c.Region mid after) (hd : c.Flat d) : ∃ u v, mid = u ++ v
    ∧ Braceless u ∧ Balanced v ∧ c.Consumed u d ∧ d.rest = v ++ after := by
  obtain ⟨ts, hts, hflat⟩ := hd
  have hrest : mid ++ after = ts ++ d.rest := by rw [← h.rest, hts.rest]
  rcases List.append_eq_append_iff.1 hrest with ⟨ws, rfl, hafter⟩ | ⟨ws, rfl, hahead⟩
  · cases ws with
    | nil =>
      rw [List.append_nil] at hts hflat
      exact ⟨mid, [], (List.append_nil mid).symm, hflat, .nil, hts, hafter.symm⟩
    | cons w ws =>
      have hw := hflat w (List.mem_append_right mid List.mem_cons_self)
      rw [h.closes w (by rw [hafter]; rfl)] at hw
      cases hw
  · exact ⟨ts, ws, rfl, hflat, h.balanced.of_braceless hflat, hts, hahead⟩

/-- The rest of a region, behind a part whose braces match. -/
theorem Region.behind (h : c.Region (mid ++ v) after) (hv : Balanced v) (hd : c.Consumed mid d)
    (hstop : d.stop = c.stop) (hcalm : d.panicking = false) : d.Region v after := by
  refine ⟨?_, hv, h.closes, ?_, hcalm⟩
  · have hrest := hd.rest
    rw [h.rest, List.append_assoc] at hrest
    exact (List.append_cancel_left hrest).symm
  · rw [hstop]
    exact h.stop

/-- A brace that opens where a region starts is the first token of the region. -/
theorem Region.opens (h : c.Region mid after) (hk : c.kind = .lbrace) :
    ∃ l ts, mid = l :: ts ∧ l.kind = .lbrace := by
  have hne : c.kind ≠ .eof := by rw [hk]; decide
  obtain ⟨ts, hts⟩ := rest_eq_of_kind h.stop hne
  have hrest := h.rest
  rw [hts] at hrest
  cases mid with
  | nil =>
    have hclose := h.closes c.current (by rw [← List.nil_append after, ← hrest]; rfl)
    rw [show c.current.kind = .lbrace from hk] at hclose
    cases hclose
  | cons l mid =>
    refine ⟨l, mid, rfl, ?_⟩
    rw [← (List.cons.inj hrest).1]
    exact hk

theorem Region.guarded (h : c.Region mid after) (hs : Shielded c.last mid) : c.Guarded := by
  intro e he hne hopen t ht
  obtain ⟨u, v, hmid, -, -, hts, hrest⟩ := h.flat he
  cases v with
  | nil =>
    rw [List.nil_append] at hrest
    obtain ⟨r, rs, hr⟩ := List.exists_cons_of_ne_nil hne
    have hclose := h.closes r (by rw [← hrest, hr]; rfl)
    rw [← current_cons hr, show e.current.kind = .lbrace from hopen] at hclose
    cases hclose
  | cons l vs =>
    have hl : e.current = l := current_cons hrest
    rw [hl]
    rw [hts.last] at ht
    apply hs u l vs hmid _ t ht
    rw [← hl]
    exact hopen

end Cursor

namespace Parse

variable {α : Type} {c : Cursor} {mid after : List Token}

/-! ### Loops over a region -/

/-- A loop over constructs with their recovery, of which each consumes a part of what is left.
`I` holds in front of what is left, and `P` is put together from the parts. -/
theorem kept_whileMore {more : Cursor → Bool} (hmore : ∀ c, more c = true → c.rest ≠ [])
    {skip : Nat → Cursor → Cursor} (hskip : Cursor.Skips skip) {item : Parse .short (Option α)}
    (hitem : Forward item) {I : Cursor → List Token → Prop} {P : List Token → List α → Prop}
    (hnil : P [] []) (hended : ∀ {c mid}, I c mid → c.Ended ∧ (more c = true ↔ mid ≠ []))
    (hround : ∀ {c mid}, I c mid → mid ≠ [] → ∃ u v, mid = u ++ v
      ∧ c.Consumed u (recovering skip item c).cursor ∧ I (recovering skip item c).cursor v
      ∧ ∀ xs, P v xs → P mid ((item c).value.toList ++ xs)) :
    ∀ {c mid}, I c mid → P mid (whileMore more (recovering skip item) c).value
      ∧ c.Consumed mid (whileMore more (recovering skip item) c).cursor
      ∧ I (whileMore more (recovering skip item) c).cursor [] := by
  intro c mid hc
  induction hk : mid.length using Nat.strongRecOn generalizing c mid with
  | ind k ih =>
    obtain ⟨hend, hgo⟩ := hended hc
    by_cases hne : mid = []
    · have hstop : more c = false := by simpa [hne] using hgo
      rw [hne] at hc ⊢
      rw [← (ends_recovering hmore hskip hitem).unfolds c hend, collectRound_stop hstop]
      exact ⟨hnil, .refl c, hc⟩
    · obtain ⟨u, v, hmid, hconsumed, hnext, hput⟩ := hround hc hne
      have hshort : v.length < k := by
        have hlt := recovering_lt hskip hitem c (hmore c (hgo.2 hne))
        rw [hconsumed.rest, List.length_append] at hlt
        rw [← hk, hmid, List.length_append]
        omega
      obtain ⟨hvalue, hrest, hlast⟩ := ih v.length hshort hnext rfl
      have hvalues : (recovering skip item c).value = (item c).value := by rw [recovering_apply]
      rw [← (ends_recovering hmore hskip hitem).unfolds c hend, collectRound_more (hgo.2 hne),
        hvalues]
      refine ⟨hput _ hvalue, ?_, hlast⟩
      rw [hmid]
      exact hconsumed.trans hrest

/-! ### Recovery in a region -/

theorem flat_nudge {d : Cursor} (hk : c.kind.isBrace = false) (h : c.Flat d) :
    c.Flat (nudge c.rest.length d).cursor := by
  simp only [nudge, move]
  split
  · next hlength =>
    by_cases hnil : d.rest = []
    · rw [Cursor.advance_nil hnil]
      exact h
    · have hrest := h.rest_eq (by omega)
      have hkind := Cursor.kind_of_rest_eq hrest (hrest ▸ hnil)
      exact h.trans (Cursor.flat_advance (by rw [hkind]; exact hk))
  · exact h

/-- A statement without braces, read in a region and recovered from, consumes none. -/
theorem passes_recovering {item : Parse .short α} {Q : α → Prop} (h : item.Passes c Q)
    (hk : c.kind.isBrace = false) (hg : c.Guarded) :
    (recovering Cursor.endStatement item).Passes c Q := by
  have hsettle : c.Flat (settle Cursor.endStatement c.rest.length (item c).cursor).cursor := by
    simp only [settle, move]
    split
    · exact (hg.flat_endStatement (Kind.ne_lbrace hk) h.1).panic false
    · exact h.1
  rw [Passes, recovering_apply]
  exact ⟨flat_nudge hk hsettle, h.2⟩

/-- After a construct without errors that has consumed something there is nothing to recover
from. -/
theorem recovering_of_calm {skip : Nat → Cursor → Cursor} {item : Parse .short α}
    (hcalm : (item c).cursor.panicking = false)
    (hlength : (item c).cursor.rest.length < c.rest.length) :
    recovering skip item c = item c := by
  rw [recovering_apply]
  simp only [settle, move, hcalm, nudge, Bool.false_eq_true, if_false, Nat.ne_of_lt hlength]

/-! ### Blocks -/

theorem isBlock_of_simple {x : Stmt} (h : x.Simple) : x.isBlock = false := by
  cases h <;> rfl

theorem passes_statementWith (inner : Parse .short (Option Stmt)) (hk : c.kind ≠ .lbrace) :
    (statementWith inner).Passes c fun x => ∀ y ∈ x, y.isBlock = false := by
  have hnone : ∀ y ∈ (none : Option Stmt), y.isBlock = false := fun _ hy => nomatch hy
  have hsimple : ∀ {p : Parse .short Stmt}, p.Passes c Stmt.Simple →
      (some <$> p).Passes c fun x => ∀ y ∈ x, y.isBlock = false := by
    intro p hp
    apply Passes.map
    apply hp.imp
    intro x hx y hy
    cases hy
    exact isBlock_of_simple hx
  apply passes_look_bind
  dsimp only [id]
  split
  · exact passes_fail_bind _ fun _ => passes_pure hnone
  split
  · next hs => exact hsimple (passes_printStmt hs)
  split
  · exact hsimple passes_varDecl
  split
  · exact hsimple passes_exprStmt
  split
  · next hopen => exact absurd (by simpa using hopen) hk
  · exact passes_fail_bind _ fun _ => passes_pure hnone

theorem leads_statementWith_block (inner : Parse .short (Option Stmt)) (hk : c.kind = .lbrace) :
    (statementWith inner).Leads c fun x e =>
      x = some (.block (block inner c).value.span (block inner c).value.stmts)
        ∧ e = (block inner c).cursor := by
  have hprint : c.startsPrint = false := by
    simp [Cursor.startsPrint, Token.isWord, show c.current.kind = .lbrace from hk]
  apply leads_look_bind
  simp only [id, hk, hprint]
  exact ⟨rfl, rfl⟩

/-- The statements of a block or a list of statements, with their recovery. -/
def stmtsWhile (more : Cursor → Bool) : Parse .short (List Stmt) :=
  whileMore more (recovering Cursor.endStatement statement)

/-- What holds of the statements of a region, and of the place behind them. -/
def KeepsBlocks (more : Cursor → Bool) (mid after : List Token) (c : Cursor) : Prop :=
  BlocksIn mid (stmtsWhile more c).value ∧ c.Consumed mid (stmtsWhile more c).cursor
    ∧ (stmtsWhile more c).cursor.Region [] after

/-- A block at the start of a region, where its statements keep the braces. -/
theorem leads_block_region {l : Token} {ts : List Token} (h : c.Region (l :: ts) after)
    (hl : l.kind = .lbrace)
    (hinner : ∀ m r v, ts = m ++ r :: v → c.advance.Region m (r :: (v ++ after)) →
      KeepsBlocks inBlock m (r :: (v ++ after)) c.advance) :
    (block statement).Leads c fun b e => ∃ m r v stmts, ts = m ++ r :: v ∧ r.kind = .rbrace
      ∧ Balanced v ∧ BlocksIn m stmts ∧ b = ⟨l.spanTo r, stmts⟩ ∧ c.Consumed (l :: m ++ [r]) e
      ∧ e.panicking = false := by
  obtain ⟨m, r, v, rfl, hr, hm, hv⟩ := h.balanced.opened hl
  have hrest : c.rest = l :: m ++ r :: (v ++ after) := by rw [h.rest]; simp
  have hregion : c.advance.Region m (r :: (v ++ after)) := by
    refine ⟨?_, hm, ?_, ?_, ?_⟩
    · rw [Cursor.rest_advance, hrest, List.cons_append, List.tail_cons]
    · intro q hq
      cases hq
      exact hr
    · rw [Cursor.stop_advance]
      exact h.stop
    · rw [Cursor.panicking_advance]
      exact h.calm
  obtain ⟨hblocks, hconsumed, hend⟩ := hinner m r v rfl hregion
  have hahead : (stmtsWhile inBlock c.advance).cursor.rest = r :: (v ++ after) := hend.rest
  have hcurrent : c.current = l := Cursor.current_cons hrest
  apply leads_spanned
  apply leads_advance_bind
  apply Leads.bind (Q := fun xs d => xs = (stmtsWhile inBlock c.advance).value
    ∧ d = (stmtsWhile inBlock c.advance).cursor) ⟨rfl, rfl⟩
  rintro xs d ⟨rfl, rfl⟩
  apply (leads_expect .rbrace).bind
  rintro there e (⟨-, -, rfl⟩ | ⟨-, hne, -⟩)
  · refine ⟨m, r, v, _, rfl, hr, hv, hblocks, ?_, ?_, ?_⟩
    · rw [Cursor.advance_cons hahead, hcurrent]
      rfl
    · exact (Cursor.consumed_advance hrest).trans (hconsumed.trans (Cursor.consumed_advance hahead))
    · show (stmtsWhile inBlock c.advance).cursor.advance.panicking = false
      rw [Cursor.panicking_advance]
      exact hend.calm
  · refine absurd ?_ hne
    show (stmtsWhile inBlock c.advance).cursor.current.kind = .rbrace
    rw [Cursor.current_cons hahead]
    exact hr

theorem more_inBlock (h : c.Region mid after) : inBlock c = true ↔ mid ≠ [] := by
  have hrest := h.rest
  cases mid with
  | nil =>
    simp only [ne_eq, not_true_eq_false, iff_false, Bool.not_eq_true]
    cases after with
    | nil => simp [inBlock, Cursor.atEnd, hrest]
    | cons r rs =>
      have hr := h.closes r rfl
      simp [inBlock, Cursor.kind, Cursor.current_cons hrest, hr]
  | cons t ts =>
    have hne := h.balanced.head_ne
    simp [inBlock, Cursor.atEnd, Cursor.kind, Cursor.current_cons hrest, hrest, hne]

theorem more_atEnd (h : c.Region mid []) : (!c.atEnd) = true ↔ mid ≠ [] := by
  have hrest := h.rest
  rw [List.append_nil] at hrest
  simp [Cursor.atEnd, hrest]

/-- One statement of a region with its recovery, where the blocks in it keep the braces. -/
theorem blocks_round (h : c.Region mid after) (hs : Shielded c.last mid) (hne : mid ≠ [])
    (hinner : ∀ {d m t}, m.length < mid.length → d.Region m t → Shielded d.last m →
      KeepsBlocks inBlock m t d) :
    ∃ u v, mid = u ++ v ∧ c.Consumed u (recovering Cursor.endStatement statement c).cursor
      ∧ Balanced v ∧ ∀ xs, BlocksIn v xs → BlocksIn mid ((statement c).value.toList ++ xs) := by
  obtain ⟨l, ts, rfl⟩ := List.exists_cons_of_ne_nil hne
  have hrest := h.rest
  have hkind : c.kind = l.kind := congrArg Token.kind (Cursor.current_cons hrest)
  have hunfold : statementWith statement c = statement c := ends_statement.unfolds c h.stop
  by_cases hl : l.kind = .lbrace
  · have hblock := leads_block_region h hl fun m r v hts hregion => by
      have hbehind : Shielded ([l].getLast?.or c.last) ts := Shielded.behind hs
      rw [hts] at hbehind
      apply hinner _ hregion
      · rw [Cursor.advance_cons hrest]
        exact hbehind.front
      · rw [hts]
        simp only [List.length_cons, List.length_append]
        omega
    obtain ⟨m, r, v, stmts, rfl, hr, hv, hblocks, hvalue, hall, hcalm⟩ := hblock
    obtain ⟨hstmt, hcursor⟩ := leads_statementWith_block statement (hkind.trans hl)
    rw [hunfold, hvalue] at hstmt
    rw [hunfold] at hcursor
    have hshort : (statement c).cursor.rest.length < c.rest.length := by
      rw [hcursor, hall.rest, List.length_append, List.length_append, List.length_singleton]
      omega
    rw [recovering_of_calm (by rw [hcursor]; exact hcalm) hshort, hstmt, hcursor]
    refine ⟨l :: m ++ [r], v, by simp, hall, hv, fun xs hxs => ?_⟩
    exact .block hl hblocks hr hxs
  · have hplain : c.kind.isBrace = false := by
      rw [hkind]
      exact Kind.isBrace_of_ne hl h.balanced.head_ne
    have hpass := passes_statementWith statement (Kind.ne_lbrace hplain)
    have hitem : statement.Passes c fun x => ∀ y ∈ x, y.isBlock = false := by
      rw [Passes, ← hunfold]
      exact hpass
    have hdone := passes_recovering hitem hplain (h.guarded hs)
    obtain ⟨u, v, hmid, hu, hv, hconsumed, -⟩ := h.flat hdone.1
    refine ⟨u, v, hmid, hconsumed, hv, fun xs hxs => ?_⟩
    rw [hmid]
    apply BlocksIn.braceless hu
    cases hval : (statement c).value with
    | none => exact hxs
    | some x => exact .stmt (hitem.2 x hval) hxs

/-- The statements of a shielded region keep the braces, where those of shorter ones do. -/
theorem blocks_loop {more : Cursor → Bool} (hgoes : ∀ c, more c = true → c.rest ≠ [])
    (hmore : ∀ {c mid}, c.Region mid after → (more c = true ↔ mid ≠ []))
    (hinner : ∀ {d m t}, m.length < mid.length → d.Region m t → Shielded d.last m →
      KeepsBlocks inBlock m t d)
    (h : c.Region mid after) (hs : Shielded c.last mid) : KeepsBlocks more mid after c := by
  have hkept := kept_whileMore (P := BlocksIn) (I := fun c m => c.Region m after
    ∧ Shielded c.last m ∧ m.length ≤ mid.length) hgoes Cursor.endStatement_skips forward_statement
    .nil (fun hc => ⟨hc.1.stop, hmore hc.1⟩) ?_ ⟨h, hs, Nat.le_refl _⟩
  · exact ⟨hkept.1, hkept.2.1, hkept.2.2.1⟩
  rintro c m ⟨hc, hsc, hlength⟩ hne
  obtain ⟨u, v, rfl, hconsumed, hv, hput⟩ := blocks_round hc hsc hne
    fun hlt => hinner (Nat.lt_of_lt_of_le hlt hlength)
  have hstop := (forward_recovering Cursor.endStatement_skips forward_statement c).stop
  refine ⟨u, v, rfl, hconsumed, ⟨?_, ?_, ?_⟩, hput⟩
  · exact hc.behind hv hconsumed hstop (panicking_recovering _ _ c)
  · rw [hconsumed.last]
    exact hsc.behind
  · rw [List.length_append] at hlength
    omega

/-- The statements of a block keep the braces. -/
theorem blocks_inBlock (h : c.Region mid after) (hs : Shielded c.last mid) :
    KeepsBlocks inBlock mid after c := by
  induction hk : mid.length using Nat.strongRecOn generalizing c mid after with
  | ind k ih =>
    apply blocks_loop rest_of_inBlock more_inBlock _ h hs
    intro d m t hlt hd hsd
    exact ih m.length (hk ▸ hlt) hd hsd rfl

/-- The statements of a list of statements keep the braces. -/
theorem blocks_atEnd (h : c.Region mid []) (hs : Shielded c.last mid) :
    KeepsBlocks (fun d => !d.atEnd) mid [] c :=
  blocks_loop rest_of_goesOn more_atEnd (fun _ hd hsd => blocks_inBlock hd hsd) h hs

end Parse

end JavaPrimer
