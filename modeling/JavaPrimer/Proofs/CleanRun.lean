import JavaPrimer.Proofs.Covering
import JavaPrimer.Proofs.Progress
import JavaPrimer.Proofs.TokenLists

/-!
# Runs without complaints

A run that starts in calm and adds no diagnostic stays calm, since an error that is not reported
follows a literal that was cut off. What such a run has consumed is what its value is read from.

* `Cursor.Calm` — no panic, and no cut-off literal on the way;
* `Parse.Reads` — a run without complaints stays calm and relates its value to what it consumed;
* `Parse.Reads.bind`, `Parse.reads_fail`, `Parse.reads_expect_bind` — the rules for steps;
* `Parse.reads_spanned` — a node spans what was consumed for it;
* `Parse.reads_collect`, `Parse.reads_untilNone`, `Parse.reads_recovering` — repetition and
  recovery.
-/

namespace JavaPrimer

/-- No panic, and no literal cut off before or after. -/
structure Cursor.Calm (c : Cursor) : Prop where
  quiet : c.panicking = false
  last : ∀ t ∈ c.last, t.unterminated = false
  rest : ∀ t ∈ c.rest, t.unterminated = false
  stop : c.stop.kind = .eof

namespace Cursor

/-- Where something other than the end of input stands, there is a token. -/
theorem rest_eq_of_kind {ρ : Reach} {c : Cursor ρ} (hc : c.stop.kind = .eof) (h : c.kind ≠ .eof) :
    ∃ ts, c.rest = c.current :: ts := by
  cases hr : c.rest with
  | nil => exact absurd ((congrArg Token.kind (current_nil hr)).trans hc) h
  | cons t ts => exact ⟨ts, by rw [current_cons hr]⟩

/-- After tokens of a source the span since the first of them goes to the last. -/
theorem Consumed.spanSince {c d : Cursor} {ts : List Token} (h : c.Consumed ts d)
    (hne : ts ≠ []) : (d.spanSince c.current.span).Fits ts := by
  intro hall
  obtain ⟨t, us, rfl⟩ := List.exists_cons_of_ne_nil hne
  have hcurrent : c.current = t := current_cons h.rest
  have hz : (t :: us).getLast? = some ((t :: us).getLast hne) := List.getLast?_eq_some_getLast hne
  have hlast : d.last = some ((t :: us).getLast hne) := by rw [h.last, hz, Option.some_or]
  have horder : ((t :: us).getLast hne).span.startsBefore t.span = false := by
    rcases List.mem_cons.1 (List.getLast_mem hne) with hsame | hmem
    · rw [hsame]
      exact Position.before_self _
    · exact (List.pairwise_cons.1 hall.ordered).1 _ hmem
  refine ⟨t, (t :: us).getLast hne, rfl, hz, ?_⟩
  simp [Cursor.spanSince, hlast, hcurrent, horder]

theorem Calm.advance {c : Cursor} (h : c.Calm) : c.advance.Calm := by
  cases hr : c.rest with
  | nil =>
    rwa [advance_nil hr]
  | cons t ts =>
    rw [advance_cons hr]
    refine ⟨h.quiet, ?_, ?_, h.stop⟩
    · intro u hu
      cases hu
      exact h.rest t (by rw [hr]; exact List.mem_cons_self)
    · exact fun u hu => h.rest u (by rw [hr]; exact List.mem_cons_of_mem t hu)

end Cursor

namespace Parse

variable {α β : Type} {c : Cursor}

/-- A run of `p` from `c` that adds no diagnostic ends in calm, and `Q` holds of what it consumed
and its value. -/
def Reads (p : Parse .short α) (c : Cursor) (Q : List Token → α → Prop) : Prop :=
  (p c).diagnostics = [] →
    (p c).cursor.Calm ∧ ∃ ts, c.Consumed ts (p c).cursor ∧ Q ts (p c).value

/-! ### Rules for steps -/

theorem Reads.imp {p : Parse .short α} {Q Q' : List Token → α → Prop} (h : p.Reads c Q)
    (hQ : ∀ ts a, Q ts a → Q' ts a) : p.Reads c Q' := by
  intro hd
  obtain ⟨hc, ts, hts, hq⟩ := h hd
  exact ⟨hc, ts, hts, hQ ts _ hq⟩

/-- What a run has consumed is a front of what was ahead. -/
theorem Reads.of_front {p : Parse .short α} {Q : List Token → α → Prop}
    (h : p.Reads c fun ts a => ts <+: c.rest → Q ts a) : p.Reads c Q := by
  intro hd
  obtain ⟨hc, ts, hts, hq⟩ := h hd
  exact ⟨hc, ts, hts, hq ⟨_, hts.rest.symm⟩⟩

theorem reads_pure (hc : c.Calm) {a : α} {Q : List Token → α → Prop} (h : Q [] a) :
    (Pure.pure a : Parse .short α).Reads c Q :=
  fun _ => ⟨hc, [], .refl c, h⟩

theorem Reads.bind {p : Parse .short α} {f : α → Parse .short β} {Q : List Token → α → Prop}
    {Q' : List Token → β → Prop} (hp : p.Reads c Q)
    (hf : ∀ d ts a, d.Calm → c.Consumed ts d → Q ts a →
      (f a).Reads d fun us b => Q' (ts ++ us) b) : (p >>= f).Reads c Q' := by
  intro hd
  rw [bind_apply] at hd ⊢
  obtain ⟨hd₁, hd₂⟩ := List.append_eq_nil_iff.1 hd
  obtain ⟨hc₁, ts, hts, hq⟩ := hp hd₁
  obtain ⟨hc₂, us, hus, hq'⟩ := hf _ ts _ hc₁ hts hq hd₂
  exact ⟨hc₂, ts ++ us, hts.trans hus, hq'⟩

theorem Reads.map {p : Parse .short α} {f : α → β} {Q : List Token → β → Prop}
    (h : p.Reads c fun ts a => Q ts (f a)) : (f <$> p).Reads c Q := by
  intro hd
  rw [map_apply] at hd ⊢
  exact h hd

theorem reads_look_bind {g : Cursor → α} {f : α → Parse .short β} {Q : List Token → β → Prop}
    (h : (f (g c)).Reads c Q) : (look g >>= f).Reads c Q := h

theorem reads_panicking_bind (hc : c.Calm) {f : Bool → Parse .short β} {Q : List Token → β → Prop}
    (h : (f false).Reads c Q) : (panicking >>= f).Reads c Q := by
  have hp : c.panicking = false := hc.quiet
  rw [← hp] at h
  exact h

/-- Among the tokens of a source a node spans what was consumed for it. -/
theorem reads_spanned {node : Parse .short (Span → α)} {Q : List Token → α → Prop}
    (h : node.Reads c fun ts build => ∀ s, (ts ≠ [] → s.Fits ts) → Q ts (build s)) :
    (spanned node).Reads c Q := by
  refine reads_look_bind (h.bind fun d ts build hd hts hQ => ?_)
  refine reads_look_bind (reads_pure hd ?_)
  rw [List.append_nil]
  exact hQ _ hts.spanSince

theorem reads_advance_bind (hc : c.Calm) (hk : c.kind ≠ .eof) {f : Token → Parse .short β}
    {Q : List Token → β → Prop}
    (h : c.advance.Calm → (f c.current).Reads c.advance fun us b => Q (c.current :: us) b) :
    (advance >>= f).Reads c Q := by
  obtain ⟨ts, hr⟩ := Cursor.rest_eq_of_kind hc.stop hk
  intro hd
  obtain ⟨hd', us, hus, hQ⟩ := h hc.advance hd
  exact ⟨hd', c.current :: us, (Cursor.consumed_advance hr).trans hus, hQ⟩

/-- In calm an error is always reported. -/
theorem reads_fail (hc : c.Calm) (x : Complaint) {Q : List Token → Unit → Prop} :
    (fail x).Reads c Q := by
  intro hd
  have hl : c.last.any (·.unterminated) = false := by
    cases hlast : c.last with
    | none => rfl
    | some t => exact hc.last t hlast
  simp [fail, hc.quiet, hl] at hd

theorem reads_fail_bind (hc : c.Calm) (x : Complaint) {f : Unit → Parse .short β}
    {Q : List Token → β → Prop} : (fail x >>= f).Reads c Q :=
  (reads_fail hc x (Q := fun _ _ => False)).bind fun _ _ _ _ _ h => h.elim

theorem reads_report_bind (hc : c.Calm) (x : Diagnostic) {f : Unit → Parse .short β}
    {Q : List Token → β → Prop} : (report x >>= f).Reads c Q := by
  have hr : (report x).Reads c fun _ _ => False := by
    refine reads_panicking_bind hc ?_
    intro hd
    cases hd
  exact hr.bind fun _ _ _ _ _ h => h.elim

/-! ### Wanted tokens -/

theorem reads_expect (hc : c.Calm) {k : Kind} (hk : k ≠ .eof) :
    (expect k).Reads c fun ts b => b = true ∧ ∃ t, ts = [t] ∧ t.kind = k := by
  refine reads_look_bind ?_
  split
  · next h =>
    refine reads_advance_bind hc (fun he => hk (h.symm.trans he)) fun hd => reads_pure hd ?_
    exact ⟨rfl, c.current, rfl, h⟩
  · exact reads_fail_bind hc _

/-- A token that is wanted and without which there is nothing more to do. -/
theorem reads_expect_bind (hc : c.Calm) {k : Kind} (hk : k ≠ .eof) {f : Bool → Parse .short β}
    {Q : List Token → β → Prop}
    (h : ∀ d t, d.Calm → c.Consumed [t] d → t.kind = k →
      (f true).Reads d fun us b => Q (t :: us) b) : (expect k >>= f).Reads c Q := by
  refine (reads_expect hc hk).bind ?_
  rintro d ts b hd hr ⟨rfl, t, rfl, ht⟩
  exact h d t hd hr ht

theorem reads_expectAll (hc : c.Calm) {ks : List Kind} (hk : Kind.eof ∉ ks) :
    (expectAll ks).Reads c fun ts b => b = true ∧ ts.map Token.kind = ks := by
  induction ks generalizing c with
  | nil => exact reads_pure hc ⟨rfl, rfl⟩
  | cons k ks ih =>
    have hk₁ : k ≠ .eof := fun h => hk (h ▸ List.mem_cons_self)
    refine reads_expect_bind hc hk₁ fun d t hd _ ht => ?_
    refine (ih hd fun h => hk (List.mem_cons_of_mem k h)).imp fun ts b h => ⟨h.1, ?_⟩
    rw [List.map_cons, ht, h.2]

theorem reads_expectIdent_bind (hc : c.Calm) {f : Ident × Bool → Parse .short β}
    {Q : List Token → β → Prop}
    (h : ∀ d t, d.Calm → c.Consumed [t] d → Ident.ReadFrom ⟨t.value, t.span⟩ t →
      (f (⟨t.value, t.span⟩, true)).Reads d fun us b => Q (t :: us) b) :
    (expectIdent >>= f).Reads c Q := by
  have hx : expectIdent.Reads c fun ts x =>
      ∃ t, ts = [t] ∧ t.kind = .ident ∧ x = (⟨t.value, t.span⟩, true) := by
    refine reads_look_bind (reads_expect_bind hc (by decide) fun d t hd hr ht => ?_)
    refine reads_pure hd ⟨t, rfl, ht, ?_⟩
    rw [Cursor.current_cons hr.rest]
    rfl
  refine hx.bind ?_
  rintro d ts x hd hr ⟨t, rfl, ht, rfl⟩
  exact h d t hd hr ⟨ht, rfl⟩

/-! ### Repetition -/

/-- Repeating an item whose readings are never empty. -/
theorem reads_collect {more : Cursor → Bool} {item : Parse .short (Option α)}
    {P : α → List Token → Prop} (n : Nat) (hc : c.Calm)
    (h : ∀ d, d.Calm → d.rest <:+ c.rest → more d →
      item.Reads d fun ts o => ∃ x, o = some x ∧ P x ts) :
    (collect more item n).Reads c fun ts xs => ReadEach P xs ts := by
  induction n generalizing c with
  | zero => exact reads_pure hc rfl
  | succ n ih =>
    refine reads_look_bind ?_
    split
    · next hm =>
      refine (h c hc (List.suffix_refl _) hm).bind ?_
      rintro d ts o hd hr ⟨x, rfl, hx⟩
      refine (ih hd fun d' hd' hs => h d' hd' (hs.trans hr.suffix)).bind ?_
      intro d' us xs hd' _ hxs
      refine reads_pure hd' ?_
      rw [List.append_nil]
      exact (ReadEach.singleton hx).append hxs
    · exact reads_pure hc rfl

theorem reads_collectUntil {item : Parse .short (Option α)} {P : α → List Token → Prop}
    (n : Nat) (hc : c.Calm)
    (h : ∀ d, d.Calm → item.Reads d fun ts o => ReadEach P o.toList ts) :
    (collectUntil item n).Reads c fun ts xs => ReadEach P xs ts := by
  induction n generalizing c with
  | zero => exact reads_pure hc rfl
  | succ n ih =>
    refine (h c hc).bind ?_
    intro d ts o hd _ ho
    cases o with
    | none =>
      refine reads_pure hd ?_
      rw [List.append_nil]
      exact ho
    | some x =>
      refine (ih hd).bind fun d' us xs hd' _ hxs => reads_pure hd' ?_
      rw [List.append_nil]
      exact ho.append hxs

theorem reads_untilNone {item : Parse .short (Option α)} {P : α → List Token → Prop} (hc : c.Calm)
    (h : ∀ d, d.Calm → item.Reads d fun ts o => ReadEach P o.toList ts) :
    (untilNone item).Reads c fun ts xs => ReadEach P xs ts :=
  reads_collectUntil (c.rest.length + 1) hc h

/-- After a run without complaints there is nothing to recover from. -/
theorem reads_recovering {skip : Nat → Cursor → Cursor} {item : Parse .short α}
    {Q : List Token → α → Prop} (h : item.Reads c Q) (hne : ∀ a, ¬ Q [] a) :
    (recovering skip item).Reads c Q := by
  intro hd
  rw [recovering_apply] at hd ⊢
  obtain ⟨hc, ts, hts, hq⟩ := h hd
  have hlen : (item c).cursor.rest.length ≠ c.rest.length := by
    intro hl
    rw [hts.rest, List.length_append] at hl
    have hnil : ts = [] := List.eq_nil_of_length_eq_zero (by omega)
    exact hne _ (hnil ▸ hq)
  have hs : settle skip c.rest.length (item c).cursor = ⟨(), [], (item c).cursor⟩ := by
    simp [settle, move, hc.quiet]
  have hn : nudge c.rest.length (item c).cursor = ⟨(), [], (item c).cursor⟩ := by
    simp [nudge, move, hlen]
  rw [hs, hn]
  exact ⟨hc, ts, hts, hq⟩

/-- Constructs with their recovery, repeated. -/
theorem reads_whileMore {more : Cursor → Bool} {skip : Nat → Cursor → Cursor}
    {item : Parse .short (Option α)} {P : α → List Token → Prop} (hc : c.Calm) (hne : ∀ x, ¬ P x [])
    (h : ∀ d, d.Calm → d.rest <:+ c.rest → more d →
      item.Reads d fun ts o => ∃ x, o = some x ∧ P x ts) :
    (whileMore more (recovering skip item)).Reads c fun ts xs => ReadEach P xs ts := by
  intro hd
  refine reads_collect c.rest.length hc (fun d hd' hs hm => ?_) hd
  refine reads_recovering (h d hd' hs hm) ?_
  rintro o ⟨x, -, hx⟩
  exact hne x hx

end Parse

end JavaPrimer
