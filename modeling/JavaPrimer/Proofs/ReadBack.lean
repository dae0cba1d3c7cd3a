import JavaPrimer.Proofs.Bare
import JavaPrimer.Proofs.CleanRun

/-!
# Reading a tree back: the rules

A run over tokens that a tree is read from finds that tree, reports nothing and stops where the
tree ends, provided that what follows cannot be taken for more of it. Here are the rules by which
such runs are put together.

* `Cursor.At` — nothing wrong, and exactly these tokens ahead;
* `Parse.Gives` — a run reports nothing, leaves exactly these tokens and gives such a value;
* `Parse.Gives.bind`, `Parse.gives_expect_bind` — the rules for steps;
* `Parse.gives_untilNone`, `Parse.gives_whileMore` — repetition.
-/

namespace JavaPrimer

/-- No panic, and exactly the tokens given ahead. -/
structure Cursor.At (c : Cursor) (ts : List Token) : Prop where
  rest : c.rest = ts
  quiet : c.panicking = false
  stop : c.stop.kind = .eof

/-- The kind of the token that a list starts with, the end of input if there is none. -/
def nextKind (ts : List Token) : Kind := (ts.head?.map Token.kind).getD .eof

@[simp] theorem nextKind_cons (t : Token) (ts : List Token) : nextKind (t :: ts) = t.kind := rfl

namespace Cursor.At

variable {c : Cursor}

theorem kind {ts : List Token} (h : c.At ts) : c.kind = nextKind ts := by
  cases ts with
  | nil =>
    have hstop := h.stop
    simpa [Cursor.kind, Cursor.current, Cursor.ahead_short, h.rest, nextKind] using hstop
  | cons t ts => simp [Cursor.kind, Cursor.current, Cursor.ahead_short, h.rest]

theorem current {t : Token} {ts : List Token} (h : c.At (t :: ts)) : c.current = t :=
  Cursor.current_cons h.rest

theorem advance {t : Token} {ts : List Token} (h : c.At (t :: ts)) : c.advance.At ts := by
  rw [Cursor.advance_cons h.rest]
  exact ⟨rfl, h.quiet, h.stop⟩

theorem ahead_one {t u : Token} {ts : List Token} (h : c.At (t :: u :: ts)) : c.ahead 1 = u := by
  simp [Cursor.ahead_short, h.rest]

end Cursor.At

namespace Parse

variable {α β : Type} {c : Cursor}

/-- A run of `p` from `c` reports nothing, leaves exactly the tokens `ts` and gives a value with
the property `Q`. -/
structure Gives (p : Parse .short α) (c : Cursor) (ts : List Token) (Q : α → Prop) : Prop where
  clean : (p c).diagnostics = []
  ends : (p c).cursor.At ts
  value : Q (p c).value

/-! ### Rules for steps -/

theorem Gives.imp {p : Parse .short α} {ts : List Token} {Q Q' : α → Prop} (h : p.Gives c ts Q)
    (hQ : ∀ a, Q a → Q' a) : p.Gives c ts Q' :=
  ⟨h.clean, h.ends, hQ _ h.value⟩

theorem gives_pure {a : α} {ts : List Token} {Q : α → Prop} (hc : c.At ts) (h : Q a) :
    (Pure.pure a : Parse .short α).Gives c ts Q :=
  ⟨rfl, hc, h⟩

theorem Gives.bind {p : Parse .short α} {f : α → Parse .short β} {us ts : List Token} {Q : α → Prop}
    {Q' : β → Prop} (hp : p.Gives c us Q)
    (hf : ∀ d a, d.At us → Q a → (f a).Gives d ts Q') : (p >>= f).Gives c ts Q' := by
  have h := hf (p c).cursor (p c).value hp.ends hp.value
  refine ⟨?_, h.ends, h.value⟩
  rw [bind_apply, hp.clean, h.clean]
  rfl

theorem Gives.map {p : Parse .short α} {f : α → β} {ts : List Token} {Q : β → Prop}
    (h : p.Gives c ts fun a => Q (f a)) : (f <$> p).Gives c ts Q := by
  refine ⟨?_, ?_, ?_⟩
  · rw [map_apply]
    exact h.clean
  · rw [map_apply]
    exact h.ends
  · rw [map_apply]
    exact h.value

theorem gives_look_bind {g : Cursor → α} {f : α → Parse .short β} {ts : List Token} {Q : β → Prop}
    (h : (f (g c)).Gives c ts Q) : (look g >>= f).Gives c ts Q :=
  ⟨h.clean, h.ends, h.value⟩

theorem gives_panicking_bind {f : Bool → Parse .short β} {us ts : List Token} {Q : β → Prop}
    (hc : c.At us) (h : (f false).Gives c ts Q) : (panicking >>= f).Gives c ts Q := by
  have hp : c.panicking = false := hc.quiet
  rw [← hp] at h
  exact ⟨h.clean, h.ends, h.value⟩

theorem gives_spanned {node : Parse .short (Span → α)} {ts : List Token} {Q : α → Prop}
    (h : node.Gives c ts fun build => ∀ s, Q (build s)) : (spanned node).Gives c ts Q :=
  gives_look_bind (h.bind fun _ _ hd hQ => gives_look_bind (gives_pure hd (hQ _)))

theorem gives_advance_bind_at {ts : List Token} {f : Token → Parse .short β} {Q : β → Prop}
    (h : (f c.current).Gives c.advance ts Q) : (advance >>= f).Gives c ts Q :=
  ⟨h.clean, h.ends, h.value⟩

theorem gives_advance_bind {t : Token} {us ts : List Token} {f : Token → Parse .short β}
    {Q : β → Prop} (hc : c.At (t :: us)) (h : ∀ d, d.At us → (f t).Gives d ts Q) :
    (advance >>= f).Gives c ts Q := by
  apply gives_advance_bind_at
  rw [hc.current]
  exact h c.advance hc.advance

theorem gives_advance {t : Token} {us : List Token} {Q : Token → Prop} (hc : c.At (t :: us))
    (h : Q t) : advance.Gives c us Q := by
  refine ⟨rfl, hc.advance, ?_⟩
  show Q c.current
  rw [hc.current]
  exact h

/-! ### Wanted tokens -/

theorem gives_expect {k : Kind} {t : Token} {us : List Token} (hc : c.At (t :: us))
    (ht : t.kind = k) : (expect k).Gives c us (· = true) := by
  refine gives_look_bind ?_
  rw [if_pos (by rw [hc.current]; exact ht)]
  exact gives_advance_bind hc fun d hd => gives_pure hd rfl

theorem gives_expect_bind {k : Kind} {t : Token} {us ts : List Token} {f : Bool → Parse .short β}
    {Q : β → Prop} (hc : c.At (t :: us)) (ht : t.kind = k)
    (h : ∀ d, d.At us → (f true).Gives d ts Q) : (expect k >>= f).Gives c ts Q := by
  refine (gives_expect hc ht).bind ?_
  rintro d b hd rfl
  exact h d hd

theorem gives_expectAll {ks : List Kind} {hs us : List Token} (hc : c.At (hs ++ us))
    (hk : hs.map Token.kind = ks) : (expectAll ks).Gives c us (· = true) := by
  induction ks generalizing c hs with
  | nil =>
    rw [List.map_eq_nil_iff.1 hk] at hc
    exact gives_pure hc rfl
  | cons k ks ih =>
    obtain ⟨t, hs, rfl, ht, hks⟩ := List.map_eq_cons_iff.1 hk
    exact gives_expect_bind hc ht fun d hd => ih hd hks

theorem gives_expectIdent {t : Token} {us : List Token} (hc : c.At (t :: us))
    (ht : t.kind = .ident) : expectIdent.Gives c us (· = (⟨t.value, t.span⟩, true)) := by
  apply gives_look_bind
  apply gives_expect_bind hc ht
  intro d hd
  apply gives_pure hd
  rw [hc.current]
  rfl

theorem gives_expectIdent_bind {t : Token} {us ts : List Token} {f : Ident × Bool → Parse .short β}
    {Q : β → Prop} {x : Ident} (hc : c.At (t :: us)) (hx : x.ReadFrom t)
    (h : ∀ d y, d.At us → y.bare = x.bare → (f (y, true)).Gives d ts Q) :
    (expectIdent >>= f).Gives c ts Q := by
  refine (gives_expectIdent hc hx.1).bind ?_
  rintro d y hd rfl
  apply h d _ hd
  show Ident.mk t.value .nowhere = ⟨x.name, .nowhere⟩
  rw [hx.2]

/-! ### Repetition -/

/-- Things read one after another are found one after another, as long as each of them ends where
the next one, or what follows them all, starts. -/
theorem gives_collectUntil {item : Parse .short (Option α)} {P : α → List Token → Prop} {f : α → β}
    {F : Kind → Prop} {xs : List α} {us ts : List Token}
    (hstart : ∀ x us ts, P x us → F (nextKind (us ++ ts)))
    (hitem : ∀ x ∈ xs, ∀ d us ts, P x us → d.At (us ++ ts) → F (nextKind ts) →
      item.Gives d ts fun o => ∃ y, o = some y ∧ f y = f x)
    (hend : ∀ d, d.At ts → item.Gives d ts (· = none)) (hF : F (nextKind ts)) :
    ∀ n, xs.length < n → ReadEach P xs us → ∀ c : Cursor, c.At (us ++ ts) →
      (collectUntil item n).Gives c ts fun ys => ys.map f = xs.map f := by
  induction xs generalizing us with
  | nil =>
    intro n hn hr c hc
    rw [show us = [] from hr] at hc
    obtain ⟨n, rfl⟩ : ∃ m, n = m + 1 := ⟨n - 1, by simp at hn; omega⟩
    refine (hend c hc).bind ?_
    rintro d o hd rfl
    exact gives_pure hd rfl
  | cons x xs ih =>
    rintro n hn ⟨vs, ws, rfl, hx, hxs⟩ c hc
    obtain ⟨n, rfl⟩ : ∃ m, n = m + 1 := ⟨n - 1, by simp at hn; omega⟩
    rw [List.append_assoc] at hc
    have hnext : F (nextKind (ws ++ ts)) := by
      cases xs with
      | nil =>
        rw [show ws = [] from hxs]
        exact hF
      | cons y ys =>
        obtain ⟨a, b, rfl, hy, -⟩ := hxs
        rw [List.append_assoc]
        exact hstart y a (b ++ ts) hy
    refine (hitem x List.mem_cons_self c vs (ws ++ ts) hx hc hnext).bind ?_
    rintro d o hd ⟨y, rfl, hy⟩
    have hrest := ih (fun z hz => hitem z (List.mem_cons_of_mem x hz)) n
      (by simp at hn; omega) hxs d hd
    refine hrest.bind fun d' ys hd' hys => gives_pure hd' ?_
    rw [List.map_cons, List.map_cons, hy, hys]

theorem gives_untilNone {item : Parse .short (Option α)} {P : α → List Token → Prop} {f : α → β}
    {F : Kind → Prop} {xs : List α} {us ts : List Token} (hne : ∀ x, ¬ P x [])
    (hstart : ∀ x us ts, P x us → F (nextKind (us ++ ts)))
    (hitem : ∀ x ∈ xs, ∀ d us ts, P x us → d.At (us ++ ts) → F (nextKind ts) →
      item.Gives d ts fun o => ∃ y, o = some y ∧ f y = f x)
    (hend : ∀ d, d.At ts → item.Gives d ts (· = none)) (hF : F (nextKind ts))
    (hr : ReadEach P xs us) (hc : c.At (us ++ ts)) :
    (untilNone item).Gives c ts fun ys => ys.map f = xs.map f := by
  have hlen : xs.length < c.rest.length + 1 := by
    have hle := hr.length_le hne
    rw [hc.rest, List.length_append]
    omega
  have h := gives_collectUntil hstart hitem hend hF (c.rest.length + 1) hlen hr c hc
  exact ⟨h.clean, h.ends, h.value⟩

/-- Where nothing went wrong there is nothing to recover from. -/
theorem gives_recovering {skip : Nat → Cursor → Cursor} {item : Parse .short α} {ts : List Token}
    {Q : α → Prop} (h : item.Gives c ts Q) (hlt : ts.length < c.rest.length) :
    (recovering skip item).Gives c ts Q := by
  have hs : settle skip c.rest.length (item c).cursor = ⟨(), [], (item c).cursor⟩ := by
    simp [settle, move, h.ends.quiet]
  have hn : nudge c.rest.length (item c).cursor = ⟨(), [], (item c).cursor⟩ := by
    have hne : (item c).cursor.rest.length ≠ c.rest.length := by
      rw [h.ends.rest]
      omega
    simp [nudge, move, hne]
  refine ⟨?_, ?_, ?_⟩
  · rw [recovering_apply]
    exact h.clean
  · rw [recovering_apply, hs, hn]
    exact h.ends
  · rw [recovering_apply]
    exact h.value

theorem gives_collect_end {more : Cursor → Bool} {item : Parse .short (Option α)} {ts : List Token}
    (hend : more c = false) (hc : c.At ts) (n : Nat) :
    (collect more item n).Gives c ts (· = []) := by
  cases n with
  | zero => exact gives_pure hc rfl
  | succ n =>
    refine gives_look_bind ?_
    rw [if_neg (by rw [hend]; decide)]
    exact gives_pure hc rfl

/-- Constructs with their recovery, read one after another up to where the condition fails. -/
theorem gives_collect {more : Cursor → Bool} {skip : Nat → Cursor → Cursor}
    {item : Parse .short (Option α)} {P : α → List Token → Prop} {f : α → β} {xs : List α}
    {us ts : List Token} (hne : ∀ x, ¬ P x [])
    (hmore : ∀ x ∈ xs, ∀ d us ts, P x us → d.At (us ++ ts) → more d = true)
    (hitem : ∀ x ∈ xs, ∀ d us ts, P x us → d.At (us ++ ts) →
      item.Gives d ts fun o => ∃ y, o = some y ∧ f y = f x)
    (hend : ∀ d, d.At ts → more d = false) :
    ∀ n, xs.length ≤ n → ReadEach P xs us → ∀ c : Cursor, c.At (us ++ ts) →
      (collect more (recovering skip item) n).Gives c ts fun ys => ys.map f = xs.map f := by
  induction xs generalizing us with
  | nil =>
    intro n _ hr c hc
    rw [show us = [] from hr] at hc
    exact (gives_collect_end (hend c hc) hc n).imp fun ys hys => congrArg (List.map f) hys
  | cons x xs ih =>
    rintro n hn ⟨vs, ws, rfl, hx, hxs⟩ c hc
    obtain ⟨n, rfl⟩ : ∃ m, n = m + 1 := ⟨n - 1, by simp at hn; omega⟩
    rw [List.append_assoc] at hc
    refine gives_look_bind ?_
    rw [if_pos (hmore x List.mem_cons_self c vs (ws ++ ts) hx hc)]
    have hlt : (ws ++ ts).length < c.rest.length := by
      have hpos : 0 < vs.length := List.length_pos_iff.2 fun h => hne x (h ▸ hx)
      rw [hc.rest, @List.length_append _ vs]
      omega
    refine (gives_recovering (hitem x List.mem_cons_self c vs (ws ++ ts) hx hc) hlt).bind ?_
    rintro d o hd ⟨y, rfl, hy⟩
    have hrest := ih (fun z hz => hmore z (List.mem_cons_of_mem x hz))
      (fun z hz => hitem z (List.mem_cons_of_mem x hz)) n (by simp at hn; omega) hxs d hd
    refine hrest.bind fun d' ys hd' hys => gives_pure hd' ?_
    show f y :: ys.map f = f x :: xs.map f
    rw [hy, hys]

theorem gives_whileMore {more : Cursor → Bool} {skip : Nat → Cursor → Cursor}
    {item : Parse .short (Option α)} {P : α → List Token → Prop} {f : α → β} {xs : List α}
    {us ts : List Token} (hne : ∀ x, ¬ P x [])
    (hmore : ∀ x ∈ xs, ∀ d us ts, P x us → d.At (us ++ ts) → more d = true)
    (hitem : ∀ x ∈ xs, ∀ d us ts, P x us → d.At (us ++ ts) →
      item.Gives d ts fun o => ∃ y, o = some y ∧ f y = f x)
    (hend : ∀ d, d.At ts → more d = false) (hr : ReadEach P xs us) (hc : c.At (us ++ ts)) :
    (whileMore more (recovering skip item)).Gives c ts fun ys => ys.map f = xs.map f := by
  have hlen : xs.length ≤ c.rest.length := by
    have hle := hr.length_le hne
    rw [hc.rest, List.length_append]
    omega
  have h : (collect more (recovering skip item) c.rest.length).Gives c ts
      fun ys => ys.map f = xs.map f :=
    gives_collect hne hmore hitem hend c.rest.length hlen hr c hc
  exact ⟨h.clean, h.ends, h.value⟩

/-- One construct, behind which the condition fails. -/
theorem gives_whileMore_one {more : Cursor → Bool} {skip : Nat → Cursor → Cursor}
    {item : Parse .short (Option α)} {ts : List Token} {Q : α → Prop} (hmore : more c = true)
    (hlt : ts.length < c.rest.length) (hitem : item.Gives c ts fun o => ∃ x, o = some x ∧ Q x)
    (hend : ∀ d, d.At ts → more d = false) :
    (whileMore more (recovering skip item)).Gives c ts fun xs => ∃ x, xs = [x] ∧ Q x := by
  have hall : ∀ n, 0 < n → (collect more (recovering skip item) n).Gives c ts
      fun xs => ∃ x, xs = [x] ∧ Q x := by
    intro n hn
    obtain ⟨n, rfl⟩ : ∃ m, n = m + 1 := ⟨n - 1, by omega⟩
    apply gives_look_bind
    rw [if_pos hmore]
    refine (gives_recovering hitem hlt).bind ?_
    rintro d o hd ⟨x, rfl, hx⟩
    refine (gives_collect_end (hend d hd) hd n).bind ?_
    rintro d' ys hd' rfl
    exact gives_pure hd' ⟨x, rfl, hx⟩
  have h := hall c.rest.length (by omega)
  exact ⟨h.clean, h.ends, h.value⟩

end Parse

end JavaPrimer
