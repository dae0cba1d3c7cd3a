import JavaPrimer.Grammar.First
import JavaPrimer.Token.Piece
import Mathlib.Data.List.Basic

/-!
# Sets of lookahead sequences

Sequences are told apart by a text made of the number and the image of every term. Two sequences
have one text only when they are the same, as long as no image has the mark that ends a term in
it; the images of a table are spellings of identifiers, which have not.

* `Term.Spelled` — terms whose image may spell an identifier;
* `termsKey_inj` — the text of a sequence determines it;
* `SeqSet.Keyed` — a set whose keys are those of its sequences;
* `SeqSet.mem_add`, `SeqSet.mem_addAll` — what is in a set.
-/

namespace JavaPrimer

/-! ### Numbers -/

theorem Kind.code_inj {k l : Kind} (hk : Kind.ofCode k.code = k) (hl : Kind.ofCode l.code = l)
    (h : k.code = l.code) : k = l := by
  rw [← hk, ← hl, h]

theorem Glyph.scalar_injective : Function.Injective Glyph.scalar := fun _ _ h => Glyph.scalar.inj h

theorem toDigits_inj {m n : Nat} (h : Nat.toDigits 10 m = Nat.toDigits 10 n) : m = n := by
  rw [← Nat.ofDigitChars_ten_toDigits (n := m), h, Nat.ofDigitChars_ten_toDigits]

/-- Decimals are digits, after a minus sign perhaps. -/
theorem Text.mem_decimal {n : Int} {g : Glyph} (hg : g ∈ Text.decimal n) :
    g = Glyph.scalar '-' ∨ g.isDigit = true := by
  have hdigit : ∀ m, g ∈ (Nat.toDigits 10 m).map Glyph.scalar → g.isDigit = true := by
    intro m hm
    obtain ⟨c, hc, rfl⟩ := List.mem_map.1 hm
    exact Nat.isDigit_of_mem_toDigits (by decide) (by decide) hc
  cases n with
  | ofNat n => exact .inr (hdigit n hg)
  | negSucc n =>
    rcases List.mem_cons.1 hg with rfl | hg
    · exact .inl rfl
    · exact .inr (hdigit (n + 1) hg)

theorem Text.decimal_inj {m n : Int} (h : Text.decimal m = Text.decimal n) : m = n := by
  have hminus : ∀ (i : Nat) (rest : Text),
      (Nat.toDigits 10 i).map Glyph.scalar ≠ Glyph.scalar '-' :: rest := by
    intro i rest h
    have hmem : Glyph.scalar '-' ∈ (Nat.toDigits 10 i).map Glyph.scalar := h ▸ List.mem_cons_self
    obtain ⟨c, hc, heq⟩ := List.mem_map.1 hmem
    obtain rfl := Glyph.scalar.inj heq
    exact absurd (Nat.isDigit_of_mem_toDigits (by decide) (by decide) hc) (by decide)
  cases m with
  | ofNat m =>
    cases n with
    | ofNat n => rw [toDigits_inj (List.map_injective_iff.2 Glyph.scalar_injective h)]
    | negSucc n => exact absurd h (hminus _ _)
  | negSucc m =>
    cases n with
    | ofNat n => exact absurd h.symm (hminus _ _)
    | negSucc n =>
      have htail := (List.cons.inj h).2
      have hsucc := toDigits_inj (List.map_injective_iff.2 Glyph.scalar_injective htail)
      rw [Nat.succ.inj hsucc]

theorem Glyph.ordinal_injective : Function.Injective Glyph.ordinal := by
  have hscalar : ∀ (c : Char) (b : UInt8), (Glyph.scalar c).ordinal ≠ (Glyph.stray b).ordinal := by
    intro c b h
    have hc : c.toNat < 0x110000 := by
      have := c.valid
      simp only [UInt32.isValidChar, Nat.isValidChar] at this
      show c.val.toNat < _
      omega
    simp only [Glyph.ordinal] at h
    omega
  intro g h heq
  cases g with
  | scalar c =>
    cases h with
    | scalar d => rw [Char.toNat_inj.1 heq]
    | stray b => exact absurd heq (hscalar c b)
  | stray b =>
    cases h with
    | scalar c => exact absurd heq.symm (hscalar c b)
    | stray b' =>
      have hnat : b.toNat = b'.toNat := Nat.add_left_cancel heq
      rw [UInt8.toNat_inj.1 hnat]

/-! ### Keys -/

/-- A term of a named kind, or of one beyond the named ones, whose image is empty or may spell an
identifier. -/
def Term.Spelled (t : Term) : Prop :=
  Kind.ofCode t.kind.code = t.kind ∧ t.image.all Glyph.isWordPart = true

instance (t : Term) : Decidable t.Spelled := inferInstanceAs (Decidable (_ ∧ _))

/-- What stands before the first of a mark, and what stands after it. -/
theorem append_mark_inj {α : Type} {c : α} {xs ys us vs : List α} (hx : c ∉ xs) (hy : c ∉ ys)
    (h : xs ++ c :: us = ys ++ c :: vs) : xs = ys ∧ us = vs := by
  induction xs generalizing ys with
  | nil =>
    cases ys with
    | nil => exact ⟨rfl, (List.cons.inj h).2⟩
    | cons y ys => exact absurd (List.cons.inj h).1 (fun hc => hy (hc ▸ List.mem_cons_self))
  | cons x xs ih =>
    cases ys with
    | nil => exact absurd (List.cons.inj h).1 (fun hc => hx (hc ▸ List.mem_cons_self))
    | cons y ys =>
      obtain ⟨rfl, htail⟩ := List.cons.inj h
      obtain ⟨rfl, hrest⟩ := ih (fun hc => hx (List.mem_cons_of_mem _ hc))
        (fun hc => hy (List.mem_cons_of_mem _ hc)) htail
      exact ⟨rfl, hrest⟩

/-- The text of a sequence determines it: a number ends at its colon and an image at its bar. -/
theorem termsKey_inj : ∀ {ts us : List Term}, (∀ t ∈ ts, t.Spelled) → (∀ u ∈ us, u.Spelled) →
    termsKey ts = termsKey us → ts = us := by
  have hcons : ∀ (t : Term) (ts : List Term), termsKey (t :: ts)
      = Text.decimal t.kind.code ++ Glyph.scalar ':' :: (t.image ++ Glyph.scalar '|' ::
          termsKey ts) := by
    intro t ts
    rw [termsKey, List.flatMap_cons, termsKey]
    simp [Text.ofString]
  have hcolon : ∀ n : Int, Glyph.scalar ':' ∉ Text.decimal n := by
    intro n h
    rcases Text.mem_decimal h with h | h
    · exact absurd h (by decide)
    · exact absurd h (by decide)
  have hbar : ∀ {t : Term}, t.Spelled → Glyph.scalar '|' ∉ t.image := by
    intro t ht h
    exact absurd (List.all_eq_true.1 ht.2 _ h) (by decide)
  intro ts
  induction ts with
  | nil =>
    intro us _ _ h
    cases us with
    | nil => rfl
    | cons u us =>
      rw [hcons] at h
      exact absurd h.symm (List.append_ne_nil_of_right_ne_nil _ (List.cons_ne_nil _ _))
  | cons t ts ih =>
    intro us hts hus h
    cases us with
    | nil =>
      rw [hcons] at h
      exact absurd h (List.append_ne_nil_of_right_ne_nil _ (List.cons_ne_nil _ _))
    | cons u us =>
      have ht := hts t List.mem_cons_self
      have hu := hus u List.mem_cons_self
      rw [hcons, hcons] at h
      obtain ⟨hcode, h⟩ := append_mark_inj (hcolon _) (hcolon _) h
      obtain ⟨himage, h⟩ := append_mark_inj (hbar ht) (hbar hu) h
      have hkind := Kind.code_inj ht.1 hu.1 (Text.decimal_inj hcode)
      have htail := ih (fun t ht => hts t (List.mem_cons_of_mem _ ht))
        (fun u hu => hus u (List.mem_cons_of_mem _ hu)) h
      obtain ⟨kind, image⟩ := t
      obtain ⟨kind', image'⟩ := u
      simp only at hkind himage
      rw [hkind, himage, htail]

/-! ### Sets -/

namespace SeqSet

/-- The key that a set keeps for a sequence. -/
def keyOf (ts : List Term) : List Nat := (termsKey ts).map Glyph.ordinal

/-- The keys of a set are those of its sequences, and tell them apart. -/
structure Keyed (s : SeqSet) : Prop where
  keys : ∀ key, key ∈ s.keys ↔ ∃ ts ∈ s.seqs, keyOf ts = key
  spelled : ∀ ts ∈ s.seqs, ∀ t ∈ ts, t.Spelled

variable {s : SeqSet} {ts us : List Term} {tss : List (List Term)}

theorem keyOf_inj (hts : ∀ t ∈ ts, t.Spelled) (hus : ∀ u ∈ us, u.Spelled)
    (h : keyOf ts = keyOf us) : ts = us :=
  termsKey_inj hts hus (List.map_injective_iff.2 Glyph.ordinal_injective h)

theorem Keyed.empty : SeqSet.empty.Keyed where
  keys key := by
    constructor
    · exact fun h => absurd h Std.TreeSet.not_mem_emptyc
    · rintro ⟨ts, ⟨⟩, -⟩
  spelled ts h := nomatch h

theorem Keyed.contains_iff (h : s.Keyed) (hts : ∀ t ∈ ts, t.Spelled) :
    s.keys.contains (keyOf ts) = true ↔ ts ∈ s.seqs := by
  rw [Std.TreeSet.contains_iff_mem, h.keys]
  constructor
  · rintro ⟨us, hus, hkey⟩
    exact keyOf_inj (h.spelled us hus) hts hkey ▸ hus
  · exact fun hmem => ⟨ts, hmem, rfl⟩

theorem mem_add (h : s.Keyed) (hts : ∀ t ∈ ts, t.Spelled) :
    us ∈ (s.add ts).seqs ↔ us ∈ s.seqs ∨ us = ts := by
  have hcontains := h.contains_iff hts
  unfold add
  show us ∈ (if s.keys.contains (keyOf ts) = true then s else _).seqs ↔ _
  split
  · next hin =>
    constructor
    · exact .inl
    · rintro (hmem | rfl)
      · exact hmem
      · exact hcontains.1 hin
  · simp only [seqs, List.reverse_cons, List.mem_append, List.mem_singleton]

theorem Keyed.add (h : s.Keyed) (hts : ∀ t ∈ ts, t.Spelled) : (s.add ts).Keyed where
  keys key := by
    have hmem : ∀ us, us ∈ (s.add ts).seqs ↔ us ∈ s.seqs ∨ us = ts := fun us => mem_add h hts
    have hinsert : key ∈ (s.add ts).keys ↔ key ∈ s.keys ∨ keyOf ts = key := by
      unfold SeqSet.add
      show key ∈ (if s.keys.contains (keyOf ts) = true then s else _).keys ↔ _
      split
      · next hin =>
        constructor
        · exact .inl
        · rintro (hkey | rfl)
          · exact hkey
          · exact Std.TreeSet.contains_iff_mem.1 hin
      · show key ∈ s.keys.insert (keyOf ts) ↔ _
        rw [Std.TreeSet.mem_insert, Std.LawfulEqCmp.compare_eq_iff_eq, or_comm]
    rw [hinsert, h.keys]
    constructor
    · rintro (⟨us, hus, hkey⟩ | hkey)
      · exact ⟨us, (hmem us).2 (.inl hus), hkey⟩
      · exact ⟨ts, (hmem ts).2 (.inr rfl), hkey⟩
    · rintro ⟨us, hus, hkey⟩
      rcases (hmem us).1 hus with hus | rfl
      · exact .inl ⟨us, hus, hkey⟩
      · exact .inr hkey
  spelled us hus := by
    rcases (mem_add h hts).1 hus with hus | rfl
    · exact h.spelled us hus
    · exact hts

theorem addAll_cons : s.addAll (ts :: tss) = (s.add ts).addAll tss := rfl

theorem mem_addAll (h : s.Keyed) (htss : ∀ ts ∈ tss, ∀ t ∈ ts, t.Spelled) :
    us ∈ (s.addAll tss).seqs ↔ us ∈ s.seqs ∨ us ∈ tss := by
  induction tss generalizing s with
  | nil => simp only [addAll, List.foldl_nil, List.not_mem_nil, or_false]
  | cons ts tss ih =>
    have hts := htss ts List.mem_cons_self
    rw [addAll_cons, ih (h.add hts) (fun us hus => htss us (List.mem_cons_of_mem _ hus)),
      mem_add h hts, List.mem_cons, or_assoc]

theorem Keyed.addAll (h : s.Keyed) (htss : ∀ ts ∈ tss, ∀ t ∈ ts, t.Spelled) :
    (s.addAll tss).Keyed := by
  induction tss generalizing s with
  | nil => exact h
  | cons ts tss ih =>
    rw [addAll_cons]
    exact ih (h.add (htss ts List.mem_cons_self))
      fun us hus => htss us (List.mem_cons_of_mem _ hus)

end SeqSet

end JavaPrimer
