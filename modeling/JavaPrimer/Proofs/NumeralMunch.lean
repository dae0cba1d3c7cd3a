import JavaPrimer.Token.Numeral

/-!
# Numerals in other surroundings

A numeral that was read at the front of some text is read again, whole and alone, at the front of
any text that goes on with something that could not belong to it. Letters, digits and points can
belong to a numeral; a sign can where the numeral ends in its exponent mark.

* `Numeral.WellFormed` — the shape of what is read;
* `Numeral.wellFormed_read` — whatever is read has that shape;
* `Numeral.Ended` — a text that goes on with nothing that could belong to a numeral;
* `Numeral.read_append` — a numeral of that shape is read again.
-/

namespace JavaPrimer

namespace Glyph

/-- The mark of an exponent. -/
def isMark (g : Glyph) : Bool := g.isOneOf ['e', 'E']

/-- The sign of an exponent. -/
def isSign (g : Glyph) : Bool := g.isOneOf ['+', '-']

/-- The suffix of a floating numeral. -/
def isFloatSuffix (g : Glyph) : Bool := g.isOneOf ['f', 'F', 'd', 'D']

/-- The suffix of a long numeral. -/
def isLongSuffix (g : Glyph) : Bool := g.isOneOf ['l', 'L']

theorem mem_of_isOneOf {cs : List Char} {g : Glyph} (h : g.isOneOf cs = true) :
    g ∈ cs.map scalar := by
  cases g with
  | scalar c =>
    have hc : c ∈ cs := by simpa [isOneOf, satisfies] using h
    exact List.mem_map_of_mem hc
  | stray b => cases h

theorem eq_or_eq_of_isOneOf {a b : Char} {g : Glyph} (h : g.isOneOf [a, b] = true) :
    g = scalar a ∨ g = scalar b := by
  have hmem := mem_of_isOneOf h
  rwa [List.map_cons, List.map_singleton, List.mem_cons, List.mem_singleton] at hmem

end Glyph

/-- A run ends before a glyph that cannot belong to it. -/
theorem Text.takeWhile_append_stop {p : Glyph → Bool} {run t : Text} (hrun : ∀ g ∈ run, p g = true)
    (ht : ∀ g ∈ t.head?, p g = false) : (run ++ t).takeWhile p = run := by
  rw [List.takeWhile_append_of_pos hrun]
  cases t with
  | nil => rw [List.takeWhile_nil, List.append_nil]
  | cons g t =>
    have hg : p g = false := ht g rfl
    rw [List.takeWhile_cons_of_neg (by simp [hg]), List.append_nil]

/-- A text goes on with nothing that could belong to a run of digits, a fraction, an exponent or a
suffix. -/
structure Numeral.Ended (t : Text) : Prop where
  digit : ∀ g ∈ t.head?, g.isDigit = false
  point : ∀ g ∈ t.head?, g ≠ Glyph.scalar '.'
  mark : ∀ g ∈ t.head?, g.isMark = false
  floatSuffix : ∀ g ∈ t.head?, g.isFloatSuffix = false
  longSuffix : ∀ g ∈ t.head?, g.isLongSuffix = false

namespace Numeral

/-- A numeral whose four parts are what they can be. -/
structure WellFormed (n : Numeral) : Prop where
  whole : ∀ g ∈ n.whole, g.isDigit = true
  fraction : n.fraction = []
    ∨ ∃ ds, n.fraction = Glyph.scalar '.' :: ds ∧ ∀ g ∈ ds, g.isDigit = true
  exponent : n.exponent = []
    ∨ ∃ m s ds, n.exponent = m :: (s ++ ds) ∧ m.isMark = true
      ∧ (s = [] ∨ ∃ c, s = [c] ∧ c.isSign = true) ∧ ∀ g ∈ ds, g.isDigit = true
  suffix : n.suffix = []
    ∨ ∃ c, n.suffix = [c] ∧ (c.isFloatSuffix = true
      ∨ n.fraction = [] ∧ n.exponent = [] ∧ c.isLongSuffix = true)

/-! ### What is read is well-formed -/

theorem digits_isDigit (t : Text) : ∀ g ∈ Text.digits t, g.isDigit = true :=
  List.all_eq_true.1 List.all_takeWhile

theorem readFraction_cases (t : Text) : readFraction t = []
    ∨ ∃ ds, readFraction t = Glyph.scalar '.' :: ds ∧ ∀ g ∈ ds, g.isDigit = true := by
  cases t with
  | nil => exact .inl rfl
  | cons g rest =>
    simp only [readFraction]
    split
    · next h => exact .inr ⟨_, by rw [h], digits_isDigit rest⟩
    · exact .inl rfl

theorem readSigned_cases (t : Text) : ∃ s ds, readSigned t = s ++ ds
    ∧ (s = [] ∨ ∃ c, s = [c] ∧ c.isSign = true) ∧ ∀ g ∈ ds, g.isDigit = true := by
  cases t with
  | nil => exact ⟨[], [], rfl, .inl rfl, fun g hg => nomatch hg⟩
  | cons g rest =>
    simp only [readSigned]
    split
    · next h => exact ⟨[g], _, rfl, .inr ⟨g, rfl, h⟩, digits_isDigit rest⟩
    · exact ⟨[], Text.digits (g :: rest), rfl, .inl rfl, digits_isDigit (g :: rest)⟩

theorem readExponent_cases (t : Text) : readExponent t = []
    ∨ ∃ m s ds, readExponent t = m :: (s ++ ds) ∧ m.isMark = true
      ∧ (s = [] ∨ ∃ c, s = [c] ∧ c.isSign = true) ∧ ∀ g ∈ ds, g.isDigit = true := by
  cases t with
  | nil => exact .inl rfl
  | cons g rest =>
    simp only [readExponent]
    split
    · next h =>
      obtain ⟨s, ds, hrest, hs, hds⟩ := readSigned_cases rest
      exact .inr ⟨g, s, ds, by rw [hrest], h, hs, hds⟩
    · exact .inl rfl

theorem wellFormed_read (t : Text) : (read t).WellFormed := by
  refine ⟨digits_isDigit t, readFraction_cases _, readExponent_cases _, ?_⟩
  simp only [read]
  generalize List.drop _ (List.drop _ (List.drop _ t)) = rest
  cases rest with
  | nil => exact .inl rfl
  | cons g rest =>
    simp only [readSuffix]
    split
    · next h =>
      refine .inr ⟨g, rfl, ?_⟩
      rcases Bool.or_eq_true_iff.1 h with h | h
      · exact .inl h
      · simp only [Bool.and_eq_true, Bool.not_eq_true', Bool.or_eq_false_iff,
          Bool.not_eq_false', List.isEmpty_iff] at h
        exact .inr ⟨h.1.1, h.1.2, h.2⟩
    · exact .inl rfl

/-! ### Reading again -/

theorem digits_append {ds t : Text} (hds : ∀ g ∈ ds, g.isDigit = true)
    (ht : ∀ g ∈ t.head?, g.isDigit = false) : Text.digits (ds ++ t) = ds :=
  Text.takeWhile_append_stop hds ht

theorem readSuffix_append {floating : Bool} {s t : Text}
    (hs : s = [] ∨ ∃ c, s = [c] ∧ (c.isFloatSuffix = true
      ∨ floating = false ∧ c.isLongSuffix = true)) (ht : Ended t) :
    readSuffix floating (s ++ t) = s := by
  rcases hs with rfl | ⟨c, rfl, h⟩
  · cases t with
    | nil => rfl
    | cons g t =>
      have hf : g.isFloatSuffix = false := ht.floatSuffix g rfl
      have hl : g.isLongSuffix = false := ht.longSuffix g rfl
      simp only [Glyph.isFloatSuffix, Glyph.isLongSuffix] at hf hl
      simp [readSuffix, hf, hl]
  · have hyes : (c.isFloatSuffix || (!floating && c.isLongSuffix)) = true := by
      rcases h with h | ⟨hf, h⟩
      · rw [h, Bool.true_or]
      · rw [hf, h, Bool.not_false, Bool.true_and, Bool.or_true]
    exact if_pos hyes

theorem readSigned_append {s ds t : Text} (hs : s = [] ∨ ∃ c, s = [c] ∧ c.isSign = true)
    (hds : ∀ g ∈ ds, g.isDigit = true) (hdigit : ∀ g ∈ t.head?, g.isDigit = false)
    (hsign : s = [] → ds = [] → ∀ g ∈ t.head?, g.isSign = false) :
    readSigned (s ++ ds ++ t) = s ++ ds := by
  rcases hs with rfl | ⟨c, rfl, hc⟩
  · rw [List.nil_append]
    have hread := digits_append hds hdigit
    -- the first glyph is no sign, be it a digit or what follows
    cases hfirst : ds ++ t with
    | nil =>
      rw [hfirst] at hread
      rw [← hread]
      rfl
    | cons g rest =>
      have hg : g.isSign = false := by
        cases ds with
        | nil =>
          rw [List.nil_append] at hfirst
          exact hsign rfl rfl g (by rw [hfirst]; rfl)
        | cons d ds =>
          obtain ⟨rfl, -⟩ := List.cons.inj hfirst
          have hd : d.isDigit = true := hds d List.mem_cons_self
          cases hsg : d.isSign with
          | false => rfl
          | true =>
            have hnot : ∀ c ∈ ['+', '-'].map Glyph.scalar, c.isDigit = false := by decide
            rw [hnot d (Glyph.mem_of_isOneOf hsg)] at hd
            cases hd
      rw [hfirst] at hread
      rw [readSigned, if_neg (by simpa [Glyph.isSign] using hg)]
      exact hread
  · show (if c.isSign then c :: Text.digits (ds ++ t) else _) = _
    rw [if_pos hc, digits_append hds hdigit]
    rfl

theorem readExponent_append {x t : Text}
    (hx : x = [] ∨ ∃ m s ds, x = m :: (s ++ ds) ∧ m.isMark = true
      ∧ (s = [] ∨ ∃ c, s = [c] ∧ c.isSign = true) ∧ ∀ g ∈ ds, g.isDigit = true)
    (hdigit : ∀ g ∈ t.head?, g.isDigit = false) (hmark : x = [] → ∀ g ∈ t.head?, g.isMark = false)
    (hsign : ∀ m, x = [m] → ∀ g ∈ t.head?, g.isSign = false) : readExponent (x ++ t) = x := by
  rcases hx with rfl | ⟨m, s, ds, rfl, hm, hs, hds⟩
  · cases t with
    | nil => rfl
    | cons g t =>
      have hg : g.isMark = false := hmark rfl g rfl
      rw [List.nil_append, readExponent, if_neg (by simpa [Glyph.isMark] using hg)]
  · show (if m.isMark then m :: readSigned (s ++ ds ++ t) else _) = _
    rw [if_pos hm, readSigned_append hs hds hdigit]
    intro hs hds
    exact hsign m (by rw [hs, hds]; rfl)

theorem readFraction_append {x t : Text}
    (hx : x = [] ∨ ∃ ds, x = Glyph.scalar '.' :: ds ∧ ∀ g ∈ ds, g.isDigit = true)
    (hdigit : ∀ g ∈ t.head?, g.isDigit = false)
    (hpoint : x = [] → ∀ g ∈ t.head?, g ≠ Glyph.scalar '.') : readFraction (x ++ t) = x := by
  rcases hx with rfl | ⟨ds, rfl, hds⟩
  · cases t with
    | nil => rfl
    | cons g t => exact if_neg (hpoint rfl g rfl)
  · rw [List.cons_append, readFraction, if_pos rfl, digits_append hds hdigit]

/-- The last glyph is the mark of an exponent. -/
def endsInMark (t : Text) : Bool := t.getLast?.any Glyph.isMark

theorem mark_cases {g : Glyph} (h : g.isMark = true) :
    g.isDigit = false ∧ g ≠ Glyph.scalar '.' := by
  have hall : ∀ c ∈ ['e', 'E'].map Glyph.scalar, c.isDigit = false ∧ c ≠ .scalar '.' := by decide
  exact hall g (Glyph.mem_of_isOneOf h)

theorem suffix_cases {g : Glyph} (h : g.isFloatSuffix = true ∨ g.isLongSuffix = true) :
    g.isDigit = false ∧ g ≠ Glyph.scalar '.' ∧ g.isMark = false ∧ g.isSign = false := by
  have hall : ∀ c ∈ ['f', 'F', 'd', 'D'].map Glyph.scalar ++ ['l', 'L'].map Glyph.scalar,
      c.isDigit = false ∧ c ≠ .scalar '.' ∧ c.isMark = false ∧ c.isSign = false := by decide
  rcases h with h | h
  · exact hall g (List.mem_append_left _ (Glyph.mem_of_isOneOf h))
  · exact hall g (List.mem_append_right _ (Glyph.mem_of_isOneOf h))

/-- A well-formed numeral is read again before a text that could not belong to it. -/
theorem read_append {n : Numeral} (hn : n.WellFormed) {t : Text} (ht : Ended t)
    (hsign : endsInMark n.text = true → ∀ g ∈ t.head?, g.isSign = false) :
    read (n.text ++ t) = n := by
  obtain ⟨w, f, x, s⟩ := n
  obtain ⟨hw, hf, hx, hs⟩ := hn
  simp only at hw hf hx hs
  -- what stands behind the exponent: a suffix or what follows the numeral
  have hafter : ∀ g ∈ (s ++ t).head?, g.isDigit = false ∧ g ≠ Glyph.scalar '.' ∧ g.isMark = false
      ∧ (∀ m, x = [m] → g.isSign = false) := by
    intro g hg
    rcases hs with rfl | ⟨c, rfl, hc⟩
    · refine ⟨ht.digit g hg, ht.point g hg, ht.mark g hg, ?_⟩
      intro m hm
      subst hm
      refine hsign ?_ g hg
      rcases hx with hx | ⟨m', s', ds', hx, hmark, -⟩
      · cases hx
      · obtain ⟨rfl, -⟩ := List.cons.inj hx
        simp [endsInMark, text, hmark]
    · obtain rfl : c = g := Option.some.inj hg
      have hc' : c.isFloatSuffix = true ∨ c.isLongSuffix = true := hc.imp id fun h => h.2.2
      obtain ⟨h₁, h₂, h₃, h₄⟩ := suffix_cases hc'
      exact ⟨h₁, h₂, h₃, fun _ _ => h₄⟩
  have hmiddle : ∀ g ∈ (x ++ (s ++ t)).head?, g.isDigit = false ∧ g ≠ Glyph.scalar '.' := by
    intro g hg
    rcases hx with rfl | ⟨m, s', ds', rfl, hmark, -⟩
    · exact ⟨(hafter g hg).1, (hafter g hg).2.1⟩
    · obtain rfl : m = g := Option.some.inj hg
      exact mark_cases hmark
  have hfront : ∀ g ∈ (f ++ (x ++ (s ++ t))).head?, g.isDigit = false := by
    intro g hg
    rcases hf with rfl | ⟨ds, rfl, -⟩
    · exact (hmiddle g hg).1
    · obtain rfl : Glyph.scalar '.' = g := Option.some.inj hg
      rfl
  have e₁ : Text.digits (w ++ (f ++ (x ++ (s ++ t)))) = w := digits_append hw hfront
  have e₂ : readFraction (f ++ (x ++ (s ++ t))) = f :=
    readFraction_append hf (fun g hg => (hmiddle g hg).1) fun _ g hg => (hmiddle g hg).2
  have e₃ : readExponent (x ++ (s ++ t)) = x :=
    readExponent_append hx (fun g hg => (hafter g hg).1) (fun _ g hg => (hafter g hg).2.2.1)
      fun m hm g hg => (hafter g hg).2.2.2 m hm
  have e₄ : readSuffix (!f.isEmpty || !x.isEmpty) (s ++ t) = s := by
    refine readSuffix_append ?_ ht
    refine hs.imp id ?_
    intro h
    obtain ⟨c, rfl, hc⟩ := h
    refine ⟨c, rfl, hc.imp id ?_⟩
    intro h
    obtain ⟨rfl, rfl, hl⟩ := h
    exact ⟨rfl, hl⟩
  have htext : text ⟨w, f, x, s⟩ ++ t = w ++ (f ++ (x ++ (s ++ t))) := by
    simp only [text, List.append_assoc]
  rw [htext]
  simp only [read, e₁, e₂, e₃, e₄, List.drop_left]

end Numeral

end JavaPrimer
