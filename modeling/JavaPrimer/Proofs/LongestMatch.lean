import JavaPrimer.Proofs.TokenSpans

/-!
# Longest match

Numbers, words and operators are read glyph by glyph, and a part that may be missing is taken as
soon as its first glyph is seen. What is read this way is always the longest front of the text that
is spelled like a number, a word or an operator, whatever follows.

* `Text.IsNumber`, `Text.IsWord`, `Text.IsOperator`, `Text.Spelled` — the spellings, by their parts;
* `Numeral.Fits` — a part of a number against the part that is read in its place;
* `Numeral.front_read_of_number` — no front that is a number goes further than the numeral read;
* `Piece.front_read_of_spelled` — no spelling goes further than the piece read;
* `Lexeme.spelled`, `Lexeme.spells` — what is read is spelled so, and its kind is that of its
  spelling;
* `Text.Spelled.front` — spellings are read off bytes as they stand;
* `lex_longest` — the tokens of a byte string are longest matches.
-/

namespace JavaPrimer

/-! ### Spellings -/

namespace Text

/-- A number: digits, perhaps with a point and more digits, or a point and digits; then perhaps an
exponent, then perhaps a suffix. -/
def IsNumber (v : Text) : Prop :=
  ∃ n : Numeral, n.WellFormed ∧ (n.whole ≠ [] ∨ 2 ≤ n.fraction.length) ∧ n.text = v

/-- A word: a letter, an underscore or a dollar sign, then more of these and digits. -/
def IsWord (v : Text) : Prop :=
  ∃ g r, v = g :: r ∧ g.isWordStart = true ∧ ∀ x ∈ r, x.isWordPart = true

/-- An operator or a delimiter. -/
def IsOperator (v : Text) : Prop := ∃ k, (v, k) ∈ operators

/-- What a token is written as that is no quoted literal. -/
def Spelled (v : Text) : Prop := v.IsNumber ∨ v.IsWord ∨ v.IsOperator

end Text

namespace Numeral

/-! ### The parts of a number -/

/-- A part `a` of a number, with `u` behind it, where `r` is read: the same, or nothing is behind it
and what is read goes at least as far. -/
def Fits (a r u : Text) : Prop := a = r ∨ (u = [] ∧ a <+: r)

variable {a r u t : Text}

theorem Fits.cons {g : Glyph} (h : Fits a r u) : Fits (g :: a) (g :: r) u :=
  h.imp (congrArg (g :: ·)) fun h => ⟨h.1, (List.prefix_cons_inj g).2 h.2⟩

/-- Where a part is read as it is, what is behind it may be read too. -/
theorem Fits.append {s : Text} (h : Fits a r u) (hs : a = r → u <+: s) : a ++ u <+: r ++ s := by
  rcases h with rfl | ⟨rfl, h⟩
  · exact (List.prefix_append_right_inj a).2 (hs rfl)
  · rw [List.append_nil]
    exact h.trans (List.prefix_append r s)

theorem fits_digits {ds : Text} (hds : ∀ g ∈ ds, g.isDigit = true)
    (hu : ∀ g ∈ u.head?, g.isDigit = false) : Fits ds (Text.digits (ds ++ (u ++ t))) u := by
  have hrun : Text.digits (ds ++ (u ++ t)) = ds ++ Text.digits (u ++ t) :=
    List.takeWhile_append_of_pos hds
  rw [hrun]
  cases u with
  | nil => exact .inr ⟨rfl, List.prefix_append _ _⟩
  | cons g u =>
    have hg : g.isDigit = false := hu g rfl
    have hstop : Text.digits (g :: u ++ t) = [] := List.takeWhile_cons_of_neg (by simp [hg])
    rw [hstop, List.append_nil]
    exact .inl rfl

theorem fits_fraction {f : Text}
    (hf : f = [] ∨ ∃ ds, f = Glyph.scalar '.' :: ds ∧ ∀ g ∈ ds, g.isDigit = true)
    (hdigit : ∀ g ∈ u.head?, g.isDigit = false) (hpoint : ∀ g ∈ u.head?, g ≠ Glyph.scalar '.') :
    Fits f (readFraction (f ++ (u ++ t))) u := by
  rcases hf with rfl | ⟨ds, rfl, hds⟩
  · cases u with
    | nil => exact .inr ⟨rfl, List.nil_prefix⟩
    | cons g u => exact .inl (if_neg (hpoint g rfl)).symm
  · rw [List.cons_append, readFraction, if_pos rfl]
    exact (fits_digits hds hdigit).cons

theorem readSigned_of_head (h : ∀ g ∈ t.head?, g.isSign = false) : readSigned t = t.digits := by
  cases t with
  | nil => rfl
  | cons g t =>
    have hg : g.isSign = false := h g rfl
    exact if_neg (by simpa [Glyph.isSign] using hg)

theorem fits_signed {s ds : Text} (hs : s = [] ∨ ∃ c, s = [c] ∧ c.isSign = true)
    (hds : ∀ g ∈ ds, g.isDigit = true) (hdigit : ∀ g ∈ u.head?, g.isDigit = false)
    (hsign : ∀ g ∈ u.head?, g.isSign = false) :
    Fits (s ++ ds) (readSigned (s ++ ds ++ (u ++ t))) u := by
  rcases hs with rfl | ⟨c, rfl, hc⟩
  · rw [List.nil_append]
    by_cases hnone : ds ++ u = []
    · obtain ⟨rfl, rfl⟩ := List.append_eq_nil_iff.1 hnone
      exact .inr ⟨rfl, List.nil_prefix⟩
    · -- the first glyph is a digit or stands behind the exponent
      have hhead : ∀ g ∈ (ds ++ (u ++ t)).head?, g.isSign = false := by
        intro g hg
        cases ds with
        | cons d ds =>
          obtain rfl : d = g := Option.some.inj hg
          exact Glyph.not_isOneOf (hds d List.mem_cons_self) (by decide)
        | nil =>
          cases u with
          | cons x u => exact hsign g hg
          | nil => exact absurd rfl hnone
      rw [readSigned_of_head hhead]
      exact fits_digits hds hdigit
  · have hread : readSigned ([c] ++ ds ++ (u ++ t)) = c :: Text.digits (ds ++ (u ++ t)) :=
      if_pos hc
    rw [hread]
    exact (fits_digits hds hdigit).cons

theorem fits_exponent {x : Text}
    (hx : x = [] ∨ ∃ m s ds, x = m :: (s ++ ds) ∧ m.isMark = true
      ∧ (s = [] ∨ ∃ c, s = [c] ∧ c.isSign = true) ∧ ∀ g ∈ ds, g.isDigit = true)
    (hdigit : ∀ g ∈ u.head?, g.isDigit = false) (hmark : ∀ g ∈ u.head?, g.isMark = false)
    (hsign : ∀ g ∈ u.head?, g.isSign = false) : Fits x (readExponent (x ++ (u ++ t))) u := by
  rcases hx with rfl | ⟨m, s, ds, rfl, hm, hs, hds⟩
  · cases u with
    | nil => exact .inr ⟨rfl, List.nil_prefix⟩
    | cons g u =>
      have hg : g.isMark = false := hmark g rfl
      exact .inl (if_neg (by simpa [Glyph.isMark] using hg)).symm
  · have hread : readExponent (m :: (s ++ ds) ++ (u ++ t))
        = m :: readSigned (s ++ ds ++ (u ++ t)) := if_pos hm
    rw [hread]
    exact (fits_signed hs hds hdigit hsign).cons

theorem front_readSuffix {floating : Bool} {s : Text}
    (hs : s = [] ∨ ∃ c, s = [c] ∧ (c.isFloatSuffix = true
      ∨ floating = false ∧ c.isLongSuffix = true)) : s <+: readSuffix floating (s ++ t) := by
  rcases hs with rfl | ⟨c, rfl, hc⟩
  · exact List.nil_prefix
  · have hyes : (c.isFloatSuffix || (!floating && c.isLongSuffix)) = true := by
      rcases hc with h | ⟨rfl, h⟩
      · rw [h, Bool.true_or]
      · rw [h, Bool.not_false, Bool.true_and, Bool.or_true]
    have hread : readSuffix floating ([c] ++ t) = [c] := if_pos hyes
    simp only [hread, List.prefix_refl]

namespace WellFormed

variable {n : Numeral}

/-! What stands behind a part does not belong to it. -/

theorem suffix_head (hn : n.WellFormed) : ∀ g ∈ n.suffix.head?,
    g.isDigit = false ∧ g ≠ Glyph.scalar '.' ∧ g.isMark = false ∧ g.isSign = false := by
  intro g hg
  rcases hn.suffix with hs | ⟨c, hs, hc⟩
  · rw [hs] at hg
    cases hg
  · rw [hs] at hg
    obtain rfl : c = g := Option.some.inj hg
    exact suffix_cases (hc.imp id fun h => h.2.2)

theorem exponent_head (hn : n.WellFormed) : ∀ g ∈ (n.exponent ++ n.suffix).head?,
    g.isDigit = false ∧ g ≠ Glyph.scalar '.' := by
  intro g hg
  rcases hn.exponent with hx | ⟨m, s, ds, hx, hm, -⟩
  · rw [hx] at hg
    exact ⟨(hn.suffix_head g hg).1, (hn.suffix_head g hg).2.1⟩
  · rw [hx] at hg
    obtain rfl : m = g := Option.some.inj hg
    exact mark_cases hm

theorem fraction_head (hn : n.WellFormed) : ∀ g ∈ (n.fraction ++ (n.exponent ++ n.suffix)).head?,
    g.isDigit = false := by
  intro g hg
  rcases hn.fraction with hf | ⟨ds, hf, -⟩
  · rw [hf] at hg
    exact (hn.exponent_head g hg).1
  · rw [hf] at hg
    obtain rfl : Glyph.scalar '.' = g := Option.some.inj hg
    rfl

/-- A well-formed numeral at the front of a text goes no further than the one that is read. -/
theorem front_read (hn : n.WellFormed) (t : Text) : n.text <+: (read (n.text ++ t)).text := by
  have hwhole := fits_digits (t := t) hn.whole hn.fraction_head
  have hfraction := fits_fraction (t := t) hn.fraction (fun g hg => (hn.exponent_head g hg).1)
    fun g hg => (hn.exponent_head g hg).2
  have hexponent := fits_exponent (t := t) hn.exponent (fun g hg => (hn.suffix_head g hg).1)
    (fun g hg => (hn.suffix_head g hg).2.2.1) fun g hg => (hn.suffix_head g hg).2.2.2
  simp only [List.append_assoc] at hwhole hfraction
  simp only [read, text, List.append_assoc]
  refine hwhole.append fun hw => ?_
  rw [← hw, List.drop_left]
  refine hfraction.append fun hf => ?_
  rw [← hf, List.drop_left]
  refine hexponent.append fun hx => ?_
  rw [← hx, List.drop_left]
  apply front_readSuffix
  refine hn.suffix.imp id fun h => ?_
  obtain ⟨c, hs, hc⟩ := h
  refine ⟨c, hs, hc.imp id fun h => ⟨?_, h.2.2⟩⟩
  rw [h.1, h.2.1]
  rfl

end WellFormed

/-- No front of a text that is a number goes further than the numeral that is read. -/
theorem front_read_of_number {v t : Text} (hv : v.IsNumber) (h : v <+: t) :
    v <+: (read t).text := by
  obtain ⟨n, hn, -, rfl⟩ := hv
  obtain ⟨r, rfl⟩ := h
  exact hn.front_read r

end Numeral

/-! ### Pieces against spellings -/

/-- A number starts with a digit, or with a point and a digit. -/
theorem Text.IsNumber.starts {v : Text} (hv : v.IsNumber) : Numeral.starts v = true := by
  obtain ⟨n, hn, hfirst, rfl⟩ := hv
  rcases hfirst with hwhole | hfraction
  · obtain ⟨g, w, hw⟩ := List.exists_cons_of_ne_nil hwhole
    have hg : g.isDigit = true := hn.whole g (by rw [hw]; exact List.mem_cons_self)
    simp only [Numeral.text, hw, List.cons_append, Numeral.starts, hg, Bool.true_or]
  · rcases hn.fraction with hf | ⟨ds, hf, hds⟩
    · rw [hf] at hfraction
      exact absurd hfraction (by decide)
    · cases hw : n.whole with
      | cons g w =>
        have hg : g.isDigit = true := hn.whole g (by rw [hw]; exact List.mem_cons_self)
        simp only [Numeral.text, hw, List.cons_append, Numeral.starts, hg, Bool.true_or]
      | nil =>
        cases ds with
        | nil =>
          rw [hf] at hfraction
          exact absurd hfraction (by decide)
        | cons d ds =>
          have hd : d.isDigit = true := hds d List.mem_cons_self
          simp [Numeral.text, hw, hf, Numeral.starts, hd]

theorem Text.front_takeWhile {p : Glyph → Bool} {v t : Text} (hv : ∀ g ∈ v, p g = true)
    (h : v <+: t) : v <+: t.takeWhile p := by
  obtain ⟨r, rfl⟩ := h
  rw [List.takeWhile_append_of_pos hv]
  exact List.prefix_append _ _

theorem operators_sorted : operators.Pairwise fun x y => y.1.length ≤ x.1.length := by decide

/-- Of the operators at the front of a text the longest is found first. -/
theorem length_le_of_find {v t : Text} {entry : Text × Kind} (hv : v.IsOperator) (h : v <+: t)
    (hfind : operators.find? (·.1.isPrefixOf t) = some entry) : v.length ≤ entry.1.length := by
  obtain ⟨k, hk⟩ := hv
  obtain ⟨-, before, behind, hsplit, hnot⟩ := List.find?_eq_some_iff_append.1 hfind
  rw [hsplit] at hk
  rcases List.mem_append.1 hk with hk | hk
  · have hno := hnot _ hk
    rw [List.isPrefixOf_iff_prefix.2 h] at hno
    cases hno
  · have hsorted := operators_sorted
    rw [hsplit] at hsorted
    rcases List.mem_cons.1 hk with rfl | hk
    · exact Nat.le_refl _
    · exact (List.pairwise_cons.1 (List.pairwise_append.1 hsorted).2.1).1 _ hk

namespace Piece

variable {g : Glyph} {rest v : Text}

theorem front_read_of_number (hv : v.IsNumber) (h : v <+: g :: rest) :
    v <+: (read g rest).text := by
  have hstart : Numeral.starts (g :: rest) = true := by
    obtain ⟨r, hr⟩ := h
    rw [← hr]
    exact Numeral.starts_append hv.starts r
  rw [read_numeral hstart]
  exact Numeral.front_read_of_number hv h

theorem front_read_of_word (hv : v.IsWord) (h : v <+: g :: rest) : v <+: (read g rest).text := by
  obtain ⟨x, r, rfl, hx, hr⟩ := hv
  obtain ⟨rfl, -⟩ := List.cons_prefix_cons.1 h
  rw [read_word hx]
  refine Text.front_takeWhile ?_ h
  refine List.forall_mem_cons.2 ⟨?_, hr⟩
  rw [Glyph.isWordPart, hx, Bool.true_or]

theorem operators_point : ∀ entry ∈ operators, entry.1.head? = some (Glyph.scalar '.') →
    entry.1 = [Glyph.scalar '.'] := by decide

theorem front_read_of_operator (htoken : (read g rest).isToken = true) (hv : v.IsOperator)
    (h : v <+: g :: rest) : v <+: (read g rest).text := by
  obtain ⟨k, hk⟩ := hv
  obtain ⟨x, r, rfl⟩ := List.exists_cons_of_ne_nil (operators_ne_nil _ hk)
  obtain ⟨rfl, -⟩ := List.cons_prefix_cons.1 h
  have hhead := operators_head _ hk x rfl
  refine List.prefix_of_prefix_length_le h (text_front x rest) ?_
  by_cases hpoint : x = Glyph.scalar '.' ∧ rest.head?.any Glyph.isDigit = true
  · -- a point in front of a digit is the start of a number, but no other operator has one
    have hone : x :: r = [Glyph.scalar '.'] := operators_point _ hk (by rw [hpoint.1]; rfl)
    rw [hone]
    exact List.length_pos_iff.2 (text_ne_nil x rest)
  · have hread : read x rest = readOperator x rest := by
      refine read_operator hhead ?_ ?_
      · rintro rfl y hy
        cases hy' : y.isOneOf ['/', '*'] with
        | false => rfl
        | true =>
          -- a comment makes no token
          obtain ⟨more, rfl⟩ := List.head?_eq_some_iff.1 hy
          rcases Glyph.eq_or_eq_of_isOneOf hy' with rfl | rfl <;> cases htoken
      · rintro rfl y hy
        cases hy' : y.isDigit with
        | false => rfl
        | true => exact absurd ⟨rfl, by rw [Option.mem_def.1 hy]; exact hy'⟩ hpoint
    rw [hread] at htoken ⊢
    unfold readOperator at htoken ⊢
    split
    · next hfind => exact length_le_of_find ⟨k, hk⟩ h hfind
    · next hfind =>
      rw [hfind] at htoken
      cases htoken

/-- No front of a text that is spelled like a number, a word or an operator goes further than the
token that is read. -/
theorem front_read_of_spelled (htoken : (read g rest).isToken = true) (hv : v.Spelled)
    (h : v <+: g :: rest) : v <+: (read g rest).text := by
  rcases hv with hv | hv | hv
  · exact front_read_of_number hv h
  · exact front_read_of_word hv h
  · exact front_read_of_operator htoken hv h

end Piece

/-! ### Kinds of spellings -/

theorem Text.isNumber_of_starts {n : Numeral} (hn : n.WellFormed)
    (hstart : Numeral.starts n.text = true) : n.text.IsNumber := by
  refine ⟨n, hn, ?_, rfl⟩
  by_cases hwhole : n.whole = []
  · right
    simp only [Numeral.text, hwhole, List.nil_append, List.append_assoc] at hstart
    rcases hn.fraction with hf | ⟨ds, hf, -⟩
    · -- an exponent or a suffix comes first
      rw [hf, List.nil_append] at hstart
      cases hrest : n.exponent ++ n.suffix with
      | nil => rw [hrest] at hstart; cases hstart
      | cons g rest =>
        obtain ⟨hdigit, hpoint⟩ := hn.exponent_head g (by rw [hrest]; rfl)
        rw [hrest, Numeral.starts, hdigit, beq_false_of_ne hpoint] at hstart
        cases hstart
    · cases ds with
      | cons d ds =>
        rw [hf]
        exact Nat.le_add_left 2 ds.length
      | nil =>
        -- a point without digits, and an exponent or a suffix comes next
        rw [hf, List.singleton_append, Numeral.starts, Bool.or_eq_true] at hstart
        have hnext := (Bool.and_eq_true_iff.1 (hstart.resolve_left (by decide))).2
        obtain ⟨g, hg, hdigit⟩ := (Option.any_eq_true _ _).1 hnext
        rw [(hn.exponent_head g hg).1] at hdigit
        cases hdigit
  · exact .inl hwhole

/-- The glyphs that make a number a floating one. -/
def Glyph.isFloating (g : Glyph) : Bool := g.isOneOf ['.', 'e', 'E', 'f', 'F', 'd', 'D']

theorem Numeral.WellFormed.isFloat_eq {n : Numeral} (hn : n.WellFormed) :
    n.isFloat = n.text.any Glyph.isFloating := by
  have hwhole : n.whole.any Glyph.isFloating = false := by
    rw [List.any_eq_false]
    intro g hg hfloating
    rw [Glyph.isFloating, Glyph.not_isOneOf (hn.whole g hg) (by decide)] at hfloating
    cases hfloating
  have hfraction : n.fraction.any Glyph.isFloating = !n.fraction.isEmpty := by
    rcases hn.fraction with hf | ⟨ds, hf, -⟩ <;> rw [hf] <;> rfl
  have hexponent : n.exponent.any Glyph.isFloating = !n.exponent.isEmpty := by
    rcases hn.exponent with hx | ⟨m, s, ds, hx, hm, -⟩
    · rw [hx]
      rfl
    · have hall : ∀ c ∈ ['e', 'E'].map Glyph.scalar, c.isFloating = true := by decide
      rw [hx, List.any_cons, hall m (Glyph.mem_of_isOneOf hm)]
      rfl
  have hsuffix : n.suffix.any Glyph.isFloating = n.suffix.any Glyph.isFloatSuffix := by
    rcases hn.suffix with hs | ⟨c, hs, hc⟩
    · rw [hs]
      rfl
    · have hall : ∀ c ∈ ['f', 'F', 'd', 'D'].map Glyph.scalar ++ ['l', 'L'].map Glyph.scalar,
          c.isFloating = c.isFloatSuffix := by decide
      have hmem : c ∈ ['f', 'F', 'd', 'D'].map Glyph.scalar ++ ['l', 'L'].map Glyph.scalar := by
        rcases hc with hc | ⟨-, -, hc⟩
        · exact List.mem_append_left _ (Glyph.mem_of_isOneOf hc)
        · exact List.mem_append_right _ (Glyph.mem_of_isOneOf hc)
      rw [hs, List.any_cons, List.any_cons, hall c hmem]
      rfl
  rw [Numeral.text, List.any_append, List.any_append, List.any_append, hwhole, hfraction, hexponent,
    hsuffix, Bool.false_or]
  rfl

/-- The kind of a token is that of its spelling: a number is floating if it has a point, an exponent
or a floating suffix, and a word is reserved or an identifier. -/
structure Kind.Spells (k : Kind) (v : Text) : Prop where
  number : v.IsNumber → k = if v.any Glyph.isFloating then .floatLit else .intLit
  word : v.IsWord → (v, k) ∈ keywords ∨ k = .ident ∧ ∀ k', (v, k') ∉ keywords
  operator : v.IsOperator → (v, k) ∈ operators

theorem Lexeme.spells {k : Kind} {v : Text} (h : Lexeme k v) : k.Spells v := by
  constructor
  case number =>
    intro hv
    have hstart := hv.starts
    obtain ⟨n, hn, -, rfl⟩ := hv
    rw [h.kind_eq (.numeral hn hstart), Numeral.kind, hn.isFloat_eq]
  case word =>
    rintro ⟨g, r, rfl, hg, hr⟩
    rw [h.kind_eq (.word hg hr)]
    unfold keyword?
    cases hfind : keywords.find? (·.1 == g :: r) with
    | none =>
      refine .inr ⟨rfl, fun k' hk' => ?_⟩
      exact List.find?_eq_none.1 hfind _ hk' (beq_self_eq_true _)
    | some entry =>
      have hv : entry.1 = g :: r := by simpa using List.find?_some hfind
      left
      rw [← hv]
      exact List.mem_of_find?_eq_some hfind
  case operator =>
    rintro ⟨k', hk'⟩
    rwa [h.kind_eq (.operator hk')]

theorem Piece.eq_lexeme_of_token? {x : Piece} {p : Position} {t : Token} (h : x.token? p = some t)
    (hstring : t.kind ≠ .stringLit) (hchar : t.kind ≠ .charLit) : x = .lexeme t.kind t.value := by
  cases x <;> simp only [token?, Option.some.injEq, reduceCtorEq] at h
  case lexeme k v => rw [← h]
  case quoted q =>
    rw [← h] at hstring hchar
    unfold Quoted.kind at hstring hchar
    split at hstring
    · next hq => exact absurd (if_pos hq) hchar
    · exact absurd rfl hstring

/-- Lexemes that are no quoted literals are spelled like numbers, words or operators. -/
theorem Lexeme.spelled {k : Kind} {v : Text} (h : Lexeme k v) (hstring : k ≠ .stringLit)
    (hchar : k ≠ .charLit) : v.Spelled := by
  cases h with
  | @word g r hg hr => exact .inr (.inl ⟨g, r, rfl, hg, hr⟩)
  | numeral hn hstart => exact .inl (Text.isNumber_of_starts hn hstart)
  | @quoted quote t hquote hok =>
    unfold Quoted.kind at hstring hchar
    split at hstring
    · next hq => exact absurd (if_pos hq) hchar
    · exact absurd rfl hstring
  | operator hv => exact .inr (.inr ⟨_, hv⟩)

/-! ### Spellings as bytes -/

theorem Glyph.isAscii_of_isDigit {g : Glyph} (hg : g.isDigit = true) : g.isAscii = true := by
  cases g with
  | stray b => cases hg
  | scalar c =>
    have hc : 48 ≤ c.val.toNat ∧ c.val.toNat ≤ 57 := by
      simpa [isDigit, satisfies, Char.isDigit, UInt32.le_iff_toNat_le] using hg
    have hlt : c.val.toNat < 128 := by omega
    exact decide_eq_true hlt

theorem Glyph.isAscii_of_isWordStart {g : Glyph} (hg : g.isWordStart = true) :
    g.isAscii = true := by
  cases g with
  | stray b => cases hg
  | scalar c =>
    simp only [isWordStart, satisfies, Bool.or_eq_true, decide_eq_true_eq] at hg
    rcases hg with (hg | rfl) | rfl
    · have hletter := toNat_of_isAlpha hg
      have hlt : c.val.toNat < 128 := by omega
      exact decide_eq_true hlt
    · rfl
    · rfl

theorem Numeral.WellFormed.isAscii {n : Numeral} (hn : n.WellFormed) :
    ∀ g ∈ n.text, g.isAscii = true := by
  have hone : ∀ c ∈ ['.', 'e', 'E', '+', '-', 'f', 'F', 'd', 'D', 'l', 'L'].map Glyph.scalar,
      c.isAscii = true := by decide
  have hmark : ∀ {c : Glyph}, c.isMark = true → c.isAscii = true := fun h =>
    hone _ (List.map_subset _ (by decide) (Glyph.mem_of_isOneOf h))
  intro g hg
  rw [text, List.mem_append, List.mem_append, List.mem_append] at hg
  rcases hg with ((hg | hg) | hg) | hg
  · exact Glyph.isAscii_of_isDigit (hn.whole g hg)
  · rcases hn.fraction with hf | ⟨ds, hf, hds⟩
    · rw [hf] at hg
      cases hg
    · rw [hf] at hg
      rcases List.mem_cons.1 hg with rfl | hg
      · rfl
      · exact Glyph.isAscii_of_isDigit (hds g hg)
  · rcases hn.exponent with hx | ⟨m, s, ds, hx, hm, hs, hds⟩
    · rw [hx] at hg
      cases hg
    · rw [hx] at hg
      rcases List.mem_cons.1 hg with rfl | hg
      · exact hmark hm
      rcases List.mem_append.1 hg with hg | hg
      · rcases hs with rfl | ⟨c, rfl, hc⟩
        · cases hg
        · obtain rfl := List.mem_singleton.1 hg
          exact hone _ (List.map_subset _ (by decide) (Glyph.mem_of_isOneOf hc))
      · exact Glyph.isAscii_of_isDigit (hds g hg)
  · rcases hn.suffix with hs | ⟨c, hs, hc⟩
    · rw [hs] at hg
      cases hg
    · rw [hs] at hg
      obtain rfl := List.mem_singleton.1 hg
      rcases hc with hc | ⟨-, -, hc⟩
      · exact hone _ (List.map_subset _ (by decide) (Glyph.mem_of_isOneOf hc))
      · exact hone _ (List.map_subset _ (by decide) (Glyph.mem_of_isOneOf hc))

theorem operators_isAscii : ∀ entry ∈ operators, ∀ g ∈ entry.1, g.isAscii = true := by decide

namespace Text

theorem Spelled.isAscii {v : Text} (hv : v.Spelled) : ∀ g ∈ v, g.isAscii = true := by
  rcases hv with ⟨n, hn, -, rfl⟩ | ⟨g, r, rfl, hg, hr⟩ | ⟨k, hk⟩
  · exact hn.isAscii
  · refine List.forall_mem_cons.2 ⟨Glyph.isAscii_of_isWordStart hg, fun x hx => ?_⟩
    rcases Bool.or_eq_true_iff.1 (hr x hx) with hx | hx
    · exact Glyph.isAscii_of_isWordStart hx
    · exact Glyph.isAscii_of_isDigit hx
  · exact operators_isAscii _ hk

/-- A spelling at the front of some bytes is at the front of what they are decoded to. -/
theorem Spelled.front {v t : Text} (hv : v.Spelled) (ht : t.Decoded)
    (h : v.toBytes <+: t.toBytes) : v <+: t := by
  obtain ⟨rest, hrest⟩ := h
  have hsplit := ofBytes_ascii hv.isAscii rest
  rw [hrest, ht] at hsplit
  rw [hsplit]
  exact List.prefix_append _ _

/-- A text is the longest front of a byte string among the texts of a class. -/
structure LongestFront (bytes : List UInt8) (P : Text → Prop) (v : Text) : Prop where
  member : P v
  front : v.toBytes <+: bytes
  longest : ∀ u, P u → u.toBytes <+: bytes → u.toBytes.length ≤ v.toBytes.length

end Text

/-! ### The tokens of a byte string -/

/-- Every token that is no quoted literal is the longest front of the bytes from its place on that
is spelled like a number, a word or an operator, and its kind is that of its spelling. -/
theorem lex_longest (bytes : List UInt8) {t : Token} (ht : t ∈ (lex (Text.ofBytes bytes)).tokens)
    (hkind : t.kind ∉ [.stringLit, .charLit, .eof]) :
    ∃ lead rest, bytes = lead ++ rest ∧ t.Located bytes lead
      ∧ t.value.LongestFront rest Text.Spelled ∧ t.kind.Spells t.value := by
  simp only [List.mem_cons, List.not_mem_nil, or_false, not_or] at hkind
  obtain ⟨hstring, hchar, heof⟩ := hkind
  obtain ⟨front, g, rest, hsource, -, htoken⟩ := exists_read_of_mem ht heof
  have hdecoded := Text.decoded_ofBytes bytes
  rw [hsource] at hdecoded
  have hbytes := congrArg Text.toBytes hsource
  rw [Text.toBytes_ofBytes, Text.toBytes_append] at hbytes
  have hvalue := Piece.value_of_token? htoken
  have hread := Piece.eq_lexeme_of_token? htoken hstring hchar
  have hlexeme : Lexeme t.kind t.value :=
    lexeme_of_read (by rw [hread]; rfl) (by rw [hread]; exact fun _ => rfl)
  have hspelled := hlexeme.spelled hstring hchar
  refine ⟨front.toBytes, Text.toBytes (g :: rest), hbytes, located_of_read hsource htoken,
    ⟨hspelled, ?_, fun u hu hfront => ?_⟩, hlexeme.spells⟩
  · rw [hvalue]
    obtain ⟨after, hafter⟩ := Piece.text_front g rest
    rw [← hafter, Text.toBytes_append]
    exact List.prefix_append _ _
  · have htoken' : (Piece.read g rest).isToken = true := by rw [hread]; rfl
    obtain ⟨more, hmore⟩ :=
      Piece.front_read_of_spelled htoken' hu (hu.front hdecoded.back hfront)
    rw [hvalue, ← hmore, Text.toBytes_append]
    exact (List.prefix_append _ _).length_le

/-- In the source ` 1.5e+x` the number goes up to the sign of its exponent, and not less far. -/
theorem lex_longest_exponent :
    let bytes : List UInt8 := [32, 49, 46, 53, 101, 43, 120]
    let t : Token := ⟨.floatLit, "1.5e+", ⟨⟨1, 2⟩, ⟨1, 7⟩⟩, false⟩
    t ∈ (lex (Text.ofBytes bytes)).tokens ∧ t.kind ∉ [.stringLit, .charLit, .eof]
      ∧ ∃ lead rest, bytes = lead ++ rest ∧ t.Located bytes lead
        ∧ t.value.LongestFront rest Text.Spelled ∧ t.kind.Spells t.value :=
  ⟨by decide +kernel, by decide, lex_longest _ (by decide +kernel) (by decide)⟩

end JavaPrimer
