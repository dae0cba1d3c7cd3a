import JavaPrimer.Proofs.Lexeme

/-!
# Carriage returns before line feeds

A text gets a carriage return in front of every line feed. What the rules of the language read from
it up to the end of a line stays the same, since a carriage return belongs to nothing that a line
feed does not belong to either. There is one exception: a backslash takes a carriage return as what
it escapes, but no line feed.

* `preceded` — a list with a mark in front of every line feed;
* `ofBytes_crlfBytes` — decoding commutes with it, since no character goes on behind a line feed;
* `Numeral.read_crlf`, `readEscape_crlf`, `Piece.readWord_crlf`, `Piece.readOperator_crlf` — rules;
* `ReadAgain`, `readUnits_crlf` — units are read again, or the last of them escapes the return;
* `Piece.read_crlf`, `Piece.readBlock_crlf` — pieces.
-/

namespace JavaPrimer

/-! ### A mark in front of every line feed -/

section Preceded

variable {α : Type} [DecidableEq α]

/-- A list with `cr` put in front of every `lf`. -/
def preceded (cr lf : α) (xs : List α) : List α :=
  xs.flatMap fun x => if x = lf then [cr, lf] else [x]

variable {cr lf x : α} {xs d : List α}

@[simp] theorem preceded_nil : preceded cr lf [] = [] := rfl

theorem preceded_cons_self : preceded cr lf (lf :: xs) = cr :: lf :: preceded cr lf xs := by
  rw [preceded, List.flatMap_cons, if_pos rfl]
  rfl

theorem preceded_cons_of_ne (h : x ≠ lf) : preceded cr lf (x :: xs) = x :: preceded cr lf xs := by
  rw [preceded, List.flatMap_cons, if_neg h]
  rfl

theorem preceded_append (xs ys : List α) :
    preceded cr lf (xs ++ ys) = preceded cr lf xs ++ preceded cr lf ys := List.flatMap_append

theorem preceded_of_not_mem (h : lf ∉ xs) : preceded cr lf xs = xs := by
  induction xs with
  | nil => rfl
  | cons x xs ih =>
    rw [List.mem_cons, not_or] at h
    rw [preceded_cons_of_ne (Ne.symm h.1), ih h.2]

/-- Nothing changes in front of the first `lf`. -/
theorem take_preceded (cr : α) {n : Nat} (h : lf ∉ xs.take n) :
    (preceded cr lf xs).take n = xs.take n
      ∧ (preceded cr lf xs).drop n = preceded cr lf (xs.drop n) := by
  induction xs generalizing n with
  | nil => simp
  | cons x xs ih =>
    cases n with
    | zero => exact ⟨rfl, rfl⟩
    | succ n =>
      rw [List.take_succ_cons, List.mem_cons, not_or] at h
      obtain ⟨htake, hdrop⟩ := ih h.2
      rw [preceded_cons_of_ne (Ne.symm h.1)]
      exact ⟨congrArg (x :: ·) htake, hdrop⟩

/-- The first `lf` shows by the `cr` in front of it. -/
theorem not_mem_take_of_preceded {n : Nat} (h : cr ∉ (preceded cr lf xs).take n) :
    lf ∉ xs.take n := by
  induction xs generalizing n with
  | nil => simp
  | cons x xs ih =>
    cases n with
    | zero => simp
    | succ n =>
      by_cases hx : x = lf
      · rw [hx, preceded_cons_self] at h
        exact absurd List.mem_cons_self h
      · rw [preceded_cons_of_ne hx, List.take_succ_cons, List.mem_cons, not_or] at h
        rw [List.take_succ_cons, List.mem_cons, not_or]
        exact ⟨Ne.symm hx, ih h.2⟩

/-- What stays a front holds no `lf`. -/
theorem preceded_front (hne : cr ≠ lf) {r : List α} (h : d <+: preceded cr lf (d ++ r)) :
    preceded cr lf (d ++ r) = d ++ preceded cr lf r := by
  induction d with
  | nil => rfl
  | cons x d ih =>
    by_cases hx : x = lf
    · rw [hx, List.cons_append, preceded_cons_self, List.cons_prefix_cons] at h
      exact absurd h.1.symm hne
    · rw [List.cons_append, preceded_cons_of_ne hx] at h ⊢
      exact congrArg (x :: ·) (ih (List.cons_prefix_cons.1 h).2)

theorem drop_preceded (hne : cr ≠ lf) (h : d <+: xs) (h' : d <+: preceded cr lf xs) :
    (preceded cr lf xs).drop d.length = preceded cr lf (xs.drop d.length) := by
  obtain ⟨r, rfl⟩ := h
  rw [preceded_front hne h', List.drop_left, List.drop_left]

theorem takeWhile_preceded {p : α → Bool} (hcr : p cr = false) (hlf : p lf = false)
    (xs : List α) : (preceded cr lf xs).takeWhile p = xs.takeWhile p := by
  induction xs with
  | nil => rfl
  | cons x xs ih =>
    by_cases hx : x = lf
    · rw [hx, preceded_cons_self, List.takeWhile_cons_of_neg (by simp [hcr]),
        List.takeWhile_cons_of_neg (by simp [hlf])]
    · rw [preceded_cons_of_ne hx, List.takeWhile_cons, List.takeWhile_cons, ih]

theorem takeWhile_take_preceded {p : α → Bool} (hcr : p cr = false) (hlf : p lf = false)
    (n : Nat) (xs : List α) :
    ((preceded cr lf xs).take n).takeWhile p = (xs.take n).takeWhile p := by
  induction xs generalizing n with
  | nil => rfl
  | cons x xs ih =>
    cases n with
    | zero => rfl
    | succ n =>
      by_cases hx : x = lf
      · rw [hx, preceded_cons_self, List.take_succ_cons, List.take_succ_cons,
          List.takeWhile_cons_of_neg (by simp [hcr]), List.takeWhile_cons_of_neg (by simp [hlf])]
      · rw [preceded_cons_of_ne hx, List.take_succ_cons, List.take_succ_cons, List.takeWhile_cons,
          List.takeWhile_cons, ih]

theorem isPrefixOf_preceded {v : List α} (hcr : cr ∉ v) (hlf : lf ∉ v) (xs : List α) :
    v.isPrefixOf (preceded cr lf xs) = v.isPrefixOf xs := by
  induction v generalizing xs with
  | nil => rfl
  | cons y v ih =>
    rw [List.mem_cons, not_or] at hcr hlf
    cases xs with
    | nil => rfl
    | cons x xs =>
      by_cases hx : x = lf
      · have hy : (y == cr) = false ∧ (y == lf) = false :=
          ⟨beq_eq_false_iff_ne.2 (Ne.symm hcr.1), beq_eq_false_iff_ne.2 (Ne.symm hlf.1)⟩
        rw [hx, preceded_cons_self, List.isPrefixOf, List.isPrefixOf, hy.1, hy.2]
        rfl
      · rw [preceded_cons_of_ne hx, List.isPrefixOf, List.isPrefixOf, ih hcr.2 hlf.2]

end Preceded

/-! ### Bytes -/

/-- A byte string with a carriage return in front of every line feed. -/
def crlfBytes (bytes : List UInt8) : List UInt8 := preceded 13 10 bytes

/-- A text with a carriage return in front of every line feed. -/
def Text.crlf (t : Text) : Text := preceded (Glyph.scalar '\r') (Glyph.scalar '\n') t

/-- The bytes of a character behind its first are no ASCII. -/
theorem tail_utf8EncodeChar (c : Char) : ∀ b ∈ (String.utf8EncodeChar c).tail, 128 ≤ b.toNat := by
  have hbyte : ∀ n : Nat, 128 ≤ (UInt8.ofNat (n % 64 + 128)).toNat := by
    intro n
    rw [UInt8.toNat_ofNat']
    omega
  unfold String.utf8EncodeChar
  dsimp only
  split
  · exact List.forall_mem_nil _
  split
  · exact List.forall_mem_singleton.2 (hbyte _)
  split
  · exact List.forall_mem_cons.2 ⟨hbyte _, List.forall_mem_singleton.2 (hbyte _)⟩
  · refine List.forall_mem_cons.2 ⟨hbyte _, ?_⟩
    exact List.forall_mem_cons.2 ⟨hbyte _, List.forall_mem_singleton.2 (hbyte _)⟩

theorem ofBytes_cons (b : UInt8) (rest : List UInt8) :
    Text.ofBytes (b :: rest) = (Glyph.read b rest).1 :: Text.ofBytes (Glyph.read b rest).2 := by
  rw [Text.ofBytes]

/-- No line feed can stand behind the first byte of a character. -/
theorem read_crlfBytes (b : UInt8) (rest : List UInt8) :
    Glyph.read b (crlfBytes rest) = ((Glyph.read b rest).1, crlfBytes (Glyph.read b rest).2) := by
  have hascii : ∀ (c : Char) (tail : List UInt8), String.utf8EncodeChar c = b :: tail →
      ∀ x : UInt8, x.toNat < 128 → x ∉ tail := by
    intro c tail henc x hx hmem
    have hle := tail_utf8EncodeChar c x (by rw [henc]; exact hmem)
    omega
  unfold Glyph.read
  dsimp only
  by_cases h : String.utf8EncodeChar (Glyph.candidate b (rest.take (Glyph.tailLength b)))
      = b :: rest.take (Glyph.tailLength b)
  · obtain ⟨htake, hdrop⟩ := take_preceded 13 (hascii _ _ h 10 (by decide))
    rw [crlfBytes, htake, if_pos h, if_pos h, hdrop]
    rfl
  · have h' : ¬ String.utf8EncodeChar
        (Glyph.candidate b ((crlfBytes rest).take (Glyph.tailLength b)))
        = b :: (crlfBytes rest).take (Glyph.tailLength b) := by
      intro henc
      have hlf := not_mem_take_of_preceded (hascii _ _ henc 13 (by decide))
      rw [crlfBytes, (take_preceded 13 hlf).1] at henc
      exact h henc
    rw [if_neg h, if_neg h']

/-- Decoding does not mind the line endings. -/
theorem ofBytes_crlfBytes (bytes : List UInt8) :
    Text.ofBytes (crlfBytes bytes) = (Text.ofBytes bytes).crlf := by
  fun_induction Text.ofBytes bytes with
  | case1 => simp [crlfBytes, Text.crlf, Text.ofBytes]
  | case2 b rest ih =>
    by_cases hb : b = 10
    · have hlf : ∀ rest, Glyph.read 10 rest = (Glyph.scalar '\n', rest) := fun _ => rfl
      have hcr : ∀ rest, Glyph.read 13 rest = (Glyph.scalar '\r', rest) := fun _ => rfl
      rw [hb, hlf] at ih ⊢
      rw [crlfBytes, preceded_cons_self, ofBytes_cons, hcr, ofBytes_cons, hlf, Text.crlf,
        preceded_cons_self]
      exact congrArg (Glyph.scalar '\r' :: Glyph.scalar '\n' :: ·) ih
    · have hne : (Glyph.read b rest).1 ≠ Glyph.scalar '\n' := by
        intro hlf
        have hbytes := Glyph.bytes_read b rest
        rw [hlf] at hbytes
        exact hb (List.cons.inj hbytes).1.symm
      rw [crlfBytes, preceded_cons_of_ne hb, ofBytes_cons, Text.crlf, preceded_cons_of_ne hne]
      show (Glyph.read b (crlfBytes rest)).1 :: Text.ofBytes (Glyph.read b (crlfBytes rest)).2 = _
      rw [read_crlfBytes]
      exact congrArg ((Glyph.read b rest).1 :: ·) ih

/-! ### Reading pieces -/

namespace Text

/-- The line feed. -/
abbrev lineFeed : Glyph := Glyph.scalar '\n'

/-- The carriage return. -/
abbrev carriageReturn : Glyph := Glyph.scalar '\r'

theorem crlf_nil : crlf [] = [] := rfl

theorem crlf_cons_lineFeed (t : Text) :
    crlf (lineFeed :: t) = carriageReturn :: lineFeed :: t.crlf := preceded_cons_self

theorem crlf_cons {g : Glyph} (h : g ≠ lineFeed) (t : Text) : crlf (g :: t) = g :: t.crlf :=
  preceded_cons_of_ne h

theorem drop_crlf {d t : Text} (h : d <+: t) (h' : d <+: t.crlf) :
    t.crlf.drop d.length = crlf (t.drop d.length) := drop_preceded (by decide) h h'

theorem crlf_append (s t : Text) : crlf (s ++ t) = s.crlf ++ t.crlf := preceded_append s t

theorem digits_crlf (t : Text) : t.crlf.digits = t.digits := takeWhile_preceded rfl rfl t

/-- A text and the same with carriage returns differ at once where a line feed comes first. -/
theorem crlf_cases {motive : Text → Text → Prop} (nil : motive [] [])
    (feed : ∀ t, motive (lineFeed :: t) (carriageReturn :: lineFeed :: crlf t))
    (other : ∀ g t, g ≠ lineFeed → motive (g :: t) (g :: crlf t)) (t : Text) :
    motive t t.crlf := by
  cases t with
  | nil => exact nil
  | cons g t =>
    by_cases hg : g = lineFeed
    · rw [hg, crlf_cons_lineFeed]
      exact feed t
    · rw [crlf_cons hg]
      exact other g t hg

theorem any_head?_crlf {p : Glyph → Bool} (hcr : p carriageReturn = false)
    (hlf : p lineFeed = false) (t : Text) : t.crlf.head?.any p = t.head?.any p := by
  cases t using crlf_cases with
  | nil => rfl
  | feed t => exact hcr.trans hlf.symm
  | other g t hg => rfl

theorem head?_crlf_eq_iff {g : Glyph} (hcr : g ≠ carriageReturn) (hlf : g ≠ lineFeed) (t : Text) :
    t.crlf.head? = some g ↔ t.head? = some g := by
  cases t using crlf_cases with
  | nil => exact Iff.rfl
  | feed t =>
    rw [List.head?_cons, List.head?_cons, Option.some.injEq, Option.some.injEq]
    exact iff_of_false hcr.symm hlf.symm
  | other x t hx => exact Iff.rfl

/-- A carriage return before a line feed leaves no trace in the places behind. -/
theorem advance_crlf (p : Position) (t : Text) : p.advance t.crlf = p.advance t := by
  induction t generalizing p with
  | nil => rfl
  | cons g t ih =>
    by_cases hg : g = lineFeed
    · rw [hg, crlf_cons_lineFeed]
      exact ih _
    · rw [crlf_cons hg]
      exact ih (p.after g)

end Text

open Text

namespace Numeral

theorem readFraction_crlf (t : Text) : readFraction t.crlf = readFraction t := by
  cases t using crlf_cases with
  | nil => rfl
  | feed t => rfl
  | other g t hg => rw [readFraction, readFraction, digits_crlf]

theorem readSigned_crlf (t : Text) : readSigned t.crlf = readSigned t := by
  cases t using crlf_cases with
  | nil => rfl
  | feed t => rfl
  | other g t hg =>
    have hdigits := digits_crlf (g :: t)
    rw [crlf_cons hg] at hdigits
    rw [readSigned, readSigned, digits_crlf, hdigits]

theorem readExponent_crlf (t : Text) : readExponent t.crlf = readExponent t := by
  cases t using crlf_cases with
  | nil => rfl
  | feed t => rfl
  | other g t hg => rw [readExponent, readExponent, readSigned_crlf]

theorem readSuffix_crlf (floating : Bool) (t : Text) :
    readSuffix floating t.crlf = readSuffix floating t := by
  cases t using crlf_cases with
  | nil => rfl
  | feed t => cases floating <;> rfl
  | other g t hg => rw [readSuffix, readSuffix]

theorem read_crlf (t : Text) : read t.crlf = read t := by
  have hwhole : t.crlf.drop t.digits.length = crlf (t.drop t.digits.length) :=
    drop_crlf (digits_front t) (digits_crlf t ▸ digits_front t.crlf)
  have hfraction : ∀ t : Text, t.crlf.drop (readFraction t).length
      = crlf (t.drop (readFraction t).length) := fun t =>
    drop_crlf (readFraction_front t) (readFraction_crlf t ▸ readFraction_front t.crlf)
  have hexponent : ∀ t : Text, t.crlf.drop (readExponent t).length
      = crlf (t.drop (readExponent t).length) := fun t =>
    drop_crlf (readExponent_front t) (readExponent_crlf t ▸ readExponent_front t.crlf)
  simp only [read, digits_crlf, hwhole, readFraction_crlf, hfraction, readExponent_crlf, hexponent,
    readSuffix_crlf]

end Numeral

theorem readUnicode_crlf (t : Text) : readUnicode t.crlf = readUnicode t := by
  have hmarks : t.crlf.takeWhile (· = Glyph.scalar 'u') = t.takeWhile (· = Glyph.scalar 'u') :=
    takeWhile_preceded rfl rfl t
  have hdrop : t.crlf.drop (t.takeWhile (· = Glyph.scalar 'u')).length
      = crlf (t.drop (t.takeWhile (· = Glyph.scalar 'u')).length) :=
    drop_crlf (List.takeWhile_prefix _) (hmarks ▸ List.takeWhile_prefix _)
  have hdigits : ∀ t : Text,
      (t.crlf.take 4).takeWhile Glyph.isHex = (t.take 4).takeWhile Glyph.isHex :=
    takeWhile_take_preceded rfl rfl 4
  simp only [readUnicode, hmarks, hdrop, hdigits]

theorem readEscape_crlf {g : Glyph} (h : g ≠ lineFeed) (rest : Text) :
    readEscape g rest.crlf = readEscape g rest := by
  have hoctal : ((g :: rest.crlf).take 3).takeWhile Glyph.isOctal
      = ((g :: rest).take 3).takeWhile Glyph.isOctal := by
    rw [← crlf_cons h]
    exact takeWhile_take_preceded rfl rfl 3 (g :: rest)
  rw [readEscape, readEscape, ← crlf_cons h, readUnicode_crlf, crlf_cons h, hoctal]

/-- What a carriage return makes of a backslash in front of it. -/
def returnEscape : LiteralUnit := .escape [carriageReturn] (some (.unknown carriageReturn))

/-- The text of units with their ending. -/
def unitsText (quote : Glyph) (r : List LiteralUnit × Ending) : Text :=
  r.1.flatMap LiteralUnit.text ++ r.2.text quote

theorem unitsText_consUnit (quote : Glyph) (u : LiteralUnit) (r : List LiteralUnit × Ending) :
    unitsText quote (consUnit u r) = u.text ++ unitsText quote r := List.append_assoc ..

/-- What is read where carriage returns are put in front of the line feeds of `t`: the same, unless
a line feed cuts off the units right behind a backslash, which then takes the carriage return. -/
inductive ReadAgain (quote : Glyph) (t : Text) (r : List LiteralUnit × Ending) :
    List LiteralUnit × Ending → Prop
  | same (h : r.2 = .cutAfterBackslash → t = unitsText quote r) : ReadAgain quote t r r
  | escaped {more : Text} (hending : r.2 = .cutAfterBackslash)
    (hmore : t = unitsText quote r ++ lineFeed :: more) :
    ReadAgain quote t r (r.1 ++ [returnEscape], .cut)

theorem ReadAgain.consUnit {quote : Glyph} {t : Text} {r r' : List LiteralUnit × Ending}
    (h : ReadAgain quote t r r') (u : LiteralUnit) :
    ReadAgain quote (u.text ++ t) (consUnit u r) (consUnit u r') := by
  cases h with
  | same h =>
    refine .same fun hending => ?_
    rw [unitsText_consUnit, ← h hending]
  | @escaped more hending hmore =>
    have hmore' : u.text ++ t = unitsText quote (JavaPrimer.consUnit u r) ++ lineFeed :: more := by
      rw [unitsText_consUnit, List.append_assoc, ← hmore]
    exact .escaped hending hmore'

theorem readUnits_crlf {quote : Glyph} (hquote : quote ≠ lineFeed) (t : Text) :
    ReadAgain quote t (readUnits quote t) (readUnits quote t.crlf) := by
  have hsame : ∀ {t : Text} {us : List LiteralUnit} {ending : Ending},
      ending ≠ .cutAfterBackslash → readUnits quote t.crlf = (us, ending) →
        ReadAgain quote t (us, ending) (readUnits quote t.crlf) := by
    intro t us ending hending hread
    rw [hread]
    exact .same fun hcut => absurd hcut hending
  fun_induction readUnits quote t with
  | case1 =>
    apply hsame (by decide)
    rw [crlf_nil, readUnits.eq_def]
  | case2 g rest hline =>
    apply hsame (by decide)
    by_cases hg : g = lineFeed
    · rw [hg, crlf_cons_lineFeed, readUnits.eq_def]
      rfl
    · rw [crlf_cons hg, readUnits.eq_def]
      simp only [hline, if_true]
  | case3 rest hline =>
    apply hsame (by decide)
    rw [crlf_cons hquote, readUnits.eq_def]
    simp only [hline, if_true, if_false, Bool.false_eq_true]
  | case4 hline hq =>
    have hread : readUnits quote (crlf [Glyph.scalar '\\']) = ([], .cutAfterBackslash) := by
      rw [crlf_cons (by decide), crlf_nil, readUnits.eq_def]
      simp only [hline, hq, if_true, if_false, Bool.false_eq_true]
    rw [hread]
    exact .same fun _ => rfl
  | case5 more hline hq =>
    -- the escape takes the carriage return, and the line feed behind it ends the literal
    have hread : readUnits quote (crlf (Glyph.scalar '\\' :: lineFeed :: more))
        = ([returnEscape], .cut) := by
      rw [crlf_cons (by decide), crlf_cons_lineFeed, readUnits.eq_def]
      simp only [hline, hq, if_true, if_false, Bool.false_eq_true]
      have hescape : readEscape carriageReturn (lineFeed :: crlf more)
          = ([carriageReturn], some (.unknown carriageReturn)) := rfl
      have hend : readUnits quote (lineFeed :: crlf more) = ([], .cut) := by
        rw [readUnits.eq_def]
        rfl
      rw [if_neg (by decide), hescape]
      show consUnit returnEscape (readUnits quote (lineFeed :: crlf more)) = _
      rw [hend]
      rfl
    rw [hread]
    exact .escaped rfl rfl
  | case6 e more hn body fault he hline hq ih =>
    have hfront : body <+: e :: more := by
      have hf := readEscape_front e more
      rwa [he] at hf
    have he' : readEscape e (crlf more) = (body, fault) := (readEscape_crlf hn more).trans he
    have hfront' : body <+: crlf (e :: more) := by
      have hf := readEscape_front e (crlf more)
      rwa [he', ← crlf_cons hn] at hf
    have hread : readUnits quote (crlf (Glyph.scalar '\\' :: e :: more))
        = consUnit (.escape body fault)
          (readUnits quote (crlf ((e :: more).drop body.length))) := by
      rw [crlf_cons (by decide), crlf_cons hn, readUnits.eq_def]
      simp only [hline, hq, hn, he', if_true, if_false, Bool.false_eq_true]
      rw [← crlf_cons hn, drop_crlf hfront hfront']
    have htext : Glyph.scalar '\\' :: e :: more
        = (LiteralUnit.escape body fault).text ++ (e :: more).drop body.length :=
      congrArg (_ :: ·) (List.prefix_iff_eq_append.1 hfront).symm
    rw [hread, htext]
    exact ih.consUnit (.escape body fault)
  | case7 g rest hline hq hslash ih =>
    have hg : g ≠ lineFeed := by
      intro hg
      rw [hg] at hline
      exact hline rfl
    have hread : readUnits quote (crlf (g :: rest))
        = consUnit (.plain g) (readUnits quote (crlf rest)) := by
      rw [crlf_cons hg, readUnits.eq_def]
      simp only [hline, hq, hslash, if_false, Bool.false_eq_true]
    rw [hread]
    exact ih.consUnit (.plain g)

namespace Piece

theorem readWord_crlf {g : Glyph} (hg : g ≠ lineFeed) (rest : Text) :
    readWord (g :: rest.crlf) = readWord (g :: rest) := by
  rw [readWord, readWord, ← crlf_cons hg]
  have hword : (crlf (g :: rest)).takeWhile Glyph.isWordPart
      = (g :: rest).takeWhile Glyph.isWordPart := takeWhile_preceded rfl rfl _
  rw [hword]

theorem operators_no_line_end :
    ∀ entry ∈ operators, carriageReturn ∉ entry.1 ∧ lineFeed ∉ entry.1 := by decide

theorem readOperator_crlf {g : Glyph} (hg : g ≠ lineFeed) (rest : Text) :
    readOperator g rest.crlf = readOperator g rest := by
  have hfind : (operators.find? fun entry => entry.1.isPrefixOf (g :: rest.crlf))
      = operators.find? fun entry => entry.1.isPrefixOf (g :: rest) := by
    apply List.find?_congr
    intro entry hentry
    obtain ⟨hcr, hlf⟩ := operators_no_line_end entry hentry
    rw [← crlf_cons hg]
    exact isPrefixOf_preceded hcr hlf _
  rw [readOperator, readOperator, hfind]

/-- Whether a piece is a literal that is cut off right behind a backslash. -/
def endsInBackslash : Piece → Bool
  | quoted q => q.ending = .cutAfterBackslash
  | _ => false

theorem quoted_crlf {g : Glyph} {rest after : Text} (hg : g ≠ lineFeed)
    (hsplit : g :: rest = (Quoted.read g rest).text ++ after)
    (h : (Quoted.read g rest).ending = .cutAfterBackslash → after = []) :
    Quoted.read g rest.crlf = Quoted.read g rest := by
  have hagain := readUnits_crlf hg rest
  have hrest : rest = unitsText g (readUnits g rest) ++ after := (List.cons.inj hsplit).2
  rw [Quoted.read, Quoted.read]
  generalize readUnits g rest.crlf = r at hagain ⊢
  cases hagain with
  | same => rfl
  | escaped hending hmore =>
    rw [h hending] at hrest
    generalize unitsText g (readUnits g rest) = u at hmore hrest
    rw [hrest] at hmore
    cases List.append_cancel_left hmore

/-- What is neither a line feed nor a comment is read alike, unless it is a literal that a line feed
cuts off right behind a backslash. -/
theorem read_crlf {g : Glyph} {rest after : Text} (hg : g ≠ lineFeed)
    (hline : ¬ (g = Glyph.scalar '/' ∧ rest.head? = some (Glyph.scalar '/')))
    (hblock : ¬ (g = Glyph.scalar '/' ∧ rest.head? = some (Glyph.scalar '*')))
    (hsplit : g :: rest = (read g rest).text ++ after)
    (h : (read g rest).endsInBackslash = true → after = []) :
    read g rest.crlf = read g rest := by
  by_cases hquote : g.isOneOf ['"', '\''] = true
  · rw [read_quoted hquote] at hsplit h
    rw [read_quoted hquote, read_quoted hquote, quoted_crlf hg hsplit]
    exact fun hending => h (decide_eq_true hending)
  · have hquote' : ¬ (g = Glyph.scalar '"' ∨ g = Glyph.scalar '\'') := by
      intro hg
      rcases hg with rfl | rfl <;> exact hquote rfl
    have hline' : ¬ (g = Glyph.scalar '/' ∧ rest.crlf.head? = some (Glyph.scalar '/')) := by
      rwa [head?_crlf_eq_iff (by decide) (by decide)]
    have hblock' : ¬ (g = Glyph.scalar '/' ∧ rest.crlf.head? = some (Glyph.scalar '*')) := by
      rwa [head?_crlf_eq_iff (by decide) (by decide)]
    have hnumeral : Numeral.read (g :: rest.crlf) = Numeral.read (g :: rest) := by
      rw [← crlf_cons hg, Numeral.read_crlf]
    unfold read
    dsimp only
    rw [if_neg hline, if_neg hblock, if_neg hline', if_neg hblock', if_neg hquote', if_neg hquote',
      any_head?_crlf rfl rfl, hnumeral, readWord_crlf hg, readOperator_crlf hg]

/-- The body of a block comment gets its carriage returns too. -/
theorem readBlock_crlf (t : Text) : readBlock t.crlf = (crlf (readBlock t).1, (readBlock t).2) := by
  induction t with
  | nil => rfl
  | cons g t ih =>
    by_cases hg : g = lineFeed
    · have hlf : ∀ t : Text,
          readBlock (lineFeed :: t) = (lineFeed :: (readBlock t).1, (readBlock t).2) := by
        intro t
        rw [readBlock, if_neg (fun h => absurd h.1 (by decide))]
      rw [hg, crlf_cons_lineFeed, hlf, crlf_cons_lineFeed, readBlock,
        if_neg (fun h => absurd h.1 (by decide)), hlf, ih]
    · have hhead := head?_crlf_eq_iff (g := Glyph.scalar '/') (by decide) (by decide) t
      by_cases hclose : g = Glyph.scalar '*' ∧ t.head? = some (Glyph.scalar '/')
      · rw [crlf_cons hg, readBlock, readBlock, if_pos hclose, if_pos ⟨hclose.1, hhead.2 hclose.2⟩]
        rfl
      · rw [crlf_cons hg, readBlock, readBlock, if_neg hclose,
          if_neg fun h => hclose ⟨h.1, hhead.1 h.2⟩, ih, crlf_cons hg]

end Piece

end JavaPrimer
