import JavaPrimer.Token.Kind

/-!
# Numerals

A numeral is a run of digits, a fraction, an exponent and a suffix, each as long as it can
be and each possibly missing. A point or an exponent makes the numeral floating even when
no digit follows it.

Definitions:
- `Glyph.isDigit`, `Text.digits`: digits and the longest run of them.
- `Numeral`: the four parts; `Numeral.text` puts them together, `Numeral.isFloat` classifies.
- `Numeral.read`: the numeral at the front of a text.

Main statement: `Numeral.text_front`, the numeral read is the front of the text.
-/

namespace JavaPrimer

/-- Decimal digits. -/
def Glyph.isDigit (g : Glyph) : Bool := g.satisfies Char.isDigit

/-- The longest run of digits at the front of a text. -/
def Text.digits (t : Text) : Text := t.takeWhile Glyph.isDigit

/-- The parts of a numeral. -/
structure Numeral where
  whole : Text
  fraction : Text
  exponent : Text
  suffix : Text
deriving DecidableEq

namespace Numeral

/-- The text of a numeral. -/
def text (n : Numeral) : Text := n.whole ++ n.fraction ++ n.exponent ++ n.suffix

/-- Whether a numeral is floating. -/
def isFloat (n : Numeral) : Bool :=
  !n.fraction.isEmpty || !n.exponent.isEmpty
    || n.suffix.any (Glyph.isOneOf ['f', 'F', 'd', 'D'])

/-- The kind of token a numeral makes. -/
def kind (n : Numeral) : Kind := if n.isFloat then .floatLit else .intLit

/-! ### Reading -/

/-- A point and the digits after it. -/
def readFraction : Text → Text
  | g :: rest => if g = '.' then g :: Text.digits rest else []
  | [] => []

/-- A sign, if there is one, and the digits after it. -/
def readSigned : Text → Text
  | g :: rest => if g.isOneOf ['+', '-'] then g :: Text.digits rest else Text.digits (g :: rest)
  | [] => []

/-- An exponent mark and the signed digits after it. -/
def readExponent : Text → Text
  | g :: rest => if g.isOneOf ['e', 'E'] then g :: readSigned rest else []
  | [] => []

/-- A suffix: a floating one always, a long one only after an integer. -/
def readSuffix (floating : Bool) : Text → Text
  | g :: _ =>
    if g.isOneOf ['f', 'F', 'd', 'D'] || (!floating && g.isOneOf ['l', 'L']) then [g] else []
  | [] => []

/-- The numeral at the front of a text. -/
def read (t : Text) : Numeral :=
  let whole := t.digits
  let afterWhole := t.drop whole.length
  let fraction := readFraction afterWhole
  let afterFraction := afterWhole.drop fraction.length
  let exponent := readExponent afterFraction
  let afterExponent := afterFraction.drop exponent.length
  let suffix := readSuffix (!fraction.isEmpty || !exponent.isEmpty) afterExponent
  ⟨whole, fraction, exponent, suffix⟩

/-! ### What is read is the front of the text -/

theorem digits_front (t : Text) : Text.digits t <+: t :=
  List.takeWhile_prefix _

theorem readFraction_front (t : Text) : readFraction t <+: t := by
  cases t with
  | nil => exact List.prefix_refl _
  | cons g rest =>
    simp only [readFraction]
    split
    · exact (List.prefix_cons_inj g).2 (digits_front rest)
    · exact List.nil_prefix

theorem readSigned_front (t : Text) : readSigned t <+: t := by
  cases t with
  | nil => exact List.prefix_refl _
  | cons g rest =>
    simp only [readSigned]
    split
    · exact (List.prefix_cons_inj g).2 (digits_front rest)
    · exact digits_front _

theorem readExponent_front (t : Text) : readExponent t <+: t := by
  cases t with
  | nil => exact List.prefix_refl _
  | cons g rest =>
    simp only [readExponent]
    split
    · exact (List.prefix_cons_inj g).2 (readSigned_front rest)
    · exact List.nil_prefix

theorem readSuffix_front (floating : Bool) (t : Text) : readSuffix floating t <+: t := by
  cases t with
  | nil => exact List.prefix_refl _
  | cons g rest =>
    simp only [readSuffix]
    split
    · exact ⟨rest, rfl⟩
    · exact List.nil_prefix

/-- A front followed by a front of what is left is a front. -/
theorem append_drop_front {a b t : Text} (ha : a <+: t) (hb : b <+: t.drop a.length) :
    a ++ b <+: t := by
  obtain ⟨r, rfl⟩ := ha
  obtain ⟨s, hs⟩ := hb
  rw [List.drop_left] at hs
  exact ⟨s, by rw [List.append_assoc, hs]⟩

theorem text_front (t : Text) : (read t).text <+: t := by
  simp only [read, text]
  refine append_drop_front (append_drop_front (append_drop_front (digits_front t) ?_) ?_) ?_
  · exact readFraction_front _
  · rw [List.length_append, ← List.drop_drop]
    exact readExponent_front _
  · rw [List.length_append, List.length_append, ← List.drop_drop, ← List.drop_drop]
    exact readSuffix_front _ _

end Numeral

end JavaPrimer
