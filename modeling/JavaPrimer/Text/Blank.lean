import JavaPrimer.Text.Basic

/-!
# White space

The characters with the Unicode property White_Space, and the two operations that the
command line needs on them.

Definitions:
- `isBlank`: the property, on glyphs; no stray byte has it.
- `Text.trim`: a text without the blanks at its ends.
- `Text.fields`: the maximal runs of glyphs that are not blank.
-/

namespace JavaPrimer

/-- The Unicode property White_Space. -/
def isWhiteSpace (c : Char) : Bool :=
  let n := c.toNat
  (9 ≤ n && n ≤ 13) || n == 0x20 || n == 0x85 || n == 0xA0 || n == 0x1680
    || (0x2000 ≤ n && n ≤ 0x200A) || n == 0x2028 || n == 0x2029 || n == 0x202F
    || n == 0x205F || n == 0x3000

/-- White space as a class of glyphs. -/
def Glyph.isBlank (g : Glyph) : Bool :=
  g.satisfies isWhiteSpace

namespace Text

/-- A text without the blanks at its two ends. -/
def trim (t : Text) : Text :=
  ((t.dropWhile Glyph.isBlank).reverse.dropWhile Glyph.isBlank).reverse

/-- The maximal runs of glyphs that are not blank, in order. -/
def fields (t : Text) : List Text :=
  (t.splitOnP Glyph.isBlank).filter (!·.isEmpty)

end Text

end JavaPrimer
