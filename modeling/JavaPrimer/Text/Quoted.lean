import JavaPrimer.Text.Printable

/-!
# Quoted text

A text between double quotes in which every glyph can be told apart: printable characters
stand for themselves, all others are written as escapes.

Definitions:
- `Text.hex`: a number in lower-case hexadecimal, padded to a width.
- `Glyph.quoted`: how one glyph is written between quotes.
- `Text.quoted`: a whole text with its quotes.
-/

namespace JavaPrimer

/-- A number in lower-case hexadecimal, with zeros in front up to `width` digits. -/
def Text.hex (width n : Nat) : Text :=
  let digits := Nat.toDigits 16 n
  (List.replicate (width - digits.length) '0' ++ digits).map .scalar

/-- The letter of the short escapes, for the control characters that have one. -/
def escapeLetter? (c : Char) : Option Char :=
  match c.toNat with
  | 7 => some 'a'
  | 8 => some 'b'
  | 9 => some 't'
  | 10 => some 'n'
  | 11 => some 'v'
  | 12 => some 'f'
  | 13 => some 'r'
  | _ => none

/-- One glyph between quotes. -/
def Glyph.quoted : Glyph → Text
  | .stray b => "\\x" ++ Text.hex 2 b.toNat
  | .scalar c =>
    if c = '"' ∨ c = '\\' then ['\\', c]
    else if isPrintable c then [c]
    else match escapeLetter? c with
      | some letter => ['\\', letter]
      | none =>
        if c.toNat < 0x80 then "\\x" ++ Text.hex 2 c.toNat
        else if c.toNat < 0x10000 then "\\u" ++ Text.hex 4 c.toNat
        else "\\U" ++ Text.hex 8 c.toNat

/-- A text in double quotes. -/
def Text.quoted (t : Text) : Text :=
  "\"" ++ t.flatMap Glyph.quoted ++ "\""

end JavaPrimer
