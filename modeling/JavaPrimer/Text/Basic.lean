/-!
# Text as a list of glyphs

Source text arrives as bytes that need not be well-formed UTF-8. Reading it one
decoding step at a time gives glyphs: a Unicode scalar, or a byte that starts no
well-formed sequence. Columns count glyphs, so every later stage works on this list
and never on bytes.

Definitions:
- `Glyph` and `Glyph.bytes`: one decoding step and the bytes it came from.
- `Text`, `Text.ofString`, `Text.asLine`, `Text.decimal`: texts, literals, lines and numbers
  in base ten.
- `Text.ofBytes`, `Text.toBytes`, `Text.bytesLE`: decoding, encoding and the order of bytes.
- `Text.contains`: searching for a part.

Main statement: `Text.toBytes_ofBytes`, decoding loses nothing.
-/

namespace JavaPrimer

/-- One decoding step of a byte string: a Unicode scalar, or a byte that is not the start
of a well-formed sequence. -/
inductive Glyph where
  | scalar (c : Char)
  | stray (b : UInt8)
deriving DecidableEq

/-- A text is a list of glyphs. -/
abbrev Text := List Glyph

instance : Coe Char Glyph := ⟨.scalar⟩

namespace Glyph

/-- The bytes a glyph was read from. -/
def bytes : Glyph → List UInt8
  | scalar c => String.utf8EncodeChar c
  | stray b => [b]

/-- The character shown for a glyph: a stray byte shows as the replacement character. -/
def shown : Glyph → Char
  | scalar c => c
  | stray _ => '\ufffd'

/-- The first byte of a glyph, read as a code point below 256. -/
def leadChar (g : Glyph) : Char :=
  Char.ofNat (g.bytes.headD 0).toNat

/-- Holds for the scalars that satisfy `p`, and for no stray byte. -/
def satisfies (p : Char → Bool) : Glyph → Bool
  | scalar c => p c
  | stray _ => false

/-- Whether a glyph is one of a few characters. -/
def isOneOf (cs : List Char) (g : Glyph) : Bool := g.satisfies cs.contains

/-! ### Reading one glyph -/

/-- The number of bytes that a lead byte announces after itself. -/
def tailLength (b : UInt8) : Nat :=
  if b < 0x80 then 0 else if b < 0xE0 then 1 else if b < 0xF0 then 2 else 3

/-- The bits of the code point that a lead byte carries itself. -/
def leadBits (b : UInt8) : Nat :=
  match tailLength b with
  | 0 => b.toNat
  | 1 => b.toNat % 32
  | 2 => b.toNat % 16
  | _ => b.toNat % 8

/-- The scalar that a lead byte and its tail would spell. -/
def candidate (b : UInt8) (tail : List UInt8) : Char :=
  Char.ofNat (tail.foldl (fun n x => n * 64 + x.toNat % 64) (leadBits b))

/-- One decoding step. A candidate is accepted when its encoding is exactly the bytes it was
spelled by, which refuses overlong forms, surrogates and broken tails alike. -/
def read (b : UInt8) (rest : List UInt8) : Glyph × List UInt8 :=
  let tail := rest.take (tailLength b)
  let c := candidate b tail
  if String.utf8EncodeChar c = b :: tail then (scalar c, rest.drop (tailLength b))
  else (stray b, rest)

theorem length_read_le (b : UInt8) (rest : List UInt8) :
    (read b rest).2.length ≤ rest.length := by
  unfold read
  dsimp only
  split
  · simp
  · exact Nat.le_refl _

theorem bytes_read (b : UInt8) (rest : List UInt8) :
    (read b rest).1.bytes ++ (read b rest).2 = b :: rest := by
  unfold read
  dsimp only
  split
  · rename_i h
    simp [bytes, h]
  · simp [bytes]

end Glyph

namespace Text

/-- A text literal. -/
def ofString (s : String) : Text :=
  s.toList.map .scalar

instance : Coe String Text := ⟨ofString⟩

/-- A text with a line feed after it. -/
def asLine (t : Text) : Text := t ++ ofString "\n"

/-- An integer in base ten, with a minus sign when negative. -/
def decimal : Int → Text
  | .ofNat n => (Nat.toDigits 10 n).map .scalar
  | .negSucc n => Glyph.scalar '-' :: (Nat.toDigits 10 (n + 1)).map .scalar

/-! ### Bytes -/

/-- The bytes of a text. -/
def toBytes (t : Text) : List UInt8 :=
  t.flatMap Glyph.bytes

/-- The order of texts by their bytes. -/
def bytesLE (s t : Text) : Bool := decide (s.toBytes ≤ t.toBytes)

/-- Decodes a byte string, one glyph per step. -/
def ofBytes : List UInt8 → Text
  | [] => []
  | b :: rest => (Glyph.read b rest).1 :: ofBytes (Glyph.read b rest).2
termination_by bs => bs.length
decreasing_by
  have := Glyph.length_read_le b rest
  simp only [List.length_cons]
  omega

/-- Decoding loses nothing: the glyphs of a byte string encode back to it. -/
theorem toBytes_ofBytes (bs : List UInt8) : toBytes (ofBytes bs) = bs := by
  fun_induction ofBytes bs with
  | case1 => rfl
  | case2 b rest ih =>
    calc toBytes ((Glyph.read b rest).1 :: ofBytes (Glyph.read b rest).2)
        = (Glyph.read b rest).1.bytes ++ toBytes (ofBytes (Glyph.read b rest).2) := by
          simp [toBytes]
      _ = b :: rest := by rw [ih, Glyph.bytes_read]

/-! ### Searching -/

/-- Whether `part` occurs somewhere in a text. -/
def contains (part : Text) : Text → Bool
  | [] => part.isEmpty
  | g :: rest => part.isPrefixOf (g :: rest) || contains part rest

end Text

end JavaPrimer
