import JavaPrimer.Json.Basic
import JavaPrimer.Token.Numeral

/-!
# Reading JSON

A strict reader: one value, with blanks around it and nothing else. Every step gives what it
read and what is left, or nothing. A stray byte or half of a surrogate pair in a string is
read as the replacement character.

Definitions:
- `Json.readNumber`, `Json.readString`: the leaves.
- `Json.readLeaf`, `Json.readValue`: a value, nested at most as deep as a bound allows.
- `Json.read?`: a whole text.
-/

namespace JavaPrimer

namespace Json

/-- A text without the blanks in front. -/
def skipBlanks (t : Text) : Text := t.dropWhile (Glyph.isOneOf [' ', '\t', '\n', '\r'])

/-- Reads a fixed word. -/
def readWord (word : Text) (v : Json) (t : Text) : Option (Json × Text) :=
  if word.isPrefixOf t then some (v, t.drop word.length) else none

/-! ### Numbers -/

/-- Digits, at least one. -/
def readDigits (t : Text) : Option (Text × Text) :=
  let ds := t.digits
  if ds.isEmpty then none else some (ds, t.drop ds.length)

/-- The digits before the point: no zero in front of others. -/
def readWhole : Text → Option (Text × Text)
  | [] => none
  | g :: rest =>
    if g = '0' then some ([g], rest) else readDigits (g :: rest)

/-- A part that must be complete if its mark is there. -/
def readMarked (mark : Glyph → Bool) (body : Text → Option (Text × Text)) :
    Text → Option (Text × Text)
  | [] => some ([], [])
  | g :: rest =>
    if mark g then (body rest).map fun (ds, left) => (g :: ds, left) else some ([], g :: rest)

/-- The digits of an exponent, with a sign or without. -/
def readSignedDigits : Text → Option (Text × Text)
  | [] => none
  | g :: rest =>
    if g.isOneOf ['+', '-'] then (readDigits rest).map fun (ds, left) => (g :: ds, left)
    else readDigits (g :: rest)

/-- A number as it is written. -/
def readNumber (t : Text) : Option (Json × Text) := do
  let (whole, t) ← match t with
    | g :: rest =>
      if g = '-' then (readWhole rest).map fun (ds, left) => (g :: ds, left)
      else readWhole (g :: rest)
    | [] => none
  let (fraction, t) ← readMarked (Glyph.isOneOf ['.']) readDigits t
  let (exponent, t) ← readMarked (Glyph.isOneOf ['e', 'E']) readSignedDigits t
  return (number (whole ++ fraction ++ exponent), t)

/-! ### Strings -/

/-- The value of a hexadecimal digit. -/
def hexValue? : Glyph → Option Nat
  | .scalar c =>
    if c.isDigit then some (c.toNat - 48)
    else if 'a' ≤ c ∧ c ≤ 'f' then some (c.toNat - 87)
    else if 'A' ≤ c ∧ c ≤ 'F' then some (c.toNat - 55)
    else none
  | .stray _ => none

/-- The character that a short escape stands for. -/
def shortEscape? : Glyph → Option Char
  | .scalar '"' => some '"'
  | .scalar '\\' => some '\\'
  | .scalar '/' => some '/'
  | .scalar 'b' => some '\x08'
  | .scalar 'f' => some '\x0c'
  | .scalar 'n' => some '\n'
  | .scalar 'r' => some '\r'
  | .scalar 't' => some '\t'
  | _ => none

/-- The code units of a string up to its closing quote: code points, and halves of surrogate
pairs where they are escaped. -/
def readUnits : Text → Option (List Nat × Text)
  | [] => none
  | .scalar '"' :: rest => some ([], rest)
  | .scalar '\\' :: .scalar 'u' :: a :: b :: c :: d :: rest => do
    let n := ((← hexValue? a) * 16 + (← hexValue? b)) * 256 + (← hexValue? c) * 16 + (← hexValue? d)
    let (units, left) ← readUnits rest
    return (n :: units, left)
  | .scalar '\\' :: e :: rest => do
    let c ← shortEscape? e
    let (units, left) ← readUnits rest
    return (c.toNat :: units, left)
  | g :: rest =>
    if g = '\\' ∨ g.shown.toNat < 0x20 then none
    else do
      let (units, left) ← readUnits rest
      return (g.shown.toNat :: units, left)

/-- First halves of surrogate pairs. -/
def isHighSurrogate (n : Nat) : Bool := 0xD800 ≤ n && n < 0xDC00

/-- Second halves of surrogate pairs. -/
def isLowSurrogate (n : Nat) : Bool := 0xDC00 ≤ n && n < 0xE000

/-- Joins the halves of surrogate pairs; a half alone becomes the replacement character. -/
def joinUnits : List Nat → Text
  | [] => []
  | [n] => [if isHighSurrogate n || isLowSurrogate n then '\ufffd' else Char.ofNat n]
  | m :: n :: rest =>
    if isHighSurrogate m && isLowSurrogate n then
      Char.ofNat (0x10000 + (m - 0xD800) * 1024 + (n - 0xDC00)) :: joinUnits rest
    else (if isHighSurrogate m || isLowSurrogate m then '\ufffd' else Char.ofNat m)
      :: joinUnits (n :: rest)

/-- A string after its opening quote. -/
def readString (t : Text) : Option (Text × Text) :=
  (readUnits t).map fun (units, left) => (joinUnits units, left)

/-! ### Values -/

/-- The items of an array after its first bracket or a comma, `n` of them at most. -/
def readItems (value : Text → Option (Json × Text)) : Nat → Text → Option (List Json × Text)
  | 0, _ => none
  | n + 1, t => do
    let (v, t) ← value t
    match skipBlanks t with
    | .scalar ',' :: rest =>
      let (vs, left) ← readItems value n rest
      return (v :: vs, left)
    | .scalar ']' :: rest => return ([v], rest)
    | _ => none

/-- One field of an object. -/
def readField (value : Text → Option (Json × Text)) (t : Text) : Option ((Text × Json) × Text) := do
  match skipBlanks t with
  | .scalar '"' :: rest =>
    let (key, t) ← readString rest
    match skipBlanks t with
    | .scalar ':' :: rest =>
      let (v, left) ← value rest
      return ((key, v), left)
    | _ => none
  | _ => none

/-- The fields of an object after its first brace or a comma, `n` of them at most. -/
def readFields (value : Text → Option (Json × Text)) :
    Nat → Text → Option (List (Text × Json) × Text)
  | 0, _ => none
  | n + 1, t => do
    let (f, t) ← readField value t
    match skipBlanks t with
    | .scalar ',' :: rest =>
      let (fs, left) ← readFields value n rest
      return (f :: fs, left)
    | .scalar '\x7d' :: rest => return ([f], rest)
    | _ => none

/-- A value that holds no others. -/
def readLeaf (t : Text) : Option (Json × Text) :=
  match t with
  | .scalar '"' :: rest => (readString rest).map fun (s, left) => (string s, left)
  | .scalar 't' :: _ => readWord "true" (bool true) t
  | .scalar 'f' :: _ => readWord "false" (bool false) t
  | .scalar 'n' :: _ => readWord "null" null t
  | _ => readNumber t

/-- A value with arrays and objects nested at most `n` deep. -/
def readValue : Nat → Text → Option (Json × Text)
  | 0, t => readLeaf (skipBlanks t)
  | n + 1, t =>
    match skipBlanks t with
    | .scalar '\x7b' :: rest =>
      match skipBlanks rest with
      | .scalar '\x7d' :: left => some (object [], left)
      | _ =>
        (readFields (readValue n) (rest.length + 1) rest).map fun (fs, left) => (object fs, left)
    | .scalar '[' :: rest =>
      match skipBlanks rest with
      | .scalar ']' :: left => some (array [], left)
      | _ =>
        (readItems (readValue n) (rest.length + 1) rest).map fun (vs, left) => (array vs, left)
    | other => readLeaf other

/-- How deep arrays and objects may be nested. -/
def maxNesting : Nat := 10000

/-- The value that a whole text is. -/
def read? (t : Text) : Option Json := do
  let (v, left) ← readValue maxNesting t
  if (skipBlanks left).isEmpty then return v else none

end Json

end JavaPrimer
