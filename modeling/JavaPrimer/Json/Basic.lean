import JavaPrimer.Text.Quoted

/-!
# JSON values and how they are written

Reports for other tools are JSON. A string escapes what would be unsafe inside a web page;
a stray byte is written as the replacement character.

Definitions:
- `Json`: values; a number keeps the digits it is written with, an object keeps its order.
- `Json.int`: an integer as a value.
- `Json.escaped`: a glyph inside a string.
- `Json.compact`: a value on one line without spaces.
- `Json.indented`: a value over several lines, two spaces per level.
-/

namespace JavaPrimer

/-- A JSON value. -/
inductive Json where
  | null
  | bool (b : Bool)
  | number (literal : Text)
  | string (value : Text)
  | array (items : List Json)
  | object (fields : List (Text × Json))

namespace Json

/-- An integer. -/
def int (n : Int) : Json := number (Text.decimal n)

/-! ### Strings -/

/-- A glyph inside a string. -/
def escaped (g : Glyph) : Text :=
  let c := g.shown
  if c = '"' ∨ c = '\\' then ['\\', c]
  else match c.toNat with
    | 8 => "\\b"
    | 9 => "\\t"
    | 10 => "\\n"
    | 12 => "\\f"
    | 13 => "\\r"
    | n =>
      if n < 0x20 ∨ c = '<' ∨ c = '>' ∨ c = '&' ∨ n = 0x2028 ∨ n = 0x2029 then
        "\\u" ++ Text.hex 4 n
      else [c]

/-- A string with its quotes. -/
def quote (t : Text) : Text :=
  "\"" ++ t.flatMap escaped ++ "\""

/-! ### Values on one line -/

mutual

/-- A value on one line. -/
def compact : Json → Text
  | null => "null"
  | bool b => if b then "true" else "false"
  | number literal => literal
  | string value => quote value
  | array items => "[" ++ List.intercalate (Text.ofString ",") (compactItems items) ++ "]"
  | object fields =>
    "\x7b" ++ List.intercalate (Text.ofString ",") (compactFields fields) ++ "\x7d"

/-- The items of an array, each on one line. -/
def compactItems : List Json → List Text
  | [] => []
  | v :: rest => v.compact :: compactItems rest

/-- The fields of an object, each on one line. -/
def compactFields : List (Text × Json) → List Text
  | [] => []
  | (key, v) :: rest => (quote key ++ ":" ++ v.compact) :: compactFields rest

end

/-! ### Values over several lines -/

/-- A line break followed by the indentation of a level. -/
def lineBreak (level : Nat) : Text :=
  '\n' :: List.replicate (2 * level) (Glyph.scalar ' ')

/-- Written parts between two brackets, one part a line; nothing but the brackets when there is
no part. -/
def bracketed (left right : Text) (level : Nat) : List Text → Text
  | [] => left ++ right
  | parts =>
    left ++ lineBreak (level + 1)
      ++ List.intercalate (Text.ofString "," ++ lineBreak (level + 1)) parts
      ++ lineBreak level ++ right

mutual

/-- A value over several lines, starting at a level. -/
def indented (level : Nat) : Json → Text
  | array items => bracketed "[" "]" level (indentedItems (level + 1) items)
  | object fields => bracketed "\x7b" "\x7d" level (indentedFields (level + 1) fields)
  | v => v.compact

/-- The items of an array at a level. -/
def indentedItems (level : Nat) : List Json → List Text
  | [] => []
  | v :: rest => v.indented level :: indentedItems level rest

/-- The fields of an object at a level. -/
def indentedFields (level : Nat) : List (Text × Json) → List Text
  | [] => []
  | (key, v) :: rest => (quote key ++ ": " ++ v.indented level) :: indentedFields level rest

end

end Json

end JavaPrimer
