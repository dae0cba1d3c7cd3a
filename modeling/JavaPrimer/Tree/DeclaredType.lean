import JavaPrimer.Tree.Basic

/-!
# Declared types

The types that a declaration can name: nine words, and arrays of a type.

Definitions:
- `DeclaredType`: the types, `unknown` for a word that names none.
- `DeclaredType.code`, `DeclaredType.ofCode`: the numbering of the outermost form.
- `DeclaredType.text`, `DeclaredType.ofName`: how a type is written and the way back.
- `TypeSpec.declared`: the type that a written type names.
-/

namespace JavaPrimer

/-- A declared type. -/
inductive DeclaredType where
  | unknown | int | double | string | char | boolean | byte | short | long | float
  | array (element : DeclaredType)
deriving DecidableEq

namespace DeclaredType

/-- The types that are words, in the order of their numbers. -/
def words : List DeclaredType :=
  [unknown, int, double, string, char, boolean, byte, short, long, float]

/-- The number of the outermost form of a type. -/
def code : DeclaredType → Nat
  | array _ => words.length
  | t => words.idxOf t

/-- The type with a number; an array so named has an unknown element. -/
def ofCode (n : Int) : DeclaredType :=
  if n < 0 then unknown
  else if n.toNat = words.length then array unknown
  else words.getD n.toNat unknown

/-- How a type is written. -/
def text : DeclaredType → Text
  | unknown => "unknown" | int => "int" | double => "double" | string => "String"
  | char => "char" | boolean => "boolean" | byte => "byte" | short => "short"
  | long => "long" | float => "float"
  | array element => element.text ++ "[]"

/-- The type that a word names. -/
def ofName (t : Text) : DeclaredType :=
  (words.find? (·.text == t)).getD unknown

/-- The type wrapped in `n` arrays. -/
def arrays : Nat → DeclaredType → DeclaredType
  | 0, t => t
  | n + 1, t => array (arrays n t)

end DeclaredType

/-- The type that a written type names. -/
def TypeSpec.declared (t : TypeSpec) : DeclaredType :=
  if t.isArray then .array (.ofName t.name) else .ofName t.name

end JavaPrimer
