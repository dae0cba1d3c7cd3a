import JavaPrimer.Diagnostic.Category
import JavaPrimer.Json.Basic
import JavaPrimer.Span

/-!
# Diagnostics

A diagnostic is one finding with its place, its category, its message and a hint.

Definitions:
- `Diagnostic`, `Diagnostic.make`: the record, and one with the hint of its category.
- `Diagnostic.json`, `Diagnostic.pretty`: the two written forms of one diagnostic.
- `Diagnostic.report`: a written list of diagnostics.
- `Diagnostic.line`: the short form used in error texts.
- `Diagnostic.sorted`: a list by position, findings of one position kept in order.
-/

namespace JavaPrimer

/-- One finding. -/
structure Diagnostic where
  span : Span
  category : Category
  message : Text
  hint : Text
deriving DecidableEq

namespace Diagnostic

/-- A finding with the hint of its category; a category outside the closed list counts as
general syntax. -/
def make (category : Category) (message : Text) (span : Span) : Diagnostic :=
  ⟨span, category.closed, message, category.closed.hint⟩

/-! ### Written forms -/

/-- Puts a field in front of others, unless it is zero. -/
def optionalField (key : Text) (n : Int) (fields : List (Text × Json)) : List (Text × Json) :=
  if n = 0 then fields else (key, .int n) :: fields

/-- A diagnostic for other tools. -/
def json (d : Diagnostic) : Json :=
  .object (
    ("line", .int d.span.start.line) ::
    ("column", .int d.span.start.column) ::
    (optionalField "endLine" d.span.stop.line <|
      optionalField "endColumn" d.span.stop.column
        [("category", .string d.category.name), ("message", .string d.message),
         ("hint", .string d.hint)]))

/-- A diagnostic for people. -/
def pretty (filename : Text) (d : Diagnostic) : Text :=
  let file : Text := if filename.isEmpty then "<input>" else filename
  let hint : Text := if d.hint.isEmpty then [] else "\n  hint: " ++ d.hint
  "error[" ++ d.category.name ++ "]: " ++ d.message ++ "\n  --> " ++ file
    ++ ":" ++ Text.decimal d.span.start.line ++ ":" ++ Text.decimal d.span.start.column ++ hint

/-- One diagnostic, for people or for other tools. -/
def written (filename : Text) (forPeople : Bool) (d : Diagnostic) : Text :=
  if forPeople then d.pretty filename else d.json.compact

/-- A list of diagnostics, for people or for other tools. -/
def report (filename : Text) (forPeople : Bool) (ds : List Diagnostic) : Text :=
  if forPeople then List.intercalate (Text.ofString "\n\n") (ds.map (pretty filename))
  else (Json.array (ds.map json)).compact

/-- A diagnostic in an error text. -/
def line (d : Diagnostic) : Text :=
  Text.decimal d.span.start.line ++ ":" ++ Text.decimal d.span.start.column ++ " "
    ++ d.category.name ++ ": " ++ d.message

/-! ### Order -/

/-- Diagnostics by position; findings of one position keep their order. -/
def sorted (ds : List Diagnostic) : List Diagnostic :=
  ds.mergeSort fun a b => !b.span.startsBefore a.span

end Diagnostic

end JavaPrimer
