import JavaPrimer.Parsing.Cursor
import JavaPrimer.Tree.Basic

/-!
# Syntax errors

A complaint says what was wanted where something else stood. Its category follows from what
would have been accepted; a missing closer is placed right after the last token when what
follows is on a later line or is the end of input.

Definitions:
- `Complaint`, `Complaint.expected`, `Complaint.message`, `Complaint.category`: the errors.
- `Complaint.span`: where an error is shown.
- `Parse.fail`: raises an error and starts a panic.
- `Parse.expect`, `Parse.expectAll`, `Parse.expectIdent`, `Parse.expectWord`: wanting tokens.
-/

namespace JavaPrimer

variable {ρ : Reach}

/-- A syntax error by its cause. -/
inductive Complaint where
  /-- One kind of token was wanted. -/
  | token (wanted : Kind) (found : Token)
  /-- An identifier with one of a few spellings was wanted. -/
  | word (wanted : List Text) (found : Token)
  /-- A class was wanted. -/
  | classDecl (found : Token)
  /-- There is no class at all. -/
  | noClass
  /-- A type was wanted. -/
  | type (found : Token)
  /-- A word in the place of a type names none. -/
  | unknownType (name : Text)
  /-- Nothing that can start a statement. -/
  | statement (found : Token)
  /-- An expression was wanted. -/
  | expression (found : Token)
deriving DecidableEq

namespace Complaint

/-- A kind of token in a message: classes of spellings are named, spellings are quoted. -/
def wantedText (k : Kind) : Text :=
  match k with
  | .ident | .intLit | .floatLit | .stringLit | .charLit | .eof => k.spelling
  | _ => "'" ++ k.spelling ++ "'"

/-- What would have been accepted. -/
def expected : Complaint → List Text
  | token wanted _ => [wanted.spelling]
  | word wanted _ => wanted
  | classDecl _ | noClass => ["class declaration"]
  | type _ | unknownType _ => ["type"]
  | statement _ => []
  | expression _ => ["expression"]

/-- The message for the learner. -/
def message : Complaint → Text
  | token wanted found => "expected " ++ wantedText wanted ++ " but found " ++ found.described
  | word wanted found =>
    "expected " ++ List.intercalate (Text.ofString " or ") (wanted.map fun w => "'" ++ w ++ "'")
      ++ " but found " ++ found.described
  | classDecl found =>
    "expected a class declaration ('public class Name \x7b ... \x7d') but found "
      ++ found.described
  | noClass => "expected a class declaration but found end of input"
  | type found =>
    "expected a type (int, double, String, char, boolean, ...) but found " ++ found.described
  | unknownType name => "'" ++ name ++ "' is not a known type"
  | statement found => "unexpected " ++ found.described ++ ": a statement cannot start here"
  | expression found => "expected an expression but found " ++ found.described

/-- The category of an error. -/
def category (x : Complaint) : Category := classify x.expected x.message

/-- Categories of errors about something that was not closed. -/
def closerCategories : List Category := [.missingSemicolon, .unclosedBrace, .unclosedParen]

/-- Where an error is shown. -/
def span (x : Complaint) (c : Cursor ρ) : Span :=
  match c.last with
  | some t =>
    if closerCategories.contains x.category && (c.kind = .eof || c.atLineStart) then
      .point t.span.stop
    else c.current.span
  | none => c.current.span

/-- The diagnostic of an error at a cursor. -/
def diagnostic (x : Complaint) (c : Cursor ρ) : Diagnostic :=
  .make x.category x.message (x.span c)

end Complaint

namespace Parse

/-- Raises an error and starts a panic. An error right after a literal that was cut off adds
nothing: the rest of that line was swallowed, and the cut has been reported. -/
def fail (x : Complaint) : Parse ρ Unit := fun c =>
  if c.panicking then ⟨(), [], c⟩
  else if c.last.any (·.unterminated) then ⟨(), [], { c with panicking := true }⟩
  else ⟨(), [x.diagnostic c], { c with panicking := true }⟩

/-- Adds a diagnostic that needs no recovery, unless there is a panic. -/
def report (d : Diagnostic) : Parse ρ Unit := do
  if ← panicking then return () else emit d

/-- Consumes a token of a kind and tells whether there was one. -/
def expect (k : Kind) : Parse ρ Bool := do
  let found ← look Cursor.current
  if found.kind = k then
    let _ ← advance
    return true
  else
    fail (.token k found)
    return false

/-- Consumes tokens of the kinds given, in order, up to the first that is not there. -/
def expectAll : List Kind → Parse ρ Bool
  | [] => return true
  | k :: rest => do
    if ← expect k then expectAll rest else return false

/-- Consumes an identifier; without one the name is empty, at the token found. -/
def expectIdent : Parse ρ (Ident × Bool) := do
  let found ← look Cursor.current
  let there ← expect .ident
  return (⟨if there then found.value else [], found.span⟩, there)

/-- Consumes an identifier with one of the spellings given. -/
def expectWord (words : List Text) : Parse ρ (Ident × Bool) := do
  let found ← look Cursor.current
  if found.kind = .ident ∧ words.contains found.value then
    let _ ← advance
    return (⟨found.value, found.span⟩, true)
  else
    fail (.word words found)
    return (⟨[], found.span⟩, false)

end Parse

end JavaPrimer
