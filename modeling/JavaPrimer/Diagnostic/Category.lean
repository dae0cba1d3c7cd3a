import JavaPrimer.Text.Basic

/-!
# Categories of findings

Every finding has one of eleven categories, and every category a hint for the learner.

Definitions:
- `Category`: the closed list, and `Category.other` for a name outside it.
- `Category.name`, `Category.ofName`: the names shown in reports.
- `Category.isKnown`, `Category.closed`: membership in the list and the nearest member.
- `Category.hint`: the explanation for the learner.
- `classify`: the category of a syntax error, from what was expected and its message.
-/

namespace JavaPrimer

/-- The category of a finding. -/
inductive Category where
  | missingSemicolon
  | unclosedBrace
  | unclosedParen
  | invalidAssignmentTarget
  | undeclaredVariable
  | typeMismatch
  | duplicateDeclaration
  | assignToFinal
  | missingType
  | unexpectedToken
  | generalSyntax
  | other (name : Text)
deriving DecidableEq

namespace Category

/-- Every category of the closed list, in the order of the reference. -/
def all : List Category :=
  [missingSemicolon, unclosedBrace, unclosedParen, invalidAssignmentTarget, undeclaredVariable,
   typeMismatch, duplicateDeclaration, assignToFinal, missingType, unexpectedToken, generalSyntax]

/-- The name of a category in reports. -/
def name : Category → Text
  | missingSemicolon => "missing_semicolon"
  | unclosedBrace => "unclosed_brace"
  | unclosedParen => "unclosed_paren"
  | invalidAssignmentTarget => "invalid_lhs_assignment"
  | undeclaredVariable => "undeclared_variable"
  | typeMismatch => "type_mismatch"
  | duplicateDeclaration => "duplicate_declaration"
  | assignToFinal => "assign_to_final"
  | missingType => "missing_type"
  | unexpectedToken => "unexpected_token"
  | generalSyntax => "general_syntax"
  | other name => name

/-- The category with a name. -/
def ofName (t : Text) : Category :=
  (all.find? fun c => c.name == t).getD (other t)

/-- Whether a category belongs to the closed list. -/
def isKnown (c : Category) : Bool :=
  all.contains c

/-- The category itself, or general syntax when it is not of the closed list. -/
def closed (c : Category) : Category :=
  if c.isKnown then c else generalSyntax

/-- The explanation for the learner. -/
def hint : Category → Text
  | missingSemicolon =>
    "In Java, every statement must end with a semicolon (;). This is different from "
      ++ "some other languages."
  | unclosedBrace =>
    "Every opening brace \x7b must have a matching closing brace \x7d. Check your "
      ++ "class and method definitions."
  | unclosedParen =>
    "Every opening parenthesis ( must have a matching closing parenthesis )."
  | invalidAssignmentTarget =>
    "The left side of an assignment (=) must be a single variable name. Expressions "
      ++ "like x + 1 cannot be assigned to."
  | undeclaredVariable =>
    "You must declare a variable with its type (e.g., int x;) before you can use or assign to it."
  | typeMismatch =>
    "Java is strongly typed. You cannot assign a value of one type to a variable of "
      ++ "an incompatible type without casting."
  | duplicateDeclaration =>
    "This variable name is already declared in this scope. Each variable can only be "
      ++ "declared once."
  | assignToFinal =>
    "Variables declared with the final keyword are constants and cannot be "
      ++ "reassigned after initialization."
  | missingType =>
    "Variable declarations in Java require a type (int, double, String, char, etc.) "
      ++ "before the variable name."
  | unexpectedToken =>
    "The parser encountered something it did not expect at this position. Check for "
      ++ "typos or missing syntax."
  | generalSyntax | other _ =>
    "There is a syntax error in this code. Review Java syntax rules for statements "
      ++ "and expressions."

end Category

/-! ### Classification -/

/-- Lower case, as far as it yields an ASCII letter: the ASCII capitals, and the dotted capital I
and the Kelvin sign, whose lower-case forms are ASCII. Every other character keeps to itself,
which no search for ASCII words can tell. -/
def Glyph.lower : Glyph → Glyph
  | .scalar c =>
    if c = '\u0130' then .scalar 'i'
    else if c = '\u212A' then .scalar 'k'
    else .scalar c.toLower
  | .stray b => .stray b

/-- The category of a syntax error: `expected` lists the spellings that would have been accepted,
none when nothing can start there. -/
def classify (expected : List Text) (message : Text) : Category :=
  let lowered := message.map Glyph.lower
  if expected.contains (";" : Text) then .missingSemicolon
  else if expected.contains ("\x7d" : Text) then .unclosedBrace
  else if expected.contains (")" : Text) then .unclosedParen
  else if expected.contains ("type" : Text) then .missingType
  else if Text.contains "left" lowered && Text.contains "assignment" lowered then
    .invalidAssignmentTarget
  else if expected.isEmpty then .unexpectedToken
  else .generalSyntax

end JavaPrimer
