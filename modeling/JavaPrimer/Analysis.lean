import JavaPrimer.Layout.Basic
import JavaPrimer.Parsing.Program
import JavaPrimer.Scope
import JavaPrimer.Token.Lexing

/-!
# Checking a source

A source is cut into tokens and parsed; its scopes are checked only when there is no syntax
error. Lexical errors do not stand in the way of that.

Definitions:
- `Mode`: a full program or bare statements.
- `Analysis`, `analyze`: the tree with lexical and syntax diagnostics kept apart.
- `Settings`, `Settings.ofList`, `Settings.check`: the settings of a check and its outcome.
- `hasSyntaxErrors`: lexical or syntax errors alone.
- `reformat`: the canonical layout of a source without such errors.
-/

namespace JavaPrimer

/-! ### Modes -/

/-- How a source is read. -/
inductive Mode where
  | full
  | statements
deriving DecidableEq

namespace Mode

/-- The name of a mode. -/
def name : Mode → Text
  | full => "full"
  | statements => "statements"

/-- The mode with a name, exactly. -/
def ofName? (t : Text) : Option Mode :=
  if t = Mode.full.name then some full
  else if t = Mode.statements.name then some statements
  else none

/-- The mode with a name; any other name means a full program. -/
def ofName (t : Text) : Mode := (ofName? t).getD full

/-- The message for a name that no mode has. -/
def unknownMessage (t : Text) : Text :=
  "unknown mode " ++ t.quoted ++ " (want " ++ Mode.full.name.quoted ++ " or "
    ++ Mode.statements.name.quoted ++ ")"

end Mode

/-! ### Syntax -/

/-- A tree and what is wrong with its tokens and its syntax. -/
structure Analysis where
  root : Root
  lexical : List Diagnostic
  syntactic : List Diagnostic

/-- Parses tokens in a mode. -/
def parse (mode : Mode) (tokens : List Token) : Parsed :=
  match mode with
  | .full => parseProgram tokens
  | .statements => parseStatements tokens

/-- Cuts a source into tokens and parses them. -/
def analyze (mode : Mode) (source : Text) : Analysis :=
  let lexed := lex source
  let parsed := parse mode lexed.tokens
  ⟨parsed.root, lexed.diagnostics, parsed.diagnostics⟩

/-- The lexical and the syntax errors. -/
def Analysis.errors (a : Analysis) : List Diagnostic := a.lexical ++ a.syntactic

/-- Whether a source has lexical or syntax errors. -/
def hasSyntaxErrors (mode : Mode) (source : Text) : Bool := !(analyze mode source).errors.isEmpty

/-! ### Checks -/

/-- The settings of a check. -/
structure Settings where
  /-- Names that need no declaration, besides the built-in ones. -/
  extraBuiltins : List Text := []
  /-- The name of the source in reports. -/
  filename : Text := "<input>"

/-- One setting; names add up, of filenames the last one counts. -/
inductive Setting where
  | builtins (names : List Text)
  | filename (name : Text)

/-- Settings with one of them changed. -/
def Settings.apply (s : Settings) : Setting → Settings
  | .builtins names => { s with extraBuiltins := s.extraBuiltins ++ names }
  | .filename name => { s with filename := name }

/-- The settings after changes made in order. -/
def Settings.ofList (changes : List Setting) : Settings := changes.foldl Settings.apply {}

/-- The outcome of a check. -/
structure Outcome where
  root : Root
  errors : List Diagnostic

/-- Whether a check found nothing. -/
def Outcome.success (o : Outcome) : Bool := o.errors.isEmpty

/-- Every diagnostic of a source in the order of discovery. -/
def Settings.findings (s : Settings) (a : Analysis) : List Diagnostic :=
  if a.syntactic.isEmpty then a.errors ++ checkScopes s.extraBuiltins a.root else a.errors

/-- Checks a source; the diagnostics come by position. -/
def Settings.check (s : Settings) (mode : Mode) (source : Text) : Outcome :=
  let a := analyze mode source
  ⟨a.root, Diagnostic.sorted (s.findings a)⟩

/-! ### Layout of a source -/

/-- The canonical layout of a source, or its lexical and syntax errors by position. -/
def reformat (mode : Mode) (source : Text) : Except (List Diagnostic) Text :=
  let a := analyze mode source
  if a.errors.isEmpty then .ok a.root.layout else .error (Diagnostic.sorted a.errors)

/-- Diagnostics as the text of one error. -/
def errorText (ds : List Diagnostic) : Text :=
  List.intercalate (Text.ofString "; ") (ds.map Diagnostic.line)

end JavaPrimer
