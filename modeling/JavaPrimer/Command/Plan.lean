import JavaPrimer.Command.Options
import JavaPrimer.Command.Repl
import JavaPrimer.FileTree
import JavaPrimer.Grammar.Java
import JavaPrimer.Reference
import JavaPrimer.Layout.Comments

/-!
# The commands

A command line means a plan: what to read, and what to answer to what was read. A plan can
be carried out over files that are a value as well as over those of a computer.

Definitions:
- `Answer`: what a command prints, writes and exits with.
- `Plan`, `Plan.ofArgs`: the plans and the one a command line means.
- `Plan.run`, `runCommand`: a plan over files that are a value.
-/

namespace JavaPrimer

/-- What a command brings about. -/
structure Answer where
  exitCode : Nat
  stdout : Text := []
  stderr : Text := []
  /-- The path and the new content of a file to write. -/
  write : Option (Text × Text) := none

/-- What a command does. -/
inductive Plan where
  /-- Answers at once. -/
  | finish (answer : Answer)
  /-- Reads a file first. -/
  | readFile (path : Text) (next : Except FileFault Text → Plan)
  /-- Reads standard input first. -/
  | readInput (next : Text → Plan)
  /-- Holds a conversation. -/
  | converse (mode : Mode)

namespace Plan

/-! ### Answers -/

/-- Complains in the lines given. -/
def complain (lines : List Text) : Plan := .finish { exitCode := 1, stderr := linesText lines }

/-- Reports diagnostics. -/
def reported (filename : Text) (pretty : Bool) (ds : List Diagnostic) (stdout : Text) : Answer :=
  { exitCode := 2, stdout := stdout, stderr := (Diagnostic.report filename pretty ds).asLine }

/-- Reads a source by the name given on the command line and goes on with its name in reports
and its text. -/
def withSource (file : Text) (next : Text → Text → Answer) : Plan :=
  if file = "-" then .readInput fun source => .finish (next "<stdin>" source)
  else .readFile file fun
    | .ok source => .finish (next file source)
    | .error fault =>
      complain ["cannot read file " ++ file ++ ": " ++ fault.message file]

/-! ### Commands -/

/-- How to use the check command. -/
def checkUsage : Text := "usage: javacheck check <file|-> [--mode full|statements] [--pretty]"

/-- Checks a source. -/
def checkAnswer (o : Options) (filename source : Text) : Answer :=
  let settings : Settings := { filename := filename }
  let outcome := settings.check o.mode source
  if outcome.success then
    { exitCode := 0, stdout := if o.pretty then "No errors found.\n" else "[]\n" }
  else reported filename o.pretty outcome.errors []

/-- The check command. -/
def check (args : List Text) : Plan :=
  match Options.ofArgs args with
  | .error e => complain [e.message, checkUsage]
  | .ok o => if o.file.isEmpty then complain [checkUsage] else withSource o.file (checkAnswer o)

/-- A token in a listing. -/
def tokenJson (t : Token) : Json :=
  .object [("type", .string t.kind.name), ("value", .string t.value),
    ("line", .int t.span.start.line), ("column", .int t.span.start.column)]

/-- Lists the tokens of a source. -/
def tokensAnswer (o : Options) (filename source : Text) : Answer :=
  let lexed := lex source
  let listing := ((Json.array (lexed.tokens.map tokenJson)).indented 0).asLine
  if lexed.diagnostics.isEmpty then { exitCode := 0, stdout := listing }
  else reported filename o.pretty lexed.diagnostics listing

/-- A command that wants a file and does not say what is wrong with its options. -/
def onFile (usage : Text) (answer : Options → Text → Text → Answer) (args : List Text) : Plan :=
  match Options.ofArgs args with
  | .error _ => complain [usage]
  | .ok o => if o.file.isEmpty then complain [usage] else withSource o.file (answer o)

/-- The tokens command. -/
def tokens : List Text → Plan := onFile "usage: javacheck tokens <file|->" tokensAnswer

/-- The warning for comments that a layout drops. -/
def commentWarning : Text := "warning: comments are not preserved by the formatter\n"

/-- Lays out a source, or writes the layout in its place. -/
def formatAnswer (o : Options) (filename source : Text) : Answer :=
  match reformat o.mode source with
  | .error ds => reported filename o.pretty ds []
  | .ok layout =>
    let warning := if containsComment source then commentWarning else []
    if o.write && o.file != ("-" : Text) then
      { exitCode := 0, stderr := warning, write := some (o.file, layout) }
    else { exitCode := 0, stdout := layout, stderr := warning }

/-- The format command. -/
def format : List Text → Plan :=
  onFile "usage: javacheck fmt <file|-> [--mode full|statements] [--write]" formatAnswer

/-- The conversation command; its mode is for statements unless one is chosen. -/
def repl (args : List Text) : Plan :=
  match Options.ofArgs args with
  | .error e => complain [e.message, "usage: javacheck repl [--mode full|statements]"]
  | .ok o => .converse (if choosesMode args then o.mode else .statements)

/-- The last argument that is no flag. -/
def helpTopic (args : List Text) : Text :=
  args.foldl (fun topic a => if a.head? = some (Glyph.scalar '-') then topic else a) []

/-- The help command. -/
def help (args : List Text) : Plan :=
  let topic := helpTopic args
  if topic.isEmpty then .finish { exitCode := 0, stdout := quickReference }
  else match Topic.find topic with
    | .ok t => .finish { exitCode := 0, stdout := t.text }
    | .error e => complain [e.message, "Available topics: " ++ topicNames Topic.all]

/-- The plan that a command line means. -/
def ofArgs : List Text → Plan
  | [] =>
    complain ["usage: javacheck <command> [options]",
      "commands: check, tokens, fmt, repl, grammar, help"]
  | name :: args =>
    if name = "check" then check args
    else if name = "tokens" then tokens args
    else if name = "fmt" then format args
    else if name = "repl" then repl args
    else if name = "grammar" then .finish { exitCode := 0, stdout := javaGrammar.text }
    else if name = "help" ∨ name = "--help" ∨ name = "-h" then help args
    else complain ["Unknown command: " ++ name]

/-! ### Carrying out a plan -/

/-- A conversation over the lines of an input. -/
def conversation (mode : Mode) (history : Except FileFault Text) (input : List UInt8) : Answer :=
  let kept : History := match history with
    | .ok content => .ofFile content
    | .error _ => []
  let start : Repl := { mode := mode, history := kept }
  let t := start.run ((inputLines input).map InputLine.text)
  { exitCode := 0, stdout := Repl.greeting mode ++ t.stdout, stderr := t.stderr,
    write := some (History.fileName, t.history.toFile) }

/-- A plan over files that are a value; the home directory is the working directory. -/
def run (input : List UInt8) (files : FileTree) : Plan → Answer
  | .finish a => a
  | .readFile path next => run input files (next (files.read path))
  | .readInput next => run input files (next (.ofBytes input))
  | .converse mode => conversation mode (files.read History.fileName) input

end Plan

/-- A command line over files that are a value: the answer, and the files after it. -/
def runCommand (args : List Text) (input : List UInt8) (files : FileTree) : Answer × FileTree :=
  let a := (Plan.ofArgs args).run input files
  (a, match a.write with
    | some (path, content) => files.write path content
    | none => files)

end JavaPrimer
