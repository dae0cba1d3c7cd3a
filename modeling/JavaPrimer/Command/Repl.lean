import JavaPrimer.Analysis
import JavaPrimer.Command.Lines
import JavaPrimer.Text.Blank

/-!
# Conversations

A conversation reads lines, joins them to entries whose braces and parentheses are closed,
and answers each entry: with the outcome of a check, or by following a command that starts
with a colon. What was entered is kept as a history.

Definitions:
- `History`: the entries kept, and the file they are kept in.
- `Repl`, `Reply`: the state of a conversation and what a line brings about.
- `Repl.answer`, `Repl.feed`: an entry, and one line of one.
- `Repl.run`, `Transcript`: a conversation over all lines of an input.
-/

namespace JavaPrimer

/-! ### History -/

/-- The entries kept, oldest first. -/
abbrev History := List Text

namespace History

/-- The most entries that are kept. -/
def limit : Nat := 1000

/-- Adds an entry and drops the oldest ones over the limit. -/
def push (h : History) (entry : Text) : History :=
  let longer := h ++ [entry]
  longer.drop (longer.length - limit)

/-- Adds an entry, unless it repeats the last one. -/
def remember (h : History) (entry : Text) : History :=
  if h.getLast? = some entry then h else h.push entry

/-- Whether a line of a history file can be an entry. -/
def isEntry (l : InputLine) : Bool :=
  !l.isPiece && l.text.all fun g => g.satisfies fun _ => true

/-- The history in a file, up to the first line that cannot be an entry. -/
def ofFile (content : Text) : History :=
  (((inputLines content.toBytes).takeWhile isEntry).map InputLine.text).foldl push []

/-- The file for a history, one entry a line. -/
def toFile (h : History) : Text := h.flatMap Text.asLine

/-- The name of the file in the home directory. -/
def fileName : Text := ".javacheck_history"

end History

/-! ### Entries -/

/-- The state of a conversation. -/
structure Repl where
  mode : Mode
  /-- The lines of an entry that is not closed yet. -/
  pending : List Text := []
  history : History := []

/-- What a line brings about. -/
structure Reply where
  state : Repl
  stdout : Text := []
  stderr : Text := []
  finished : Bool := false

/-- The settings of the checks in a conversation. -/
def replSettings : Settings := { filename := "<repl>" }

namespace Repl

/-- The greeting. -/
def greeting (mode : Mode) : Text :=
  "javacheck repl (mode " ++ mode.name ++ "). Type :mode full|statements or :quit.\n"

/-- The prompt for the next line. -/
def prompt (r : Repl) : Text := if r.pending.isEmpty then "java> " else "  ... "

/-- Follows a command, given as its words. -/
def command (r : Repl) (words : List Text) : Reply :=
  match words with
  | [] => { state := r }
  | word :: rest =>
    if word = ":quit" ∨ word = ":q" then { state := r, finished := true }
    else if word = ":mode" then
      match rest with
      | [] => { state := r, stdout := ("mode is " ++ r.mode.name).asLine }
      | name :: _ => match Mode.ofName? name with
        | some m => { state := { r with mode := m } }
        | none => { state := r, stderr := (Mode.unknownMessage name).asLine }
    else { state := r, stdout := "unknown command. Type :mode or :quit.\n" }

/-- The outcome of a check as it is shown. -/
def outcomeText (mode : Mode) (entry : Text) : Text :=
  let o := replSettings.check mode entry
  if o.success then "ok\n" else (Diagnostic.report replSettings.filename true o.errors).asLine

/-- A space for a line feed. -/
def blankLineFeed (g : Glyph) : Glyph := if g = '\n' then .scalar ' ' else g

/-- Answers a whole entry; a blank one changes nothing. -/
def answer (r : Repl) (entry : Text) : Reply :=
  let trimmed := entry.trim
  if trimmed.isEmpty then { state := r }
  else
    let onOneLine := entry.map blankLineFeed
    let r := { r with history := r.history.remember onOneLine }
    if trimmed.head? = some (Glyph.scalar ':') then r.command trimmed.fields
    else { state := r, stdout := outcomeText r.mode entry }

/-- Takes one line: it closes an entry, which is answered, or waits for more. -/
def feed (r : Repl) (line : Text) : Reply :=
  let lines := r.pending ++ [line]
  let entry := List.intercalate (Text.ofString "\n") lines
  if unclosedDepth entry ≤ 0 then answer { r with pending := [] } entry
  else { state := { r with pending := lines } }

end Repl

/-! ### Whole conversations -/

/-- What a conversation printed, and the history after it. -/
structure Transcript where
  stdout : Text
  stderr : Text
  history : History

/-- A conversation over lines of input; the end of input ends it with an empty line. -/
def Repl.run (r : Repl) : List Text → Transcript
  | [] => ⟨r.prompt ++ "\n", [], r.history⟩
  | line :: rest =>
    let reply := r.feed line
    if reply.finished then ⟨r.prompt ++ reply.stdout, reply.stderr, reply.state.history⟩
    else
      let later := Repl.run reply.state rest
      ⟨r.prompt ++ reply.stdout ++ later.stdout, reply.stderr ++ later.stderr, later.history⟩

end JavaPrimer
