import JavaPrimer.Command.Options
import JavaPrimer.FileTree
import JavaPrimer.Json.Reader

/-!
# Scenarios

A scenario is a directory with a description of a command line and what is expected of it,
next to the program it is about. Descriptions are JSON; keys are found whatever the case of
their letters, `null` leaves a field as it is, and unknown keys are passed over.

Definitions:
- `ScenarioMeta`, `Expectation`, `Scenario`: the description.
- `Slots`: lists of texts, of which a later one is written over an earlier one.
- `Draft`, `Scenario.ofJson?`: a description from JSON, field by field.
- `ScenarioError`, `Scenario.load`: the scenario of a directory.
- `scenarioDirectories`: the directories that hold one.
- `Scenario.program`: the program a scenario is about.
-/

namespace JavaPrimer

/-- Notes about a scenario. -/
structure ScenarioMeta where
  description : Text
  tags : List Text

/-- What is expected of a command line. -/
structure Expectation where
  exitCode : Int := 0
  stdoutText : Text := []
  stderrContains : Text := []

/-- A command line and what is expected of it. -/
structure Scenario where
  command : List Text
  notes : Option ScenarioMeta
  expected : Expectation

/-! ### Descriptions -/

/-- The letter case that keys are compared in. -/
def foldCase : Glyph → Glyph
  | .scalar c =>
    if c = '\u017F' then .scalar 's' else if c = '\u212A' then .scalar 'k' else .scalar c.toLower
  | .stray b => .stray b

/-- Whether a key means a field. -/
def keyIs (field : Text) (key : Text) : Bool := key.map foldCase == field.map foldCase

/-- A text field. -/
def readText (old : Text) : Json → Option Text
  | .null => some old
  | .string t => some t
  | _ => none

/-- The value of a run of digits. -/
def digitsValue (ds : Text) : Nat :=
  ds.foldl (fun n g => n * 10 + (g.shown.toNat - '0'.toNat)) 0

/-- The value of an integer literal, if it has the form of one. -/
def integerValue? (literal : Text) : Option Int :=
  let (sign, ds) : Int × Text := match literal with
    | .scalar '-' :: rest => (-1, rest)
    | t => (1, t)
  if ds.all Glyph.isDigit then some (sign * digitsValue ds) else none

/-- Whether an integer fits in 64 bits. -/
def fitsWord (n : Int) : Bool := -9223372036854775808 ≤ n && n ≤ 9223372036854775807

/-- A number field: an integer of 64 bits. -/
def readInt (old : Int) : Json → Option Int
  | .null => some old
  | .number literal => do
    let n ← integerValue? literal
    if fitsWord n then some n else none
  | _ => none

/-- Reads the fields of an object one after another into a record. -/
def readFieldsInto {α : Type} (step : α → Text × Json → Option α) (old : α) : Json → Option α
  | .null => some old
  | .object fields => fields.foldlM step old
  | _ => none

/-- One field of the expectation. -/
def Expectation.step (e : Expectation) : Text × Json → Option Expectation
  | (key, v) =>
    if keyIs "exitCode" key then (readInt e.exitCode v).map ({ e with exitCode := · })
    else if keyIs "stdoutText" key then (readText e.stdoutText v).map ({ e with stdoutText := · })
    else if keyIs "stderrContains" key then
      (readText e.stderrContains v).map ({ e with stderrContains := · })
    else some e

/-! ### Lists written over lists -/

/-- Texts in numbered slots, the first `count` of them in use. A key may come more than once, and a
list that comes later is written into the same slots; a slot that falls out of use keeps its
text. -/
structure Slots where
  texts : List Text := []
  count : Nat := 0

namespace Slots

/-- The texts of the slots in use. -/
def inUse (s : Slots) : List Text := s.texts.take s.count

/-- Writes items into slots from the first on; a `null` leaves what is in its slot, which is an
empty text in a new one. -/
def fill : List Text → List Json → Option (List Text)
  | old, [] => some old
  | old, v :: rest => do
    let t ← readText (old.headD []) v
    let ts ← fill old.tail rest
    return t :: ts

/-- A field that lists texts; `null` and the empty list give up all slots. -/
def read (s : Slots) : Json → Option Slots
  | .null | .array [] => some {}
  | .array items => (fill s.texts items).map fun texts => ⟨texts, items.length⟩
  | _ => none

end Slots

/-! ### Drafts -/

/-- Notes while their fields are read. -/
structure NotesDraft where
  description : Text := []
  tags : Slots := {}

/-- A scenario while its fields are read. -/
structure Draft where
  command : Slots := {}
  notes : Option NotesDraft := none
  expected : Expectation := {}

/-- The notes of a draft. -/
def NotesDraft.finish (d : NotesDraft) : ScenarioMeta := ⟨d.description, d.tags.inUse⟩

/-- The scenario of a draft. -/
def Draft.finish (d : Draft) : Scenario :=
  ⟨d.command.inUse, d.notes.map NotesDraft.finish, d.expected⟩

/-- One field of the notes. -/
def NotesDraft.step (d : NotesDraft) : Text × Json → Option NotesDraft
  | (key, v) =>
    if keyIs "description" key then (readText d.description v).map ({ d with description := · })
    else if keyIs "tags" key then (d.tags.read v).map ({ d with tags := · })
    else some d

/-- One field of a scenario. -/
def Draft.step (d : Draft) : Text × Json → Option Draft
  | (key, v) =>
    if keyIs "cmd" key then (d.command.read v).map ({ d with command := · })
    else if keyIs "meta" key then
      match v with
      | .null => some { d with notes := none }
      | v => (readFieldsInto NotesDraft.step (d.notes.getD {}) v).map ({ d with notes := some · })
    else if keyIs "expect" key then
      (readFieldsInto Expectation.step d.expected v).map ({ d with expected := · })
    else some d

/-- The scenario that a JSON value describes. -/
def Scenario.ofJson? (v : Json) : Option Scenario :=
  (readFieldsInto Draft.step {} v).map Draft.finish

/-! ### Directories -/

/-- Why a directory gives no scenario. -/
inductive ScenarioError where
  /-- The description is no JSON, or not of the right shape. -/
  | malformed
  /-- The description cannot be read. -/
  | unreadable (path : Text) (fault : FileFault)
  /-- The command line has no file. -/
  | noFile (directory : Text)
deriving DecidableEq

/-- The text of an error. -/
def ScenarioError.message : ScenarioError → Text
  | malformed => "malformed scenario"
  | unreadable path fault => fault.message path
  | noFile directory => directory ++ ": cmd needs a command and a file"

/-- The name of the description in a directory. -/
def scenarioFile : Text := "scenario.json"

/-- The scenario of a directory. -/
def Scenario.load (files : FileTree) (directory : Text) : Except ScenarioError Scenario :=
  let path := Path.join directory scenarioFile
  match files.read path with
  | .error fault => .error (.unreadable path fault)
  | .ok content => match (Json.read? content).bind Scenario.ofJson? with
    | none => .error .malformed
    | some s => if s.command.length < 2 then .error (.noFile directory) else .ok s

/-- The directories below a root that hold a scenario, sorted by their bytes. -/
def scenarioDirectories (files : FileTree) (root : Text) : Except FileFault (List Text) := do
  match ← files.resolve root with
  | none => return []
  | some place =>
    let here := files.standing root
    if here.isDirectory place then
      let holding := (here.subdirectories place).filter fun name =>
        (files.resolve (Path.join (Path.join root name) scenarioFile)).isOk
      return (holding.map (Path.join root)).mergeSort Text.bytesLE
    else .error .notDirectory

/-- The name and the text of the program that a scenario is about. -/
def Scenario.program (s : Scenario) (files : FileTree) (directory : Text) :
    Except FileFault (Text × Text) := do
  let name := s.command.getD 1 []
  let source ← files.read (Path.join directory name)
  return (name, source)

end JavaPrimer
