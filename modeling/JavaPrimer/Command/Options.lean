import JavaPrimer.Analysis

/-!
# Options of the command line

Definitions:
- `Options`, `Options.ofArgs`: the options that the commands share.
- `OptionError`, `OptionError.message`: what is wrong with them.
- `flagValue`, `hasFlag`: single flags of a recorded command line.
-/

namespace JavaPrimer

/-- The options that the commands share; no file is an empty name. -/
structure Options where
  file : Text := []
  mode : Mode := .full
  pretty : Bool := false
  write : Bool := false
deriving DecidableEq

/-- What is wrong with a command line. -/
inductive OptionError where
  | modeNeedsValue
  | unknownMode (name : Text)
  | unknownFlag (flag : Text)
deriving DecidableEq

/-- The text of an error. -/
def OptionError.message : OptionError → Text
  | modeNeedsValue => "--mode needs a value"
  | unknownMode name => Mode.unknownMessage name
  | unknownFlag flag => "unknown flag " ++ flag

/-- The flag that chooses the mode. -/
def modeFlag : Text := "--mode"

/-- The mode flag and its value in one argument. -/
def modeValue? (arg : Text) : Option Text :=
  if (modeFlag ++ "=").isPrefixOf arg then some (arg.drop (modeFlag.length + 1)) else none

/-- Whether an argument names a file: anything but a flag, and the mark for standard input. -/
def isFileArg (arg : Text) : Bool :=
  arg == ("-" : Text) || arg.head? != some (Glyph.scalar '-')

/-- Options with a mode by its name. -/
def Options.withMode (o : Options) (name : Text) : Except OptionError Options :=
  match Mode.ofName? name with
  | some m => .ok { o with mode := m }
  | none => .error (.unknownMode name)

/-- Options with arguments read from left to right; of repeated ones the last counts. -/
def Options.read (o : Options) : List Text → Except OptionError Options
  | [] => .ok o
  | arg :: rest =>
    if arg = "--pretty" then Options.read { o with pretty := true } rest
    else if arg = "--write" then Options.read { o with write := true } rest
    else if arg = modeFlag then
      match rest with
      | [] => .error .modeNeedsValue
      | name :: more => do
        let o ← o.withMode name
        Options.read o more
    else match modeValue? arg with
      | some name => do
        let o ← o.withMode name
        Options.read o rest
      | none =>
        if isFileArg arg then Options.read { o with file := arg } rest
        else .error (.unknownFlag arg)

/-- The options of a command line. -/
def Options.ofArgs (args : List Text) : Except OptionError Options := Options.read {} args

/-- Whether a command line chooses a mode. -/
def choosesMode (args : List Text) : Bool :=
  args.any fun a => a == modeFlag || (modeValue? a).isSome

/-! ### Single flags -/

/-- The argument after the first flag with a name that has one; empty without. -/
def flagValue (name : Text) : List Text → Text
  | arg :: value :: rest => if arg = name then value else flagValue name (value :: rest)
  | _ => []

/-- Whether a flag is there. -/
def hasFlag (name : Text) (args : List Text) : Bool := args.contains name

end JavaPrimer
