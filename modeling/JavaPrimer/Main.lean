import JavaPrimer.Command.Plan

/-!
# The command line

Carries out plans over the files of the computer. Everything that is decided is decided by
the plans.
-/

namespace JavaPrimer

/-- A text as a string; a stray byte becomes the replacement character. -/
def Text.toShown (t : Text) : String := String.ofList (t.map Glyph.shown)

/-- Writes a text to a stream, byte by byte. -/
def Text.put (t : Text) (stream : IO.FS.Stream) : IO Unit := do
  stream.write (ByteArray.mk t.toBytes.toArray)
  stream.flush

/-- The bytes of a file, or why it could not be read. A path that is not one of directories fails
when it is opened, and that error names it; a directory fails only when it is read. -/
def readPath (path : Text) : IO (Except FileFault Text) := do
  try
    let bytes ← IO.FS.readBinFile path.toShown
    return .ok (.ofBytes bytes.toList)
  catch e =>
    match e with
    | .noFileOrDirectory .. => return .error .missing
    | .inappropriateType (some _) .. => return .error .notDirectory
    | .invalidArgument .. => return .error .nameTooLong
    | _ => return .error .isDirectory

/-- Writes a file and says whether that was possible. -/
def writePath (path content : Text) : IO Bool := do
  try
    IO.FS.writeBinFile path.toShown (ByteArray.mk content.toBytes.toArray)
    return true
  catch _ => return false

/-- Reads a stream to its end. -/
partial def readAll (stream : IO.FS.Stream) (read : ByteArray) : IO ByteArray := do
  let more ← stream.read 65536
  if more.isEmpty then return read else readAll stream (read ++ more)

/-- Reads on until a line or a piece of one is in the buffer, or the input ends. -/
partial def fillBuffer (stream : IO.FS.Stream) (buffer : List UInt8) : IO (List UInt8) := do
  if buffer.contains 10 || lineLimit ≤ buffer.length then return buffer
  else
    let more ← stream.read 1
    if more.isEmpty then return buffer else fillBuffer stream (buffer ++ more.toList)

/-- Answers lines until the input ends or the conversation is over; `buffer` was read already. -/
partial def converse (r : Repl) (input output errors : IO.FS.Stream) (buffer : List UInt8) :
    IO History := do
  r.prompt.put output
  let buffer ← fillBuffer input buffer
  if buffer.isEmpty then
    Text.put "\n" output
    return r.history
  else
    let (line, rest) := nextLine buffer
    let reply := r.feed line.text
    reply.stdout.put output
    reply.stderr.put errors
    if reply.finished then return reply.state.history
    else converse reply.state input output errors rest

/-- The path of the history file. -/
def historyPath : IO Text := do
  let home ← IO.getEnv "HOME"
  return Path.join (Text.ofString (home.getD "")) History.fileName

/-- Holds a conversation and keeps its history. -/
def holdConversation (mode : Mode) : IO UInt32 := do
  let output ← IO.getStdout
  (Repl.greeting mode).put output
  let path ← historyPath
  let kept : History := match ← readPath path with
    | .ok content => .ofFile content
    | .error _ => []
  let start : Repl := { mode := mode, history := kept }
  let history ← converse start (← IO.getStdin) output (← IO.getStderr) []
  let _ ← writePath path history.toFile
  return 0

/-- Carries out a plan. -/
def perform : Plan → IO UInt32
  | .finish a => do
    a.stdout.put (← IO.getStdout)
    a.stderr.put (← IO.getStderr)
    match a.write with
    | none => return UInt32.ofNat a.exitCode
    | some (path, content) =>
      if ← writePath path content then return UInt32.ofNat a.exitCode
      else
        ("error writing file: " ++ path).asLine.put (← IO.getStderr)
        return 1
  | .readFile path next => do perform (next (← readPath path))
  | .readInput next => do
    let bytes ← readAll (← IO.getStdin) ByteArray.empty
    perform (next (.ofBytes bytes.toList))
  | .converse mode => holdConversation mode

end JavaPrimer

/-- The command line. -/
def main (args : List String) : IO UInt32 :=
  JavaPrimer.perform (JavaPrimer.Plan.ofArgs (args.map JavaPrimer.Text.ofString))
