import JavaPrimer.Text.Basic

/-!
# Reading lines of input

Input is read line by line through a buffer of fixed size. A line feed ends a line, with a
carriage return before it if there is one; a line that does not fit in the buffer comes in
pieces.

Definitions:
- `InputLine`, `nextLine`: the next line or piece and what is left.
- `inputLines`: all lines and pieces of an input.
-/

namespace JavaPrimer

/-- The size of the buffer in bytes. -/
def lineLimit : Nat := 4096

/-- A line of input, or a piece of one. -/
structure InputLine where
  bytes : List UInt8
  isPiece : Bool
deriving DecidableEq

/-- The text of a line. -/
def InputLine.text (l : InputLine) : Text := .ofBytes l.bytes

/-- A line without the carriage return at its end. -/
def dropReturn (bs : List UInt8) : List UInt8 := if bs.getLast? = some 13 then bs.dropLast else bs

/-- The next line and what is left. A piece never ends in a carriage return: that is left for the
next one. -/
def nextLine (bs : List UInt8) : InputLine × List UInt8 :=
  let line := bs.takeWhile (· ≠ 10)
  if line.length < lineLimit then
    match bs.drop line.length with
    | [] => (⟨line, false⟩, [])
    | _ :: rest => (⟨dropReturn line, false⟩, rest)
  else
    let piece := dropReturn (bs.take lineLimit)
    (⟨piece, true⟩, bs.drop piece.length)

theorem length_dropReturn (bs : List UInt8) : bs.length ≤ (dropReturn bs).length + 1 := by
  unfold dropReturn
  split
  · simp only [List.length_dropLast]
    omega
  · exact Nat.le_succ _

theorem length_nextLine_lt (b : UInt8) (bs : List UInt8) :
    (nextLine (b :: bs)).2.length < (b :: bs).length := by
  unfold nextLine
  dsimp only
  split
  · split
    · simp
    · rename_i h
      have := congrArg List.length h
      simp only [List.length_drop, List.length_cons] at this ⊢
      omega
  · rename_i h
    have hl : lineLimit ≤ (b :: bs).length :=
      Nat.le_trans (Nat.not_lt.1 h) (List.takeWhile_prefix _).length_le
    have hp := length_dropReturn ((b :: bs).take lineLimit)
    rw [List.length_take_of_le hl] at hp
    have : lineLimit = 4096 := rfl
    simp only [List.length_drop, List.length_cons]
    omega

/-- All lines and pieces of an input. -/
def inputLines : List UInt8 → List InputLine
  | [] => []
  | b :: bs => (nextLine (b :: bs)).1 :: inputLines (nextLine (b :: bs)).2
termination_by bs => bs.length
decreasing_by exact length_nextLine_lt b bs

end JavaPrimer
