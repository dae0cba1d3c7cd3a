import JavaPrimer.Text.Basic

/-!
# Positions and spans

Lines and columns count from one; a column is one glyph. A span ends one past its last
glyph.

Definitions:
- `Position`, `Position.after`, `Position.advance`: a place in a text and how reading moves it.
- `Span`, `Span.through`, `Span.point`, `Span.startsBefore`: a range of a text.
-/

namespace JavaPrimer

/-- A place in a text. -/
structure Position where
  line : Int
  column : Int
deriving DecidableEq

namespace Position

/-- The place of the first glyph of a text. -/
def origin : Position := ⟨1, 1⟩

/-- The place after one glyph: a line feed opens a new line. -/
def after (p : Position) (g : Glyph) : Position :=
  if g = '\n' then ⟨p.line + 1, 1⟩ else ⟨p.line, p.column + 1⟩

/-- The place after a whole text. -/
def advance (p : Position) (t : Text) : Position :=
  t.foldl after p

/-- The order of reading: by line, then by column. -/
def before (p q : Position) : Bool :=
  p.line < q.line || (p.line == q.line && p.column < q.column)

@[simp] theorem advance_nil (p : Position) : p.advance [] = p := rfl

@[simp] theorem advance_append (p : Position) (s t : Text) :
    p.advance (s ++ t) = (p.advance s).advance t :=
  List.foldl_append

end Position

/-- A range of a text; `stop` is one past its last glyph. -/
structure Span where
  start : Position
  stop : Position
deriving DecidableEq

namespace Span

/-- The empty range at a place. -/
def point (p : Position) : Span := ⟨p, p⟩

/-- The span of something that was never located. -/
def nowhere : Span := ⟨⟨0, 0⟩, ⟨0, 0⟩⟩

/-- From the start of one span to the end of another. -/
def through (s e : Span) : Span := ⟨s.start, e.stop⟩

/-- Whether a span starts before another one does. -/
def startsBefore (s t : Span) : Bool := s.start.before t.start

end Span

end JavaPrimer
