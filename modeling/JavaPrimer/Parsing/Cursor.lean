import JavaPrimer.Diagnostic.Basic
import JavaPrimer.Token.Basic

/-!
# Reading tokens

A cursor stands before a token of a list. The tokens ahead are split at the first end of input
among them: the parser is done there, but nothing in a cursor keeps it from going on, so how far
a cursor reaches is a parameter. One that reaches over the whole list holds the tokens behind that
end of input as well; a short one does not.

A parse step takes a cursor and gives a value, the diagnostics it adds, and the cursor after it.

Definitions:
- `Reach`, `Cursor`: the tokens ahead, the last one consumed and the panic flag.
- `closedOff`, `Cursor.ofTokens`: the list that is read, and the cursor before its first token.
- `Cursor.ahead`, `Cursor.current`, `Cursor.advance`: looking and moving.
- `Cursor.spanSince`: the span from a start to the last token consumed.
- `Parse`: parse steps, a lawful monad whose diagnostics are an output and never an input.
- `whileMore`, `untilNone`: repetition, bounded by the tokens ahead.
- `spanned`: a node with the span of what was consumed for it.
-/

namespace JavaPrimer

/-- How far a cursor reaches. -/
inductive Reach where
  /-- Over the whole list. -/
  | whole
  /-- Up to the first end of input. -/
  | short
deriving DecidableEq

namespace Reach

/-- What is held of the tokens behind the first end of input. -/
def Held : Reach → Type
  | whole => List Token
  | short => Unit

/-- Holds as much of some tokens as the reach allows. -/
def hold : (ρ : Reach) → List Token → ρ.Held
  | whole, ts => ts
  | short, _ => ()

/-- The tokens that are held. -/
def tokens : {ρ : Reach} → ρ.Held → List Token
  | whole, ts => ts
  | short, _ => []

end Reach

/-- A place in a token stream. -/
structure Cursor (ρ : Reach := .short) where
  /-- The last token consumed. -/
  last : Option Token
  /-- The tokens ahead, up to the first end of input. -/
  rest : List Token
  /-- The first end of input. -/
  stop : Token
  /-- What is held of the tokens behind it. -/
  behind : ρ.Held
  /-- Set by a syntax error until the parser has found a place to resume; errors raised
  meanwhile are dropped. -/
  panicking : Bool

variable {ρ : Reach}

/-- The end of input that a list of tokens without one gets. -/
def Cursor.impliedEnd (tokens : List Token) : Token :=
  .endOfInput ((tokens.getLast?.map fun t => t.span.stop).getD .origin)

/-- The list of tokens that is read: with an end of input, unless the last token is one. -/
def closedOff (tokens : List Token) : List Token :=
  if tokens.getLast?.any (·.kind = .eof) then tokens else tokens ++ [Cursor.impliedEnd tokens]

/-- The `i`-th token of a list, or the last one if the list is shorter. -/
def nthOrLast : Token → List Token → Nat → Token
  | t, [], _ => t
  | t, _ :: _, 0 => t
  | _, u :: us, i + 1 => nthOrLast u us i

namespace Cursor

/-- A cursor before a token that others follow. Its end of input is the first one among them, or
the last token if there is none. -/
def before (last : Option Token) (panicking : Bool) : Token → List Token → Cursor ρ
  | t, [] => ⟨last, [], t, ρ.hold [], panicking⟩
  | t, u :: us =>
    if t.kind = .eof then ⟨last, [], t, ρ.hold (u :: us), panicking⟩
    else
      let later : Cursor ρ := before last panicking u us
      { later with rest := t :: later.rest }

/-- A cursor before the first token of the list that is read. -/
def ofTokens (tokens : List Token) : Cursor ρ :=
  before none false ((closedOff tokens).headD (impliedEnd tokens)) (closedOff tokens).tail

/-- The `i`-th token ahead; the last one of the list repeats. -/
def ahead (i : Nat) (c : Cursor ρ) : Token :=
  c.rest.getD i (nthOrLast c.stop (Reach.tokens c.behind) (i - c.rest.length))

/-- The token that comes next. -/
def current (c : Cursor ρ) : Token := c.ahead 0

/-- The kind of the token that comes next. -/
def kind (c : Cursor ρ) : Kind := c.current.kind

/-- Whether the end of input comes next. -/
def atEnd (c : Cursor ρ) : Bool := c.rest.isEmpty

/-- Consumes one token, if another one is behind it. -/
def advance (c : Cursor ρ) : Cursor ρ :=
  match c.rest with
  | t :: rest => { c with last := some t, rest := rest }
  | [] => match Reach.tokens c.behind with
    | [] => c
    | t :: ts => before (some c.stop) c.panicking t ts

theorem current_cons {c : Cursor ρ} {t : Token} {ts : List Token} (h : c.rest = t :: ts) :
    c.current = t := by
  simp [current, ahead, h]

/-- At the end of input the next token is that end, whatever stands behind it. -/
theorem current_nil {c : Cursor ρ} (h : c.rest = []) : c.current = c.stop := by
  unfold current ahead
  rw [h]
  cases Reach.tokens c.behind <;> rfl

theorem advance_cons {c : Cursor ρ} {t : Token} {ts : List Token} (h : c.rest = t :: ts) :
    c.advance = { c with last := some t, rest := ts } := by
  unfold advance
  rw [h]

/-! A short cursor stays at the end of input. -/

theorem ahead_short (i : Nat) (c : Cursor) : c.ahead i = c.rest.getD i c.stop := rfl

theorem advance_nil {c : Cursor} (h : c.rest = []) : c.advance = c := by
  unfold advance
  rw [h]
  rfl

@[simp] theorem rest_advance (c : Cursor) : c.advance.rest = c.rest.tail := by
  cases h : c.rest with
  | nil => rw [advance_nil h, h, List.tail_nil]
  | cons t ts => rw [advance_cons h, List.tail_cons]

@[simp] theorem stop_advance (c : Cursor) : c.advance.stop = c.stop := by
  cases h : c.rest with
  | nil => rw [advance_nil h]
  | cons t ts => rw [advance_cons h]

@[simp] theorem panicking_advance (c : Cursor) : c.advance.panicking = c.panicking := by
  cases h : c.rest with
  | nil => rw [advance_nil h]
  | cons t ts => rw [advance_cons h]

/-- Whether the next token is the first on its line. -/
def atLineStart (c : Cursor ρ) : Bool :=
  c.last.any fun t => t.span.stop.line < c.current.span.start.line

/-- From a start to the last token consumed, or just the start when nothing was consumed
since. -/
def spanSince (start : Span) (c : Cursor ρ) : Span :=
  match c.last with
  | some t => if t.span.startsBefore start then start else start.through t.span
  | none => start

/-- Consumes tokens until `halt` holds or the input ends. -/
def skipTo (halt : Cursor ρ → Bool) (c : Cursor ρ) : Cursor ρ :=
  loop c.last c.rest
where
  /-- Skips among the tokens given. -/
  loop (last : Option Token) : List Token → Cursor ρ
    | [] => { c with last := last, rest := [] }
    | t :: rest =>
      let here := { c with last := last, rest := t :: rest }
      if halt here then here else loop (some t) rest

end Cursor

/-! ### Parse steps -/

/-- The outcome of a parse step. -/
structure Step (ρ : Reach) (α : Type) where
  value : α
  diagnostics : List Diagnostic
  cursor : Cursor ρ

/-- A parse step. -/
def Parse (ρ : Reach) (α : Type) := Cursor ρ → Step ρ α

namespace Parse

/-- Consumes nothing and reports nothing. -/
def pure {α : Type} (a : α) : Parse ρ α := fun c => ⟨a, [], c⟩

/-- One step after another; the diagnostics of the first come first. -/
def bind {α β : Type} (p : Parse ρ α) (f : α → Parse ρ β) : Parse ρ β := fun c =>
  let first := p c
  let second := f first.value first.cursor
  ⟨second.value, first.diagnostics ++ second.diagnostics, second.cursor⟩

instance : Monad (Parse ρ) where
  pure := pure
  bind := bind

@[simp] theorem pure_apply {α : Type} (a : α) (c : Cursor ρ) :
    (Pure.pure a : Parse ρ α) c = ⟨a, [], c⟩ := rfl

@[simp] theorem bind_apply {α β : Type} (p : Parse ρ α) (f : α → Parse ρ β) (c : Cursor ρ) :
    (p >>= f) c
      = ⟨(f (p c).value (p c).cursor).value,
          (p c).diagnostics ++ (f (p c).value (p c).cursor).diagnostics,
          (f (p c).value (p c).cursor).cursor⟩ := rfl

@[simp] theorem map_apply {α β : Type} (f : α → β) (p : Parse ρ α) (c : Cursor ρ) :
    (f <$> p) c = ⟨f (p c).value, (p c).diagnostics, (p c).cursor⟩ := by
  show (p >>= fun a => Pure.pure (f a)) c = _
  rw [bind_apply, pure_apply, List.append_nil]

/-- Steps can be regrouped, since the diagnostics of what comes first come first either way. -/
instance : LawfulMonad (Parse ρ) := LawfulMonad.mk' (Parse ρ)
  (fun p => by
    funext c
    rw [map_apply, id_eq])
  (fun _ _ => rfl)
  (fun p f g => by
    funext c
    simp only [bind_apply, List.append_assoc])

/-- Looks at the cursor. -/
def look {α : Type} (f : Cursor ρ → α) : Parse ρ α := fun c => ⟨f c, [], c⟩

/-- Moves the cursor. -/
def move (f : Cursor ρ → Cursor ρ) : Parse ρ Unit := fun c => ⟨(), [], f c⟩

/-- Consumes one token and gives it. -/
def advance : Parse ρ Token := fun c => ⟨c.current, [], c.advance⟩

/-- Adds a diagnostic. -/
def emit (d : Diagnostic) : Parse ρ Unit := fun c => ⟨(), [d], c⟩

/-- A step together with the diagnostics it adds. -/
def listen {α : Type} (p : Parse ρ α) : Parse ρ (α × List Diagnostic) := fun c =>
  let s := p c
  ⟨(s.value, s.diagnostics), s.diagnostics, s.cursor⟩

/-- Whether an error has not been recovered from. -/
def panicking : Parse ρ Bool := look Cursor.panicking

/-- Ends the panic. -/
def calm : Parse ρ Unit := move fun c => { c with panicking := false }

/-- A node with the span from the next token to the last one consumed for it. -/
def spanned {α : Type} (node : Parse ρ (Span → α)) : Parse ρ α := do
  let start ← look fun c => c.current.span
  let build ← node
  let span ← look (Cursor.spanSince start)
  return build span

/-! ### Repetition -/

/-- Repeats `item` while `more` holds, at most `n` times, and keeps the values that are there. -/
def collect {α : Type} (more : Cursor ρ → Bool) (item : Parse ρ (Option α)) : Nat → Parse ρ (List α)
  | 0 => pure []
  | n + 1 => do
    if ← look more then
      let x ← item
      let xs ← collect more item n
      return x.toList ++ xs
    else return []

/-- Repeats `item` while `more` holds. An item that consumes a token each time is repeated as
often as it can be, since the tokens ahead are as many. -/
def whileMore {α : Type} (more : Cursor ρ → Bool) (item : Parse ρ (Option α)) : Parse ρ (List α) :=
  fun c => collect more item c.rest.length c

/-- Repeats `item` until it gives nothing, at most `n` times. -/
def collectUntil {α : Type} (item : Parse ρ (Option α)) : Nat → Parse ρ (List α)
  | 0 => pure []
  | n + 1 => do
    match ← item with
    | some x =>
      let xs ← collectUntil item n
      return x :: xs
    | none => return []

/-- Repeats `item` until it gives nothing. An item that consumes a token whenever it gives
something is repeated as often as it can be. -/
def untilNone {α : Type} (item : Parse ρ (Option α)) : Parse ρ (List α) :=
  fun c => collectUntil item (c.rest.length + 1) c

end Parse

end JavaPrimer
