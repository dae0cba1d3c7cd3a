import JavaPrimer.Parsing.Complaint

/-!
# Recovery

After an error the parser skips to a place where it can resume, so that one run finds every
independent problem. Where a construct can start is decided by the next tokens alone.

Definitions:
- `Cursor.startsType`, `Cursor.startsVarDecl`, `Cursor.startsExpression`,
  `Cursor.startsStatement`, `Cursor.startsMember`, `Cursor.startsClass`,
  `Cursor.startsPrint`, `Cursor.startsMain`, `Cursor.startsCast`: what can start here.
- `Cursor.endStatement`, `Cursor.endMember`, `Cursor.endClass`: the three ways to skip.
- `Parse.settle`, `Parse.nudge`, `Parse.recovering`: one construct with its recovery,
  consuming at least one token.
-/

namespace JavaPrimer

variable {ρ : Reach}

/-- Kinds of token that an expression can start with. -/
def Kind.startsExpression (k : Kind) : Bool :=
  (UnaryOp.ofKind? k).isSome || (LiteralSort.ofKind? k).isSome
    || k == .lparen || k == .ident || k == .kwNew

/-- Kinds of token that a local declaration can start with. -/
def Kind.startsVarDecl (k : Kind) : Bool :=
  k == .kwFinal || k.isTypeWord

/-- Kinds of token that a statement can start with. -/
def Kind.startsStatement (k : Kind) : Bool :=
  k.startsVarDecl || k.startsExpression || k == .lbrace

/-- Modifiers of a field. -/
def Kind.isModifier (k : Kind) : Bool :=
  k == .kwPublic || k == .kwStatic || k == .kwFinal

/-- Kinds of token that a class member can start with. -/
def Kind.startsMember (k : Kind) : Bool :=
  k.isModifier || k.isTypeWord

namespace Cursor

/-- `public class`. -/
def startsClass (c : Cursor ρ) : Bool :=
  c.kind == .kwPublic && (c.ahead 1).kind == .kwClass

/-- `public static void`. -/
def startsMain (c : Cursor ρ) : Bool :=
  c.kind == .kwPublic && (c.ahead 1).kind == .kwStatic && (c.ahead 2).kind == .kwVoid

/-- `System.out.`. -/
def startsPrint (c : Cursor ρ) : Bool :=
  c.current.isWord "System" && (c.ahead 1).kind == .dot
    && (c.ahead 2).isWord "out" && (c.ahead 3).kind == .dot

/-- An opening parenthesis followed by the name of a primitive type. -/
def startsCast (c : Cursor ρ) : Bool :=
  c.kind == .lparen && (c.ahead 1).kind.isPrimitive

/-- A declaration, or `System.`: safe places to resume in the middle of a line. -/
def atFreshStart (c : Cursor ρ) : Bool :=
  c.kind.startsVarDecl || (c.current.isWord "System" && (c.ahead 1).kind == .dot)

/-! ### Skipping -/

/-- Consumes the next token if it is of a kind. -/
def past (k : Kind) (c : Cursor ρ) : Cursor ρ :=
  if c.kind = k then c.advance else c

/-- Consumes tokens through the brace that closes the first one opened. -/
def skipBody (c : Cursor ρ) : Cursor ρ :=
  loop 0 c.last c.rest
where
  /-- Skips among the tokens given, with `depth` braces open. -/
  loop (depth : Nat) (last : Option Token) : List Token → Cursor ρ
    | [] => { c with last := last, rest := [] }
    | t :: rest =>
      match t.kind with
      | .lbrace => loop (depth + 1) (some t) rest
      | .rbrace =>
        if depth = 1 then { c with last := some t, rest := rest }
        else loop (depth - 1) (some t) rest
      | _ => loop depth (some t) rest

/-- Whether tokens have been consumed since `start` of them were ahead, the last of one of the
kinds given. -/
def endedBy (kinds : List Kind) (start : Nat) (c : Cursor ρ) : Bool :=
  c.rest.length < start && c.last.any fun t => kinds.contains t.kind

/-- Where a broken statement ends: at a semicolon or a closing brace, or where a new
declaration, or a statement on a fresh line, starts. -/
def haltsStatement (start : Nat) (c : Cursor ρ) : Bool :=
  c.kind == .rbrace || c.kind == .semi
    || (c.rest.length < start
        && (c.atFreshStart || (c.atLineStart && c.kind.startsStatement)))

/-- Skips the rest of a broken statement, through its semicolon if that is where it ends. -/
def endStatement (start : Nat) (c : Cursor ρ) : Cursor ρ :=
  if c.endedBy [.semi] start then c
  else (c.skipTo (haltsStatement start)).past .semi

/-- Where a broken member ends: at a semicolon or a brace, or where a new member starts. -/
def haltsMember (start : Nat) (c : Cursor ρ) : Bool :=
  c.kind == .rbrace || c.kind == .semi || c.kind == .lbrace
    || (c.rest.length < start && c.kind.startsMember)

/-- Skips the rest of a broken member; a body in braces is skipped as a whole. -/
def endMember (start : Nat) (c : Cursor ρ) : Cursor ρ :=
  if c.endedBy [.semi, .rbrace] start then c
  else
    let halted := c.skipTo (haltsMember start)
    if halted.kind = .lbrace then halted.skipBody else halted.past .semi

/-- Skips to the next `public class`. -/
def endClass (start : Nat) (c : Cursor ρ) : Cursor ρ :=
  c.skipTo fun here => here.rest.length < start && here.startsClass

end Cursor

namespace Parse

/-- Ends a panic, if there is one, after skipping by `skip`, which is told how many tokens were
ahead at the start. -/
def settle (skip : Nat → Cursor ρ → Cursor ρ) (start : Nat) : Parse ρ Unit :=
  move fun c => if c.panicking then { skip start c with panicking := false } else c

/-- Consumes one token if none has been since `start` of them were ahead. -/
def nudge (start : Nat) : Parse ρ Unit :=
  move fun c => if c.rest.length = start then c.advance else c

/-- One construct with its recovery. At least one token is consumed, if there is one. -/
def recovering {α : Type} (skip : Nat → Cursor ρ → Cursor ρ) (item : Parse ρ α) : Parse ρ α := do
  let start ← look fun c => c.rest.length
  let x ← item
  settle skip start
  nudge start
  return x

end Parse

end JavaPrimer
