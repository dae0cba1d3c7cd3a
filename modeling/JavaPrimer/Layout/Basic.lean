import JavaPrimer.Tree.Basic

/-!
# Canonical layout

A tree is laid out with one statement per line and four spaces per level. Parentheses are
added only where an operand binds looser than its place; missing parts leave nothing.

Definitions:
- `Expr.needsParens`: whether an operand would be read apart from its operator.
- `Expr.layout`, `Stmt.layout`, `Member.layout`, `ClassDecl.layout`: the parts.
- `Root.layout`: a whole tree.
-/

namespace JavaPrimer

/-- Four spaces per level. -/
def indentation (depth : Nat) : Text := List.replicate (4 * depth) (Glyph.scalar ' ')

/-- A written type; an absent one leaves nothing. -/
def layoutType : Option TypeSpec → Text
  | none => []
  | some t => if t.isArray then t.name ++ "[]" else t.name

/-! ### Expressions -/

/-- Whether an expression applies a binary operator. -/
def Expr.isBinary : Expr → Bool
  | .binary .. => true
  | _ => false

/-- Whether an operand of a binary operator needs parentheses: it binds looser, or equally on
the right, since every level groups to the left. -/
def Expr.needsParens (parent : Level) (onRight : Bool) : Expr → Bool
  | .binary _ level .. => level.rank < parent.rank || (level.rank == parent.rank && onRight)
  | _ => false

/-- A text in parentheses, if they are needed. -/
def parenthesized (needed : Bool) (t : Text) : Text := if needed then "(" ++ t ++ ")" else t

/-- A unary operator before its operand; a space keeps `- -x` from being read as a decrement. -/
def layoutUnary (op operand : Text) : Text :=
  if (op.getLast?.any (Glyph.isOneOf ['-', '+'])) && op.getLast? == operand.head? then
    op ++ " " ++ operand
  else op ++ operand

/-- Arguments in parentheses. -/
def layoutCall (args : List Text) : Text :=
  "(" ++ List.intercalate (Text.ofString ", ") args ++ ")"

mutual

/-- The layout of an expression. -/
def Expr.layout : Expr → Text
  | .literal _ _ raw => raw
  | .name _ head selectors => head.name ++ layoutSelectors selectors
  | .binary _ level op _ left right =>
    parenthesized (left.needsParens level false) left.layout ++ " " ++ op.spelling ++ " "
      ++ parenthesized (right.needsParens level true) right.layout
  | .unary _ op operand => layoutUnary op.spelling (parenthesized operand.isBinary operand.layout)
  | .step _ op operand => operand.layout ++ op.spelling
  | .cast _ type operand =>
    "(" ++ layoutType type ++ ") " ++ parenthesized operand.isBinary operand.layout
  | .paren _ inner => "(" ++ inner.layout ++ ")"
  | .new _ className args =>
    "new " ++ className.name ++ layoutCall (layoutArgs args)
  | .bad _ | .missing => []

/-- The layouts of a list of arguments. -/
def layoutArgs : List Expr → List Text
  | [] => []
  | e :: rest => e.layout :: layoutArgs rest

/-- The layout of a selector. -/
def Selector.layout : Selector → Text
  | .field _ name => "." ++ name.name
  | .call _ args => layoutCall (layoutArgs args)

/-- The layout of a list of selectors. -/
def layoutSelectors : List Selector → Text
  | [] => []
  | x :: rest => x.layout ++ layoutSelectors rest

end

/-! ### Statements -/

/-- An initializer with its sign, if there is one. -/
def layoutInit (init : Expr) : Text :=
  match init with
  | .missing => []
  | e => " = " ++ e.layout

/-- The operator and the value of an assignment; nothing without an operator. -/
def layoutAssigned (op : AssignOp) (value : Text) : Text :=
  if op = .none then [] else " " ++ op.spelling ++ " " ++ value

/-- Statement lines in braces; the closing brace stands at `depth`. -/
def layoutBraces (depth : Nat) (lines : List Text) : Text :=
  "\x7b\n" ++ lines.flatMap Text.asLine ++ indentation depth ++ "\x7d"

mutual

/-- The layout of a statement, without the indentation of its first line. -/
def Stmt.layout (depth : Nat) : Stmt → Text
  | .block _ stmts => layoutBraces depth (layoutStmts (depth + 1) stmts)
  | .varDecl _ isFinal type name init =>
    (if isFinal then Text.ofString "final " else []) ++ layoutType type ++ " " ++ name.name
      ++ layoutInit init ++ ";"
  | .print _ method arg => "System.out." ++ method.name ++ "(" ++ arg.layout ++ ");"
  | .expr _ target op _ value =>
    target.layout ++ layoutAssigned op value.layout ++ ";"
  | .missing => []

/-- The lines of a list of statements at a depth. -/
def layoutStmts (depth : Nat) : List Stmt → List Text
  | [] => []
  | s :: rest => (indentation depth ++ s.layout depth) :: layoutStmts depth rest

end

/-! ### Classes -/

/-- The layout of a member. -/
def Member.layout : Member → Text
  | .field _ modifiers _ type name init =>
    indentation 1
      ++ List.intercalate (Text.ofString " ") (modifiers ++ [layoutType type, name.name])
      ++ layoutInit init ++ ";"
  | .main _ name param body =>
    indentation 1 ++ "public static void " ++ name.name ++ "(String[] " ++ param.name ++ ") "
      ++ layoutBraces 1 (layoutStmts 2 ((body.map Block.stmts).getD []))

/-- Whether a member is a main method. -/
def Member.isMain : Member → Bool
  | .main .. => true
  | .field .. => false

/-- A member below another one; a main method has an empty line above it. -/
def Member.layoutBelow (m : Member) : Text :=
  if m.isMain then "\n" ++ m.layout.asLine else m.layout.asLine

/-- The lines of the members of a class. -/
def layoutMembers : List Member → Text
  | [] => []
  | first :: rest => first.layout.asLine ++ rest.flatMap Member.layoutBelow

/-- The layout of a class. -/
def ClassDecl.layout (c : ClassDecl) : Text :=
  "public class " ++ c.name.name ++ " \x7b\n" ++ layoutMembers c.members ++ "\x7d"

/-- The layout of a tree: statements on their lines, classes with an empty line between. -/
def Root.layout : Root → Text
  | .statements _ stmts => (layoutStmts 0 stmts).flatMap Text.asLine
  | .program _ [] => []
  | .program _ classes =>
    List.intercalate (Text.ofString "\n\n") (classes.map ClassDecl.layout) ++ "\n"

end JavaPrimer
