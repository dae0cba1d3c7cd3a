import JavaPrimer.Span
import JavaPrimer.Tree.Operator

/-!
# Syntax trees

The tree of a program keeps every written part with its span. A part that is not there is
`missing`, in an initializer or an argument as well as in a tree put together by hand.

Definitions:
- `Ident`, `TypeSpec`, `LiteralSort`: the leaves.
- `Expr`, `Selector`: expressions; `Expr.bad` stands where none could be read.
- `Stmt`, `Block`, `Member`, `ClassDecl`, `Root`: what expressions stand in.
- `Expr.span`, `Stmt.span`, `Root.span`: where a node stands.
-/

namespace JavaPrimer

/-! ### Leaves -/

/-- An identifier and the span of the token it came from. -/
structure Ident where
  name : Text
  span : Span
deriving DecidableEq

/-- An identifier that was never read. -/
def Ident.absent : Ident := ⟨[], .nowhere⟩

/-- A written type such as `int` or `String[]`. -/
structure TypeSpec where
  span : Span
  name : Text
  isArray : Bool
deriving DecidableEq

/-- The sort of a literal. -/
inductive LiteralSort where
  | int | float | string | char | bool | null
deriving DecidableEq

namespace LiteralSort

/-- Every sort. -/
def all : List LiteralSort := [int, float, string, char, bool, null]

/-- The name of a sort. -/
def name : LiteralSort → Text
  | int => "int" | float => "float" | string => "string"
  | char => "char" | bool => "bool" | null => "null"

/-- The sort with a name; `int` when there is none. -/
def ofName (t : Text) : LiteralSort := (all.find? (·.name == t)).getD int

/-- The sort of the literal that a token writes. -/
def ofKind? : Kind → Option LiteralSort
  | .intLit => some int
  | .floatLit => some float
  | .stringLit => some string
  | .charLit => some char
  | .kwTrue | .kwFalse => some bool
  | .kwNull => some null
  | _ => none

end LiteralSort

/-! ### Expressions -/

mutual

/-- An expression. -/
inductive Expr where
  | binary (span : Span) (level : Level) (op : BinaryOp) (opSpan : Span) (left right : Expr)
  | unary (span : Span) (op : UnaryOp) (operand : Expr)
  | step (span : Span) (op : UnaryOp) (operand : Expr)
  | cast (span : Span) (type : Option TypeSpec) (operand : Expr)
  | paren (span : Span) (inner : Expr)
  | literal (span : Span) (sort : LiteralSort) (raw : Text)
  | name (span : Span) (head : Ident) (selectors : List Selector)
  | new (span : Span) (className : Ident) (args : List Expr)
  | bad (span : Span)
  | missing

/-- What a name goes on with: a field or a call. -/
inductive Selector where
  | field (span : Span) (name : Ident)
  | call (span : Span) (args : List Expr)

end

instance : Inhabited Expr := ⟨.missing⟩

namespace Expr

/-- Where an expression stands. -/
def span : Expr → Span
  | binary s .. | unary s .. | step s .. | cast s .. | paren s .. | literal s ..
  | name s .. | new s .. | bad s => s
  | missing => .nowhere

end Expr

/-! ### Statements and declarations -/

/-- A statement. -/
inductive Stmt where
  | block (span : Span) (stmts : List Stmt)
  | varDecl (span : Span) (isFinal : Bool) (type : Option TypeSpec) (name : Ident) (init : Expr)
  | print (span : Span) (method : Ident) (arg : Expr)
  | expr (span : Span) (target : Expr) (op : AssignOp) (opSpan : Span) (value : Expr)
  | missing

/-- The body of a method. -/
structure Block where
  span : Span
  stmts : List Stmt

/-- A member of a class: the main method or a field. -/
inductive Member where
  | main (span : Span) (name param : Ident) (body : Option Block)
  | field (span : Span) (modifiers : List Text) (isFinal : Bool) (type : Option TypeSpec)
      (name : Ident) (init : Expr)

/-- A class. -/
structure ClassDecl where
  span : Span
  name : Ident
  members : List Member

/-- A whole tree: classes, or bare statements. -/
inductive Root where
  | program (span : Span) (classes : List ClassDecl)
  | statements (span : Span) (stmts : List Stmt)

instance : Inhabited Stmt := ⟨.missing⟩

namespace Stmt

/-- Where a statement stands. -/
def span : Stmt → Span
  | block s .. | varDecl s .. | print s .. | expr s .. => s
  | missing => .nowhere

end Stmt

/-- Where a member stands. -/
def Member.span : Member → Span
  | main s .. | field s .. => s

/-- Where a tree stands. -/
def Root.span : Root → Span
  | program s _ | statements s _ => s

end JavaPrimer
