import JavaPrimer.Tree.Basic

/-!
# Walking a tree

A walk lists the nodes of a tree, each before its children and children in the order they
are written. The children of a node can be left out; missing parts are never listed.

Definitions:
- `NodeKind`, `Visit`: what a walk says about a node.
- `Root.walk`: the walk of a whole tree, and its parts for every kind of node.
-/

namespace JavaPrimer

/-- The kinds of node. -/
inductive NodeKind where
  | program | statements | classDecl | mainMethod | fieldDecl
  | block | varDecl | printStmt | exprStmt | typeSpec
  | binaryExpr | unaryExpr | postfixExpr | castExpr | parenExpr | literal
  | name | fieldAccess | call | newExpr | badExpr
deriving DecidableEq

/-- The name of a kind of node. -/
def NodeKind.title : NodeKind → Text
  | program => "Program" | statements => "Statements" | classDecl => "ClassDecl"
  | mainMethod => "MainMethod" | fieldDecl => "FieldDecl"
  | block => "Block" | varDecl => "VarDecl" | printStmt => "PrintStmt" | exprStmt => "ExprStmt"
  | typeSpec => "TypeSpec"
  | binaryExpr => "BinaryExpr" | unaryExpr => "UnaryExpr" | postfixExpr => "PostfixExpr"
  | castExpr => "CastExpr" | parenExpr => "ParenExpr" | literal => "Literal"
  | name => "Name" | fieldAccess => "FieldAccess" | call => "Call"
  | newExpr => "NewExpr" | badExpr => "BadExpr"

/-- A node that a walk came by. -/
structure Visit where
  kind : NodeKind
  span : Span
deriving DecidableEq

/-- A node in one line: its kind and its span. -/
def Visit.line (v : Visit) : Text :=
  v.kind.title ++ "@" ++ Text.decimal v.span.start.line ++ ":" ++ Text.decimal v.span.start.column
    ++ "-" ++ Text.decimal v.span.stop.line ++ ":" ++ Text.decimal v.span.stop.column

/-- A node followed by its children, which are left out unless `enter` admits the kind. -/
def visit (enter : NodeKind → Bool) (kind : NodeKind) (span : Span) (children : List Visit) :
    List Visit :=
  ⟨kind, span⟩ :: if enter kind then children else []

/-- The walk of a written type. -/
def TypeSpec.walk (enter : NodeKind → Bool) (t : TypeSpec) : List Visit :=
  visit enter .typeSpec t.span []

/-- The walk of a type that may be absent. -/
def walkType (enter : NodeKind → Bool) (t : Option TypeSpec) : List Visit :=
  (t.map (TypeSpec.walk enter)).getD []

mutual

/-- The walk of an expression. -/
def Expr.walk (enter : NodeKind → Bool) : Expr → List Visit
  | .binary s _ _ _ left right => visit enter .binaryExpr s (left.walk enter ++ right.walk enter)
  | .unary s _ operand => visit enter .unaryExpr s (operand.walk enter)
  | .step s _ operand => visit enter .postfixExpr s (operand.walk enter)
  | .cast s type operand => visit enter .castExpr s (walkType enter type ++ operand.walk enter)
  | .paren s inner => visit enter .parenExpr s (inner.walk enter)
  | .literal s _ _ => visit enter .literal s []
  | .name s _ selectors => visit enter .name s (walkSelectors enter selectors)
  | .new s _ args => visit enter .newExpr s (walkExprs enter args)
  | .bad s => visit enter .badExpr s []
  | .missing => []

/-- The walk of a list of expressions. -/
def walkExprs (enter : NodeKind → Bool) : List Expr → List Visit
  | [] => []
  | e :: rest => e.walk enter ++ walkExprs enter rest

/-- The walk of a selector. -/
def Selector.walk (enter : NodeKind → Bool) : Selector → List Visit
  | .field s _ => visit enter .fieldAccess s []
  | .call s args => visit enter .call s (walkExprs enter args)

/-- The walk of a list of selectors. -/
def walkSelectors (enter : NodeKind → Bool) : List Selector → List Visit
  | [] => []
  | x :: rest => x.walk enter ++ walkSelectors enter rest

end

mutual

/-- The walk of a statement. -/
def Stmt.walk (enter : NodeKind → Bool) : Stmt → List Visit
  | .block s stmts => visit enter .block s (walkStmts enter stmts)
  | .varDecl s _ type _ init => visit enter .varDecl s (walkType enter type ++ init.walk enter)
  | .print s _ arg => visit enter .printStmt s (arg.walk enter)
  | .expr s target _ _ value => visit enter .exprStmt s (target.walk enter ++ value.walk enter)
  | .missing => []

/-- The walk of a list of statements. -/
def walkStmts (enter : NodeKind → Bool) : List Stmt → List Visit
  | [] => []
  | x :: rest => x.walk enter ++ walkStmts enter rest

end

/-- The walk of a method body. -/
def Block.walk (enter : NodeKind → Bool) (b : Block) : List Visit :=
  visit enter .block b.span (walkStmts enter b.stmts)

/-- The walk of a member. -/
def Member.walk (enter : NodeKind → Bool) : Member → List Visit
  | .main s _ _ body => visit enter .mainMethod s ((body.map (Block.walk enter)).getD [])
  | .field s _ _ type _ init =>
    visit enter .fieldDecl s (walkType enter type ++ init.walk enter)

/-- The walk of a class. -/
def ClassDecl.walk (enter : NodeKind → Bool) (c : ClassDecl) : List Visit :=
  visit enter .classDecl c.span (c.members.flatMap (Member.walk enter))

/-- The walk of a tree. -/
def Root.walk (enter : NodeKind → Bool) : Root → List Visit
  | .program s classes => visit enter .program s (classes.flatMap (ClassDecl.walk enter))
  | .statements s stmts => visit enter .statements s (walkStmts enter stmts)

end JavaPrimer
