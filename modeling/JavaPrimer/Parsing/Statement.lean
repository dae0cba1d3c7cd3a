import JavaPrimer.Parsing.Expression

/-!
# Parsing statements

A statement that is broken is skipped and its error reported once; what could be read of it
is kept.

Definitions:
- `Parse.typeSpec`, `Parse.initialized`: the parts that declarations share.
- `Parse.varDecl`, `Parse.printStmt`, `Parse.exprStmt`: the statements that hold expressions.
- `Expr.isAssignable`, `Expr.described`: what can stand on the left of an assignment.
- `Parse.block`, `Parse.statement`, `Parse.statements`: statements and lists of them.
-/

namespace JavaPrimer

variable {ρ : Reach}

/-! ### Assignment targets -/

/-- Whether an expression can be assigned to: a name that does not end in a call, under any
number of parentheses. -/
def Expr.isAssignable : Expr → Bool
  | .name _ _ selectors => match selectors.getLast? with
    | some (.call ..) => false
    | _ => true
  | .paren _ inner => inner.isAssignable
  | .bad _ => true
  | _ => false

/-- What a message calls an expression that cannot be assigned to. -/
def Expr.described : Expr → Text
  | .literal .. => "a literal"
  | .binary _ _ op _ _ _ => "an expression using '" ++ op.spelling ++ "'"
  | .name .. => "a method call"
  | .unary .. | .step .. => "an increment or unary expression"
  | .cast .. => "a cast"
  | .new .. => "a new object"
  | _ => "an expression"

/-- The diagnostic for an expression that cannot be assigned to. -/
def Expr.targetDiagnostic (e : Expr) : Diagnostic :=
  .make .invalidAssignmentTarget
    ("the left side of an assignment must be a variable, not " ++ e.described) e.span

namespace Parse

/-! ### Parts of declarations -/

/-- A type, or an error where none starts. -/
def typeSpec : Parse ρ (Option TypeSpec) := do
  let word ← look Cursor.current
  if word.kind.isTypeWord then
    spanned do
      let _ ← advance
      if ← look fun c => c.kind == .lbracket then
        let _ ← advance
        let closed ← expect .rbracket
        return fun span => some ⟨span, word.value, closed⟩
      else return fun span => some ⟨span, word.value, false⟩
  else
    fail (.type word)
    return none

/-- An initializer, if there is one, and the semicolon. -/
def initialized : Parse ρ Expr := do
  if ← look fun c => c.kind == .equals then
    let _ ← advance
    let e ← expression
    if ← panicking then return e
    else
      let _ ← expect .semi
      return e
  else
    let _ ← expect .semi
    return .missing

/-! ### Statements that hold expressions -/

/-- Consumes `final`, if it is there. -/
def finalMark : Parse ρ Bool := do
  if ← look fun c => c.kind == .kwFinal then
    let _ ← advance
    return true
  else return false

/-- A local declaration. -/
def varDecl : Parse ρ Stmt := spanned do
  let isFinal ← finalMark
  match ← typeSpec with
  | none => return fun span => .varDecl span isFinal none .absent .missing
  | some type =>
    let (name, there) ← expectIdent
    if there then
      let init ← initialized
      return fun span => .varDecl span isFinal (some type) name init
    else return fun span => .varDecl span isFinal (some type) name .missing

/-- The argument of a print statement, if one starts here. -/
def printArgument : Parse ρ Expr := do
  if ← look fun c => c.kind.startsExpression then expression else return .missing

/-- A print statement, from `System` on. -/
def printStmt : Parse ρ Stmt := spanned do
  let _ ← advance
  let _ ← advance
  let _ ← advance
  let _ ← advance
  let (method, there) ← expectWord ["println", "print"]
  if !there then return fun span => .print span method .missing
  else if ← expect .lparen then
    let arg ← printArgument
    if ← panicking then return fun span => .print span method arg
    else if ← expect .rparen then
      let _ ← expect .semi
      return fun span => .print span method arg
    else return fun span => .print span method arg
  else return fun span => .print span method .missing

/-- The right side of an assignment and the semicolon. -/
def assigned : Parse ρ Expr := do
  let value ← expression
  if ← panicking then return value
  else
    let _ ← expect .semi
    return value

/-- An expression statement or an assignment. -/
def exprStmt : Parse ρ Stmt := spanned do
  let target ← expression
  if ← panicking then return fun span => .expr span target .none .nowhere .missing
  else match ← look fun c => AssignOp.ofKind? c.kind with
    | some op =>
      let mark ← advance
      if target.isAssignable then
        let value ← assigned
        return fun span => .expr span target op mark.span value
      else
        report target.targetDiagnostic
        let value ← assigned
        return fun span => .expr span target op mark.span value
    | none =>
      let _ ← expect .semi
      return fun span => .expr span target .none .nowhere .missing

/-! ### Statements -/

/-- Whether statements can go on inside braces. -/
def inBlock (c : Cursor ρ) : Bool := !c.atEnd && c.kind != .rbrace

/-- Statements in braces. -/
def block (stmt : Parse ρ (Option Stmt)) : Parse ρ Block := spanned do
  let _ ← advance
  let stmts ← whileMore inBlock (recovering Cursor.endStatement stmt)
  let _ ← expect .rbrace
  return fun span => ⟨span, stmts⟩

/-- One statement, with `inner` for those of a block. Nothing is given where none can start. -/
def statementWith (inner : Parse ρ (Option Stmt)) : Parse ρ (Option Stmt) := do
  let c ← look id
  if c.kind == .ident && (c.ahead 1).kind == .ident then
    fail (.unknownType c.current.value)
    return none
  else if c.startsPrint then some <$> printStmt
  else if c.kind.startsVarDecl then some <$> varDecl
  else if c.kind.startsExpression then some <$> exprStmt
  else if c.kind == .lbrace then
    let b ← block inner
    return some (.block b.span b.stmts)
  else
    fail (.statement c.current)
    return none

/-- One statement with blocks nested at most `n` deep. -/
def statementWithin : Nat → Parse ρ (Option Stmt)
  | 0 => return none
  | n + 1 => statementWith (statementWithin n)

/-- One statement. Every block consumes a token, so none is cut short. -/
def statement : Parse ρ (Option Stmt) := fun c =>
  statementWithin (c.rest.length + 1) c

/-- Statements up to the end of input. -/
def statements : Parse ρ Root := spanned do
  let stmts ← whileMore (fun c => !c.atEnd) (recovering Cursor.endStatement statement)
  return fun span => .statements span stmts

end Parse

end JavaPrimer
