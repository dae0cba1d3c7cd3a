import JavaPrimer.Parsing.Recovery

/-!
# Parsing expressions

Binary operators are read tier by tier, loosest first, and group to the left. Each piece of
the grammar is a step that is given the step for what it contains, and one recursion, bounded
by the tokens ahead, ties them together.

Definitions:
- `Parse.chain`, `Parse.climb`: one tier of operators, and all tiers.
- `Parse.arguments`, `Parse.selector`, `Parse.nameExpr`, `Parse.newExpr`, `Parse.parenExpr`,
  `Parse.primary`, `Parse.stepped`, `Parse.castExpr`: the operands.
- `Parse.unary`: the recursion.
- `Parse.expression`: an expression.
-/

namespace JavaPrimer

variable {ρ : Reach}

namespace Parse

/-- Stands in for an expression that is not there. -/
def expressionExpected : Parse ρ Expr := do
  let found ← look Cursor.current
  fail (.expression found)
  return .bad found.span

/-! ### Binary operators -/

/-- The operator of a tier that comes next, if there is no panic. -/
def tierOp? (tier : Tier) (c : Cursor ρ) : Option BinaryOp :=
  if c.panicking then none else tier.op? c.kind

/-- Operands joined to `left` by the operators of a tier, at most `n` of them, grouped to the
left. -/
def chain (tier : Tier) (operand : Parse ρ Expr) : Nat → Expr → Parse ρ Expr
  | 0, left => return left
  | n + 1, left => do
    match ← look (tierOp? tier) with
    | none => return left
    | some op =>
      let mark ← advance
      let right ← operand
      chain tier operand n
        (.binary (left.span.through right.span) tier.level op mark.span left right)

/-- Operands joined by the operators of a list of tiers, loosest first. -/
def climb (operand : Parse ρ Expr) : List Tier → Parse ρ Expr
  | [] => operand
  | tier :: tighter => do
    let left ← climb operand tighter
    let bound ← look fun c => c.rest.length
    chain tier (climb operand tighter) bound left

/-! ### Operands -/

/-- One more argument, if a comma announces it and there is no panic. -/
def argument (expr : Parse ρ Expr) : Parse ρ (Option Expr) := do
  if ← look fun c => !c.panicking && c.kind == .comma then
    let _ ← advance
    let e ← expr
    return some e
  else return none

/-- Arguments between commas, possibly none. -/
def arguments (expr : Parse ρ Expr) : Parse ρ (List Expr) := do
  if ← look fun c => c.kind.startsExpression then
    let first ← expr
    let more ← untilNone (argument expr)
    return first :: more
  else return []

/-- A field after a point. -/
def fieldSelector : Parse ρ (Option Selector) := do
  let dot ← advance
  let (name, there) ← expectIdent
  return if there then some (.field (dot.span.through name.span) name) else none

/-- A call: arguments in parentheses. -/
def callSelector (expr : Parse ρ Expr) : Parse ρ (Option Selector) := do
  let mark ← advance
  let args ← arguments expr
  if ← panicking then return none
  else if ← expect .rparen then
    let span ← look (Cursor.spanSince mark.span)
    return some (.call span args)
  else return none

/-- What a name goes on with, if anything. -/
def selector (expr : Parse ρ Expr) : Parse ρ (Option Selector) := do
  if ← panicking then return none
  else match ← look Cursor.kind with
    | .dot => fieldSelector
    | .lparen => callSelector expr
    | _ => return none

/-- An identifier and its selectors. -/
def nameExpr (expr : Parse ρ Expr) : Parse ρ Expr := spanned do
  let head ← advance
  let selectors ← untilNone (selector expr)
  return fun span => .name span ⟨head.value, head.span⟩ selectors

/-- An object creation. -/
def newExpr (expr : Parse ρ Expr) : Parse ρ Expr := spanned do
  let _ ← advance
  let (className, there) ← expectIdent
  if !there then return fun span => .new span className []
  else if ← expect .lparen then
    let args ← arguments expr
    if ← panicking then return fun span => .new span className args
    else
      let _ ← expect .rparen
      return fun span => .new span className args
  else return fun span => .new span className []

/-- An expression in parentheses. -/
def parenExpr (expr : Parse ρ Expr) : Parse ρ Expr := spanned do
  let _ ← advance
  let inner ← expr
  if ← panicking then return fun span => .paren span inner
  else
    let _ ← expect .rparen
    return fun span => .paren span inner

/-- A literal, a name, an object creation or a group. -/
def primary (expr : Parse ρ Expr) : Parse ρ Expr := do
  let next ← look Cursor.current
  match LiteralSort.ofKind? next.kind with
  | some sort =>
    let _ ← advance
    return .literal next.span sort next.value
  | none => match next.kind with
    | .ident => nameExpr expr
    | .lparen => parenExpr expr
    | .kwNew => newExpr expr
    | _ => expressionExpected

/-- The step operator that comes next, if there is no panic. -/
def stepOp? (c : Cursor ρ) : Option UnaryOp :=
  if c.panicking then none
  else match c.kind with
    | .plusPlus => some .inc
    | .minusMinus => some .dec
    | _ => none

/-- An operand that may be followed by a step operator. -/
def stepped (expr : Parse ρ Expr) : Parse ρ Expr := do
  let operand ← primary expr
  match ← look stepOp? with
  | some op =>
    let mark ← advance
    return .step (operand.span.through mark.span) op operand
  | none => return operand

/-- A cast of what `operand` reads. -/
def castExpr (operand : Parse ρ Expr) : Parse ρ Expr := do
  let mark ← advance
  let word ← advance
  let type : TypeSpec := ⟨word.span, word.value, false⟩
  if ← expect .rparen then
    let e ← operand
    return .cast (mark.span.through e.span) type e
  else
    let span ← look (Cursor.spanSince mark.span)
    let found ← look Cursor.current
    return .cast span type (.bad found.span)

/-- What a unary operator applies to, with `operand` for the nested ones. -/
def unaryWith (operand : Parse ρ Expr) : Parse ρ Expr := do
  match ← look fun c => UnaryOp.ofKind? c.kind with
  | some op =>
    let mark ← advance
    let e ← operand
    return .unary (mark.span.through e.span) op e
  | none =>
    if ← look Cursor.startsCast then castExpr operand
    else stepped (climb operand tiers)

/-! ### The recursion -/

/-- An operand nested at most `n` deep. -/
def unary : Nat → Parse ρ Expr
  | 0 => expressionExpected
  | n + 1 => unaryWith (unary n)

/-- An expression. Every nesting consumes a token, so no deeper one than the tokens ahead
allow is cut short. -/
def expression : Parse ρ Expr := fun c =>
  climb (unary (c.rest.length + 1)) tiers c

end Parse

end JavaPrimer
