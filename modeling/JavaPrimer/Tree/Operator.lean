import JavaPrimer.Token.Kind

/-!
# Operators and precedence

The operators of expressions and assignments, and the six levels at which binary operators
bind. A tree that was put together by hand may carry a spelling that is no operator.

Definitions:
- `Level`, `Level.rank`, `Level.name`: the binding levels, loosest first.
- `BinaryOp`, `UnaryOp`, `AssignOp`: the operators, their spellings and the way back.
- `Tier`, `tiers`: the operators of each level with the tokens they are read from.
-/

namespace JavaPrimer

/-! ### Levels -/

/-- The level a binary expression was built at; `unknown` binds looser than every real level. -/
inductive Level where
  | unknown
  | logicalOr
  | logicalAnd
  | equality
  | relational
  | additive
  | multiplicative
deriving DecidableEq

namespace Level

/-- Every level, loosest first. -/
def all : List Level :=
  [unknown, logicalOr, logicalAnd, equality, relational, additive, multiplicative]

/-- How tightly a level binds. -/
def rank : Level → Nat
  | unknown => 0
  | logicalOr => 1
  | logicalAnd => 2
  | equality => 3
  | relational => 4
  | additive => 5
  | multiplicative => 6

/-- The name of a level. -/
def name : Level → Text
  | unknown => "unknown"
  | logicalOr => "logicalOr"
  | logicalAnd => "logicalAnd"
  | equality => "equality"
  | relational => "relational"
  | additive => "additive"
  | multiplicative => "multiplicative"

/-- The level with a name. -/
def ofName (t : Text) : Level :=
  (all.find? fun l => l.name == t).getD unknown

/-- The level with a number, counted from zero at the loosest real one. -/
def ofCode (n : Int) : Level :=
  if 0 ≤ n then all.getD (n.toNat + 1) unknown else unknown

end Level

/-! ### Binary operators -/

/-- A binary operator. -/
inductive BinaryOp where
  | or | and | eq | ne | lt | gt | le | ge | add | sub | mul | div | mod
  | other (spelling : Text)
deriving DecidableEq

namespace BinaryOp

/-- Every operator of the language. -/
def all : List BinaryOp := [or, and, eq, ne, lt, gt, le, ge, add, sub, mul, div, mod]

/-- How an operator is written. -/
def spelling : BinaryOp → Text
  | or => "||" | and => "&&" | eq => "==" | ne => "!="
  | lt => "<" | gt => ">" | le => "<=" | ge => ">="
  | add => "+" | sub => "-" | mul => "*" | div => "/" | mod => "%"
  | other t => t

/-- The operator with a spelling. -/
def ofSpelling (t : Text) : BinaryOp := (all.find? (·.spelling == t)).getD (other t)

end BinaryOp

/-! ### Unary operators -/

/-- An operator before or after its operand. -/
inductive UnaryOp where
  | neg | pos | not | inc | dec
  | other (spelling : Text)
deriving DecidableEq

namespace UnaryOp

/-- Every operator of the language. -/
def all : List UnaryOp := [neg, pos, not, inc, dec]

/-- How an operator is written. -/
def spelling : UnaryOp → Text
  | neg => "-" | pos => "+" | not => "!" | inc => "++" | dec => "--"
  | other t => t

/-- The operator with a spelling. -/
def ofSpelling (t : Text) : UnaryOp := (all.find? (·.spelling == t)).getD (other t)

/-- The operator that a token writes before an operand. -/
def ofKind? : Kind → Option UnaryOp
  | .minus => some neg
  | .plus => some pos
  | .bang => some not
  | .plusPlus => some inc
  | .minusMinus => some dec
  | _ => none

/-- Whether an operator changes its operand. -/
def isStep : UnaryOp → Bool
  | inc | dec => true
  | _ => false

end UnaryOp

/-! ### Assignment operators -/

/-- An assignment operator, or `none` for a statement that assigns nothing. -/
inductive AssignOp where
  | none | set | add | sub | mul | div | mod
  | other (spelling : Text)
deriving DecidableEq

namespace AssignOp

/-- Every operator of the language, and the absent one. -/
def all : List AssignOp := [none, set, add, sub, mul, div, mod]

/-- How an operator is written. -/
def spelling : AssignOp → Text
  | none => []
  | set => "=" | add => "+=" | sub => "-=" | mul => "*=" | div => "/=" | mod => "%="
  | other t => t

/-- The operator with a spelling. -/
def ofSpelling (t : Text) : AssignOp := (all.find? (·.spelling == t)).getD (other t)

/-- The operator that a token writes. -/
def ofKind? : Kind → Option AssignOp
  | .equals => some set
  | .plusEq => some add
  | .minusEq => some sub
  | .starEq => some mul
  | .slashEq => some div
  | .percentEq => some mod
  | _ => Option.none

end AssignOp

/-! ### Tiers -/

/-- One level of binary operators. -/
structure Tier where
  level : Level
  ops : List (Kind × BinaryOp)
deriving DecidableEq

/-- The operator of a tier that a token writes. -/
def Tier.op? (t : Tier) (k : Kind) : Option BinaryOp :=
  (t.ops.find? (·.1 == k)).map (·.2)

/-- The tiers, loosest first. -/
def tiers : List Tier :=
  [⟨.logicalOr, [(.orOr, .or)]⟩,
   ⟨.logicalAnd, [(.andAnd, .and)]⟩,
   ⟨.equality, [(.eqEq, .eq), (.bangEq, .ne)]⟩,
   ⟨.relational, [(.lt, .lt), (.gt, .gt), (.ltEq, .le), (.gtEq, .ge)]⟩,
   ⟨.additive, [(.plus, .add), (.minus, .sub)]⟩,
   ⟨.multiplicative, [(.star, .mul), (.slash, .div), (.percent, .mod)]⟩]

end JavaPrimer
