import JavaPrimer.Text.Basic

/-!
# Token kinds

The kinds of token of the language, their numbers, their names and how each is spelled.

Definitions:
- `Kind`: the closed list of kinds, and `Kind.other` for a number outside it.
- `Kind.code`, `Kind.ofCode`: the numbering.
- `Kind.name`, `Kind.ofName?`: the names shown in token listings.
- `keywords`, `operators`: the kinds with one fixed spelling.
- `Kind.spelling`: how a message refers to a kind.
- `Kind.isKeyword`, `Kind.isPrimitive`, `Kind.isTypeWord`: classes of kinds.
-/

namespace JavaPrimer

/-- The kind of a token. -/
inductive Kind where
  | kwPublic | kwClass | kwStatic | kwVoid
  | kwInt | kwDouble | kwString | kwChar | kwBoolean | kwByte | kwShort | kwLong | kwFloat
  | kwFinal | kwNew | kwTrue | kwFalse | kwNull
  | intLit | floatLit | stringLit | charLit
  | ident
  | plusEq | minusEq | starEq | slashEq | percentEq
  | plusPlus | minusMinus
  | eqEq | bangEq | ltEq | gtEq | andAnd | orOr | lt | gt | bang
  | plus | minus | star | slash | percent | equals
  | lparen | rparen | lbrace | rbrace | lbracket | rbracket | semi | comma | dot
  | eof
  | other (code : Int)
deriving DecidableEq

namespace Kind

/-- Every named kind, in the order of the numbering. -/
def all : List Kind :=
  [kwPublic, kwClass, kwStatic, kwVoid,
   kwInt, kwDouble, kwString, kwChar, kwBoolean, kwByte, kwShort, kwLong, kwFloat,
   kwFinal, kwNew, kwTrue, kwFalse, kwNull,
   intLit, floatLit, stringLit, charLit,
   ident,
   plusEq, minusEq, starEq, slashEq, percentEq,
   plusPlus, minusMinus,
   eqEq, bangEq, ltEq, gtEq, andAnd, orOr, lt, gt, bang,
   plus, minus, star, slash, percent, equals,
   lparen, rparen, lbrace, rbrace, lbracket, rbracket, semi, comma, dot,
   eof]

/-- The number of a kind: its place in `all`, which lists the kinds as they are declared. -/
def code : Kind → Int
  | other n => n
  | k => k.ctorIdx

/-- The kind with a number. -/
def ofCode (n : Int) : Kind :=
  if 0 ≤ n then all.getD n.toNat (other n) else other n

/-- The name of a kind in token listings. -/
def name : Kind → Text
  | kwPublic => "Public" | kwClass => "Class" | kwStatic => "Static" | kwVoid => "Void"
  | kwInt => "Int" | kwDouble => "Double" | kwString => "StringType" | kwChar => "Char"
  | kwBoolean => "Boolean" | kwByte => "Byte" | kwShort => "Short" | kwLong => "Long"
  | kwFloat => "Float" | kwFinal => "Final" | kwNew => "New"
  | kwTrue => "True" | kwFalse => "False" | kwNull => "Null"
  | intLit => "IntegerLiteral" | floatLit => "DoubleLiteral"
  | stringLit => "StringLiteral" | charLit => "CharLiteral"
  | ident => "Identifier"
  | plusEq => "PlusEquals" | minusEq => "MinusEquals" | starEq => "StarEquals"
  | slashEq => "SlashEquals" | percentEq => "PercentEquals"
  | plusPlus => "PlusPlus" | minusMinus => "MinusMinus"
  | eqEq => "EqualEqual" | bangEq => "NotEqual" | ltEq => "LessEqual" | gtEq => "GreaterEqual"
  | andAnd => "And" | orOr => "Or" | lt => "LessThan" | gt => "GreaterThan" | bang => "Bang"
  | plus => "Plus" | minus => "Minus" | star => "Star" | slash => "Slash"
  | percent => "Percent" | equals => "Equals"
  | lparen => "LParen" | rparen => "RParen" | lbrace => "LBrace" | rbrace => "RBrace"
  | lbracket => "LBracket" | rbracket => "RBracket"
  | semi => "Semicolon" | comma => "Comma" | dot => "Dot"
  | eof => "EOF"
  | other n => "Token(" ++ Text.decimal n ++ ")"

/-- The named kind that a listing calls `t`. -/
def ofName? (t : Text) : Option Kind :=
  all.find? fun k => k.name == t

end Kind

/-! ### Fixed spellings -/

/-- The reserved words with their kinds. -/
def keywords : List (Text × Kind) :=
  [("public", .kwPublic), ("class", .kwClass), ("static", .kwStatic), ("void", .kwVoid),
   ("int", .kwInt), ("double", .kwDouble), ("String", .kwString), ("char", .kwChar),
   ("boolean", .kwBoolean), ("byte", .kwByte), ("short", .kwShort), ("long", .kwLong),
   ("float", .kwFloat), ("final", .kwFinal), ("new", .kwNew),
   ("true", .kwTrue), ("false", .kwFalse), ("null", .kwNull)]

/-- The operators and delimiters with their kinds. Those of two characters stand first, so
that the first entry that fits is the longest. -/
def operators : List (Text × Kind) :=
  [("+=", .plusEq), ("-=", .minusEq), ("*=", .starEq), ("/=", .slashEq), ("%=", .percentEq),
   ("++", .plusPlus), ("--", .minusMinus),
   ("==", .eqEq), ("!=", .bangEq), ("<=", .ltEq), (">=", .gtEq), ("&&", .andAnd), ("||", .orOr),
   ("+", .plus), ("-", .minus), ("*", .star), ("/", .slash), ("%", .percent), ("=", .equals),
   ("<", .lt), (">", .gt), ("!", .bang),
   ("(", .lparen), (")", .rparen), ("\x7b", .lbrace), ("\x7d", .rbrace),
   ("[", .lbracket), ("]", .rbracket), (";", .semi), (",", .comma), (".", .dot)]

/-- The reserved word with a spelling. -/
def keyword? (t : Text) : Option Kind :=
  (keywords.find? (·.1 == t)).map (·.2)

namespace Kind

/-- How messages refer to a kind: its one spelling, or words for a class of spellings. -/
def spelling (k : Kind) : Text :=
  match (keywords ++ operators).find? (·.2 == k) with
  | some (text, _) => text
  | none => match k with
    | intLit => "integer literal"
    | floatLit => "floating-point literal"
    | stringLit => "string literal"
    | charLit => "character literal"
    | ident => "identifier"
    | eof => "end of input"
    | k => k.name

/-! ### Classes of kinds -/

/-- Reserved words. -/
def isKeyword (k : Kind) : Bool :=
  keywords.any (·.2 == k)

/-- Words that name a primitive type; `String` names none. -/
def isPrimitive : Kind → Bool
  | kwInt | kwDouble | kwChar | kwBoolean | kwByte | kwShort | kwLong | kwFloat => true
  | _ => false

/-- Words that can start a type. -/
def isTypeWord (k : Kind) : Bool :=
  k == kwString || k.isPrimitive

end Kind

end JavaPrimer
