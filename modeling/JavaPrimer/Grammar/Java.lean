import JavaPrimer.Grammar.Basic

/-!
# The grammar of the teaching subset

The rules of the language, classes first, expressions from the loosest operators to the
tightest.

Definitions:
- `JavaRules`: the rules for classes, statements and expressions.
- `javaGrammar`: the table.
-/

namespace JavaPrimer

namespace JavaRules

/-- One token of a kind. -/
def tok (k : Kind) : Elem := .term (.token k)

/-- One token of any of the kinds given. -/
def anyOf (ks : List Kind) : Elem := .kinds ks

/-- A rule that looks one token ahead and has one alternative, of its own name. -/
def single (name : Text) (body : List Elem) : Rule := ⟨name, 1, [.plain name body]⟩

/-- The words for primitive types. -/
def primitiveKinds : List Kind :=
  [.kwInt, .kwDouble, .kwChar, .kwBoolean, .kwByte, .kwShort, .kwLong, .kwFloat]

/-- The rules for classes and their members. -/
def classRules : List Rule :=
  [single "program" [.many [.ref "classDecl"], tok .eof],
   single "statements" [.many [.ref "statement"], tok .eof],
   single "classDecl"
     [tok .kwPublic, tok .kwClass, tok .ident, tok .lbrace, .many [.ref "classMember"],
      tok .rbrace],
   ⟨"classMember", 1,
     [⟨"mainMethod", [.token .kwPublic, .token .kwStatic, .token .kwVoid], [.ref "mainMethod"]⟩,
      .plain "fieldDecl" [.ref "fieldDecl"]]⟩,
   single "mainMethod"
     [tok .kwPublic, tok .kwStatic, tok .kwVoid, tok .ident, tok .lparen, tok .kwString,
      tok .lbracket, tok .rbracket, tok .ident, tok .rparen, .ref "block"],
   single "fieldDecl"
     [.many [anyOf [.kwPublic, .kwStatic, .kwFinal]], .ref "typeSpec", tok .ident,
      .opt [tok .equals, .ref "expression"], tok .semi],
   single "typeSpec" [anyOf (.kwString :: primitiveKinds), .opt [tok .lbracket, tok .rbracket]],
   single "castType" [anyOf primitiveKinds]]

/-- The rules for statements. -/
def statementRules : List Rule :=
  [single "block" [tok .lbrace, .many [.ref "statement"], tok .rbrace],
   ⟨"statement", 1,
     [.plain "varDecl" [.ref "varDecl"],
      ⟨"printStmt", [.word "System", .token .dot, .word "out", .token .dot], [.ref "printStmt"]⟩,
      .plain "exprStmt" [.ref "exprStmt"],
      .plain "block" [.ref "block"]]⟩,
   single "varDecl"
     [.opt [tok .kwFinal], .ref "typeSpec", tok .ident, .opt [tok .equals, .ref "expression"],
      tok .semi],
   single "printStmt"
     [.word "System", tok .dot, .word "out", tok .dot, .oneOf [.word "println", .word "print"],
      tok .lparen, .opt [.ref "expression"], tok .rparen, tok .semi],
   single "exprStmt"
     [.ref "expression",
      .opt [anyOf [.equals, .plusEq, .minusEq, .starEq, .slashEq, .percentEq], .ref "expression"],
      tok .semi]]

/-- A tier of operators: operands of the next tier with operators between. -/
def tierRule (name next : Text) (ops : List Kind) : Rule :=
  single name [.ref next, .many [anyOf ops, .ref next]]

/-- The rules for expressions. -/
def expressionRules : List Rule :=
  [single "expression" [.ref "logicalOr"],
   tierRule "logicalOr" "logicalAnd" [.orOr],
   tierRule "logicalAnd" "equality" [.andAnd],
   tierRule "equality" "relational" [.eqEq, .bangEq],
   tierRule "relational" "additive" [.lt, .gt, .ltEq, .gtEq],
   tierRule "additive" "multiplicative" [.plus, .minus],
   tierRule "multiplicative" "unary" [.star, .slash, .percent],
   ⟨"unary", 1,
     [.plain "prefix" [anyOf [.minus, .plus, .bang, .plusPlus, .minusMinus], .ref "unary"],
      .plain "castOrPrimary" [.ref "castOrPrimary"]]⟩,
   ⟨"castOrPrimary", 2,
     [.plain "cast" [tok .lparen, .ref "castType", tok .rparen, .ref "unary"],
      .plain "postfix" [.ref "postfix"]]⟩,
   single "postfix" [.ref "primary", .opt [anyOf [.plusPlus, .minusMinus]]],
   ⟨"primary", 1,
     [.plain "literal"
        [anyOf [.intLit, .floatLit, .stringLit, .charLit, .kwTrue, .kwFalse, .kwNull]],
      .plain "name" [tok .ident, .many [.ref "selector"]],
      .plain "paren" [tok .lparen, .ref "expression", tok .rparen],
      .plain "new"
        [tok .kwNew, tok .ident, tok .lparen, .opt [.ref "arguments"], tok .rparen]]⟩,
   ⟨"selector", 1,
     [.plain "call" [tok .lparen, .opt [.ref "arguments"], tok .rparen],
      .plain "field" [tok .dot, tok .ident]]⟩,
   single "arguments" [.ref "expression", .many [tok .comma, .ref "expression"]]]

end JavaRules

/-- The grammar of the language. -/
def javaGrammar : Grammar :=
  ⟨JavaRules.classRules ++ JavaRules.statementRules ++ JavaRules.expressionRules⟩

end JavaPrimer
