import JavaPrimer.Token.Piece

/-!
# From source text to tokens

Placing the pieces of a source one after another gives every token its span. The last
token is the end of input; no earlier token is one.

Definitions:
- `placed`: the pieces of a text with the place where each starts.
- `Lexed`, `lex`: the tokens and the lexical diagnostics of a source.
- `unclosedDepth`: how many braces and parentheses a source leaves open.
-/

namespace JavaPrimer

/-- Gives each piece its place, starting from `p`. -/
def placed (p : Position) : List Piece → List (Position × Piece)
  | [] => []
  | x :: rest => (p, x) :: placed (p.advance x.text) rest

/-- The tokens of a source, the end of input included, and what is wrong with its lexemes. -/
structure Lexed where
  tokens : List Token
  diagnostics : List Diagnostic
deriving DecidableEq

/-- Cuts a source into tokens; this always runs to the end of the source. -/
def lex (source : Text) : Lexed :=
  let located := placed .origin (pieces source)
  { tokens := located.filterMap (fun (p, x) => x.token? p)
      ++ [Token.endOfInput (Position.origin.advance source)]
    diagnostics := located.flatMap fun (p, x) => x.diagnostics p }

/-- The braces and parentheses opened, less those closed. -/
def unclosedDepth (source : Text) : Int :=
  (lex source).tokens.foldl (fun depth t =>
    match t.kind with
    | .lbrace | .lparen => depth + 1
    | .rbrace | .rparen => depth - 1
    | _ => depth) 0

end JavaPrimer
