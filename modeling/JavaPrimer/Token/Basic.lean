import JavaPrimer.Span
import JavaPrimer.Token.Kind

/-!
# Tokens

A token is a kind, the exact text it was written as, and where it stands.

Definitions:
- `Token`: the record; `unterminated` marks a quoted literal cut off by the end of its line.
- `Token.endOfInput`: the token that ends every stream.
- `Token.isWord`: an identifier with a given spelling.
- `Token.described`: how messages show a token that was found.
-/

namespace JavaPrimer

/-- A token: quotes and suffixes are part of its text. -/
structure Token where
  kind : Kind
  value : Text
  span : Span
  unterminated : Bool := false
deriving DecidableEq

namespace Token

/-- The end of input at a place. -/
def endOfInput (p : Position) : Token := ⟨.eof, [], .point p, false⟩

/-- Whether a token is the identifier spelled `word`. -/
def isWord (word : Text) (t : Token) : Bool :=
  t.kind == .ident && t.value == word

/-- A found token in a message. -/
def described (t : Token) : Text :=
  if t.kind = .eof then "end of input" else "'" ++ t.value ++ "'"

end Token

end JavaPrimer
