import JavaPrimer.Text.Quoted
import JavaPrimer.Token.Basic

/-!
# Grammars

A grammar is an ordered table of rules. A rule chooses among alternatives by looking at a
bounded number of tokens; an alternative may have a gate, a fixed sequence that selects it
before any other choice is made.

Definitions:
- `Term`: matches one token, by kind and perhaps by spelling.
- `Elem`: the elements of a body, from single terms to repetitions.
- `Alt`, `Rule`, `Grammar`: alternatives, rules and the table.
- `Grammar.find?`, `Grammar.update`: the rule with a name.
- `Term.text`, `Elem.text`, `Rule.text`, `Grammar.text`: how a table is written down.
-/

namespace JavaPrimer

/-! ### Terms -/

/-- Matches one token of a kind; an image that is not empty must be its text as well. -/
structure Term where
  kind : Kind
  image : Text
deriving DecidableEq

namespace Term

/-- Any token of a kind. -/
def token (k : Kind) : Term := ⟨k, []⟩

/-- An identifier with one spelling. -/
def word (image : Text) : Term := ⟨.ident, image⟩

/-- Whether a token fits a term. -/
def accepts (t : Term) (tok : Token) : Bool :=
  tok.kind == t.kind && (t.image.isEmpty || tok.value == t.image)

/-- Whether some token fits two terms. -/
def overlaps (s t : Term) : Bool :=
  s.kind == t.kind && (s.image.isEmpty || t.image.isEmpty || s.image == t.image)

/-- A term as it is written in a table. -/
def text (t : Term) : Text :=
  if t.image.isEmpty then
    match t.kind with
    | .ident => "IDENT"
    | .intLit => "INT_LITERAL"
    | .floatLit => "FLOAT_LITERAL"
    | .stringLit => "STRING_LITERAL"
    | .charLit => "CHAR_LITERAL"
    | .eof => "EOF"
    | k => "'" ++ k.spelling ++ "'"
  else "'" ++ t.image ++ "'"

end Term

/-- A sequence of terms in a message. -/
def termsText (ts : List Term) : Text :=
  if ts.isEmpty then "<empty>" else List.intercalate (Text.ofString " ") (ts.map Term.text)

/-! ### Elements -/

/-- An element of a body. -/
inductive Elem where
  | term (t : Term)
  | ref (rule : Text)
  | seq (items : List Elem)
  | opt (items : List Elem)
  | many (items : List Elem)
  | oneOf (items : List Elem)

/-- The empty sequence of elements. -/
instance : Inhabited Elem := ⟨.seq []⟩

namespace Elem

/-- One token of any of the kinds given. -/
def kinds : List Kind → Elem
  | [k] => term (.token k)
  | ks => oneOf (ks.map fun k => term (.token k))

/-- An identifier with one spelling. -/
def word (image : Text) : Elem := term (.word image)

mutual

/-- An element as it is written in a table. -/
def text : Elem → Text
  | term t => t.text
  | ref rule => rule
  | seq items => "(" ++ List.intercalate (Text.ofString " ") (texts items) ++ ")"
  | opt items => "(" ++ List.intercalate (Text.ofString " ") (texts items) ++ ")?"
  | many items => "(" ++ List.intercalate (Text.ofString " ") (texts items) ++ ")*"
  | oneOf items => "(" ++ List.intercalate (Text.ofString " | ") (texts items) ++ ")"

/-- Each element of a list as it is written. -/
def texts : List Elem → List Text
  | [] => []
  | e :: rest => e.text :: texts rest

end

mutual

/-- The rules that an element refers to, from left to right. -/
def refs : Elem → List Text
  | term _ => []
  | ref rule => [rule]
  | seq items | opt items | many items | oneOf items => refsOf items

/-- The rules that a list of elements refers to, from left to right. -/
def refsOf : List Elem → List Text
  | [] => []
  | e :: rest => e.refs ++ refsOf rest

end

end Elem

/-! ### Rules -/

/-- An alternative of a rule; an empty gate is none. -/
structure Alt where
  name : Text
  gate : List Term
  body : List Elem

/-- A rule; `lookahead` is the number of tokens it may look at to choose among the alternatives
without a gate. -/
structure Rule where
  name : Text
  lookahead : Int
  alts : List Alt

/-- An ordered table of rules. -/
structure Grammar where
  rules : List Rule

namespace Alt

/-- An alternative without a gate. -/
def plain (name : Text) (body : List Elem) : Alt := ⟨name, [], body⟩

/-- An alternative in a table; its name is shown when there are others. -/
def text (named : Bool) (a : Alt) : Text :=
  let gate : Text := if a.gate.isEmpty then [] else "   (gate: " ++ termsText a.gate ++ ")"
  let name : Text := if named then "   #" ++ a.name else []
  " " ++ List.intercalate (Text.ofString " ") (Elem.texts a.body) ++ gate ++ name

end Alt

/-- A rule in a table. -/
def Rule.text (r : Rule) : Text :=
  let budget : Text := if r.lookahead > 1 then " [k=" ++ Text.decimal r.lookahead ++ "]" else []
  r.name ++ budget ++ " :="
    ++ List.intercalate (Text.ofString "\n    |") (r.alts.map (Alt.text (1 < r.alts.length)))

namespace Grammar

/-- The first rule with a name. -/
def find? (g : Grammar) (name : Text) : Option Rule := g.rules.find? (·.name == name)

/-- Changes the first rule with a name. -/
def update (g : Grammar) (name : Text) (f : Rule → Rule) : Grammar :=
  match g.rules.findIdx? (·.name == name) with
  | some i => ⟨g.rules.modify i f⟩
  | none => g

/-- A table as it is written. -/
def text (g : Grammar) : Text := List.intercalate (Text.ofString "\n") (g.rules.map Rule.text)

end Grammar

/-! ### Changing a rule -/

namespace Rule

/-- The rule with another number of tokens to look at. -/
def withLookahead (k : Int) (r : Rule) : Rule := { r with lookahead := k }

/-- The rule with another gate on its `i`-th alternative. -/
def withGate (i : Nat) (gate : List Term) (r : Rule) : Rule :=
  { r with alts := r.alts.modify i fun a => { a with gate := gate } }

/-- The rule with another `j`-th element in the body of its `i`-th alternative. -/
def withElem (i j : Nat) (e : Elem) (r : Rule) : Rule :=
  { r with alts := r.alts.modify i fun a => { a with body := a.body.set j e } }

/-- The rule with one more alternative. -/
def withAlt (a : Alt) (r : Rule) : Rule := { r with alts := r.alts ++ [a] }

end Rule

end JavaPrimer
