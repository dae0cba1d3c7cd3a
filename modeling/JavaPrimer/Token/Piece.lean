import JavaPrimer.Diagnostic.Basic
import JavaPrimer.Token.Basic
import JavaPrimer.Token.Quoted

/-!
# Pieces of a source

A source text is cut into pieces from left to right: blanks, comments, characters that the
language does not know, and lexemes. Each piece keeps its exact text, so the pieces of a
source concatenate to the source.

Definitions:
- `Piece`, `Piece.text`: a piece and what it was written as.
- `Piece.read`: the piece at the front of a text.
- `pieces`: the whole cut.
- `Piece.token?`: the token a lexeme makes at a place.
- `LexicalFault`, `Piece.diagnostics`: what is wrong with a piece, and where.

Main statements: `flatMap_text_pieces`, nothing is lost; `Piece.text_ne_nil`, no piece is empty.
-/

namespace JavaPrimer

/-- The blanks between tokens. -/
def Glyph.isGap (g : Glyph) : Bool := g.isOneOf [' ', '\t', '\r', '\n', '\x0c']

/-- The glyphs a word can start with. -/
def Glyph.isWordStart (g : Glyph) : Bool := g.satisfies fun c => c.isAlpha || c = '_' || c = '$'

/-- The glyphs a word can go on with. -/
def Glyph.isWordPart (g : Glyph) : Bool := g.isWordStart || g.isDigit

/-- A piece of a source. -/
inductive Piece where
  | blank (g : Glyph)
  | lineComment (body : Text)
  | blockComment (body : Text) (closed : Bool)
  | unknown (g : Glyph)
  | lexeme (kind : Kind) (text : Text)
  | quoted (literal : Quoted)
deriving DecidableEq

namespace Piece

/-- What a piece was written as. -/
def text : Piece → Text
  | blank g => [g]
  | lineComment body => "//" ++ body
  | blockComment body closed => "/*" ++ body ++ if closed then Text.ofString "*/" else []
  | unknown g => [g]
  | lexeme _ text => text
  | quoted literal => literal.text

/-! ### Reading a piece -/

/-- The body of a block comment, and whether the comment is closed after it. -/
def readBlock : Text → Text × Bool
  | [] => ([], false)
  | g :: rest =>
    if g = '*' ∧ rest.head? = some (Glyph.scalar '/') then ([], true)
    else
      let (body, closed) := readBlock rest
      (g :: body, closed)

/-- The word at the front of a text: reserved only when the whole of it is. -/
def readWord (t : Text) : Piece :=
  let word := t.takeWhile Glyph.isWordPart
  lexeme ((keyword? word).getD .ident) word

/-- The operator at the front of a text, else a character that the language does not know. -/
def readOperator (g : Glyph) (rest : Text) : Piece :=
  match operators.find? fun entry => entry.1.isPrefixOf (g :: rest) with
  | some (text, kind) => lexeme kind text
  | none => unknown g

/-- The piece at the front of the text `g :: rest`. -/
def read (g : Glyph) (rest : Text) : Piece :=
  let next := rest.head?
  if g.isGap then blank g
  else if g = '/' ∧ next = some (Glyph.scalar '/') then
    lineComment (rest.tail.takeWhile (· ≠ Glyph.scalar '\n'))
  else if g = '/' ∧ next = some (Glyph.scalar '*') then
    let (body, closed) := readBlock rest.tail
    blockComment body closed
  else if g.isDigit ∨ (g = '.' ∧ next.any Glyph.isDigit) then
    let n := Numeral.read (g :: rest)
    lexeme n.kind n.text
  else if g = '"' ∨ g = '\'' then quoted (Quoted.read g rest)
  else if g.isWordStart then readWord (g :: rest)
  else readOperator g rest

/-! ### A piece is a front of the text, and never empty -/

theorem readBlock_front (t : Text) :
    (readBlock t).1 ++ (if (readBlock t).2 then Text.ofString "*/" else []) <+: t := by
  induction t with
  | nil => exact List.nil_prefix
  | cons g rest ih =>
    simp only [readBlock]
    split
    · rename_i h
      obtain ⟨rfl, hr⟩ := h
      cases rest with
      | nil => simp at hr
      | cons s more =>
        simp only [List.head?_cons, Option.some.injEq] at hr
        subst hr
        exact ⟨more, rfl⟩
    · simp only [List.cons_append]
      exact (List.prefix_cons_inj _).2 ih

theorem readOperator_front (g : Glyph) (rest : Text) :
    (readOperator g rest).text <+: g :: rest := by
  unfold readOperator
  split
  · rename_i h
    have := List.find?_some h
    exact List.isPrefixOf_iff_prefix.1 this
  · exact ⟨rest, rfl⟩

theorem operators_ne_nil : ∀ entry ∈ operators, entry.1 ≠ [] := by decide

theorem readOperator_ne_nil (g : Glyph) (rest : Text) : (readOperator g rest).text ≠ [] := by
  unfold readOperator
  split
  · rename_i h
    exact operators_ne_nil _ (List.mem_of_find?_eq_some h)
  · simp [text]

theorem text_front (g : Glyph) (rest : Text) : (read g rest).text <+: g :: rest := by
  unfold read
  dsimp only
  split
  · exact ⟨rest, rfl⟩
  split
  · rename_i h
    obtain ⟨rfl, hr⟩ := h
    cases rest with
    | nil => simp at hr
    | cons s more =>
      simp only [List.head?_cons, Option.some.injEq] at hr
      subst hr
      exact (List.prefix_cons_inj _).2 ((List.prefix_cons_inj _).2 (List.takeWhile_prefix _))
  split
  · rename_i h
    obtain ⟨rfl, hr⟩ := h
    cases rest with
    | nil => simp at hr
    | cons s more =>
      simp only [List.head?_cons, Option.some.injEq] at hr
      subst hr
      exact (List.prefix_cons_inj _).2 ((List.prefix_cons_inj _).2 (readBlock_front _))
  split
  · exact Numeral.text_front _
  split
  · exact Quoted.text_front _ _
  split
  · exact List.takeWhile_prefix _
  · exact readOperator_front _ _

theorem text_ne_nil (g : Glyph) (rest : Text) : (read g rest).text ≠ [] := by
  unfold read
  dsimp only
  split
  · simp [text]
  split
  · simp [text, Text.ofString]
  split
  · simp [text, Text.ofString]
  split
  · rename_i h
    rcases h with h | ⟨rfl, -⟩
    · simp [text, Numeral.text, Numeral.read, Text.digits, h]
    · simp [text, Numeral.text, Numeral.read, Text.digits, Numeral.readFraction,
        show Glyph.isDigit (Glyph.scalar '.') = false from rfl]
  split
  · simp [text, Quoted.text]
  split
  · rename_i h
    simp [readWord, text, Glyph.isWordPart, h]
  · exact readOperator_ne_nil _ _

end Piece

/-! ### The whole cut -/

/-- The pieces of a text, from left to right. -/
def pieces : Text → List Piece
  | [] => []
  | g :: rest =>
    Piece.read g rest :: pieces ((g :: rest).drop (Piece.read g rest).text.length)
termination_by t => t.length
decreasing_by
  have := List.length_pos_iff.2 (Piece.text_ne_nil g rest)
  simp only [List.length_drop, List.length_cons]
  omega

/-- Nothing is lost: the texts of the pieces make up the source. -/
theorem flatMap_text_pieces (t : Text) : (pieces t).flatMap Piece.text = t := by
  fun_induction pieces t with
  | case1 => rfl
  | case2 g rest ih =>
    rw [List.flatMap_cons, ih]
    exact List.prefix_iff_eq_append.1 (Piece.text_front g rest)

/-! ### Tokens and faults of a piece -/

/-- What can be wrong with a piece. -/
inductive LexicalFault where
  | unknownCharacter (g : Glyph)
  | openComment
  | openLiteral (literal : Quoted)
  | notOneCharacter (literal : Quoted)
  | escape (fault : EscapeFault)
deriving DecidableEq

namespace LexicalFault

/-- What a message calls a literal. -/
def literalName (q : Quoted) : Text :=
  if q.kind = .charLit then "character" else "string"

/-- The message for a fault. -/
def message : LexicalFault → Text
  | unknownCharacter g => "Unrecognized character: '" ++ [Glyph.scalar g.shown] ++ "'"
  | openComment => "unterminated block comment: missing closing */"
  | openLiteral q =>
    "unterminated " ++ literalName q ++ " literal " ++ q.text ++ ": missing closing " ++ [q.quote]
  | notOneCharacter q => "character literal " ++ q.text ++ " must contain exactly one character"
  | escape (.unknown g) => "invalid escape sequence '\\" ++ [Glyph.scalar g.leadChar] ++ "'"
  | escape .unicodeDigits => "invalid unicode escape: expected four hex digits after \\u"

/-- The diagnostic for a fault over a span. -/
def diagnostic (f : LexicalFault) (span : Span) : Diagnostic :=
  .make .generalSyntax f.message span

end LexicalFault

/-- The escapes of a run of units that are wrong, from the place where the run starts. -/
def escapeDiagnostics (p : Position) : List LiteralUnit → List Diagnostic
  | [] => []
  | u :: rest =>
    let after := p.advance u.text
    match u with
    | .escape _ (some fault) =>
      LexicalFault.diagnostic (.escape fault) ⟨p, after⟩ :: escapeDiagnostics after rest
    | _ => escapeDiagnostics after rest

/-- What is wrong with a literal as a whole. -/
def Quoted.fault? (q : Quoted) : Option LexicalFault :=
  if q.ending ≠ .closed then some (.openLiteral q)
  else if q.kind = .charLit ∧ q.units.length ≠ 1 then some (.notOneCharacter q)
  else none

namespace Piece

/-- The place and the text of a piece give its span. -/
def span (p : Position) (x : Piece) : Span := ⟨p, p.advance x.text⟩

/-- The token that a piece makes at a place. -/
def token? (p : Position) (x : Piece) : Option Token :=
  match x with
  | lexeme kind text => some ⟨kind, text, x.span p, false⟩
  | quoted q => some ⟨q.kind, q.text, x.span p, q.ending ≠ .closed⟩
  | _ => none

/-- The diagnostics of a piece at a place. -/
def diagnostics (p : Position) (x : Piece) : List Diagnostic :=
  match x with
  | unknown g => [LexicalFault.diagnostic (.unknownCharacter g) (x.span p)]
  | blockComment _ false =>
    [LexicalFault.diagnostic .openComment ⟨p, p.advance "/*"⟩]
  | quoted q =>
    escapeDiagnostics (p.after q.quote) q.units
      ++ (q.fault?.map fun f => f.diagnostic (x.span p)).toList
  | _ => []

end Piece

end JavaPrimer
