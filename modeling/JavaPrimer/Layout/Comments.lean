import JavaPrimer.Text.Basic

/-!
# Comments that a layout drops

A layout holds no comments. Whether a source has any can be told by a scan that knows
nothing of tokens but quotes.

Definitions:
- `commentFollows`: the scan, inside a quote or outside.
- `containsComment`: whether a source has a comment outside its literals.
-/

namespace JavaPrimer

/-- Whether a comment starts in a text, inside a literal opened by `quote` or outside any. A
literal ends at its quote or at the end of its line; a backslash protects what follows it. -/
def commentFollows (quote : Option Glyph) : Text → Bool
  | [] => false
  | g :: rest =>
    match quote with
    | some q =>
      if g = '\\' then
        match rest with
        | [] => false
        | _ :: more => commentFollows (some q) more
      else if g = q ∨ g = '\n' then commentFollows none rest
      else commentFollows (some q) rest
    | none =>
      if g = '"' ∨ g = '\'' then commentFollows (some g) rest
      else if g = '/' ∧ rest.head?.any (Glyph.isOneOf ['/', '*']) then true
      else commentFollows none rest

/-- Whether a source has a comment outside its literals. -/
def containsComment (source : Text) : Bool := commentFollows none source

end JavaPrimer
