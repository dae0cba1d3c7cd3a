import JavaPrimer.Token.Numeral

/-!
# Quoted literals

A string or character literal is a quote, a run of units and an ending. A unit is a plain
glyph or an escape; a literal that reaches the end of its line is cut there.

Definitions:
- `EscapeFault`, `readEscape`: what follows a backslash and what may be wrong with it.
- `LiteralUnit`, `Ending`, `Quoted`: the parts of a literal and their texts.
- `readUnits`, `Quoted.read`: the literal that a quote opens.

Main statement: `Quoted.text_front`, the literal read is the front of the text.
-/

namespace JavaPrimer

/-- What can be wrong with an escape. -/
inductive EscapeFault where
  | unknown (g : Glyph)
  | unicodeDigits
deriving DecidableEq

/-- Octal digits. -/
def Glyph.isOctal (g : Glyph) : Bool := g.satisfies fun c => '0' ≤ c && c ≤ '7'

/-- Hexadecimal digits. -/
def Glyph.isHex (g : Glyph) : Bool :=
  g.satisfies fun c => c.isDigit || ('a' ≤ c && c ≤ 'f') || ('A' ≤ c && c ≤ 'F')

/-- Line feed and carriage return, where a literal is cut. -/
def Glyph.isLineEnd (g : Glyph) : Bool := g.isOneOf ['\n', '\r']

/-! ### Escapes -/

/-- The text of a Unicode escape after its backslash: marks, then up to four digits. -/
def readUnicode (t : Text) : Text × Option EscapeFault :=
  let marks := t.takeWhile (· = Glyph.scalar 'u')
  let digits := ((t.drop marks.length).take 4).takeWhile Glyph.isHex
  (marks ++ digits, if digits.length = 4 then none else some .unicodeDigits)

/-- What belongs to an escape after its backslash, given the glyph that follows it and the rest. -/
def readEscape (g : Glyph) (rest : Text) : Text × Option EscapeFault :=
  if g.isOneOf ['b', 't', 'n', 'f', 'r', '"', '\'', '\\'] then ([g], none)
  else if g = 'u' then readUnicode (g :: rest)
  else if g.isOctal then (((g :: rest).take 3).takeWhile Glyph.isOctal, none)
  else ([g], some (.unknown g))

theorem takeWhile_take_front (p : Glyph → Bool) (n : Nat) (t : Text) :
    (t.take n).takeWhile p <+: t :=
  (List.takeWhile_prefix p).trans (List.take_prefix n t)

theorem readUnicode_front (t : Text) : (readUnicode t).1 <+: t :=
  Numeral.append_drop_front (List.takeWhile_prefix _) (takeWhile_take_front _ _ _)

theorem readEscape_front (g : Glyph) (rest : Text) : (readEscape g rest).1 <+: g :: rest := by
  unfold readEscape
  split
  · exact ⟨rest, rfl⟩
  split
  · exact readUnicode_front _
  split
  · exact takeWhile_take_front _ _ _
  · exact ⟨rest, rfl⟩

/-! ### Units and endings -/

/-- One character of a literal as it is written; an escape keeps what stands after its
backslash. -/
inductive LiteralUnit where
  | plain (g : Glyph)
  | escape (body : Text) (fault : Option EscapeFault)
deriving DecidableEq

/-- The text of a unit. -/
def LiteralUnit.text : LiteralUnit → Text
  | plain g => [g]
  | escape body _ => Glyph.scalar '\\' :: body

/-- How a literal ends: with its quote, or cut off, perhaps right after a backslash. -/
inductive Ending where
  | closed
  | cut
  | cutAfterBackslash
deriving DecidableEq

/-- The text of an ending. -/
def Ending.text (quote : Glyph) : Ending → Text
  | closed => [quote]
  | cut => []
  | cutAfterBackslash => [Glyph.scalar '\\']

/-- A quoted literal. -/
structure Quoted where
  quote : Glyph
  units : List LiteralUnit
  ending : Ending
deriving DecidableEq

/-- The text of a literal, its quotes included. -/
def Quoted.text (q : Quoted) : Text :=
  q.quote :: (q.units.flatMap LiteralUnit.text ++ q.ending.text q.quote)

/-- The kind of token a literal makes. -/
def Quoted.kind (q : Quoted) : Kind :=
  if q.quote = '\'' then .charLit else .stringLit

/-! ### Reading -/

/-- Puts a unit in front of those already read. -/
def consUnit (u : LiteralUnit) (r : List LiteralUnit × Ending) : List LiteralUnit × Ending :=
  (u :: r.1, r.2)

/-- The units up to the closing quote or the end of the line. -/
def readUnits (quote : Glyph) : Text → List LiteralUnit × Ending
  | [] => ([], .cut)
  | g :: rest =>
    if g.isLineEnd then ([], .cut)
    else if g = quote then ([], .closed)
    else if g = '\\' then
      match rest with
      | [] => ([], .cutAfterBackslash)
      | e :: more =>
        if e = '\n' then ([], .cutAfterBackslash)
        else
          let (body, fault) := readEscape e more
          consUnit (.escape body fault) (readUnits quote ((e :: more).drop body.length))
    else consUnit (.plain g) (readUnits quote rest)
termination_by t => t.length
decreasing_by
  · simp only [List.length_drop, List.length_cons]
    omega
  · simp

/-- The literal that `quote` opens in front of a text. -/
def Quoted.read (quote : Glyph) (rest : Text) : Quoted :=
  let (units, ending) := readUnits quote rest
  ⟨quote, units, ending⟩

theorem readUnits_front (quote : Glyph) (t : Text) :
    (readUnits quote t).1.flatMap LiteralUnit.text ++ (readUnits quote t).2.text quote <+: t := by
  fun_induction readUnits quote t with
  | case1 => exact List.nil_prefix
  | case2 => exact List.nil_prefix
  | case3 rest => exact ⟨rest, rfl⟩
  | case4 => exact List.prefix_refl _
  | case5 e more => exact ⟨_, rfl⟩
  | case6 e more hn body fault he _ _ ih =>
    have hb : body <+: e :: more := by
      have := readEscape_front e more
      rwa [he] at this
    simp only [consUnit, List.flatMap_cons, LiteralUnit.text, List.cons_append, List.append_assoc]
    exact (List.prefix_cons_inj _).2 (Numeral.append_drop_front hb ih)
  | case7 g rest _ _ _ ih =>
    simp only [consUnit, List.flatMap_cons, LiteralUnit.text, List.cons_append, List.nil_append]
    exact (List.prefix_cons_inj _).2 ih

theorem Quoted.text_front (quote : Glyph) (rest : Text) :
    (Quoted.read quote rest).text <+: quote :: rest :=
  (List.prefix_cons_inj _).2 (readUnits_front quote rest)

end JavaPrimer
