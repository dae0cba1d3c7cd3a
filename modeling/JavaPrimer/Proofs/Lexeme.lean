import JavaPrimer.Proofs.NumeralMunch
import JavaPrimer.Proofs.QuotedMunch
import JavaPrimer.Token.Lexing
import Mathlib.Data.List.Find
import Mathlib.Data.List.Nodup

/-!
# Lexemes

What a token can be, by its class alone, and when it is cut out of a text whole: the glyph behind
it must not be one that could belong to it. Words end where no letter or digit follows, numerals
moreover where no point does, operators where the next glyph makes no longer operator and opens no
comment; a quoted literal ends by itself.

* `Token.form`, `Piece.form?` — kind and text, without the place;
* `Lexeme` — the classes of tokens;
* `Text.stops` — the glyphs that a lexeme can stand before;
* `Quoted.diagnostics_eq_nil_iff` — when nothing is wrong with a literal;
* `lexeme_of_read`, `Lexeme.read_append` — a piece without a fault is a lexeme, and a lexeme before
  a glyph that stops it is cut out as such a piece;
* `Lexeme.kind_iff` — a kind with one spelling is written that way.
-/

namespace JavaPrimer

/-! ### Forms -/

/-- A token without its place. -/
def Token.form (t : Token) : Kind × Text := (t.kind, t.value)

namespace Piece

/-- The token that a piece makes, without its place. -/
def form? : Piece → Option (Kind × Text)
  | lexeme k v => some (k, v)
  | quoted q => some (q.kind, q.text)
  | _ => none

theorem text_of_form? {x : Piece} {k : Kind} {v : Text} (h : x.form? = some (k, v)) :
    x.text = v := by
  cases x <;> simp_all [form?, text]

theorem form?_token? (x : Piece) (p : Position) : (x.token? p).map Token.form = x.form? := by
  cases x <;> rfl

/-- Nothing is wrong with a piece, wherever it stands. -/
def Faultless (x : Piece) : Prop := ∀ p, x.diagnostics p = []

/-- Whether a piece is a comment. -/
def isComment : Piece → Bool
  | lineComment _ => true
  | blockComment _ _ => true
  | _ => false

theorem not_isComment_of_form? {x : Piece} {f : Kind × Text} (h : x.form? = some f) :
    x.isComment = false := by
  cases x <;> first | rfl | cases h

end Piece

/-! ### Classes of tokens -/

/-- Whether a text starts the way numerals do. -/
def Numeral.starts : Text → Bool
  | g :: rest => g.isDigit || (g == Glyph.scalar '.' && rest.head?.any Glyph.isDigit)
  | [] => false

/-- The tokens of the language: words, numerals, quoted literals and operators. -/
inductive Lexeme : Kind → Text → Prop
  | word {g : Glyph} {r : Text} : g.isWordStart = true → (∀ x ∈ r, x.isWordPart = true) →
      Lexeme ((keyword? (g :: r)).getD .ident) (g :: r)
  | numeral {n : Numeral} : n.WellFormed → Numeral.starts n.text = true → Lexeme n.kind n.text
  | quoted {quote : Glyph} {t : Text} : quote.isOneOf ['"', '\''] = true →
      (Piece.quoted (Quoted.read quote t)).Faultless →
      Lexeme (Quoted.read quote t).kind (Quoted.read quote t).text
  | operator {k : Kind} {v : Text} : (v, k) ∈ operators → Lexeme k v

/-- The glyphs that make a longer operator of an operator, or a comment. -/
def Text.extensions (v : Text) : List Glyph :=
  (operators.filterMap fun entry => match entry.1 with
    | [a, b] => if v = [a] then some b else none
    | _ => none)
  ++ if v = "/" then [Glyph.scalar '/', Glyph.scalar '*'] else []

/-- Whether a lexeme ends before a glyph. -/
def Text.stops (v : Text) (g : Glyph) : Bool :=
  match v with
  | [] => false
  | c :: _ =>
    if c.isOneOf ['"', '\''] then true
    else if c.isWordStart then !g.isWordPart
    else if Numeral.starts v then
      !g.isWordPart && g != Glyph.scalar '.' && !(Numeral.endsInMark v && g.isSign)
    else !(Text.extensions v).contains g && !(v == Text.ofString "." && g.isDigit)

/-! ### Kinds of glyphs -/

/-- A glyph of one class is none of the characters outside the class. -/
theorem Glyph.not_isOneOf {p : Glyph → Bool} {cs : List Char} {g : Glyph} (h : p g = true)
    (hcs : ∀ c ∈ cs.map Glyph.scalar, p c = false) : g.isOneOf cs = false := by
  cases hg : g.isOneOf cs with
  | false => rfl
  | true =>
    rw [hcs g (Glyph.mem_of_isOneOf hg)] at h
    cases h

theorem Glyph.ne_of_class {p : Glyph → Bool} {c : Char} {g : Glyph} (h : p g = true)
    (hc : p (Glyph.scalar c) = false) : g ≠ Glyph.scalar c := by
  intro hg
  rw [hg, hc] at h
  cases h

/-- The letters stand in two rows. -/
theorem toNat_of_isAlpha {c : Char} (h : c.isAlpha = true) :
    (65 ≤ c.val.toNat ∧ c.val.toNat ≤ 90) ∨ (97 ≤ c.val.toNat ∧ c.val.toNat ≤ 122) := by
  have hletter : c.isAlpha = (c.isUpper || c.isLower) := rfl
  have hupper : c.isUpper = decide (c.val ≥ 65 ∧ c.val ≤ 90) := rfl
  have hlower : c.isLower = (c.val ≥ 97 && c.val ≤ 122) := rfl
  simp only [hletter, hupper, hlower, Bool.or_eq_true, Bool.and_eq_true, decide_eq_true_eq,
    ge_iff_le, UInt32.le_iff_toNat_le] at h
  exact h

theorem Glyph.not_isDigit_of_isWordStart {g : Glyph} (h : g.isWordStart = true) :
    g.isDigit = false := by
  cases g with
  | stray b => rfl
  | scalar c =>
    simp only [isWordStart, satisfies, Bool.or_eq_true, decide_eq_true_eq] at h
    simp only [isDigit, satisfies]
    rcases h with (h | rfl) | rfl
    · have hletter := toNat_of_isAlpha h
      simp only [Char.isDigit, Bool.and_eq_false_iff, decide_eq_false_iff_not, ge_iff_le,
        UInt32.le_iff_toNat_le]
      change ¬ 48 ≤ c.val.toNat ∨ ¬ c.val.toNat ≤ 57
      omega
    · rfl
    · rfl

/-! ### Which piece stands at the front -/

namespace Piece

theorem read_numeral {g : Glyph} {rest : Text} (h : Numeral.starts (g :: rest) = true) :
    read g rest = lexeme (Numeral.read (g :: rest)).kind (Numeral.read (g :: rest)).text := by
  have hgap : g.isGap = false ∧ g ≠ Glyph.scalar '/' := by
    simp only [Numeral.starts, Bool.or_eq_true, Bool.and_eq_true, beq_iff_eq] at h
    rcases h with h | ⟨rfl, -⟩
    · exact ⟨Glyph.not_isOneOf h (by decide), Glyph.ne_of_class h rfl⟩
    · exact ⟨rfl, by decide⟩
  simp only [Numeral.starts, Bool.or_eq_true, Bool.and_eq_true, beq_iff_eq] at h
  simp only [read, hgap.1, hgap.2, h, false_and, if_false, if_true, Bool.false_eq_true]

theorem read_quoted {g : Glyph} {rest : Text} (h : g.isOneOf ['"', '\''] = true) :
    read g rest = quoted (Quoted.read g rest) := by
  rcases Glyph.eq_or_eq_of_isOneOf h with rfl | rfl <;> rfl

/-- A literal starts with its quote. -/
theorem isQuote_of_read_quoted {g : Glyph} {rest : Text} {q : Quoted} (h : read g rest = quoted q) :
    g.isOneOf ['"', '\''] = true ∧ Quoted.read g rest = q := by
  have hquote : g.isOneOf ['"', '\''] = true := by
    unfold read at h
    dsimp only at h
    split at h
    · cases h
    split at h
    · cases h
    split at h
    · cases h
    split at h
    · cases h
    split at h
    · next hg => rcases hg with rfl | rfl <;> rfl
    split at h
    · cases h
    · unfold readOperator at h
      split at h <;> cases h
  rw [read_quoted hquote] at h
  exact ⟨hquote, Piece.quoted.inj h⟩

theorem read_word {g : Glyph} {rest : Text} (h : g.isWordStart = true) :
    read g rest = readWord (g :: rest) := by
  have hgap : g.isGap = false := Glyph.not_isOneOf h (by decide)
  have hslash : g ≠ Glyph.scalar '/' := Glyph.ne_of_class h rfl
  have hpoint : g ≠ Glyph.scalar '.' := Glyph.ne_of_class h rfl
  have hdouble : g ≠ Glyph.scalar '"' := Glyph.ne_of_class h rfl
  have hsingle : g ≠ Glyph.scalar '\'' := Glyph.ne_of_class h rfl
  simp only [read, hgap, hslash, hpoint, hdouble, hsingle, Glyph.not_isDigit_of_isWordStart h, h,
    false_and, or_false, if_false, if_true, Bool.false_eq_true]

/-- An operator that opens no comment and no numeral is read as such. -/
theorem read_operator {g : Glyph} {rest : Text}
    (hg : g.isGap = false ∧ g.isDigit = false ∧ g.isWordStart = false
      ∧ g.isOneOf ['"', '\''] = false)
    (hslash : g = Glyph.scalar '/' → ∀ x ∈ rest.head?, x.isOneOf ['/', '*'] = false)
    (hpoint : g = Glyph.scalar '.' → ∀ x ∈ rest.head?, x.isDigit = false) :
    read g rest = readOperator g rest := by
  obtain ⟨hgap, hdigit, hword, hquote⟩ := hg
  have hdouble : g ≠ Glyph.scalar '"' := by
    rintro rfl
    cases hquote
  have hsingle : g ≠ Glyph.scalar '\'' := by
    rintro rfl
    cases hquote
  have hline : ¬ (g = Glyph.scalar '/' ∧ rest.head? = some (Glyph.scalar '/')) := by
    rintro ⟨rfl, hr⟩
    exact absurd (hslash rfl _ hr) (by decide)
  have hblock : ¬ (g = Glyph.scalar '/' ∧ rest.head? = some (Glyph.scalar '*')) := by
    rintro ⟨rfl, hr⟩
    exact absurd (hslash rfl _ hr) (by decide)
  have hnumeral : ¬ (g = Glyph.scalar '.' ∧ rest.head?.any Glyph.isDigit = true) := by
    rintro ⟨rfl, hr⟩
    obtain ⟨x, hx, hd⟩ := (Option.any_eq_true _ _).1 hr
    rw [hpoint rfl x hx] at hd
    cases hd
  simp only [read, hgap, hline, hblock, hdigit, hnumeral, hdouble, hsingle, hword, or_self,
    if_false, Bool.false_eq_true]

end Piece

/-! ### Pieces without a fault are lexemes -/

theorem Numeral.starts_append {v : Text} (h : Numeral.starts v = true) (b : Text) :
    Numeral.starts (v ++ b) = true := by
  cases v with
  | nil => cases h
  | cons g v =>
    cases v with
    | nil =>
      simp only [starts, List.head?_nil, Option.any_none, Bool.and_false, Bool.or_false] at h
      simp only [List.cons_append, starts, h, Bool.true_or]
    | cons x v => exact h

theorem Numeral.starts_read {t : Text} (h : Numeral.starts t = true) :
    Numeral.starts (Numeral.read t).text = true := by
  cases t with
  | nil => cases h
  | cons g rest =>
    simp only [starts, Bool.or_eq_true, Bool.and_eq_true, beq_iff_eq] at h
    rcases h with h | ⟨rfl, h⟩
    · have hwhole : Text.digits (g :: rest) = g :: Text.digits rest := List.takeWhile_cons_of_pos h
      simp only [read, text, hwhole, List.cons_append, starts, h, Bool.true_or]
    · obtain ⟨d, hd, hdigit⟩ := (Option.any_eq_true _ _).1 h
      obtain ⟨more, rfl⟩ := List.head?_eq_some_iff.1 hd
      have hwhole : Text.digits (Glyph.scalar '.' :: d :: more) = [] := rfl
      have hfraction : Text.digits (d :: more) = d :: Text.digits more :=
        List.takeWhile_cons_of_pos hdigit
      simp only [read, text, hwhole, List.length_nil, List.drop_zero, readFraction, if_true,
        hfraction, List.cons_append, List.nil_append, starts, List.head?_cons, Option.any_some,
        hdigit, Bool.and_true, Bool.or_eq_true, beq_self_eq_true, or_true]

theorem lexeme_of_read {g : Glyph} {rest : Text} {k : Kind} {v : Text}
    (hform : (Piece.read g rest).form? = some (k, v)) (hok : (Piece.read g rest).Faultless) :
    Lexeme k v := by
  by_cases hnumeral : Numeral.starts (g :: rest) = true
  · rw [Piece.read_numeral hnumeral] at hform
    obtain ⟨rfl, rfl⟩ := Prod.mk.inj (Option.some.inj hform)
    exact .numeral (Numeral.wellFormed_read _) (Numeral.starts_read hnumeral)
  by_cases hquote : g.isOneOf ['"', '\''] = true
  · rw [Piece.read_quoted hquote] at hform hok
    obtain ⟨rfl, rfl⟩ := Prod.mk.inj (Option.some.inj hform)
    exact .quoted hquote hok
  by_cases hword : g.isWordStart = true
  · rw [Piece.read_word hword] at hform
    obtain ⟨rfl, rfl⟩ := Prod.mk.inj (Option.some.inj hform)
    rw [List.takeWhile_cons_of_pos (by rw [Glyph.isWordPart, hword, Bool.true_or])]
    exact .word hword (List.all_eq_true.1 List.all_takeWhile)
  -- what is left is an operator or makes no token
  unfold Piece.read at hform
  simp only at hform
  split at hform
  · cases hform
  split at hform
  · cases hform
  split at hform
  · cases hform
  split at hform
  · next h =>
    refine absurd ?_ hnumeral
    simp only [Numeral.starts, Bool.or_eq_true, Bool.and_eq_true, beq_iff_eq]
    exact h
  split at hform
  · next h =>
    refine absurd ?_ hquote
    rcases h with rfl | rfl <;> rfl
  unfold Piece.readOperator at hform
  split at hform
  · next h =>
    obtain ⟨rfl, rfl⟩ := Prod.mk.inj (Option.some.inj hform)
    exact .operator (List.mem_of_find?_eq_some h)
  · cases hform

/-! ### What stops a lexeme -/

theorem Text.stops_word {g x : Glyph} {r : Text} (hg : g.isWordStart = true) :
    Text.stops (g :: r) x = !x.isWordPart := by
  have hquote : g.isOneOf ['"', '\''] = false := Glyph.not_isOneOf hg (by decide)
  simp only [stops, hquote, hg, if_true, if_false, Bool.false_eq_true]

theorem Text.stops_numeral {v : Text} {x : Glyph} (hv : Numeral.starts v = true) :
    v.stops x = (!x.isWordPart && x != Glyph.scalar '.'
      && !(Numeral.endsInMark v && x.isSign)) := by
  cases v with
  | nil => cases hv
  | cons g v =>
    have hg : g.isOneOf ['"', '\''] = false ∧ g.isWordStart = false := by
      simp only [Numeral.starts, Bool.or_eq_true, Bool.and_eq_true, beq_iff_eq] at hv
      rcases hv with h | ⟨rfl, -⟩
      · refine ⟨Glyph.not_isOneOf h (by decide), ?_⟩
        cases hw : g.isWordStart with
        | false => rfl
        | true =>
          rw [Glyph.not_isDigit_of_isWordStart hw] at h
          cases h
      · exact ⟨rfl, rfl⟩
    simp only [stops, hg.1, hg.2, hv, if_true, if_false, Bool.false_eq_true]

theorem Text.stops_quoted {g x : Glyph} {r : Text} (hg : g.isOneOf ['"', '\''] = true) :
    Text.stops (g :: r) x = true :=
  if_pos hg

theorem operators_head : ∀ entry ∈ operators, ∀ g ∈ entry.1.head?,
    g.isGap = false ∧ g.isDigit = false ∧ g.isWordStart = false
      ∧ g.isOneOf ['"', '\''] = false := by decide

theorem operators_not_numeral : ∀ entry ∈ operators, Numeral.starts entry.1 = false := by decide

theorem Text.stops_operator {v : Text} {k : Kind} {x : Glyph} (hv : (v, k) ∈ operators) :
    v.stops x = (!(Text.extensions v).contains x && !(v == Text.ofString "." && x.isDigit)) := by
  cases v with
  | nil => exact absurd rfl (Piece.operators_ne_nil _ hv)
  | cons g v =>
    obtain ⟨-, -, hword, hquote⟩ := operators_head _ hv g rfl
    have hnumeral : Numeral.starts (g :: v) = false := operators_not_numeral _ hv
    simp only [stops, hquote, hword, hnumeral, if_false, Bool.false_eq_true]

/-! ### Lexemes are read whole -/

theorem Piece.read_word_append {g : Glyph} {r b : Text} (hg : g.isWordStart = true)
    (hr : ∀ x ∈ r, x.isWordPart = true) (hb : ∀ x ∈ b.head?, Text.stops (g :: r) x = true) :
    read g (r ++ b) = lexeme ((keyword? (g :: r)).getD .ident) (g :: r) := by
  have hrun : (g :: r ++ b).takeWhile Glyph.isWordPart = g :: r := by
    refine Text.takeWhile_append_stop ?_ ?_
    · intro x hx
      rcases List.mem_cons.1 hx with rfl | hx
      · rw [Glyph.isWordPart, hg, Bool.true_or]
      · exact hr x hx
    · intro x hx
      have hstop := hb x hx
      rwa [Text.stops_word hg, Bool.not_eq_true'] at hstop
  rw [read_word hg]
  show lexeme ((keyword? ((g :: r ++ b).takeWhile Glyph.isWordPart)).getD .ident)
    ((g :: r ++ b).takeWhile Glyph.isWordPart) = _
  rw [hrun]

theorem Numeral.ended_of_stops {v b : Text} (hv : Numeral.starts v = true)
    (hb : ∀ x ∈ b.head?, v.stops x = true) : Numeral.Ended b := by
  have hpart : ∀ x ∈ b.head?, x.isWordPart = false ∧ x ≠ Glyph.scalar '.' := by
    intro x hx
    have hstop := hb x hx
    simp only [Text.stops_numeral hv, Bool.and_eq_true, Bool.not_eq_true', bne_iff_ne] at hstop
    exact hstop.1
  have hclass : ∀ cs : List Char, (∀ c ∈ cs.map Glyph.scalar, c.isWordPart = true) →
      ∀ x ∈ b.head?, x.isOneOf cs = false := by
    intro cs hcs x hx
    exact Glyph.not_isOneOf (p := (!·.isWordPart)) (by simp [(hpart x hx).1]) (by simpa using hcs)
  refine ⟨?_, fun x hx => (hpart x hx).2, hclass _ (by decide), hclass _ (by decide),
    hclass _ (by decide)⟩
  intro x hx
  exact (Bool.or_eq_false_iff.1 (hpart x hx).1).2

theorem Piece.read_numeral_append {n : Numeral} {g : Glyph} {v b : Text} (hn : n.WellFormed)
    (hg : n.text = g :: v) (hstart : Numeral.starts n.text = true)
    (hb : ∀ x ∈ b.head?, n.text.stops x = true) :
    read g (v ++ b) = lexeme n.kind n.text := by
  have hfront : g :: (v ++ b) = n.text ++ b := by rw [hg, List.cons_append]
  have hread : Numeral.read (n.text ++ b) = n := by
    refine Numeral.read_append hn (Numeral.ended_of_stops hstart hb) ?_
    intro hmark x hx
    have hstop := hb x hx
    simp only [Text.stops_numeral hstart, hmark, Bool.true_and, Bool.and_eq_true,
      Bool.not_eq_true'] at hstop
    exact hstop.2
  rw [read_numeral (by rw [hfront]; exact Numeral.starts_append hstart b), hfront, hread]

/-- What is wrong with a unit. -/
def LiteralUnit.fault? : LiteralUnit → Option EscapeFault
  | plain _ => none
  | escape _ fault => fault

theorem escapeDiagnostics_eq_nil_iff {us : List LiteralUnit} (p : Position) :
    escapeDiagnostics p us = [] ↔ ∀ u ∈ us, u.fault? = none := by
  induction us generalizing p with
  | nil => exact iff_of_true rfl (List.forall_mem_nil _)
  | cons u us ih =>
    rw [List.forall_mem_cons]
    cases u with
    | plain g => exact (ih _).trans (and_iff_right rfl).symm
    | escape body fault =>
      cases fault with
      | none => exact (ih _).trans (and_iff_right rfl).symm
      | some fault => exact iff_of_false (List.cons_ne_nil _ _) fun h => nomatch h.1

namespace Quoted

theorem kind_eq_charLit_iff {q : Quoted} : q.kind = .charLit ↔ q.quote = Glyph.scalar '\'' := by
  unfold kind
  split
  · next h => exact iff_of_true rfl h
  · next h => exact iff_of_false (by decide) h

theorem fault?_eq_none_iff {q : Quoted} : q.fault? = none
    ↔ q.ending = .closed ∧ (q.quote = Glyph.scalar '\'' → q.units.length = 1) := by
  simp only [fault?, kind_eq_charLit_iff]
  split
  · next h => exact iff_of_false (by simp) fun h' => h h'.1
  split
  · next h => exact iff_of_false (by simp) fun h' => h.2 (h'.2 h.1)
  · next hclosed hone =>
    refine iff_of_true rfl ⟨Decidable.not_not.1 hclosed, fun hq => ?_⟩
    exact Decidable.not_not.1 fun hne => hone ⟨hq, hne⟩

/-- Nothing is wrong with a literal if nothing is wrong with its units, it is closed, and between
single quotes there is one unit. -/
theorem diagnostics_eq_nil_iff {q : Quoted} (p : Position) : (Piece.quoted q).diagnostics p = []
    ↔ (∀ u ∈ q.units, u.fault? = none) ∧ q.ending = .closed
      ∧ (q.quote = Glyph.scalar '\'' → q.units.length = 1) := by
  simp only [Piece.diagnostics, List.append_eq_nil_iff, escapeDiagnostics_eq_nil_iff,
    Option.toList_eq_nil_iff, Option.map_eq_none_iff, fault?_eq_none_iff]

theorem closed_of_faultless {q : Quoted} (h : (Piece.quoted q).Faultless) : q.ending = .closed :=
  ((diagnostics_eq_nil_iff .origin).1 (h .origin)).2.1

end Quoted

theorem Piece.read_quoted_append {quote : Glyph} {t v b : Text}
    (hquote : quote.isOneOf ['"', '\''] = true) (hok : (quoted (Quoted.read quote t)).Faultless)
    (hv : (Quoted.read quote t).text = quote :: v) :
    read quote (v ++ b) = quoted (Quoted.read quote t) := by
  have hagain := Quoted.read_again (Quoted.closed_of_faultless hok) b
  rw [hv, List.tail_cons] at hagain
  rw [read_quoted hquote, hagain]

/-- Every operator is one glyph or two. -/
theorem operators_short : ∀ entry ∈ operators, entry.1.length = 1 ∨ entry.1.length = 2 := by decide

/-- No entry of the table is a front of a later one and stands before it. -/
theorem operators_find : ∀ entry ∈ operators,
    operators.find? (·.1.isPrefixOf entry.1) = some entry := by decide

theorem Text.mem_extensions {v : Text} {a b : Glyph} {k : Kind} (hab : ([a, b], k) ∈ operators)
    (hv : v = [a]) : b ∈ Text.extensions v := by
  refine List.mem_append_left _ (List.mem_filterMap.2 ⟨_, hab, ?_⟩)
  exact if_pos hv

/-- Before a glyph that stops it an operator has the same fronts in the table as alone. -/
theorem operators_isPrefixOf_append {v b : Text} {k : Kind} (hv : (v, k) ∈ operators)
    (hb : ∀ x ∈ b.head?, x ∉ Text.extensions v) :
    ∀ entry ∈ operators, entry.1.isPrefixOf (v ++ b) = entry.1.isPrefixOf v := by
  intro entry hentry
  obtain ⟨e, k'⟩ := entry
  match v, e, operators_short _ hv, operators_short _ hentry, hb, hentry with
  | [a], [x], _, _, _, _ => rfl
  | [a, a'], [x], _, _, _, _ => rfl
  | [a, a'], [x, y], _, _, _, _ => rfl
  | [a], [x, y], _, _, hb, hentry =>
    cases b with
    | nil => rfl
    | cons g b =>
      have hg := hb g rfl
      by_cases hx : x = a
      · subst hx
        have hy : (y == g) = false := by
          refine beq_eq_false_iff_ne.2 ?_
          rintro rfl
          exact hg (Text.mem_extensions hentry rfl)
        simp [List.isPrefixOf, hy]
      · simp [List.isPrefixOf, hx]

theorem Piece.read_operator_append {g : Glyph} {v b : Text} {k : Kind}
    (hv : (g :: v, k) ∈ operators) (hb : ∀ x ∈ b.head?, Text.stops (g :: v) x = true) :
    read g (v ++ b) = lexeme k (g :: v) := by
  have hstop : ∀ x ∈ b.head?, x ∉ Text.extensions (g :: v)
      ∧ (g :: v = Text.ofString "." → x.isDigit = false) := by
    intro x hx
    have h := hb x hx
    simp only [Text.stops_operator hv, Bool.and_eq_true, Bool.not_eq_true', Bool.and_eq_false_iff,
      List.contains_eq_mem, decide_eq_false_iff_not, beq_eq_false_iff_ne] at h
    exact ⟨h.1, fun hpoint => h.2.resolve_left fun hne => hne hpoint⟩
  have halone : ∀ entry ∈ operators, entry.1.head? = some (Glyph.scalar '/') →
      ∀ x ∈ entry.1.tail.head?, x.isOneOf ['/', '*'] = false := by decide
  have hpoint : ∀ entry ∈ operators, entry.1.head? = some (Glyph.scalar '.') →
      entry.1 = Text.ofString "." := by decide
  have hslash : ∀ entry ∈ operators, entry.1 = [Glyph.scalar '/'] →
      Text.extensions entry.1 = [Glyph.scalar '=', Glyph.scalar '/', Glyph.scalar '*'] := by decide
  rw [read_operator (operators_head _ hv g rfl)]
  · have hfind := operators_find _ hv
    unfold readOperator
    have hsame : (operators.find? fun entry => entry.1.isPrefixOf (g :: (v ++ b)))
        = operators.find? fun entry => entry.1.isPrefixOf (g :: v) := by
      refine List.find?_congr ?_
      exact operators_isPrefixOf_append hv fun x hx => (hstop x hx).1
    rw [hsame, hfind]
  · rintro rfl x hx
    cases v with
    | nil =>
      have hnot := (hstop x hx).1
      rw [hslash _ hv rfl] at hnot
      cases hone : x.isOneOf ['/', '*'] with
      | false => rfl
      | true =>
        have hmem : ∀ c ∈ ['/', '*'].map Glyph.scalar,
            c ∈ [Glyph.scalar '=', Glyph.scalar '/', Glyph.scalar '*'] := by decide
        exact absurd (hmem x (Glyph.mem_of_isOneOf hone)) hnot
    | cons y v => exact halone _ hv rfl x hx
  · rintro rfl x hx
    have hdot := hpoint _ hv rfl
    obtain rfl : v = [] := (List.cons.inj hdot).2
    exact (hstop x hx).2 hdot

namespace Lexeme

theorem ne_nil {k : Kind} {v : Text} (h : Lexeme k v) : v ≠ [] := by
  cases h with
  | word hg hr => exact List.cons_ne_nil _ _
  | numeral hn hstart =>
    intro hnil
    rw [hnil] at hstart
    cases hstart
  | quoted hquote hok => exact List.cons_ne_nil _ _
  | operator hv => exact Piece.operators_ne_nil _ hv

/-- A lexeme is read whole before whatever stops it, and nothing is wrong with it. -/
theorem read_append {k : Kind} {g : Glyph} {v b : Text} (h : Lexeme k (g :: v))
    (hb : ∀ x ∈ b.head?, Text.stops (g :: v) x = true) :
    (Piece.read g (v ++ b)).form? = some (k, g :: v) ∧ (Piece.read g (v ++ b)).Faultless := by
  generalize hw : g :: v = w at h hb ⊢
  cases h with
  | word hg hr =>
    obtain ⟨rfl, rfl⟩ := List.cons.inj hw
    rw [Piece.read_word_append hg hr hb]
    exact ⟨rfl, fun _ => rfl⟩
  | numeral hn hstart =>
    rw [Piece.read_numeral_append hn hw.symm hstart hb]
    exact ⟨rfl, fun _ => rfl⟩
  | quoted hquote hok =>
    obtain ⟨rfl, -⟩ := List.cons.inj hw
    rw [Piece.read_quoted_append hquote hok hw.symm]
    exact ⟨rfl, hok⟩
  | operator hv =>
    subst hw
    rw [Piece.read_operator_append hv hb]
    exact ⟨rfl, fun _ => rfl⟩

/-- What a lexeme is written as determines its kind. -/
theorem kind_eq {k k' : Kind} {v : Text} (h : Lexeme k v) (h' : Lexeme k' v) : k = k' := by
  cases v with
  | nil => exact absurd rfl h.ne_nil
  | cons g v =>
    have hread := (h.read_append (b := []) fun x hx => nomatch hx).1
    rw [(h'.read_append (b := []) fun x hx => nomatch hx).1] at hread
    exact (Prod.mk.inj (Option.some.inj hread)).1.symm

theorem kind_ne_eof {k : Kind} {v : Text} (h : Lexeme k v) : k ≠ .eof := by
  cases h with
  | @word g r hg hr =>
    cases hk : keyword? (g :: r) with
    | none => exact Kind.noConfusion
    | some k =>
      have hall : ∀ entry ∈ keywords, entry.2 ≠ .eof := by decide
      obtain ⟨entry, hentry, rfl⟩ := Option.map_eq_some_iff.1 hk
      exact hall entry (List.mem_of_find?_eq_some hentry)
  | @numeral n hn hstart =>
    unfold Numeral.kind
    split <;> exact Kind.noConfusion
  | @quoted quote t hquote hok =>
    unfold Quoted.kind
    split <;> exact Kind.noConfusion
  | operator hv =>
    have hall : ∀ entry ∈ operators, entry.2 ≠ .eof := by decide
    exact hall _ hv

/-- What is spelled like a word is one. -/
theorem of_word {v : Text} (hstart : v.head?.any Glyph.isWordStart = true)
    (hall : v.all Glyph.isWordPart = true) : Lexeme ((keyword? v).getD .ident) v := by
  cases v with
  | nil => cases hstart
  | cons g r =>
    exact word hstart fun x hx => List.all_eq_true.1 hall x (List.mem_cons_of_mem g hx)

/-- The reserved words are lexemes. -/
theorem of_keywords {v : Text} {k : Kind} (h : (v, k) ∈ keywords) : Lexeme k v := by
  have hword : ∀ entry ∈ keywords, keyword? entry.1 = some entry.2
      ∧ entry.1.head?.any Glyph.isWordStart = true ∧ entry.1.all Glyph.isWordPart = true := by
    decide
  obtain ⟨hkey, hstart, hall⟩ := hword _ h
  have hlex := of_word hstart hall
  simp only at hkey
  rwa [hkey] at hlex

/-- The kinds with one spelling are those of the fixed lexemes. -/
theorem of_fixed {v : Text} {k : Kind} (h : (v, k) ∈ keywords ++ operators) : Lexeme k v := by
  rcases List.mem_append.1 h with h | h
  · exact of_keywords h
  · exact operator h

theorem spellings_nodup : ((keywords ++ operators).map (·.2)).Nodup := by decide

theorem kinds_without_spelling : ∀ k ∈ [Kind.ident, .intLit, .floatLit, .stringLit, .charLit],
    ∀ entry ∈ keywords ++ operators, entry.2 ≠ k := by decide

theorem fixed_of_kind {k : Kind} {v : Text} (h : Lexeme k v) :
    (v, k) ∈ keywords ++ operators ∨ k ∈ [Kind.ident, .intLit, .floatLit, .stringLit, .charLit] := by
  cases h with
  | @word g r hg hr =>
    cases hk : keyword? (g :: r) with
    | none => exact .inr (by decide)
    | some k =>
      obtain ⟨entry, hentry, rfl⟩ := Option.map_eq_some_iff.1 hk
      have hv : entry.1 = g :: r := by simpa using List.find?_some hentry
      refine .inl (List.mem_append_left _ ?_)
      have hmem := List.mem_of_find?_eq_some hentry
      rw [← hv]
      exact hmem
  | @numeral n hn hstart =>
    unfold Numeral.kind
    split
    · exact .inr (by decide)
    · exact .inr (by decide)
  | @quoted quote t hquote hok =>
    unfold Quoted.kind
    split
    · exact .inr (by decide)
    · exact .inr (by decide)
  | operator hv => exact .inl (List.mem_append_right _ hv)

/-- A lexeme of a kind with one spelling is spelled that way, and no other lexeme is. -/
theorem kind_iff {k k' : Kind} {s v : Text} (h : Lexeme k v) (hs : (s, k') ∈ keywords ++ operators) :
    k = k' ↔ v = s := by
  constructor
  · rintro rfl
    rcases h.fixed_of_kind with hv | hk
    · exact (Prod.mk.inj (List.inj_on_of_nodup_map spellings_nodup hv hs rfl)).1
    · exact absurd rfl (kinds_without_spelling k hk _ hs)
  · rintro rfl
    exact h.kind_eq (of_fixed hs)

end Lexeme

end JavaPrimer
