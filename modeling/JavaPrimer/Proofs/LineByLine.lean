import JavaPrimer.Proofs.LineEndings
import JavaPrimer.Proofs.LongestMatch

/-!
# Line by line

A line feed ends whatever was begun before it, exactly as the end of the source does, with one
exception: a block comment goes on. So the tokens and the faults of two texts with a line feed
between them are those of the first and then those of the second, further down.

* `takeWhile_append_cons`, `takeWhile_take_append_cons` — a run ends before what stops it;
* `Numeral.text_read_lineFeed`, `readEscape_lineFeed`, `readUnits_lineFeed`,
  `Piece.readBlock_append`, `Piece.readOperator_lineFeed` — rules;
* `Piece.read_lineFeed` — a piece is read alike, unless it is a comment that is not closed;
* `Position.below`, `Token.below`, `Diagnostic.below` — the same some lines further down;
* `lexFrom_lineFeed`, `lexFrom_below` — two texts one behind the other, and a text further down;
* `lex_append_lineFeed` — the whole of it, for byte strings.
-/

namespace JavaPrimer

open Text

/-! ### Runs -/

section Stopped

variable {α : Type} {p : α → Bool} {x : α}

/-- A run ends before what stops it, whatever is behind. -/
theorem takeWhile_append_cons (hx : p x = false) (xs ys : List α) :
    (xs ++ x :: ys).takeWhile p = xs.takeWhile p := by
  induction xs with
  | nil => exact List.takeWhile_cons_of_neg (by simp [hx])
  | cons y xs ih => rw [List.cons_append, List.takeWhile_cons, List.takeWhile_cons, ih]

theorem takeWhile_take_append_cons (hx : p x = false) (n : Nat) (xs ys : List α) :
    ((xs ++ x :: ys).take n).takeWhile p = (xs.take n).takeWhile p := by
  induction xs generalizing n with
  | nil =>
    cases n with
    | zero => rfl
    | succ n => exact List.takeWhile_cons_of_neg (by simp [hx])
  | cons y xs ih =>
    cases n with
    | zero => rfl
    | succ n =>
      rw [List.cons_append, List.take_succ_cons, List.take_succ_cons, List.takeWhile_cons,
        List.takeWhile_cons, ih]

end Stopped

/-! ### Rules -/

/-- A numeral goes as far as it can, and there is no line feed in it. -/
theorem Numeral.text_read_lineFeed (t more : Text) :
    (read (t ++ lineFeed :: more)).text = (read t).text := by
  have hfront := front_of_append_cons (text_front (t ++ lineFeed :: more))
    (Piece.not_mem_numeral (t ++ lineFeed :: more))
  obtain ⟨r, hr⟩ := hfront
  obtain ⟨s, hs⟩ := text_front t
  have hle := (wellFormed_read (t ++ lineFeed :: more)).front_read r
  have hge := (wellFormed_read t).front_read (s ++ lineFeed :: more)
  rw [hr] at hle
  rw [← List.append_assoc, hs] at hge
  exact hle.eq_of_length_le hge.length_le

/-- The kind of a numeral can be told from its text. -/
theorem Numeral.WellFormed.kind_eq {n m : Numeral} (hn : n.WellFormed) (hm : m.WellFormed)
    (h : n.text = m.text) : n.kind = m.kind := by
  rw [kind, kind, hn.isFloat_eq, hm.isFloat_eq, h]

theorem readUnicode_lineFeed (t more : Text) :
    readUnicode (t ++ lineFeed :: more) = readUnicode t := by
  have hmarks : (t ++ lineFeed :: more).takeWhile (· = Glyph.scalar 'u')
      = t.takeWhile (· = Glyph.scalar 'u') := takeWhile_append_cons rfl t more
  have hdrop : (t ++ lineFeed :: more).drop (t.takeWhile (· = Glyph.scalar 'u')).length
      = t.drop (t.takeWhile (· = Glyph.scalar 'u')).length ++ lineFeed :: more :=
    List.drop_append_of_le_length (List.takeWhile_prefix _).length_le
  have hdigits : ∀ t : Text, ((t ++ lineFeed :: more).take 4).takeWhile Glyph.isHex
      = (t.take 4).takeWhile Glyph.isHex := fun t => takeWhile_take_append_cons rfl 4 t more
  simp only [readUnicode, hmarks, hdrop, hdigits]

theorem readEscape_lineFeed (g : Glyph) (rest more : Text) :
    readEscape g (rest ++ lineFeed :: more) = readEscape g rest := by
  have hunicode := readUnicode_lineFeed (g :: rest) more
  have hoctal : ((g :: rest ++ lineFeed :: more).take 3).takeWhile Glyph.isOctal
      = ((g :: rest).take 3).takeWhile Glyph.isOctal :=
    takeWhile_take_append_cons rfl 3 (g :: rest) more
  rw [List.cons_append] at hunicode hoctal
  rw [readEscape, readEscape, hunicode, hoctal]

/-- A literal ends before a line feed as it does at the end of the source. -/
theorem readUnits_lineFeed (quote : Glyph) (t more : Text) :
    readUnits quote (t ++ lineFeed :: more) = readUnits quote t := by
  fun_induction readUnits quote t with
  | case1 =>
    rw [List.nil_append, readUnits.eq_def]
    rfl
  | case2 g rest hline =>
    rw [List.cons_append, readUnits.eq_def]
    simp only [hline, if_true]
  | case3 rest hline =>
    rw [List.cons_append, readUnits.eq_def]
    simp only [hline, if_true, if_false, Bool.false_eq_true]
  | case4 hline hquote =>
    rw [List.cons_append, List.nil_append, readUnits.eq_def]
    simp only [hline, hquote, if_true, if_false, Bool.false_eq_true]
  | case5 rest hline hquote =>
    rw [List.cons_append, List.cons_append, readUnits.eq_def]
    simp only [hline, hquote, if_true, if_false, Bool.false_eq_true]
  | case6 e rest hn body fault he hline hquote ih =>
    have hfront : body.length ≤ (e :: rest).length := by
      have hf := (readEscape_front e rest).length_le
      rwa [he] at hf
    rw [List.cons_append, List.cons_append, readUnits.eq_def]
    simp only [hline, hquote, hn, readEscape_lineFeed, he, if_true, if_false, Bool.false_eq_true]
    rw [← List.cons_append, List.drop_append_of_le_length hfront, ih]
  | case7 g rest hline hquote hslash ih =>
    rw [List.cons_append, readUnits.eq_def]
    simp only [hline, hquote, hslash, if_false, Bool.false_eq_true, ih]

namespace Piece

/-- A comment that is closed is read alike before anything. -/
theorem readBlock_append {t : Text} (h : (readBlock t).2 = true) (more : Text) :
    readBlock (t ++ more) = readBlock t := by
  induction t with
  | nil => cases h
  | cons g t ih =>
    by_cases hclose : g = Glyph.scalar '*' ∧ t.head? = some (Glyph.scalar '/')
    · obtain ⟨rfl, hhead⟩ := hclose
      obtain ⟨rest, rfl⟩ := List.head?_eq_some_iff.1 hhead
      rfl
    · rw [readBlock, if_neg hclose] at h ⊢
      have hne : t ≠ [] := by
        rintro rfl
        cases h
      obtain ⟨x, t', rfl⟩ := List.exists_cons_of_ne_nil hne
      rw [List.cons_append, readBlock, ih h, if_neg]
      exact hclose

theorem readOperator_lineFeed (g : Glyph) (rest more : Text) :
    readOperator g (rest ++ lineFeed :: more) = readOperator g rest := by
  have hfind : (operators.find? fun entry => entry.1.isPrefixOf (g :: (rest ++ lineFeed :: more)))
      = operators.find? fun entry => entry.1.isPrefixOf (g :: rest) := by
    apply List.find?_congr
    intro entry hentry
    rw [Bool.eq_iff_iff, List.isPrefixOf_iff_prefix, List.isPrefixOf_iff_prefix]
    constructor
    · intro h
      exact front_of_append_cons (t := g :: rest) h (operators_no_line_end entry hentry).2
    · intro h
      exact h.trans (List.prefix_append (g :: rest) _)
  rw [readOperator, readOperator, hfind]

theorem readWord_lineFeed (t more : Text) : readWord (t ++ lineFeed :: more) = readWord t := by
  rw [readWord, readWord, takeWhile_append_cons rfl]

theorem read_numeral_lineFeed (t more : Text) :
    lexeme (Numeral.read (t ++ lineFeed :: more)).kind (Numeral.read (t ++ lineFeed :: more)).text
      = lexeme (Numeral.read t).kind (Numeral.read t).text := by
  have htext := Numeral.text_read_lineFeed t more
  rw [htext, (Numeral.wellFormed_read _).kind_eq (Numeral.wellFormed_read t) htext]

/-- What is read before a line feed is what is read before the end of the source, unless it is a
comment that is not closed. -/
theorem read_lineFeed {g : Glyph} {rest : Text} (h : (read g rest).isOpen = false) (more : Text) :
    read g (rest ++ lineFeed :: more) = read g rest := by
  have hhead : ∀ c : Glyph, c ≠ lineFeed →
      ((rest ++ lineFeed :: more).head? = some c ↔ rest.head? = some c) := by
    intro c hc
    cases rest with
    | nil => exact iff_of_false (fun h => hc (Option.some.inj h).symm) (fun h => nomatch h)
    | cons x rest => exact Iff.rfl
  have hdigit : (rest ++ lineFeed :: more).head?.any Glyph.isDigit
      = rest.head?.any Glyph.isDigit := by cases rest <;> rfl
  unfold read at h ⊢
  dsimp only at h ⊢
  simp only [hhead (Glyph.scalar '/') (by decide), hhead (Glyph.scalar '*') (by decide), hdigit]
  by_cases hgap : g.isGap
  · rw [if_pos hgap, if_pos hgap]
  rw [if_neg hgap] at h ⊢
  rw [if_neg hgap]
  by_cases hline : g = Glyph.scalar '/' ∧ rest.head? = some (Glyph.scalar '/')
  · obtain ⟨body, rfl⟩ := List.head?_eq_some_iff.1 hline.2
    rw [if_pos hline, if_pos hline, List.cons_append, List.tail_cons, List.tail_cons,
      takeWhile_append_cons (by decide)]
  rw [if_neg hline] at h ⊢
  rw [if_neg hline]
  by_cases hblock : g = Glyph.scalar '/' ∧ rest.head? = some (Glyph.scalar '*')
  · obtain ⟨body, rfl⟩ := List.head?_eq_some_iff.1 hblock.2
    rw [if_pos hblock] at h
    have hclosed : (readBlock body).2 = true := by simpa [isOpen] using h
    rw [if_pos hblock, if_pos hblock, List.cons_append, List.tail_cons, List.tail_cons,
      readBlock_append hclosed]
  rw [if_neg hblock, if_neg hblock, Quoted.read, readUnits_lineFeed, ← List.cons_append,
    read_numeral_lineFeed, readWord_lineFeed, readOperator_lineFeed]
  rfl

end Piece

/-! ### Further down -/

/-- The place some lines below another. -/
def Position.below (n : Nat) (p : Position) : Position := ⟨p.line + n, p.column⟩

/-- The span some lines below another. -/
def Span.below (n : Nat) (s : Span) : Span := ⟨s.start.below n, s.stop.below n⟩

/-- The same token some lines below. -/
def Token.below (n : Nat) (t : Token) : Token := { t with span := t.span.below n }

/-- The same diagnostic some lines below. -/
def Diagnostic.below (n : Nat) (d : Diagnostic) : Diagnostic := { d with span := d.span.below n }

/-- The same tokens and faults some lines below. -/
def Lexed.below (n : Nat) (l : Lexed) : Lexed :=
  ⟨l.tokens.map (Token.below n), l.diagnostics.map (Diagnostic.below n)⟩

section Below

variable (n : Nat) (p : Position)

theorem Position.after_below (g : Glyph) : (p.below n).after g = (p.after g).below n := by
  unfold after below
  split
  · rw [Position.mk.injEq]
    refine ⟨?_, rfl⟩
    dsimp only
    omega
  · rfl

theorem Position.advance_below (t : Text) : (p.below n).advance t = (p.advance t).below n := by
  induction t generalizing p with
  | nil => rfl
  | cons g t ih =>
    show ((p.below n).after g).advance t = _
    rw [after_below]
    exact ih (p.after g)

theorem Piece.span_below (x : Piece) : x.span (p.below n) = (x.span p).below n := by
  rw [span, Position.advance_below]
  rfl

theorem Piece.token?_below (x : Piece) :
    x.token? (p.below n) = (x.token? p).map (Token.below n) := by
  cases x <;> simp [token?, span_below, Token.below]

theorem escapeDiagnostics_below (us : List LiteralUnit) :
    escapeDiagnostics (p.below n) us = (escapeDiagnostics p us).map (Diagnostic.below n) := by
  induction us generalizing p with
  | nil => rfl
  | cons u us ih =>
    have hlater := ih (p.advance u.text)
    rw [← Position.advance_below] at hlater
    cases u with
    | plain g => exact hlater
    | escape body fault =>
      cases fault with
      | none => exact hlater
      | some fault =>
        simp only [escapeDiagnostics, List.map_cons, hlater]
        rw [Position.advance_below]
        rfl

theorem Piece.diagnostics_below (x : Piece) :
    x.diagnostics (p.below n) = (x.diagnostics p).map (Diagnostic.below n) := by
  cases x with
  | blank g => rfl
  | lineComment body => rfl
  | lexeme k v => rfl
  | unknown g =>
    simp only [diagnostics, span_below]
    rfl
  | blockComment body closed =>
    cases closed with
    | true => rfl
    | false =>
      simp only [diagnostics, Position.advance_below]
      rfl
  | quoted q =>
    simp only [diagnostics, Position.after_below, escapeDiagnostics_below, span_below,
      List.map_append]
    cases q.fault? <;> rfl

theorem Lexed.below_append (a b : Lexed) : (a ++ b).below n = a.below n ++ b.below n := by
  simp only [Lexed.append_def, below, List.map_append]

theorem Piece.lexed_below (x : Piece) : x.lexed (p.below n) = (x.lexed p).below n := by
  rw [lexed, token?_below, diagnostics_below, lexed, Lexed.below, ← Option.toList_map]

theorem lexFrom_nil : lexFrom p [] = ⟨[], []⟩ := by
  rw [lexFrom, pieces]
  rfl

/-- A text further down gives the same further down. -/
theorem lexFrom_below (t : Text) : lexFrom (p.below n) t = (lexFrom p t).below n := by
  induction t using piece_induction generalizing p with
  | nil =>
    rw [lexFrom_nil, lexFrom_nil]
    rfl
  | piece g rest after hsplit ih =>
    rw [lexFrom_piece _ hsplit, lexFrom_piece _ hsplit, Position.advance_below, ih,
      Piece.lexed_below, Lexed.below_append]

end Below

/-! ### Two texts with a line feed between them -/

theorem Lexed.append_assoc (a b c : Lexed) : a ++ b ++ c = a ++ (b ++ c) := by
  simp only [Lexed.append_def, List.append_assoc]

/-- Pieces before a line feed and what is behind it give what they give apart. -/
theorem lexFrom_lineFeed {a : Text} (h : ∀ x ∈ pieces a, x.isOpen = false) (b : Text)
    (p : Position) : lexFrom p (a ++ lineFeed :: b)
      = lexFrom p a ++ lexFrom ((p.advance a).after lineFeed) b := by
  induction a using piece_induction generalizing p with
  | nil =>
    rw [List.nil_append, lexFrom_blank rfl, lexFrom_nil]
    rfl
  | piece g rest after hsplit ih =>
    rw [pieces_of_split hsplit] at h
    obtain ⟨hfirst, hlater⟩ := List.forall_mem_cons.1 h
    have hread := Piece.read_lineFeed hfirst b
    have hsplit' : g :: (rest ++ lineFeed :: b)
        = (Piece.read g (rest ++ lineFeed :: b)).text ++ (after ++ lineFeed :: b) := by
      rw [hread, ← List.append_assoc, ← hsplit]
      rfl
    have hend : p.advance (g :: rest) = (p.advance (Piece.read g rest).text).advance after := by
      rw [← Position.advance_append, ← hsplit]
    rw [List.cons_append, lexFrom_piece p hsplit', hread, ih hlater, lexFrom_piece p hsplit,
      Lexed.append_assoc, hend]

theorem exists_placed_of_mem {x : Piece} {xs : List Piece} (h : x ∈ xs) (p : Position) :
    ∃ q, (q, x) ∈ placed p xs := by
  induction xs generalizing p with
  | nil => cases h
  | cons y ys ih =>
    rcases List.mem_cons.1 h with rfl | h
    · exact ⟨p, List.mem_cons_self⟩
    · obtain ⟨q, hq⟩ := ih h (p.advance y.text)
      exact ⟨q, List.mem_cons_of_mem _ hq⟩

/-- A comment that is not closed is reported. -/
theorem not_isOpen_of_diagnostics {t : Text}
    (h : ∀ d ∈ (lex t).diagnostics, LexicalFault.isOpenComment d = false) :
    ∀ x ∈ pieces t, x.isOpen = false := by
  intro x hx
  obtain ⟨p, hp⟩ := exists_placed_of_mem hx .origin
  have hnone : (x.diagnostics p).filter LexicalFault.isOpenComment = [] := by
    apply List.filter_eq_nil_iff.2
    intro d hd
    rw [h d (List.mem_flatMap.2 ⟨(p, x), hp, hd⟩)]
    exact Bool.false_ne_true
  have hlength := x.length_filter_isOpenComment p
  rw [hnone] at hlength
  cases hopen : x.isOpen with
  | false => rfl
  | true =>
    rw [hopen] at hlength
    cases hlength

/-- A source gives what its pieces give, and the end of input. -/
theorem lex_eq (t : Text) :
    lex t = lexFrom .origin t ++ ⟨[.endOfInput (Position.origin.advance t)], []⟩ := by
  rw [Lexed.append_def, List.append_nil]
  rfl

theorem filter_tokens_lex (t : Text) :
    (lex t).tokens.filter (·.kind ≠ .eof) = (lexFrom .origin t).tokens :=
  (List.append_inj' (tokens_lex t) rfl).1.symm

/-- The place behind the line feed that ends some text. -/
theorem after_lineFeed (bytes : List UInt8) :
    (Position.origin.advance (Text.ofBytes bytes)).after lineFeed
      = Position.origin.below (1 + bytes.count 10) := by
  have hcount := (Text.decoded_ofBytes bytes).count
  rw [Text.toBytes_ofBytes] at hcount
  rw [Text.advance_origin, Position.after, if_pos rfl, ← hcount]
  simp only [Position.below, Position.origin, Position.mk.injEq, and_true]
  omega

/-- The tokens and the faults of two byte strings with a line feed between them are those of the
first, without its end of input, and then those of the second, one line further down than the first
has line feeds, unless a comment of the first is not closed. -/
theorem lex_append_lineFeed (a b : List UInt8)
    (h : ∀ d ∈ (lex (Text.ofBytes a)).diagnostics, LexicalFault.isOpenComment d = false) :
    (lex (Text.ofBytes (a ++ [10] ++ b))).tokens
        = (lex (Text.ofBytes a)).tokens.filter (·.kind ≠ .eof)
          ++ (lex (Text.ofBytes b)).tokens.map (Token.below (1 + a.count 10))
      ∧ (lex (Text.ofBytes (a ++ [10] ++ b))).diagnostics
        = (lex (Text.ofBytes a)).diagnostics
          ++ (lex (Text.ofBytes b)).diagnostics.map (Diagnostic.below (1 + a.count 10)) := by
  have hsource : Text.ofBytes (a ++ [10] ++ b) = Text.ofBytes a ++ lineFeed :: Text.ofBytes b :=
    Text.ofBytes_append_ascii (g := lineFeed) rfl a b
  have hend : Position.origin.advance (Text.ofBytes a ++ lineFeed :: Text.ofBytes b)
      = (Position.origin.advance (Text.ofBytes b)).below (1 + a.count 10) := by
    rw [Position.advance_append, ← Position.advance_below, ← after_lineFeed]
    rfl
  have hpieces := lexFrom_lineFeed (not_isOpen_of_diagnostics h) (Text.ofBytes b) .origin
  rw [after_lineFeed, lexFrom_below] at hpieces
  rw [hsource, lex_eq, hpieces, hend, filter_tokens_lex, lex_eq (Text.ofBytes b)]
  constructor
  · simp only [Lexed.append_def, Lexed.below, List.map_append, List.append_assoc]
    rfl
  · simp only [Lexed.append_def, Lexed.below, List.append_nil]
    rfl

/-- A literal that is cut off behind its backslash, and a word on the next line. -/
theorem lex_append_lineFeed_backslash :
    let a : List UInt8 := [34, 92]
    let b : List UInt8 := [120]
    (∀ d ∈ (lex (Text.ofBytes a)).diagnostics, LexicalFault.isOpenComment d = false)
      ∧ (lex (Text.ofBytes (a ++ [10] ++ b))).tokens
        = (lex (Text.ofBytes a)).tokens.filter (·.kind ≠ .eof)
          ++ (lex (Text.ofBytes b)).tokens.map (Token.below (1 + a.count 10))
      ∧ (lex (Text.ofBytes (a ++ [10] ++ b))).diagnostics
        = (lex (Text.ofBytes a)).diagnostics
          ++ (lex (Text.ofBytes b)).diagnostics.map (Diagnostic.below (1 + a.count 10)) :=
  ⟨by decide +kernel, lex_append_lineFeed [34, 92] [120] (by decide +kernel)⟩

end JavaPrimer
