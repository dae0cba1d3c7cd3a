import JavaPrimer.Proofs.CarriageReturns
import JavaPrimer.Proofs.Places
import Mathlib

/-!
# Line endings

Putting a carriage return in front of every line feed changes neither a token nor a diagnostic of a
source, with one exception. Blanks and comments take the carriage return without a trace, and a
literal that is cut off ends before it. But where a line feed cuts off a literal right behind a
backslash, the carriage return becomes a part of the literal, and a fault: it is shown further right
than the line goes without it.

* `lexFrom`, `lexFrom_piece` — what a text gives from a place on, piece by piece;
* `lexFrom_crlf_piece` — one piece of a text with carriage returns;
* `Text.SplitsEscape`, `lex_crlf` — literals that are cut off behind a backslash by a line feed, and
  sources without one;
* `exists_faultAtReturn`, `not_hasPlace_at_return` — the fault, at no place of the source;
* `check_crlf` — line endings change a check exactly where an escape is split.
-/

namespace JavaPrimer

open Text

/-! ### What pieces give -/

instance : Append Lexed where
  append a b := ⟨a.tokens ++ b.tokens, a.diagnostics ++ b.diagnostics⟩

theorem Lexed.append_def (a b : Lexed) :
    a ++ b = ⟨a.tokens ++ b.tokens, a.diagnostics ++ b.diagnostics⟩ := rfl

/-- What a piece gives at a place. -/
def Piece.lexed (p : Position) (x : Piece) : Lexed := ⟨(x.token? p).toList, x.diagnostics p⟩

/-- What the pieces of a text give from a place on, without the end of input. -/
def lexFrom (p : Position) (t : Text) : Lexed where
  tokens := (placed p (pieces t)).filterMap fun (p, x) => x.token? p
  diagnostics := (placed p (pieces t)).flatMap fun (p, x) => x.diagnostics p

/-- One piece, and what follows it. -/
theorem lexFrom_piece (p : Position) {g : Glyph} {rest after : Text}
    (hsplit : g :: rest = (Piece.read g rest).text ++ after) :
    lexFrom p (g :: rest) = (Piece.read g rest).lexed p
      ++ lexFrom (p.advance (Piece.read g rest).text) after := by
  have htokens : ∀ (x : Piece) (ys : List (Position × Piece)),
      ((p, x) :: ys).filterMap (fun (p, x) => x.token? p)
        = (x.token? p).toList ++ ys.filterMap fun (p, x) => x.token? p := by
    intro x ys
    cases h : x.token? p <;> simp [h]
  rw [lexFrom, pieces_of_split hsplit, placed, htokens]
  rfl

/-- A blank gives nothing. -/
theorem lexFrom_blank {g : Glyph} (h : g.isGap = true) (p : Position) (rest : Text) :
    lexFrom p (g :: rest) = lexFrom (p.after g) rest := by
  have hread : Piece.read g rest = .blank g := by rw [Piece.read, if_pos h]
  rw [lexFrom_piece p (by rw [hread]; rfl), hread]
  rfl

theorem lexFrom_lines (p : Position) (rest : Text) :
    lexFrom p (carriageReturn :: lineFeed :: rest) = lexFrom p (lineFeed :: rest) := by
  rw [lexFrom_blank rfl, lexFrom_blank rfl, lexFrom_blank rfl]
  rfl

theorem lexFrom_lineComment (p : Position) {line rest : Text} (hline : lineFeed ∉ line)
    (hrest : ∀ g ∈ rest.head?, g = lineFeed) :
    lexFrom p (Glyph.scalar '/' :: Glyph.scalar '/' :: (line ++ rest))
      = lexFrom (p.advance (Glyph.scalar '/' :: Glyph.scalar '/' :: line)) rest := by
  have hbody : (line ++ rest).takeWhile (· ≠ lineFeed) = line := by
    apply Text.takeWhile_append_stop
    · intro g hg
      exact decide_eq_true fun hlf => hline (hlf ▸ hg)
    · intro g hg
      rw [hrest g hg]
      rfl
  have hread : Piece.read (Glyph.scalar '/') (Glyph.scalar '/' :: (line ++ rest))
      = .lineComment line := congrArg Piece.lineComment hbody
  rw [lexFrom_piece p (by rw [hread]; rfl), hread]
  rfl

/-- A line comment takes the carriage return in front of the line feed that ends it. -/
theorem lexFrom_crlf_lineComment (p : Position) {line rest : Text} (hline : lineFeed ∉ line)
    (hrest : ∀ g ∈ rest.head?, g = lineFeed) :
    lexFrom p (Glyph.scalar '/' :: Glyph.scalar '/' :: crlf (line ++ rest))
      = lexFrom (p.advance (Glyph.scalar '/' :: Glyph.scalar '/' :: line)) rest.crlf := by
  have hbody : crlf (line ++ rest) = line ++ rest.crlf := by
    rw [crlf, preceded_append, preceded_of_not_mem hline]
    rfl
  rw [hbody]
  cases rest with
  | nil => exact lexFrom_lineComment p hline hrest
  | cons g rest =>
    obtain rfl : g = lineFeed := hrest g rfl
    have hline' : lineFeed ∉ line ++ [carriageReturn] := by
      rw [List.mem_append, not_or]
      exact ⟨hline, by decide⟩
    have hrest' : ∀ g ∈ (lineFeed :: crlf rest).head?, g = lineFeed :=
      fun _ hg => (Option.some.inj hg).symm
    rw [crlf_cons_lineFeed, List.append_cons, lexFrom_lineComment p hline' hrest',
      lexFrom_blank (g := carriageReturn) rfl]
    show lexFrom (p.advance ((Glyph.scalar '/' :: Glyph.scalar '/' :: line) ++ [carriageReturn])) _
      = _
    rw [Position.advance_append]
    rfl

/-- A block comment takes the carriage returns in it. -/
theorem lexFrom_crlf_blockComment (p : Position) {more after : Text}
    (hsplit : Glyph.scalar '/' :: Glyph.scalar '*' :: more
      = (Piece.read (Glyph.scalar '/') (Glyph.scalar '*' :: more)).text ++ after) :
    lexFrom p (crlf (Glyph.scalar '/' :: Glyph.scalar '*' :: more))
      = (Piece.read (Glyph.scalar '/') (Glyph.scalar '*' :: more)).lexed p
        ++ lexFrom (p.advance (Piece.read (Glyph.scalar '/') (Glyph.scalar '*' :: more)).text)
          after.crlf := by
  have hread : Piece.read (Glyph.scalar '/') (Glyph.scalar '*' :: crlf more)
      = .blockComment (crlf (Piece.readBlock more).1) (Piece.readBlock more).2 := by
    show Piece.blockComment (Piece.readBlock (crlf more)).1 (Piece.readBlock (crlf more)).2 = _
    rw [Piece.readBlock_crlf]
  have hread' : Piece.read (Glyph.scalar '/') (Glyph.scalar '*' :: more)
      = .blockComment (Piece.readBlock more).1 (Piece.readBlock more).2 := rfl
  rw [hread'] at hsplit ⊢
  generalize (Piece.readBlock more).1 = body at hread hsplit ⊢
  generalize (Piece.readBlock more).2 = closed at hread hsplit ⊢
  have htext : (Piece.blockComment body.crlf closed).text
      = crlf (Piece.blockComment body closed).text := by
    cases closed <;> simp only [Piece.text, crlf_append] <;> rfl
  have hsplit' : Glyph.scalar '/' :: Glyph.scalar '*' :: crlf more
      = (Piece.blockComment body.crlf closed).text ++ after.crlf := by
    rw [htext, ← crlf_append, ← hsplit, crlf_cons (by decide), crlf_cons (by decide)]
  rw [crlf_cons (by decide), crlf_cons (by decide), lexFrom_piece p (by rw [hread]; exact hsplit'),
    hread, htext, advance_crlf]
  cases closed <;> rfl

/-- One piece of a text with carriage returns, and what follows it. -/
theorem lexFrom_crlf_piece (p : Position) {g : Glyph} {rest after : Text}
    (hsplit : g :: rest = (Piece.read g rest).text ++ after)
    (h : ¬ (after ≠ [] ∧ (Piece.read g rest).endsInBackslash = true)) :
    lexFrom p (crlf (g :: rest)) = (Piece.read g rest).lexed p
      ++ lexFrom (p.advance (Piece.read g rest).text) after.crlf := by
  by_cases hg : g = lineFeed
  · obtain rfl : rest = after := by
      rw [hg] at hsplit
      exact (List.cons.inj hsplit).2
    rw [hg, crlf_cons_lineFeed, lexFrom_lines, lexFrom_blank rfl]
    rfl
  by_cases hline : g = Glyph.scalar '/' ∧ rest.head? = some (Glyph.scalar '/')
  · obtain ⟨rfl, hnext⟩ := hline
    obtain ⟨more, rfl⟩ := List.head?_eq_some_iff.1 hnext
    have hmore : more = more.takeWhile (· ≠ lineFeed) ++ after :=
      (List.cons.inj (List.cons.inj hsplit).2).2
    have hbody : lineFeed ∉ more.takeWhile (· ≠ lineFeed) := by
      intro hmem
      simpa using List.mem_takeWhile_imp hmem
    rw [crlf_cons hg, crlf_cons hg]
    have hcomment := lexFrom_crlf_lineComment p hbody (Piece.head?_after_line hmore)
    rw [← hmore] at hcomment
    exact hcomment
  by_cases hblock : g = Glyph.scalar '/' ∧ rest.head? = some (Glyph.scalar '*')
  · obtain ⟨rfl, hnext⟩ := hblock
    obtain ⟨more, rfl⟩ := List.head?_eq_some_iff.1 hnext
    exact lexFrom_crlf_blockComment p hsplit
  · have hend : (Piece.read g rest).endsInBackslash = true → after = [] := by
      intro hending
      by_contra hne
      exact h ⟨hne, hending⟩
    have hread : Piece.read g rest.crlf = Piece.read g rest :=
      Piece.read_crlf hg hline hblock hsplit hend
    have hfront : (Piece.read g rest).text <+: crlf ((Piece.read g rest).text ++ after) := by
      rw [← hsplit, crlf_cons hg, ← hread]
      exact Piece.text_front g rest.crlf
    have hsplit' : g :: rest.crlf = (Piece.read g rest.crlf).text ++ after.crlf := by
      rw [hread, ← crlf_cons hg]
      conv_lhs => rw [hsplit]
      exact preceded_front (by decide) hfront
    rw [crlf_cons hg, lexFrom_piece p hsplit', hread]

/-! ### Escapes that are split -/

/-- Somewhere in a text a literal is cut off between a backslash and the line feed behind it. -/
def Text.SplitsEscape (t : Text) : Prop := ∃ x ∈ (pieces t).dropLast, x.endsInBackslash = true

instance (t : Text) : Decidable t.SplitsEscape := inferInstanceAs (Decidable (∃ x ∈ _, _))

/-- The first piece of a text splits an escape, or what follows it does. -/
theorem splitsEscape_iff {g : Glyph} {rest after : Text}
    (hsplit : g :: rest = (Piece.read g rest).text ++ after) :
    Text.SplitsEscape (g :: rest)
      ↔ (after ≠ [] ∧ (Piece.read g rest).endsInBackslash = true) ∨ after.SplitsEscape := by
  unfold Text.SplitsEscape
  rw [pieces_of_split hsplit]
  cases after with
  | nil => simp [pieces]
  | cons g' rest' =>
    rw [List.dropLast_cons_of_ne_nil (pieces_ne_nil g' rest')]
    simp

/-- Where no escape is split, the line endings make no difference. -/
theorem lexFrom_crlf {t : Text} (h : ¬ t.SplitsEscape) (p : Position) :
    lexFrom p t.crlf = lexFrom p t := by
  induction t using piece_induction generalizing p with
  | nil => rfl
  | piece g rest after hsplit ih =>
    rw [splitsEscape_iff hsplit, not_or] at h
    obtain ⟨hfirst, hlater⟩ := h
    rw [lexFrom_crlf_piece p hsplit hfirst, lexFrom_piece p hsplit, ih hlater]

theorem escapeDiagnostics_append (p : Position) (us vs : List LiteralUnit) :
    escapeDiagnostics p (us ++ vs) = escapeDiagnostics p us
      ++ escapeDiagnostics (p.advance (us.flatMap LiteralUnit.text)) vs := by
  induction us generalizing p with
  | nil => rfl
  | cons u us ih =>
    rw [List.flatMap_cons, Position.advance_append]
    cases u with
    | plain g => exact ih _
    | escape body fault =>
      cases fault with
      | none => exact ih _
      | some fault => exact congrArg (_ :: ·) (ih _)

theorem Piece.isQuote_of_endsInBackslash {g : Glyph} {rest : Text}
    (h : (read g rest).endsInBackslash = true) : g.isOneOf ['"', '\''] = true := by
  cases hread : read g rest with
  | quoted q => exact (isQuote_of_read_quoted hread).1
  | _ => rw [hread] at h; cases h

/-- A literal that a line feed cuts off right behind a backslash takes the carriage return. -/
theorem quoted_crlf_split {g : Glyph} {rest after : Text} (hg : g ≠ lineFeed)
    (hsplit : g :: rest = (Quoted.read g rest).text ++ after) (hafter : after ≠ [])
    (hending : (Quoted.read g rest).ending = .cutAfterBackslash) :
    Quoted.read g rest.crlf = ⟨g, (readUnits g rest).1 ++ [returnEscape], .cut⟩
      ∧ ∃ more, after = lineFeed :: more := by
  have hagain := readUnits_crlf hg rest
  have hrest : rest = unitsText g (readUnits g rest) ++ after := (List.cons.inj hsplit).2
  rw [Quoted.read]
  generalize readUnits g rest.crlf = r at hagain ⊢
  cases hagain with
  | same h =>
    have hall := h hending
    generalize unitsText g (readUnits g rest) = u at hall hrest
    rw [hall] at hrest
    exact absurd (List.append_right_eq_self.1 hrest.symm) hafter
  | @escaped more _ hmore =>
    refine ⟨rfl, more, ?_⟩
    exact List.append_cancel_left (hrest.symm.trans hmore)

/-- A carriage return that an escape takes is a fault, which ends behind it. -/
theorem exists_fault_of_returnEscape (p : Position) (g : Glyph) (us : List LiteralUnit) :
    ∃ d ∈ (Piece.quoted ⟨g, us ++ [returnEscape], .cut⟩).diagnostics p,
      d.span.stop = p.advance (g :: us.flatMap LiteralUnit.text
        ++ [Glyph.scalar '\\', carriageReturn]) := by
  let start := (p.after g).advance (us.flatMap LiteralUnit.text)
  refine ⟨LexicalFault.diagnostic (.escape (.unknown carriageReturn))
    ⟨start, start.advance [Glyph.scalar '\\', carriageReturn]⟩, List.mem_append_left _ ?_, ?_⟩
  · show _ ∈ escapeDiagnostics (p.after g) (us ++ [returnEscape])
    rw [escapeDiagnostics_append]
    exact List.mem_append_right _ List.mem_cons_self
  · rw [Position.advance_append]
    rfl

/-- A fault is found that a text without the carriage returns has no place for. -/
structure FaultAtReturn (p : Position) (t front rest : Text) : Prop where
  split : t = front ++ Glyph.scalar '\\' :: lineFeed :: rest
  faulty : (lexFrom p t).diagnostics ≠ []
  fault : ∃ d ∈ (lexFrom p t.crlf).diagnostics,
    d.span.stop = p.advance (front ++ [Glyph.scalar '\\', carriageReturn])

theorem faultAtReturn_first {g : Glyph} {rest after : Text} (p : Position)
    (hsplit : g :: rest = (Piece.read g rest).text ++ after) (hafter : after ≠ [])
    (hending : (Piece.read g rest).endsInBackslash = true) :
    ∃ front more, FaultAtReturn p (g :: rest) front more := by
  have hquote := Piece.isQuote_of_endsInBackslash hending
  have hg : g ≠ lineFeed := Glyph.ne_of_class hquote rfl
  have hread : Piece.read g rest = .quoted (Quoted.read g rest) := Piece.read_quoted hquote
  have hread' : Piece.read g rest.crlf = .quoted (Quoted.read g rest.crlf) :=
    Piece.read_quoted hquote
  have hliteral : g :: rest = (Quoted.read g rest).text ++ after := by
    rw [hread] at hsplit
    exact hsplit
  have hcut : (Quoted.read g rest).ending = .cutAfterBackslash := by
    rw [hread] at hending
    exact of_decide_eq_true hending
  obtain ⟨hagain, more, rfl⟩ := quoted_crlf_split hg hliteral hafter hcut
  rw [hagain] at hread'
  refine ⟨g :: (readUnits g rest).1.flatMap LiteralUnit.text, more, ?_, ?_, ?_⟩
  · have htext : (Quoted.read g rest).text
        = g :: ((readUnits g rest).1.flatMap LiteralUnit.text ++ [Glyph.scalar '\\']) := by
      rw [Quoted.text, hcut]
      rfl
    rw [htext, List.cons_append, List.append_assoc] at hliteral
    exact hliteral
  · rw [lexFrom_piece p hsplit, hread]
    apply List.append_ne_nil_of_left_ne_nil
    apply List.append_ne_nil_of_right_ne_nil
    rw [Quoted.fault?, if_pos (by rw [hcut]; decide)]
    exact List.cons_ne_nil _ _
  · obtain ⟨d, hd, hstop⟩ := exists_fault_of_returnEscape p g (readUnits g rest).1
    obtain ⟨behind, hbehind⟩ := Piece.text_front g rest.crlf
    refine ⟨d, ?_, hstop⟩
    rw [crlf_cons hg, lexFrom_piece p hbehind.symm, hread']
    exact List.mem_append_left _ hd

/-- Where an escape is split, the carriage return behind the backslash is a fault. -/
theorem exists_faultAtReturn {t : Text} (h : t.SplitsEscape) (p : Position) :
    ∃ front rest, FaultAtReturn p t front rest := by
  induction t using piece_induction generalizing p with
  | nil =>
    obtain ⟨x, hx, -⟩ := h
    rw [pieces] at hx
    cases hx
  | piece g rest after hsplit ih =>
    by_cases hfirst : after ≠ [] ∧ (Piece.read g rest).endsInBackslash = true
    · exact faultAtReturn_first p hsplit hfirst.1 hfirst.2
    · have hlater := ((splitsEscape_iff hsplit).1 h).resolve_left hfirst
      obtain ⟨front, more, hfault⟩ := ih hlater (p.advance (Piece.read g rest).text)
      obtain ⟨d, hd, hstop⟩ := hfault.fault
      refine ⟨(Piece.read g rest).text ++ front, more, ?_, ?_, d, ?_, ?_⟩
      · rw [List.append_assoc, ← hfault.split]
        exact hsplit
      · rw [lexFrom_piece p hsplit]
        exact List.append_ne_nil_of_right_ne_nil _ hfault.faulty
      · rw [lexFrom_crlf_piece p hsplit hfirst]
        exact List.mem_append_right _ hd
      · rw [hstop, List.append_assoc, Position.advance_append _ (Piece.read g rest).text]

/-! ### Checks -/

/-- A line feed ends its line: no place of a text is further right on it. -/
theorem not_hasPlace_at_return (front rest : Text) :
    ¬ Text.HasPlace (front ++ Glyph.scalar '\\' :: lineFeed :: rest)
      (Position.origin.advance (front ++ [Glyph.scalar '\\', carriageReturn])) := by
  intro ⟨before, hbefore, hplace⟩
  have hpoint : Position.origin.advance (front ++ [Glyph.scalar '\\', carriageReturn])
      = ⟨(Position.origin.advance front).line, (Position.origin.advance front).column + 1 + 1⟩ := by
    rw [Position.advance_append]
    rfl
  have hslash : Position.origin.advance (front ++ [Glyph.scalar '\\'])
      = ⟨(Position.origin.advance front).line, (Position.origin.advance front).column + 1⟩ := by
    rw [Position.advance_append]
    rfl
  rw [hpoint] at hplace
  rw [List.append_cons] at hbefore
  have hslashFront := List.prefix_append (front ++ [Glyph.scalar '\\']) (lineFeed :: rest)
  -- a front that ends before the line feed ends too early, one that goes on too late
  by_cases hshort : before <+: front ++ [Glyph.scalar '\\']
  · obtain ⟨more, hmore⟩ := hshort
    have hle := Position.le_advance (Position.origin.advance before) more
    rw [← Position.advance_append, hmore, hslash, ← hplace, Position.le_def] at hle
    dsimp only at hle
    omega
  · obtain ⟨more, rfl⟩ := (List.prefix_or_prefix_of_prefix hbefore hslashFront).resolve_left hshort
    have hmore := (List.prefix_append_right_inj _).1 hbefore
    rcases List.prefix_cons_iff.1 hmore with rfl | ⟨u, rfl, -⟩
    · rw [List.append_nil] at hshort
      exact hshort (List.prefix_refl _)
    · have hle := Position.le_advance (Position.after (Position.origin.advance
        (front ++ [Glyph.scalar '\\'])) lineFeed) u
      have hnext : Position.origin.advance (front ++ [Glyph.scalar '\\'] ++ lineFeed :: u)
          = (Position.after (Position.origin.advance (front ++ [Glyph.scalar '\\']))
            lineFeed).advance u := Position.advance_append _ _ _
      rw [← hnext, ← hplace, hslash, Position.le_def] at hle
      simp only [Position.after, if_true] at hle
      omega

theorem mem_errors_of_lexical (settings : Settings) (mode : Mode) {source : Text} {d : Diagnostic}
    (h : d ∈ (lex source).diagnostics) : d ∈ (settings.check mode source).errors := by
  have herrors : d ∈ (analyze mode source).errors := List.mem_append_left _ h
  apply List.mem_mergeSort.2
  unfold Settings.findings
  split
  · exact List.mem_append_left _ herrors
  · exact herrors

theorem lex_crlf {source : Text} (h : ¬ source.SplitsEscape) : lex source.crlf = lex source := by
  have htokens := congrArg Lexed.tokens (lexFrom_crlf h .origin)
  have hdiagnostics := congrArg Lexed.diagnostics (lexFrom_crlf h .origin)
  show Lexed.mk ((lexFrom .origin source.crlf).tokens ++ _)
    (lexFrom .origin source.crlf).diagnostics = _
  rw [htokens, hdiagnostics, advance_crlf]
  rfl

/-- Carriage returns before the line feeds change a check exactly where one comes to stand behind
the backslash of a literal that is cut off there; they never change whether it succeeds. -/
theorem check_crlf (bytes : List UInt8) (settings : Settings) (mode : Mode) :
    (settings.check mode (Text.ofBytes (crlfBytes bytes))).success
        = (settings.check mode (Text.ofBytes bytes)).success
      ∧ (settings.check mode (Text.ofBytes (crlfBytes bytes))
          = settings.check mode (Text.ofBytes bytes) ↔ ¬ (Text.ofBytes bytes).SplitsEscape) := by
  rw [ofBytes_crlfBytes]
  generalize Text.ofBytes bytes = source
  by_cases hsplit : source.SplitsEscape
  · obtain ⟨front, rest, hfault⟩ := exists_faultAtReturn hsplit .origin
    obtain ⟨d, hd, hstop⟩ := hfault.fault
    have hmem : d ∈ (settings.check mode source.crlf).errors :=
      mem_errors_of_lexical settings mode hd
    obtain ⟨e, he⟩ := List.exists_mem_of_ne_nil _ hfault.faulty
    have hmem' : e ∈ (settings.check mode source).errors := mem_errors_of_lexical settings mode he
    constructor
    · rw [Outcome.success, Outcome.success, List.isEmpty_eq_false_iff_exists_mem.2 ⟨d, hmem⟩,
        List.isEmpty_eq_false_iff_exists_mem.2 ⟨e, hmem'⟩]
    · refine iff_of_false (fun heq => ?_) (fun h => h hsplit)
      -- the fault would have to be in place
      rw [heq] at hmem
      have hplace := ((check_ranged settings mode source).2 d hmem).stop
      rw [hstop, hfault.split] at hplace
      exact not_hasPlace_at_return front rest hplace
  · have hcheck : settings.check mode source.crlf = settings.check mode source := by
      unfold Settings.check analyze
      rw [lex_crlf hsplit]
    rw [hcheck]
    exact ⟨rfl, iff_of_true rfl hsplit⟩

/-- A quote and a backslash at the end of a line: with a carriage return in front of the line feed
there is a second fault, and the first one is longer. -/
theorem check_crlf_backslash :
    (13 : UInt8) ∉ [34, 92, 10]
      ∧ (Settings.check {} .statements (Text.ofBytes [34, 92, 10])).errors.map Diagnostic.span
        = [⟨⟨1, 1⟩, ⟨1, 3⟩⟩]
      ∧ (Settings.check {} .statements (Text.ofBytes (crlfBytes [34, 92, 10]))).errors.map
          Diagnostic.span
        = [⟨⟨1, 1⟩, ⟨1, 4⟩⟩, ⟨⟨1, 2⟩, ⟨1, 4⟩⟩] := by
  refine ⟨by decide, ?_, ?_⟩
  · cbv
  · cbv

end JavaPrimer
