import JavaPrimer.Proofs.LosslessTree
import Mathlib.Data.List.TakeWhile

/-!
# Gaps between tokens

In front of every token of a source, the end of input included, there is a gap: blanks, comments
and characters that the language does not know, one after another, possibly none. Gaps and tokens
together are the whole source, byte by byte; what is unknown in a gap is reported where it stands.

* `Glyph.Unrecognized`, `Piece.Fills` — what may stand in a gap, given the text behind it;
* `Piece.fills_of_read` — what is read and makes no token may stand in a gap;
* `piece_induction`, `gap_induction` — texts piece by piece, pieces as gaps and tokens in turn;
* `gapped`, `flatMap_gapped` — the gaps that pieces leave around their tokens, and their text;
* `fillers`, `fillers_gapped` — what stands in the gaps, with all the text in front of it;
* `not_isOpen_dropLast` — nothing stands behind a comment that is not closed;
* `Accounts` — gaps that together with the tokens of a source account for all of it;
* `lex_accounts` — every byte string has such gaps.
-/

namespace JavaPrimer

/-! ### What may stand in a gap -/

/-- A character that the language does not know, in front of some text: it is no blank, and
neither a word nor a numeral, a quoted literal, an operator or a comment starts with it. Comments
start like operators, and so does a numeral without a whole part. -/
structure Glyph.Unrecognized (g : Glyph) (after : Text) : Prop where
  blank : g.isGap = false
  word : g.isWordStart = false
  digit : g.isDigit = false
  quote : g ≠ Glyph.scalar '"' ∧ g ≠ Glyph.scalar '\''
  operator : ∀ entry ∈ operators, ¬ entry.1 <+: g :: after

/-- What may stand between two tokens, in front of the text `after`. -/
inductive Piece.Fills : Piece → Text → Prop
  | blank {g : Glyph} {after : Text}
    (h : g ∈ [' ', '\t', '\r', '\n', '\x0c'].map Glyph.scalar) : Fills (.blank g) after
  /-- A comment that goes up to the end of its line. -/
  | lineComment {body after : Text} (hbody : Glyph.scalar '\n' ∉ body)
    (hend : ∀ g ∈ after.head?, g = Glyph.scalar '\n') : Fills (.lineComment body) after
  /-- A comment that is closed at the first place where it can be. -/
  | blockComment {body after : Text} (hbody : ¬ Text.ofString "*/" <:+: body) :
    Fills (.blockComment body true) after
  /-- A comment that is nowhere closed goes up to the end of the source. -/
  | openComment {body : Text} (hbody : ¬ Text.ofString "*/" <:+: body) :
    Fills (.blockComment body false) []
  | unknown {g : Glyph} {after : Text} (h : g.Unrecognized after) : Fills (.unknown g) after

namespace Piece

/-- Whether a piece makes a token. -/
def isToken (x : Piece) : Bool := x.form?.isSome

theorem token?_isSome (x : Piece) (p : Position) : (x.token? p).isSome = x.isToken := by
  rw [isToken, ← form?_token? x p, Option.isSome_map]

theorem value_of_token? {x : Piece} {p : Position} {t : Token} (h : x.token? p = some t) :
    t.value = x.text := by
  cases x <;> simp only [token?, Option.some.injEq, reduceCtorEq] at h
  case lexeme => rw [← h]; rfl
  case quoted => rw [← h]; rfl

/-- A block comment is closed at the first place where it can be, or it is all that is left. -/
theorem readBlock_body (t : Text) : ¬ Text.ofString "*/" <:+: (readBlock t).1
    ∧ ((readBlock t).2 = false → (readBlock t).1 = t) := by
  have hclose : Text.ofString "*/" = [Glyph.scalar '*', Glyph.scalar '/'] := rfl
  induction t with
  | nil => exact ⟨by decide, fun _ => rfl⟩
  | cons g rest ih =>
    by_cases h : g = Glyph.scalar '*' ∧ rest.head? = some (Glyph.scalar '/')
    · simp only [readBlock, h, and_self, if_true]
      exact ⟨by decide, fun hopen => absurd hopen.symm Bool.false_ne_true⟩
    · have hread : readBlock (g :: rest) = (g :: (readBlock rest).1, (readBlock rest).2) := by
        rw [readBlock, if_neg h]
      rw [hread]
      constructor
      · -- the mark would have to start at the first glyph, which the test has ruled out
        intro hinfix
        rcases List.infix_cons_iff.1 hinfix with hfront | hlater
        · rw [hclose, List.cons_prefix_cons] at hfront
          obtain ⟨rfl, hfront⟩ := hfront
          apply h
          refine ⟨rfl, ?_⟩
          have hread := (List.prefix_append _ _).trans (readBlock_front rest)
          obtain ⟨more, hmore⟩ := hfront.trans hread
          rw [← hmore]
          rfl
        · exact ih.1 hlater
      · intro hopen
        exact congrArg (g :: ·) (ih.2 hopen)

/-- No operator stands in front of a text whose first glyph is read as unknown. -/
theorem readOperator_unknown {g x : Glyph} {rest : Text} (h : readOperator g rest = .unknown x) :
    x = g ∧ ∀ entry ∈ operators, ¬ entry.1 <+: g :: rest := by
  unfold readOperator at h
  split at h
  · cases h
  · next hnone =>
    obtain rfl := Piece.unknown.inj h
    refine ⟨rfl, fun entry hentry hfront => ?_⟩
    exact List.find?_eq_none.1 hnone entry hentry (List.isPrefixOf_iff_prefix.2 hfront)

theorem readOperator_isToken {g : Glyph} {rest : Text} (h : (readOperator g rest).isToken = false) :
    readOperator g rest = .unknown g := by
  unfold readOperator at h ⊢
  split at h
  · cases h
  · rfl

/-- A line comment goes up to the first line feed behind its marks, or to the end. -/
theorem head?_after_line {more after : Text}
    (h : more = more.takeWhile (· ≠ Glyph.scalar '\n') ++ after) :
    ∀ g ∈ after.head?, g = Glyph.scalar '\n' := by
  have hdrop : after = more.dropWhile (· ≠ Glyph.scalar '\n') := by
    apply (List.append_right_inj (more.takeWhile (· ≠ Glyph.scalar '\n'))).1
    rw [List.takeWhile_append_dropWhile]
    exact h.symm
  intro g hg
  have hhead := List.head?_dropWhile_not (· ≠ Glyph.scalar '\n') more
  rw [← hdrop, Option.mem_def.1 hg] at hhead
  simpa using hhead

/-- A comment that is read in front of `after` may stand there. -/
theorem fills_block {more after : Text}
    (hafter : more = (readBlock more).1
      ++ (if (readBlock more).2 then Text.ofString "*/" else []) ++ after) :
    (blockComment (readBlock more).1 (readBlock more).2).Fills after := by
  obtain ⟨hbody, hopen⟩ := readBlock_body more
  cases hclosed : (readBlock more).2 with
  | true => exact .blockComment hbody
  | false =>
    -- all that is left is the body, so nothing follows it
    rw [hclosed, if_neg Bool.false_ne_true, List.append_nil, hopen hclosed] at hafter
    have hnil : after = [] := by simpa using hafter
    rw [hnil]
    exact .openComment hbody

/-- What is read and makes no token may stand in a gap. -/
theorem fills_of_read {g : Glyph} {rest after : Text} (hread : (read g rest).isToken = false)
    (hafter : g :: rest = (read g rest).text ++ after) : (read g rest).Fills after := by
  unfold read at hread hafter ⊢
  dsimp only at hread hafter ⊢
  by_cases hgap : g.isGap
  · rw [if_pos hgap]
    exact .blank (Glyph.mem_of_isOneOf hgap)
  rw [if_neg hgap] at hread hafter ⊢
  by_cases hline : g = Glyph.scalar '/' ∧ rest.head? = some (Glyph.scalar '/')
  · rw [if_pos hline] at hafter ⊢
    obtain ⟨rfl, hnext⟩ := hline
    obtain ⟨more, rfl⟩ := List.head?_eq_some_iff.1 hnext
    have hsplit : more = more.takeWhile (· ≠ Glyph.scalar '\n') ++ after :=
      (List.cons.inj (List.cons.inj hafter).2).2
    refine .lineComment (fun hmem => ?_) (head?_after_line hsplit)
    simpa using List.mem_takeWhile_imp hmem
  rw [if_neg hline] at hread hafter ⊢
  by_cases hblock : g = Glyph.scalar '/' ∧ rest.head? = some (Glyph.scalar '*')
  · rw [if_pos hblock] at hafter ⊢
    obtain ⟨rfl, hnext⟩ := hblock
    obtain ⟨more, rfl⟩ := List.head?_eq_some_iff.1 hnext
    exact fills_block (List.cons.inj (List.cons.inj hafter).2).2
  rw [if_neg hblock] at hread hafter ⊢
  by_cases hnumeral : g.isDigit ∨ (g = Glyph.scalar '.' ∧ rest.head?.any Glyph.isDigit)
  · rw [if_pos hnumeral] at hread
    cases hread
  rw [if_neg hnumeral] at hread hafter ⊢
  by_cases hquote : g = Glyph.scalar '"' ∨ g = Glyph.scalar '\''
  · rw [if_pos hquote] at hread
    cases hread
  rw [if_neg hquote] at hread hafter ⊢
  by_cases hword : g.isWordStart
  · rw [if_pos hword] at hread
    cases hread
  rw [if_neg hword] at hread hafter ⊢
  have hunknown := readOperator_isToken hread
  obtain ⟨-, hoperator⟩ := readOperator_unknown hunknown
  rw [hunknown] at hafter ⊢
  obtain rfl : rest = after := (List.cons.inj hafter).2
  simp only [not_or, Bool.not_eq_true] at hgap hnumeral hquote hword
  exact .unknown ⟨hgap, hword, hnumeral.1, hquote, hoperator⟩

end Piece

/-! ### One piece after another -/

/-- Induction on a text by the piece at its front. -/
theorem piece_induction {motive : Text → Prop} (nil : motive [])
    (piece : ∀ g rest after, g :: rest = (Piece.read g rest).text ++ after → motive after →
      motive (g :: rest)) (t : Text) : motive t := by
  induction t using pieces.induct with
  | case1 => exact nil
  | case2 g rest ih =>
    exact piece g rest _ (List.prefix_iff_eq_append.1 (Piece.text_front g rest)).symm ih

theorem pieces_of_split {g : Glyph} {rest after : Text}
    (hsplit : g :: rest = (Piece.read g rest).text ++ after) :
    pieces (g :: rest) = Piece.read g rest :: pieces after := by
  have hdrop : (g :: rest).drop (Piece.read g rest).text.length = after := by
    conv_lhs => rw [hsplit]
    exact List.drop_left
  rw [pieces_cons, hdrop]

theorem pieces_ne_nil (g : Glyph) (rest : Text) : pieces (g :: rest) ≠ [] := by
  rw [pieces_cons]
  exact List.cons_ne_nil _ _

/-! ### Gaps and tokens in turn -/

/-- Pieces are a gap up to the first that makes a token, that one and what follows it, or all of
them are the last gap. -/
theorem gap_induction {motive : List Piece → Prop}
    (last : ∀ gap, (∀ x ∈ gap, x.isToken = false) → motive gap)
    (step : ∀ gap x rest, (∀ y ∈ gap, y.isToken = false) → x.isToken = true → motive rest →
      motive (gap ++ x :: rest)) (xs : List Piece) : motive xs := by
  by_cases h : ∀ x ∈ xs, x.isToken = false
  · exact last xs h
  · simp only [not_forall, Bool.not_eq_false] at h
    obtain ⟨y, hy, htoken⟩ := h
    obtain ⟨x, gap, rest, hgap, hx, hsplit, -⟩ := List.exists_of_eraseP hy htoken
    rw [hsplit]
    refine step gap x rest (fun y hy => ?_) hx (gap_induction last step rest)
    exact Bool.eq_false_iff.2 (hgap y hy)
termination_by xs.length
decreasing_by
  rw [hsplit, List.length_append, List.length_cons]
  omega

/-- Each piece with all the text in front of it, behind a front. -/
def fronted (front : Text) : List Piece → List (Text × Piece)
  | [] => []
  | x :: xs => (front, x) :: fronted (front ++ x.text) xs

theorem fronted_append (front : Text) (xs ys : List Piece) :
    fronted front (xs ++ ys) = fronted front xs ++ fronted (front ++ xs.flatMap Piece.text) ys := by
  induction xs generalizing front with
  | nil => rw [List.flatMap_nil, List.append_nil]; rfl
  | cons x xs ih =>
    rw [List.cons_append, fronted, ih, List.flatMap_cons, ← List.append_assoc]
    rfl

/-- A piece stands where the text in front of it ends. -/
theorem placed_eq_fronted (front : Text) (xs : List Piece) :
    placed (Position.origin.advance front) xs
      = (fronted front xs).map fun (front, x) => (Position.origin.advance front, x) := by
  induction xs generalizing front with
  | nil => rfl
  | cons x xs ih =>
    rw [placed, ← Position.advance_append, ih]
    rfl

theorem mem_fronted_snd {front : Text} {xs : List Piece} {y : Text × Piece}
    (h : y ∈ fronted front xs) : y.2 ∈ xs := by
  induction xs generalizing front with
  | nil => cases h
  | cons x xs ih =>
    rcases List.mem_cons.1 h with rfl | h
    · exact List.mem_cons_self
    · exact List.mem_cons_of_mem x (ih h)

/-- Where a piece of a source was read. -/
theorem mem_fronted_pieces {front : Text} {t : Text} {y : Text × Piece}
    (h : y ∈ fronted front (pieces t)) :
    ∃ g rest, front ++ t = y.1 ++ g :: rest ∧ y.2 = Piece.read g rest := by
  induction t using piece_induction generalizing front with
  | nil =>
    rw [pieces] at h
    cases h
  | piece g rest after hsplit ih =>
    rw [pieces_of_split hsplit] at h
    rcases List.mem_cons.1 h with rfl | h
    · exact ⟨g, rest, rfl, rfl⟩
    · obtain ⟨g', rest', hsource, hread⟩ := ih h
      refine ⟨g', rest', ?_, hread⟩
      rw [← hsource, List.append_assoc]
      exact congrArg (front ++ ·) hsplit

/-- The tokens that pieces make behind a front, the end of input included. -/
def tokensBehind (front : Text) (xs : List Piece) : List Token :=
  (placed (Position.origin.advance front) xs).filterMap (fun (p, x) => x.token? p)
    ++ [Token.endOfInput (Position.origin.advance (front ++ xs.flatMap Piece.text))]

theorem tokensBehind_pieces (source : Text) :
    tokensBehind [] (pieces source) = (lex source).tokens := by
  rw [tokensBehind, flatMap_text_pieces]
  rfl

theorem tokensBehind_cons (front : Text) (x : Piece) (xs : List Piece) :
    tokensBehind front (x :: xs)
      = (x.token? (Position.origin.advance front)).toList ++ tokensBehind (front ++ x.text) xs := by
  have hnext : (Position.origin.advance front).advance x.text
      = Position.origin.advance (front ++ x.text) := (Position.advance_append _ _ _).symm
  simp only [tokensBehind, placed, List.flatMap_cons, ← List.append_assoc, hnext]
  cases ht : x.token? (Position.origin.advance front) <;> simp [ht]

theorem tokensBehind_gap {gap : List Piece} (h : ∀ x ∈ gap, x.isToken = false) (front : Text)
    (rest : List Piece) :
    tokensBehind front (gap ++ rest) = tokensBehind (front ++ gap.flatMap Piece.text) rest := by
  induction gap generalizing front with
  | nil => rw [List.flatMap_nil, List.append_nil]; rfl
  | cons x gap ih =>
    have hx : x.token? (Position.origin.advance front) = none := by
      have hsome := x.token?_isSome (Position.origin.advance front)
      rw [h x List.mem_cons_self] at hsome
      exact Option.isNone_iff_eq_none.1 (Option.isSome_eq_false_iff.1 hsome)
    rw [List.cons_append, tokensBehind_cons, hx, Option.toList_none, List.nil_append,
      ih fun y hy => h y (List.mem_cons_of_mem x hy), List.flatMap_cons, List.append_assoc]

/-- The gaps and the tokens that pieces make behind a front, in turn. -/
def gapped (front : Text) (xs : List Piece) : List (List Piece × Token) :=
  (xs.splitOnP Piece.isToken).zip (tokensBehind front xs)

theorem gapped_last {gap : List Piece} (h : ∀ x ∈ gap, x.isToken = false) (front : Text) :
    gapped front gap
      = [(gap, .endOfInput (Position.origin.advance (front ++ gap.flatMap Piece.text)))] := by
  have htokens := tokensBehind_gap h front []
  rw [List.append_nil] at htokens
  rw [gapped, List.splitOnP_eq_singleton h, htokens]
  simp only [tokensBehind, List.flatMap_nil, List.append_nil]
  rfl

theorem gapped_step {gap : List Piece} {x : Piece} {t : Token} (h : ∀ y ∈ gap, y.isToken = false)
    (front : Text) (rest : List Piece)
    (ht : x.token? (Position.origin.advance (front ++ gap.flatMap Piece.text)) = some t) :
    gapped front (gap ++ x :: rest)
      = (gap, t) :: gapped (front ++ gap.flatMap Piece.text ++ x.text) rest := by
  have hx : x.isToken = true := by rw [← x.token?_isSome, ht]; rfl
  rw [gapped, List.splitOnP_append_cons_of_forall_mem h x hx rest, tokensBehind_gap h,
    tokensBehind_cons, ht]
  rfl

/-- There are as many gaps as tokens. -/
theorem length_splitOnP (front : Text) (xs : List Piece) :
    (xs.splitOnP Piece.isToken).length = (tokensBehind front xs).length := by
  induction xs generalizing front with
  | nil => rfl
  | cons x xs ih =>
    rw [List.splitOnP_cons_eq_if_modifyHead, tokensBehind_cons, List.length_append, ← ih]
    have hsome := x.token?_isSome (Position.origin.advance front)
    cases ht : x.token? (Position.origin.advance front) <;> rw [ht] at hsome
    · rw [← hsome]; simp
    · rw [← hsome]; simp; omega

/-- Gaps and tokens in turn are the text of the pieces. -/
theorem flatMap_gapped (front : Text) (xs : List Piece) :
    (gapped front xs).flatMap (fun (gap, t) => gap.flatMap Piece.text ++ t.value)
      = xs.flatMap Piece.text := by
  induction xs using gap_induction generalizing front with
  | last gap h =>
    rw [gapped_last h]
    simp [Token.endOfInput]
  | step gap x rest h hx ih =>
    obtain ⟨t, ht⟩ := Option.isSome_iff_exists.1 ((x.token?_isSome _).trans hx)
    rw [gapped_step h front rest ht, List.flatMap_cons, ih, List.flatMap_append, List.flatMap_cons]
    show gap.flatMap Piece.text ++ t.value ++ _ = _
    rw [Piece.value_of_token? ht, List.append_assoc]

/-- What stands in the gaps, each piece with all the text in front of it. -/
def fillers (front : Text) : List (List Piece × Token) → List (Text × Piece)
  | [] => []
  | (gap, t) :: more =>
    fronted front gap ++ fillers (front ++ gap.flatMap Piece.text ++ t.value) more

theorem fillers_gapped (front : Text) (xs : List Piece) :
    fillers front (gapped front xs) = (fronted front xs).filter fun y => !y.2.isToken := by
  have hall : ∀ (front : Text) (gap : List Piece), (∀ x ∈ gap, x.isToken = false) →
      (fronted front gap).filter (fun y => !y.2.isToken) = fronted front gap := by
    intro front gap h
    apply List.filter_eq_self.2
    intro y hy
    rw [h y.2 (mem_fronted_snd hy)]
    rfl
  induction xs using gap_induction generalizing front with
  | last gap h =>
    rw [gapped_last h, hall front gap h]
    exact List.append_nil _
  | step gap x rest h hx ih =>
    obtain ⟨t, ht⟩ := Option.isSome_iff_exists.1 ((x.token?_isSome _).trans hx)
    rw [gapped_step h front rest ht, fillers, Piece.value_of_token? ht, ih, fronted_append,
      List.filter_append, hall front gap h, fronted, List.filter_cons_of_neg (by simp [hx])]

/-- The last gap ends in the last piece, unless that makes a token. -/
theorem getLast?_splitOnP (xs : List Piece) :
    (xs.splitOnP Piece.isToken).getLast?.bind List.getLast?
      = xs.getLast?.filter fun x => !x.isToken := by
  induction xs using gap_induction with
  | last gap h =>
    rw [List.splitOnP_eq_singleton h]
    cases hlast : gap.getLast? with
    | none => simp [hlast]
    | some x => simp [Option.filter, hlast, h x (List.mem_of_getLast? hlast)]
  | step gap x rest h hx ih =>
    rw [List.splitOnP_append_cons_of_forall_mem h x hx rest,
      List.getLast?_cons_of_ne_nil (List.splitOnP_ne_nil _ _), ih, List.getLast?_append]
    cases rest with
    | nil => simp [Option.filter, hx]
    | cons y rest =>
      rw [List.getLast?_cons_cons, List.getLast?_eq_some_getLast (List.cons_ne_nil y rest),
        Option.some_or]

/-! ### Faults in gaps -/

namespace LexicalFault

/-- Whether a diagnostic is about a character that the language does not know. -/
def isStray (d : Diagnostic) : Bool :=
  (Text.ofString "Unrecognized character: '").isPrefixOf d.message

/-- Whether a diagnostic is about a comment that is not closed. -/
def isOpenComment (d : Diagnostic) : Bool := d.message = openComment.message

end LexicalFault

namespace Piece

/-- What is said of a piece as a character that the language does not know. -/
def stray? (p : Position) (x : Piece) : Option Diagnostic :=
  match x with
  | unknown g => some (LexicalFault.diagnostic (.unknownCharacter g) ⟨p, p.after g⟩)
  | _ => none

/-- Whether a piece is a comment that is not closed. -/
def isOpen : Piece → Bool
  | blockComment _ closed => !closed
  | _ => false

theorem isToken_of_isOpen {x : Piece} (h : x.isOpen = true) : x.isToken = false := by
  cases x <;> first | rfl | cases h

theorem mem_escapeDiagnostics {p : Position} {us : List LiteralUnit} {d : Diagnostic}
    (h : d ∈ escapeDiagnostics p us) :
    ∃ fault span, d = LexicalFault.diagnostic (.escape fault) span := by
  induction us generalizing p with
  | nil => cases h
  | cons u us ih =>
    cases u with
    | plain g => exact ih h
    | escape body fault =>
      cases fault with
      | none => exact ih h
      | some fault =>
        rcases List.mem_cons.1 h with rfl | h
        · exact ⟨fault, _, rfl⟩
        · exact ih h

/-- The faults of a literal are neither unknown characters nor open comments. -/
theorem diagnostics_quoted {q : Quoted} {p : Position} {d : Diagnostic}
    (h : d ∈ (quoted q).diagnostics p) :
    LexicalFault.isStray d = false ∧ LexicalFault.isOpenComment d = false := by
  rcases List.mem_append.1 h with h | h
  · obtain ⟨fault, span, rfl⟩ := mem_escapeDiagnostics h
    cases fault <;> exact ⟨rfl, rfl⟩
  · simp only [Option.mem_toList, Option.map_eq_some_iff, Quoted.fault?] at h
    obtain ⟨f, hf, rfl⟩ := h
    split at hf
    · obtain rfl := Option.some.inj hf
      by_cases hq : q.kind = .charLit
      all_goals
        simp only [LexicalFault.isStray, LexicalFault.isOpenComment, LexicalFault.diagnostic,
          Diagnostic.make, LexicalFault.message, LexicalFault.literalName, hq]
        exact ⟨rfl, rfl⟩
    · split at hf
      · obtain rfl := Option.some.inj hf
        exact ⟨rfl, rfl⟩
      · cases hf

theorem filter_isStray (p : Position) (x : Piece) :
    (x.diagnostics p).filter LexicalFault.isStray = (x.stray? p).toList := by
  cases x with
  | blank g => rfl
  | lineComment body => rfl
  | blockComment body closed => cases closed <;> rfl
  | unknown g => rfl
  | lexeme k v => rfl
  | quoted q =>
    apply List.filter_eq_nil_iff.2
    intro d hd
    rw [(diagnostics_quoted hd).1]
    exact Bool.false_ne_true

theorem length_filter_isOpenComment (p : Position) (x : Piece) :
    ((x.diagnostics p).filter LexicalFault.isOpenComment).length = if x.isOpen then 1 else 0 := by
  cases x with
  | blank g => rfl
  | lineComment body => rfl
  | blockComment body closed => cases closed <;> rfl
  | unknown g => rfl
  | lexeme k v => rfl
  | quoted q =>
    have hnone : ((quoted q).diagnostics p).filter LexicalFault.isOpenComment = [] := by
      apply List.filter_eq_nil_iff.2
      intro d hd
      rw [(diagnostics_quoted hd).2]
      exact Bool.false_ne_true
    rw [hnone]
    rfl

end Piece

/-- Nothing stands behind a comment that is not closed. -/
theorem not_isOpen_dropLast (t : Text) : ∀ x ∈ (pieces t).dropLast, x.isOpen = false := by
  induction t using piece_induction with
  | nil =>
    rw [pieces]
    exact List.forall_mem_nil _
  | piece g rest after hsplit ih =>
    rw [pieces_of_split hsplit]
    cases after with
    | nil =>
      rw [pieces]
      exact List.forall_mem_nil _
    | cons g' rest' =>
      rw [List.dropLast_cons_of_ne_nil (pieces_ne_nil g' rest')]
      refine List.forall_mem_cons.2 ⟨?_, ih⟩
      cases hopen : (Piece.read g rest).isOpen with
      | false => rfl
      | true =>
        have hfills := Piece.fills_of_read (Piece.isToken_of_isOpen hopen) hsplit
        generalize Piece.read g rest = y at hfills hopen
        cases hfills <;> cases hopen

theorem length_filter_openComment (p : Position) {xs : List Piece}
    (h : ∀ x ∈ xs.dropLast, x.isOpen = false) :
    (((placed p xs).flatMap fun (p, x) => x.diagnostics p).filter
      LexicalFault.isOpenComment).length = if xs.getLast?.any Piece.isOpen then 1 else 0 := by
  induction xs generalizing p with
  | nil => rfl
  | cons x xs ih =>
    rw [placed, List.flatMap_cons, List.filter_append, List.length_append,
      Piece.length_filter_isOpenComment]
    cases xs with
    | nil => rfl
    | cons y ys =>
      rw [List.dropLast_cons_of_ne_nil (List.cons_ne_nil y ys)] at h
      rw [ih _ fun z hz => h z (List.mem_cons_of_mem x hz), h x List.mem_cons_self,
        List.getLast?_cons_cons]
      exact Nat.zero_add _

/-! ### The whole source -/

/-- Gaps that account for all of a source together with its tokens, one in front of each. -/
structure Accounts (source : Text) (gaps : List (List Piece)) (lexed : Lexed) : Prop where
  count : gaps.length = lexed.tokens.length
  /-- The only end of input is the last token, and no other token is empty. -/
  ends : ∃ ts, lexed.tokens = ts ++ [.endOfInput (Position.origin.advance source)]
    ∧ ∀ t ∈ ts, t.kind ≠ .eof ∧ t.value ≠ []
  /-- Gaps and tokens in turn are the source. -/
  text : (gaps.zip lexed.tokens).flatMap (fun (gap, t) => gap.flatMap Piece.text ++ t.value)
    = source
  /-- What stands in a gap may stand there. -/
  filled : ∀ y ∈ fillers [] (gaps.zip lexed.tokens),
    ∃ after, source = y.1 ++ (y.2.text ++ after) ∧ y.2.Fills after
  /-- The unknown characters are those that are reported, in order, each where it stands. -/
  strays : lexed.diagnostics.filter LexicalFault.isStray
    = (fillers [] (gaps.zip lexed.tokens)).filterMap
        fun (front, x) => x.stray? (Position.origin.advance front)
  /-- A comment is reported as not closed once if the last gap ends in one, else never. -/
  unclosed : (lexed.diagnostics.filter LexicalFault.isOpenComment).length
    = if (gaps.getLast?.bind List.getLast?).any Piece.isOpen then 1 else 0

/-- The pieces of a source, split at those that make tokens, account for it. -/
theorem accounts_splitOnP (source : Text) :
    Accounts source ((pieces source).splitOnP Piece.isToken) (lex source) := by
  have hzip : ((pieces source).splitOnP Piece.isToken).zip (lex source).tokens
      = gapped [] (pieces source) := by
    rw [gapped, tokensBehind_pieces]
  have hplaced : placed .origin (pieces source)
      = (fronted [] (pieces source)).map fun (front, x) => (Position.origin.advance front, x) :=
    placed_eq_fronted [] (pieces source)
  constructor
  case count =>
    rw [length_splitOnP [], tokensBehind_pieces]
  case ends =>
    refine ⟨_, rfl, fun t ht => ?_⟩
    obtain ⟨x, hx, p, htoken⟩ := placed_mem ht
    obtain ⟨g, rest, rfl⟩ := mem_pieces hx
    rw [Piece.value_of_token? htoken]
    exact ⟨(Piece.spelled htoken).1, Piece.text_ne_nil g rest⟩
  case text =>
    rw [hzip, flatMap_gapped, flatMap_text_pieces]
  case filled =>
    intro y hy
    rw [hzip, fillers_gapped, List.mem_filter] at hy
    obtain ⟨hy, hgap⟩ := hy
    obtain ⟨g, rest, hsource, hread⟩ := mem_fronted_pieces hy
    obtain ⟨after, hafter⟩ := Piece.text_front g rest
    refine ⟨after, ?_, ?_⟩
    · rw [hread, hafter, ← hsource, List.nil_append]
    · rw [hread] at hgap ⊢
      exact Piece.fills_of_read (by simpa using hgap) hafter.symm
  case strays =>
    rw [hzip, fillers_gapped, List.filterMap_filter]
    show ((placed .origin (pieces source)).flatMap fun (p, x) => x.diagnostics p).filter _ = _
    rw [hplaced, List.filter_flatMap, List.flatMap_map, List.filterMap_eq_flatMap_toList]
    congr 1
    funext ⟨front, x⟩
    show (x.diagnostics _).filter _ = Option.toList (if !x.isToken then x.stray? _ else none)
    rw [Piece.filter_isStray]
    cases x <;> rfl
  case unclosed =>
    rw [getLast?_splitOnP]
    show (((placed .origin (pieces source)).flatMap fun (p, x) => x.diagnostics p).filter _).length
      = _
    rw [length_filter_openComment .origin (not_isOpen_dropLast source)]
    cases (pieces source).getLast? with
    | none => rfl
    | some x => cases x <;> rfl

/-- The tokens of a source are those that are no end of input, and then the end of input. -/
theorem tokens_lex (source : Text) :
    (lex source).tokens = (lex source).tokens.filter (·.kind ≠ .eof)
      ++ [.endOfInput (Position.origin.advance source)] := by
  obtain ⟨ts, htokens, hts⟩ := (accounts_splitOnP source).ends
  have hall : ts.filter (·.kind ≠ .eof) = ts :=
    List.filter_eq_self.2 fun t ht => decide_eq_true (hts t ht).1
  rw [htokens, List.filter_append, hall, List.append_left_inj]
  exact (List.append_nil ts).symm

theorem Text.toBytes_flatMap {α : Type} (xs : List α) (f : α → Text) :
    Text.toBytes (xs.flatMap f) = xs.flatMap fun x => (f x).toBytes :=
  List.flatMap_assoc

/-- Every byte string has gaps that account for all of it together with its tokens. -/
theorem lex_accounts (bytes : List UInt8) :
    ∃ gaps, Accounts (Text.ofBytes bytes) gaps (lex (Text.ofBytes bytes))
      ∧ ((gaps.zip (lex (Text.ofBytes bytes)).tokens).flatMap fun (gap, t) =>
          Text.toBytes (gap.flatMap Piece.text) ++ Text.toBytes t.value) = bytes := by
  have haccounts := accounts_splitOnP (Text.ofBytes bytes)
  refine ⟨_, haccounts, ?_⟩
  have hbytes := congrArg Text.toBytes haccounts.text
  rw [Text.toBytes_ofBytes, Text.toBytes_flatMap] at hbytes
  simpa only [Text.toBytes, List.flatMap_append] using hbytes

end JavaPrimer
