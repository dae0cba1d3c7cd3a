import JavaPrimer.Proofs.Lexeme

/-!
# Cutting a text

How the cut of a text follows from the cuts of its parts. A part may touch the next one where the
glyph in between stops it; brackets, blanks, commas and semicolons stop everything.

* `Lexemes` — tokens that could have been cut out of a text;
* `Text.CutInto` — a text is cut into given tokens before any glyph of a class;
* `Text.CutInto.append`, `Lexeme.cutInto`, `Text.cutInto_gap` — how cuts are put together;
* `Glyph.isNeutral`, `Lexeme.stops_neutral` — glyphs before which every lexeme ends;
* `lex_clean`, `Text.CutInto.lex` — what a clean cut says about the tokens of a source;
* `Text.IsToken`, `isToken_iff` — the texts that are one token.
-/

namespace JavaPrimer

/-- Every token is a lexeme. -/
def Lexemes (ts : List Token) : Prop := ∀ t ∈ ts, Lexeme t.kind t.value

theorem lexemes_cons {t : Token} {ts : List Token} :
    Lexemes (t :: ts) ↔ Lexeme t.kind t.value ∧ Lexemes ts :=
  List.forall_mem_cons

theorem lexemes_append {us vs : List Token} : Lexemes (us ++ vs) ↔ Lexemes us ∧ Lexemes vs :=
  List.forall_mem_append

/-- Tokens that are written alike are alike. -/
theorem Lexemes.form_eq {us vs : List Token} (hu : Lexemes us) (hv : Lexemes vs)
    (h : us.map Token.value = vs.map Token.value) : us.map Token.form = vs.map Token.form := by
  induction us generalizing vs with
  | nil =>
    obtain rfl : vs = [] := List.map_eq_nil_iff.1 h.symm
    rfl
  | cons u us ih =>
    cases vs with
    | nil => cases h
    | cons v vs =>
      obtain ⟨hval, hrest⟩ := List.cons.inj h
      obtain ⟨hu₁, hu₂⟩ := lexemes_cons.1 hu
      obtain ⟨hv₁, hv₂⟩ := lexemes_cons.1 hv
      have hkind : u.kind = v.kind := by
        rw [hval] at hu₁
        exact hu₁.kind_eq hv₁
      rw [List.map_cons, List.map_cons, ih hu₂ hv₂ hrest, Token.form, Token.form, hkind, hval]

/-! ### Cuts -/

/-- What the tokens among some pieces are written as. -/
def tokenTexts (xs : List Piece) : List Text := (xs.filterMap Piece.form?).map Prod.snd

theorem tokenTexts_append (xs ys : List Piece) :
    tokenTexts (xs ++ ys) = tokenTexts xs ++ tokenTexts ys := by
  rw [tokenTexts, List.filterMap_append, List.map_append, tokenTexts, tokenTexts]

/-- Before any glyph of a class a text is cut into tokens that are written in given ways, with no
comment among them, and nothing is wrong with it. -/
def Text.CutInto (p : Glyph → Bool) (t : Text) (ws : List Text) : Prop :=
  ∀ b : Text, (∀ g ∈ b.head?, p g = true) →
    ∃ xs, pieces (t ++ b) = xs ++ pieces b ∧ tokenTexts xs = ws
      ∧ ∀ x ∈ xs, x.Faultless ∧ x.isComment = false

theorem pieces_cons (g : Glyph) (rest : Text) :
    pieces (g :: rest)
      = Piece.read g rest :: pieces ((g :: rest).drop (Piece.read g rest).text.length) := by
  rw [pieces]

namespace Text

theorem cutInto_nil (p : Glyph → Bool) : CutInto p [] [] := by
  intro b _
  exact ⟨[], rfl, rfl, fun x hx => nomatch hx⟩

theorem cutInto_gap (p : Glyph → Bool) {g : Glyph} (hg : g.isGap = true) : CutInto p [g] [] := by
  intro b _
  have hread : Piece.read g b = .blank g := if_pos hg
  refine ⟨[.blank g], ?_, rfl, ?_⟩
  · rw [List.singleton_append, pieces_cons, hread]
    rfl
  · intro x hx
    obtain rfl := List.mem_singleton.1 hx
    exact ⟨fun _ => rfl, rfl⟩

theorem CutInto.mono {p q : Glyph → Bool} {t : Text} {ws : List Text} (h : CutInto p t ws)
    (hpq : ∀ g, q g = true → p g = true) : CutInto q t ws := by
  intro b hb
  exact h b fun g hg => hpq g (hb g hg)

/-- Two parts are cut one after the other if the first may stand before the second. -/
theorem CutInto.append {p q : Glyph → Bool} {t u : Text} {ws vs : List Text} (ht : CutInto p t ws)
    (hu : CutInto q u vs) (hhead : ∀ g ∈ u.head?, p g = true)
    (hempty : u = [] → ∀ g, q g = true → p g = true) : CutInto q (t ++ u) (ws ++ vs) := by
  intro b hb
  obtain ⟨ys, hys, rfl, hy⟩ := hu b hb
  have hfirst : ∀ g ∈ (u ++ b).head?, p g = true := by
    intro g hg
    cases u with
    | nil => exact hempty rfl g (hb g hg)
    | cons c u => exact hhead g hg
  obtain ⟨xs, hxs, rfl, hx⟩ := ht (u ++ b) hfirst
  refine ⟨xs ++ ys, ?_, tokenTexts_append xs ys, ?_⟩
  · rw [List.append_assoc, hxs, hys, List.append_assoc]
  · intro x hmem
    rcases List.mem_append.1 hmem with hmem | hmem
    · exact hx x hmem
    · exact hy x hmem

/-- A part that may stand before anything. -/
theorem CutInto.append_any {q : Glyph → Bool} {t u : Text} {ws vs : List Text}
    (ht : CutInto (fun _ => true) t ws) (hu : CutInto q u vs) : CutInto q (t ++ u) (ws ++ vs) :=
  ht.append hu (fun _ _ => rfl) fun _ _ _ => rfl

end Text

theorem Lexeme.cutInto {k : Kind} {v : Text} (h : Lexeme k v) : Text.CutInto v.stops v [v] := by
  intro b hb
  cases v with
  | nil => exact absurd rfl h.ne_nil
  | cons g v =>
    obtain ⟨hform, hok⟩ := h.read_append hb
    refine ⟨[Piece.read g (v ++ b)], ?_, ?_, ?_⟩
    · rw [List.cons_append, pieces_cons, Piece.text_of_form? hform, ← List.cons_append,
        List.drop_left]
      rfl
    · rw [tokenTexts, List.filterMap_cons, hform]
      rfl
    · intro x hx
      obtain rfl := List.mem_singleton.1 hx
      exact ⟨hok, Piece.not_isComment_of_form? hform⟩

/-! ### Neutral glyphs -/

/-- Blanks, brackets, commas and semicolons. -/
def Glyph.isNeutral (g : Glyph) : Bool :=
  g.isOneOf [' ', '\n', '(', ')', '[', ']', '\x7b', '\x7d', ';', ',']

theorem extensions_isOneOf : ∀ entry ∈ operators, ∀ g ∈ Text.extensions entry.1,
    g.isOneOf ['=', '+', '-', '&', '|', '/', '*'] = true := by decide

theorem Glyph.neutral_cases {g : Glyph} (hg : g.isNeutral = true) :
    g.isWordPart = false ∧ g ≠ Glyph.scalar '.' ∧ g.isSign = false
      ∧ g.isOneOf ['=', '+', '-', '&', '|', '/', '*'] = false := by
  have hall : ∀ c ∈ [' ', '\n', '(', ')', '[', ']', '\x7b', '\x7d', ';', ','].map Glyph.scalar,
      c.isWordPart = false ∧ c ≠ Glyph.scalar '.' ∧ c.isSign = false
        ∧ c.isOneOf ['=', '+', '-', '&', '|', '/', '*'] = false := by decide
  exact hall g (Glyph.mem_of_isOneOf hg)

/-- Every lexeme ends before a neutral glyph. -/
theorem Lexeme.stops_neutral {k : Kind} {v : Text} (h : Lexeme k v) {g : Glyph}
    (hg : g.isNeutral = true) : v.stops g = true := by
  obtain ⟨hpart, hpoint, hsign, hext⟩ := Glyph.neutral_cases hg
  cases h with
  | word hstart hr => rw [Text.stops_word hstart, hpart, Bool.not_false]
  | numeral hn hstart =>
    rw [Text.stops_numeral hstart, hpart, hsign, Bool.and_false]
    simpa using hpoint
  | quoted hquote hok => exact Text.stops_quoted hquote
  | operator hv =>
    have hnot : g ∉ Text.extensions v := by
      intro hmem
      rw [extensions_isOneOf _ hv g hmem] at hext
      cases hext
    have hdigit : g.isDigit = false := (Bool.or_eq_false_iff.1 hpart).2
    rw [Text.stops_operator hv, hdigit, Bool.and_false]
    simpa using hnot

/-- Neutral glyphs themselves are operators that stand before anything, if they are no blanks. -/
theorem Lexeme.cutInto_neutral {k : Kind} {v : Text} (h : Lexeme k v) :
    Text.CutInto Glyph.isNeutral v [v] :=
  h.cutInto.mono fun _ hg => h.stops_neutral hg

/-! ### The tokens of a source -/

/-- What is wrong with a piece does not depend on its place. -/
theorem Piece.faultless_of_diagnostics {x : Piece} {p : Position} (h : x.diagnostics p = []) :
    x.Faultless := by
  intro p'
  match x, h with
  | .blank g, _ => rfl
  | .lineComment body, _ => rfl
  | .blockComment body true, _ => rfl
  | .lexeme k v, _ => rfl
  | .quoted q, h => exact (Quoted.diagnostics_eq_nil_iff p').2 ((Quoted.diagnostics_eq_nil_iff p).1 h)

theorem placed_diagnostics (p : Position) (xs : List Piece) :
    ((placed p xs).flatMap fun (p, x) => x.diagnostics p) = [] ↔ ∀ x ∈ xs, x.Faultless := by
  induction xs generalizing p with
  | nil => exact iff_of_true rfl fun x hx => nomatch hx
  | cons x xs ih =>
    rw [placed, List.flatMap_cons, List.append_eq_nil_iff, ih, List.forall_mem_cons]
    exact and_congr_left fun _ => ⟨fun h => Piece.faultless_of_diagnostics h, fun h => h p⟩

/-- What does not depend on the places of tokens can be told from the pieces. -/
theorem placed_map {β : Type} {f : Token → β} {make? : Piece → Option β}
    (hf : ∀ x p, (x.token? p).map f = make? x) (p : Position) (xs : List Piece) :
    ((placed p xs).filterMap fun (p, x) => x.token? p).map f = xs.filterMap make? := by
  induction xs generalizing p with
  | nil => rfl
  | cons x xs ih =>
    have hx := hf x p
    cases ht : x.token? p with
    | none =>
      rw [ht] at hx
      simp only [placed, List.filterMap_cons, ht, ← hx, Option.map_none, ih]
    | some t =>
      rw [ht] at hx
      simp only [placed, List.filterMap_cons, ht, ← hx, Option.map_some, List.map_cons, ih]

theorem placed_form (p : Position) (xs : List Piece) :
    ((placed p xs).filterMap fun (p, x) => x.token? p).map Token.form = xs.filterMap Piece.form? :=
  placed_map Piece.form?_token? p xs

theorem placed_mem {p : Position} {xs : List Piece} {t : Token}
    (h : t ∈ (placed p xs).filterMap fun (p, x) => x.token? p) :
    ∃ x ∈ xs, ∃ p', x.token? p' = some t := by
  induction xs generalizing p with
  | nil => cases h
  | cons x xs ih =>
    obtain ⟨⟨p', y⟩, hmem, hy⟩ := List.mem_filterMap.1 h
    rcases List.mem_cons.1 hmem with heq | hmem
    · obtain ⟨rfl, rfl⟩ := Prod.mk.inj heq
      exact ⟨y, List.mem_cons_self, p', hy⟩
    · obtain ⟨z, hz, hq⟩ := ih (List.mem_filterMap.2 ⟨_, hmem, hy⟩)
      exact ⟨z, List.mem_cons_of_mem x hz, hq⟩

theorem mem_pieces {t : Text} {x : Piece} (h : x ∈ pieces t) : ∃ g rest, x = Piece.read g rest := by
  fun_induction pieces t with
  | case1 => cases h
  | case2 g rest ih =>
    rcases List.mem_cons.1 h with rfl | h
    · exact ⟨g, rest, rfl⟩
    · exact ih h

theorem Piece.unterminated_of_faultless {x : Piece} {p : Position} {t : Token} (hok : x.Faultless)
    (h : x.token? p = some t) : t.unterminated = false := by
  cases x with
  | lexeme k v =>
    obtain rfl := Option.some.inj h
    rfl
  | quoted q =>
    obtain rfl := Option.some.inj h
    exact decide_eq_false (not_not.2 (Quoted.closed_of_faultless hok))
  | _ => cases h

/-- The tokens of a source without lexical errors are lexemes, up to the end of input. -/
theorem lex_clean {t : Text} (h : (lex t).diagnostics = []) :
    ∃ ts p, (lex t).tokens = ts ++ [Token.endOfInput p]
      ∧ ts.map Token.form = (pieces t).filterMap Piece.form? ∧ Lexemes ts
      ∧ ∀ u ∈ ts, u.unterminated = false := by
  have hok := (placed_diagnostics .origin (pieces t)).1 h
  refine ⟨_, _, rfl, placed_form .origin (pieces t), ?_, ?_⟩
  · intro u hu
    obtain ⟨x, hx, p, htok⟩ := placed_mem hu
    have hform : x.form? = some (u.kind, u.value) := by
      rw [← Piece.form?_token? x p, htok]
      rfl
    obtain ⟨g, rest, rfl⟩ := mem_pieces hx
    exact lexeme_of_read hform (hok _ hx)
  · intro u hu
    obtain ⟨x, hx, p, htok⟩ := placed_mem hu
    exact Piece.unterminated_of_faultless (hok x hx) htok

/-- The pieces of a text with a clean cut. -/
theorem Text.CutInto.of_pieces {p : Glyph → Bool} {t : Text} {ws : List Text} (h : CutInto p t ws) :
    tokenTexts (pieces t) = ws ∧ ∀ x ∈ pieces t, x.Faultless ∧ x.isComment = false := by
  obtain ⟨xs, hxs, hws, hok⟩ := h [] fun g hg => nomatch hg
  rw [List.append_nil, show pieces [] = [] by rw [pieces], List.append_nil] at hxs
  rw [hxs]
  exact ⟨hws, hok⟩

/-- A text with a clean cut has no lexical errors, and its tokens are those of the cut. -/
theorem Text.CutInto.lex {p : Glyph → Bool} {t : Text} {ws : List Text} (h : CutInto p t ws) :
    (lex t).diagnostics = [] ∧ tokenTexts (pieces t) = ws := by
  obtain ⟨hws, hok⟩ := h.of_pieces
  exact ⟨(placed_diagnostics .origin _).2 fun x hx => (hok x hx).1, hws⟩

/-! ### Texts that are one token -/

/-- A text is one token of a kind: it is cut into that token alone, and nothing is wrong with it. -/
def Text.IsToken (v : Text) (k : Kind) : Prop :=
  (JavaPrimer.lex v).diagnostics = []
    ∧ (JavaPrimer.lex v).tokens.map Token.form = [(k, v), (.eof, [])]

/-- The texts that are one token are the lexemes. -/
theorem isToken_iff {v : Text} {k : Kind} : v.IsToken k ↔ Lexeme k v := by
  constructor
  · intro h
    obtain ⟨hclean, hform⟩ := h
    obtain ⟨ts, p, hts, -, hlex, -⟩ := lex_clean hclean
    rw [hts, List.map_append] at hform
    have hone : ts.length = 1 := by simpa using congrArg List.length hform
    obtain ⟨t, rfl⟩ := List.length_eq_one_iff.1 hone
    obtain ⟨rfl, rfl⟩ := Prod.mk.inj (List.cons.inj hform).1
    exact hlex t List.mem_cons_self
  · intro h
    obtain ⟨hclean, htexts⟩ := h.cutInto.lex
    refine ⟨hclean, ?_⟩
    obtain ⟨ts, p, hts, hform, hlex, -⟩ := lex_clean hclean
    rw [tokenTexts, ← hform] at htexts
    have hone : ts.length = 1 := by simpa using congrArg List.length htexts
    obtain ⟨t, rfl⟩ := List.length_eq_one_iff.1 hone
    have hv : t.value = v := (List.cons.inj htexts).1
    have ht := hlex t List.mem_cons_self
    rw [hv] at ht
    rw [hts]
    show [(t.kind, t.value)] ++ [(Kind.eof, [])] = _
    rw [hv, ht.kind_eq h]
    rfl

end JavaPrimer
