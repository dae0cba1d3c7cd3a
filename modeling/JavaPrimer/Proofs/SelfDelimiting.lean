import JavaPrimer.Proofs.TokenSpans

/-!
# Self-delimiting tokens

Where a token ends can be seen from its own text and the blank behind it: the tokens of a source,
written one behind the other with single blanks between them, are read as the same tokens again. A
literal that is cut off at the end of its line is an exception, since a blank would belong to it. A
literal that is closed ends by itself, whatever is wrong inside.

* `Token.unplaced`, `Piece.unplaced?` — a token without its place, and the one that a piece makes;
* `Piece.unplaced?_read_again` — what was read as a token is read again in front of a blank;
* `Text.ReadAs` — a text is read as given tokens in front of a blank, and nothing but blanks is with
  them;
* `readAs_intercalate`, `ofBytes_intercalate` — texts with blanks between them, as glyphs and as
  bytes;
* `lex_spaced` — the tokens of a byte string are read again.
-/

namespace JavaPrimer

/-! ### Tokens without their places -/

/-- A token without its place: its kind, its text and whether it is cut off. -/
def Token.unplaced (t : Token) : Kind × Text × Bool := (t.kind, t.value, t.unterminated)

/-- The token that a piece makes, without its place. -/
def Piece.unplaced? (x : Piece) : Option (Kind × Text × Bool) :=
  (x.token? .origin).map Token.unplaced

theorem Piece.unplaced?_token? (x : Piece) (p : Position) :
    (x.token? p).map Token.unplaced = x.unplaced? := by
  cases x <;> rfl

open Text

/-! ### Tokens in front of a space -/

/-- The space between two tokens. -/
abbrev Text.space : Glyph := Glyph.scalar ' '

/-- What was read as a token is read again in front of a space, unless it is cut off. -/
theorem Piece.unplaced?_read_again {g : Glyph} {rest v b : Text} {p : Position} {t : Token}
    (htoken : (read g rest).token? p = some t) (hcut : t.unterminated = false)
    (hv : t.value = g :: v) (hb : ∀ x ∈ b.head?, x = space) :
    (read g (v ++ b)).unplaced? = some t.unplaced := by
  have htext := (value_of_token? htoken).symm.trans hv
  cases hx : read g rest with
  | quoted q =>
    rw [hx] at htext htoken
    obtain ⟨hquote, hq⟩ := isQuote_of_read_quoted hx
    obtain rfl := Option.some.inj htoken
    have hclosed : q.ending = .closed := not_not.1 (of_decide_eq_false hcut)
    have hagain := Quoted.read_again (hq ▸ hclosed) b
    rw [hq, show q.text = g :: v from htext, List.tail_cons] at hagain
    rw [read_quoted hquote, hagain]
    rfl
  | lexeme k w =>
    have hlexeme : Lexeme k (g :: v) := by
      rw [hx] at htext
      have hform : (read g rest).form? = some (k, g :: v) := by rw [hx, ← htext]; rfl
      exact lexeme_of_read hform (by rw [hx]; exact fun _ => rfl)
    have hstops : ∀ x ∈ b.head?, Text.stops (g :: v) x = true := by
      intro x hx
      rw [hb x hx]
      exact hlexeme.stops_neutral rfl
    obtain ⟨hform, hok⟩ := hlexeme.read_append hstops
    obtain ⟨u, hu, hform⟩ := Option.map_eq_some_iff.1 ((form?_token? _ p).trans hform)
    obtain ⟨hkind, hvalue⟩ := Prod.mk.inj hform
    rw [hx] at htoken
    obtain rfl := Option.some.inj htoken
    rw [← unplaced?_token? _ p, hu, Option.map_some, Token.unplaced, Token.unplaced, hkind, hvalue,
      hv, unterminated_of_faultless hok hu]
  | blank g' => rw [hx] at htoken; cases htoken
  | lineComment body => rw [hx] at htoken; cases htoken
  | blockComment body closed => rw [hx] at htoken; cases htoken
  | unknown g' => rw [hx] at htoken; cases htoken

/-- In front of a space, or of the end, a text is read as given tokens with blanks between them. -/
def Text.ReadAs (s : Text) (ts : List Token) : Prop :=
  ∀ b : Text, (∀ g ∈ b.head?, g = space) →
    ∃ xs, pieces (s ++ b) = xs ++ pieces b ∧ xs.filterMap Piece.unplaced? = ts.map Token.unplaced
      ∧ ∀ x ∈ xs, x.isToken = true ∨ ∃ g, x = .blank g

namespace Text

theorem readAs_nil : ReadAs [] [] := fun _ _ => ⟨[], rfl, rfl, List.forall_mem_nil _⟩

theorem readAs_token {g : Glyph} {rest : Text} {p : Position} {t : Token}
    (htoken : (Piece.read g rest).token? p = some t) (hcut : t.unterminated = false) :
    ReadAs t.value [t] := by
  intro b hb
  have hvalue := Piece.value_of_token? htoken
  obtain ⟨v, hv⟩ : ∃ v, t.value = g :: v := by
    obtain ⟨after, hafter⟩ := Piece.text_front g rest
    obtain ⟨x, v, hx⟩ := List.exists_cons_of_ne_nil (Piece.text_ne_nil g rest)
    rw [hx] at hafter
    exact ⟨v, by rw [hvalue, hx, (List.cons.inj hafter).1]⟩
  have hagain := Piece.unplaced?_read_again htoken hcut hv hb
  obtain ⟨u, hu, hform⟩ := Option.map_eq_some_iff.1 hagain
  have htext : (Piece.read g (v ++ b)).text = g :: v := by
    rw [← Piece.value_of_token? hu, ← hv]
    exact congrArg (·.2.1) hform
  have hsplit : g :: (v ++ b) = (Piece.read g (v ++ b)).text ++ b := by
    rw [htext]
    rfl
  rw [hv, List.cons_append, pieces_of_split hsplit]
  refine ⟨[Piece.read g (v ++ b)], rfl, ?_, List.forall_mem_singleton.2 (.inl ?_)⟩
  · rw [List.filterMap_cons, hagain]
    rfl
  · rw [← Piece.token?_isSome, hu]
    rfl

theorem ReadAs.append_space {s u : Text} {ts us : List Token} (hs : ReadAs s ts)
    (hu : ReadAs u us) : ReadAs (s ++ space :: u) (ts ++ us) := by
  intro b hb
  obtain ⟨ys, hys, hyts, hy⟩ := hu b hb
  obtain ⟨xs, hxs, hxts, hx⟩ := hs (space :: u ++ b) fun g hg => (Option.some.inj hg).symm
  have hspace : pieces (space :: u ++ b) = .blank space :: pieces (u ++ b) :=
    pieces_of_split (g := space) rfl
  refine ⟨xs ++ .blank space :: ys, ?_, ?_, ?_⟩
  · rw [List.append_assoc, hxs, hspace, hys, List.append_assoc]
    rfl
  · rw [List.filterMap_append, hxts, List.filterMap_cons, show (Piece.blank space).unplaced? = none
      from rfl, hyts, List.map_append]
  · exact List.forall_mem_append.2 ⟨hx, List.forall_mem_cons.2 ⟨.inr ⟨space, rfl⟩, hy⟩⟩

/-- Tokens that are read alone are read one behind the other. -/
theorem readAs_intercalate {ts : List Token} (h : ∀ t ∈ ts, ReadAs t.value [t]) :
    ReadAs (List.intercalate [space] (ts.map Token.value)) ts := by
  induction ts with
  | nil => exact readAs_nil
  | cons t ts ih =>
    obtain ⟨ht, hts⟩ := List.forall_mem_cons.1 h
    cases ts with
    | nil => rwa [List.map_singleton, List.intercalate_singleton]
    | cons u us =>
      rw [List.map_cons, List.map_cons, List.intercalate_cons_cons, List.append_assoc]
      exact ht.append_space (ih hts)

/-- Texts that their bytes are decoded to are so with spaces between them. -/
theorem ofBytes_intercalate {vs : List Text} (h : ∀ v ∈ vs, v.Decoded) :
    ofBytes (List.intercalate [32] (vs.map toBytes)) = List.intercalate [space] vs := by
  induction vs with
  | nil => exact decoded_nil
  | cons v vs ih =>
    obtain ⟨hv, hvs⟩ := List.forall_mem_cons.1 h
    cases vs with
    | nil => rwa [List.map_singleton, List.intercalate_singleton, List.intercalate_singleton]
    | cons w ws =>
      have hsplit := ofBytes_append_ascii (g := space) rfl (toBytes v)
        (List.intercalate [32] ((w :: ws).map toBytes))
      rw [show ofBytes v.toBytes = v from hv, ih hvs] at hsplit
      rw [List.map_cons, List.map_cons, List.intercalate_cons_cons, List.intercalate_cons_cons,
        ← List.map_cons, List.append_assoc v [space]]
      exact hsplit

end Text

/-! ### The tokens of a byte string -/

/-- The texts of some tokens, one behind the other with spaces between them; the end of input has
none. -/
def spacedOut (ts : List Token) : List UInt8 :=
  List.intercalate [32] ((ts.filter (·.kind ≠ .eof)).map fun t => t.value.toBytes)

/-- A blank has no fault, and that of a token is one of a literal. -/
theorem Piece.fault_of_token {x : Piece} (hx : x.isToken = true ∨ ∃ g, x = .blank g) {p : Position}
    {d : Diagnostic} (hd : d ∈ x.diagnostics p) :
    LexicalFault.isStray d = false ∧ LexicalFault.isOpenComment d = false := by
  cases x with
  | quoted q => exact diagnostics_quoted hd
  | lexeme k v => cases hd
  | blank g => cases hd
  | lineComment body => cases hd
  | blockComment body closed => rcases hx with hx | ⟨g, hx⟩ <;> cases hx
  | unknown g => rcases hx with hx | ⟨g, hx⟩ <;> cases hx

/-- The tokens of a byte string, none of them cut off, are read again where they are written one
behind the other with spaces between them, and no character or comment is reported there. -/
theorem lex_spaced (bytes : List UInt8)
    (h : ∀ t ∈ (lex (Text.ofBytes bytes)).tokens, t.unterminated = false) :
    (lex (Text.ofBytes (spacedOut (lex (Text.ofBytes bytes)).tokens))).tokens.map Token.unplaced
        = (lex (Text.ofBytes bytes)).tokens.map Token.unplaced
      ∧ ∀ d ∈ (lex (Text.ofBytes (spacedOut (lex (Text.ofBytes bytes)).tokens))).diagnostics,
          LexicalFault.isStray d = false ∧ LexicalFault.isOpenComment d = false := by
  have htokens := tokens_lex (Text.ofBytes bytes)
  have hts : ∀ t ∈ (lex (Text.ofBytes bytes)).tokens.filter (·.kind ≠ .eof),
      ReadAs t.value [t] ∧ t.value.Decoded := by
    intro t ht
    obtain ⟨ht, hkind⟩ := List.mem_filter.1 ht
    obtain ⟨front, g, rest, hsource, -, htoken⟩ := exists_read_of_mem ht (of_decide_eq_true hkind)
    exact ⟨readAs_token htoken (h t ht), (located_of_read hsource htoken).decoded⟩
  rw [spacedOut]
  generalize (lex (Text.ofBytes bytes)).tokens.filter (·.kind ≠ .eof) = ts at htokens hts ⊢
  have hjoined : Text.ofBytes (List.intercalate [32] (ts.map fun t => t.value.toBytes))
      = List.intercalate [space] (ts.map Token.value) := by
    rw [← ofBytes_intercalate (List.forall_mem_map.2 fun t ht => (hts t ht).2), List.map_map]
    rfl
  obtain ⟨xs, hxs, hforms, hfills⟩ :=
    readAs_intercalate (fun t ht => (hts t ht).1) [] (fun _ hg => nomatch hg)
  rw [List.append_nil, show pieces [] = [] by rw [pieces], List.append_nil] at hxs
  rw [hjoined]
  constructor
  · rw [htokens, lex, List.map_append, placed_map Piece.unplaced?_token?, hxs, hforms,
      List.map_append]
    rfl
  · intro d hd
    obtain ⟨⟨p, x⟩, hx, hd⟩ := List.mem_flatMap.1 hd
    obtain ⟨front, hmem, -⟩ := exists_fronted_of_placed hx
    have hpiece := mem_fronted_snd hmem
    rw [hxs] at hpiece
    exact Piece.fault_of_token (hfills x hpiece) hd

/-- In the source `'\q'1e/*` and, on the next line, `*/+.5#` the literal has a wrong escape, the
exponent has no digits, and the last character is unknown. -/
theorem lex_spaced_wrong :
    let bytes : List UInt8 := [39, 92, 113, 39, 49, 101, 47, 42, 10, 42, 47, 43, 46, 53, 35]
    (∀ t ∈ (lex (Text.ofBytes bytes)).tokens, t.unterminated = false)
      ∧ (lex (Text.ofBytes (spacedOut (lex (Text.ofBytes bytes)).tokens))).tokens.map Token.unplaced
        = (lex (Text.ofBytes bytes)).tokens.map Token.unplaced
      ∧ ∀ d ∈ (lex (Text.ofBytes (spacedOut (lex (Text.ofBytes bytes)).tokens))).diagnostics,
          LexicalFault.isStray d = false ∧ LexicalFault.isOpenComment d = false :=
  ⟨by decide +kernel, lex_spaced _ (by decide +kernel)⟩

end JavaPrimer
