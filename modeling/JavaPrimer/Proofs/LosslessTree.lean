import JavaPrimer.Proofs.WholeLists

/-!
# Trees that account for every token

The tokens of a source come in the order of their places, and every kind with one spelling is
spelled that way. So the outline of a tree that was read from a source without complaints covers
its tokens: every node has a stretch of them, spans it exactly, and is followed in the walk by what
is inside of it, from left to right.

* `Position.not_before_advance`, `placed_inOrder` — reading on never goes back;
* `Piece.spelled` — the spellings of tokens;
* `lex_sourced` — the tokens of a source before the end of input;
* `Root.Lossless` — a tree that accounts for every token of a list;
* `parse_lossless` — trees without syntax errors are lossless.
-/

namespace JavaPrimer

/-! ### Places in a source -/

theorem Position.not_before_after (p : Position) (g : Glyph) : (p.after g).before p = false := by
  rw [before_eq_false, after]
  split
  · left
    show p.line < p.line + 1
    omega
  · right
    show p.line = p.line ∧ p.column ≤ p.column + 1
    omega

/-- Reading on never goes back. -/
theorem Position.not_before_advance (p : Position) (t : Text) :
    (p.advance t).before p = false := by
  induction t generalizing p with
  | nil => exact p.before_self
  | cons g t ih => exact not_before_trans (p.not_before_after g) (ih (p.after g))

theorem Piece.start_of_token? {x : Piece} {p : Position} {t : Token} (h : x.token? p = some t) :
    t.span.start = p := by
  cases x with
  | lexeme k v | quoted q =>
    obtain rfl := Option.some.inj h
    rfl
  | _ => cases h

/-- Pieces that are placed one after another make tokens in order, none before the first place. -/
theorem placed_inOrder (p : Position) (xs : List Piece) :
    InOrder ((placed p xs).filterMap fun (p, x) => x.token? p)
      ∧ ∀ t ∈ (placed p xs).filterMap (fun (p, x) => x.token? p), t.span.start.before p = false := by
  induction xs generalizing p with
  | nil => exact ⟨.nil, fun t ht => nomatch ht⟩
  | cons x xs ih =>
    obtain ⟨horder, hstart⟩ := ih (p.advance x.text)
    have hrest : ∀ t ∈ (placed (p.advance x.text) xs).filterMap (fun (p, x) => x.token? p),
        t.span.start.before p = false := by
      intro t ht
      exact Position.not_before_trans (p.not_before_advance x.text) (hstart t ht)
    cases ht : x.token? p with
    | none =>
      simp only [placed, List.filterMap_cons, ht]
      exact ⟨horder, hrest⟩
    | some t =>
      have hp := Piece.start_of_token? ht
      simp only [placed, List.filterMap_cons, ht]
      refine ⟨List.pairwise_cons.2 ⟨fun u hu => ?_, horder⟩, List.forall_mem_cons.2 ⟨?_, hrest⟩⟩
      · show u.span.start.before t.span.start = false
        rw [hp]
        exact hrest u hu
      · rw [hp]
        exact p.before_self

/-! ### Spellings in a source -/

/-- A token of a source is a lexeme, or it is a quoted literal, whatever is wrong with it. -/
theorem Piece.lexeme_or_quoted {g : Glyph} {rest : Text} {p : Position} {t : Token}
    (h : (Piece.read g rest).token? p = some t) :
    Lexeme t.kind t.value ∨ t.kind ∈ [Kind.stringLit, .charLit] := by
  have hform : (Piece.read g rest).form? = some (t.kind, t.value) := by
    rw [← form?_token? _ p, h]
    rfl
  cases hx : Piece.read g rest with
  | lexeme k v =>
    left
    apply lexeme_of_read hform
    intro q
    rw [hx]
    rfl
  | quoted q =>
    right
    rw [hx] at h
    obtain rfl := Option.some.inj h
    show q.kind ∈ [Kind.stringLit, .charLit]
    unfold Quoted.kind
    split <;> decide
  | _ =>
    rw [hx] at h
    cases h

theorem Piece.spelled {g : Glyph} {rest : Text} {p : Position} {t : Token}
    (h : (Piece.read g rest).token? p = some t) :
    t.kind ≠ .eof ∧ ∀ entry ∈ keywords ++ operators, t.kind = entry.2 → t.value = entry.1 := by
  rcases lexeme_or_quoted h with hlex | hquoted
  · exact ⟨hlex.kind_ne_eof, fun entry hentry => (hlex.kind_iff hentry).1⟩
  · have hkinds : ∀ k ∈ [Kind.stringLit, .charLit], k ≠ .eof
        ∧ ∀ entry ∈ keywords ++ operators, k ≠ entry.2 := by decide
    obtain ⟨hend, hnone⟩ := hkinds t.kind hquoted
    exact ⟨hend, fun entry hentry hk => absurd hk (hnone entry hentry)⟩

/-- The tokens of a source are in order and spelled by their kinds, up to the end of input. -/
theorem lex_sourced (source : Text) :
    ∃ ts p, (lex source).tokens = ts ++ [Token.endOfInput p] ∧ Sourced ts
      ∧ ∀ t ∈ ts, t.kind ≠ .eof := by
  have hspelled : ∀ t ∈ (placed .origin (pieces source)).filterMap (fun (p, x) => x.token? p),
      t.kind ≠ .eof ∧ ∀ entry ∈ keywords ++ operators, t.kind = entry.2 → t.value = entry.1 := by
    intro t ht
    obtain ⟨x, hx, p, htok⟩ := placed_mem ht
    obtain ⟨g, rest, rfl⟩ := mem_pieces hx
    exact Piece.spelled htok
  refine ⟨_, _, rfl, ⟨fun t ht => (hspelled t ht).2, ?_⟩, fun t ht => (hspelled t ht).1⟩
  exact (placed_inOrder .origin (pieces source)).1

/-! ### Lossless trees -/

/-- A tree accounts for every token of a list that ends in `stop`. -/
structure Root.Lossless (x : Root) (ts : List Token) (stop : Token) : Prop where
  /-- Every node has its own stretch of the tokens, inside that of the node around it and behind
  those of the nodes before it, and spans it exactly; what is left belongs to the node around. A
  tree of no tokens stands at the end of input. -/
  covers : x.outline.Covers ts ∨ (ts = [] ∧ x = .statements stop.span [])
  /-- The tokens can be told from the tree. -/
  yield : x.outline.yield = ts.map Token.form
  /-- The nodes are those that a walk comes by. -/
  visits : ∀ enter, x.outline.visits enter = x.walk enter
  /-- A walk never goes back. -/
  ordered : ∀ enter, (x.walk enter).Pairwise fun v w => w.span.startsBefore v.span = false

theorem Root.lossless_of_covers {x : Root} {ts : List Token} (h : x.outline.Covers ts)
    (hts : Sourced ts) (stop : Token) : x.Lossless ts stop where
  covers := .inl h
  yield := h.yield_eq
  visits := fun _ => x.visits_outline
  ordered := fun enter => x.visits_outline ▸ h.ordered hts.ordered enter

theorem Root.lossless_empty (stop : Token) :
    (Root.statements stop.span []).Lossless [] stop where
  covers := .inr ⟨rfl, rfl⟩
  yield := rfl
  visits := fun _ => Root.visits_outline _
  ordered := by
    intro enter
    exact (List.pairwise_singleton _ _).sublist (Outline.visit_sublist enter _ _ [])

/-- A tree that takes the tokens of a source is lossless, if it is right where there are none. -/
theorem Root.Takes.lossless {x : Root} {ts : List Token} (h : x.Takes ts) (hts : Sourced ts)
    {stop : Token} (hempty : ts = [] → x = .statements stop.span []) : x.Lossless ts stop := by
  by_cases hne : ts = []
  · rw [hempty hne, hne]
    exact lossless_empty stop
  · exact lossless_of_covers (h.2 hne hts) hts stop

/-- A tree that is read from a source without syntax errors and without literals that are cut off,
as statements or as a program, accounts for every token of the source. -/
theorem parse_lossless {source : Text} {parse : List Token → Parsed}
    (hparse : parse = parseStatements ∨ parse = parseProgram)
    (hcut : ∀ t ∈ (lex source).tokens, t.unterminated = false)
    (hclean : (parse (lex source).tokens).diagnostics = []) :
    ∃ ts stop, (lex source).tokens = ts ++ [stop] ∧ stop.kind = .eof ∧ (∀ t ∈ ts, t.kind ≠ .eof)
      ∧ (parse (lex source).tokens).root.Lossless ts stop := by
  obtain ⟨ts, p, hsource, hts, hend⟩ := lex_sourced source
  have hfront : (lex source).tokens.takeWhile (·.kind ≠ .eof) = ts := by
    rw [hsource]
    exact takeWhile_before_end rfl hend
  refine ⟨ts, .endOfInput p, hsource, rfl, hend, ?_⟩
  rcases hparse with rfl | rfl
  · have htakes := takes_of_parseStatements hcut hclean
    rw [hfront] at htakes
    apply htakes.lossless hts
    intro hnil
    rw [hsource, hnil]
    rfl
  · have htakes := takes_of_parseProgram hcut hclean
    rw [hfront] at htakes
    apply htakes.lossless hts
    intro hnil
    -- without a class there is a complaint
    rw [hsource, hnil] at hclean
    cases hclean

/-- An assignment with a comment in it: `x = /* one */ 1;`. -/
theorem parse_lossless_assignment :
    (parseStatements (lex "x = /* one */ 1;").tokens).diagnostics = []
      ∧ ∃ ts stop, (lex "x = /* one */ 1;").tokens = ts ++ [stop] ∧ stop.kind = .eof
        ∧ (∀ t ∈ ts, t.kind ≠ .eof)
        ∧ (parseStatements (lex "x = /* one */ 1;").tokens).root.Lossless ts stop :=
  ⟨by decide +kernel, parse_lossless (.inl rfl) (by decide +kernel) (by decide +kernel)⟩

end JavaPrimer
