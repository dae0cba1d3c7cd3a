import JavaPrimer.Proofs.Gaps
import JavaPrimer.Proofs.RangedReading

/-!
# Places of a source

A place of a source is where some front of it ends. Tokens and lexical faults stand at parts of the
source, so their spans go from place to place. What is read from the tokens keeps to these places,
and so do all diagnostics of a check: none of them can point before the first glyph or behind the
end of input.

* `Text.HasPlace`, `Text.HasPlace.le_end` — the places of a text, none behind its end;
* `Piece.part_of_diagnostic` — a fault of a piece is shown at a part of it;
* `lex_diagnostics_ranged`, `ranged_ofTokens_lex` — lexical faults and tokens are in place;
* `check_ranged` — so is everything that a check gives;
* `apart_placed`, `Spaced`, `spaced_of_infix_lex` — no piece and no token begins before the one in
  front of it ends;
* `Span.Inside`, `check_inside` — lines and columns from one on, and no end behind the end of input.
-/

namespace JavaPrimer

/-! ### Places -/

/-- A place of a text: where a front of it ends. -/
def Text.HasPlace (source : Text) (p : Position) : Prop :=
  ∃ front, front <+: source ∧ p = Position.origin.advance front

namespace Position

theorem le_advance (p : Position) (t : Text) : p ≤ p.advance t := le_iff.2 (p.not_before_advance t)

/-- Lines and columns go on counting from one. -/
theorem one_le_advance {p : Position} (h : 1 ≤ p.line ∧ 1 ≤ p.column) (t : Text) :
    1 ≤ (p.advance t).line ∧ 1 ≤ (p.advance t).column := by
  induction t generalizing p with
  | nil => exact h
  | cons g t ih =>
    apply ih
    unfold after
    split
    · exact ⟨by show 1 ≤ p.line + 1; omega, Int.le_refl 1⟩
    · exact ⟨h.1, by show 1 ≤ p.column + 1; omega⟩

end Position

namespace Text.HasPlace

variable {source : Text} {p : Position}

theorem one_le (h : source.HasPlace p) : 1 ≤ p.line ∧ 1 ≤ p.column := by
  obtain ⟨front, -, rfl⟩ := h
  exact Position.one_le_advance ⟨Int.le_refl 1, Int.le_refl 1⟩ front

theorem le_end (h : source.HasPlace p) : p ≤ Position.origin.advance source := by
  obtain ⟨front, ⟨after, rfl⟩, rfl⟩ := h
  rw [Position.advance_append]
  exact Position.le_advance _ after

end Text.HasPlace

/-- The span of a part of a source is in place. -/
theorem ranged_part {source front part after : Text} (h : source = front ++ (part ++ after)) :
    Span.Ranged source.HasPlace
      ⟨Position.origin.advance front, Position.origin.advance (front ++ part)⟩ := by
  constructor
  case start => exact ⟨front, ⟨part ++ after, h.symm⟩, rfl⟩
  case stop => exact ⟨front ++ part, ⟨after, by rw [h, List.append_assoc]⟩, rfl⟩
  case ordered =>
    show _ ≤ Position.origin.advance (front ++ part)
    rw [Position.advance_append]
    exact Position.le_advance _ part

/-! ### Pieces in place -/

theorem Piece.span_of_token? {x : Piece} {p : Position} {t : Token} (h : x.token? p = some t) :
    t.span = x.span p := by
  cases x <;> simp only [token?, Option.some.injEq, reduceCtorEq] at h
  case lexeme => rw [← h]
  case quoted => rw [← h]

theorem part_of_escapeDiagnostic {us : List LiteralUnit} {p : Position} {d : Diagnostic}
    (h : d ∈ escapeDiagnostics p us) : ∃ front part after, part ≠ []
      ∧ us.flatMap LiteralUnit.text = front ++ (part ++ after)
      ∧ d.span = ⟨p.advance front, p.advance (front ++ part)⟩ := by
  induction us generalizing p with
  | nil => cases h
  | cons u us ih =>
    have hlater : d ∈ escapeDiagnostics (p.advance u.text) us → ∃ front part after, part ≠ []
        ∧ (u :: us).flatMap LiteralUnit.text = front ++ (part ++ after)
        ∧ d.span = ⟨p.advance front, p.advance (front ++ part)⟩ := by
      intro h
      obtain ⟨front, part, after, hpart, htext, hspan⟩ := ih h
      refine ⟨u.text ++ front, part, after, hpart, ?_, ?_⟩
      · rw [List.flatMap_cons, htext, List.append_assoc]
      · simp only [hspan, Position.advance_append]
    cases u with
    | plain g => exact hlater h
    | escape body fault =>
      cases fault with
      | none => exact hlater h
      | some fault =>
        rcases List.mem_cons.1 h with rfl | h
        · exact ⟨[], _, us.flatMap LiteralUnit.text, List.cons_ne_nil _ _, rfl, rfl⟩
        · exact hlater h

/-- A fault of a piece is shown at a part of it. -/
theorem Piece.part_of_diagnostic {x : Piece} {p : Position} {d : Diagnostic}
    (h : d ∈ x.diagnostics p) : ∃ front part after, part ≠ [] ∧ x.text = front ++ (part ++ after)
      ∧ d.span = ⟨p.advance front, p.advance (front ++ part)⟩ := by
  cases x with
  | blank g => cases h
  | lineComment body => cases h
  | lexeme k v => cases h
  | unknown g =>
    obtain rfl := List.mem_singleton.1 h
    exact ⟨[], [g], [], List.cons_ne_nil _ _, rfl, rfl⟩
  | blockComment body closed =>
    cases closed with
    | true => cases h
    | false =>
      obtain rfl := List.mem_singleton.1 h
      refine ⟨[], Text.ofString "/*", body, List.cons_ne_nil _ _, ?_, rfl⟩
      simp [text]
  | quoted q =>
    rcases List.mem_append.1 h with h | h
    · obtain ⟨front, part, after, hpart, htext, hspan⟩ := part_of_escapeDiagnostic h
      refine ⟨q.quote :: front, part, after ++ q.ending.text q.quote, hpart, ?_, hspan⟩
      simp only [text, Quoted.text, htext, List.cons_append, List.append_assoc]
    · obtain ⟨f, -, rfl⟩ := Option.map_eq_some_iff.1 (Option.mem_toList.1 h)
      exact ⟨[], q.text, [], List.cons_ne_nil _ _, (List.append_nil _).symm, rfl⟩

/-- A part of a piece of a source is a part of the source. -/
theorem ranged_of_mem_fronted {source : Text} {y : Text × Piece}
    (hy : y ∈ fronted [] (pieces source)) {front part after : Text}
    (hpart : y.2.text = front ++ (part ++ after)) :
    Span.Ranged source.HasPlace ⟨(Position.origin.advance y.1).advance front,
      (Position.origin.advance y.1).advance (front ++ part)⟩ := by
  obtain ⟨g, rest, hsource, hread⟩ := mem_fronted_pieces hy
  obtain ⟨more, hmore⟩ := Piece.text_front g rest
  rw [← hread, hpart] at hmore
  have hsplit : source = (y.1 ++ front) ++ (part ++ (after ++ more)) := by
    rw [List.nil_append] at hsource
    rw [hsource, ← hmore]
    simp only [List.append_assoc]
  rw [← Position.advance_append, ← Position.advance_append, ← List.append_assoc]
  exact ranged_part hsplit

theorem exists_fronted_of_placed {source : Text} {y : Position × Piece}
    (h : y ∈ placed .origin (pieces source)) :
    ∃ front, (front, y.2) ∈ fronted [] (pieces source) ∧ y.1 = Position.origin.advance front := by
  rw [show placed .origin (pieces source) = _ from placed_eq_fronted [] (pieces source)] at h
  obtain ⟨z, hz, rfl⟩ := List.mem_map.1 h
  exact ⟨z.1, hz, rfl⟩

/-- What is wrong with the pieces of a source is shown in place. -/
theorem lex_diagnostics_ranged (source : Text) :
    ∀ d ∈ (lex source).diagnostics, d.span.Ranged source.HasPlace := by
  intro d hd
  obtain ⟨⟨p, x⟩, hx, hd⟩ := List.mem_flatMap.1 hd
  obtain ⟨front, hmem, rfl⟩ := exists_fronted_of_placed hx
  obtain ⟨a, b, c, -, htext, hspan⟩ := Piece.part_of_diagnostic hd
  rw [hspan]
  exact ranged_of_mem_fronted hmem htext

/-- The tokens of a source are in place. -/
theorem ranged_ofTokens_lex (source : Text) :
    (Cursor.ofTokens (lex source).tokens).Ranged source.HasPlace := by
  obtain ⟨ts, p, htokens, hsourced, hend⟩ := lex_sourced source
  obtain ⟨hts, hp⟩ := List.append_inj' htokens rfl
  have hstop : Token.endOfInput (Position.origin.advance source) = .endOfInput p :=
    (List.cons.inj hp).1
  have hranged : ∀ t ∈ ts, t.span.Ranged source.HasPlace := by
    intro t ht
    rw [← hts] at ht
    obtain ⟨⟨q, x⟩, hx, htoken⟩ := List.mem_filterMap.1 ht
    obtain ⟨front, hmem, rfl⟩ := exists_fronted_of_placed hx
    rw [Piece.span_of_token? htoken]
    have hwhole : x.text = [] ++ (x.text ++ []) := (List.append_nil _).symm
    exact ranged_of_mem_fronted hmem hwhole
  have hlast : (Token.endOfInput p).span.Ranged source.HasPlace := by
    rw [← hstop]
    exact .point ⟨source, List.prefix_refl source, rfl⟩
  have hcursor : Cursor.ofTokens (lex source).tokens
      = (⟨none, ts, .endOfInput p, (), false⟩ : Cursor) := by
    rw [htokens]
    exact Cursor.ofTokens_append_end hend rfl []
  rw [hcursor]
  constructor
  case last => exact fun _ ht => nomatch ht
  case ahead => exact List.forall_mem_append.2 ⟨hranged, List.forall_mem_singleton.2 hlast⟩
  case ordered =>
    refine List.pairwise_append.2 ⟨?_, List.pairwise_singleton _ _, fun t ht u hu => ?_⟩
    · exact hsourced.ordered.imp fun h => Position.le_iff.2 h
    · rw [List.mem_singleton.1 hu, ← hstop]
      exact (hranged t ht).start.le_end

/-! ### Tokens apart -/

namespace Position

theorem lt_after (p : Position) (g : Glyph) : p < p.after g := by
  rw [lt_iff_le_not_ge, le_def, le_def]
  unfold after
  split
  all_goals
    dsimp only
    omega

theorem lt_advance (p : Position) {t : Text} (ht : t ≠ []) : p < p.advance t := by
  cases t with
  | nil => exact absurd rfl ht
  | cons g t => exact lt_of_lt_of_le (p.lt_after g) (le_advance (p.after g) t)

end Position

/-- Tokens one behind the other, none of them empty. -/
structure Spaced (ts : List Token) : Prop where
  nonempty : ∀ t ∈ ts, t.span.start < t.span.stop
  apart : ts.Pairwise fun t u => t.span.stop ≤ u.span.start

theorem Spaced.sublist {us ts : List Token} (h : Spaced ts) (hs : us.Sublist ts) : Spaced us :=
  ⟨fun t ht => h.nonempty t (hs.subset ht), h.apart.sublist hs⟩

/-- Pieces stand one behind the other. -/
theorem apart_placed (p : Position) (xs : List Piece) :
    (placed p xs).Pairwise (fun a b => a.1.advance a.2.text ≤ b.1)
      ∧ ∀ y ∈ placed p xs, p ≤ y.1 := by
  induction xs generalizing p with
  | nil => exact ⟨.nil, List.forall_mem_nil _⟩
  | cons x xs ih =>
    obtain ⟨hapart, hbehind⟩ := ih (p.advance x.text)
    refine ⟨List.pairwise_cons.2 ⟨hbehind, hapart⟩, List.forall_mem_cons.2 ⟨le_refl p, ?_⟩⟩
    exact fun y hy => (p.le_advance x.text).trans (hbehind y hy)

theorem spaced_placed {xs : List Piece} (h : ∀ x ∈ xs, x.text ≠ []) (p : Position) :
    Spaced ((placed p xs).filterMap fun (p, x) => x.token? p) := by
  constructor
  case nonempty =>
    intro t ht
    obtain ⟨x, hx, q, htoken⟩ := placed_mem ht
    rw [Piece.span_of_token? htoken]
    exact q.lt_advance (h x hx)
  case apart =>
    refine (apart_placed p xs).1.filterMap _ fun a b hab t ht u hu => ?_
    rw [Piece.span_of_token? ht, Piece.span_of_token? hu]
    exact hab

/-- Only literals are cut off. -/
theorem Piece.literal_of_unterminated {x : Piece} {p : Position} {t : Token}
    (h : x.token? p = some t) (hcut : t.unterminated = true) :
    (LiteralSort.ofKind? t.kind).isSome := by
  cases x <;> simp only [token?, Option.some.injEq, reduceCtorEq] at h
  case lexeme => cases h; cases hcut
  case quoted q =>
    rw [← h]
    show (LiteralSort.ofKind? q.kind).isSome = true
    unfold Quoted.kind
    split <;> rfl

/-- Tokens of a source up to the end of input: they are spaced, and only literals are cut off. -/
theorem spaced_of_infix_lex {source : Text} {ts : List Token} (hts : ts <:+: (lex source).tokens)
    (hend : ∀ t ∈ ts, t.kind ≠ .eof) :
    Spaced ts ∧ ∀ t ∈ ts, t.unterminated = true → (LiteralSort.ofKind? t.kind).isSome := by
  have hsub : ts.Sublist ((placed .origin (pieces source)).filterMap fun (p, x) => x.token? p) := by
    obtain ⟨us, vs, rfl, hus, hvs⟩ := List.sublist_append_iff.1 hts.sublist
    rcases List.sublist_singleton.1 hvs with rfl | rfl
    · rwa [List.append_nil]
    · exact absurd rfl (hend _ List.mem_concat_self)
  constructor
  · refine (spaced_placed (fun x hx => ?_) .origin).sublist hsub
    obtain ⟨g, rest, rfl⟩ := mem_pieces hx
    exact Piece.text_ne_nil g rest
  · intro t ht hcut
    obtain ⟨x, -, p, htoken⟩ := placed_mem (hsub.subset ht)
    exact Piece.literal_of_unterminated htoken hcut

/-- Behind the first of some tokens of a source all places are behind its start. -/
theorem Spaced.ranged {t : Token} {ts : List Token} (h : Spaced (t :: ts)) {c : Cursor}
    (hlast : c.last = some t) (hrest : c.rest = ts) (hstop : c.stop = Cursor.impliedEnd (t :: ts)) :
    c.Ranged (t.span.start < ·) := by
  have hstart : ∀ u ∈ t :: ts, t.span.start < u.span.stop := by
    intro u hu
    rcases List.mem_cons.1 hu with rfl | hts
    · exact h.nonempty u hu
    · calc t.span.start < t.span.stop := h.nonempty t List.mem_cons_self
        _ ≤ u.span.start := (List.pairwise_cons.1 h.apart).1 u hts
        _ ≤ u.span.stop := le_of_lt (h.nonempty u hu)
  obtain ⟨us, l, hl⟩ := (List.eq_nil_or_concat' (t :: ts)).resolve_left (List.cons_ne_nil t ts)
  have hend : c.stop.span = .point l.span.stop := by
    rw [hstop, Cursor.impliedEnd, hl, List.getLast?_concat]
    rfl
  have hlate : ∀ u ∈ t :: ts, u.span.start ≤ l.span.stop := by
    intro u hu
    have hapart := h.apart
    have hwidth := fun v hv => le_of_lt (h.nonempty v hv)
    rw [hl] at hu hapart hwidth
    rcases List.mem_append.1 hu with hus | hlast
    · have hul := (List.pairwise_append.1 hapart).2.2 u hus l (List.mem_singleton_self l)
      exact (hwidth u hu).trans (hul.trans (hwidth l List.mem_concat_self))
    · rw [List.mem_singleton.1 hlast]
      exact hwidth l List.mem_concat_self
  constructor
  case last =>
    intro u hu
    obtain rfl : t = u := Option.some.inj (hlast.symm.trans hu)
    exact ⟨h.nonempty t List.mem_cons_self, le_of_lt (h.nonempty t List.mem_cons_self)⟩
  case ahead =>
    rw [hrest]
    refine List.forall_mem_append.2 ⟨fun u hu => ?_, List.forall_mem_singleton.2 ?_⟩
    swap
    · rw [hend]
      exact .point (hstart l (hl ▸ List.mem_concat_self))
    have hordered := h.nonempty u (List.mem_cons_of_mem t hu)
    refine ⟨?_, hstart u (List.mem_cons_of_mem t hu), le_of_lt hordered⟩
    exact lt_of_lt_of_le (h.nonempty t List.mem_cons_self) ((List.pairwise_cons.1 h.apart).1 u hu)
  case ordered =>
    rw [hrest]
    refine List.pairwise_append.2 ⟨?_, List.pairwise_singleton _ _, fun u hu v hv => ?_⟩
    · refine (List.pairwise_cons.1 h.apart).2.imp_of_mem fun hu _ huv => ?_
      exact le_trans (le_of_lt (h.nonempty _ (List.mem_cons_of_mem t hu))) huv
    · rw [List.mem_singleton.1 hv, hend]
      exact hlate u (List.mem_cons_of_mem t hu)

/-! ### Checks -/

/-- The tree and the diagnostics of a check are in place, whatever is wrong with the source. -/
theorem check_ranged (settings : Settings) (mode : Mode) (source : Text) :
    (settings.check mode source).root.Sited source.HasPlace
      ∧ ∀ d ∈ (settings.check mode source).errors, d.span.Ranged source.HasPlace := by
  obtain ⟨hroot, hsyntactic⟩ := parse_ranged (ranged_ofTokens_lex source) mode
  refine ⟨hroot, fun d hd => ?_⟩
  have herrors : ∀ d ∈ (analyze mode source).errors, d.span.Ranged source.HasPlace :=
    List.forall_mem_append.2 ⟨lex_diagnostics_ranged source, hsyntactic⟩
  have hd : d ∈ settings.findings (analyze mode source) := List.mem_mergeSort.1 hd
  unfold Settings.findings at hd
  split at hd
  · rcases List.mem_append.1 hd with hd | hd
    · exact herrors d hd
    · exact hroot.checkScopes settings.extraBuiltins d hd
  · exact herrors d hd

/-- A span of a text that ends at `last`: lines and columns count from one, and the span ends
neither before its start nor behind the text. -/
structure Span.Inside (last : Position) (s : Span) : Prop where
  start : 1 ≤ s.start.line ∧ 1 ≤ s.start.column
  stop : 1 ≤ s.stop.line ∧ 1 ≤ s.stop.column
  ordered : s.start ≤ s.stop
  before : s.stop ≤ last

theorem Span.Ranged.inside {source : Text} {s : Span} (h : s.Ranged source.HasPlace) :
    s.Inside (Position.origin.advance source) :=
  ⟨h.start.one_le, h.stop.one_le, h.ordered, h.stop.le_end⟩

/-- Every diagnostic of a check and every node of its tree has a span inside the source, up to the
end of input: for all byte strings, modes and settings. -/
theorem check_inside (bytes : List UInt8) (settings : Settings) (mode : Mode) :
    ∃ ts stop, (lex (Text.ofBytes bytes)).tokens = ts ++ [stop] ∧ stop.kind = .eof
      ∧ (∀ t ∈ ts, t.kind ≠ .eof)
      ∧ (∀ d ∈ (settings.check mode (Text.ofBytes bytes)).errors, d.span.Inside stop.span.start)
      ∧ ∀ v ∈ (settings.check mode (Text.ofBytes bytes)).root.walk (fun _ => true),
          v.span.Inside stop.span.start := by
  obtain ⟨hroot, herrors⟩ := check_ranged settings mode (Text.ofBytes bytes)
  obtain ⟨ts, htokens, hts⟩ := (accounts_splitOnP (Text.ofBytes bytes)).ends
  refine ⟨ts, _, htokens, rfl, fun t ht => (hts t ht).1, fun d hd => ?_, fun v hv => ?_⟩
  · exact (herrors d hd).inside
  · exact (hroot.walk v hv).inside

end JavaPrimer
