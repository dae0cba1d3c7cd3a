import JavaPrimer.Proofs.IdentifierRun
import JavaPrimer.Proofs.LongestMatch

/-!
# At most one report about an identifier

Scope checking finds at most one thing at each identifier of a tree, and in a tree without syntax
errors the identifiers come from tokens of their own. Tokens stand one behind the other, so no two
reports are shown at one place. An identifier is a word, so it holds no quotation mark, and the name
that a message quotes can be read off it.

* `Ident.SpelledIn`, `identifiers_lex` — the identifiers of a source, one behind the other;
* `idents_distinct` — those of a tree that is read from it;
* `Diagnostic.quotedName` — the name that a message quotes;
* `checkScopes_distinct` — no identifier is reported twice, and none that is not there.
-/

namespace JavaPrimer

/-! ### Identifiers of a source -/

/-- A token of a source spells an identifier. -/
def Ident.SpelledIn (x : Ident) (source : Text) : Prop :=
  ∃ t ∈ (lex source).tokens, t.kind = .ident ∧ x = ⟨t.value, t.span⟩

theorem Token.ident?_eq_some_iff {t : Token} {x : Ident} :
    t.ident? = some x ↔ t.kind = .ident ∧ x = ⟨t.value, t.span⟩ := by
  rw [Token.ident?, Option.ite_none_right_eq_some, Option.some.injEq, eq_comm (a := x)]

/-- The identifiers of a source, one behind the other. -/
theorem identifiers_lex (source : Text) :
    let names := identifiers ((lex source).tokens.takeWhile (·.kind ≠ .eof))
    (∀ x ∈ names, x.SpelledIn source) ∧ names.Pairwise fun x y => x.span.start < y.span.start := by
  intro names
  have hbefore : ∀ t ∈ (lex source).tokens.takeWhile (·.kind ≠ .eof), t.kind ≠ .eof := by
    intro t ht
    have hkind := List.mem_takeWhile_imp ht
    exact of_decide_eq_true hkind
  obtain ⟨hspaced, -⟩ := spaced_of_infix_lex (List.takeWhile_prefix _).isInfix hbefore
  constructor
  · intro x hx
    obtain ⟨t, ht, hident⟩ := List.mem_filterMap.1 hx
    exact ⟨t, List.takeWhile_subset _ ht, Token.ident?_eq_some_iff.1 hident⟩
  · have hstarts := hspaced.apart.imp_of_mem fun ht _ htu =>
      lt_of_lt_of_le (hspaced.nonempty _ ht) htu
    refine hstarts.filterMap _ fun t u htu x hx y hy => ?_
    rw [(Token.ident?_eq_some_iff.1 hx).2, (Token.ident?_eq_some_iff.1 hy).2]
    exact htu

/-- In a source without syntax errors the identifiers of the tree stand at different places. -/
theorem idents_distinct {mode : Mode} {source : Text} (h : (analyze mode source).syntactic = []) :
    ((analyze mode source).root.idents.map (·.span.start)).Nodup
      ∧ ∀ x ∈ (analyze mode source).root.idents, x.SpelledIn source := by
  have hcut : ∀ t ∈ (lex source).tokens,
      t.unterminated = true → (LiteralSort.ofKind? t.kind).isSome = true := by
    intro t ht hcut
    rcases List.mem_append.1 ht with ht | ht
    · obtain ⟨x, -, p, htoken⟩ := placed_mem ht
      exact Piece.literal_of_unterminated htoken hcut
    · rw [List.mem_singleton.1 ht] at hcut
      cases hcut
  have hsub := idents_sublist_of_parse hcut h
  obtain ⟨hspelled, hstarts⟩ := identifiers_lex source
  refine ⟨?_, fun x hx => hspelled x (hsub.subset hx)⟩
  rw [List.Nodup, List.pairwise_map]
  exact (hstarts.sublist hsub).imp fun hxy => hxy.ne

/-! ### Names in messages -/

/-- The glyph that messages put around names. -/
def nameQuote : Glyph := Glyph.scalar '\''

/-- The name that a message quotes first. -/
def Diagnostic.quotedName (d : Diagnostic) : Text :=
  ((d.message.dropWhile (· ≠ nameQuote)).drop 1).takeWhile (· ≠ nameQuote)

theorem Diagnostic.quotedName_eq {d : Diagnostic} {front name behind : Text}
    (hmessage : d.message = front ++ nameQuote :: (name ++ nameQuote :: behind))
    (hfront : nameQuote ∉ front) (hname : nameQuote ∉ name) : d.quotedName = name := by
  have hdrop : d.message.dropWhile (· ≠ nameQuote)
      = nameQuote :: (name ++ nameQuote :: behind) := by
    rw [hmessage, List.dropWhile_append_of_pos, List.dropWhile_cons_of_neg (by simp)]
    exact fun g hg => decide_eq_true (ne_of_mem_of_not_mem hg hfront)
  rw [quotedName, hdrop, List.drop_one, List.tail_cons, List.takeWhile_append_of_pos,
    List.takeWhile_cons_of_neg (by simp), List.append_nil]
  exact fun g hg => decide_eq_true (ne_of_mem_of_not_mem hg hname)

/-- The message of a finding quotes the name that it is about. -/
theorem Finding.quotedName_diagnostic {f : Finding} (h : nameQuote ∉ f.ident.name) :
    f.diagnostic.quotedName = f.ident.name := by
  have hvariable : nameQuote ∉ Text.ofString "Variable " := by simp [nameQuote, Text.ofString]
  have hcannot : nameQuote ∉ Text.ofString "Cannot assign to " := by
    simp [nameQuote, Text.ofString]
  cases f with
  | duplicate name line =>
    have hmessage : (duplicate name line).message
        = "Variable " ++ nameQuote :: (name.name ++ nameQuote
          :: (" is already declared in this scope (first declared on line "
            ++ (Text.decimal line ++ ")"))) := by
      simp [message, nameQuote, Text.ofString]
    exact Diagnostic.quotedName_eq hmessage hvariable h
  | undeclared name =>
    have hmessage : (undeclared name).message
        = "Variable " ++ nameQuote :: (name.name ++ nameQuote :: " has not been declared") := by
      simp [message, nameQuote, Text.ofString]
    exact Diagnostic.quotedName_eq hmessage hvariable h
  | finalWrite name =>
    have hmessage : (finalWrite name).message
        = "Cannot assign to " ++ nameQuote
          :: (name.name ++ nameQuote :: " because it was declared final") := by
      simp [message, nameQuote, Text.ofString]
    exact Diagnostic.quotedName_eq hmessage hcannot h

/-- An identifier is a word. -/
theorem Lexeme.isWord_of_ident {v : Text} (h : Lexeme .ident v) : v.IsWord := by
  rcases h.spelled (fun h => nomatch h) (fun h => nomatch h) with hv | hv | hv
  · have hkind := h.spells.number hv
    split at hkind <;> cases hkind
  · exact hv
  · have hall : ∀ entry ∈ operators, entry.2 ≠ .ident := by decide
    exact absurd rfl (hall _ (h.spells.operator hv))

theorem Ident.SpelledIn.not_mem_quote {x : Ident} {source : Text} (h : x.SpelledIn source) :
    nameQuote ∉ x.name := by
  obtain ⟨t, ht, hk, rfl⟩ := h
  obtain ⟨front, g, rest, -, -, htoken⟩ := exists_read_of_mem ht (by rw [hk]; decide)
  have hlexeme : Lexeme .ident t.value := by
    rw [← hk]
    refine (Piece.lexeme_or_quoted htoken).resolve_right fun hquoted => ?_
    rw [hk] at hquoted
    revert hquoted
    decide
  obtain ⟨g, r, hv, hg, hr⟩ := hlexeme.isWord_of_ident
  show nameQuote ∉ t.value
  rw [hv, List.mem_cons, not_or]
  constructor
  · rintro rfl
    cases hg
  · intro hmem
    cases hr _ hmem

/-! ### At most one report about an identifier -/

/-- If a source has no syntax errors, scope checking never reports two things at one place, and
whatever it reports is shown at an identifier of the source that the message quotes. -/
theorem checkScopes_distinct {mode : Mode} {source : Text}
    (h : (analyze mode source).syntactic = []) (extra : List Text) :
    ((checkScopes extra (analyze mode source).root).map (·.span.start)).Nodup
      ∧ ∀ d ∈ checkScopes extra (analyze mode source).root, ∃ t ∈ (lex source).tokens,
        t.kind = .ident ∧ d.span = t.span ∧ d.quotedName = t.value := by
  obtain ⟨hnodup, hspelled⟩ := idents_distinct h
  obtain ⟨xs, hsub, hperm⟩ :=
    Root.findings_idents (analyze mode source).root (builtins ++ extra)
  constructor
  · have hxs : (xs.map (·.span.start)).Nodup := (hperm.map _).nodup_iff.2 hnodup
    have hidents := hxs.sublist (hsub.map _)
    rw [List.map_map] at hidents
    rw [checkScopes, List.map_map]
    exact hidents
  · intro d hd
    obtain ⟨f, hf, rfl⟩ := List.mem_map.1 hd
    have hident := hspelled _ (hperm.subset (hsub.subset (List.mem_map_of_mem hf)))
    have hquoted := Finding.quotedName_diagnostic hident.not_mem_quote
    obtain ⟨t, ht, hk, hx⟩ := hident
    refine ⟨t, ht, hk, ?_, ?_⟩
    · show f.ident.span = t.span
      rw [hx]
    · rw [hquoted, hx]

/-- Two unknown names in front of a literal that is cut off, in the source `x=y;"`. -/
theorem checkScopes_distinct_before_cut :
    (checkScopes [] (analyze .statements "x=y;\"").root).map (·.span.start) = [⟨1, 1⟩, ⟨1, 3⟩]
      ∧ (analyze .statements "x=y;\"").syntactic = []
      ∧ ((checkScopes [] (analyze .statements "x=y;\"").root).map (·.span.start)).Nodup
      ∧ ∀ d ∈ checkScopes [] (analyze .statements "x=y;\"").root, ∃ t ∈ (lex "x=y;\"").tokens,
        t.kind = .ident ∧ d.span = t.span ∧ d.quotedName = t.value := by
  have htokens : (lex "x=y;\"").tokens = [⟨.ident, "x", ⟨⟨1, 1⟩, ⟨1, 2⟩⟩, false⟩,
      ⟨.equals, "=", ⟨⟨1, 2⟩, ⟨1, 3⟩⟩, false⟩, ⟨.ident, "y", ⟨⟨1, 3⟩, ⟨1, 4⟩⟩, false⟩,
      ⟨.semi, ";", ⟨⟨1, 4⟩, ⟨1, 5⟩⟩, false⟩, ⟨.stringLit, "\"", ⟨⟨1, 5⟩, ⟨1, 6⟩⟩, true⟩,
      .endOfInput ⟨1, 6⟩] := by decide +kernel
  have hclean : (analyze .statements "x=y;\"").syntactic = [] := by
    show (parse .statements (lex _).tokens).diagnostics = []
    rw [htokens]
    rfl
  refine ⟨?_, hclean, checkScopes_distinct hclean []⟩
  show (checkScopes [] (parse .statements (lex _).tokens).root).map (·.span.start) = _
  rw [htokens]
  rfl

end JavaPrimer
