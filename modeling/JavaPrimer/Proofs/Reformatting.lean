import JavaPrimer.Analysis
import JavaPrimer.Proofs.AcceptedLanguage
import JavaPrimer.Proofs.LayoutCutTree
import Mathlib

/-!
# Layout and parsing

What happens to the tokens of a source when it is laid out and read again. Nothing happens to them,
unless the source applies a step operator to a numeral that ends in its exponent mark: the layout
puts no blank between the two, and the numeral takes the first sign.

* `Root.InMode`, `parse_of_readFrom`, `readFrom_of_parse` — parsing in either mode;
* `Token.TakesSignOf` — the two neighbours that run into each other;
* `reformat_ok_iff` — when a source has a layout;
* `reformat_tokens` — the tokens of a layout.
-/

namespace JavaPrimer

/-! ### Parsing in a mode -/

/-- The trees that a mode gives. -/
def Root.InMode : Mode → Root → Prop
  | .full, .program _ _ => True
  | .statements, .statements _ _ => True
  | _, _ => False

theorem inMode_parse (mode : Mode) (tokens : List Token) : (parse mode tokens).root.InMode mode := by
  cases mode with
  | full =>
    obtain ⟨s, classes, h⟩ := root_parseProgram tokens
    show (parseProgram tokens).root.InMode .full
    rw [h]
    trivial
  | statements => exact trivial

/-- A tree that is read from tokens is what they are parsed into, up to spans. -/
theorem parse_of_readFrom {mode : Mode} {x : Root} {ts : List Token} {e : Token}
    (he : e.kind = .eof) (hts : ∀ t ∈ ts, t.kind ≠ .eof) (hmode : x.InMode mode)
    (h : x.ReadFrom ts) :
    (parse mode (ts ++ [e])).diagnostics = [] ∧ (parse mode (ts ++ [e])).root.bare = x.bare := by
  rw [← takeWhile_before_end he hts] at h
  cases mode with
  | full =>
    cases x with
    | program s classes => exact parseProgram_of_readFrom h
    | statements s stmts => exact absurd hmode id
  | statements =>
    cases x with
    | program s classes => exact absurd hmode id
    | statements s stmts => exact parseStatements_of_readFrom h

/-- What tokens are parsed into without a complaint is read from them. -/
theorem readFrom_of_parse {mode : Mode} {ts : List Token} {e : Token} (he : e.kind = .eof)
    (hts : ∀ t ∈ ts, t.kind ≠ .eof) (hcut : ∀ t ∈ ts ++ [e], t.unterminated = false)
    (h : (parse mode (ts ++ [e])).diagnostics = []) :
    (parse mode (ts ++ [e])).root.ReadFrom ts := by
  have hfront := takeWhile_before_end he hts
  cases mode with
  | full =>
    have hread := readFrom_of_parseProgram hcut h
    rwa [hfront] at hread
  | statements =>
    have hread := readFrom_of_parseStatements hcut h
    rwa [hfront] at hread

theorem reformat_ok_iff {mode : Mode} {source text : Text} :
    reformat mode source = .ok text ↔ (analyze mode source).errors = []
      ∧ text = (analyze mode source).root.layout := by
  unfold reformat
  dsimp only
  split
  · next h =>
    rw [List.isEmpty_iff] at h
    rw [Except.ok.injEq]
    exact ⟨fun heq => ⟨h, heq.symm⟩, fun heq => heq.2.symm⟩
  · next h =>
    rw [List.isEmpty_iff] at h
    exact iff_of_false (fun heq => nomatch heq) fun heq => h heq.1

/-! ### Neighbours that run into each other -/

/-- A floating numeral that ends in its exponent mark, and a step operator. -/
def Token.TakesSignOf (a b : Token) : Prop :=
  a.kind = .floatLit ∧ Numeral.endsInMark a.value = true
    ∧ (b.kind = .plusPlus ∨ b.kind = .minusMinus)

theorem Lexeme.isLoose_iff {k : Kind} {v : Text} (h : Lexeme k v) :
    v.isLoose = true ↔ k = .floatLit ∧ Numeral.endsInMark v = true := by
  constructor
  · intro hv
    obtain ⟨hstart, hmark⟩ := Bool.and_eq_true_iff.1 hv
    refine ⟨?_, hmark⟩
    obtain ⟨n, hn, rfl⟩ := Numeral.starts_of_lexeme h hstart
    obtain ⟨-, m, hexp, -⟩ := Numeral.exponent_of_endsInMark hn hmark
    have hkind : n.kind = .floatLit := by
      rw [Numeral.kind, Numeral.isFloat, hexp, if_pos (by simp)]
    rw [← hkind]
    exact h.kind_eq (.numeral hn hstart)
  · intro hk
    obtain ⟨hk, hmark⟩ := hk
    rw [Text.isLoose, hmark, Bool.and_true]
    cases h with
    | @word g r hg hr =>
      cases hkey : keyword? (g :: r) with
      | none =>
        rw [hkey] at hk
        cases hk
      | some k' =>
        rw [hkey] at hk
        have hall : ∀ entry ∈ keywords, entry.2 ≠ .floatLit := by decide
        obtain ⟨entry, hentry, rfl⟩ := Option.map_eq_some_iff.1 hkey
        exact absurd hk (hall entry (List.mem_of_find?_eq_some hentry))
    | numeral hn hstart => exact hstart
    | @quoted quote t hquote hok =>
      unfold Quoted.kind at hk
      split at hk <;> cases hk
    | operator hv =>
      have hall : ∀ entry ∈ operators, entry.2 ≠ .floatLit := by decide
      exact absurd hk (hall _ hv)

theorem Lexeme.isStep_iff {k : Kind} {v : Text} (h : Lexeme k v) :
    v.isStep = true ↔ k = .plusPlus ∨ k = .minusMinus := by
  rw [h.kind_iff (s := Text.ofString "++") (by decide),
    h.kind_iff (s := Text.ofString "--") (by decide), Text.isStep, List.contains_iff_mem]
  simp [texts]

theorem takesSignOf_iff {a b : Token} (ha : Lexeme a.kind a.value) (hb : Lexeme b.kind b.value) :
    a.TakesSignOf b ↔ a.value.runsInto b.value = true := by
  rw [Text.runsInto, Bool.and_eq_true, ha.isLoose_iff, hb.isStep_iff, and_assoc]
  rfl

theorem isChain_values_iff {ts : List Token} (hts : Lexemes ts) {e : Token} (he : e.kind = .eof) :
    (ts ++ [e]).IsChain (fun a b => ¬ a.TakesSignOf b)
      ↔ (ts.map Token.value).IsChain fun v s => v.runsInto s = false := by
  match ts, hts with
  | [], _ => exact iff_of_true (.singleton e) .nil
  | [t], _ =>
    refine iff_of_true (List.isChain_cons_cons.2 ⟨?_, .singleton e⟩) (.singleton t.value)
    intro h
    rcases h.2.2 with h | h <;> · rw [he] at h; cases h
  | t :: u :: ts, hts =>
    obtain ⟨ht, hrest⟩ := lexemes_cons.1 hts
    have hu : Lexeme u.kind u.value := hrest u List.mem_cons_self
    rw [List.cons_append, List.cons_append, List.isChain_cons_cons, ← List.cons_append,
      isChain_values_iff hrest he, takesSignOf_iff ht hu, Bool.not_eq_true]
    exact (List.isChain_cons_cons (R := fun v s => Text.runsInto v s = false)).symm

/-! ### The tokens of a layout -/

theorem Operands.asRead_within : asRead.Within asLaid where
  beside _ _ _ _ := rfl
  behind _ _ := rfl
  before _ h := h

/-- The values of the tokens of a text without lexical errors. -/
theorem values_of_clean {t : Text} {ts : List Token}
    (h : ts.map Token.form = (pieces t).filterMap Piece.form?) :
    ts.map Token.value = tokenTexts (pieces t) := by
  rw [tokenTexts, ← h, List.map_map]
  rfl

theorem Lexemes.kind_ne_eof {ts : List Token} (h : Lexemes ts) : ∀ t ∈ ts, t.kind ≠ .eof :=
  fun t ht => (h t ht).kind_ne_eof

/-- A text that is cut into the words of a tree is read as that tree, and laid out as it is. -/
theorem parse_of_words {mode : Mode} {x : Root} (hmode : x.InMode mode) (hx : x.Spelled .asRead)
    {t : Text} (hclean : (lex t).diagnostics = []) (hwords : tokenTexts (pieces t) = x.words) :
    (analyze mode t).errors = [] ∧ (analyze mode t).root.bare = x.bare := by
  obtain ⟨ts, p, hts, hform, hlex, -⟩ := lex_clean hclean
  have hread : x.ReadFrom ts :=
    (x.readFrom_iff hlex).2 ⟨hx, (values_of_clean hform).trans hwords⟩
  have hparse := parse_of_readFrom (e := .endOfInput p) rfl hlex.kind_ne_eof hmode hread
  rw [← hts] at hparse
  refine ⟨?_, hparse.2⟩
  show (lex t).diagnostics ++ (parse mode (lex t).tokens).diagnostics = []
  rw [hclean, hparse.1, List.append_nil]

/-- A source with a layout is spelled by its tokens. -/
theorem spelled_of_clean {mode : Mode} {source : Text} (h : (analyze mode source).errors = []) :
    ∃ ts p, (lex source).tokens = ts ++ [Token.endOfInput p] ∧ Lexemes ts
      ∧ (analyze mode source).root.Spelled .asRead
      ∧ ts.map Token.value = (analyze mode source).root.words := by
  obtain ⟨hlexical, hsyntax⟩ := List.append_eq_nil_iff.1 h
  obtain ⟨ts, p, hts, -, hlex, hcut⟩ := lex_clean hlexical
  have hcut' : ∀ t ∈ ts ++ [Token.endOfInput p], t.unterminated = false := by
    intro t ht
    rcases List.mem_append.1 ht with ht | ht
    · exact hcut t ht
    · rw [List.mem_singleton.1 ht]
      rfl
  have hparse : (parse mode (ts ++ [Token.endOfInput p])).diagnostics = [] := by
    rw [← hts]
    exact hsyntax
  have hread := readFrom_of_parse rfl hlex.kind_ne_eof hcut' hparse
  rw [← hts] at hread
  have hwords := ((analyze mode source).root.readFrom_iff hlex).1 hread
  exact ⟨ts, p, hts, hlex, hwords.1, hwords.2⟩

/-- Laying out a source leaves its tokens alone except where a loose exponent takes the sign of the
step operator behind it. If none does, the layout is read as the same tree and laid out as it is. -/
theorem reformat_tokens {mode : Mode} {source text : Text} (h : reformat mode source = .ok text) :
    (lex text).diagnostics = []
      ∧ (lex text).tokens.map Token.value = takeSigns ((lex source).tokens.map Token.value)
      ∧ ((lex text).tokens.map Token.form = (lex source).tokens.map Token.form
        ↔ (lex source).tokens.IsChain fun a b => ¬ a.TakesSignOf b)
      ∧ (((lex source).tokens.IsChain fun a b => ¬ a.TakesSignOf b) →
        (analyze mode text).errors = []
          ∧ (analyze mode text).root.bare = (analyze mode source).root.bare
          ∧ reformat mode text = .ok text) := by
  obtain ⟨hclean, rfl⟩ := reformat_ok_iff.1 h
  generalize hx : (analyze mode source).root = x
  obtain ⟨ts, p, hts, hlex, hspelled, hvalues⟩ := spelled_of_clean hclean
  rw [hx] at hspelled hvalues
  obtain ⟨hclean', hwords⟩ := (Root.cutInto_layout (hspelled.mono Operands.asRead_within)).lex
  obtain ⟨ts', p', hts', hform', hlex', -⟩ := lex_clean hclean'
  have hvalues' : ts'.map Token.value = takeSigns (ts.map Token.value) := by
    rw [values_of_clean hform', hwords, hvalues]
  have hchain := isChain_values_iff hlex (e := .endOfInput p) rfl
  rw [hts, hts', hchain, ← takeSigns_eq_self_iff]
  refine ⟨hclean', ?_, ?_, ?_⟩
  · have hend : takeSigns (ts.map Token.value ++ [[]]) = takeSigns (ts.map Token.value) ++ [[]] :=
      takeSigns_mid (v := []) rfl rfl
    rw [List.map_append, List.map_append, hvalues']
    exact hend.symm
  · rw [List.map_append, List.map_append]
    constructor
    · intro heq
      have hforms : ts'.map Token.form = ts.map Token.form := List.append_cancel_right heq
      have hsnd := congrArg (List.map Prod.snd) hforms
      rw [List.map_map, List.map_map] at hsnd
      exact hvalues'.symm.trans hsnd
    · intro hself
      rw [hlex'.form_eq hlex (hvalues'.trans hself)]
      rfl
  · intro hself
    rw [hvalues] at hself
    have hmode : x.InMode mode := hx ▸ inMode_parse mode (lex source).tokens
    have hparse := parse_of_words hmode hspelled hclean' (hwords.trans hself)
    refine ⟨hparse.1, hparse.2, reformat_ok_iff.2 ⟨hparse.1, ?_⟩⟩
    rw [← Root.layout_bare (analyze mode x.layout).root, hparse.2, Root.layout_bare]

instance (a b : Token) : Decidable (a.TakesSignOf b) :=
  inferInstanceAs (Decidable (_ ∧ _ ∧ (_ ∨ _)))

/-- Two signs stay apart: `x=- -y;` is laid out as `x = - -y;`, with the same tokens. -/
theorem reformat_double_minus :
    reformat .statements "x=- -y;" = .ok (Text.ofString "x = - -y;\n")
      ∧ (lex "x = - -y;\n").tokens.map Token.form = (lex "x=- -y;").tokens.map Token.form
      ∧ reformat .statements "x = - -y;\n" = .ok (Text.ofString "x = - -y;\n") := by
  have hlex : lex "x=- -y;" = ⟨[⟨.ident, "x", ⟨⟨1, 1⟩, ⟨1, 2⟩⟩, false⟩,
      ⟨.equals, "=", ⟨⟨1, 2⟩, ⟨1, 3⟩⟩, false⟩, ⟨.minus, "-", ⟨⟨1, 3⟩, ⟨1, 4⟩⟩, false⟩,
      ⟨.minus, "-", ⟨⟨1, 5⟩, ⟨1, 6⟩⟩, false⟩, ⟨.ident, "y", ⟨⟨1, 6⟩, ⟨1, 7⟩⟩, false⟩,
      ⟨.semi, ";", ⟨⟨1, 7⟩, ⟨1, 8⟩⟩, false⟩, .endOfInput ⟨1, 8⟩], []⟩ := by cbv
  have hok : reformat .statements "x=- -y;" = .ok (Text.ofString "x = - -y;\n") := by
    rw [reformat_ok_iff, analyze, hlex]
    exact ⟨rfl, rfl⟩
  have hchain : (lex "x=- -y;").tokens.IsChain fun a b => ¬ a.TakesSignOf b := by
    rw [hlex]
    decide
  obtain ⟨-, -, hforms, hrest⟩ := reformat_tokens hok
  exact ⟨hok, hforms.2 hchain, (hrest hchain).2.2⟩

/-- A loose exponent: `x = 1e ++;` is laid out as `x = 1e++;`, which has other tokens. -/
theorem reformat_loose_exponent :
    reformat .statements "x = 1e ++;" = .ok (Text.ofString "x = 1e++;\n")
      ∧ (lex "x = 1e++;\n").tokens.map Token.form ≠ (lex "x = 1e ++;").tokens.map Token.form := by
  have hlex : lex "x = 1e ++;" = ⟨[⟨.ident, "x", ⟨⟨1, 1⟩, ⟨1, 2⟩⟩, false⟩,
      ⟨.equals, "=", ⟨⟨1, 3⟩, ⟨1, 4⟩⟩, false⟩, ⟨.floatLit, "1e", ⟨⟨1, 5⟩, ⟨1, 7⟩⟩, false⟩,
      ⟨.plusPlus, "++", ⟨⟨1, 8⟩, ⟨1, 10⟩⟩, false⟩, ⟨.semi, ";", ⟨⟨1, 10⟩, ⟨1, 11⟩⟩, false⟩,
      .endOfInput ⟨1, 11⟩], []⟩ := by cbv
  have hlex' : (lex "x = 1e++;\n").tokens.map Token.kind
      = [.ident, .equals, .floatLit, .plus, .semi, .eof] := by cbv
  refine ⟨?_, ?_⟩
  · rw [reformat_ok_iff, analyze, hlex]
    exact ⟨rfl, rfl⟩
  · intro hsame
    have hkinds := congrArg (List.map Prod.fst) hsame
    rw [List.map_map, List.map_map] at hkinds
    change (lex "x = 1e++;\n").tokens.map Token.kind = (lex "x = 1e ++;").tokens.map Token.kind
      at hkinds
    rw [hlex', hlex] at hkinds
    cases hkinds

end JavaPrimer
