import JavaPrimer.Proofs.LooseExponent

/-!
# Cutting the layout of an expression

The layout of a spelled expression is cut into its words again, except where a loose exponent takes
the sign of the step operator behind it. What follows an expression is a neutral glyph; a name, a
group or an object creation may moreover stand before a sign.

* `Text.cutInto_fixed`, `Text.cutInto_bracket`, `Text.cutInto_bracketed` — the fixed parts of a layout;
* `Operands.asLaid` — what the layout asks of operands;
* `Expr.head_layout` — no expression starts with an equals sign;
* `Expr.cutInto_layout` — the layout of an expression.
-/

namespace JavaPrimer

/-! ### Fixed parts -/

namespace Text

theorem cutInto_space : CutInto (fun _ => true) (ofString " ") [] := cutInto_gap _ rfl

theorem cutInto_lineEnd : CutInto (fun _ => true) (ofString "\n") [] := cutInto_gap _ rfl

theorem CutInto.append_neutral {q : Glyph → Bool} {t u : Text} {ws vs : List Text}
    (ht : CutInto Glyph.isNeutral t ws) (hu : CutInto q u vs)
    (hhead : u.head?.any Glyph.isNeutral = true) : CutInto q (t ++ u) (ws ++ vs) := by
  refine ht.append hu ?_ ?_
  · intro g hg
    obtain ⟨x, hx, hneutral⟩ := (Option.any_eq_true _ _).1 hhead
    rw [hx] at hg
    rwa [← Option.some.inj hg]
  · rintro rfl
    cases hhead

theorem CutInto.append_space {t : Text} {ws : List Text} (ht : CutInto Glyph.isNeutral t ws) :
    CutInto (fun _ => true) (t ++ ofString " ") ws := by
  have h := ht.append_neutral cutInto_space rfl
  rwa [List.append_nil] at h

theorem cutInto_fixed {s : String} {k : Kind} (h : (ofString s, k) ∈ keywords ++ operators) :
    CutInto Glyph.isNeutral (ofString s) (texts [s]) :=
  (Lexeme.of_fixed h).cutInto_neutral

/-- Brackets, commas and semicolons. -/
def brackets : List String := ["(", ")", "[", "]", "\x7b", "\x7d", ";", ","]

theorem brackets_cases : ∀ s ∈ brackets, (∃ entry ∈ operators, entry.1 = ofString s)
    ∧ extensions (ofString s) = [] ∧ ofString s ≠ ofString "."
    ∧ (ofString s).head?.any Glyph.isNeutral = true
    ∧ (ofString s).isLoose = false ∧ (ofString s).isStep = false := by decide

/-- A bracket may stand before anything. -/
theorem cutInto_bracket {s : String} (h : s ∈ brackets) :
    CutInto (fun _ => true) (ofString s) (texts [s]) := by
  obtain ⟨⟨⟨v, k⟩, hmem, rfl⟩, hext, hpoint, -⟩ := brackets_cases s h
  refine (Lexeme.operator hmem).cutInto.mono ?_
  intro g _
  rw [stops_operator hmem, hext, beq_eq_false_iff_ne.2 hpoint, Bool.false_and]
  rfl

theorem takeSigns_bracketed {l r : String} (hl : l ∈ brackets) (hr : r ∈ brackets) (ws : List Text) :
    takeSigns (texts [l] ++ (ws ++ texts [r])) = texts [l] ++ (takeSigns ws ++ texts [r]) := by
  obtain ⟨-, -, -, -, hl, -⟩ := brackets_cases l hl
  obtain ⟨-, -, -, -, hr, hr'⟩ := brackets_cases r hr
  show takeSigns (ofString l :: (ws ++ ofString r :: [])) = _
  rw [takeSigns_cons hl, takeSigns_mid hr hr']
  rfl

theorem cutInto_bracketed {l r : String} (hl : l ∈ brackets) (hr : r ∈ brackets) {t : Text}
    {ws : List Text} (h : CutInto Glyph.isNeutral t (takeSigns ws)) :
    CutInto (fun _ => true) (ofString l ++ t ++ ofString r)
      (takeSigns (texts [l] ++ (ws ++ texts [r]))) := by
  obtain ⟨-, -, -, hneutral, -⟩ := brackets_cases r hr
  have hcut := ((cutInto_bracket hl).append_any h).append_neutral (cutInto_bracket hr) hneutral
  rwa [takeSigns_bracketed hl hr, ← List.append_assoc]

theorem cutInto_parenthesized {n : Bool} {t : Text} {ws : List Text}
    (h : CutInto Glyph.isNeutral t (takeSigns ws)) :
    CutInto Glyph.isNeutral (parenthesized n t) (takeSigns (enclosed n ws)) := by
  cases n with
  | false => exact h
  | true => exact (cutInto_bracketed (by decide) (by decide) h).mono fun _ _ => rfl

end Text

/-! ### Arguments -/

theorem intercalate_cons (sep x : Text) (xs : List Text) :
    List.intercalate sep (x :: xs) = x ++ xs.flatMap fun y => sep ++ y := by
  induction xs generalizing x with
  | nil => simp [List.intercalate]
  | cons y ys ih =>
    have h := ih y
    simp only [List.intercalate, List.intersperse_cons_cons, List.flatten_cons, List.flatMap_cons] at h ⊢
    rw [h, List.append_assoc]

theorem layoutArgs_eq (es : List Expr) : layoutArgs es = es.map Expr.layout := by
  induction es with
  | nil => rfl
  | cons e es ih => rw [layoutArgs, ih, List.map_cons]

/-- The layout of an expression is cut into its words before neutral glyphs. -/
def Expr.Cuts (e : Expr) : Prop := Text.CutInto Glyph.isNeutral e.layout (takeSigns e.words)

theorem cutInto_comma : Text.CutInto (fun _ => true) (Text.ofString ", ") (texts [","]) :=
  ((Text.cutInto_bracket (s := ",") (by decide)).mono fun _ _ => rfl).append_space

theorem cutInto_moreArgs {es : List Expr} (h : ∀ e ∈ es, e.Cuts) {t : Text} {ws : List Text}
    (ht : Text.CutInto Glyph.isNeutral t (takeSigns ws)) :
    Text.CutInto Glyph.isNeutral (t ++ es.flatMap fun e => Text.ofString ", " ++ e.layout)
      (takeSigns (ws ++ moreArgsWords es)) := by
  induction es generalizing t ws with
  | nil => rwa [List.flatMap_nil, moreArgsWords, List.append_nil, List.append_nil]
  | cons e es ih =>
    have he := (ht.append_neutral cutInto_comma rfl).append_any (h e List.mem_cons_self)
    have hwords : takeSigns ws ++ texts [","] ++ takeSigns e.words
        = takeSigns (ws ++ (texts [","] ++ e.words)) := by
      show _ = takeSigns (ws ++ Text.ofString "," :: e.words)
      rw [takeSigns_mid (by decide) (by decide), List.append_assoc]
      rfl
    rw [hwords] at he
    have hrest := ih (fun x hx => h x (List.mem_cons_of_mem e hx)) he
    rw [List.flatMap_cons, moreArgsWords]
    rwa [List.append_assoc, List.append_assoc, ← List.append_assoc (Text.ofString ", "),
      List.append_assoc ws] at hrest

theorem cutInto_call {es : List Expr} (h : ∀ e ∈ es, e.Cuts) :
    Text.CutInto (fun _ => true) (layoutCall (layoutArgs es))
      (takeSigns (texts ["("] ++ (argsWords es ++ texts [")"]))) := by
  refine Text.cutInto_bracketed (by decide) (by decide) ?_
  cases es with
  | nil => exact Text.cutInto_nil _
  | cons e es =>
    rw [layoutArgs_eq, List.map_cons, intercalate_cons, List.flatMap_map, argsWords]
    exact cutInto_moreArgs (fun x hx => h x (List.mem_cons_of_mem e hx)) (h e List.mem_cons_self)

/-! ### Selectors -/

/-- The last of some words takes no sign. -/
def EndsTight (ws : List Text) : Prop := ∀ v ∈ ws.getLast?, v.isLoose = false

theorem EndsTight.append {us vs : List Text} (hu : EndsTight us) (hv : EndsTight vs) :
    EndsTight (us ++ vs) := by
  intro w hw
  rw [List.getLast?_append, Option.mem_def, Option.or_eq_some_iff] at hw
  rcases hw with hw | ⟨-, hw⟩
  · exact hv w hw
  · exact hu w hw

theorem endsTight_singleton {w : Text} (hw : w.isLoose = false) : EndsTight [w] := by
  intro v hv
  rwa [← Option.some.inj hv]

theorem endsTight_bracketed {l r : String} (hr : r ∈ Text.brackets) (ws : List Text) :
    EndsTight (texts [l] ++ (ws ++ texts [r])) := by
  obtain ⟨-, -, -, -, hloose, -⟩ := Text.brackets_cases r hr
  intro v hv
  rw [← List.append_assoc, show texts [r] = [Text.ofString r] from rfl, List.getLast?_concat] at hv
  rwa [← Option.some.inj hv]

theorem Ident.Spelled.lexeme {x : Ident} (h : x.Spelled) : Lexeme .ident x.name := isToken_iff.1 h

theorem Ident.Spelled.tight {x : Ident} (h : x.Spelled) :
    x.name.isLoose = false ∧ x.name.isStep = false :=
  Text.tight_of_word (Lexeme.head_of_ident h.lexeme)

/-- An identifier may stand before whatever does not go on with it. -/
theorem Ident.Spelled.cutInto {x : Ident} (h : x.Spelled) :
    Text.CutInto (!·.isWordPart) x.name [x.name] := by
  have hstart := Lexeme.head_of_ident h.lexeme
  refine h.lexeme.cutInto.mono ?_
  intro g hg
  cases hname : x.name with
  | nil =>
    rw [hname] at hstart
    cases hstart
  | cons c r =>
    rw [hname] at hstart
    rwa [Text.stops_word hstart]

theorem Ident.Spelled.cutInto_neutral {x : Ident} (h : x.Spelled) :
    Text.CutInto Glyph.isNeutral x.name [x.name] :=
  h.lexeme.cutInto_neutral

/-- A point may stand before a word. -/
theorem cutInto_point {q : Glyph → Bool} {u : Text} {vs : List Text} (hu : Text.CutInto q u vs)
    (hhead : u.head?.any Glyph.isWordStart = true) :
    Text.CutInto q (Text.ofString "." ++ u) (texts ["."] ++ vs) := by
  have hmem : (Text.ofString ".", Kind.dot) ∈ operators := by decide
  obtain ⟨x, hx, hstart⟩ := (Option.any_eq_true _ _).1 hhead
  refine (Lexeme.operator hmem).cutInto.append hu ?_ ?_
  · intro g hg
    rw [hx] at hg
    obtain rfl := Option.some.inj hg
    rw [Text.stops_operator hmem, show Text.extensions (Text.ofString ".") = [] by decide,
      Glyph.not_isDigit_of_isWordStart hstart, Bool.and_false]
    rfl
  · rintro rfl
    cases hhead

/-- The layout of a selector may stand where its name ends. -/
theorem Selector.cutInto_layout {ok : Operands} {x : Selector} (hx : x.Spelled ok)
    (h : ∀ t args, x = .call t args → ∀ e ∈ args, e.Cuts) :
    Text.CutInto (!·.isWordPart) x.layout (takeSigns x.words) ∧ EndsTight x.words
      ∧ x.layout.head?.any (!·.isWordPart) = true := by
  cases x with
  | field s name =>
    have hname : name.Spelled := hx
    refine ⟨?_, ?_, rfl⟩
    · have hcut := cutInto_point hname.cutInto (Lexeme.head_of_ident hname.lexeme)
      show Text.CutInto _ _ (takeSigns (Text.ofString "." :: [name.name]))
      rw [takeSigns_cons (by decide)]
      exact hcut
    · show EndsTight (texts ["."] ++ [name.name])
      exact (endsTight_singleton (by decide)).append (endsTight_singleton hname.tight.1)
  | call s args =>
    exact ⟨(cutInto_call (h s args rfl)).mono fun _ _ => rfl, endsTight_bracketed (by decide) _, rfl⟩

theorem cutInto_selectors {ok : Operands} {xs : List Selector} (hxs : selectorsSpelled ok xs)
    (h : ∀ t args, Selector.call t args ∈ xs → ∀ e ∈ args, e.Cuts) :
    Text.CutInto (!·.isWordPart) (layoutSelectors xs) (takeSigns (selectorsWords xs))
      ∧ EndsTight (selectorsWords xs)
      ∧ ∀ g ∈ (layoutSelectors xs).head?, (!g.isWordPart) = true := by
  induction xs with
  | nil => exact ⟨Text.cutInto_nil _, fun v hv => (nomatch hv), fun g hg => (nomatch hg)⟩
  | cons x xs ih =>
    obtain ⟨hx, hxs⟩ := hxs
    obtain ⟨hcut, htight, hhead⟩ := Selector.cutInto_layout hx
      fun t args heq => h t args (heq ▸ List.mem_cons_self)
    obtain ⟨hcut', htight', hhead'⟩ := ih hxs
      fun t args hmem => h t args (List.mem_cons_of_mem x hmem)
    obtain ⟨g, hg, hpart⟩ := (Option.any_eq_true _ _).1 hhead
    refine ⟨?_, htight.append htight', ?_⟩
    · rw [layoutSelectors, selectorsWords, takeSigns_of_tight htight]
      exact hcut.append hcut' hhead' fun _ _ hq => hq
    · intro c hc
      rw [layoutSelectors, List.head?_append, hg] at hc
      rwa [← Option.some.inj hc]

/-! ### What an expression starts with -/

/-- A text starts with a glyph that is no equals sign. -/
def StartsOperand (t : Text) : Prop := ∃ g r, t = g :: r ∧ g ≠ Glyph.scalar '='

theorem StartsOperand.append {t : Text} (h : StartsOperand t) (u : Text) : StartsOperand (t ++ u) := by
  obtain ⟨g, r, rfl, hg⟩ := h
  exact ⟨g, r ++ u, rfl, hg⟩

theorem StartsOperand.parenthesized {t : Text} (h : StartsOperand t) (needed : Bool) :
    StartsOperand (parenthesized needed t) := by
  cases needed with
  | false => exact h
  | true => exact ⟨Glyph.scalar '(', t ++ Text.ofString ")", rfl, by decide⟩

theorem Lexeme.startsOperand {k : Kind} {v : Text} (h : Lexeme k v)
    (hk : ∀ entry ∈ operators, entry.2 ≠ k) : StartsOperand v := by
  cases h with
  | word hg hr => exact ⟨_, _, rfl, Glyph.ne_of_class hg rfl⟩
  | @numeral n hn hstart =>
    cases htext : n.text with
    | nil =>
      rw [htext] at hstart
      cases hstart
    | cons g r =>
      rw [htext] at hstart
      simp only [Numeral.starts, Bool.or_eq_true, Bool.and_eq_true, beq_iff_eq] at hstart
      refine ⟨g, r, rfl, ?_⟩
      rcases hstart with h | ⟨rfl, -⟩
      · exact Glyph.ne_of_class h rfl
      · decide
  | @quoted quote t hquote hok => exact ⟨quote, _, rfl, Glyph.ne_of_class hquote rfl⟩
  | operator hv => exact absurd rfl (hk _ hv)

theorem Expr.head_layout {ok : Operands} (e : Expr) : e.Spelled ok → StartsOperand e.layout := by
  induction e using Expr.byParts with
  | binary s level op t left right ihl ihr =>
    intro h
    exact (((((ihl h.2.2.2.1).parenthesized _).append _).append _).append _).append _
  | unary s op e ih =>
    intro h
    obtain ⟨⟨k, hop⟩, -, -⟩ := h
    have hstart : StartsOperand op.spelling := by
      cases op with
      | neg | pos | not | inc | dec => exact ⟨_, _, rfl, by decide⟩
      | other t => cases k <;> cases hop
    rw [layout, layoutUnary]
    split
    · exact (hstart.append _).append _
    · exact hstart.append _
  | step s op e ih =>
    intro h
    exact (ih h.2.2.2).append _
  | cast s type e ih => exact fun _ => ⟨Glyph.scalar '(', _, rfl, by decide⟩
  | paren s e ih => exact fun _ => ⟨Glyph.scalar '(', _, rfl, by decide⟩
  | literal s sort raw =>
    intro h
    obtain ⟨k, hsort, hraw⟩ := h
    refine (isToken_iff.1 hraw).startsOperand ?_
    rintro entry hentry rfl
    have hall : ∀ entry ∈ operators, LiteralSort.ofKind? entry.2 = none := by decide
    rw [hall entry hentry] at hsort
    cases hsort
  | name s head selectors ih =>
    intro h
    have hhead : StartsOperand head.name := h.1.lexeme.startsOperand (by decide)
    exact hhead.append _
  | new s className args ih => exact fun _ => ⟨Glyph.scalar 'n', _, rfl, by decide⟩
  | bad s => exact False.elim
  | missing => exact False.elim

/-! ### Operators -/

/-- A unary operator may stand before an operand unless that starts with its own sign. -/
theorem UnaryOp.stops_operand {k : Kind} {op : UnaryOp} (hop : ofKind? k = some op) {g : Glyph}
    (hg : g ≠ Glyph.scalar '=')
    (hsign : ((op.spelling.getLast?.any (Glyph.isOneOf ['-', '+']))
      && op.spelling.getLast? == some g) = false) : op.spelling.stops g = true := by
  have hmem : (op.spelling, k) ∈ operators := by
    cases k <;> cases hop <;> decide
  have hext : ∀ x ∈ Text.extensions op.spelling, x = Glyph.scalar '='
      ∨ ((op.spelling.getLast?.any (Glyph.isOneOf ['-', '+']))
        && op.spelling.getLast? == some x) = true := by
    cases k <;> cases hop <;> decide
  have hpoint : op.spelling ≠ Text.ofString "." := by
    cases k <;> cases hop <;> decide
  have hnot : g ∉ Text.extensions op.spelling := by
    intro h
    rcases hext g h with h | h
    · exact hg h
    · rw [h] at hsign
      cases hsign
  rw [Text.stops_operator hmem, beq_eq_false_iff_ne.2 hpoint, Bool.false_and]
  simpa using hnot

theorem cutInto_unary {k : Kind} {op : UnaryOp} (hop : UnaryOp.ofKind? k = some op) {t : Text}
    {ws : List Text} (ht : Text.CutInto Glyph.isNeutral t (takeSigns ws)) (hstart : StartsOperand t) :
    Text.CutInto Glyph.isNeutral (layoutUnary op.spelling t) (takeSigns (op.spelling :: ws)) := by
  have hlex := Lexeme.of_fixed (UnaryOp.mem_operators hop)
  have hloose : op.spelling.isLoose = false := fixed_isLoose _ (UnaryOp.mem_operators hop)
  obtain ⟨g, r, rfl, hg⟩ := hstart
  rw [takeSigns_cons hloose, layoutUnary]
  split
  · exact hlex.cutInto_neutral.append_space.append_any ht
  · next hsign =>
    rw [Bool.not_eq_true] at hsign
    have hstop := UnaryOp.stops_operand hop hg hsign
    exact hlex.cutInto.append ht (fun x hx => Option.some.inj hx ▸ hstop) (fun h => nomatch h)

theorem writes_tight {level : Level} {k : Kind} {op : BinaryOp} (h : level.Writes k op) :
    op.spelling.isLoose = false ∧ op.spelling.isStep = false := by
  have hall : ∀ tier ∈ tiers, ∀ entry ∈ tier.ops,
      entry.2.spelling.isLoose = false ∧ entry.2.spelling.isStep = false := by decide
  obtain ⟨tier, htier, -, hop⟩ := h
  obtain ⟨entry, hentry, rfl⟩ := Option.map_eq_some_iff.1 hop
  exact hall tier htier entry (List.mem_of_find?_eq_some hentry)

/-! ### Expressions -/

/-- Names, groups and object creations. -/
def Expr.takesStep : Expr → Bool
  | .paren .. | .name .. | .new .. => true
  | _ => false

/-- The layout adds the parentheses that operands need, and takes any of them. -/
def Operands.asLaid : Operands where
  beside _ _ _ := true
  behind _ := true
  before := Expr.isPrimary

theorem keyword_tight {v : Text} {k : Kind} (h : (v, k) ∈ keywords) :
    v.isLoose = false ∧ v.isStep = false := by
  have hall : ∀ entry ∈ keywords, entry.1.isLoose = false ∧ entry.1.isStep = false := by decide
  exact hall _ h

/-- The layout of a spelled expression is cut into its words, with the signs that loose exponents
take. Names, groups and object creations may stand before signs themselves. -/
theorem Expr.cutInto_layout (e : Expr) : e.Spelled .asLaid →
    e.Cuts ∧ (e.takesStep = true →
      Text.CutInto (!·.isWordPart) e.layout (takeSigns e.words) ∧ EndsTight e.words) := by
  induction e using Expr.byParts with
  | binary s level op t left right ihl ihr =>
    intro h
    obtain ⟨⟨k, hop⟩, -, -, hl, hr⟩ := h
    refine ⟨?_, fun h => absurd h Bool.false_ne_true⟩
    have hleft := Text.cutInto_parenthesized (n := left.needsParens level false) (ihl hl).1
    have hright := Text.cutInto_parenthesized (n := right.needsParens level true) (ihr hr).1
    have hlex := Lexeme.of_fixed hop.mem_operators
    have hcut := (hleft.append_space.append_any hlex.cutInto_neutral).append_space.append_any hright
    obtain ⟨hloose, hstep⟩ := writes_tight hop
    rw [Cuts, words, takeSigns_mid hloose hstep]
    rwa [List.append_assoc (takeSigns _)] at hcut
  | unary s op e ih =>
    intro h
    obtain ⟨⟨k, hop⟩, -, he⟩ := h
    refine ⟨?_, fun h => absurd h Bool.false_ne_true⟩
    exact cutInto_unary hop (Text.cutInto_parenthesized (ih he).1)
      ((e.head_layout he).parenthesized e.isBinary)
  | step s op e ih =>
    intro h
    obtain ⟨⟨k, hop⟩, hstep, hprim, he⟩ := h
    refine ⟨?_, fun h => absurd h Bool.false_ne_true⟩
    by_cases htake : e.takesStep = true
    · obtain ⟨hcut, htight⟩ := (ih he).2 htake
      obtain ⟨c, -, k', hspelling, hc, -, htwo⟩ := UnaryOp.step_cases hstep
      have hpart : (!c.isWordPart) = true := by rw [(Glyph.sign_cases hc).1, Bool.not_false]
      rw [Cuts, layout, words, takeSigns_of_tight htight, hspelling]
      exact hcut.append (Lexeme.operator htwo).cutInto_neutral
        (fun x hx => Option.some.inj hx ▸ hpart) (fun h => absurd h (List.cons_ne_nil _ _))
    · cases e with
      | literal s' sort raw =>
        obtain ⟨k', hsort, hraw⟩ := he
        exact Text.cutInto_step (isToken_iff.1 hraw) hsort hstep
      | paren | name | new => exact absurd rfl htake
      | _ => cases hprim
  | cast s type e ih =>
    intro h
    obtain ⟨⟨t, k, rfl, harray, hkey, -⟩, -, he⟩ := h
    refine ⟨?_, fun h => absurd h Bool.false_ne_true⟩
    have htype : Text.CutInto Glyph.isNeutral t.name [t.name] :=
      (Lexeme.of_keywords hkey).cutInto_neutral
    have hopen := ((Text.cutInto_bracket (s := "(") (by decide)).append_any htype).append_neutral
      ((Text.cutInto_bracket (s := ")") (by decide)).mono fun _ _ => rfl).append_space rfl
    have hcut := hopen.append_any (Text.cutInto_parenthesized (n := e.isBinary) (ih he).1)
    have hwords : takeSigns (cast s (some t) e).words
        = texts ["("] ++ [t.name] ++ texts [")"] ++ takeSigns (enclosed e.isBinary e.words) := by
      show takeSigns (Text.ofString "(" :: (typeWords (some t) ++ Text.ofString ")" :: _)) = _
      rw [takeSigns_cons (by decide), takeSigns_mid (by decide) (by decide)]
      simp [typeWords, TypeSpec.words, harray, takeSigns, texts]
    rw [Cuts, hwords, layout, layoutType, harray]
    exact hcut
  | paren s e ih =>
    intro h
    have hcut := Text.cutInto_bracketed (l := "(") (r := ")") (by decide) (by decide) (ih h).1
    exact ⟨hcut.mono fun _ _ => rfl, fun _ =>
      ⟨hcut.mono fun _ _ => rfl, endsTight_bracketed (by decide) _⟩⟩
  | literal s sort raw =>
    intro h
    obtain ⟨k, hsort, hraw⟩ := h
    exact ⟨(isToken_iff.1 hraw).cutInto_neutral, fun h => absurd h Bool.false_ne_true⟩
  | name s head selectors ih =>
    intro h
    obtain ⟨hhead, hselectors⟩ := h
    have hargs : ∀ t args, Selector.call t args ∈ selectors → ∀ e ∈ args, e.Cuts := by
      intro t args hmem e he
      have hspelled : exprsSpelled .asLaid args := selectorsSpelled_iff.1 hselectors _ hmem
      exact (ih t args hmem e he (exprsSpelled_iff.1 hspelled e he)).1
    obtain ⟨hcut, htight, hfirst⟩ := cutInto_selectors hselectors hargs
    have hall : Text.CutInto (!·.isWordPart) (name s head selectors).layout
        (takeSigns (name s head selectors).words) := by
      rw [words, takeSigns_cons hhead.tight.1]
      exact hhead.cutInto.append hcut hfirst fun _ _ hq => hq
    have hend : EndsTight ([head.name] ++ selectorsWords selectors) :=
      (endsTight_singleton hhead.tight.1).append htight
    refine ⟨hall.mono ?_, fun _ => ⟨hall, hend⟩⟩
    intro g hg
    rw [(Glyph.neutral_cases hg).1, Bool.not_false]
  | new s className args ih =>
    intro h
    obtain ⟨hname, hargs⟩ := h
    have hcall := cutInto_call fun e he => (ih e he (exprsSpelled_iff.1 hargs e he)).1
    have hnew := (Text.cutInto_fixed (s := "new") (k := .kwNew) (by decide)).append_space
    have hcut := (hnew.append_any hname.cutInto_neutral).append_neutral hcall rfl
    have hwords : takeSigns (new s className args).words = texts ["new"] ++ [className.name]
        ++ takeSigns (texts ["("] ++ (argsWords args ++ texts [")"])) := by
      show takeSigns (Text.ofString "new" :: className.name :: _) = _
      rw [takeSigns_cons (by decide), takeSigns_cons hname.tight.1]
      rfl
    have hend : EndsTight ([className.name] ++ (texts ["("] ++ (argsWords args ++ texts [")"]))) :=
      (endsTight_singleton hname.tight.1).append (endsTight_bracketed (by decide) _)
    have hend' : EndsTight (texts ["new"] ++ ([className.name]
        ++ (texts ["("] ++ (argsWords args ++ texts [")"])))) :=
      (endsTight_singleton (by decide)).append hend
    rw [Cuts, hwords]
    exact ⟨hcut.mono fun _ _ => rfl, fun _ => ⟨hcut.mono fun _ _ => rfl, hend'⟩⟩
  | bad s => exact False.elim
  | missing => exact False.elim

end JavaPrimer
