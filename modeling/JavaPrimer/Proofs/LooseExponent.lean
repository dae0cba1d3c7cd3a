import JavaPrimer.Proofs.WordingTree

/-!
# Loose exponents

A numeral may end in its exponent mark. Such a numeral takes the first sign of a step operator
that follows it without a blank, so that two words that were `1e` and `++` become `1e+` and `+`.
No other two words of a layout run into each other.

* `Text.isLoose`, `Text.isStep`, `Text.runsInto` — the two words;
* `takeSigns` — what becomes of a list of words;
* `takeSigns_append`, `takeSigns_cons`, `takeSigns_mid` — how it goes through a list;
* `takeSigns_eq_self_iff` — it changes exactly the lists with two such neighbours;
* `Text.cutInto_step` — a literal and a step operator without a blank between them.
-/

namespace JavaPrimer

/-- A numeral that ends in its exponent mark. -/
def Text.isLoose (v : Text) : Bool := Numeral.starts v && Numeral.endsInMark v

/-- The step operators. -/
def Text.isStep (s : Text) : Bool := (texts ["++", "--"]).contains s

/-- A numeral takes a sign from the operator behind it. -/
def Text.runsInto (v s : Text) : Bool := v.isLoose && s.isStep

/-- The words that are read where some words stand without blanks: loose exponents have taken the
signs behind them. -/
def takeSigns : List Text → List Text
  | v :: s :: rest =>
    if v.runsInto s then (v ++ s.take 1) :: s.drop 1 :: takeSigns rest else v :: takeSigns (s :: rest)
  | ws => ws

theorem takeSigns_append {us vs : List Text}
    (h : ∀ v ∈ us.getLast?, ∀ s ∈ vs.head?, v.runsInto s = false) :
    takeSigns (us ++ vs) = takeSigns us ++ takeSigns vs := by
  fun_induction takeSigns us with
  | case1 v s rest hrun ih =>
    have hrest : ∀ v ∈ rest.getLast?, ∀ s ∈ vs.head?, v.runsInto s = false := by
      intro w hw
      cases rest with
      | nil => cases hw
      | cons x rest => exact h w (by rwa [List.getLast?_cons_cons, List.getLast?_cons_cons])
    rw [List.cons_append, List.cons_append, takeSigns, if_pos hrun, ih hrest]
    rfl
  | case2 v s rest hrun ih =>
    have hrest : ∀ v ∈ (s :: rest).getLast?, ∀ s ∈ vs.head?, v.runsInto s = false := by
      intro w hw
      exact h w (by rwa [List.getLast?_cons_cons])
    rw [List.cons_append, List.cons_append, takeSigns, if_neg hrun, ← List.cons_append, ih hrest]
    rfl
  | case3 ws hshort =>
    match ws, hshort, h with
    | [], _, _ => rfl
    | [v], _, h =>
      cases vs with
      | nil => rfl
      | cons s vs =>
        have hrun : ¬ v.runsInto s = true := by
          rw [h v rfl s rfl]
          exact Bool.false_ne_true
        rw [List.singleton_append, takeSigns, if_neg hrun]
        rfl
    | v :: s :: rest, hshort, _ => exact absurd rfl (hshort v s rest)

theorem takeSigns_cons {v : Text} {ws : List Text} (hv : v.isLoose = false) :
    takeSigns (v :: ws) = v :: takeSigns ws := by
  show takeSigns ([v] ++ ws) = takeSigns [v] ++ takeSigns ws
  refine takeSigns_append ?_
  intro w hw s _
  obtain rfl : v = w := Option.some.inj hw
  rw [Text.runsInto, hv, Bool.false_and]

/-- A word that takes no sign and gives none divides a list. -/
theorem takeSigns_mid {v : Text} {us ws : List Text} (hv : v.isLoose = false)
    (hs : v.isStep = false) : takeSigns (us ++ v :: ws) = takeSigns us ++ v :: takeSigns ws := by
  rw [takeSigns_append, takeSigns_cons hv]
  intro w _ s hhead
  obtain rfl : v = s := Option.some.inj hhead
  rw [Text.runsInto, hs, Bool.and_false]

theorem takeSigns_of_tight {us ws : List Text} (hlast : ∀ v ∈ us.getLast?, v.isLoose = false) :
    takeSigns (us ++ ws) = takeSigns us ++ takeSigns ws := by
  refine takeSigns_append ?_
  intro v hv s _
  rw [Text.runsInto, hlast v hv, Bool.false_and]

/-- Exactly the lists without a loose exponent before a step operator stay as they are. -/
theorem takeSigns_eq_self_iff {ws : List Text} :
    takeSigns ws = ws ↔ ws.IsChain fun v s => v.runsInto s = false := by
  fun_induction takeSigns ws with
  | case1 v s rest hrun ih =>
    refine iff_of_false ?_ ?_
    · intro h
      have hlen := congrArg List.length (List.cons.inj h).1
      have hpos : s ≠ [] := by
        rintro rfl
        rw [Text.runsInto, show Text.isStep [] = false by decide, Bool.and_false] at hrun
        cases hrun
      rw [List.length_append, List.length_take] at hlen
      have hlen' := List.length_pos_iff.2 hpos
      omega
    · intro h
      rw [(List.isChain_cons_cons.1 h).1] at hrun
      cases hrun
  | case2 v s rest hrun ih =>
    rw [List.cons.injEq, ih, List.isChain_cons_cons, Bool.not_eq_true] at *
    exact ⟨fun h => ⟨hrun, h.2⟩, fun h => ⟨rfl, h.2⟩⟩
  | case3 ws hshort =>
    match ws, hshort with
    | [], _ => exact iff_of_true rfl .nil
    | [v], _ => exact iff_of_true rfl (.singleton v)
    | v :: s :: rest, hshort => exact absurd rfl (hshort v s rest)

/-! ### Words that take no sign -/

theorem Text.tight_of_word {v : Text} (hstart : v.head?.any Glyph.isWordStart = true) :
    v.isLoose = false ∧ v.isStep = false := by
  cases v with
  | nil => cases hstart
  | cons g v =>
    have hg : g.isWordStart = true := hstart
    have hpoint : g ≠ Glyph.scalar '.' := Glyph.ne_of_class hg rfl
    have hdigit := Glyph.not_isDigit_of_isWordStart hg
    constructor
    · simp [isLoose, Numeral.starts, hdigit, hpoint]
    · cases hs : isStep (g :: v) with
      | false => rfl
      | true =>
        have hall : ∀ s ∈ texts ["++", "--"], ∀ x ∈ s.head?, x.isWordStart = false := by decide
        rw [hall _ (List.contains_iff_mem.1 hs) g rfl] at hg
        cases hg

theorem Lexeme.head_of_ident {v : Text} (h : Lexeme .ident v) :
    v.head?.any Glyph.isWordStart = true := by
  generalize hk : Kind.ident = k at h
  cases h with
  | word hg hr => exact hg
  | @numeral n hn hstart =>
    unfold Numeral.kind at hk
    split at hk <;> cases hk
  | @quoted quote t hquote hok =>
    unfold Quoted.kind at hk
    split at hk <;> cases hk
  | operator hv =>
    have hall : ∀ entry ∈ operators, entry.2 ≠ .ident := by decide
    exact absurd hk.symm (hall _ hv)

theorem fixed_isLoose : ∀ entry ∈ keywords ++ operators, entry.1.isLoose = false := by decide

/-! ### A literal before a step operator -/

/-- A numeral that ends in its mark has nothing but the mark for an exponent, and no suffix. -/
theorem Numeral.exponent_of_endsInMark {n : Numeral} (hn : n.WellFormed)
    (h : endsInMark n.text = true) : n.suffix = [] ∧ ∃ m, n.exponent = [m] ∧ m.isMark = true := by
  obtain ⟨w, f, x, s⟩ := n
  obtain ⟨hw, hf, hx, hs⟩ := hn
  simp only at hw hf hx hs ⊢
  obtain ⟨g, hg, hmark⟩ := (Option.any_eq_true _ _).1 h
  obtain ⟨hdigit, hpoint⟩ := mark_cases hmark
  have hno : ∀ ds : Text, (∀ d ∈ ds, d.isDigit = true) → g ∉ ds := by
    intro ds hds hmem
    rw [hds g hmem] at hdigit
    cases hdigit
  simp only [text] at hg
  rcases hs with rfl | ⟨c, rfl, hc⟩
  · refine ⟨rfl, ?_⟩
    rw [List.append_nil] at hg
    rcases hx with rfl | ⟨m, t, ds, rfl, hm, ht, hds⟩
    · -- without an exponent the last glyph is a digit or the point
      rw [List.append_nil] at hg
      rcases List.mem_append.1 (List.mem_of_getLast? hg) with hmem | hmem
      · exact absurd hmem (hno w hw)
      · rcases hf with rfl | ⟨ds, rfl, hds⟩
        · cases hmem
        · rcases List.mem_cons.1 hmem with rfl | hmem
          · exact absurd rfl hpoint
          · exact absurd hmem (hno ds hds)
    · refine ⟨m, ?_, hm⟩
      cases ds with
      | cons d ds =>
        rw [show w ++ f ++ m :: (t ++ d :: ds) = (w ++ f ++ m :: t) ++ d :: ds by simp,
          List.getLast?_append_of_ne_nil _ (List.cons_ne_nil d ds)] at hg
        exact absurd (List.mem_of_getLast? hg) (hno _ hds)
      | nil =>
        rcases ht with rfl | ⟨c, rfl, hc⟩
        · rfl
        · rw [show w ++ f ++ m :: ([c] ++ []) = (w ++ f ++ [m]) ++ [c] by simp,
            List.getLast?_concat] at hg
          obtain rfl := Option.some.inj hg
          have hnot : c.isMark = false := Glyph.not_isOneOf (p := Glyph.isSign) hc (by decide)
          rw [hnot] at hmark
          cases hmark
  · rw [List.getLast?_concat] at hg
    obtain rfl := Option.some.inj hg
    have hc' : c.isFloatSuffix = true ∨ c.isLongSuffix = true := hc.imp id fun h => h.2.2
    rw [(suffix_cases hc').2.2.1] at hmark
    cases hmark

theorem Numeral.starts_of_lexeme {k : Kind} {v : Text} (h : Lexeme k v) (hv : starts v = true) :
    ∃ n : Numeral, n.WellFormed ∧ n.text = v := by
  cases h with
  | @word g r hg hr =>
    have hpoint : g ≠ Glyph.scalar '.' := Glyph.ne_of_class hg rfl
    simp [starts, Glyph.not_isDigit_of_isWordStart hg, hpoint] at hv
  | @numeral n hn hstart => exact ⟨n, hn, rfl⟩
  | @quoted quote t hquote hok =>
    have hall : ∀ c ∈ ['"', '\''].map Glyph.scalar, c.isDigit = false ∧ c ≠ Glyph.scalar '.' := by
      decide
    obtain ⟨hdigit, hpoint⟩ := hall quote (Glyph.mem_of_isOneOf hquote)
    have htext : (Quoted.read quote t).text = quote :: (Quoted.read quote t).text.tail := rfl
    rw [htext] at hv
    simp only [starts, hdigit, Bool.false_or, Bool.and_eq_true, beq_iff_eq] at hv
    exact absurd hv.1 hpoint
  | operator hop =>
    rw [operators_not_numeral _ hop] at hv
    cases hv

/-- A loose exponent with a sign is a numeral again, and not loose. -/
theorem Lexeme.take_sign {k : Kind} {v : Text} (h : Lexeme k v) (hv : v.isLoose = true) {c : Glyph}
    (hc : c.isSign = true) : ∃ k, Lexeme k (v ++ [c]) := by
  obtain ⟨hstart, hmark⟩ := Bool.and_eq_true_iff.1 hv
  obtain ⟨n, hn, rfl⟩ := Numeral.starts_of_lexeme h hstart
  obtain ⟨hsuffix, m, hexp, hm⟩ := Numeral.exponent_of_endsInMark hn hmark
  have htext : Numeral.text ⟨n.whole, n.fraction, [m, c], []⟩ = n.text ++ [c] := by
    simp [Numeral.text, hsuffix, hexp]
  have hwell : Numeral.WellFormed ⟨n.whole, n.fraction, [m, c], []⟩ :=
    ⟨hn.whole, hn.fraction, .inr ⟨m, [c], [], rfl, hm, .inr ⟨c, rfl, hc⟩, fun g hg => absurd hg List.not_mem_nil⟩,
      .inl rfl⟩
  rw [← htext]
  refine ⟨_, .numeral hwell ?_⟩
  rw [htext]
  exact Numeral.starts_append hstart [c]

theorem Glyph.sign_cases {c : Glyph} (hc : c.isSign = true) :
    c.isWordPart = false ∧ c ≠ Glyph.scalar '.' ∧ c.isMark = false := by
  have hall : ∀ d ∈ ['+', '-'].map Glyph.scalar,
      d.isWordPart = false ∧ d ≠ Glyph.scalar '.' ∧ d.isMark = false := by decide
  exact hall c (Glyph.mem_of_isOneOf hc)

/-- A literal whose exponent is not loose ends before a sign. -/
theorem Lexeme.stops_sign {k : Kind} {v : Text} {sort : LiteralSort} (h : Lexeme k v)
    (hsort : LiteralSort.ofKind? k = some sort) (hv : v.isLoose = false) {c : Glyph}
    (hc : c.isSign = true) : v.stops c = true := by
  obtain ⟨hpart, hpoint, -⟩ := Glyph.sign_cases hc
  cases h with
  | word hg hr => rw [Text.stops_word hg, hpart, Bool.not_false]
  | @numeral n hn hstart =>
    have hmark : Numeral.endsInMark n.text = false := by
      rwa [Text.isLoose, hstart, Bool.true_and] at hv
    rw [Text.stops_numeral hstart, hpart, hmark, Bool.false_and]
    simpa using hpoint
  | quoted hquote hok => exact Text.stops_quoted hquote
  | operator hop =>
    have hall : ∀ entry ∈ operators, LiteralSort.ofKind? entry.2 = none := by decide
    rw [hall _ hop] at hsort
    cases hsort

theorem UnaryOp.step_cases {op : UnaryOp} (hop : op.isStep = true) :
    ∃ c k k', op.spelling = [c, c] ∧ c.isSign = true ∧ ([c], k) ∈ operators
      ∧ ([c, c], k') ∈ operators := by
  cases op with
  | inc => exact ⟨Glyph.scalar '+', .plus, .plusPlus, rfl, rfl, by decide, by decide⟩
  | dec => exact ⟨Glyph.scalar '-', .minus, .minusMinus, rfl, rfl, by decide, by decide⟩
  | _ => cases hop

theorem UnaryOp.isStep_spelling {op : UnaryOp} (hop : op.isStep = true) :
    op.spelling.isStep = true := by
  cases op with
  | inc | dec => decide
  | _ => cases hop

/-- A literal and a step operator with no blank between them. -/
theorem Text.cutInto_step {k : Kind} {v : Text} {sort : LiteralSort} {op : UnaryOp}
    (h : Lexeme k v) (hsort : LiteralSort.ofKind? k = some sort) (hop : op.isStep = true) :
    CutInto Glyph.isNeutral (v ++ op.spelling) (takeSigns [v, op.spelling]) := by
  have hstep := UnaryOp.isStep_spelling hop
  obtain ⟨c, k₁, k₂, hspelling, hc, hone, htwo⟩ := UnaryOp.step_cases hop
  rw [hspelling] at hstep ⊢
  cases hloose : v.isLoose with
  | true =>
    obtain ⟨hstart, -⟩ := Bool.and_eq_true_iff.1 hloose
    obtain ⟨k', hsigned⟩ := h.take_sign hloose hc
    obtain ⟨hpart, hpoint, hmark⟩ := Glyph.sign_cases hc
    have hstop : (v ++ [c]).stops c = true := by
      rw [stops_numeral (Numeral.starts_append hstart [c]), hpart, Numeral.endsInMark,
        List.getLast?_concat, Option.any_some, hmark, Bool.false_and]
      simpa using hpoint
    have hcut := hsigned.cutInto.append (Lexeme.operator hone).cutInto_neutral
      (fun g hg => Option.some.inj hg ▸ hstop) (fun h => absurd h (List.cons_ne_nil _ _))
    rw [takeSigns, if_pos (by rw [runsInto, hloose, hstep, Bool.true_and])]
    rwa [List.append_assoc] at hcut
  | false =>
    have hstop : v.stops c = true := h.stops_sign hsort hloose hc
    have hcut := h.cutInto.append (Lexeme.operator htwo).cutInto_neutral
      (fun g hg => Option.some.inj hg ▸ hstop) (fun h => absurd h (List.cons_ne_nil _ _))
    rw [takeSigns_cons hloose]
    exact hcut

end JavaPrimer
