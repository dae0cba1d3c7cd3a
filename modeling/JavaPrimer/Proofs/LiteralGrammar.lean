import JavaPrimer.Proofs.TokenSpans
import Mathlib.Algebra.Group.Nat.Even

/-!
# The grammar of quoted literals

A literal is read in one loop that looks for the closing quote, for the end of the line and for what
is wrong with its escapes, all at once. What comes of it can be said without the loop: there is
nothing wrong with a literal that is made of units between its quotes, and a literal is closed that
ends in a quote which no backslash escapes.

* `Text.IsUnit`, `Text.IsLiteral` — the grammar of a literal;
* `Text.EndsInQuote` — a closing quote that no backslash escapes;
* `mem_readUnits` — what each unit that is read can be;
* `isUnit_of_mem_readUnits`, `exists_units_read` — the units that are read without a fault are
  units of the grammar, and units of the grammar are read without a fault;
* `Quoted.closed_iff` — what is read as closed ends in its quote;
* `Quoted.faultless_iff` — a literal without a fault is one of the grammar;
* `eq_of_fault_within` — what is reported inside a token belongs to it;
* `lex_literals` — the literals of a byte string.
-/

namespace JavaPrimer

/-! ### The grammar -/

namespace Text

/-- What a literal is made of: a glyph that stands for itself, or an escape by a letter, by octal
digits or by four hexadecimal digits. -/
inductive IsUnit (quote : Glyph) : Text → Prop
  | plain {g : Glyph} : g ≠ quote → g ≠ Glyph.scalar '\\' → g.isLineEnd = false → IsUnit quote [g]
  | letter {g : Glyph} : g.isOneOf ['b', 't', 'n', 'f', 'r', '"', '\'', '\\'] = true →
      IsUnit quote [Glyph.scalar '\\', g]
  | octal {ds : Text} : 1 ≤ ds.length → ds.length ≤ 3 → (∀ g ∈ ds, g.isOctal = true) →
      IsUnit quote (Glyph.scalar '\\' :: ds)
  | unicode {marks ds : Text} : 1 ≤ marks.length → (∀ g ∈ marks, g = Glyph.scalar 'u') →
      ds.length = 4 → (∀ g ∈ ds, g.isHex = true) →
      IsUnit quote (Glyph.scalar '\\' :: (marks ++ ds))

/-- Units between two quotes; exactly one unit between single quotes. -/
def IsLiteral (quote : Glyph) (v : Text) : Prop :=
  ∃ us : List Text, (∀ u ∈ us, IsUnit quote u) ∧ (quote = Glyph.scalar '\'' → us.length = 1)
    ∧ v = quote :: (us.flatten ++ [quote])

/-- How many backslashes a text ends in. -/
def slashes (t : Text) : Nat := (t.rtakeWhile (· = Glyph.scalar '\\')).length

/-- Behind the opening quote there is a closing one at the end, and the backslashes in front of it
make pairs. -/
def EndsInQuote (quote : Glyph) (v : Text) : Prop :=
  ∃ body : Text, v = quote :: (body ++ [quote]) ∧ Even body.slashes

end Text

/-- The quotes that a literal of some kind stands in. -/
def Kind.quote (k : Kind) : Glyph := if k = .charLit then Glyph.scalar '\'' else Glyph.scalar '"'

/-- Whether a span goes over no more than another one. -/
def Span.Within (s t : Span) : Prop := t.start ≤ s.start ∧ s.stop ≤ t.stop

open Text

/-! ### Escapes -/

section Escapes

variable {quote e : Glyph} {more body : Text}

/-- An escape without a fault is a unit. -/
theorem isUnit_readEscape (h : readEscape e more = (body, none)) :
    IsUnit quote (Glyph.scalar '\\' :: body) := by
  unfold readEscape at h
  split at h
  · next hletter =>
    obtain ⟨rfl, -⟩ := Prod.mk.inj h
    exact .letter hletter
  split at h
  · next hmark =>
    obtain ⟨hbody, hfault⟩ := Prod.mk.inj h
    have hfour := ite_eq_left_iff.1 hfault
    subst hmark
    rw [← hbody]
    refine .unicode ?_ ?_ (by_contra fun h => nomatch hfour h) ?_
    · exact Nat.succ_pos (more.takeWhile (· = Glyph.scalar 'u')).length
    · intro g hg
      have hu := List.mem_takeWhile_imp hg
      exact of_decide_eq_true hu
    · exact fun g hg => List.mem_takeWhile_imp hg
  split at h
  · next hoctal =>
    obtain ⟨rfl, -⟩ := Prod.mk.inj h
    refine .octal ?_ ?_ fun g hg => List.mem_takeWhile_imp hg
    · rw [List.take_succ_cons, List.takeWhile_cons_of_pos hoctal]
      exact Nat.succ_pos _
    · exact (List.takeWhile_prefix _).length_le.trans (List.length_take_le 3 (e :: more))
  · cases h

/-- Behind a backslash there is one glyph, or glyphs that are neither quotes nor backslashes. -/
theorem readEscape_glyphs (e : Glyph) (more : Text) : (readEscape e more).1 = [e]
    ∨ ∀ g ∈ (readEscape e more).1, g.isOneOf ['"', '\'', '\\'] = false := by
  have hhex : ∀ g : Glyph, g.isHex = true → g.isOneOf ['"', '\'', '\\'] = false :=
    fun g hg => Glyph.not_isOneOf hg (by decide)
  have hoctal : ∀ g : Glyph, g.isOctal = true → g.isOneOf ['"', '\'', '\\'] = false :=
    fun g hg => Glyph.not_isOneOf hg (by decide)
  unfold readEscape
  split
  · exact .inl rfl
  split
  · right
    intro g hg
    rcases List.mem_append.1 hg with hg | hg
    · have hu := List.mem_takeWhile_imp hg
      rw [of_decide_eq_true hu]
      rfl
    · exact hhex g (List.mem_takeWhile_imp hg)
  split
  · exact .inr fun g hg => hoctal g (List.mem_takeWhile_imp hg)
  · exact .inl rfl

/-- A backslash and what belongs to it are read as one unit. -/
theorem readUnits_escape (hquote : quote.isOneOf ['"', '\''] = true) {fault : Option EscapeFault}
    {rest : Text} (hline : e ≠ lineFeed) (hread : readEscape e more = (body, fault))
    (hmore : e :: more = body ++ rest) : readUnits quote (Glyph.scalar '\\' :: e :: more)
      = consUnit (.escape body fault) (readUnits quote rest) := by
  have hslash : Glyph.scalar '\\' ≠ quote := by
    rintro rfl
    cases hquote
  have hend : (Glyph.scalar '\\').isLineEnd = false := rfl
  rw [readUnits.eq_def]
  simp only [hend, hslash, hline, hread, hmore, List.drop_left, if_false, if_true,
    Bool.false_eq_true]

/-- Octal digits are read with those behind them, up to three in all. -/
theorem readEscape_octal {d : Glyph} {ds : Text} (hthree : (d :: ds).length ≤ 3)
    (hds : ∀ g ∈ d :: ds, g.isOctal = true) (t : Text) : readEscape d (ds ++ t)
      = (d :: ds ++ (t.take (3 - (d :: ds).length)).takeWhile Glyph.isOctal, none) := by
  have hd : d.isOctal = true := hds d List.mem_cons_self
  have hletter : d.isOneOf ['b', 't', 'n', 'f', 'r', '"', '\'', '\\'] = false :=
    Glyph.not_isOneOf hd (by decide)
  have hmark : d ≠ Glyph.scalar 'u' := Glyph.ne_of_class hd rfl
  have hrun : ((d :: (ds ++ t)).take 3).takeWhile Glyph.isOctal
      = d :: ds ++ (t.take (3 - (d :: ds).length)).takeWhile Glyph.isOctal := by
    rw [← List.cons_append, List.take_append, List.take_of_length_le hthree,
      List.takeWhile_append_of_pos hds]
  simp only [readEscape, hletter, hmark, hd, hrun, if_true, if_false, Bool.false_eq_true]

/-- Marks and four hexadecimal digits are read without what is behind them. -/
theorem readEscape_unicode {marks ds : Text} (hmarks : ∀ g ∈ marks, g = Glyph.scalar 'u')
    (hfour : ds.length = 4) (hds : ∀ g ∈ ds, g.isHex = true) (t : Text) :
    readEscape (Glyph.scalar 'u') (marks ++ (ds ++ t))
      = (Glyph.scalar 'u' :: marks ++ ds, none) := by
  have hrun : (Glyph.scalar 'u' :: marks ++ (ds ++ t)).takeWhile (· = Glyph.scalar 'u')
      = Glyph.scalar 'u' :: marks := by
    refine takeWhile_append_stop (fun g hg => decide_eq_true ?_) fun g hg => decide_eq_false ?_
    · exact (List.mem_cons.1 hg).elim id (hmarks g)
    · cases ds with
      | nil => cases hfour
      | cons d ds =>
        obtain rfl : d = g := Option.some.inj hg
        exact Glyph.ne_of_class (hds d List.mem_cons_self) rfl
  have hdigits : ((ds ++ t).take 4).takeWhile Glyph.isHex = ds := by
    rw [List.take_left' hfour]
    exact List.takeWhile_eq_self_iff.2 hds
  show readUnicode (Glyph.scalar 'u' :: marks ++ (ds ++ t)) = _
  simp only [readUnicode, hrun, List.drop_left, hdigits, hfour, if_true]

/-- A unit of the grammar is read as one unit without a fault; only octal digits behind it may be
taken with it. -/
theorem exists_read_of_isUnit (hquote : quote.isOneOf ['"', '\''] = true) {u : Text}
    (hu : IsUnit quote u) (t : Text) : ∃ (l : LiteralUnit) (ds rest : Text),
      readUnits quote (u ++ t) = consUnit l (readUnits quote rest) ∧ l.fault? = none
        ∧ l.text = u ++ ds ∧ t = ds ++ rest ∧ ∀ g ∈ ds, g.isOctal = true := by
  cases hu with
  | @plain g hg hslash hline =>
    refine ⟨.plain g, [], t, ?_, rfl, rfl, rfl, List.forall_mem_nil _⟩
    rw [List.singleton_append, readUnits.eq_def]
    simp only [hline, hg, hslash, if_false, Bool.false_eq_true]
  | @letter g hg =>
    refine ⟨.escape [g] none, [], t, ?_, rfl, rfl, rfl, List.forall_mem_nil _⟩
    refine readUnits_escape hquote ?_ (if_pos hg) rfl
    rintro rfl
    cases hg
  | @octal ds hone hthree hds =>
    obtain ⟨d, ds, rfl⟩ := List.exists_cons_of_length_pos hone
    obtain ⟨rest, hrest⟩ := takeWhile_take_front Glyph.isOctal (3 - (d :: ds).length) t
    have hread := readEscape_octal hthree hds t
    refine ⟨_, _, rest, readUnits_escape hquote ?_ hread ?_, rfl, rfl, hrest.symm, ?_⟩
    · exact Glyph.ne_of_class (hds d List.mem_cons_self) rfl
    · rw [List.append_assoc, hrest]
      rfl
    · exact fun g hg => List.mem_takeWhile_imp hg
  | @unicode marks ds hone hmarks hfour hds =>
    obtain ⟨m, marks, rfl⟩ := List.exists_cons_of_length_pos hone
    obtain ⟨rfl, hlater⟩ := List.forall_mem_cons.1 hmarks
    have hread := readEscape_unicode hlater hfour hds t
    refine ⟨.escape _ none, [], t, ?_, rfl, (List.append_nil _).symm, rfl, List.forall_mem_nil _⟩
    rw [List.cons_append, List.append_assoc]
    refine readUnits_escape hquote (by decide) hread ?_
    rw [List.append_assoc]
    rfl

end Escapes

/-! ### Units -/

section Units

variable {quote : Glyph}

/-- A unit that is read is a glyph that stands for itself, or a backslash and what belongs to it. -/
theorem mem_readUnits {t : Text} {l : LiteralUnit} (hl : l ∈ (readUnits quote t).1) :
    (∃ g, l = .plain g ∧ g ≠ quote ∧ g ≠ Glyph.scalar '\\' ∧ g.isLineEnd = false)
      ∨ ∃ e more, l = .escape (readEscape e more).1 (readEscape e more).2 := by
  fun_induction readUnits quote t with
  | case1 => cases hl
  | case2 => cases hl
  | case3 => cases hl
  | case4 => cases hl
  | case5 => cases hl
  | case6 e more hn body fault he hline hquote ih =>
    rcases List.mem_cons.1 hl with rfl | hl
    · exact .inr ⟨e, more, by rw [he]⟩
    · exact ih hl
  | case7 g rest hline hquote hslash ih =>
    rcases List.mem_cons.1 hl with rfl | hl
    · exact .inl ⟨g, rfl, hquote, hslash, Bool.eq_false_iff.2 hline⟩
    · exact ih hl

/-- The units that are read without a fault are units of the grammar. -/
theorem isUnit_of_mem_readUnits {t : Text} {l : LiteralUnit} (hl : l ∈ (readUnits quote t).1)
    (hok : l.fault? = none) : IsUnit quote l.text := by
  rcases mem_readUnits hl with ⟨g, rfl, hquote, hslash, hline⟩ | ⟨e, more, rfl⟩
  · exact .plain hquote hslash hline
  · exact isUnit_readEscape (Prod.ext rfl hok)

/-- Octal digits at the front of some units are units by themselves. -/
theorem flatten_drop_of_isOctal {us : List Text} (hus : ∀ u ∈ us, IsUnit quote u) {ds rest : Text}
    (hds : ∀ g ∈ ds, g.isOctal = true) (h : us.flatten = ds ++ rest) :
    (us.drop ds.length).flatten = rest := by
  induction ds generalizing us with
  | nil => exact h
  | cons d ds ih =>
    obtain ⟨hd, hds⟩ := List.forall_mem_cons.1 hds
    cases us with
    | nil => cases h
    | cons u us =>
      obtain ⟨hu, hlater⟩ := List.forall_mem_cons.1 hus
      rw [List.flatten_cons] at h
      cases hu with
      | plain => exact ih hlater hds (List.cons.inj h).2
      | letter => rw [← (List.cons.inj h).1] at hd; cases hd
      | octal => rw [← (List.cons.inj h).1] at hd; cases hd
      | unicode => rw [← (List.cons.inj h).1] at hd; cases hd

/-- Units of the grammar in front of the closing quote are read up to it without a fault, and no
more units are read than there are. -/
theorem exists_units_read (hquote : quote.isOneOf ['"', '\''] = true) {us : List Text}
    (hus : ∀ u ∈ us, IsUnit quote u) (after : Text) : ∃ ls : List LiteralUnit,
      readUnits quote (us.flatten ++ quote :: after) = (ls, .closed)
        ∧ (∀ l ∈ ls, l.fault? = none) ∧ ls.flatMap LiteralUnit.text = us.flatten
        ∧ ls.length ≤ us.length := by
  induction hn : us.length using Nat.strong_induction_on generalizing us with
  | _ n ih =>
    cases us with
    | nil =>
      refine ⟨[], ?_, List.forall_mem_nil _, rfl, Nat.zero_le n⟩
      have hend : quote.isLineEnd = false := by
        rcases Glyph.eq_or_eq_of_isOneOf hquote with rfl | rfl <;> rfl
      rw [List.flatten_nil, List.nil_append, readUnits.eq_def]
      simp only [hend, if_true, if_false, Bool.false_eq_true]
    | cons u us =>
      obtain ⟨hu, hus⟩ := List.forall_mem_cons.1 hus
      obtain ⟨l, ds, rest, hread, hok, htext, hsplit, hds⟩ :=
        exists_read_of_isUnit hquote hu (us.flatten ++ quote :: after)
      -- the digits that are taken with the unit do not reach the quote
      have hno : quote ∉ ds := by
        intro hmem
        have hoctal := hds quote hmem
        rcases Glyph.eq_or_eq_of_isOneOf hquote with rfl | rfl <;> cases hoctal
      obtain ⟨more, hmore⟩ := front_of_append_cons (hsplit ▸ List.prefix_append ds rest) hno
      have hrest : rest = more ++ quote :: after := by
        rw [← hmore, List.append_assoc] at hsplit
        exact (List.append_cancel_left hsplit).symm
      have hdrop := flatten_drop_of_isOctal hus hds hmore.symm
      have hshort : (us.drop ds.length).length < n := by
        rw [← hn, List.length_cons, List.length_drop]
        omega
      obtain ⟨ls, hls, hoks, htexts, hlength⟩ :=
        ih _ hshort (fun u hu => hus u (List.mem_of_mem_drop hu)) rfl
      refine ⟨l :: ls, ?_, List.forall_mem_cons.2 ⟨hok, hoks⟩, ?_, ?_⟩
      · rw [List.flatten_cons, List.append_assoc, hread, hrest, ← hdrop, hls]
        rfl
      · rw [List.flatMap_cons, htext, htexts, hdrop, List.flatten_cons, ← hmore, List.append_assoc]
      · rw [List.length_cons]
        exact Nat.succ_le_of_lt (lt_of_le_of_lt hlength hshort)

end Units

/-! ### Backslashes -/

namespace Text

theorem slashes_concat_slash (t : Text) : slashes (t ++ [Glyph.scalar '\\']) = t.slashes + 1 := by
  rw [slashes, List.rtakeWhile_concat_pos _ _ _ rfl, List.length_append]
  rfl

theorem slashes_concat {g : Glyph} (h : g ≠ Glyph.scalar '\\') (t : Text) :
    slashes (t ++ [g]) = 0 := by
  rw [slashes, List.rtakeWhile_concat_neg _ _ _ (by simpa using h)]
  rfl

end Text

/-- A unit is an escaped backslash, or it does not end in a backslash, and in a quote only where
that is escaped. -/
def LiteralUnit.EndsApart (quote : Glyph) (l : LiteralUnit) : Prop :=
  l.text = [Glyph.scalar '\\', Glyph.scalar '\\'] ∨ ∃ w c, l.text = w ++ [c]
    ∧ c ≠ Glyph.scalar '\\' ∧ (c = quote → w = [Glyph.scalar '\\'])

section Endings

variable {quote : Glyph}

theorem endsApart_of_mem_readUnits (hquote : quote.isOneOf ['"', '\''] = true) {t : Text}
    {l : LiteralUnit} (hl : l ∈ (readUnits quote t).1) : l.EndsApart quote := by
  rcases mem_readUnits hl with ⟨g, rfl, hq, hslash, -⟩ | ⟨e, more, rfl⟩
  · exact .inr ⟨[], g, rfl, hslash, fun hg => absurd hg hq⟩
  rcases readEscape_glyphs e more with hone | hglyphs
  · by_cases hslash : e = Glyph.scalar '\\'
    · exact .inl (by rw [LiteralUnit.text, hone, hslash])
    · exact .inr ⟨[Glyph.scalar '\\'], e, by rw [LiteralUnit.text, hone]; rfl, hslash, fun _ => rfl⟩
  · have hne := readEscape_ne_nil e more
    obtain ⟨w, c, hbody⟩ := (List.eq_nil_or_concat' (readEscape e more).1).resolve_left hne
    have hc := hglyphs c (hbody ▸ List.mem_concat_self)
    refine .inr ⟨Glyph.scalar '\\' :: w, c, by rw [LiteralUnit.text, hbody]; rfl, ?_, ?_⟩
    · rintro rfl
      cases hc
    · rintro rfl
      rcases Glyph.eq_or_eq_of_isOneOf hquote with rfl | rfl <;> cases hc

/-- The backslashes at the end of some units make pairs. -/
theorem even_slashes {ls : List LiteralUnit} (h : ∀ l ∈ ls, l.EndsApart quote) :
    Even (slashes (ls.flatMap LiteralUnit.text)) := by
  induction ls using List.reverseRecOn with
  | nil => exact Even.zero
  | append_singleton ls l ih =>
    obtain ⟨hls, hl⟩ := List.forall_mem_append.1 h
    rw [List.flatMap_append, List.flatMap_singleton]
    rcases hl l (List.mem_singleton_self l) with htext | ⟨w, c, htext, hc, -⟩
    · have hpair : ls.flatMap LiteralUnit.text ++ l.text = ls.flatMap LiteralUnit.text
          ++ [Glyph.scalar '\\'] ++ [Glyph.scalar '\\'] := by rw [htext, List.append_assoc]; rfl
      rw [hpair, slashes_concat_slash, slashes_concat_slash, Nat.even_add_one, Nat.even_add_one,
        not_not]
      exact ih hls
    · rw [htext, ← List.append_assoc, slashes_concat hc]
      exact Even.zero

/-- Units do not end in a closing quote. -/
theorem not_endsInQuote_units (hquote : quote.isOneOf ['"', '\''] = true) {ls : List LiteralUnit}
    (h : ∀ l ∈ ls, l.EndsApart quote) {body : Text}
    (hbody : ls.flatMap LiteralUnit.text = body ++ [quote]) : ¬ Even body.slashes := by
  intro heven
  rcases List.eq_nil_or_concat' ls with rfl | ⟨ls, l, rfl⟩
  · cases body <;> cases hbody
  obtain ⟨hls, hl⟩ := List.forall_mem_append.1 h
  rw [List.flatMap_append, List.flatMap_singleton] at hbody
  rcases hl l (List.mem_singleton_self l) with htext | ⟨w, c, htext, -, hc⟩
  · have hlast : ls.flatMap LiteralUnit.text ++ [Glyph.scalar '\\'] ++ [Glyph.scalar '\\']
        = body ++ [quote] := by rw [← hbody, htext, List.append_assoc]; rfl
    have hslash := (List.append_inj' hlast rfl).2
    rcases Glyph.eq_or_eq_of_isOneOf hquote with rfl | rfl <;> cases hslash
  · -- the quote is escaped, so there is one backslash more than the units in front end in
    rw [htext, ← List.append_assoc] at hbody
    obtain ⟨hfront, hlast⟩ := List.append_inj' hbody rfl
    rw [← hfront, hc (List.cons.inj hlast).1, slashes_concat_slash, Nat.even_add_one] at heven
    exact heven (even_slashes hls)

/-- A literal is read as closed exactly if it ends in its quote. -/
theorem Quoted.closed_iff (hquote : quote.isOneOf ['"', '\''] = true) (t : Text) :
    (Quoted.read quote t).ending = .closed ↔ (Quoted.read quote t).text.EndsInQuote quote := by
  have hapart : ∀ l ∈ (readUnits quote t).1, l.EndsApart quote :=
    fun l => endsApart_of_mem_readUnits hquote
  constructor
  · intro hclosed
    refine ⟨(readUnits quote t).1.flatMap LiteralUnit.text, ?_, even_slashes hapart⟩
    rw [Quoted.text, hclosed]
    rfl
  · rintro ⟨body, htext, heven⟩
    have hbody : unitsText quote (readUnits quote t) = body ++ [quote] := (List.cons.inj htext).2
    unfold unitsText at hbody
    cases hending : (readUnits quote t).2 with
    | closed => exact hending
    | cut =>
      rw [hending, Ending.text, List.append_nil] at hbody
      exact absurd heven (not_endsInQuote_units hquote hapart hbody)
    | cutAfterBackslash =>
      rw [hending, Ending.text] at hbody
      have hslash := (List.append_inj' hbody rfl).2
      rcases Glyph.eq_or_eq_of_isOneOf hquote with rfl | rfl <;> cases hslash

/-- What is not closed goes up to the end of the line. -/
theorem isLineEnd_of_readUnits {t after : Text} (hending : (readUnits quote t).2 ≠ .closed)
    (ht : t = unitsText quote (readUnits quote t) ++ after) :
    ∀ g ∈ after.head?, g.isLineEnd = true := by
  fun_induction readUnits quote t with
  | case1 =>
    intro g hg
    rw [← show ([] : Text) = after from ht] at hg
    cases hg
  | case2 g rest hline =>
    intro x hx
    rw [← show g :: rest = after from ht] at hx
    rwa [← Option.some.inj hx]
  | case3 => exact absurd rfl hending
  | case4 =>
    intro g hg
    rw [← show ([] : Text) = after from (List.cons.inj ht).2] at hg
    cases hg
  | case5 more =>
    intro g hg
    rw [← show lineFeed :: more = after from (List.cons.inj ht).2] at hg
    rw [← Option.some.inj hg]
    rfl
  | case6 e more hn body fault he hline hq ih =>
    refine ih hending ?_
    have hfront : body <+: e :: more := by
      have hf := readEscape_front e more
      rwa [he] at hf
    rw [unitsText_consUnit, List.append_assoc] at ht
    have hsplit := List.prefix_iff_eq_append.1 hfront
    exact List.append_cancel_left (hsplit.trans (List.cons.inj ht).2)
  | case7 g rest hline hq hslash ih =>
    refine ih hending ?_
    rw [unitsText_consUnit, List.append_assoc] at ht
    exact (List.cons.inj ht).2

end Endings

/-! ### Literals without a fault -/

theorem Text.IsUnit.ne_nil {quote : Glyph} {u : Text} (hu : IsUnit quote u) : u ≠ [] := by
  cases hu <;> exact List.cons_ne_nil _ _

namespace Quoted

/-- Nothing is wrong with a literal that is read exactly if it is one of the grammar. -/
theorem faultless_iff {quote : Glyph} (hquote : quote.isOneOf ['"', '\''] = true) (t : Text)
    (p : Position) : (Piece.quoted (read quote t)).diagnostics p = []
      ↔ (read quote t).text.IsLiteral quote := by
  rw [diagnostics_eq_nil_iff]
  show (∀ l ∈ (readUnits quote t).1, l.fault? = none) ∧ (readUnits quote t).2 = .closed
    ∧ (quote = Glyph.scalar '\'' → (readUnits quote t).1.length = 1) ↔ _
  constructor
  · rintro ⟨hok, hclosed, hone⟩
    refine ⟨(readUnits quote t).1.map LiteralUnit.text, ?_, ?_, ?_⟩
    · exact List.forall_mem_map.2 fun l hl => isUnit_of_mem_readUnits hl (hok l hl)
    · rwa [List.length_map]
    · show quote :: ((readUnits quote t).1.flatMap LiteralUnit.text ++ (readUnits quote t).2.text
        quote) = _
      rw [hclosed, List.flatMap_def]
      rfl
  · rintro ⟨us, hus, hone, htext⟩
    obtain ⟨after, hafter⟩ := text_front quote t
    rw [htext] at hafter
    have ht : us.flatten ++ quote :: after = t := by
      rw [← (List.cons.inj hafter).2]
      exact List.append_cons us.flatten quote after
    obtain ⟨ls, hread, hok, htexts, hlength⟩ := exists_units_read hquote hus after
    rw [ht] at hread
    rw [hread]
    refine ⟨hok, rfl, fun hchar => Nat.le_antisymm (hone hchar ▸ hlength) ?_⟩
    -- one unit has a text, so at least one is read
    obtain ⟨u, rfl⟩ := List.length_eq_one_iff.1 (hone hchar)
    refine List.length_pos_iff.2 ?_
    rintro rfl
    rw [List.flatMap_nil, List.flatten_singleton] at htexts
    exact (hus u (List.mem_singleton_self u)).ne_nil htexts.symm

end Quoted

/-! ### Faults inside a token -/

/-- What is reported inside a piece belongs to that piece. -/
theorem eq_of_fault_within {p : Position} {xs : List Piece} {y z : Position × Piece}
    (hy : y ∈ placed p xs) (hz : z ∈ placed p xs) {d : Diagnostic}
    (hd : d ∈ z.2.diagnostics z.1) (hwithin : d.span.Within (y.2.span y.1)) : z = y := by
  obtain ⟨front, part, after, hpart, htext, hspan⟩ := Piece.part_of_diagnostic hd
  have hstart : z.1 ≤ d.span.start := by
    rw [hspan]
    exact z.1.le_advance front
  have hnonempty : d.span.start < d.span.stop := by
    rw [hspan, Position.advance_append]
    exact Position.lt_advance _ hpart
  have hstop : d.span.stop ≤ z.1.advance z.2.text := by
    rw [hspan, htext, ← List.append_assoc, Position.advance_append _ (front ++ part)]
    exact Position.le_advance _ after
  obtain ⟨before, behind, hsplit⟩ := List.append_of_mem hy
  have hapart := (apart_placed p xs).1
  rw [hsplit] at hz hapart
  obtain ⟨-, hbehind, hbefore⟩ := List.pairwise_append.1 hapart
  rcases List.mem_append.1 hz with hz | hz
  · have hle := hbefore z hz y List.mem_cons_self
    exact absurd (hstop.trans (hle.trans hwithin.1)) (not_le_of_gt hnonempty)
  rcases List.mem_cons.1 hz with h | hz
  · exact h
  · have hle := (List.pairwise_cons.1 hbehind).1 z hz
    exact absurd (hwithin.2.trans (hle.trans hstart)) (not_le_of_gt hnonempty)

/-- A token is reported for nothing exactly if nothing is wrong with the piece it was read as. -/
theorem no_fault_within_iff {source front rest : Text} {g : Glyph} {t : Token}
    (hmem : (Position.origin.advance front, Piece.read g rest) ∈ placed .origin (pieces source))
    (htoken : (Piece.read g rest).token? (Position.origin.advance front) = some t) :
    (∀ d ∈ (lex source).diagnostics, ¬ d.span.Within t.span)
      ↔ (Piece.read g rest).diagnostics (Position.origin.advance front) = [] := by
  rw [Piece.span_of_token? htoken]
  constructor
  · intro h
    refine List.eq_nil_iff_forall_not_mem.2 fun d hd => ?_
    refine h d (List.mem_flatMap.2 ⟨_, hmem, hd⟩) ?_
    obtain ⟨lead, part, after, -, htext, hspan⟩ := Piece.part_of_diagnostic hd
    rw [hspan]
    refine ⟨Position.le_advance _ lead, ?_⟩
    rw [Piece.span, htext, ← List.append_assoc, Position.advance_append _ _ after]
    exact Position.le_advance _ after
  · intro h d hd hwithin
    obtain ⟨⟨q, x⟩, hx, hd⟩ := List.mem_flatMap.1 hd
    obtain ⟨rfl, rfl⟩ := Prod.mk.inj (eq_of_fault_within hmem hx hd hwithin)
    dsimp only at hd
    rw [h] at hd
    cases hd

/-! ### The literals of a byte string -/

theorem keywords_operators_no_literal : ∀ entry ∈ keywords ++ operators,
    entry.2 ∉ [Kind.stringLit, .charLit] := by decide

/-- A lexeme of a literal's kind starts with a quote. -/
theorem Lexeme.isQuote_of_kind {k : Kind} {g : Glyph} {v : Text} (h : Lexeme k (g :: v))
    (hkind : k ∈ [Kind.stringLit, .charLit]) : g.isOneOf ['"', '\''] = true := by
  generalize hw : g :: v = w at h
  cases h with
  | @word x r hx hr =>
    cases hk : keyword? (x :: r) with
    | none => rw [hk] at hkind; exact absurd hkind (by decide)
    | some k =>
      obtain ⟨entry, hentry, rfl⟩ := Option.map_eq_some_iff.1 hk
      rw [hk] at hkind
      have hmem := List.mem_append_left operators (List.mem_of_find?_eq_some hentry)
      exact absurd hkind (keywords_operators_no_literal entry hmem)
  | @numeral n hn hstart =>
    unfold Numeral.kind at hkind
    split at hkind <;> exact absurd hkind (by decide)
  | quoted hquote hok =>
    obtain ⟨rfl, -⟩ := List.cons.inj hw
    exact hquote
  | operator hv =>
    exact absurd hkind (keywords_operators_no_literal _ (List.mem_append_right keywords hv))

/-- A token of a literal's kind was read as a literal in the quotes of its kind. -/
theorem Piece.read_eq_of_kind {g : Glyph} {rest : Text} {p : Position} {t : Token}
    (h : (read g rest).token? p = some t) (hkind : t.kind ∈ [Kind.stringLit, .charLit]) :
    g.isOneOf ['"', '\''] = true ∧ read g rest = quoted (Quoted.read g rest)
      ∧ t.kind.quote = g := by
  have hquote : g.isOneOf ['"', '\''] = true := by
    cases hx : read g rest with
    | quoted q => exact (isQuote_of_read_quoted hx).1
    | lexeme k v =>
      have hform : (read g rest).form? = some (k, v) := by rw [hx]; rfl
      have hlexeme := lexeme_of_read hform (by rw [hx]; exact fun _ => rfl)
      rw [hx] at h
      obtain rfl := Option.some.inj h
      obtain ⟨x, v, rfl⟩ := List.exists_cons_of_ne_nil hlexeme.ne_nil
      have hfront := text_front g rest
      rw [hx] at hfront
      obtain rfl : x = g := (List.cons_prefix_cons.1 hfront).1
      exact hlexeme.isQuote_of_kind hkind
    | _ => rw [hx] at h; cases h
  have hread : read g rest = quoted (Quoted.read g rest) := read_quoted hquote
  refine ⟨hquote, hread, ?_⟩
  rw [hread] at h
  obtain rfl := Option.some.inj h
  show (Quoted.read g rest).kind.quote = g
  rcases Glyph.eq_or_eq_of_isOneOf hquote with rfl | rfl <;> rfl

/-- String and character literals follow their grammar: nothing is reported inside such a token
exactly if it is made of units between its quotes, and it is cut off exactly if it does not end in a
quote that no backslash escapes; then the line ends behind it, or the source does. -/
theorem lex_literals (bytes : List UInt8) {t : Token}
    (ht : t ∈ (lex (Text.ofBytes bytes)).tokens) (hkind : t.kind ∈ [Kind.stringLit, .charLit]) :
    ∃ lead rest, bytes = lead ++ t.value.toBytes ++ rest ∧ t.Located bytes lead
      ∧ ((∀ d ∈ (lex (Text.ofBytes bytes)).diagnostics, ¬ d.span.Within t.span)
        ↔ t.value.IsLiteral t.kind.quote)
      ∧ (t.unterminated = true ↔ ¬ t.value.EndsInQuote t.kind.quote)
      ∧ (t.unterminated = true → ∀ b ∈ rest.head?, b = 10 ∨ b = 13) := by
  have heof : t.kind ≠ .eof := fun h => absurd (h ▸ hkind) (by decide)
  obtain ⟨front, g, rest, hsource, hmem, htoken⟩ := exists_read_of_mem ht heof
  obtain ⟨hquote, hread, hg⟩ := Piece.read_eq_of_kind htoken hkind
  have hclean := no_fault_within_iff hmem htoken
  have hlocated := located_of_read hsource htoken
  rw [hread] at hclean htoken
  have hvalue : t.value = (Quoted.read g rest).text := (Option.some.inj htoken) ▸ rfl
  have hcut : t.unterminated = decide ((Quoted.read g rest).ending ≠ .closed) :=
    (Option.some.inj htoken) ▸ rfl
  obtain ⟨after, hafter⟩ := Quoted.text_front g rest
  rw [← hvalue] at hafter
  have hbytes := congrArg Text.toBytes hsource
  rw [Text.toBytes_ofBytes, ← hafter, toBytes_append, toBytes_append, ← List.append_assoc] at hbytes
  refine ⟨front.toBytes, Text.toBytes after, hbytes, hlocated, ?_, ?_, fun h b hb => ?_⟩
  · rw [hclean, hg, hvalue, Quoted.faultless_iff hquote]
  · rw [hcut, decide_eq_true_iff, ne_eq, Quoted.closed_iff hquote, hg, hvalue]
  · rw [hcut, decide_eq_true_iff] at h
    have hrest : rest = unitsText g (readUnits g rest) ++ after := by
      rw [hvalue] at hafter
      exact (List.cons.inj hafter).2.symm
    cases after with
    | nil => cases hb
    | cons x after =>
      have hline := isLineEnd_of_readUnits h hrest x rfl
      rcases Glyph.eq_or_eq_of_isOneOf hline with rfl | rfl
      · exact .inl (Option.some.inj hb).symm
      · exact .inr (Option.some.inj hb).symm

/-- In the source `'\uu0041'"\08\"` the quote at the end of the line is escaped, so the string is
cut off there. -/
theorem lex_literals_cut :
    let bytes : List UInt8 := [39, 92, 117, 117, 48, 48, 52, 49, 39, 34, 92, 48, 56, 92, 34, 10]
    let t : Token := ⟨.stringLit, "\"\\08\\\"", ⟨⟨1, 10⟩, ⟨1, 16⟩⟩, true⟩
    t ∈ (lex (Text.ofBytes bytes)).tokens ∧ t.kind ∈ [Kind.stringLit, .charLit]
      ∧ ∃ lead rest, bytes = lead ++ t.value.toBytes ++ rest ∧ t.Located bytes lead
        ∧ ((∀ d ∈ (lex (Text.ofBytes bytes)).diagnostics, ¬ d.span.Within t.span)
          ↔ t.value.IsLiteral t.kind.quote)
        ∧ (t.unterminated = true ↔ ¬ t.value.EndsInQuote t.kind.quote)
        ∧ (t.unterminated = true → ∀ b ∈ rest.head?, b = 10 ∨ b = 13) :=
  ⟨by decide +kernel, by decide, lex_literals _ (by decide +kernel) (by decide)⟩

end JavaPrimer
