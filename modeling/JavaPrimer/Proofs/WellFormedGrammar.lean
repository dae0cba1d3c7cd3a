import JavaPrimer.Grammar.Table
import JavaPrimer.Proofs.LeftmostDerivation
import Mathlib.Data.List.Forall2
import Mathlib.Data.List.Perm.Basic
import Mathlib.Data.List.Zip

/-!
# Well-formed grammars

What a table must be like so that every choice can be made by looking ahead, said by derivation
and without regard to the order of rules or of alternatives.

* `Elem.RefersTo` — an element in which a rule is referred to, with `mem_refsOf_iff`;
* `Overlap` — two sequences that can match the same tokens, with `sequencesOverlap_iff`;
* `Rule.Unambiguous` — no two alternatives of a rule can be chosen at once, and every gate can;
* `Grammar.WellFormed` — the whole specification;
* `shapeProblems_eq_nil_iff` — the part of it that can be told without lookahead sequences;
* `Grammar.Reordered`, `Reordered.wellFormed_iff` — rules and alternatives in another order.
-/

namespace JavaPrimer

open Grammar

/-! ### References -/

/-- A reference to the rule with this name stands in the element, at whatever depth. -/
inductive Elem.RefersTo (name : Text) : Elem → Prop
  | here : RefersTo name (.ref name)
  | seq {items : List Elem} {e : Elem} : e ∈ items → RefersTo name e → RefersTo name (.seq items)
  | opt {items : List Elem} {e : Elem} : e ∈ items → RefersTo name e → RefersTo name (.opt items)
  | many {items : List Elem} {e : Elem} : e ∈ items → RefersTo name e → RefersTo name (.many items)
  | oneOf {items : List Elem} {e : Elem} :
      e ∈ items → RefersTo name e → RefersTo name (.oneOf items)

namespace Elem

variable {name : Text}

theorem mem_refsOf_of_items {items : List Elem}
    (h : ∀ e ∈ items, name ∈ e.refs ↔ e.RefersTo name) :
    name ∈ refsOf items ↔ ∃ e ∈ items, e.RefersTo name := by
  induction items with
  | nil => exact ⟨fun hname => (nomatch hname), fun ⟨_, he, _⟩ => (nomatch he)⟩
  | cons e items ih =>
    obtain ⟨he, hitems⟩ := List.forall_mem_cons.1 h
    rw [refsOf, List.mem_append, he, ih hitems, List.exists_mem_cons_iff]

theorem mem_refs_iff (e : Elem) : name ∈ e.refs ↔ e.RefersTo name := by
  induction e using Elem.byItems with
  | term t => exact ⟨fun hname => (nomatch hname), fun h => (nomatch h)⟩
  | ref rule =>
    rw [refs, List.mem_singleton]
    constructor
    · rintro rfl
      exact .here
    · rintro ⟨⟩
      rfl
  | seq items ih =>
    rw [refs, mem_refsOf_of_items ih]
    exact ⟨fun ⟨_, he, h⟩ => .seq he h, fun h => by cases h with | seq he h => exact ⟨_, he, h⟩⟩
  | opt items ih =>
    rw [refs, mem_refsOf_of_items ih]
    exact ⟨fun ⟨_, he, h⟩ => .opt he h, fun h => by cases h with | opt he h => exact ⟨_, he, h⟩⟩
  | many items ih =>
    rw [refs, mem_refsOf_of_items ih]
    exact ⟨fun ⟨_, he, h⟩ => .many he h, fun h => by cases h with | many he h => exact ⟨_, he, h⟩⟩
  | oneOf items ih =>
    rw [refs, mem_refsOf_of_items ih]
    exact ⟨fun ⟨_, he, h⟩ => .oneOf he h,
      fun h => by cases h with | oneOf he h => exact ⟨_, he, h⟩⟩

/-- The rules collected from a body are the ones that an element of it refers to. -/
theorem mem_refsOf_iff {body : List Elem} :
    name ∈ refsOf body ↔ ∃ e ∈ body, e.RefersTo name :=
  mem_refsOf_of_items fun e _ => e.mem_refs_iff

end Elem

/-! ### Overlaps -/

/-- Two terms overlap when some token fits both. -/
theorem Term.overlaps_iff {s t : Term} :
    s.overlaps t = true ↔ ∃ tok, s.accepts tok = true ∧ t.accepts tok = true := by
  obtain ⟨kind, image⟩ := s
  obtain ⟨kind', image'⟩ := t
  simp only [overlaps, accepts, Bool.and_eq_true, Bool.or_eq_true, beq_iff_eq]
  constructor
  · rintro ⟨rfl, himage⟩
    refine ⟨⟨kind, if image.isEmpty then image' else image, .nowhere, false⟩, ⟨rfl, ?_⟩, rfl, ?_⟩
    · by_cases h : image.isEmpty <;> simp [h]
    · by_cases h : image.isEmpty
      · simp [h]
      · rcases himage with (h' | h') | h'
        · exact absurd h' h
        · exact .inl h'
        · exact .inr (by simp [h'])
  · rintro ⟨tok, ⟨rfl, h⟩, rfl, h'⟩
    refine ⟨rfl, ?_⟩
    rcases h with h | h
    · exact .inl (.inl h)
    · rcases h' with h' | h'
      · exact .inl (.inr h')
      · exact .inr (h.symm.trans h')

/-- Two sequences overlap when, on the part that both have, some token fits the terms of each
place. -/
def Overlap (ss ts : List Term) : Prop :=
  ∀ p ∈ ss.zip ts, ∃ tok, p.1.accepts tok = true ∧ p.2.accepts tok = true

theorem sequencesOverlap_iff {ss ts : List Term} : sequencesOverlap ss ts = true ↔ Overlap ss ts := by
  induction ss generalizing ts with
  | nil =>
    cases ts <;> exact ⟨fun _ _ hp => (nomatch hp), fun _ => rfl⟩
  | cons s ss ih =>
    cases ts with
    | nil => exact ⟨fun _ _ hp => (nomatch hp), fun _ => rfl⟩
    | cons t ts =>
      have hcons : Overlap (s :: ss) (t :: ts) ↔ s.overlaps t = true ∧ Overlap ss ts := by
        simp only [Overlap, List.zip_cons_cons, List.forall_mem_cons, Term.overlaps_iff]
      rw [sequencesOverlap, Bool.and_eq_true, ih, hcons]

theorem Overlap.symm {ss ts : List Term} (h : Overlap ss ts) : Overlap ts ss := by
  intro p hp
  rw [← List.zip_swap, List.mem_map] at hp
  obtain ⟨q, hq, rfl⟩ := hp
  obtain ⟨tok, hs, ht⟩ := h q hq
  exact ⟨tok, ht, hs⟩

theorem gateCanMatch_iff {gate : List Term} {firsts : List (List Term)} :
    gateCanMatch gate firsts = true
      ↔ ∃ ts ∈ firsts, ts.length = gate.length ∧ Overlap ts gate := by
  simp only [gateCanMatch, List.any_eq_true, Bool.and_eq_true, beq_iff_eq, sequencesOverlap_iff]

/-! ### The specification -/

/-- Two alternatives without a gate that cannot both start with what is there. -/
def Alt.Apart (g : Grammar) (k : Int) (a b : Alt) : Prop :=
  a.gate = [] → b.gate = [] →
    ∀ ss ts, g.FirstSeq k a.body ss → g.FirstSeq k b.body ts → ¬ Overlap ss ts

/-- Two alternatives whose gates cannot both match. -/
def Alt.GatesApart (a b : Alt) : Prop := a.gate ≠ [] → b.gate ≠ [] → ¬ Overlap a.gate b.gate

/-- An alternative that can start with what its gate asks for. -/
def Alt.GateAlive (g : Grammar) (a : Alt) : Prop :=
  a.gate ≠ [] → ∃ ts, g.FirstSeq a.gate.length a.body ts ∧ ts.length = a.gate.length
    ∧ Overlap ts a.gate

/-- No two alternatives of a rule can be chosen at once, and every gate can match. -/
structure Rule.Unambiguous (g : Grammar) (r : Rule) : Prop where
  apart : r.alts.Pairwise (Alt.Apart g r.lookahead)
  gatesApart : r.alts.Pairwise Alt.GatesApart
  gatesAlive : ∀ a ∈ r.alts, a.GateAlive g

/-- A rule that stands by itself: how far it looks ahead, its alternatives, its gates and the rules
that it refers to. -/
structure Rule.Shapely (g : Grammar) (r : Rule) : Prop where
  budget : 1 ≤ r.lookahead ∧ r.lookahead ≤ 4
  choice : r.alts ≠ []
  gates : ∀ a ∈ r.alts, a.gate.length ≤ 4
  defined : ∀ a ∈ r.alts, ∀ e ∈ a.body, ∀ name, e.RefersTo name → ∃ r' ∈ g.rules, r'.name = name

/-- A table in which every choice can be made by looking ahead. -/
structure Grammar.WellFormed (g : Grammar) : Prop where
  unique : (g.rules.map Rule.name).Nodup
  shapely : ∀ r ∈ g.rules, r.Shapely g
  straight : ∀ r ∈ g.rules, ¬ g.LeftRecursive r.name
  unambiguous : ∀ r ∈ g.rules, r.Unambiguous g

/-! ### Problems of shape -/

section Shape

variable {g : Grammar} {r : Rule}

theorem find?_isNone_iff {name : Text} :
    (g.find? name).isNone = true ↔ ∀ r ∈ g.rules, r.name ≠ name := by
  simp only [Grammar.find?, Option.isNone_iff_eq_none, List.find?_eq_none, beq_iff_eq, ne_eq]

theorem alt_shapeProblems_eq_nil_iff {a : Alt} : a.shapeProblems g r = [] ↔
    a.gate.length ≤ 4
      ∧ ∀ e ∈ a.body, ∀ name, e.RefersTo name → ∃ r' ∈ g.rules, r'.name = name := by
  rw [Alt.shapeProblems, List.append_eq_nil_iff, List.map_eq_nil_iff, List.filter_eq_nil_iff]
  refine and_congr ?_ ?_
  · have hmax : maxLookahead = 4 := rfl
    rw [hmax]
    split
    · next h => exact ⟨fun heq => (List.cons_ne_nil _ _ heq).elim, fun hle => absurd h (by omega)⟩
    · next h => exact ⟨fun _ => by omega, fun _ => rfl⟩
  · simp only [find?_isNone_iff, ne_eq, not_forall, not_not, exists_prop, Elem.mem_refsOf_iff]
    exact ⟨fun h e he name hrefers => h name ⟨e, he, hrefers⟩,
      fun h name ⟨e, he, hrefers⟩ => h e he name hrefers⟩

theorem rule_shapeProblems_eq_nil_iff {before : List Text} : r.shapeProblems g before = [] ↔
    r.name ∉ before ∧ r.Shapely g := by
  have hbudget : r.lookaheadOutside = true ↔ ¬ (1 ≤ r.lookahead ∧ r.lookahead ≤ 4) := by
    simp only [Rule.lookaheadOutside, Bool.or_eq_true, decide_eq_true_eq, gt_iff_lt]
    have hmax : (maxLookahead : Int) = 4 := rfl
    rw [hmax]
    omega
  have hite : ∀ {c : Prop} [Decidable c] {p : GrammarProblem},
      (if c then [p] else []) = [] ↔ ¬ c := by
    intro c _ p
    split <;> simp [*]
  simp only [Rule.shapeProblems, List.append_eq_nil_iff, List.flatMap_eq_nil_iff, hite, hbudget,
    alt_shapeProblems_eq_nil_iff, List.contains_iff_mem, not_not, List.isEmpty_iff]
  constructor
  · rintro ⟨⟨⟨hname, hb⟩, halts⟩, hall⟩
    exact ⟨hname, hb, halts, fun a ha => (hall a ha).1, fun a ha => (hall a ha).2⟩
  · rintro ⟨hname, h⟩
    exact ⟨⟨⟨hname, h.budget⟩, h.choice⟩, fun a ha => ⟨h.gates a ha, h.defined a ha⟩⟩

theorem rulesShapeProblems_eq_nil_iff {before : List Text} {rules : List Rule} :
    rulesShapeProblems g before rules = [] ↔
      ((rules.map Rule.name).Nodup ∧ ∀ r ∈ rules, r.name ∉ before) ∧ ∀ r ∈ rules, r.Shapely g := by
  induction rules generalizing before with
  | nil => simp [rulesShapeProblems]
  | cons r rules ih =>
    rw [rulesShapeProblems, List.append_eq_nil_iff, rule_shapeProblems_eq_nil_iff, ih,
      List.map_cons, List.nodup_cons, List.forall_mem_cons, List.forall_mem_cons]
    simp only [List.mem_cons, not_or, List.mem_map, not_exists, not_and]
    constructor
    · rintro ⟨⟨hbefore, hr⟩, ⟨hnodup, hnames⟩, hrest⟩
      exact ⟨⟨⟨fun r' hr' => (hnames r' hr').1, hnodup⟩, hbefore, fun r' hr' => (hnames r' hr').2⟩,
        hr, hrest⟩
    · rintro ⟨⟨⟨hnew, hnodup⟩, hbefore, hnames⟩, hr, hrest⟩
      exact ⟨⟨hbefore, hr⟩, ⟨hnodup, fun r' hr' => ⟨hnew r' hr', hnames r' hr'⟩⟩, hrest⟩

/-- The shape of a table is right when names are unique and every rule is right by itself. -/
theorem shapeProblems_eq_nil_iff :
    g.shapeProblems = [] ↔ (g.rules.map Rule.name).Nodup ∧ ∀ r ∈ g.rules, r.Shapely g := by
  rw [Grammar.shapeProblems, rulesShapeProblems_eq_nil_iff]
  refine and_congr_left fun _ => ⟨And.left, fun h => ⟨h, fun _ _ hmem => nomatch hmem⟩⟩

end Shape

/-! ### Another order -/

/-- The same rule with its alternatives in another order. -/
structure Rule.Reordered (r r' : Rule) : Prop where
  name : r.name = r'.name
  lookahead : r.lookahead = r'.lookahead
  alts : r.alts.Perm r'.alts

/-- The same table with its rules, and the alternatives of each, in another order. -/
def Grammar.Reordered (g g' : Grammar) : Prop :=
  ∃ rules, g.rules.Perm rules ∧ List.Forall₂ Rule.Reordered rules g'.rules

/-- What stands at the place of an element in a list related element by element. -/
theorem exists_of_forall₂ {α β : Type} {R : α → β → Prop} {xs : List α} {ys : List β}
    (h : List.Forall₂ R xs ys) {x : α} (hx : x ∈ xs) : ∃ y ∈ ys, R x y := by
  obtain ⟨i, hi, rfl⟩ := List.getElem_of_mem hx
  have hi' : i < ys.length := h.length_eq ▸ hi
  exact ⟨ys[i], List.getElem_mem hi', h.get hi hi'⟩

/-- Rules related one by one have the same names when the relation keeps the name. -/
theorem map_name_of_forall₂ {R : Rule → Rule → Prop} (hR : ∀ r r', R r r' → r.name = r'.name)
    {rules rules' : List Rule} (h : List.Forall₂ R rules rules') :
    rules.map Rule.name = rules'.map Rule.name := by
  rw [← List.forall₂_eq_eq_eq, List.forall₂_map_left_iff, List.forall₂_map_right_iff]
  exact h.imp hR

theorem Rule.Reordered.symm {r r' : Rule} (h : r.Reordered r') : r'.Reordered r :=
  ⟨h.name.symm, h.lookahead.symm, h.alts.symm⟩

namespace Grammar.Reordered

variable {g g' : Grammar} {body : List Elem} {ts : List Term} {k : Int}

theorem symm (h : g.Reordered g') : g'.Reordered g := by
  obtain ⟨rules, hperm, hall⟩ := h
  obtain ⟨rules', hall', hperm'⟩ := List.perm_comp_forall₂ hperm hall
  exact ⟨rules', hperm'.symm, (hall'.imp fun _ _ => Rule.Reordered.symm).flip⟩

/-- Every rule of a table is, but for the order of its alternatives, in the other. -/
theorem exists_rule (h : g.Reordered g') {r : Rule} (hr : r ∈ g.rules) :
    ∃ r' ∈ g'.rules, r.Reordered r' := by
  obtain ⟨rules, hperm, hall⟩ := h
  exact exists_of_forall₂ hall (hperm.mem_iff.1 hr)

theorem names (h : g.Reordered g') : (g.rules.map Rule.name).Perm (g'.rules.map Rule.name) := by
  obtain ⟨rules, hperm, hall⟩ := h
  exact map_name_of_forall₂ (fun _ _ hr => hr.name) hall ▸ hperm.map Rule.name

theorem within (h : g.Reordered g') : g.Within g' := by
  intro r hr
  obtain ⟨r', hr', hreordered⟩ := h.exists_rule hr
  exact ⟨r', hr', hreordered.name.symm, hreordered.alts.subset⟩

theorem terms_subset (h : g.Reordered g') : g.terms ⊆ g'.terms := h.within.terms_subset

theorem firstSeq_iff (h : g.Reordered g') : g.FirstSeq k body ts ↔ g'.FirstSeq k body ts :=
  ⟨h.within.firstSeq, h.symm.within.firstSeq⟩

theorem shapely (h : g.Reordered g') {r r' : Rule} (hr : r.Reordered r') (hs : r.Shapely g) :
    r'.Shapely g' where
  budget := hr.lookahead ▸ hs.budget
  choice := fun hnil => hs.choice (List.perm_nil.1 (hnil ▸ hr.alts))
  gates a ha := hs.gates a (hr.alts.mem_iff.2 ha)
  defined a ha e he name hrefers := by
    obtain ⟨q, hq, rfl⟩ := hs.defined a (hr.alts.mem_iff.2 ha) e he name hrefers
    obtain ⟨q', hq', hreordered⟩ := h.exists_rule hq
    exact ⟨q', hq', hreordered.name.symm⟩

theorem unambiguous (h : g.Reordered g') {r r' : Rule} (hr : r.Reordered r')
    (hu : r.Unambiguous g) : r'.Unambiguous g' where
  apart := by
    have hsymm : ∀ {a b : Alt}, a.Apart g r.lookahead b → b.Apart g r.lookahead a :=
      fun hab hb ha ss ts hss hts ho => hab ha hb ts ss hts hss ho.symm
    refine ((hr.alts.pairwise_iff hsymm).1 hu.apart).imp fun hab ha hb ss ts hss hts => ?_
    rw [← hr.lookahead] at hss hts
    exact hab ha hb ss ts (h.firstSeq_iff.2 hss) (h.firstSeq_iff.2 hts)
  gatesApart := by
    have hsymm : ∀ {a b : Alt}, a.GatesApart b → b.GatesApart a :=
      fun hab hb ha ho => hab ha hb ho.symm
    exact (hr.alts.pairwise_iff hsymm).1 hu.gatesApart
  gatesAlive a ha hgate := by
    obtain ⟨ts, hts, hmatch⟩ := hu.gatesAlive a (hr.alts.mem_iff.2 ha) hgate
    exact ⟨ts, h.firstSeq_iff.1 hts, hmatch⟩

theorem wellFormed (h : g.Reordered g') (hg : g.WellFormed) : g'.WellFormed where
  unique := h.names.nodup_iff.1 hg.unique
  shapely r' hr' := by
    obtain ⟨r, hr, hreordered⟩ := h.symm.exists_rule hr'
    exact h.shapely hreordered.symm (hg.shapely r hr)
  straight r' hr' hrec := by
    obtain ⟨r, hr, hreordered⟩ := h.symm.exists_rule hr'
    exact hg.straight r hr (hreordered.name ▸ h.symm.within.leftRecursive hrec)
  unambiguous r' hr' := by
    obtain ⟨r, hr, hreordered⟩ := h.symm.exists_rule hr'
    exact h.unambiguous hreordered.symm (hg.unambiguous r hr)

/-- The specification does not depend on the order of rules or of alternatives. -/
theorem wellFormed_iff (h : g.Reordered g') : g.WellFormed ↔ g'.WellFormed :=
  ⟨h.wellFormed, h.symm.wellFormed⟩

end Grammar.Reordered

end JavaPrimer
