import JavaPrimer.Proofs.Prediction

/-!
# Looking further ahead

A rule may look further ahead than it has to. Under a smaller budget an alternative begins with
fronts of what it begins with under a larger one, and fronts of sequences that overlap overlap. So
what is told apart by looking a little ahead is told apart by looking further, and what is chosen
then would have been chosen before.

* `Overlap.front`, `Matches.front` — fronts of sequences;
* `Rule.Widened`, `Grammar.Widened` — the same rules with larger budgets;
* `Grammar.Widened.wellFormed` — such a table is well-formed still;
* `Grammar.widened_update` — one rule with a larger budget;
* `predict_of_raised` — what the rule chooses.
-/

namespace JavaPrimer

open Grammar

/-! ### Fronts -/

variable {ss ts us vs : List Term}

theorem getElem?_of_front (h : us <+: ts) {i : Nat} {t : Term} (hi : us[i]? = some t) :
    ts[i]? = some t := by
  obtain ⟨hlt, rfl⟩ := List.getElem?_eq_some_iff.1 hi
  exact List.prefix_iff_getElem?.1 h i hlt

theorem Overlap.front (h : Overlap ss ts) (hus : us <+: ss) (hvs : vs <+: ts) : Overlap us vs := by
  intro p hp
  obtain ⟨i, hi⟩ := List.mem_iff_getElem?.1 hp
  obtain ⟨hu, hv⟩ := List.getElem?_zip_eq_some.1 hi
  refine h p (List.mem_iff_getElem?.2 ⟨i, List.getElem?_zip_eq_some.2 ⟨?_, ?_⟩⟩)
  · exact getElem?_of_front hus hu
  · exact getElem?_of_front hvs hv

theorem Matches.front {ahead : Nat → Token} (h : Matches ahead ts) (hus : us <+: ts) :
    Matches ahead us :=
  fun i t hi => h i t (getElem?_of_front hus hi)

/-! ### Larger budgets -/

/-- The same rule, looking at least as far ahead and no further than a rule may. -/
structure Rule.Widened (r r' : Rule) : Prop where
  name : r'.name = r.name
  alts : r'.alts = r.alts
  lookahead : r.lookahead ≤ r'.lookahead
  bounded : r'.lookahead ≤ 4

/-- The same table with larger budgets. -/
def Grammar.Widened (g g' : Grammar) : Prop := List.Forall₂ Rule.Widened g.rules g'.rules

namespace Grammar.Widened

variable {g g' : Grammar} {r r' : Rule}

theorem exists_rule (h : g.Widened g') (hr' : r' ∈ g'.rules) : ∃ r ∈ g.rules, r.Widened r' :=
  exists_of_forall₂ (List.Forall₂.flip h) hr'

theorem within (h : g.Widened g') : g.Within g' := by
  intro r hr
  obtain ⟨r', hr', hwide⟩ := exists_of_forall₂ h hr
  exact ⟨r', hr', hwide.name, hwide.alts ▸ List.Subset.refl _⟩

theorem within_back (h : g.Widened g') : g'.Within g := by
  intro r' hr'
  obtain ⟨r, hr, hwide⟩ := h.exists_rule hr'
  exact ⟨r, hr, hwide.name.symm, hwide.alts ▸ List.Subset.refl _⟩

theorem names (h : g.Widened g') : g'.rules.map Rule.name = g.rules.map Rule.name :=
  (map_name_of_forall₂ (fun _ _ hwide => hwide.name.symm) h).symm

theorem shapely (h : g.Widened g') (hwide : r.Widened r') (hr : r.Shapely g) : r'.Shapely g' where
  budget := ⟨Int.le_trans hr.budget.1 hwide.lookahead, hwide.bounded⟩
  choice := hwide.alts ▸ hr.choice
  gates := hwide.alts ▸ hr.gates
  defined a ha e he name hrefers := by
    obtain ⟨q, hq, rfl⟩ := hr.defined a (hwide.alts ▸ ha) e he name hrefers
    obtain ⟨q', hq', hname', -⟩ := h.within q hq
    exact ⟨q', hq', hname'⟩

/-- What an alternative begins with under the larger budget has a front that it begins with under
the smaller one. -/
theorem exists_front (h : g.Widened g') (hwide : r.Widened r') (hr : r.Shapely g)
    {body : List Elem} (hts : g'.FirstSeq r'.lookahead body ts) :
    ∃ us, us <+: ts ∧ g.FirstSeq r.lookahead body us :=
  (h.within_back.firstSeq hts).front (Int.le_trans (by decide) hr.budget.1) hwide.lookahead

theorem unambiguous (h : g.Widened g') (hwide : r.Widened r') (hr : r.Shapely g)
    (hu : r.Unambiguous g) : r'.Unambiguous g' where
  apart := by
    rw [hwide.alts]
    refine hu.apart.imp fun hab ha hb ss ts hss hts hoverlap => ?_
    obtain ⟨us, hus, hfirst⟩ := h.exists_front hwide hr hss
    obtain ⟨vs, hvs, hfirst'⟩ := h.exists_front hwide hr hts
    exact hab ha hb us vs hfirst hfirst' (hoverlap.front hus hvs)
  gatesApart := hwide.alts ▸ hu.gatesApart
  gatesAlive a ha hgate := by
    obtain ⟨ts, hts, hmatch⟩ := hu.gatesAlive a (hwide.alts ▸ ha) hgate
    exact ⟨ts, h.within.firstSeq hts, hmatch⟩

/-- A well-formed table is well-formed with larger budgets. -/
theorem wellFormed (h : g.Widened g') (hg : g.WellFormed) : g'.WellFormed where
  unique := h.names ▸ hg.unique
  shapely r' hr' := by
    obtain ⟨r, hr, hwide⟩ := h.exists_rule hr'
    exact h.shapely hwide (hg.shapely r hr)
  straight r' hr' hrec := by
    obtain ⟨r, hr, hwide⟩ := h.exists_rule hr'
    exact hg.straight r hr (hwide.name ▸ h.within_back.leftRecursive hrec)
  unambiguous r' hr' := by
    obtain ⟨r, hr, hwide⟩ := h.exists_rule hr'
    exact h.unambiguous hwide (hg.shapely r hr) (hg.unambiguous r hr)

/-- The alternative that the tokens ahead select under the larger budget is the one that they select
under the smaller. -/
theorem predict (h : g.Widened g') (hg : g.WellFormed) (hwide : r.Widened r') (hr : r ∈ g.rules)
    (hr' : r' ∈ g'.rules) {c c' : Choice} (hc : RuleCompiled g r c) (hc' : RuleCompiled g' r' c')
    {ahead : Nat → Token} {i : Nat} (hpredict : c'.predict ahead = some i) :
    c.predict ahead = some i := by
  have hgate : ∀ j, r'.GateMatches ahead j ↔ r.GateMatches ahead j := by
    intro j
    simp only [Rule.GateMatches, hwide.alts]
  rw [hc'.predict_eq_some_iff ((h.wellFormed hg).unambiguous r' hr')] at hpredict
  rw [hc.predict_eq_some_iff (hg.unambiguous r hr)]
  rcases hpredict with hmatch | ⟨hnone, a, ha, hnil, ts, hts, hmatch⟩
  · exact .inl ((hgate i).1 hmatch)
  · obtain ⟨us, hus, hfirst⟩ := h.exists_front hwide (hg.shapely r hr) hts
    exact .inr ⟨fun j hj => hnone j ((hgate j).2 hj), a, hwide.alts ▸ ha, hnil, us, hfirst,
      hmatch.front hus⟩

end Grammar.Widened

/-! ### One larger budget -/

/-- Raising the budget of one rule widens a table in which no budget is out of range. -/
theorem Grammar.widened_update {g : Grammar} (hunique : (g.rules.map Rule.name).Nodup)
    (hbounded : ∀ q ∈ g.rules, q.lookahead ≤ 4) {r : Rule} (hr : r ∈ g.rules) {k : Int}
    (hk : r.lookahead ≤ k) (hmax : k ≤ 4) :
    g.Widened (g.update r.name (.withLookahead k)) ∧
      r.withLookahead k ∈ (g.update r.name (.withLookahead k)).rules := by
  obtain ⟨i, hfind⟩ : ∃ i, g.rules.findIdx? (·.name == r.name) = some i := by
    rw [← Option.isSome_iff_exists, List.findIdx?_isSome, List.any_eq_true]
    exact ⟨r, hr, beq_self_eq_true r.name⟩
  obtain ⟨hi, hname, -⟩ := List.findIdx?_eq_some_iff_getElem.1 hfind
  have hat : g.rules[i] = r :=
    List.inj_on_of_nodup_map hunique (List.getElem_mem hi) hr (beq_iff_eq.1 hname)
  have hupdate : (g.update r.name (.withLookahead k)).rules
      = g.rules.modify i (.withLookahead k) := by
    rw [Grammar.update, hfind]
  rw [Grammar.Widened, hupdate]
  constructor
  · refine List.forall₂_iff_get.2 ⟨(List.length_modify ..).symm, fun j hj hj' => ?_⟩
    rw [List.get_eq_getElem, List.get_eq_getElem, List.getElem_modify]
    split
    · next heq =>
      subst heq
      rw [hat]
      exact ⟨rfl, rfl, hk, hmax⟩
    · exact ⟨rfl, rfl, Int.le_refl _, hbounded _ (List.getElem_mem hj)⟩
  · refine List.mem_iff_getElem.2 ⟨i, (List.length_modify ..).symm ▸ hi, ?_⟩
    rw [List.getElem_modify, if_pos rfl, hat]

/-- A larger budget is safe: when one rule of a table that is accepted may look further ahead, up to
four tokens, the table is accepted still, and whatever the rule then chooses it would have chosen
before. -/
theorem predict_of_raised {g : Grammar} (hspelled : ∀ t ∈ g.terms, t.Spelled)
    (hvalid : g.validate = []) {r : Rule} (hr : r ∈ g.rules) {k : Int} (hk : r.lookahead ≤ k)
    (hmax : k ≤ 4) :
    (g.update r.name (.withLookahead k)).validate = []
      ∧ ∃ choices choices' c c', g.compile = .ok choices
        ∧ (g.update r.name (.withLookahead k)).compile = .ok choices'
        ∧ findChoice? choices r.name = some c ∧ findChoice? choices' r.name = some c'
        ∧ c.rule = r ∧ c'.rule = r.withLookahead k
        ∧ ∀ (ahead : Nat → Token) (i : Nat),
            c'.predict ahead = some i → c.predict ahead = some i := by
  have hwf := (validate_eq_nil_iff hspelled).1 hvalid
  obtain ⟨choices, hcompile, hall⟩ := compile_of_wellFormed hspelled hwf
  obtain ⟨hwide, hr'⟩ := Grammar.widened_update hwf.unique
    (fun q hq => (hwf.shapely q hq).budget.2) hr hk hmax
  have hwf' := hwide.wellFormed hwf
  have hspelled' : ∀ t ∈ (g.update r.name (.withLookahead k)).terms, t.Spelled :=
    fun t ht => hspelled t (hwide.within_back.terms_subset ht)
  obtain ⟨choices', hcompile', hall'⟩ := compile_of_wellFormed hspelled' hwf'
  obtain ⟨c, hfind, hc⟩ := findChoice?_of_compiled hall hwf.unique hr
  obtain ⟨c', hfind', hc'⟩ := findChoice?_of_compiled hall' hwf'.unique hr'
  have hraised : r.Widened (r.withLookahead k) := ⟨rfl, rfl, hk, hmax⟩
  refine ⟨(validate_eq_nil_iff hspelled').2 hwf', choices, choices', c, c', hcompile, hcompile',
    hfind, hfind', hc.rule, hc'.rule, fun ahead i => ?_⟩
  exact hwide.predict hwf hraised hr hr' hc hc'

/-- The rule that tells a cast from a parenthesis, looking four tokens ahead instead of two. -/
theorem predict_raised_cast : (javaGrammar.update "castOrPrimary" (.withLookahead 4)).validate = []
    ∧ ∃ choices choices' c c', javaGrammar.compile = .ok choices
      ∧ (javaGrammar.update "castOrPrimary" (.withLookahead 4)).compile = .ok choices'
      ∧ findChoice? choices "castOrPrimary" = some c
      ∧ findChoice? choices' "castOrPrimary" = some c'
      ∧ c.rule.lookahead = 2 ∧ c'.rule.lookahead = 4
      ∧ ∀ (ahead : Nat → Token) (i : Nat),
          c'.predict ahead = some i → c.predict ahead = some i := by
  obtain ⟨hvalid, choices, choices', c, c', hcompile, hcompile', hfind, hfind', hrule, hrule',
      hkept⟩ :=
    predict_of_raised spelled_javaGrammar valid_javaGrammar (r := javaGrammar.rules[21])
      (List.getElem_mem _) (k := 4) (by decide) (by decide)
  exact ⟨hvalid, choices, choices', c, c', hcompile, hcompile', hfind, hfind', hrule ▸ rfl,
    hrule' ▸ rfl, hkept⟩

end JavaPrimer
