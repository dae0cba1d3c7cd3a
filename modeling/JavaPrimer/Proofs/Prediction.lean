import JavaPrimer.Proofs.CompiledTable

/-!
# Choosing by looking ahead

In a compiled table the tokens ahead select at most one alternative of a rule, and they select one
whenever some alternative can be chosen at all. Two sequences that match the same tokens overlap,
and a grammar that compiles has no overlaps, so the order in which sequences are tried does not
matter.

* `Matches` — the tokens ahead fit a sequence, with `sequenceMatches_iff`;
* `Rule.GateMatches`, `Rule.BodyMatches` — the alternatives that the tokens ahead allow;
* `predict_of_compile` — prediction is unambiguous and complete.
-/

namespace JavaPrimer

open Grammar

/-! ### Matching -/

/-- The tokens ahead fit a sequence, term by term. -/
def Matches (ahead : Nat → Token) (ts : List Term) : Prop :=
  ∀ (i : Nat) (t : Term), ts[i]? = some t → t.accepts (ahead i) = true

variable {ahead : Nat → Token} {ss ts : List Term}

theorem matches_nil : Matches ahead [] := fun _ _ h => nomatch h

theorem matches_cons {t : Term} : Matches ahead (t :: ts)
    ↔ t.accepts (ahead 0) = true ∧ Matches (fun i => ahead (i + 1)) ts := by
  constructor
  · exact fun h => ⟨h 0 t rfl, fun i u hi => h (i + 1) u hi⟩
  · rintro ⟨hhead, htail⟩ i u hi
    cases i with
    | zero =>
      obtain rfl : t = u := Option.some.inj hi
      exact hhead
    | succ i => exact htail i u hi

theorem sequenceMatches_iff : sequenceMatches ahead ts = true ↔ Matches ahead ts := by
  induction ts generalizing ahead with
  | nil => exact ⟨fun _ => matches_nil, fun _ => rfl⟩
  | cons t ts ih => rw [sequenceMatches, Bool.and_eq_true, ih, matches_cons]

/-- Sequences that match the same tokens overlap. -/
theorem Matches.overlap (hs : Matches ahead ss) (ht : Matches ahead ts) : Overlap ss ts := by
  induction ss generalizing ahead ts with
  | nil => exact fun _ hp => nomatch hp
  | cons s ss ih =>
    cases ts with
    | nil => exact fun _ hp => nomatch hp
    | cons t ts =>
      obtain ⟨hs, hss⟩ := matches_cons.1 hs
      obtain ⟨ht, hts⟩ := matches_cons.1 ht
      intro p hp
      rw [List.zip_cons_cons] at hp
      rcases List.mem_cons.1 hp with rfl | hp
      · exact ⟨ahead 0, hs, ht⟩
      · exact ih hss hts p hp

/-! ### Alternatives -/

/-- The gate of the `i`-th alternative of a rule matches the tokens ahead. -/
def Rule.GateMatches (r : Rule) (ahead : Nat → Token) (i : Nat) : Prop :=
  ∃ a, r.alts[i]? = some a ∧ a.gate ≠ [] ∧ Matches ahead a.gate

/-- The `i`-th alternative of a rule has no gate, and begins with a sequence that matches the tokens
ahead. -/
def Rule.BodyMatches (r : Rule) (g : Grammar) (ahead : Nat → Token) (i : Nat) : Prop :=
  ∃ a, r.alts[i]? = some a ∧ a.gate = []
    ∧ ∃ ts, g.FirstSeq r.lookahead a.body ts ∧ Matches ahead ts

/-- Alternatives at different places of a list stand in a symmetric relation that holds pairwise. -/
theorem eq_of_pairwise {R : Alt → Alt → Prop} {alts : List Alt} (h : alts.Pairwise R) {i j : Nat}
    {a b : Alt} (hi : alts[i]? = some a) (hj : alts[j]? = some b) (hab : ¬ R a b) (hba : ¬ R b a) :
    i = j := by
  obtain ⟨hilt, rfl⟩ := List.getElem?_eq_some_iff.1 hi
  obtain ⟨hjlt, rfl⟩ := List.getElem?_eq_some_iff.1 hj
  rcases Nat.lt_trichotomy i j with hlt | heq | hlt
  · exact absurd (List.pairwise_iff_getElem.1 h i j hilt hjlt hlt) hab
  · exact heq
  · exact absurd (List.pairwise_iff_getElem.1 h j i hjlt hilt hlt) hba

variable {g : Grammar} {r : Rule} {i j : Nat}

theorem Rule.Unambiguous.gate_unique (h : r.Unambiguous g) (hi : r.GateMatches ahead i)
    (hj : r.GateMatches ahead j) : i = j := by
  obtain ⟨a, ha, hga, hma⟩ := hi
  obtain ⟨b, hb, hgb, hmb⟩ := hj
  exact eq_of_pairwise h.gatesApart ha hb (fun hab => hab hga hgb (hma.overlap hmb))
    (fun hba => hba hgb hga (hmb.overlap hma))

theorem Rule.Unambiguous.body_unique (h : r.Unambiguous g) (hi : r.BodyMatches g ahead i)
    (hj : r.BodyMatches g ahead j) : i = j := by
  obtain ⟨a, ha, hga, ss, hss, hma⟩ := hi
  obtain ⟨b, hb, hgb, ts, hts, hmb⟩ := hj
  exact eq_of_pairwise h.apart ha hb (fun hab => hab hga hgb ss ts hss hts (hma.overlap hmb))
    (fun hba => hba hgb hga ts ss hts hss (hmb.overlap hma))

/-! ### Choosing -/

/-- What a choice selects: a gate that matches, or else a sequence that does. -/
theorem Choice.predict_cases (c : Choice) (ahead : Nat → Token) :
    (∃ p ∈ c.gates, Matches ahead p.sequence ∧ c.predict ahead = some p.alt)
      ∨ (∀ p ∈ c.gates, ¬ Matches ahead p.sequence)
        ∧ ((∃ p ∈ c.ungated, Matches ahead p.sequence ∧ c.predict ahead = some p.alt)
          ∨ (∀ p ∈ c.ungated, ¬ Matches ahead p.sequence) ∧ c.predict ahead = none) := by
  unfold Choice.predict
  simp only [List.partition_eq_filter_filter]
  cases hgate : c.gates.find? fun p => sequenceMatches ahead p.sequence with
  | some p =>
    have hfit := List.find?_some hgate
    exact .inl ⟨p, List.mem_of_find?_eq_some hgate, sequenceMatches_iff.1 hfit, rfl⟩
  | none =>
    refine .inr ⟨fun p hp hm => List.find?_eq_none.1 hgate p hp (sequenceMatches_iff.2 hm), ?_⟩
    cases hlook : (c.ungated.filter (not ∘ fun p => p.sequence.isEmpty)).find?
        fun p => sequenceMatches ahead p.sequence with
    | some p =>
      have hfit := List.find?_some hlook
      have hmem := List.mem_of_find?_eq_some hlook
      exact .inl ⟨p, List.mem_of_mem_filter hmem, sequenceMatches_iff.1 hfit, rfl⟩
    | none =>
      cases halways : (c.ungated.filter fun p => p.sequence.isEmpty).head? with
      | some p =>
        have hmem := List.mem_of_mem_head? (Option.mem_def.2 halways)
        have hnil : p.sequence = [] := List.isEmpty_iff.1 (List.mem_filter.1 hmem).2
        exact .inl ⟨p, List.mem_of_mem_filter hmem, hnil ▸ matches_nil, rfl⟩
      | none =>
        refine .inr ⟨fun p hp hm => ?_, rfl⟩
        by_cases hnil : p.sequence.isEmpty = true
        · have hin : p ∈ c.ungated.filter fun p => p.sequence.isEmpty :=
            List.mem_filter.2 ⟨hp, hnil⟩
          rw [List.head?_eq_none_iff.1 halways] at hin
          cases hin
        · have hin : p ∈ c.ungated.filter (not ∘ fun p => p.sequence.isEmpty) :=
            List.mem_filter.2 ⟨hp, by simpa using hnil⟩
          exact List.find?_eq_none.1 hlook p hin (sequenceMatches_iff.2 hm)

variable {c : Choice}

theorem RuleCompiled.gateMatches_iff (h : RuleCompiled g r c) : r.GateMatches ahead i
    ↔ ∃ p ∈ c.gates, p.alt = i ∧ Matches ahead p.sequence := by
  constructor
  · rintro ⟨a, ha, hne, hm⟩
    exact ⟨⟨i, a.gate⟩, (h.gates _).2 ⟨a, ha, hne, rfl⟩, rfl, hm⟩
  · rintro ⟨p, hp, rfl, hm⟩
    obtain ⟨a, ha, hne, hseq⟩ := (h.gates p).1 hp
    exact ⟨a, ha, hne, hseq ▸ hm⟩

theorem RuleCompiled.bodyMatches_iff (h : RuleCompiled g r c) : r.BodyMatches g ahead i
    ↔ ∃ p ∈ c.ungated, p.alt = i ∧ Matches ahead p.sequence := by
  constructor
  · rintro ⟨a, ha, hnil, ts, hts, hm⟩
    exact ⟨⟨i, ts⟩, (h.ungated _).2 ⟨a, ha, hnil, hts⟩, rfl, hm⟩
  · rintro ⟨p, hp, rfl, hm⟩
    obtain ⟨a, ha, hnil, hts⟩ := (h.ungated p).1 hp
    exact ⟨a, ha, hnil, p.sequence, hts, hm⟩

/-- What the choice of a rule selects, by the alternatives of the rule. -/
theorem RuleCompiled.predict_cases (h : RuleCompiled g r c) (ahead : Nat → Token) :
    (∃ i, r.GateMatches ahead i ∧ c.predict ahead = some i)
      ∨ (∀ i, ¬ r.GateMatches ahead i)
        ∧ ((∃ i, r.BodyMatches g ahead i ∧ c.predict ahead = some i)
          ∨ (∀ i, ¬ r.BodyMatches g ahead i) ∧ c.predict ahead = none) := by
  simp only [h.gateMatches_iff, h.bodyMatches_iff]
  rcases c.predict_cases ahead with ⟨p, hp, hm, hsome⟩ | ⟨hgate, hrest⟩
  · exact .inl ⟨p.alt, ⟨p, hp, rfl, hm⟩, hsome⟩
  · refine .inr ⟨fun i ⟨p, hp, _, hm⟩ => hgate p hp hm, ?_⟩
    rcases hrest with ⟨p, hp, hm, hsome⟩ | ⟨hbody, hnone⟩
    · exact .inl ⟨p.alt, ⟨p, hp, rfl, hm⟩, hsome⟩
    · exact .inr ⟨fun i ⟨p, hp, _, hm⟩ => hbody p hp hm, hnone⟩

/-- With unique matches the choice is the alternative that matches, gates first. -/
theorem RuleCompiled.predict_eq_some_iff (h : RuleCompiled g r c) (hr : r.Unambiguous g) :
    c.predict ahead = some i ↔
      r.GateMatches ahead i ∨ (∀ j, ¬ r.GateMatches ahead j) ∧ r.BodyMatches g ahead i := by
  rcases h.predict_cases ahead with ⟨j, hj, hsome⟩ | ⟨hgate, ⟨j, hj, hsome⟩ | ⟨hbody, hnone⟩⟩
  · rw [hsome, Option.some.injEq]
    constructor
    · rintro rfl
      exact .inl hj
    · rintro (hi | ⟨hno, -⟩)
      · exact hr.gate_unique hj hi
      · exact absurd hj (hno j)
  · rw [hsome, Option.some.injEq]
    constructor
    · rintro rfl
      exact .inr ⟨hgate, hj⟩
    · rintro (hi | ⟨-, hi⟩)
      · exact absurd hi (hgate i)
      · exact hr.body_unique hj hi
  · rw [hnone]
    constructor
    · rintro ⟨⟩
    · rintro (hi | ⟨-, hi⟩)
      · exact absurd hi (hgate i)
      · exact absurd hi (hbody i)

theorem RuleCompiled.predict_eq_none_iff (h : RuleCompiled g r c) : c.predict ahead = none ↔
    (∀ i, ¬ r.GateMatches ahead i) ∧ ∀ i, ¬ r.BodyMatches g ahead i := by
  rcases h.predict_cases ahead with ⟨j, hj, hsome⟩ | ⟨hgate, ⟨j, hj, hsome⟩ | ⟨hbody, hnone⟩⟩
  · rw [hsome]
    exact ⟨fun heq => (nomatch heq), fun hno => absurd hj (hno.1 j)⟩
  · rw [hsome]
    exact ⟨fun heq => (nomatch heq), fun hno => absurd hj (hno.2 j)⟩
  · exact ⟨fun _ => ⟨hgate, hbody⟩, fun _ => hnone⟩

/-- A token begins a rule when some alternative writes a term first that accepts it. -/
theorem RuleCompiled.starts_iff (h : RuleCompiled g r c) (hunique : (g.rules.map Rule.name).Nodup)
    (hr : r ∈ g.rules) {tok : Token} : c.starts tok = true ↔ ∃ a ∈ r.alts, ∃ n t ts left,
      g.Leftmost n a.body (t :: ts) left ∧ t.accepts tok = true := by
  have hstarter : ∀ t, t ∈ c.starters ↔ ∃ a ∈ r.alts, ∃ n left, g.Leftmost n a.body [t] left := by
    intro t
    rw [h.starters, first_ref (by decide)]
    constructor
    · rintro ⟨r', hr', hname, a, ha, n, left, hexp, -⟩
      obtain rfl := List.inj_on_of_nodup_map hunique hr' hr hname
      exact ⟨a, ha, n, left, hexp⟩
    · rintro ⟨a, ha, n, left, hexp⟩
      exact ⟨r, hr, rfl, a, ha, n, left, hexp, .inl rfl⟩
  rw [Choice.starts, List.any_eq_true]
  constructor
  · rintro ⟨t, ht, haccepts⟩
    obtain ⟨a, ha, n, left, hexp⟩ := (hstarter t).1 ht
    exact ⟨a, ha, n, t, [], left, hexp, haccepts⟩
  · rintro ⟨a, ha, n, t, ts, left, hexp, haccepts⟩
    obtain ⟨m, left', hexp⟩ := hexp.front (List.prefix_append [t] ts)
    exact ⟨t, (hstarter t).2 ⟨a, ha, m, left', hexp⟩, haccepts⟩

/-- The choice found for the name of a rule is the one of the rule. -/
theorem findChoice?_of_compiled {rules : List Rule} {choices : List Choice}
    (h : List.Forall₂ (RuleCompiled g) rules choices) (hunique : (rules.map Rule.name).Nodup)
    (hr : r ∈ rules) : ∃ c, findChoice? choices r.name = some c ∧ RuleCompiled g r c := by
  induction h with
  | nil => cases hr
  | @cons r' c rules choices hc _ ih =>
    rw [List.map_cons, List.nodup_cons] at hunique
    rcases List.mem_cons.1 hr with rfl | hr
    · exact ⟨c, List.find?_cons_of_pos (by rw [hc.rule, beq_self_eq_true]), hc⟩
    · obtain ⟨c', hfind, hc'⟩ := ih hunique.2 hr
      refine ⟨c', ?_, hc'⟩
      rw [findChoice?, List.find?_cons_of_neg]
      · exact hfind
      · rw [hc.rule, beq_iff_eq]
        exact fun heq => hunique.1 (List.mem_map.2 ⟨r, hr, heq.symm⟩)

/-- Prediction is unambiguous and complete: in a table that compiles, at most one gate of a rule
and at most one alternative without a gate match the tokens ahead; the choice is the one whose gate
matches, or else the one that begins with what is there, or none when there is neither; and a token
can begin the rule exactly when some alternative writes a term first that accepts it. -/
theorem predict_of_compile {choices : List Choice} (hspelled : ∀ t ∈ g.terms, t.Spelled)
    (hcompile : g.compile = .ok choices) (hr : r ∈ g.rules) :
    ∃ c, findChoice? choices r.name = some c ∧ c.rule = r
      ∧ (∀ ahead : Nat → Token,
          (∀ i j, r.GateMatches ahead i → r.GateMatches ahead j → i = j)
            ∧ (∀ i j, r.BodyMatches g ahead i → r.BodyMatches g ahead j → i = j)
            ∧ (∀ i, c.predict ahead = some i ↔
                r.GateMatches ahead i ∨ (∀ j, ¬ r.GateMatches ahead j) ∧ r.BodyMatches g ahead i)
            ∧ (c.predict ahead = none ↔
                (∀ i, ¬ r.GateMatches ahead i) ∧ ∀ i, ¬ r.BodyMatches g ahead i))
      ∧ ∀ tok, c.starts tok = true ↔ ∃ a ∈ r.alts, ∃ n t ts left,
          g.Leftmost n a.body (t :: ts) left ∧ t.accepts tok = true := by
  have hwf := wellFormed_of_compile hspelled hcompile
  obtain ⟨choices', hok, hall⟩ := compile_of_wellFormed hspelled hwf
  obtain rfl : choices = choices' := Except.ok.inj (hcompile.symm.trans hok)
  obtain ⟨c, hfind, hc⟩ := findChoice?_of_compiled hall hwf.unique hr
  have hunambiguous := hwf.unambiguous r hr
  refine ⟨c, hfind, hc.rule, fun ahead => ⟨?_, ?_, ?_, hc.predict_eq_none_iff⟩, fun tok => ?_⟩
  · exact fun i j => hunambiguous.gate_unique
  · exact fun i j => hunambiguous.body_unique
  · exact fun i => hc.predict_eq_some_iff hunambiguous
  · exact hc.starts_iff hwf.unique hr

/-- Wherever the words and dots that introduce printing are ahead, the rule for statements selects
its second alternative. -/
theorem predict_print : ∃ choices c, javaGrammar.compile = .ok choices
    ∧ findChoice? choices "statement" = some c
    ∧ ∀ ahead, Matches ahead [.word "System", .token .dot, .word "out", .token .dot] →
        c.predict ahead = some 1 := by
  obtain ⟨choices, hcompile⟩ := compile_javaGrammar
  obtain ⟨c, hfind, -, hpredict, -⟩ := predict_of_compile (r := javaGrammar.rules[9])
    spelled_javaGrammar hcompile (List.getElem_mem _)
  refine ⟨choices, c, hcompile, hfind, fun ahead hahead => ?_⟩
  obtain ⟨-, -, hsome, -⟩ := hpredict ahead
  exact (hsome 1).2 (.inl ⟨_, rfl, List.cons_ne_nil _ _, hahead⟩)

end JavaPrimer
