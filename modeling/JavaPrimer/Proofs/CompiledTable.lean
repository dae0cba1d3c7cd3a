import JavaPrimer.Grammar.Java
import JavaPrimer.Proofs.Surveying
import JavaPrimer.Proofs.WellFormedGrammar

/-!
# What a table compiles to

Compiling works through the alternatives of every rule with one survey. As long as the survey
records nothing, what it gives for an alternative is what the alternative begins with, so the
problems found are the ways in which the grammar fails to be well-formed.

* `AltsClear` — no alternative of a list can be chosen together with another or with those before;
* `AltsCompiled`, `RuleCompiled` — what compiling leaves for alternatives and for a rule;
* `surveys_compileAlts`, `surveys_compileRule`, `surveys_compileRules` — and that it does;
* `compile_cases`, `compile_of_wellFormed` — a grammar compiles when it is well-formed, and then to
  what it should;
* `validate_decides` — validation decides the specification.
-/

namespace JavaPrimer

open Grammar

/-! ### Alternatives -/

/-- The alternatives of a list cannot be chosen together with one another or with what was put
into a choice before them, and their gates can match. -/
structure AltsClear (g : Grammar) (k : Int) (c : Choice) (alts : List Alt) : Prop where
  fresh : ∀ a ∈ alts, a.gate = [] → ∀ p ∈ c.ungated, ∀ ts, g.FirstSeq k a.body ts →
    ¬ Overlap p.sequence ts
  apart : alts.Pairwise (Alt.Apart g k)
  gatesFresh : ∀ a ∈ alts, a.gate ≠ [] → ∀ p ∈ c.gates, ¬ Overlap p.sequence a.gate
  gatesApart : alts.Pairwise Alt.GatesApart
  gatesAlive : ∀ a ∈ alts, a.GateAlive g

/-- What working through alternatives, the first of them being the `i`-th, leaves of a choice and
of problems. -/
structure AltsCompiled (g : Grammar) (k : Int) (i : Nat) (alts : List Alt) (c : Choice)
    (out : Choice × List GrammarProblem) : Prop where
  rule : out.1.rule = c.rule
  ungated : ∀ p, p ∈ out.1.ungated ↔ p ∈ c.ungated ∨ ∃ j a, alts[j]? = some a ∧ a.gate = []
    ∧ p.alt = i + j ∧ g.FirstSeq k a.body p.sequence
  gates : ∀ p, p ∈ out.1.gates ↔ p ∈ c.gates ∨ ∃ j a, alts[j]? = some a ∧ a.gate ≠ []
    ∧ p = ⟨i + j, a.gate⟩
  problems : out.2 = [] ↔ AltsClear g k c alts

section Alternatives

variable {g : Grammar} {k : Int} {c : Choice} {a : Alt} {alts : List Alt}

/-- An alternative without a gate in front of others: its sequences join those before. -/
theorem altsClear_cons_ungated (hgate : a.gate = []) (added : List Prediction)
    (hadded : ∀ ts, g.FirstSeq k a.body ts ↔ ∃ p ∈ added, p.sequence = ts) :
    AltsClear g k c (a :: alts) ↔
      (∀ p ∈ c.ungated, ∀ ts, g.FirstSeq k a.body ts → ¬ Overlap p.sequence ts)
        ∧ AltsClear g k { c with ungated := c.ungated ++ added } alts := by
  constructor
  · intro h
    obtain ⟨hfresh, hfreshs⟩ := List.forall_mem_cons.1 h.fresh
    obtain ⟨hapart, haparts⟩ := List.pairwise_cons.1 h.apart
    refine ⟨hfresh hgate, ⟨fun b hb hgb p hp ts hts => ?_, haparts,
      (List.forall_mem_cons.1 h.gatesFresh).2, (List.pairwise_cons.1 h.gatesApart).2,
      (List.forall_mem_cons.1 h.gatesAlive).2⟩⟩
    rcases List.mem_append.1 hp with hp | hp
    · exact hfreshs b hb hgb p hp ts hts
    · exact hapart b hb hgate hgb _ ts ((hadded _).2 ⟨p, hp, rfl⟩) hts
  · rintro ⟨hfresh, h⟩
    refine ⟨List.forall_mem_cons.2 ⟨fun _ => hfresh, fun b hb hgb p hp => ?_⟩,
      List.pairwise_cons.2 ⟨fun b hb _ hgb ss ts hss hts => ?_, h.apart⟩,
      List.forall_mem_cons.2 ⟨fun hne => absurd hgate hne, h.gatesFresh⟩,
      List.pairwise_cons.2 ⟨fun b _ hne => absurd hgate hne, h.gatesApart⟩,
      List.forall_mem_cons.2 ⟨fun hne => absurd hgate hne, h.gatesAlive⟩⟩
    · exact h.fresh b hb hgb p (List.mem_append_left _ hp)
    · obtain ⟨p, hp, rfl⟩ := (hadded ss).1 hss
      exact h.fresh b hb hgb p (List.mem_append_right _ hp) ts hts

/-- An alternative with a gate in front of others: its gate joins those before. -/
theorem altsClear_cons_gated (hgate : a.gate ≠ []) (i : Nat) :
    AltsClear g k c (a :: alts) ↔
      (a.GateAlive g ∧ ∀ p ∈ c.gates, ¬ Overlap p.sequence a.gate)
        ∧ AltsClear g k { c with gates := c.gates ++ [⟨i, a.gate⟩] } alts := by
  constructor
  · intro h
    obtain ⟨hfresh, hfreshs⟩ := List.forall_mem_cons.1 h.gatesFresh
    obtain ⟨hapart, haparts⟩ := List.pairwise_cons.1 h.gatesApart
    obtain ⟨halive, halives⟩ := List.forall_mem_cons.1 h.gatesAlive
    refine ⟨⟨halive, hfresh hgate⟩, ⟨(List.forall_mem_cons.1 h.fresh).2,
      (List.pairwise_cons.1 h.apart).2, fun b hb hgb p hp => ?_, haparts, halives⟩⟩
    rcases List.mem_append.1 hp with hp | hp
    · exact hfreshs b hb hgb p hp
    · rw [List.mem_singleton.1 hp]
      exact hapart b hb hgate hgb
  · rintro ⟨⟨halive, hfresh⟩, h⟩
    refine ⟨List.forall_mem_cons.2 ⟨fun heq => absurd heq hgate, h.fresh⟩,
      List.pairwise_cons.2 ⟨fun b _ heq => absurd heq hgate, h.apart⟩,
      List.forall_mem_cons.2 ⟨fun _ => hfresh, fun b hb hgb p hp => ?_⟩,
      List.pairwise_cons.2 ⟨fun b hb _ hgb => ?_, h.gatesApart⟩,
      List.forall_mem_cons.2 ⟨halive, h.gatesAlive⟩⟩
    · exact h.gatesFresh b hb hgb p (List.mem_append_left _ hp)
    · exact h.gatesFresh b hb hgb ⟨i, a.gate⟩ (List.mem_append_right _ (List.mem_singleton.2 rfl))

theorem sequenceProblems_eq_nil_iff {r : Rule} {before : List Prediction}
    {firsts : List (List Term)} : sequenceProblems r a before firsts = [] ↔
      ∀ p ∈ before, ∀ ts ∈ firsts, ¬ Overlap p.sequence ts := by
  simp only [sequenceProblems, List.flatMap_eq_nil_iff, List.map_eq_nil_iff,
    List.filter_eq_nil_iff, sequencesOverlap_iff]
  exact ⟨fun h p hp ts hts => h ts hts p hp, fun h ts hts p hp => h p hp ts hts⟩

theorem gateProblems_eq_nil_iff {r : Rule} {before : List Prediction}
    {firsts : List (List Term)} : gateProblems r a before firsts = [] ↔
      (∃ ts ∈ firsts, ts.length = a.gate.length ∧ Overlap ts a.gate)
        ∧ ∀ p ∈ before, ¬ Overlap p.sequence a.gate := by
  rw [gateProblems, List.append_eq_nil_iff, List.map_eq_nil_iff, List.filter_eq_nil_iff,
    ← gateCanMatch_iff]
  refine and_congr ?_ (forall₂_congr fun p _ => not_congr sequencesOverlap_iff)
  split <;> simp [*]

/-- An alternative moved from the front of a list to the place before it. -/
theorem exists_getElem?_cons {P : Nat → Alt → Prop} {i : Nat} :
    (∃ j b, (a :: alts)[j]? = some b ∧ P (i + j) b)
      ↔ P i a ∨ ∃ j b, alts[j]? = some b ∧ P (i + 1 + j) b := by
  constructor
  · rintro ⟨j, b, hj, hP⟩
    cases j with
    | zero =>
      rw [List.getElem?_cons_zero, Option.some.injEq] at hj
      exact .inl (hj ▸ hP)
    | succ j =>
      rw [List.getElem?_cons_succ] at hj
      exact .inr ⟨j, b, hj, by rwa [Nat.add_right_comm, Nat.add_assoc]⟩
  · rintro (hP | ⟨j, b, hj, hP⟩)
    · exact ⟨0, a, rfl, hP⟩
    · exact ⟨j + 1, b, hj, by rwa [← Nat.add_assoc, Nat.add_right_comm]⟩

end Alternatives

section Compiling

variable {g : Grammar}

theorem surveys_compileAlts (hnodup : (g.rules.map Rule.name).Nodup)
    (hspelled : ∀ t ∈ g.terms, t.Spelled) (r : Rule) (hk : 0 ≤ r.lookahead)
    (alts : List Alt) : (∀ a ∈ alts, Elem.termsOf a.body ⊆ g.terms) → ∀ {i : Nat} {c : Choice},
      Surveys g [] (fun _ => True) (compileAlts g r i alts c)
        (fun out s => s.problems = [] → AltsCompiled g r.lookahead i alts c out) := by
  induction alts with
  | nil =>
    intro _ i c
    refine Surveys.pure fun s _ _ => ⟨rfl, fun p => ?_, fun p => ?_, ?_⟩
    · simp
    · simp
    · exact ⟨fun _ => ⟨fun _ h => (nomatch h), .nil, fun _ h => (nomatch h), .nil,
        fun _ h => (nomatch h)⟩, fun _ => rfl⟩
  | cons a alts ih =>
    intro hterms i c
    obtain ⟨ha, halts⟩ := List.forall_mem_cons.1 hterms
    rw [compileAlts]
    split
    · next hempty =>
      have hgate : a.gate = [] := List.isEmpty_iff.1 hempty
      refine (surveys_firstOf hnodup hspelled hk ha).bind fun firsts => ?_
      have hrest := (ih halts (i := i + 1)
        (c := { c with ungated := c.ungated ++ firsts.seqs.map (Prediction.mk i) })).keep
        (K := Found g a.body r.lookahead firsts) fun hg hc => hc.grows hg
      refine (hrest.mono (fun s h => ⟨trivial, h⟩) fun _ _ h => h).bind fun out => ?_
      refine Surveys.pure fun s hs hclean => ?_
      obtain ⟨hrest, hfound⟩ := hs
      have hout := hrest hclean
      have hfirst : ∀ ts, ts ∈ firsts.seqs ↔ g.FirstSeq r.lookahead a.body ts :=
        fun ts => ⟨hfound.sound ts, hfound.complete hclean ts⟩
      have hadded : ∀ p, p ∈ firsts.seqs.map (Prediction.mk i)
          ↔ p.alt = i ∧ g.FirstSeq r.lookahead a.body p.sequence := by
        rintro ⟨j, ts⟩
        simp only [List.mem_map, hfirst, Prediction.mk.injEq]
        exact ⟨fun ⟨us, hus, hi, hts⟩ => ⟨hi.symm, hts ▸ hus⟩, fun ⟨hi, hts⟩ => ⟨ts, hts, hi.symm, rfl⟩⟩
      refine ⟨hout.rule, fun p => ?_, fun p => ?_, ?_⟩
      · rw [hout.ungated, List.mem_append, hadded, or_assoc, exists_getElem?_cons
          (P := fun j b => b.gate = [] ∧ p.alt = j ∧ g.FirstSeq r.lookahead b.body p.sequence)]
        simp only [hgate, true_and]
      · rw [hout.gates, exists_getElem?_cons (P := fun j b => b.gate ≠ [] ∧ p = ⟨j, b.gate⟩)]
        simp only [hgate, ne_eq, not_true_eq_false, false_and, false_or]
      · rw [List.append_eq_nil_iff, sequenceProblems_eq_nil_iff, hout.problems,
          altsClear_cons_ungated hgate (firsts.seqs.map (Prediction.mk i))]
        · simp only [hfirst]
        · intro ts
          constructor
          · exact fun hts => ⟨⟨i, ts⟩, (hadded _).2 ⟨rfl, hts⟩, rfl⟩
          · rintro ⟨p, hp, rfl⟩
            exact ((hadded p).1 hp).2
    · next hnonempty =>
      have hgate : a.gate ≠ [] := fun heq => hnonempty (List.isEmpty_iff.2 heq)
      refine (surveys_firstOf hnodup hspelled (Int.natCast_nonneg _) ha).bind fun firsts => ?_
      have hrest := (ih halts (i := i + 1)
        (c := { c with gates := c.gates ++ [⟨i, a.gate⟩] })).keep
        (K := Found g a.body a.gate.length firsts) fun hg hc => hc.grows hg
      refine (hrest.mono (fun s h => ⟨trivial, h⟩) fun _ _ h => h).bind fun out => ?_
      refine Surveys.pure fun s hs hclean => ?_
      obtain ⟨hrest, hfound⟩ := hs
      have hout := hrest hclean
      refine ⟨hout.rule, fun p => ?_, fun p => ?_, ?_⟩
      · rw [hout.ungated, exists_getElem?_cons
          (P := fun j b => b.gate = [] ∧ p.alt = j ∧ g.FirstSeq r.lookahead b.body p.sequence)]
        simp only [hgate, false_and, false_or]
      · rw [hout.gates, List.mem_append, List.mem_singleton, or_assoc,
          exists_getElem?_cons (P := fun j b => b.gate ≠ [] ∧ p = ⟨j, b.gate⟩)]
        simp only [hgate, ne_eq, not_false_eq_true, true_and]
      · have halive : (∃ ts ∈ firsts.seqs, ts.length = a.gate.length ∧ Overlap ts a.gate)
            ↔ a.GateAlive g :=
          ⟨fun ⟨ts, hts, hmatch⟩ _ => ⟨ts, hfound.sound ts hts, hmatch⟩,
            fun h => (h hgate).imp fun ts hts => ⟨hfound.complete hclean ts hts.1, hts.2⟩⟩
        rw [List.append_eq_nil_iff, gateProblems_eq_nil_iff, halive, hout.problems,
          altsClear_cons_gated hgate i]

/-- What compiling leaves for a rule. -/
structure RuleCompiled (g : Grammar) (r : Rule) (c : Choice) : Prop where
  rule : c.rule = r
  ungated : ∀ p, p ∈ c.ungated ↔ ∃ a, r.alts[p.alt]? = some a ∧ a.gate = []
    ∧ g.FirstSeq r.lookahead a.body p.sequence
  gates : ∀ p, p ∈ c.gates ↔ ∃ a, r.alts[p.alt]? = some a ∧ a.gate ≠ [] ∧ p.sequence = a.gate
  starters : ∀ t, t ∈ c.starters ↔ g.FirstSeq 1 [.ref r.name] [t]

theorem altsClear_nil_iff {r : Rule} :
    AltsClear g r.lookahead ⟨r, [], [], []⟩ r.alts ↔ r.Unambiguous g :=
  ⟨fun h => ⟨h.apart, h.gatesApart, h.gatesAlive⟩,
    fun h => ⟨fun _ _ _ _ hp => (nomatch hp), h.apart, fun _ _ _ _ hp => (nomatch hp),
      h.gatesApart, h.gatesAlive⟩⟩

theorem surveys_compileRule (hnodup : (g.rules.map Rule.name).Nodup)
    (hspelled : ∀ t ∈ g.terms, t.Spelled) {r : Rule} (hr : r ∈ g.rules) (hk : 0 ≤ r.lookahead) :
    Surveys g [] (fun _ => True) (compileRule g r) (fun out s => s.problems = [] →
      RuleCompiled g r out.1 ∧ (out.2 = [] ↔ r.Unambiguous g) ∧ s.Knows (r.name, 1)) := by
  have halts := surveys_compileAlts hnodup hspelled r hk r.alts
    (fun a ha => termsOf_subset_terms hr ha) (i := 0) (c := ⟨r, [], [], []⟩)
  unfold compileRule
  refine halts.bind fun out => ?_
  have hstarts := (surveys_firstOfRule hnodup hspelled r.name (k := 1) (by decide)).keep
    (K := fun s => s.problems = [] → AltsCompiled g r.lookahead 0 r.alts ⟨r, [], [], []⟩ out)
    fun hg hK hclean => hK (hg.clean hclean)
  refine (hstarts.mono (fun s h => ⟨trivial, h⟩) fun _ _ h => h).bind fun starts => ?_
  refine Surveys.pure fun s hs hclean => ?_
  obtain ⟨hstarts, hout⟩ := hs
  have hout := hout hclean
  refine ⟨⟨hout.rule, fun p => ?_, fun p => ?_, fun t => ?_⟩, ?_, ?_⟩
  · rw [hout.ungated]
    simp only [List.not_mem_nil, false_or, Nat.zero_add]
    constructor
    · rintro ⟨j, a, hj, hgate, rfl, hts⟩
      exact ⟨a, hj, hgate, hts⟩
    · rintro ⟨a, hj, hgate, hts⟩
      exact ⟨p.alt, a, hj, hgate, rfl, hts⟩
  · rw [hout.gates]
    simp only [List.not_mem_nil, false_or, Nat.zero_add]
    constructor
    · rintro ⟨j, a, hj, hgate, rfl⟩
      exact ⟨a, hj, hgate, rfl⟩
    · rintro ⟨a, hj, hgate, hseq⟩
      exact ⟨p.alt, a, hj, hgate, by rw [← hseq]⟩
  · -- a sequence of at most one term that has the term in it is the term alone
    show t ∈ starts.seqs.flatten ↔ _
    rw [List.mem_flatten]
    constructor
    · rintro ⟨ts, hts, ht⟩
      have hts := hstarts.sound ts hts
      have hlen := hts.length_le
      obtain ⟨u, rfl⟩ := List.length_eq_one_iff.1
        (show ts.length = 1 by have := List.length_pos_of_mem ht; omega)
      rwa [List.mem_singleton.1 ht]
    · exact fun h => ⟨[t], hstarts.complete hclean _ h, List.mem_singleton.2 rfl⟩
  · rw [hout.problems, altsClear_nil_iff]
  · exact hstarts.reached hclean (r.name, 1)
      ⟨by decide, rfl, reaches_ref.2 (.inl rfl), r, hr, rfl⟩

theorem surveys_compileRules (hnodup : (g.rules.map Rule.name).Nodup)
    (hspelled : ∀ t ∈ g.terms, t.Spelled) {rules : List Rule} :
    (∀ r ∈ rules, r ∈ g.rules ∧ 0 ≤ r.lookahead) →
      Surveys g [] (fun _ => True) (compileRules g rules) (fun out s => s.problems = [] →
        List.Forall₂ (RuleCompiled g) rules out.1 ∧ (out.2 = [] ↔ ∀ r ∈ rules, r.Unambiguous g)
          ∧ ∀ r ∈ rules, s.Knows (r.name, 1)) := by
  induction rules with
  | nil => exact fun _ => Surveys.pure fun _ _ _ =>
      ⟨.nil, ⟨fun _ _ h => (nomatch h), fun _ => rfl⟩, fun _ h => (nomatch h)⟩
  | cons r rules ih =>
    intro hrules
    obtain ⟨⟨hr, hk⟩, hrest⟩ := List.forall_mem_cons.1 hrules
    unfold compileRules
    refine (surveys_compileRule hnodup hspelled hr hk).bind fun out => ?_
    have hkeep := (ih hrest).keep
      (K := fun s => s.problems = [] →
        RuleCompiled g r out.1 ∧ (out.2 = [] ↔ r.Unambiguous g) ∧ s.Knows (r.name, 1))
      fun hg hK hclean =>
        have h := hK (hg.clean hclean)
        ⟨h.1, h.2.1, hg.knows h.2.2⟩
    refine (hkeep.mono (fun s h => ⟨trivial, h⟩) fun _ _ h => h).bind fun more => ?_
    refine Surveys.pure fun s hs hclean => ?_
    obtain ⟨hmore, hout⟩ := hs
    obtain ⟨hchoices, hproblems, hknown⟩ := hmore hclean
    obtain ⟨hchoice, hproblem, hknows⟩ := hout hclean
    refine ⟨.cons hchoice hchoices, ?_, List.forall_mem_cons.2 ⟨hknows, hknown⟩⟩
    rw [List.append_eq_nil_iff, hproblem, hproblems, List.forall_mem_cons]

/-! ### Tables -/

theorem distinct_ne_nil {ts : List Text} (h : ts ≠ []) : distinct ts ≠ [] := by
  have hgrow : ∀ (ts out : List Text), out ≠ [] →
      ts.foldl (fun out t => if out.contains t then out else out ++ [t]) out ≠ [] := by
    intro ts
    induction ts with
    | nil => exact fun out h => h
    | cons t ts ih =>
      intro out h
      refine ih _ ?_
      dsimp only
      split
      · exact h
      · exact List.append_ne_nil_of_left_ne_nil h _
  cases ts with
  | nil => exact absurd rfl h
  | cons t ts => exact hgrow ts [t] (List.cons_ne_nil _ _)

/-- A well-formed grammar compiles, rule by rule; any other is refused, with at least one
problem. -/
theorem compile_cases (hspelled : ∀ t ∈ g.terms, t.Spelled) :
    (g.WellFormed ∧ ∃ choices, g.compile = .ok choices
        ∧ List.Forall₂ (RuleCompiled g) g.rules choices)
      ∨ ¬ g.WellFormed ∧ ∃ problems, g.compile = .error problems ∧ problems ≠ [] := by
  unfold Grammar.compile
  dsimp only
  split
  · next hshape =>
    obtain ⟨hnodup, hshapely⟩ := shapeProblems_eq_nil_iff.1 (List.isEmpty_iff.1 hshape)
    obtain ⟨-, -, hok, hpost⟩ := surveys_compileRules hnodup hspelled
      (fun r hr => ⟨hr, by have := (hshapely r hr).budget; omega⟩) {} rfl Survey.Ok.start trivial
    split
    next choices problems s hrun =>
    have hrun : compileRules g g.rules {} = ((choices, problems), s) := hrun
    rw [hrun] at hok hpost
    split
    · next hall =>
      obtain ⟨hproblems, hclean⟩ := List.append_eq_nil_iff.1 (List.isEmpty_iff.1 hall)
      obtain ⟨hchoices, hunambiguous, hknown⟩ := hpost hclean
      exact .inl ⟨⟨hnodup, hshapely, fun r hr => hok.straight hclean (hknown r hr),
        hunambiguous.1 hproblems⟩, choices, rfl, hchoices⟩
    · next hall =>
      refine .inr ⟨fun hwf => hall (List.isEmpty_iff.2 ?_), _, rfl, distinct_ne_nil ?_⟩
      · have hclean := hok.clean hwf.straight
        rw [hclean, List.append_nil]
        exact (hpost hclean).2.1.2 hwf.unambiguous
      · exact fun heq => hall (List.isEmpty_iff.2 (List.map_eq_nil_iff.1 heq))
  · next hshape =>
    refine .inr ⟨fun hwf => hshape (List.isEmpty_iff.2 ?_), _, rfl, fun heq => ?_⟩
    · exact shapeProblems_eq_nil_iff.2 ⟨hwf.unique, hwf.shapely⟩
    · exact hshape (List.isEmpty_iff.2 (List.map_eq_nil_iff.1 heq))

/-- A well-formed grammar compiles, rule by rule. -/
theorem compile_of_wellFormed (hspelled : ∀ t ∈ g.terms, t.Spelled) (hwf : g.WellFormed) :
    ∃ choices, g.compile = .ok choices ∧ List.Forall₂ (RuleCompiled g) g.rules choices := by
  rcases compile_cases hspelled with ⟨-, h⟩ | ⟨hnot, -⟩
  · exact h
  · exact absurd hwf hnot

/-- A grammar that compiles is well-formed. -/
theorem wellFormed_of_compile (hspelled : ∀ t ∈ g.terms, t.Spelled) {choices : List Choice}
    (hcompile : g.compile = .ok choices) : g.WellFormed := by
  rcases compile_cases hspelled with ⟨hwf, -⟩ | ⟨-, problems, herror, -⟩
  · exact hwf
  · rw [hcompile] at herror
    cases herror

theorem validate_eq_nil_iff (hspelled : ∀ t ∈ g.terms, t.Spelled) :
    g.validate = [] ↔ g.WellFormed := by
  unfold Grammar.validate
  rcases compile_cases hspelled with ⟨hwf, _, hcompile, -⟩ | ⟨hnot, _, hcompile, hne⟩
  · rw [hcompile]
    exact ⟨fun _ => hwf, fun _ => rfl⟩
  · rw [hcompile]
    exact ⟨fun heq => absurd heq hne, fun hwf => absurd hwf hnot⟩

/-- The images of the table of the language are spelled like identifiers. -/
theorem spelled_javaGrammar : ∀ t ∈ javaGrammar.terms, t.Spelled := by decide +kernel

theorem valid_javaGrammar : javaGrammar.validate = [] := by decide +kernel

theorem compile_javaGrammar : ∃ choices, javaGrammar.compile = .ok choices := by
  obtain ⟨choices, hcompile, -⟩ := compile_of_wellFormed spelled_javaGrammar
    ((validate_eq_nil_iff spelled_javaGrammar).1 valid_javaGrammar)
  exact ⟨choices, hcompile⟩

end Compiling

/-- Validation decides the specification, for every grammar whose images are spelled like
identifiers; so its verdict depends neither on the order of the rules nor on that of the
alternatives. -/
theorem validate_decides {g : Grammar} (hspelled : ∀ t ∈ g.terms, t.Spelled) :
    (g.validate = [] ↔ g.WellFormed)
      ∧ ∀ g', g.Reordered g' → (g'.validate = [] ↔ g.validate = []) := by
  refine ⟨validate_eq_nil_iff hspelled, fun g' hreordered => ?_⟩
  have hspelled' : ∀ t ∈ g'.terms, t.Spelled :=
    fun t ht => hspelled t (hreordered.symm.terms_subset ht)
  rw [validate_eq_nil_iff hspelled', validate_eq_nil_iff hspelled, hreordered.wellFormed_iff]

/-- The table of the language is well-formed. -/
theorem wellFormed_javaGrammar : javaGrammar.WellFormed :=
  (validate_decides spelled_javaGrammar).1.1 valid_javaGrammar

end JavaPrimer
