import JavaPrimer.Proofs.CompiledTable
import Mathlib.Order.Filter.AtTopBot.Basic

/-!
# Exact lookahead sequences

In a grammar that compiles, what is worked out for a rule is what the rule begins with, each
sequence once, and it is the same list in the same order whatever was worked out before.

A set does not say in which order it was found, so the last part needs a reading of rules without a
memory: rules are unfolded to a depth, and below it they have no sequences. What a survey works out
without recording a problem is what the rule has at every depth from some one on. So an entry that
is known stands for the same set as working it out again.

* `SeqSet.Distinct`, `SeqSet.Short` — sets without repetition, and sets of short sequences;
* `Grammar.unfolded`, `Grammar.Settles` — rules without a memory, and what they have in the end;
* `Survey.Right` — surveys whose entries are that;
* `Unwinds` — computations that do the same without a memory, with `Unwinds.bind`;
* `Compatible` — relations between computations that are kept when sets are put together;
* `unwinds_body`, `unwinds_rule` — bodies and rules;
* `Grammar.surveyAfter` — a survey after some questions;
* `first_exact` — the sequences of a rule.
-/

namespace JavaPrimer

open Grammar

/-! ### Sets -/

namespace SeqSet

/-- No sequence is in a set twice, because the key of each is there. -/
structure Distinct (s : SeqSet) : Prop where
  keyed : ∀ ts ∈ s.newestFirst, s.keys.contains (keyOf ts) = true
  nodup : s.newestFirst.Nodup

/-- No sequence of a set is longer than a budget. -/
def Short (s : SeqSet) (k : Int) : Prop := ∀ ts ∈ s.seqs, (ts.length : Int) ≤ k

variable {s : SeqSet} {ts us : List Term} {tss : List (List Term)} {k : Int}

theorem Distinct.empty : SeqSet.empty.Distinct := ⟨fun _ h => (nomatch h), List.nodup_nil⟩

theorem Distinct.add (h : s.Distinct) (ts : List Term) : (s.add ts).Distinct := by
  unfold SeqSet.add
  show (if s.keys.contains (keyOf ts) = true then s else _).Distinct
  split
  · exact h
  · next hnew =>
    refine ⟨fun us hus => ?_, List.nodup_cons.2 ⟨fun hmem => hnew (h.keyed ts hmem), h.nodup⟩⟩
    rw [Std.TreeSet.contains_iff_mem, Std.TreeSet.mem_insert]
    rcases List.mem_cons.1 hus with rfl | hus
    · exact .inl Std.ReflCmp.compare_self
    · exact .inr (Std.TreeSet.contains_iff_mem.1 (h.keyed us hus))

theorem Distinct.addAll (h : s.Distinct) (tss : List (List Term)) : (s.addAll tss).Distinct := by
  induction tss generalizing s with
  | nil => exact h
  | cons ts tss ih => exact ih (h.add ts)

theorem mem_of_mem_add (h : us ∈ (s.add ts).seqs) : us ∈ s.seqs ∨ us = ts := by
  unfold add at h
  dsimp only at h
  split at h
  · exact .inl h
  · rw [seqs, List.reverse_cons, List.mem_append, List.mem_singleton] at h
    exact h

theorem Short.empty : SeqSet.empty.Short k := fun _ h => nomatch h

theorem Short.add (h : s.Short k) (hts : (ts.length : Int) ≤ k) : (s.add ts).Short k := by
  intro us hus
  rcases mem_of_mem_add hus with hus | rfl
  · exact h us hus
  · exact hts

theorem Short.addAll (h : s.Short k) (htss : ∀ ts ∈ tss, (ts.length : Int) ≤ k) :
    (s.addAll tss).Short k := by
  induction tss generalizing s with
  | nil => exact h
  | cons ts tss ih =>
    obtain ⟨hts, htss⟩ := List.forall_mem_cons.1 htss
    exact ih (h.add hts) htss

theorem Short.addNil (h : s.Short k) (hk : 0 ≤ k) : (s.add []).Short k :=
  h.add (by rwa [List.length_nil])

theorem Short.one (hk : 0 ≤ k) : (SeqSet.ofList [[]]).Short k := Short.empty.addNil hk

theorem Short.single (hk : 0 < k) (t : Term) : (SeqSet.ofList [[t]]).Short k :=
  Short.empty.add (by rw [List.length_singleton]; omega)

end SeqSet

/-- The sequences of alternatives are put into a set. -/
theorem distinct_firstOfAlts (rule : Text → Int → Surveying SeqSet) (k : Int) {alts : List Alt}
    {out : SeqSet} (hout : out.Distinct) (s : Survey) :
    (firstOfAlts rule k alts out s).1.Distinct := by
  induction alts generalizing out s with
  | nil => exact hout
  | cons a alts ih => exact ih (hout.addAll _) _

/-! ### Rules without a memory -/

/-- The sequences of a rule with rules unfolded to a depth; nothing is kept, and a rule below that
depth has no sequence. -/
def Grammar.unfolded (g : Grammar) : Nat → Text → Int → SeqSet
  | 0, _, _ => .empty
  | n + 1, name, k => match g.find? name with
    | none => .empty
    | some r => (firstOfAlts (fun t j => pure (g.unfolded n t j)) k r.alts .empty {}).1

/-- The rules unfolded to a depth, for the computations that ask for rules. -/
def Grammar.unfolding (g : Grammar) (n : Nat) (name : Text) (k : Int) : Surveying SeqSet :=
  pure (g.unfolded n name k)

/-- A rule has these sequences at every depth from some one on. -/
def Grammar.Settles (g : Grammar) (name : Text) (k : Int) (out : SeqSet) : Prop :=
  ∀ᶠ n in Filter.atTop, g.unfolded n name k = out

theorem Grammar.Settles.unique {g : Grammar} {name : Text} {k : Int} {out out' : SeqSet}
    (h : g.Settles name k out) (h' : g.Settles name k out') : out = out' := by
  obtain ⟨n, hn, hn'⟩ := (h.and h').exists
  exact hn.symm.trans hn'

/-- Entries are short, and as long as nothing is recorded they are what their rules have in the
end. -/
structure Survey.Right (g : Grammar) (s : Survey) : Prop where
  short : ∀ {name k found}, ((name, k), found) ∈ s.known → found.Short k
  settled : s.problems = [] → ∀ {name k found}, ((name, k), found) ∈ s.known →
    g.Settles name k found

theorem Survey.Right.start (g : Grammar) : Survey.Right g {} :=
  ⟨fun h => (nomatch h), fun _ _ _ _ h => (nomatch h)⟩

/-! ### Computations -/

/-- From a right survey a computation leaves a right one and a value with `Q`; as long as nothing is
recorded, the same computation without a memory gives that value at every depth from some one on. -/
def Unwinds (g : Grammar) (active : List (Text × Int)) {α : Type} (Q : α → Prop) (m : Surveying α)
    (p : Nat → Surveying α) : Prop :=
  ∀ s, s.active = active → s.Right g →
    s.problems <+: (m s).2.problems ∧ (m s).2.active = active ∧ (m s).2.Right g ∧ Q (m s).1
      ∧ ((m s).2.problems = [] → ∀ᶠ n in Filter.atTop, p n = pure (m s).1)

section Unwinding

variable {g : Grammar} {active : List (Text × Int)} {α β : Type} {Q : α → Prop} {R : β → Prop}

theorem Unwinds.pure {a : α} (h : Q a) :
    Unwinds g active Q (Pure.pure a) (fun _ => Pure.pure a) :=
  fun _ hactive hright =>
    ⟨List.prefix_refl _, hactive, hright, h, fun _ => Filter.Eventually.of_forall fun _ => rfl⟩

theorem Unwinds.bind {m : Surveying α} {p : Nat → Surveying α} {f : α → Surveying β}
    {f' : Nat → α → Surveying β} (hm : Unwinds g active Q m p)
    (hf : ∀ a, Q a → Unwinds g active R (f a) (fun n => f' n a)) :
    Unwinds g active R (m >>= f) (fun n => p n >>= f' n) := by
  intro s hactive hright
  obtain ⟨hgrows, hactive', hright', hQ, hsame⟩ := hm s hactive hright
  obtain ⟨hgrows', hactive'', hright'', hR, hsame'⟩ := hf (m s).1 hQ (m s).2 hactive' hright'
  refine ⟨hgrows.trans hgrows', hactive'', hright'', hR, fun hclean => ?_⟩
  have hclean' : (m s).2.problems = [] := List.prefix_nil.1 (hclean ▸ hgrows')
  -- each part is right at its own depths, so both are at every depth from the larger one on
  filter_upwards [hsame hclean', hsame' hclean] with n hn hn'
  rw [hn, pure_bind]
  exact hn'

end Unwinding

/-! ### Sets put together -/

/-- The sets of several things in order, added to those given. -/
def gather {ι : Type} (set : ι → Surveying SeqSet) : List ι → SeqSet → Surveying SeqSet
  | [], out => pure out
  | x :: rest, out => do
    let more ← set x
    gather set rest (out.addAll more.seqs)

theorem firstOfAny_eq_gather (rule : Text → Int → Surveying SeqSet) (k : Int) (items : List Elem)
    (out : SeqSet) : firstOfAny rule items out k = gather (fun e => e.first rule k) items out := by
  induction items generalizing out with
  | nil => simp only [firstOfAny, gather]
  | cons e items ih => simp only [firstOfAny, gather, ih]

theorem firstOfAlts_eq_gather (rule : Text → Int → Surveying SeqSet) (k : Int) (alts : List Alt)
    (out : SeqSet) :
    firstOfAlts rule k alts out = gather (fun a => firstOfBody rule a.body k) alts out := by
  induction alts generalizing out with
  | nil => rfl
  | cons a alts ih => simp only [firstOfAlts, gather, ih]

/-- Relations between a computation and a family of computations that values and binds keep. -/
structure Compatible {κ : Type}
    (J : (SeqSet → Prop) → Surveying SeqSet → (κ → Surveying SeqSet) → Prop) : Prop where
  pure : ∀ {Q : SeqSet → Prop} {a : SeqSet}, Q a → J Q (Pure.pure a) fun _ => Pure.pure a
  bind : ∀ {Q R : SeqSet → Prop} {m : Surveying SeqSet} {p : κ → Surveying SeqSet}
    {f : SeqSet → Surveying SeqSet} {f' : κ → SeqSet → Surveying SeqSet}, J Q m p →
      (∀ a, Q a → J R (f a) fun n => f' n a) → J R (m >>= f) fun n => p n >>= f' n

namespace Compatible

variable {κ : Type} {J : (SeqSet → Prop) → Surveying SeqSet → (κ → Surveying SeqSet) → Prop}
  {k : Int} {out : SeqSet}

/-- Heads extended with related tails are related. -/
theorem extendAll (hJ : Compatible J) {more : Int → Surveying SeqSet}
    {more' : κ → Int → Surveying SeqSet} {heads : List (List Term)}
    (hlen : ∀ h ∈ heads, (h.length : Int) ≤ k)
    (hmore : ∀ h ∈ heads, (h.length : Int) < k → J (SeqSet.Short · (k - h.length))
      (more (k - h.length)) fun n => more' n (k - h.length)) (hout : out.Short k) :
    J (SeqSet.Short · k) (JavaPrimer.extendAll k more heads out)
      fun n => JavaPrimer.extendAll k (more' n) heads out := by
  induction heads generalizing out with
  | nil => exact hJ.pure hout
  | cons h heads ih =>
    obtain ⟨hle, hlen⟩ := List.forall_mem_cons.1 hlen
    obtain ⟨hfirst, hmore⟩ := List.forall_mem_cons.1 hmore
    simp only [JavaPrimer.extendAll]
    by_cases hfull : (h.length : Int) = k
    · simp only [if_pos hfull]
      exact ih hlen hmore (hout.add hle)
    · simp only [if_neg hfull]
      refine hJ.bind (hfirst (Int.lt_iff_le_and_ne.2 ⟨hle, hfull⟩)) fun tails htails => ?_
      refine ih hlen hmore (hout.addAll fun ts hts => ?_)
      obtain ⟨vs, hvs, rfl⟩ := List.mem_map.1 hts
      have := htails vs hvs
      rw [List.length_append, Int.natCast_add]
      omega

/-- Gathered sets are related when each of them is. -/
theorem gather (hJ : Compatible J) {ι : Type} {Q : SeqSet → Prop}
    (hadd : ∀ {s t : SeqSet}, Q s → Q t → Q (s.addAll t.seqs)) {set : ι → Surveying SeqSet}
    {set' : κ → ι → Surveying SeqSet} {xs : List ι}
    (hxs : ∀ x ∈ xs, J Q (set x) fun n => set' n x) (hout : Q out) :
    J Q (JavaPrimer.gather set xs out) fun n => JavaPrimer.gather (set' n) xs out := by
  induction xs generalizing out with
  | nil => exact hJ.pure hout
  | cons x xs ih =>
    obtain ⟨hx, hxs⟩ := List.forall_mem_cons.1 hxs
    exact hJ.bind hx fun more hmore => ih hxs (hadd hout hmore)

end Compatible

theorem Unwinds.compatible (g : Grammar) (active : List (Text × Int)) :
    Compatible fun Q m p => Unwinds g active Q m p :=
  ⟨Unwinds.pure, Unwinds.bind⟩

/-! ### Bodies -/

section Bodies

variable {g : Grammar} {active : List (Text × Int)} {K k : Int}
  {rule : Text → Int → Surveying SeqSet}

/-- The rules give what they have without a memory, for every budget up to `K`. -/
def RulesUnwind (g : Grammar) (active : List (Text × Int)) (K : Int)
    (rule : Text → Int → Surveying SeqSet) : Prop :=
  ∀ name k, 0 < k → k ≤ K →
    Unwinds g active (SeqSet.Short · k) (rule name k) (fun n => g.unfolding n name k)

/-- An element gives what it has without a memory, for every budget up to `K`. -/
def Elem.Unwound (g : Grammar) (active : List (Text × Int)) (K : Int)
    (rule : Text → Int → Surveying SeqSet) (e : Elem) : Prop :=
  ∀ k, 0 < k → k ≤ K →
    Unwinds g active (SeqSet.Short · k) (e.first rule k)
      (fun n => e.first (g.unfolding n) k)

theorem unwinds_body {es : List Elem} (hes : ∀ e ∈ es, e.Unwound g active K rule) :
    ∀ {k : Int}, 0 ≤ k → k ≤ K → Unwinds g active (SeqSet.Short · k) (firstOfBody rule es k)
      (fun n => firstOfBody (g.unfolding n) es k) := by
  induction es with
  | nil =>
    intro k hk _
    simp only [firstOfBody]
    exact Unwinds.pure (SeqSet.Short.one hk)
  | cons e es ih =>
    intro k hk hK
    obtain ⟨he, hes⟩ := List.forall_mem_cons.1 hes
    simp only [firstOfBody]
    by_cases hzero : k = 0
    · simp only [if_pos hzero]
      exact Unwinds.pure (SeqSet.Short.one hk)
    · simp only [if_neg hzero]
      refine (he k (by omega) hK).bind fun heads hheads => ?_
      exact (Unwinds.compatible g active).extendAll hheads
        (fun h _ hlt => ih hes (by omega) (by omega)) SeqSet.Short.empty

theorem unwinds_many {items : List Elem} (hes : ∀ e ∈ items, e.Unwound g active K rule) {m : Nat} :
    ∀ {k : Int}, 0 ≤ k → k ≤ K → Unwinds g active (SeqSet.Short · k)
      (firstOfMany (fun j => firstOfBody rule items j) m k)
      (fun n => firstOfMany (fun j => firstOfBody (g.unfolding n) items j) m k) := by
  induction m with
  | zero => exact fun hk _ => Unwinds.pure (SeqSet.Short.one hk)
  | succ m ih =>
    intro k hk hK
    simp only [firstOfMany]
    refine (unwinds_body hes hk hK).bind fun heads hheads => ?_
    exact (Unwinds.compatible g active).extendAll
      (fun h hh => hheads h (List.mem_of_mem_filter hh))
      (fun h _ hlt => ih (by omega) (by omega)) (SeqSet.Short.one hk)

theorem Elem.unwinds (hrule : RulesUnwind g active K rule) (e : Elem) :
    e.Unwound g active K rule := by
  induction e using Elem.byItems with
  | term t =>
    intro k hpos _
    simp only [Elem.first]
    exact Unwinds.pure (SeqSet.Short.single hpos t)
  | ref name =>
    intro k hpos hK
    simp only [Elem.first]
    exact hrule name k hpos hK
  | seq items ih =>
    intro k hpos hK
    simp only [Elem.first]
    exact unwinds_body ih (Int.le_of_lt hpos) hK
  | opt items ih =>
    intro k hpos hK
    simp only [Elem.first]
    refine (unwinds_body ih (Int.le_of_lt hpos) hK).bind fun found hfound => ?_
    exact Unwinds.pure (hfound.addNil (Int.le_of_lt hpos))
  | many items ih =>
    intro k hpos hK
    simp only [Elem.first]
    exact unwinds_many ih (Int.le_of_lt hpos) hK
  | oneOf items ih =>
    intro k hpos hK
    simp only [Elem.first, firstOfAny_eq_gather]
    exact (Unwinds.compatible g active).gather SeqSet.Short.addAll
      (fun e he => ih e he k hpos hK) SeqSet.Short.empty

theorem unwinds_alts (hrule : RulesUnwind g active K rule) (hk : 0 ≤ k) (hK : k ≤ K)
    {alts : List Alt} {out : SeqSet} (hout : out.Short k) :
    Unwinds g active (SeqSet.Short · k) (firstOfAlts rule k alts out)
      (fun n => firstOfAlts (g.unfolding n) k alts out) := by
  simp only [firstOfAlts_eq_gather]
  exact (Unwinds.compatible g active).gather SeqSet.Short.addAll
    (fun a _ => unwinds_body (fun e _ => e.unwinds hrule) hk hK) hout

end Bodies

/-! ### Rules -/

section RulesOfGrammar

variable {g : Grammar} {active : List (Text × Int)} {K k : Int} {name : Text}

theorem Survey.Right.complain {s : Survey} (h : s.Right g) (p : GrammarProblem) :
    (s.complain p).Right g :=
  ⟨h.short, fun hclean => absurd hclean (s.problems_complain_ne_nil p)⟩

theorem Survey.Right.enter {s : Survey} (h : s.Right g) (key : Text × Int) :
    (s.enter key).Right g :=
  ⟨h.short, h.settled⟩

theorem Survey.Right.leave {s : Survey} {found : SeqSet} (h : s.Right g) (hshort : found.Short k)
    (hsettles : s.problems = [] → g.Settles name k found) : (s.leave (name, k) found).Right g where
  short hmem := by
    rcases List.mem_cons.1 hmem with heq | hmem
    · cases heq
      exact hshort
    · exact h.short hmem
  settled hclean _ _ _ hmem := by
    rcases List.mem_cons.1 hmem with heq | hmem
    · cases heq
      exact hsettles hclean
    · exact h.settled hclean hmem

theorem settles_of_undefined (hfind : g.find? name = none) : g.Settles name k .empty := by
  refine Filter.Eventually.of_forall fun n => ?_
  cases n with
  | zero => rfl
  | succ n => rw [Grammar.unfolded, hfind]

/-- A rule has what its alternatives have one depth less. -/
theorem settles_of_alts {r : Rule} {found : SeqSet} (hfind : g.find? name = some r)
    (halts : ∀ᶠ n in Filter.atTop, firstOfAlts (g.unfolding n) k r.alts .empty = pure found) :
    g.Settles name k found := by
  obtain ⟨m, hm⟩ := Filter.eventually_atTop.1 halts
  refine Filter.eventually_atTop.2 ⟨m + 1, fun n hn => ?_⟩
  obtain ⟨n, rfl⟩ := Nat.exists_eq_succ_of_ne_zero (show n ≠ 0 by omega)
  have hvalue : firstOfAlts (fun t j => pure (g.unfolded n t j)) k r.alts .empty = pure found :=
    hm n (by omega)
  rw [Grammar.unfolded, hfind]
  dsimp only
  rw [hvalue]
  rfl

/-- A rule, once those that it may look into give what they have without a memory. -/
theorem unwinds_rule_succ {n : Nat} (hk : 0 ≤ k) (hK : k ≤ K)
    (hrule : g.Defines name → (name, k) ∉ active →
      RulesUnwind g ((name, k) :: active) K (firstOfRuleWithin g n)) :
    Unwinds g active (SeqSet.Short · k) (firstOfRuleWithin g (n + 1) name k)
      (fun n => g.unfolding n name k) := by
  intro s hactive hright
  have hunfolding : ∀ {found : SeqSet}, g.Settles name k found →
      ∀ᶠ n in Filter.atTop, g.unfolding n name k = pure found :=
    fun h => h.mono fun n hn => by rw [Grammar.unfolding, hn]
  rw [firstOfRuleWithin_succ]
  cases hlookup : s.known.lookup (name, k) with
  | some found =>
    have hmem := knows_of_lookup hlookup
    exact ⟨List.prefix_refl _, hactive, hright, hright.short hmem,
      fun hclean => hunfolding (hright.settled hclean hmem)⟩
  | none =>
  cases hfind : g.find? name with
  | none =>
    exact ⟨List.prefix_refl _, hactive, hright, SeqSet.Short.empty,
      fun _ => hunfolding (settles_of_undefined hfind)⟩
  | some r =>
  dsimp only
  split
  · -- a rule that is met again is recorded, and then nothing is said about its sequences
    exact ⟨List.prefix_append _ _, hactive, hright.complain _, SeqSet.Short.empty,
      fun hclean => absurd hclean (s.problems_complain_ne_nil _)⟩
  · next hfirst =>
    have hnew : (name, k) ∉ active :=
      fun hmem => hfirst (List.contains_iff_mem.2 (hactive ▸ hmem))
    have hdef : g.Defines name :=
      ⟨r, List.mem_of_find?_eq_some hfind, by simpa using List.find?_some hfind⟩
    obtain ⟨hgrows, hactive', hright', hshort, hsame⟩ :=
      unwinds_alts (hrule hdef hnew) hk hK SeqSet.Short.empty (s.enter (name, k))
        (congrArg _ hactive) (hright.enter (name, k))
    refine ⟨hgrows, ?_, hright'.leave hshort fun hclean => settles_of_alts hfind (hsame hclean),
      hshort, fun hclean => hunfolding (settles_of_alts hfind (hsame hclean))⟩
    show (firstOfAlts _ k r.alts .empty (s.enter (name, k))).2.active.erase (name, k) = active
    rw [hactive', List.erase_cons_head]

theorem unwinds_rule {n : Nat} (hroom : Room g K n active) :
    RulesUnwind g active K (firstOfRuleWithin g n) := by
  induction n generalizing active with
  | zero => exact absurd hroom not_room_zero
  | succ n ih =>
    intro name k hpos hK
    exact unwinds_rule_succ (Int.le_of_lt hpos) hK
      fun hdef hnew => ih (hroom.enter hdef hpos hK hnew)

/-- A rule that is asked about while none is being looked into. -/
theorem unwinds_firstOfRule (g : Grammar) (name : Text) (hk : 0 ≤ k) :
    Unwinds g [] (SeqSet.Short · k) (firstOfRule g name k) (fun n => g.unfolding n name k) := by
  rcases Int.lt_or_eq_of_le hk with hpos | rfl
  · exact unwinds_rule (room_start g k) name k hpos (Int.le_refl k)
  · -- with no budget no rule is looked into
    refine unwinds_rule_succ hk (Int.le_refl 0) fun _ _ name k hpos hK => ?_
    exact absurd hpos (Int.not_lt.2 hK)

end RulesOfGrammar

/-- What is worked out from scratch has nothing twice. -/
theorem distinct_firstOfRule (g : Grammar) (name : Text) (k : Int) :
    (firstOfRule g name k {}).1.Distinct := by
  rw [firstOfRule, firstOfRuleWithin_succ]
  cases g.find? name with
  | none => exact SeqSet.Distinct.empty
  | some r => exact distinct_firstOfAlts _ k SeqSet.Distinct.empty _

/-! ### One question after another -/

/-- A survey while no rule is being looked into. -/
structure Survey.Idle (g : Grammar) (s : Survey) : Prop where
  active : s.active = []
  ok : s.Ok g
  right : s.Right g

theorem Survey.Idle.start (g : Grammar) : Survey.Idle g {} := ⟨rfl, Survey.Ok.start, .start g⟩

section Questions

variable {g : Grammar} {s : Survey} {name : Text} {k : Int}

theorem firstOfBody_zero (rule : Text → Int → Surveying SeqSet) (items : List Elem) :
    firstOfBody rule items 0 = pure (.ofList [[]]) := by
  cases items <;> simp only [firstOfBody, if_true]

theorem firstOfAlts_zero (rule : Text → Int → Surveying SeqSet) (alts : List Alt) (out : SeqSet) :
    firstOfAlts rule 0 alts out = pure (out.addAll (alts.map fun _ => [])) := by
  induction alts generalizing out with
  | nil => rfl
  | cons a alts ih =>
    rw [firstOfAlts, firstOfBody_zero, pure_bind, ih]
    rfl

/-- Without a budget a rule has the empty sequence, and nothing else is looked into. -/
theorem Survey.Ok.firstOfRule_zero (hwf : g.WellFormed) (hactive : s.active = []) (hok : s.Ok g) :
    (firstOfRule g name 0 s).2.Ok g := by
  rw [firstOfRule, firstOfRuleWithin_succ]
  cases hlookup : s.known.lookup (name, 0) with
  | some found => exact hok
  | none =>
  cases hfind : g.find? name with
  | none => exact hok
  | some r =>
  have hr := List.mem_of_find?_eq_some hfind
  dsimp only
  rw [hactive, if_neg (by simp), firstOfAlts_zero]
  have hfound : Found g [.ref name] 0 (SeqSet.empty.addAll (r.alts.map fun _ => [])) s := by
    have hempty : ∀ ts, ts ∈ r.alts.map (fun _ => ([] : List Term)) ↔ ts = [] := by
      intro ts
      rw [List.map_const', List.mem_replicate]
      exact and_iff_right (mt List.length_eq_zero_iff.1 (hwf.shapely r hr).choice)
    have hspelled : ∀ ts ∈ r.alts.map (fun _ => ([] : List Term)), ∀ t ∈ ts, t.Spelled := by
      intro ts hts t ht
      rw [(hempty ts).1 hts] at ht
      cases ht
    refine (Collected.empty.addAll hspelled).describe (fun ts hts => ?_) (fun _ ts hts => ?_)
      fun _ key hkey => absurd hkey.1 (Int.lt_irrefl 0)
    · exact first_zero.2 ((hempty ts).1 (hts.resolve_left id))
    · exact .inr ((hempty ts).2 (first_zero.1 hts))
  have hgrows : s.Grows ((s.enter (name, 0)).leave (name, 0)
      (SeqSet.empty.addAll (r.alts.map fun _ => []))) :=
    ⟨List.prefix_refl _, List.suffix_cons _ _⟩
  refine ⟨fun hmem => ?_, fun _ _ _ _ ⟨q, hq, hname, hreach⟩ => ?_, hok.recorded,
    fun key hkey => ?_⟩
  · rcases List.mem_cons.1 hmem with heq | hmem
    · cases heq
      exact hfound.grows hgrows
    · exact (hok.entries hmem).grows hgrows
  · exact hwf.straight q hq ⟨q, hq, rfl, hname ▸ hreach⟩
  · have hkey : key ∈ ((name, 0) :: s.active).erase (name, 0) := hkey
    rw [hactive, List.erase_cons_head] at hkey
    cases hkey

/-- A question leaves a survey that can be asked again. -/
theorem Survey.Idle.asked (hwf : g.WellFormed) (hspelled : ∀ t ∈ g.terms, t.Spelled)
    (h : s.Idle g) (name : Text) (hk : 0 ≤ k) : (firstOfRule g name k s).2.Idle g := by
  obtain ⟨-, hactive, hright, -⟩ := unwinds_firstOfRule g name hk s h.active h.right
  refine ⟨hactive, ?_, hright⟩
  rcases Int.lt_or_eq_of_le hk with hpos | rfl
  · exact (surveys_firstOfRule hwf.unique hspelled name hpos s h.active h.ok trivial).2.2.1
  · exact h.ok.firstOfRule_zero hwf h.active

theorem Survey.Idle.clean (h : s.Idle g) (hwf : g.WellFormed) : s.problems = [] :=
  h.ok.clean hwf.straight

/-- The answer to a question is the same for every survey. -/
theorem Survey.Idle.settles (hwf : g.WellFormed) (hspelled : ∀ t ∈ g.terms, t.Spelled)
    (h : s.Idle g) (name : Text) (hk : 0 ≤ k) : g.Settles name k (firstOfRule g name k s).1 := by
  obtain ⟨-, -, -, -, hsame⟩ := unwinds_firstOfRule g name hk s h.active h.right
  refine (hsame ((h.asked hwf hspelled name hk).clean hwf)).mono fun n hn => ?_
  exact congrArg Prod.fst (congrFun hn {})

end Questions

/-- The survey after rules were asked about, each with a budget. -/
def Grammar.surveyAfter (g : Grammar) (asked : List (Text × Int)) : Survey :=
  asked.foldl (fun s q => (firstOfRule g q.1 q.2 s).2) {}

theorem idle_surveyAfter {g : Grammar} (hwf : g.WellFormed) (hspelled : ∀ t ∈ g.terms, t.Spelled)
    {asked : List (Text × Int)} (hasked : ∀ q ∈ asked, 0 ≤ q.2) : (g.surveyAfter asked).Idle g := by
  have hfold : ∀ s : Survey, s.Idle g →
      (asked.foldl (fun s q => (firstOfRule g q.1 q.2 s).2) s).Idle g := by
    induction asked with
    | nil => exact fun s h => h
    | cons q asked ih =>
      obtain ⟨hq, hasked⟩ := List.forall_mem_cons.1 hasked
      exact fun s h => ih hasked _ (h.asked hwf hspelled q.1 hq)
  exact hfold {} (.start g)

/-- The lookahead sequences of a rule are exact. In a grammar that compiles, asking for the
sequences of a rule records no problem and gives each sequence that the rule begins with once; and
whatever rules and budgets were asked about before, it gives the same sequences in the same
order. -/
theorem first_exact {g : Grammar} (hspelled : ∀ t ∈ g.terms, t.Spelled) {choices : List Choice}
    (hcompile : g.compile = .ok choices) (name : Text) {k : Int} (hk : 1 ≤ k) :
    (g.first name k).2 = []
      ∧ (g.first name k).1.Nodup
      ∧ (∀ ts, ts ∈ (g.first name k).1 ↔ g.FirstSeq k [.ref name] ts)
      ∧ ∀ asked : List (Text × Int), (∀ q ∈ asked, 0 ≤ q.2) →
          (firstOfRule g name k (g.surveyAfter asked)).1.seqs = (g.first name k).1
            ∧ (firstOfRule g name k (g.surveyAfter asked)).2.problems = [] := by
  have hwf := wellFormed_of_compile hspelled hcompile
  have hstart := Survey.Idle.start g
  have hk₀ : 0 ≤ k := Int.le_trans (by decide) hk
  have hclean := (hstart.asked hwf hspelled name hk₀).clean hwf
  obtain ⟨-, -, -, hfound⟩ := surveys_firstOfRule hwf.unique hspelled name
    (Int.lt_of_lt_of_le (by decide) hk) {} rfl Survey.Ok.start trivial
  refine ⟨hclean, ?_, fun ts => ⟨hfound.sound ts, hfound.complete hclean ts⟩,
    fun asked hasked => ?_⟩
  · exact List.nodup_reverse.2 (distinct_firstOfRule g name k).nodup
  · have hidle := idle_surveyAfter hwf hspelled hasked
    have hsame := (hidle.settles hwf hspelled name hk₀).unique
      (hstart.settles hwf hspelled name hk₀)
    exact ⟨congrArg SeqSet.seqs hsame, (hidle.asked hwf hspelled name hk₀).clean hwf⟩

/-- The two tokens that tell a cast from a parenthesis, asked for after those of a whole program. -/
theorem first_exact_cast : (javaGrammar.first "castOrPrimary" 2).1.Nodup
    ∧ (∀ ts, ts ∈ (javaGrammar.first "castOrPrimary" 2).1
        ↔ javaGrammar.FirstSeq 2 [.ref "castOrPrimary"] ts)
    ∧ (firstOfRule javaGrammar "castOrPrimary" 2 (javaGrammar.surveyAfter [("program", 4)])).1.seqs
        = (javaGrammar.first "castOrPrimary" 2).1 := by
  obtain ⟨choices, hcompile⟩ := compile_javaGrammar
  obtain ⟨-, hnodup, hexact, hsame⟩ :=
    first_exact spelled_javaGrammar hcompile "castOrPrimary" (k := 2) (by decide)
  exact ⟨hnodup, hexact, (hsame [("program", 4)] (by simp)).1⟩

end JavaPrimer
