import JavaPrimer.Proofs.ExactLookahead
import JavaPrimer.Proofs.Termination
import Mathlib.Data.Finset.Card

/-!
# Working out lookahead sequences ends

Bodies, elements, repetitions and rules ask one another for their sequences, and nothing gets
smaller on every way round: a rule goes on to bodies larger than the reference to it, and a
repetition asks for itself. Still no grammar can keep them going for ever. A rule is entered only
while it is not being looked into for the same budget, a repetition asks for itself with less of
the budget, and everything else asks for a part of itself.

To say so, each of the four is written as one round (`Grammar.round`) that leaves every further
question to whoever answers it, with no bound on how deep the questions go. The induction is on the
number of rules and budgets that may still be entered (`Grammar.unentered`), and inside it on the
element and on the budget.

* `Question`, `Query`, `Grammar.round` — one round of questions;
* `Grammar.answer` — what the functions answer, each with a bound taken from the budget;
* `Query.Fair` — what may be asked, with a budget that is not below zero;
* `Decides` — computations that questions decide at a finite depth, with `Decides.bind`;
* `decides_cons`, `decides_repeat`, `decides_lookInto` — one round of each kind;
* `decides_body`, `decides_many`, `Elem.decides`, `decides_rule` — the functions, for every bound
  that is large enough;
* `Grammar.decides_answer`, `Grammar.ends_answered` — every question;
* `Asks` — computations that ask finitely many questions, as compiling does;
* `Grammar.LookaheadEnds`, `lookahead_ends` — all about a grammar.
-/

namespace JavaPrimer

/-! ### Questions -/

/-- What is asked for while sequences are worked out. -/
inductive Question where
  /-- A list of elements, one after another. -/
  | body (items : List Elem)
  /-- One element. -/
  | elem (e : Elem)
  /-- Any number of rounds of a list of elements. -/
  | many (items : List Elem)
  /-- The rule with a name. -/
  | rule (name : Text)

/-- A question with a budget, asked of a survey. -/
structure Query where
  question : Question
  budget : Int
  survey : Survey

/-- Ways to answer: the set and the survey left. -/
abbrev Answering := Query → SeqSet × Survey

/-- A question as a part of a computation. -/
def Answering.ask (f : Answering) (q : Question) (k : Int) : Surveying SeqSet :=
  fun s => f ⟨q, k, s⟩

namespace Grammar

/-- One round: the answer to a question, with `ask` for the questions that it leads to. -/
def round (g : Grammar) (ask : Question → Int → Surveying SeqSet) :
    Question → Int → Surveying SeqSet
  | .body [], _ => pure (.ofList [[]])
  | .body (e :: rest), k =>
    if k = 0 then pure (.ofList [[]])
    else do
      let heads ← ask (.elem e) k
      extendAll k (ask (.body rest)) heads.seqs .empty
  | .elem (.term t), _ => pure (.ofList [[t]])
  | .elem (.ref name), k => ask (.rule name) k
  | .elem (.seq items), k => ask (.body items) k
  | .elem (.opt items), k => do
    let found ← ask (.body items) k
    return found.add []
  | .elem (.many items), k => ask (.many items) k
  | .elem (.oneOf items), k => gather (fun e => ask (.elem e) k) items .empty
  | .many items, k =>
    if k = 0 then pure (.ofList [[]])
    else do
      let heads ← ask (.body items) k
      extendAll k (ask (.many items)) (heads.seqs.filter (!·.isEmpty)) (.ofList [[]])
  | .rule name, k => g.lookInto name k fun r => gather (fun a => ask (.body a.body) k) r.alts .empty

/-- One round, for ways to answer. -/
def answering (g : Grammar) (f : Answering) : Answering :=
  fun x => g.round f.ask x.question x.budget x.survey

/-- What is worked out with a bound taken from the budget. -/
def answer (g : Grammar) : Question → Int → Surveying SeqSet
  | .body items, k => g.firstOf items k
  | .elem e, k => e.first (firstOfRuleWithin g (g.rules.length * (k.toNat + 1) + 1)) k
  | .many items, k => firstOfMany (fun j => firstOfBody
      (firstOfRuleWithin g (g.rules.length * (k.toNat + 1) + 1)) items j) (k.toNat + 1) k
  | .rule name, k => firstOfRule g name k

/-- What is worked out, as a way to answer. -/
def answered (g : Grammar) : Answering := fun x => g.answer x.question x.budget x.survey

end Grammar

/-! ### Fair questions -/

/-- No sequence of a set is longer than a budget, if there is one. -/
def SeqSet.Fits (s : SeqSet) (k : Int) : Prop := 0 < k → s.Short k

/-- A survey that may be asked: what it knows fits the budgets. -/
def Survey.Fair (s : Survey) : Prop := ∀ entry ∈ s.known, entry.2.Fits entry.1.2

/-- A question that may be asked, of a survey that may be: its budget is not below zero. One below
zero is never used up, and a repetition would go on for ever. -/
structure Query.Fair (x : Query) : Prop where
  budget : 0 ≤ x.budget
  survey : x.survey.Fair

theorem Survey.Fair.start : Survey.Fair {} := fun _ h => nomatch h

theorem Survey.Fair.leave {s : Survey} {name : Text} {k : Int} {found : SeqSet} (h : s.Fair)
    (hfound : found.Fits k) : (s.leave (name, k) found).Fair :=
  List.forall_mem_cons.2 ⟨hfound, h⟩

/-! ### Computations that questions decide -/

/-- From a fair survey with the rules `active` being looked into, a computation that asks questions
comes to what `m` does once they are followed to some depth, whatever the answers are below it; what
it leaves is a fair survey with the same rules being looked into, and a value with `Q`. -/
def Decides (g : Grammar) (active : List (Text × Int)) {α : Type} (Q : α → Prop)
    (p : Answering → Surveying α) (m : Surveying α) : Prop :=
  ∀ s, s.active = active → s.Fair →
    (m s).2.active = active ∧ (m s).2.Fair ∧ Q (m s).1
      ∧ ∀ᶠ n in Filter.atTop, ∀ beyond, p (g.answering^[n] beyond) s = m s

section Deciding

variable {g : Grammar} {active : List (Text × Int)} {α β : Type} {Q : α → Prop} {R : β → Prop}

theorem Decides.pure {a : α} (h : Q a) :
    Decides g active Q (fun _ => Pure.pure a) (Pure.pure a) :=
  fun _ hactive hfair => ⟨hactive, hfair, h, Filter.Eventually.of_forall fun _ _ => rfl⟩

theorem Decides.bind {p : Answering → Surveying α} {m : Surveying α}
    {p' : Answering → α → Surveying β} {next : α → Surveying β} (hm : Decides g active Q p m)
    (hnext : ∀ a, Q a → Decides g active R (fun f => p' f a) (next a)) :
    Decides g active R (fun f => p f >>= p' f) (m >>= next) := by
  intro s hactive hfair
  obtain ⟨hactive', hfair', hQ, hsame⟩ := hm s hactive hfair
  obtain ⟨hactive'', hfair'', hR, hsame'⟩ := hnext (m s).1 hQ (m s).2 hactive' hfair'
  refine ⟨hactive'', hfair'', hR, ?_⟩
  -- each part is decided at its own depth, so both are from the larger one on
  filter_upwards [hsame, hsame'] with n hn hn' beyond
  show p' _ (p _ s).1 (p _ s).2 = next (m s).1 (m s).2
  rw [hn beyond, hn' beyond]

theorem Decides.imp {p : Answering → Surveying α} {m : Surveying α} {Q' : α → Prop}
    (h : Decides g active Q p m) (hQ : ∀ a, Q a → Q' a) : Decides g active Q' p m := by
  intro s hactive hfair
  obtain ⟨hactive', hfair', hpost, hsame⟩ := h s hactive hfair
  exact ⟨hactive', hfair', hQ _ hpost, hsame⟩

/-- A question is decided one round deeper than what it leads to. -/
theorem Decides.ask {q : Question} {k : Int} {m : Surveying SeqSet} {Q : SeqSet → Prop}
    (h : Decides g active Q (fun f => g.round f.ask q k) m) :
    Decides g active Q (fun f => f.ask q k) m := by
  intro s hactive hfair
  obtain ⟨hactive', hfair', hQ, hsame⟩ := h s hactive hfair
  refine ⟨hactive', hfair', hQ, ?_⟩
  obtain ⟨d, hd⟩ := Filter.eventually_atTop.1 hsame
  refine Filter.eventually_atTop.2 ⟨d + 1, fun n hn beyond => ?_⟩
  obtain ⟨n, rfl⟩ := Nat.exists_eq_succ_of_ne_zero (show n ≠ 0 by omega)
  rw [Function.iterate_succ_apply']
  exact hd n (by omega) beyond

theorem Decides.compatible (g : Grammar) (active : List (Text × Int)) :
    Compatible fun Q m p => Decides g active Q p m :=
  ⟨Decides.pure, Decides.bind⟩

end Deciding

/-! ### One round of each kind -/

section Rounds

variable {g : Grammar} {active : List (Text × Int)} {k : Int}

theorem decides_extendAll {p : Answering → Int → Surveying SeqSet} {more : Int → Surveying SeqSet}
    {heads : List (List Term)} (hlen : ∀ h ∈ heads, (h.length : Int) ≤ k)
    (hmore : ∀ h ∈ heads, (h.length : Int) < k → Decides g active (SeqSet.Fits · (k - h.length))
      (fun f => p f (k - h.length)) (more (k - h.length)))
    {out : SeqSet} (hout : out.Short k) :
    Decides g active (SeqSet.Fits · k) (fun f => extendAll k (p f) heads out)
      (extendAll k more heads out) := by
  have hshort : Decides g active (SeqSet.Short · k) (fun f => extendAll k (p f) heads out)
      (extendAll k more heads out) :=
    (Decides.compatible g active).extendAll hlen
      (fun h hh hlt => (hmore h hh hlt).imp fun _ hfits => hfits (by omega)) hout
  exact hshort.imp fun _ hall _ => hall

theorem decides_gather {ι : Type} {p : Answering → ι → Surveying SeqSet}
    {set : ι → Surveying SeqSet} {xs : List ι}
    (hxs : ∀ x ∈ xs, Decides g active (SeqSet.Fits · k) (fun f => p f x) (set x)) :
    Decides g active (SeqSet.Fits · k) (fun f => gather (p f) xs .empty) (gather set xs .empty) :=
  (Decides.compatible g active).gather (fun hs ht hpos => (hs hpos).addAll (ht hpos)) hxs
    fun _ => SeqSet.Short.empty

/-- An element with others behind it. -/
theorem decides_cons {e : Elem} {rest : List Elem} {m : Surveying SeqSet}
    {more : Int → Surveying SeqSet} (hk : 0 < k)
    (he : Decides g active (SeqSet.Fits · k) (·.ask (.elem e) k) m)
    (hrest : ∀ j, 0 ≤ j → j ≤ k →
      Decides g active (SeqSet.Fits · j) (·.ask (.body rest) j) (more j)) :
    Decides g active (SeqSet.Fits · k) (fun f => g.round f.ask (.body (e :: rest)) k)
      (m >>= fun heads => extendAll k more heads.seqs .empty) := by
  simp only [Grammar.round, if_neg (Int.ne_of_gt hk)]
  refine he.bind fun heads hheads => ?_
  exact decides_extendAll (hheads hk) (fun h _ hlt => hrest _ (by omega) (by omega))
    SeqSet.Short.empty

/-- One round of a repetition, which uses up some of the budget, and the rounds behind it. -/
theorem decides_repeat {items : List Elem} {m : Surveying SeqSet} {more : Int → Surveying SeqSet}
    (hk : 0 < k) (hitems : Decides g active (SeqSet.Fits · k) (·.ask (.body items) k) m)
    (hmore : ∀ j, 0 ≤ j → j < k →
      Decides g active (SeqSet.Fits · j) (·.ask (.many items) j) (more j)) :
    Decides g active (SeqSet.Fits · k) (fun f => g.round f.ask (.many items) k)
      (m >>= fun heads => extendAll k more (heads.seqs.filter (!·.isEmpty)) (.ofList [[]])) := by
  simp only [Grammar.round, if_neg (Int.ne_of_gt hk)]
  refine hitems.bind fun heads hheads => ?_
  refine decides_extendAll (fun h hh => hheads hk h (List.mem_of_mem_filter hh))
    (fun h hh hlt => hmore _ (by omega) ?_) (SeqSet.Short.one (Int.le_of_lt hk))
  have hpos : h ≠ [] := by simpa using List.of_mem_filter hh
  have := List.length_pos_iff.2 hpos
  omega

/-- A rule, once its alternatives are decided while it is being looked into. -/
theorem decides_lookInto {name : Text} {p : Answering → Rule → Surveying SeqSet}
    {work : Rule → Surveying SeqSet} (hwork : ∀ r, g.find? name = some r → (name, k) ∉ active →
      Decides g ((name, k) :: active) (SeqSet.Fits · k) (fun f => p f r) (work r)) :
    Decides g active (SeqSet.Fits · k) (fun f => g.lookInto name k (p f))
      (g.lookInto name k work) := by
  intro s hactive hfair
  simp only [Grammar.lookInto_apply]
  cases hlookup : s.known.lookup (name, k) with
  | some found =>
    exact ⟨hactive, hfair, hfair _ (knows_of_lookup hlookup), .of_forall fun _ _ => rfl⟩
  | none =>
  cases hfind : g.find? name with
  | none => exact ⟨hactive, hfair, fun _ => SeqSet.Short.empty, .of_forall fun _ _ => rfl⟩
  | some r =>
  dsimp only
  by_cases hagain : s.active.contains (name, k) = true
  · -- a rule that is met again asks for nothing
    simp only [if_pos hagain]
    exact ⟨hactive, hfair, fun _ => SeqSet.Short.empty, .of_forall fun _ _ => trivial⟩
  · simp only [if_neg hagain]
    have hnew : (name, k) ∉ active :=
      fun hmem => hagain (List.contains_iff_mem.2 (hactive ▸ hmem))
    obtain ⟨hactive', hfair', hfits, hsame⟩ :=
      hwork r hfind hnew (s.enter (name, k)) (congrArg _ hactive) hfair
    refine ⟨?_, hfair'.leave hfits, hfits, ?_⟩
    · show (work r (s.enter (name, k))).2.active.erase (name, k) = active
      rw [hactive', List.erase_cons_head]
    · filter_upwards [hsame] with n hn beyond
      rw [hn beyond]

end Rounds

/-! ### The functions with their bounds -/

section Bounds

variable {g : Grammar} {active : List (Text × Int)} {K : Int} {rule : Text → Int → Surveying SeqSet}

/-- Rules are decided for every budget up to `K`. -/
def RulesDecided (g : Grammar) (active : List (Text × Int)) (K : Int)
    (rule : Text → Int → Surveying SeqSet) : Prop :=
  ∀ name k, 0 ≤ k → k ≤ K →
    Decides g active (SeqSet.Fits · k) (·.ask (.rule name) k) (rule name k)

/-- An element is decided for every budget up to `K`. -/
def Elem.Decided (g : Grammar) (active : List (Text × Int)) (K : Int)
    (rule : Text → Int → Surveying SeqSet) (e : Elem) : Prop :=
  ∀ k, 0 ≤ k → k ≤ K →
    Decides g active (SeqSet.Fits · k) (·.ask (.elem e) k) (e.first rule k)

theorem SeqSet.Fits.one {k : Int} : (SeqSet.ofList [[]]).Fits k :=
  fun hk => SeqSet.Short.one (Int.le_of_lt hk)

theorem decides_body {es : List Elem} (hes : ∀ e ∈ es, e.Decided g active K rule) :
    ∀ {k : Int}, 0 ≤ k → k ≤ K →
      Decides g active (SeqSet.Fits · k) (·.ask (.body es) k) (firstOfBody rule es k) := by
  induction es with
  | nil =>
    intro k _ _
    simp only [firstOfBody]
    exact Decides.ask (Decides.pure SeqSet.Fits.one)
  | cons e es ih =>
    intro k hk hK
    obtain ⟨he, hes⟩ := List.forall_mem_cons.1 hes
    apply Decides.ask
    simp only [firstOfBody]
    rcases Int.lt_or_eq_of_le hk with hpos | rfl
    · rw [if_neg (Int.ne_of_gt hpos)]
      exact decides_cons hpos (he k hk hK) fun j hj hjk => ih hes hj (by omega)
    · exact Decides.pure SeqSet.Fits.one

/-- A repetition is decided whenever its bound is larger than the budget. -/
theorem decides_many {items : List Elem} (hes : ∀ e ∈ items, e.Decided g active K rule) {m : Nat} :
    ∀ {k : Int}, 0 ≤ k → k ≤ K → k < m → Decides g active (SeqSet.Fits · k)
      (·.ask (.many items) k) (firstOfMany (fun j => firstOfBody rule items j) m k) := by
  induction m with
  | zero => exact fun hk _ hm => absurd hm (by omega)
  | succ m ih =>
    intro k hk hK hm
    apply Decides.ask
    rcases Int.lt_or_eq_of_le hk with hpos | rfl
    · exact decides_repeat hpos (decides_body hes hk hK) fun j hj hjk => ih hj (by omega) (by omega)
    · -- with no budget a body has the empty sequence only, and no round is added
      simp only [firstOfMany, firstOfBody_zero]
      exact Decides.pure SeqSet.Fits.one

theorem Elem.decides (hrule : RulesDecided g active K rule) (e : Elem) :
    e.Decided g active K rule := by
  induction e using Elem.byItems with
  | term t =>
    intro k _ _
    simp only [Elem.first]
    exact Decides.ask (Decides.pure fun hpos => SeqSet.Short.single hpos t)
  | ref name =>
    intro k hk hK
    simp only [Elem.first]
    exact Decides.ask (hrule name k hk hK)
  | seq items ih =>
    intro k hk hK
    simp only [Elem.first]
    exact Decides.ask (decides_body ih hk hK)
  | opt items ih =>
    intro k hk hK
    simp only [Elem.first]
    refine Decides.ask ((decides_body ih hk hK).bind fun found hfound => ?_)
    exact Decides.pure fun hpos => (hfound hpos).addNil hk
  | many items ih =>
    intro k hk hK
    simp only [Elem.first]
    exact Decides.ask (decides_many ih hk hK (by omega))
  | oneOf items ih =>
    intro k hk hK
    simp only [Elem.first, firstOfAny_eq_gather]
    exact Decides.ask (decides_gather fun e he => ih e he k hk hK)

end Bounds

/-! ### Rules -/

/-- The rules and budgets up to `K` that may still be entered. -/
def Grammar.unentered (g : Grammar) (K : Int) (active : List (Text × Int)) : Finset (Text × Int) :=
  ((g.rules.map Rule.name ×ˢ (List.range (K.toNat + 1)).map Int.ofNat).filter
    (· ∉ active)).toFinset

section RulesOfGrammar

variable {g : Grammar} {active : List (Text × Int)} {K k : Int}

theorem Grammar.mem_unentered {key : Text × Int} : key ∈ g.unentered K active ↔
    (∃ r ∈ g.rules, r.name = key.1) ∧ (∃ j < K.toNat + 1, Int.ofNat j = key.2) ∧ key ∉ active := by
  obtain ⟨name, k⟩ := key
  simp only [unentered, List.mem_toFinset, List.mem_filter, List.mem_product, List.mem_map,
    List.mem_range, decide_eq_true_eq, and_assoc]

theorem Grammar.card_unentered_lt (g : Grammar) (K : Int) (active : List (Text × Int)) :
    (g.unentered K active).card < g.rules.length * (K.toNat + 1) + 1 := by
  have hlength : (g.rules.map Rule.name ×ˢ (List.range (K.toNat + 1)).map Int.ofNat).length
      = g.rules.length * (K.toNat + 1) := by
    rw [List.length_product, List.length_map, List.length_map, List.length_range]
  rw [Nat.lt_succ_iff, ← hlength]
  exact (List.toFinset_card_le _).trans (List.length_filter_le _ _)

/-- Entering a rule leaves fewer to enter. -/
theorem Grammar.card_unentered_enter {name : Text} {r : Rule} (hfind : g.find? name = some r)
    (hk : 0 ≤ k) (hK : k ≤ K) (hnew : (name, k) ∉ active) :
    (g.unentered K ((name, k) :: active)).card < (g.unentered K active).card := by
  have hname : r.name = name := by simpa using List.find?_some hfind
  have hmem : (name, k) ∈ g.unentered K active :=
    mem_unentered.2 ⟨⟨r, List.mem_of_find?_eq_some hfind, hname⟩,
      ⟨k.toNat, by omega, Int.toNat_of_nonneg hk⟩, hnew⟩
  have hsub : g.unentered K ((name, k) :: active) ⊆ g.unentered K active := by
    intro key hkey
    obtain ⟨hrule, hbudget, hleft⟩ := mem_unentered.1 hkey
    exact mem_unentered.2 ⟨hrule, hbudget, fun hactive => hleft (List.mem_cons_of_mem _ hactive)⟩
  refine Finset.card_lt_card ((Finset.ssubset_iff_of_subset hsub).2 ⟨(name, k), hmem, ?_⟩)
  exact fun hleft => (mem_unentered.1 hleft).2.2 List.mem_cons_self

/-- Rules are decided within every depth that is larger than the number of those that may still be
entered. -/
theorem decides_rule {n : Nat} (hroom : (g.unentered K active).card < n) :
    RulesDecided g active K (firstOfRuleWithin g n) := by
  induction n generalizing active with
  | zero => exact absurd hroom (Nat.not_lt_zero _)
  | succ n ih =>
    intro name k hk hK
    simp only [firstOfRuleWithin_eq_lookInto, firstOfAlts_eq_gather]
    refine Decides.ask (decides_lookInto fun r hfind hnew => ?_)
    -- the rule entered takes up the one step of depth that its bodies have less
    have hfewer := Grammar.card_unentered_enter hfind hk hK hnew
    have hrules : RulesDecided g ((name, k) :: active) K (firstOfRuleWithin g n) :=
      ih (by omega)
    exact decides_gather fun a _ => decides_body (fun e _ => e.decides hrules) hk hK

end RulesOfGrammar

/-! ### Every question -/

namespace Grammar

variable (g : Grammar) {k : Int}

/-- Every question is decided, whatever rules are being looked into. -/
theorem decides_answer (q : Question) (hk : 0 ≤ k) (active : List (Text × Int)) :
    Decides g active (SeqSet.Fits · k) (·.ask q k) (g.answer q k) := by
  have hrules := decides_rule (g.card_unentered_lt k active)
  have helems : ∀ e : Elem, e.Decided g active k _ := fun e => e.decides hrules
  cases q with
  | body items => exact decides_body (fun e _ => helems e) hk (Int.le_refl k)
  | elem e => exact helems e k hk (Int.le_refl k)
  | many items => exact decides_many (fun e _ => helems e) hk (Int.le_refl k) (by omega)
  | rule name => exact hrules name k hk (Int.le_refl k)

/-- So is one round, with these answers to the questions that it leads to. -/
theorem decides_round (q : Question) (hk : 0 ≤ k) (active : List (Text × Int)) :
    Decides g active (SeqSet.Fits · k) (fun f => g.round f.ask q k) (g.round g.answer q k) := by
  cases q with
  | body items =>
    cases items with
    | nil => exact Decides.pure SeqSet.Fits.one
    | cons e rest =>
      rcases Int.lt_or_eq_of_le hk with hpos | rfl
      · have hround := decides_cons hpos (g.decides_answer (.elem e) hk active)
          fun j hj _ => g.decides_answer (.body rest) hj active
        simpa only [round, if_neg (Int.ne_of_gt hpos)] using hround
      · exact Decides.pure SeqSet.Fits.one
  | elem e =>
    cases e with
    | term t => exact Decides.pure fun hpos => SeqSet.Short.single hpos t
    | ref name => exact g.decides_answer (.rule name) hk active
    | seq items => exact g.decides_answer (.body items) hk active
    | opt items =>
      refine (g.decides_answer (.body items) hk active).bind fun found hfound => ?_
      exact Decides.pure fun hpos => (hfound hpos).addNil hk
    | many items => exact g.decides_answer (.many items) hk active
    | oneOf items =>
      exact decides_gather fun e _ => g.decides_answer (.elem e) hk active
  | many items =>
    rcases Int.lt_or_eq_of_le hk with hpos | rfl
    · have hround := decides_repeat hpos (g.decides_answer (.body items) hk active)
        fun j hj _ => g.decides_answer (.many items) hj active
      simpa only [round, if_neg (Int.ne_of_gt hpos)] using hround
    · exact Decides.pure SeqSet.Fits.one
  | rule name =>
    refine decides_lookInto fun r _ _ => decides_gather fun a _ => ?_
    exact g.decides_answer (.body a.body) hk _

/-- What is asked leaves a survey that may be asked again. -/
theorem fair_answer (q : Question) (hk : 0 ≤ k) {s : Survey} (hs : s.Fair) :
    (g.answer q k s).2.Fair := by
  obtain ⟨-, hfair, -⟩ := g.decides_answer q hk s.active s rfl hs
  exact hfair

/-- The four functions end, and they answer as one round of each says. -/
theorem ends_answered : Ends Query.Fair g.answering g.answered := by
  have hdecided : ∀ x : Query, x.Fair →
      ∀ᶠ n in Filter.atTop, ∀ beyond, g.answering^[n] beyond x = g.answered x := by
    intro x hx
    obtain ⟨-, -, -, hsame⟩ :=
      g.decides_answer x.question hx.budget x.survey.active x.survey rfl hx.survey
    exact hsame
  refine ⟨fun x hx => ?_, fun x hx => (hdecided x hx).exists⟩
  obtain ⟨-, -, -, hround⟩ :=
    g.decides_round x.question hx.budget x.survey.active x.survey rfl hx.survey
  -- far enough down, one round more changes nothing
  have hdeeper := (Filter.tendsto_add_atTop_nat 1).eventually (hdecided x hx)
  obtain ⟨n, hn, hn'⟩ := (hround.and hdeeper).exists
  calc g.answering g.answered x
      = g.answering (g.answering^[n] g.answered) x := (hn g.answered).symm
    _ = g.answering^[n + 1] g.answered x := by rw [Function.iterate_succ_apply']
    _ = g.answered x := hn' g.answered

theorem fair_surveyAfter {asked : List (Text × Int)} (hasked : ∀ q ∈ asked, 0 ≤ q.2) :
    (g.surveyAfter asked).Fair := by
  have hfold : ∀ s : Survey, s.Fair →
      (asked.foldl (fun s q => (firstOfRule g q.1 q.2 s).2) s).Fair := by
    induction asked with
    | nil => exact fun s hs => hs
    | cons q asked ih =>
      obtain ⟨hq, hasked⟩ := List.forall_mem_cons.1 hasked
      exact fun s hs => ih hasked _ (g.fair_answer (.rule q.1) hq hs)
  exact hfold {} Survey.Fair.start

end Grammar

/-! ### Compiling -/

/-- From a survey, a computation asks finitely many questions one after another, each of them with
`P`, and does nothing else to the survey. -/
inductive Asks (g : Grammar) (P : Query → Prop) {α : Type} : Surveying α → Survey → Prop
  | done (a : α) (s : Survey) : Asks g P (pure a) s
  | ask {q : Question} {k : Int} {s : Survey} {next : SeqSet → Surveying α} (h : P ⟨q, k, s⟩)
      (hnext : Asks g P (next (g.answer q k s).1) (g.answer q k s).2) :
      Asks g P (g.answer q k >>= next) s

/-- A question is decided within a number of rounds, whatever the answers are below them. -/
def Grammar.DecidedWithin (g : Grammar) (n : Nat) (x : Query) : Prop :=
  ∀ beyond, g.answering^[n] beyond x = g.answered x

section Compiling

variable {g : Grammar} {P P' : Query → Prop} {α β : Type} {m : Surveying α} {s : Survey}

theorem Asks.bind {next : α → Surveying β} (hm : Asks g P m s)
    (hnext : Asks g P (next (m s).1) (m s).2) : Asks g P (m >>= next) s := by
  induction hm with
  | done a s =>
    rw [pure_bind]
    exact hnext
  | ask h _ ih =>
    rw [bind_assoc]
    exact .ask h (ih hnext)

theorem Asks.imp (h : Asks g P m s) (hP : ∀ x, P x → P' x) : Asks g P' m s := by
  induction h with
  | done a s => exact .done a s
  | ask h _ ih => exact .ask (hP _ h) ih

theorem Asks.fair (h : Asks g Query.Fair m s) (hs : s.Fair) : (m s).2.Fair := by
  induction h with
  | done a s => exact hs
  | ask h _ ih => exact ih (g.fair_answer _ h.budget hs)

theorem Grammar.DecidedWithin.mono {n n' : Nat} {x : Query} (h : g.DecidedWithin n x)
    (hn : n ≤ n') : g.DecidedWithin n' x := by
  intro beyond
  obtain ⟨i, rfl⟩ := Nat.exists_eq_add_of_le hn
  rw [Function.iterate_add_apply]
  exact h _

/-- Finitely many questions are decided within one number of rounds. -/
theorem Asks.within (h : Asks g Query.Fair m s) : ∃ n, Asks g (g.DecidedWithin n) m s := by
  induction h with
  | done a s => exact ⟨0, .done a s⟩
  | ask h _ ih =>
    obtain ⟨n, hn⟩ := g.ends_answered.decided _ h
    obtain ⟨n', hn'⟩ := ih
    have hfirst : g.DecidedWithin (max n n') _ :=
      Grammar.DecidedWithin.mono hn (Nat.le_max_left n n')
    exact ⟨max n n', .ask hfirst (hn'.imp fun _ hx => hx.mono (Nat.le_max_right n n'))⟩

theorem asks_compileAlts {r : Rule} (hk : 0 ≤ r.lookahead) (alts : List Alt) :
    ∀ (i : Nat) (c : Choice) {s : Survey}, s.Fair →
      Asks g Query.Fair (compileAlts g r i alts c) s := by
  induction alts with
  | nil => exact fun i c s _ => .done _ s
  | cons a alts ih =>
    intro i c s hs
    rw [compileAlts]
    split
    · refine .ask (q := .body a.body) ⟨hk, hs⟩ ((ih _ _ ?_).bind (.done _ _))
      exact g.fair_answer (.body a.body) hk hs
    · have hgate : (0 : Int) ≤ a.gate.length := Int.natCast_nonneg _
      refine .ask (q := .body a.body) ⟨hgate, hs⟩ ((ih _ _ ?_).bind (.done _ _))
      exact g.fair_answer (.body a.body) hgate hs

theorem asks_compileRule {r : Rule} (hk : 0 ≤ r.lookahead) (hs : s.Fair) :
    Asks g Query.Fair (compileRule g r) s := by
  have halts : Asks g Query.Fair (compileAlts g r 0 r.alts ⟨r, [], [], []⟩) s :=
    asks_compileAlts hk r.alts 0 _ hs
  unfold compileRule
  exact halts.bind (.ask (q := .rule r.name) ⟨Int.zero_le_ofNat 1, halts.fair hs⟩ (.done _ _))

theorem asks_compileRules {rules : List Rule} (hk : ∀ r ∈ rules, 0 ≤ r.lookahead) :
    ∀ {s : Survey}, s.Fair → Asks g Query.Fair (compileRules g rules) s := by
  induction rules with
  | nil => exact fun {s} _ => .done _ s
  | cons r rules ih =>
    intro s hs
    obtain ⟨hr, hk⟩ := List.forall_mem_cons.1 hk
    have hrule : Asks g Query.Fair (compileRule g r) s := asks_compileRule hr hs
    unfold compileRules
    exact hrule.bind ((ih hk (hrule.fair hs)).bind (.done _ _))

end Compiling

/-! ### A grammar -/

/-- Working out lookahead sequences in a grammar ends, and so does validating it. -/
structure Grammar.LookaheadEnds (g : Grammar) : Prop where
  /-- Bodies, elements, repetitions and rules, which ask one another. -/
  questions : Ends Query.Fair g.answering g.answered
  /-- What was asked leaves a survey that may be asked again. -/
  again : ∀ x : Query, x.Fair → (g.answered x).2.Fair
  /-- A rule with any budget, whatever rules were asked for before. -/
  rules : ∀ (name : Text) (k : Int) (asked : List (Text × Int)), 0 ≤ k → (∀ q ∈ asked, 0 ≤ q.2) →
    ∃ n, ∀ beyond, g.answering^[n] beyond ⟨.rule name, k, g.surveyAfter asked⟩
      = firstOfRule g name k (g.surveyAfter asked)
  /-- A grammar whose shape has problems is refused without a question. -/
  shape : g.shapeProblems ≠ [] →
    g.compile = .error (g.shapeProblems.map GrammarProblem.message)
  /-- Any other is compiled with finitely many questions, within some number of rounds each. -/
  compiling : g.shapeProblems = [] → ∃ n, Asks g (g.DecidedWithin n) (compileRules g g.rules) {}

/-- Every grammar has its lookahead sequences worked out in the end, with left recursion, missing
rules, names that come twice and repetitions of what may be empty, and every grammar is accepted or
refused. -/
theorem lookahead_ends (g : Grammar) : g.LookaheadEnds where
  questions := g.ends_answered
  again x hx := g.fair_answer x.question hx.budget hx.survey
  rules _ _ _ hk hasked := g.ends_answered.decided _ ⟨hk, g.fair_surveyAfter hasked⟩
  shape hshape := by
    unfold Grammar.compile
    exact if_neg (mt List.isEmpty_iff.1 hshape)
  compiling hshape := by
    obtain ⟨-, hshapely⟩ := shapeProblems_eq_nil_iff.1 hshape
    have hbudgets : ∀ r ∈ g.rules, 0 ≤ r.lookahead := by
      intro r hr
      have := (hshapely r hr).budget
      omega
    exact (asks_compileRules hbudgets Survey.Fair.start).within

/-- A rule that comes back to itself first behind repetitions of what may be empty: it is met again
twice, and has the sequence of its other alternative. -/
example : (Grammar.mk [⟨"list", 2, [.plain "more" [.many [.many [.ref "list"]], .ref "list"],
      .plain "one" [.word "item"]]⟩]).first "list" 2
    = ([[.word "item"]], [.leftRecursive "list", .leftRecursive "list"]) := by
  decide +kernel

end JavaPrimer
