import JavaPrimer.Proofs.LeftmostDerivation
import JavaPrimer.Proofs.LookaheadSets
import Mathlib.Data.List.Nodup
import Mathlib.Data.List.Perm.Subperm
import Mathlib.Data.List.ProdSigma

/-!
# Working out lookahead sequences

What is worked out for a body is what the body begins with by derivation. A rule met again while
it is being looked into adds nothing, so a set may be too small; but such a rule is left-recursive
and is recorded, and as long as nothing is recorded every set is complete.

The invariant of a survey (`Survey.Ok`) says this of everything known, that only left-recursive
rules are recorded, and that the rules being looked into are not known yet. The last part is what
finds every left-recursive rule: when a rule is finished without a record, all rules that it
reaches at the leftmost place are known, and it is not among them itself.

* `Survey.Knows`, `Survey.Grows` — the keys of a survey, and what every computation may do to it;
* `Collected`, `Found` — a set worked out, complete when nothing is recorded;
* `Surveys` — what a computation leaves, and its rules `Surveys.pure`, `Surveys.bind`,
  `Surveys.gather`, `Surveys.follow`;
* `Above`, `Room` — the rules being looked into: how they stand to what is asked, and how many;
* `Grammar.lookInto` — what a rule looks up, enters and leaves, whatever is done in between;
* `surveys_body`, `surveys_rule` — bodies and rules;
* `surveys_firstOf`, `surveys_firstOfRule` — the same from no rule being looked into.
-/

namespace JavaPrimer

open Grammar

/-! ### Surveys -/

/-- A rule has been worked out for a budget. -/
def Survey.Knows (s : Survey) (key : Text × Int) : Prop := ∃ found, (key, found) ∈ s.known

/-- Nothing that is known or recorded gets lost. -/
def Survey.Grows (s s' : Survey) : Prop := s.problems <+: s'.problems ∧ s.known <:+ s'.known

namespace Survey

variable {s s' s'' : Survey} {key : Text × Int}

theorem Grows.refl (s : Survey) : s.Grows s := ⟨List.prefix_refl _, List.suffix_refl _⟩

theorem Grows.trans (h : s.Grows s') (h' : s'.Grows s'') : s.Grows s'' :=
  ⟨h.1.trans h'.1, h.2.trans h'.2⟩

theorem Grows.knows (h : s.Grows s') (hk : s.Knows key) : s'.Knows key := by
  obtain ⟨found, hmem⟩ := hk
  exact ⟨found, h.2.subset hmem⟩

theorem Grows.clean (h : s.Grows s') (hclean : s'.problems = []) : s.problems = [] :=
  List.prefix_nil.1 (hclean ▸ h.1)

theorem problems_complain_ne_nil (s : Survey) (p : GrammarProblem) : (s.complain p).problems ≠ [] :=
  List.append_ne_nil_of_right_ne_nil _ (List.cons_ne_nil _ _)

end Survey

/-- The rule that a key is about is in the table. -/
def Grammar.Defines (g : Grammar) (name : Text) : Prop := ∃ r ∈ g.rules, r.name = name

/-- A set that holds sequences which `F` allows; as long as nothing is recorded it holds all of
them, and the rules of `R` are known. -/
structure Collected (F : List Term → Prop) (R : Text × Int → Prop) (out : SeqSet) (s : Survey) :
    Prop where
  keyed : out.Keyed
  sound : ∀ ts ∈ out.seqs, F ts
  complete : s.problems = [] → ∀ ts, F ts → ts ∈ out.seqs
  reached : s.problems = [] → ∀ key, R key → s.Knows key

/-- The rules that a body reaches at its leftmost place while a budget is not used up. -/
def Grammar.Leads (g : Grammar) (k : Int) (body : List Elem) (key : Text × Int) : Prop :=
  0 < k ∧ key.2 = k ∧ g.Reaches body key.1 ∧ g.Defines key.1

/-- What is worked out for a body. -/
def Found (g : Grammar) (body : List Elem) (k : Int) : SeqSet → Survey → Prop :=
  Collected (g.FirstSeq k body) (g.Leads k body)

/-- The invariant of a survey. -/
structure Survey.Ok (g : Grammar) (s : Survey) : Prop where
  entries : ∀ {name k found}, ((name, k), found) ∈ s.known → Found g [.ref name] k found s
  straight : s.problems = [] → ∀ {name k}, s.Knows (name, k) → ¬ g.LeftRecursive name
  recorded : ∀ p ∈ s.problems, ∃ name, p = .leftRecursive name ∧ g.LeftRecursive name
  apart : ∀ key ∈ s.active, ¬ s.Knows key

namespace Collected

variable {F F' : List Term → Prop} {R R' : Text × Int → Prop} {out : SeqSet} {s s' : Survey}

theorem grows (h : Collected F R out s) (hs : s.Grows s') : Collected F R out s' where
  keyed := h.keyed
  sound := h.sound
  complete hclean := h.complete (hs.clean hclean)
  reached hclean key hkey := hs.knows (h.reached (hs.clean hclean) key hkey)

/-- Another description of the same set. -/
theorem describe (h : Collected F R out s) (hsound : ∀ ts, F ts → F' ts)
    (hcomplete : s.problems = [] → ∀ ts, F' ts → F ts)
    (hreached : s.problems = [] → ∀ key, R' key → R key ∨ s.Knows key) :
    Collected F' R' out s where
  keyed := h.keyed
  sound ts hts := hsound ts (h.sound ts hts)
  complete hclean ts hts := h.complete hclean ts (hcomplete hclean ts hts)
  reached hclean key hkey := (hreached hclean key hkey).elim (h.reached hclean key) id

theorem empty {s : Survey} : Collected (fun _ => False) (fun _ => False) .empty s where
  keyed := SeqSet.Keyed.empty
  sound _ h := nomatch h
  complete _ _ h := h.elim
  reached _ _ h := h.elim

theorem add (h : Collected F R out s) {ts : List Term} (hts : ∀ t ∈ ts, t.Spelled) :
    Collected (fun us => F us ∨ us = ts) R (out.add ts) s where
  keyed := h.keyed.add hts
  sound us hus := ((SeqSet.mem_add h.keyed hts).1 hus).imp_left (h.sound us)
  complete hclean us hus := (SeqSet.mem_add h.keyed hts).2 (hus.imp_left (h.complete hclean us))
  reached := h.reached

theorem addAll (h : Collected F R out s) {tss : List (List Term)}
    (htss : ∀ ts ∈ tss, ∀ t ∈ ts, t.Spelled) :
    Collected (fun us => F us ∨ us ∈ tss) R (out.addAll tss) s where
  keyed := h.keyed.addAll htss
  sound us hus := ((SeqSet.mem_addAll h.keyed htss).1 hus).imp_left (h.sound us)
  complete hclean us hus :=
    (SeqSet.mem_addAll h.keyed htss).2 (hus.imp_left (h.complete hclean us))
  reached := h.reached

theorem single {s : Survey} {ts : List Term} (hts : ∀ t ∈ ts, t.Spelled) :
    Collected (· = ts) (fun _ => False) (.ofList [ts]) s := by
  have hall : ∀ us ∈ [ts], ∀ t ∈ us, t.Spelled := fun us hus => List.mem_singleton.1 hus ▸ hts
  exact (empty.addAll hall).describe (fun us h => List.mem_singleton.1 (h.resolve_left id))
    (fun _ us h => .inr (List.mem_singleton.2 h)) (fun _ _ h => .inl h)

theorem one {s : Survey} : Collected (· = []) (fun _ => False) (.ofList [[]]) s :=
  single fun _ ht => nomatch ht

end Collected

/-! ### Computations -/

/-- From a survey with the rules `active` being looked into and with `P`, a computation leaves a
survey that has grown, with the same rules being looked into, and with `Q`. -/
def Surveys (g : Grammar) (active : List (Text × Int)) {α : Type} (P : Survey → Prop)
    (m : Surveying α) (Q : α → Survey → Prop) : Prop :=
  ∀ s, s.active = active → s.Ok g → P s →
    s.Grows (m s).2 ∧ (m s).2.active = active ∧ (m s).2.Ok g ∧ Q (m s).1 (m s).2

section Rules

variable {g : Grammar} {active : List (Text × Int)} {α β : Type} {P P' : Survey → Prop}

theorem Surveys.pure {a : α} {Q : α → Survey → Prop} (h : ∀ s, P s → Q a s) :
    Surveys g active P (Pure.pure a) Q :=
  fun s hactive hok hP => ⟨.refl s, hactive, hok, h s hP⟩

theorem Surveys.bind {m : Surveying α} {f : α → Surveying β} {Q : α → Survey → Prop}
    {R : β → Survey → Prop} (hm : Surveys g active P m Q)
    (hf : ∀ a, Surveys g active (Q a) (f a) R) : Surveys g active P (m >>= f) R := by
  intro s hactive hok hP
  obtain ⟨hgrows, hactive', hok', hQ⟩ := hm s hactive hok hP
  obtain ⟨hgrows', hrest⟩ := hf (m s).1 (m s).2 hactive' hok' hQ
  exact ⟨hgrows.trans hgrows', hrest⟩

/-- What held before and is not lost still holds after. -/
theorem Surveys.keep {m : Surveying α} {Q : α → Survey → Prop} {K : Survey → Prop}
    (hK : ∀ {s s'}, s.Grows s' → K s → K s') (hm : Surveys g active P m Q) :
    Surveys g active (fun s => P s ∧ K s) m (fun a s => Q a s ∧ K s) := by
  intro s hactive hok hP
  obtain ⟨hgrows, hactive', hok', hQ⟩ := hm s hactive hok hP.1
  exact ⟨hgrows, hactive', hok', hQ, hK hgrows hP.2⟩

theorem Surveys.mono {m : Surveying α} {Q Q' : α → Survey → Prop} (hm : Surveys g active P m Q)
    (hP : ∀ s, P' s → P s) (hQ : ∀ a s, Q a s → Q' a s) : Surveys g active P' m Q' := by
  intro s hactive hok hP'
  obtain ⟨hgrows, hactive', hok', hpost⟩ := hm s hactive hok (hP s hP')
  exact ⟨hgrows, hactive', hok', hQ _ _ hpost⟩

/-- What the state before tells may be used to say what a computation does. -/
theorem Surveys.given {m : Surveying α} {Q : α → Survey → Prop}
    (h : ∀ s, P s → Surveys g active (· = s) m Q) : Surveys g active P m Q :=
  fun s hactive hok hP => h s hP s hactive hok rfl

end Rules

/-! ### Collecting -/

section Collecting

variable {g : Grammar} {active : List (Text × Int)} {k : Int} {m : Surveying SeqSet}
  {F : List Term → Prop} {L : Text × Int → Prop} {out : SeqSet} {body : List Elem}

/-- A computation on the way loses nothing of what was collected. -/
theorem Surveys.bind_collected {β : Type} {f : SeqSet → Surveying β}
    {Q : SeqSet → Survey → Prop} {R : β → Survey → Prop}
    (hm : Surveys g active (fun _ => True) m Q)
    (hf : ∀ a, Surveys g active (fun s => Q a s ∧ Collected F L out s) (f a) R) :
    Surveys g active (Collected F L out) (m >>= f) R := by
  have hkeep := hm.keep (K := Collected F L out) fun hg hc => hc.grows hg
  exact (hkeep.mono (fun s hout => ⟨trivial, hout⟩) fun _ _ hs => hs).bind hf

/-- What is worked out for a body is added to what was collected. -/
theorem Surveys.gather (next : SeqSet → Surveying SeqSet) {Q : SeqSet → Survey → Prop}
    (hm : Surveys g active (fun _ => True) m (Found g body k))
    (hnext : ∀ out', Surveys g active (Collected (fun ts => F ts ∨ g.FirstSeq k body ts)
      (fun key => L key ∨ g.Leads k body key) out') (next out') Q) :
    Surveys g active (Collected F L out) (m >>= fun found => next (out.addAll found.seqs)) Q := by
  refine hm.bind_collected fun found => (hnext _).mono (fun s hs => ?_) fun _ _ hs => hs
  obtain ⟨hfound, hout⟩ := hs
  refine (hout.addAll hfound.keyed.spelled).describe (fun ts => Or.imp_right (hfound.sound ts))
    (fun hclean ts => Or.imp_right (hfound.complete hclean ts)) fun hclean key => ?_
  exact Or.imp_right (hfound.reached hclean key)

/-- What is worked out for a body decides what to do next and is still there afterwards. -/
theorem Surveys.follow {next : SeqSet → Surveying SeqSet} {Q : SeqSet → SeqSet → Survey → Prop}
    {R : SeqSet → Survey → Prop} (hm : Surveys g active (fun _ => True) m (Found g body k))
    (hstart : ∀ s, Collected F L out s)
    (hnext : ∀ heads s, Found g body k heads s →
      Surveys g active (Collected F L out) (next heads) (Q heads))
    (hR : ∀ heads out' s, Found g body k heads s → Q heads out' s → R out' s) :
    Surveys g active (fun _ => True) (m >>= next) R := by
  refine hm.bind fun heads => Surveys.given fun s hheads => ?_
  have hkeep := (hnext heads s hheads).keep (K := Found g body k heads) fun hg hc => hc.grows hg
  refine hkeep.mono (fun s' hs' => ⟨hstart s', hs' ▸ hheads⟩) fun out' s' hout => ?_
  exact hR heads out' s' hout.2 hout.1

end Collecting

/-! ### Extending heads -/

section Extending

variable {g : Grammar} {active : List (Text × Int)} {k : Int}

/-- The sequences that a head goes on to with what a body begins with. -/
def Grammar.Extends (g : Grammar) (k : Int) (ys : List Elem) (h ts : List Term) : Prop :=
  (h.length : Int) = k ∧ ts = h
    ∨ (h.length : Int) < k ∧ ∃ vs, ts = h ++ vs ∧ g.FirstSeq (k - h.length) ys vs

/-- The rules that a body leads to after a head. -/
def Grammar.LeadsAfter (g : Grammar) (k : Int) (ys : List Elem) (h : List Term)
    (key : Text × Int) : Prop :=
  (h.length : Int) < k ∧ g.Leads (k - h.length) ys key

theorem surveys_extendAll (ys : List Elem) (more : Int → Surveying SeqSet)
    {heads : List (List Term)} (hspelled : ∀ h ∈ heads, ∀ t ∈ h, t.Spelled) (hlen : ∀ h ∈ heads, (h.length : Int) ≤ k)
    (hmore : ∀ h ∈ heads, (h.length : Int) < k → Surveys g active (fun _ => True)
      (more (k - h.length)) (Found g ys (k - h.length))) :
    ∀ (F : List Term → Prop) (R : Text × Int → Prop) (out : SeqSet),
      Surveys g active (Collected F R out) (extendAll k more heads out)
        (Collected (fun ts => F ts ∨ ∃ h ∈ heads, g.Extends k ys h ts)
          (fun key => R key ∨ ∃ h ∈ heads, g.LeadsAfter k ys h key)) := by
  induction heads with
  | nil =>
    intro F R out
    refine Surveys.pure fun s h => h.describe (fun ts hts => .inl hts) (fun _ ts hts => ?_)
      (fun _ key hkey => ?_)
    · exact hts.resolve_right fun ⟨h, hmem, _⟩ => nomatch hmem
    · exact .inl (hkey.resolve_right fun ⟨h, hmem, _⟩ => nomatch hmem)
  | cons h heads ih =>
    intro F R out
    have hhead := hspelled h List.mem_cons_self
    have hrest : ∀ {out : SeqSet}, Surveys g active
        (Collected (fun ts => F ts ∨ g.Extends k ys h ts)
          (fun key => R key ∨ g.LeadsAfter k ys h key) out)
        (extendAll k more heads out)
        (Collected (fun ts => F ts ∨ ∃ h' ∈ h :: heads, g.Extends k ys h' ts)
          (fun key => R key ∨ ∃ h' ∈ h :: heads, g.LeadsAfter k ys h' key)) := by
      simp only [List.exists_mem_cons_iff, ← or_assoc]
      exact ih (fun h' hh => hspelled h' (List.mem_cons_of_mem h hh))
        (fun h' hh => hlen h' (List.mem_cons_of_mem h hh))
        (fun h' hh => hmore h' (List.mem_cons_of_mem h hh)) _ _ _
    rw [extendAll]
    split
    · next hfull =>
      -- a full head stays as it is and leads nowhere
      refine hrest.mono (fun s hout => (hout.add hhead).describe ?_ ?_ ?_) fun _ _ hout => hout
      · rintro ts (hts | rfl)
        · exact .inl hts
        · exact .inr (.inl ⟨hfull, rfl⟩)
      · rintro - ts (hts | ⟨-, rfl⟩ | ⟨hlt, -⟩)
        · exact .inl hts
        · exact .inr rfl
        · exact absurd hfull (Int.ne_of_lt hlt)
      · rintro - key (hkey | ⟨hlt, -⟩)
        · exact .inl hkey
        · exact absurd hfull (Int.ne_of_lt hlt)
    · next hfull =>
      have hlt : (h.length : Int) < k :=
        Int.lt_iff_le_and_ne.2 ⟨hlen h List.mem_cons_self, hfull⟩
      refine (hmore h List.mem_cons_self hlt).bind_collected fun tails => ?_
      refine hrest.mono (fun s hs => ?_) fun _ _ hout => hout
      obtain ⟨htails, hout⟩ := hs
      have hall : ∀ ts ∈ tails.seqs.map (h ++ ·), ∀ t ∈ ts, t.Spelled := by
        intro ts hts t ht
        obtain ⟨vs, hvs, rfl⟩ := List.mem_map.1 hts
        exact (List.mem_append.1 ht).elim (hhead t) (htails.keyed.spelled vs hvs t)
      refine (hout.addAll hall).describe ?_ ?_ ?_
      · rintro ts (hts | hts)
        · exact .inl hts
        · obtain ⟨vs, hvs, rfl⟩ := List.mem_map.1 hts
          exact .inr (.inr ⟨hlt, vs, rfl, htails.sound vs hvs⟩)
      · rintro hclean ts (hts | ⟨heq, -⟩ | ⟨-, vs, rfl, hvs⟩)
        · exact .inl hts
        · exact absurd heq hfull
        · exact .inr (List.mem_map.2 ⟨vs, htails.complete hclean vs hvs, rfl⟩)
      · rintro hclean key (hkey | ⟨-, hkey⟩)
        · exact .inl hkey
        · exact .inr (htails.reached hclean key hkey)

end Extending

/-! ### The rules being looked into -/

/-- Every rule being looked into has come to the body asked about, with no smaller budget; where
the budget is the same, without writing anything. -/
def Above (g : Grammar) (active : List (Text × Int)) (body : List Elem) (k : Int) : Prop :=
  ∀ key ∈ active, k ≤ key.2 ∧ (key.2 = k → ∃ r ∈ g.rules, r.name = key.1 ∧ ∃ a ∈ r.alts,
    ∃ n rest, g.Leftmost n a.body [] (body ++ rest))

namespace Above

variable {g : Grammar} {active : List (Text × Int)} {xs ys items : List Elem} {e : Elem}
  {j k : Int} {h : List Term}

theorem nil : Above g [] xs k := fun _ h => nomatch h

theorem left (ha : Above g active (xs ++ ys) k) : Above g active xs k := by
  intro key hkey
  obtain ⟨hle, hsame⟩ := ha key hkey
  refine ⟨hle, fun heq => ?_⟩
  obtain ⟨r, hr, hname, a, hmem, n, rest, hexp⟩ := hsame heq
  exact ⟨r, hr, hname, a, hmem, n, ys ++ rest, by rwa [← List.append_assoc]⟩

theorem less (ha : Above g active xs k) (hj : j < k) : Above g active ys j := by
  intro key hkey
  have hle := (ha key hkey).1
  exact ⟨Int.le_trans (Int.le_of_lt hj) hle, fun heq => by omega⟩

theorem step (ha : Above g active (e :: xs) k) (hstep : g.Step e [] items) :
    Above g active (items ++ xs) k := by
  intro key hkey
  obtain ⟨hle, hsame⟩ := ha key hkey
  refine ⟨hle, fun heq => ?_⟩
  obtain ⟨r, hr, hname, a, hmem, n, rest, hexp⟩ := hsame heq
  have hone : g.Leftmost 1 (e :: (xs ++ rest)) [] (items ++ (xs ++ rest)) := .step hstep .refl
  rw [← List.append_assoc] at hone
  exact ⟨r, hr, hname, a, hmem, n + 1, rest, hexp.trans hone⟩

theorem expand (ha : Above g active [e] k) (hstep : g.Step e [] items) : Above g active items k := by
  have h := ha.step hstep
  rwa [List.append_nil] at h

/-- What follows a body that has ended is asked about with what is left of the budget. -/
theorem right (ha : Above g active (xs ++ ys) k) (hh : g.FirstSeq k xs h)
    (hlt : (h.length : Int) < k) : Above g active ys (k - h.length) := by
  by_cases hnil : h = []
  · subst hnil
    obtain ⟨m, hnull⟩ := hh.complete hlt
    intro key hkey
    obtain ⟨hle, hsame⟩ := ha key hkey
    rw [List.length_nil, Int.natCast_zero, Int.sub_zero]
    refine ⟨hle, fun heq => ?_⟩
    obtain ⟨r, hr, hname, a, hmem, n, rest, hexp⟩ := hsame heq
    refine ⟨r, hr, hname, a, hmem, n + m, rest, ?_⟩
    rw [List.append_assoc] at hexp
    exact hexp.trans (hnull.append_right (ys ++ rest))
  · have hpos := List.length_pos_iff.2 hnil
    exact ha.less (by omega)

theorem head (ha : Above g active (e :: ys) k) : Above g active [e] k :=
  left (show Above g active ([e] ++ ys) k from ha)

theorem tail (ha : Above g active (e :: ys) k) (hh : g.FirstSeq k [e] h)
    (hlt : (h.length : Int) < k) : Above g active ys (k - h.length) :=
  right (show Above g active ([e] ++ ys) k from ha) hh hlt

end Above

/-! ### Bodies -/

section Bodies

variable {g : Grammar} {active : List (Text × Int)} {K : Int} {rule : Text → Int → Surveying SeqSet}

/-- What the rules give is what they begin with, for every budget up to `K`. -/
def RulesSurveyed (g : Grammar) (active : List (Text × Int)) (K : Int)
    (rule : Text → Int → Surveying SeqSet) : Prop :=
  ∀ name k, 0 < k → k ≤ K → Above g active [.ref name] k →
    Surveys g active (fun _ => True) (rule name k) (Found g [.ref name] k)

/-- What an element gives is what it begins with, for every budget up to `K`. -/
def Elem.Surveyed (g : Grammar) (active : List (Text × Int)) (K : Int)
    (rule : Text → Int → Surveying SeqSet) (e : Elem) : Prop :=
  ∀ k, 0 < k → k ≤ K → Above g active [e] k → (∀ t ∈ e.terms, t.Spelled) →
    Surveys g active (fun _ => True) (e.first rule k) (Found g [e] k)

theorem surveys_body {es : List Elem} (hes : ∀ e ∈ es, e.Surveyed g active K rule) : ∀ {k : Int},
    0 ≤ k → k ≤ K → Above g active es k → (∀ t ∈ Elem.termsOf es, t.Spelled) →
      Surveys g active (fun _ => True) (firstOfBody rule es k) (Found g es k) := by
  induction es with
  | nil =>
    intro k hk _ _ _
    refine Surveys.pure fun s _ => Collected.one.describe (fun ts => (first_nil hk).2)
      (fun _ ts => (first_nil hk).1) fun _ key hkey => ?_
    exact absurd hkey.2.2.1 not_reaches_nil
  | cons e es ih =>
    intro k hk hK habove hspelled
    rw [firstOfBody]
    split
    · next hzero =>
      subst hzero
      exact Surveys.pure fun s _ => Collected.one.describe (fun ts => first_zero.2)
        (fun _ ts => first_zero.1) fun _ key hkey => absurd hkey.1 (Int.lt_irrefl 0)
    next hne =>
    have hpos : 0 < k := Int.lt_iff_le_and_ne.2 ⟨hk, Ne.symm hne⟩
    have hhead := hes e List.mem_cons_self k hpos hK habove.head
      fun t ht => hspelled t (List.mem_append_left _ ht)
    have hextend := fun (heads : SeqSet) (s : Survey) (hheads : Found g [e] k heads s) =>
      surveys_extendAll es (fun j => firstOfBody rule es j) hheads.keyed.spelled
        (fun h hmem => (hheads.sound h hmem).length_le) (fun h hmem hlt =>
          ih (fun e he => hes e (List.mem_cons_of_mem _ he)) (by omega) (by omega)
            (habove.tail (hheads.sound h hmem) hlt)
            fun t ht => hspelled t (List.mem_append_right _ ht))
        (fun _ => False) (fun _ => False) .empty
    refine hhead.follow (fun _ => Collected.empty) hextend fun heads out s hheads hout =>
      hout.describe ?_ ?_ ?_
    · intro ts hts
      obtain ⟨h, hmem, hts⟩ := hts.resolve_left id
      rw [← List.singleton_append, first_append]
      rcases hts with ⟨hfull, rfl⟩ | ⟨hlt, vs, rfl, hvs⟩
      · exact .inl ⟨hheads.sound _ hmem, hfull⟩
      · exact .inr ⟨h, vs, rfl, hheads.sound h hmem, hlt, hvs⟩
    · intro hclean ts hts
      rw [← List.singleton_append, first_append] at hts
      rcases hts with ⟨hts, hfull⟩ | ⟨us, vs, rfl, hus, hlt, hvs⟩
      · exact .inr ⟨ts, hheads.complete hclean ts hts, .inl ⟨hfull, rfl⟩⟩
      · exact .inr ⟨us, hheads.complete hclean us hus, .inr ⟨hlt, vs, rfl, hvs⟩⟩
    · rintro hclean key ⟨-, hkey, hreach, hdef⟩
      rw [← List.singleton_append, reaches_append] at hreach
      rcases hreach with hreach | ⟨hnull, hreach⟩
      · exact .inr (hheads.reached hclean key ⟨hpos, hkey, hreach, hdef⟩)
      · -- the head may be empty, and then the rest was asked about with the whole budget
        have hnil := hheads.complete hclean [] ((nullable_iff_first hpos).1 hnull)
        refine .inl (.inr ⟨[], hnil, hpos, ?_⟩)
        rw [List.length_nil, Int.natCast_zero, Int.sub_zero]
        exact ⟨hpos, hkey, hreach, hdef⟩

theorem surveys_many {items : List Elem} (hes : ∀ e ∈ items, e.Surveyed g active K rule)
    (hspelled : ∀ t ∈ Elem.termsOf items, t.Spelled) : ∀ {n : Nat} {k : Int},
    0 ≤ k → k ≤ K → k < n → Above g active [.many items] k →
      Surveys g active (fun _ => True) (firstOfMany (fun j => firstOfBody rule items j) n k)
        (Found g [.many items] k) := by
  intro n
  induction n with
  | zero => exact fun hk _ hlt => absurd hk (by omega)
  | succ n ih =>
    intro k hk hK hn habove
    have hround := surveys_body hes hk hK (habove.expand .again).left hspelled
    have hmem : ∀ {heads : SeqSet} {h}, h ∈ heads.seqs.filter (!·.isEmpty)
        ↔ h ∈ heads.seqs ∧ h ≠ [] := by
      intro heads h
      rw [List.mem_filter, Bool.not_eq_true', List.isEmpty_eq_false_iff]
    have hextend := fun (heads : SeqSet) (s : Survey) (hheads : Found g items k heads s) =>
      surveys_extendAll [.many items] (firstOfMany (fun j => firstOfBody rule items j) n)
        (fun h hh => hheads.keyed.spelled h (hmem.1 hh).1)
        (fun h hh => (hheads.sound h (hmem.1 hh).1).length_le) (fun h hh hlt => by
          have hpos := List.length_pos_iff.2 (hmem.1 hh).2
          exact ih (by omega) (by omega) (by omega) (habove.less (by omega)))
        (· = []) (fun _ => False) (.ofList [[]])
    refine hround.follow (fun _ => Collected.one) hextend fun heads out s hheads hout => ?_
    rcases Int.lt_or_eq_of_le hk with hpos | rfl
    · refine hout.describe ?_ ?_ ?_
      · rintro ts (rfl | ⟨h, hh, hts⟩)
        · exact (first_many hpos).2 (.inl rfl)
        · exact (first_many hpos).2
            (.inr ⟨h, hheads.sound h (hmem.1 hh).1, (hmem.1 hh).2, hts⟩)
      · intro hclean ts hts
        rcases (first_many hpos).1 hts with hts | ⟨us, hus, hne, hts⟩
        · exact .inl hts
        · exact .inr ⟨us, hmem.2 ⟨hheads.complete hclean us hus, hne⟩, hts⟩
      · rintro hclean key ⟨-, hkey, hreach, hdef⟩
        exact .inr (hheads.reached hclean key ⟨hpos, hkey, reaches_many hreach, hdef⟩)
    · refine hout.describe ?_ (fun _ ts hts => .inl (first_zero.1 hts))
        fun _ key hkey => absurd hkey.1 (Int.lt_irrefl 0)
      rintro ts (rfl | ⟨h, hh, -⟩)
      · exact first_zero.2 rfl
      · exact absurd (first_zero.1 (hheads.sound h (hmem.1 hh).1)) (hmem.1 hh).2

theorem surveys_any {items : List Elem} (hes : ∀ e ∈ items, e.Surveyed g active K rule) {k : Int}
    (hpos : 0 < k) (hK : k ≤ K) : (∀ e ∈ items, Above g active [e] k) →
    (∀ t ∈ Elem.termsOf items, t.Spelled) →
    ∀ (F : List Term → Prop) (R : Text × Int → Prop) (out : SeqSet),
      Surveys g active (Collected F R out) (firstOfAny rule items out k)
        (Collected (fun ts => F ts ∨ ∃ e ∈ items, g.FirstSeq k [e] ts)
          (fun key => R key ∨ ∃ e ∈ items, g.Leads k [e] key)) := by
  induction items with
  | nil =>
    intro _ _ F R out
    refine Surveys.pure fun s h => ?_
    simpa only [List.not_mem_nil, false_and, exists_false, or_false] using h
  | cons e items ih =>
    intro habove hspelled F R out
    have hfirst := hes e List.mem_cons_self k hpos hK (habove e List.mem_cons_self)
      fun t ht => hspelled t (List.mem_append_left _ ht)
    refine Surveys.gather (fun out => firstOfAny rule items out k) hfirst fun out' => ?_
    simp only [List.exists_mem_cons_iff, ← or_assoc]
    exact ih (fun e he => hes e (List.mem_cons_of_mem _ he))
      (fun e he => habove e (List.mem_cons_of_mem _ he))
      (fun t ht => hspelled t (List.mem_append_right _ ht)) _ _ _

/-- Every element gives what it begins with once the rules do. -/
theorem Elem.surveyed (hrule : RulesSurveyed g active K rule) (e : Elem) :
    e.Surveyed g active K rule := by
  induction e using Elem.byItems with
  | term t =>
    intro k hpos hK habove hspelled
    have ht : ∀ u ∈ [t], u.Spelled := hspelled
    refine Surveys.pure fun s _ => (Collected.single ht).describe (fun ts => (first_term hpos).2)
      (fun _ ts => (first_term hpos).1) fun _ key hkey => ?_
    exact absurd hkey.2.2.1 not_reaches_term
  | ref name => exact fun k hpos hK habove _ => hrule name k hpos hK habove
  | seq items ih =>
    intro k hpos hK habove hspelled
    have hbody := surveys_body ih (Int.le_of_lt hpos) hK (habove.expand .seq) hspelled
    refine hbody.mono (fun _ h => h) fun out s hout => hout.describe (fun ts => (first_seq hpos).2)
      (fun _ ts => (first_seq hpos).1) ?_
    exact fun _ key ⟨_, hkey, hreach, hdef⟩ => .inl ⟨hpos, hkey, reaches_seq hreach, hdef⟩
  | opt items ih =>
    intro k hpos hK habove hspelled
    have hbody := surveys_body ih (Int.le_of_lt hpos) hK (habove.expand .take) hspelled
    refine hbody.bind fun found => Surveys.pure fun s hfound => ?_
    have hnil : ∀ t ∈ ([] : List Term), t.Spelled := fun _ ht => nomatch ht
    refine (hfound.add hnil).describe (fun ts hts => (first_opt hpos).2 hts.symm)
      (fun _ ts hts => ((first_opt hpos).1 hts).symm) ?_
    exact fun _ key ⟨_, hkey, hreach, hdef⟩ => .inl ⟨hpos, hkey, reaches_opt hreach, hdef⟩
  | many items ih =>
    intro k hpos hK habove hspelled
    exact surveys_many ih hspelled (Int.le_of_lt hpos) hK (by omega) habove
  | oneOf items ih =>
    intro k hpos hK habove hspelled
    have hany := surveys_any ih hpos hK (fun e he => habove.expand (.oneOf he)) hspelled
      (fun _ => False) (fun _ => False) .empty
    refine hany.mono (fun s _ => Collected.empty) fun out s hout => hout.describe
      (fun ts hts => (first_oneOf hpos).2 (hts.resolve_left id))
      (fun _ ts hts => .inr ((first_oneOf hpos).1 hts)) ?_
    rintro - key ⟨-, hkey, hreach, hdef⟩
    obtain ⟨e, he, hreach⟩ := reaches_oneOf hreach
    exact .inl (.inr ⟨e, he, hpos, hkey, hreach, hdef⟩)

end Bodies

/-! ### Rules -/

section RulesOfGrammar

variable {g : Grammar} {active : List (Text × Int)} {K : Int}

/-- The depth left is enough for every rule and every budget up to `K` that is not being looked
into yet. -/
structure Room (g : Grammar) (K : Int) (n : Nat) (active : List (Text × Int)) : Prop where
  nodup : active.Nodup
  within : ∀ key ∈ active, g.Defines key.1 ∧ 0 < key.2 ∧ key.2 ≤ K
  enough : g.rules.length * K.toNat < active.length + n

/-- At depth zero there would be more keys than rules and budgets. -/
theorem not_room_zero : ¬ Room g K 0 active := by
  intro h
  have hsub : active ⊆ g.rules.map Rule.name
      ×ˢ (List.range K.toNat).map (fun i : Nat => (i : Int) + 1) := by
    intro key hkey
    obtain ⟨⟨r, hr, hname⟩, hpos, hK⟩ := h.within key hkey
    refine List.mem_product.2 ⟨List.mem_map.2 ⟨r, hr, hname⟩, List.mem_map.2 ⟨key.2.toNat - 1, ?_⟩⟩
    rw [List.mem_range]
    omega
  have hlen := (List.subperm_of_subset h.nodup hsub).length_le
  rw [List.length_product, List.length_map, List.length_map, List.length_range] at hlen
  have henough := h.enough
  omega

theorem Room.enter {n : Nat} {name : Text} {k : Int} (h : Room g K (n + 1) active)
    (hdef : g.Defines name) (hpos : 0 < k) (hK : k ≤ K) (hnew : (name, k) ∉ active) :
    Room g K n ((name, k) :: active) where
  nodup := List.nodup_cons.2 ⟨hnew, h.nodup⟩
  within key hkey := by
    rcases List.mem_cons.1 hkey with rfl | hkey
    · exact ⟨hdef, hpos, hK⟩
    · exact h.within key hkey
  enough := by
    have henough := h.enough
    rw [List.length_cons]
    omega

theorem find?_eq_some_iff (hnodup : (g.rules.map Rule.name).Nodup) {name : Text} {r : Rule} :
    g.find? name = some r ↔ r ∈ g.rules ∧ r.name = name := by
  constructor
  · intro h
    exact ⟨List.mem_of_find?_eq_some h, by simpa using List.find?_some h⟩
  · rintro ⟨hr, rfl⟩
    cases hfind : g.find? r.name with
    | none => exact absurd (beq_self_eq_true r.name) (List.find?_eq_none.1 hfind r hr)
    | some r' =>
      have hname : r'.name = r.name := by simpa using List.find?_some hfind
      rw [List.inj_on_of_nodup_map hnodup (List.mem_of_find?_eq_some hfind) hr hname]

theorem surveys_alts {rule : Text → Int → Surveying SeqSet} (hrule : RulesSurveyed g active K rule)
    {k : Int} (hpos : 0 < k) (hK : k ≤ K) {alts : List Alt} :
    (∀ a ∈ alts, Above g active a.body k ∧ ∀ t ∈ Elem.termsOf a.body, t.Spelled) →
    ∀ (F : List Term → Prop) (R : Text × Int → Prop) (out : SeqSet),
      Surveys g active (Collected F R out) (firstOfAlts rule k alts out)
        (Collected (fun ts => F ts ∨ ∃ a ∈ alts, g.FirstSeq k a.body ts)
          (fun key => R key ∨ ∃ a ∈ alts, g.Leads k a.body key)) := by
  induction alts with
  | nil =>
    intro _ F R out
    refine Surveys.pure fun s h => ?_
    simpa only [List.not_mem_nil, false_and, exists_false, or_false] using h
  | cons a alts ih =>
    intro halts F R out
    obtain ⟨habove, hspelled⟩ := halts a List.mem_cons_self
    have hbody := surveys_body (fun e _ => e.surveyed hrule) (Int.le_of_lt hpos) hK habove hspelled
    refine Surveys.gather (firstOfAlts rule k alts) hbody fun out' => ?_
    simp only [List.exists_mem_cons_iff, ← or_assoc]
    exact ih (fun a ha => halts a (List.mem_cons_of_mem _ ha)) _ _ _

/-- A rule that is met again while it is being looked into is recorded, and is left-recursive. -/
theorem Survey.Ok.complain {s : Survey} {name : Text} (hok : s.Ok g)
    (hrec : g.LeftRecursive name) : (s.complain (.leftRecursive name)).Ok g where
  entries hmem := (hok.entries hmem).grows ⟨List.prefix_append _ _, List.suffix_refl _⟩
  straight hclean := absurd hclean (s.problems_complain_ne_nil _)
  recorded p hp := by
    rcases List.mem_append.1 hp with hp | hp
    · exact hok.recorded p hp
    · exact ⟨name, List.mem_singleton.1 hp, hrec⟩
  apart := hok.apart

theorem Survey.Ok.enter {s : Survey} {key : Text × Int} (hok : s.Ok g) (hnew : ¬ s.Knows key) :
    (s.enter key).Ok g where
  entries hmem := (hok.entries hmem).grows ⟨List.prefix_refl _, List.suffix_refl _⟩
  straight := hok.straight
  recorded := hok.recorded
  apart key' hkey := by
    rcases List.mem_cons.1 hkey with rfl | hkey
    · exact hnew
    · exact hok.apart key' hkey

/-- A rule is finished: everything that it reaches at the leftmost place is known, and it was not
known itself, so it does not reach itself. -/
theorem Survey.Ok.leave {s : Survey} {name : Text} {k : Int} {found : SeqSet} (hok : s.Ok g)
    (hactive : s.active = (name, k) :: active) (hnew : (name, k) ∉ active) (hpos : 0 < k)
    (hfound : Collected (fun ts => ∃ r ∈ g.rules, r.name = name ∧ ∃ a ∈ r.alts,
        g.FirstSeq k a.body ts)
      (fun key => ∃ r ∈ g.rules, r.name = name ∧ ∃ a ∈ r.alts, g.Leads k a.body key) found s) :
    (s.leave (name, k) found).Ok g
      ∧ Found g [.ref name] k found (s.leave (name, k) found) := by
  have hgrows : s.Grows (s.leave (name, k) found) :=
    ⟨List.prefix_refl _, List.suffix_cons _ _⟩
  have hentry : Found g [.ref name] k found (s.leave (name, k) found) := by
    refine (hfound.grows hgrows).describe (fun ts => (first_ref hpos).2)
      (fun _ ts => (first_ref hpos).1) ?_
    rintro - ⟨target, j⟩ ⟨-, hkey, hreach, hdef⟩
    rcases reaches_ref.1 hreach with rfl | ⟨r, hr, hname, a, ha, hreach⟩
    · exact .inr ⟨found, by rw [show j = k from hkey]; exact List.mem_cons_self⟩
    · exact .inl ⟨r, hr, hname, a, ha, hpos, hkey, hreach, hdef⟩
  refine ⟨⟨fun hmem => ?_, ?_, hok.recorded, ?_⟩, hentry⟩
  · rcases List.mem_cons.1 hmem with heq | hmem
    · cases heq
      exact hentry
    · exact (hok.entries hmem).grows hgrows
  · rintro hclean name' k' ⟨found', hmem⟩
    rcases List.mem_cons.1 hmem with heq | hmem
    · cases heq
      rintro ⟨r, hr, hname, a, ha, hreach⟩
      have hknown := hfound.reached hclean (name, k)
        ⟨r, hr, hname, a, ha, hpos, rfl, hreach, r, hr, hname⟩
      exact hok.apart _ (hactive ▸ List.mem_cons_self) hknown
    · exact hok.straight hclean ⟨found', hmem⟩
  · intro key hkey hknown
    have hkey : key ∈ active := by
      simpa only [Survey.leave, hactive, List.erase_cons_head] using hkey
    obtain ⟨found', hmem⟩ := hknown
    rcases List.mem_cons.1 hmem with heq | hmem
    · cases heq
      exact hnew hkey
    · exact hok.apart key (hactive ▸ List.mem_cons_of_mem _ hkey) ⟨found', hmem⟩

/-- A rule for a budget, worked out with `work` unless it is known, missing or being looked into. -/
def Grammar.lookInto (g : Grammar) (name : Text) (k : Int) (work : Rule → Surveying SeqSet) :
    Surveying SeqSet := do
  let s ← get
  match s.known.lookup (name, k), g.find? name with
  | some found, _ => return found
  | none, none => return .empty
  | none, some r =>
    if s.active.contains (name, k) then
      modify (Survey.complain (.leftRecursive name))
      return .empty
    else
      modify (Survey.enter (name, k))
      let found ← work r
      modify (Survey.leave (name, k) found)
      return found

/-- What looking into a rule does to a survey. -/
theorem Grammar.lookInto_apply (g : Grammar) (name : Text) (k : Int)
    (work : Rule → Surveying SeqSet) (s : Survey) :
    g.lookInto name k work s =
      match s.known.lookup (name, k), g.find? name with
      | some found, _ => (found, s)
      | none, none => (.empty, s)
      | none, some r =>
        if s.active.contains (name, k) then (.empty, s.complain (.leftRecursive name))
        else
          let out := work r (s.enter (name, k))
          (out.1, out.2.leave (name, k) out.1) := by
  unfold Grammar.lookInto
  show (match s.known.lookup (name, k), g.find? name with
    | some found, _ => _
    | none, none => _
    | none, some r => _ : Surveying SeqSet) s = _
  cases s.known.lookup (name, k) with
  | some found => rfl
  | none =>
    cases g.find? name with
    | none => rfl
    | some r =>
      dsimp only
      split <;> rfl

theorem firstOfRuleWithin_eq_lookInto (g : Grammar) (n : Nat) (name : Text) (k : Int) :
    firstOfRuleWithin g (n + 1) name k
      = g.lookInto name k fun r => firstOfAlts (firstOfRuleWithin g n) k r.alts .empty :=
  rfl

/-- What a rule looks up, enters and leaves. -/
theorem firstOfRuleWithin_succ (g : Grammar) (n : Nat) (name : Text) (k : Int) (s : Survey) :
    firstOfRuleWithin g (n + 1) name k s =
      match s.known.lookup (name, k), g.find? name with
      | some found, _ => (found, s)
      | none, none => (.empty, s)
      | none, some r =>
        if s.active.contains (name, k) then (.empty, s.complain (.leftRecursive name))
        else
          let out := firstOfAlts (firstOfRuleWithin g n) k r.alts .empty (s.enter (name, k))
          (out.1, out.2.leave (name, k) out.1) := by
  rw [firstOfRuleWithin_eq_lookInto, Grammar.lookInto_apply]

theorem knows_of_lookup {s : Survey} {key : Text × Int} {found : SeqSet}
    (h : s.known.lookup key = some found) : (key, found) ∈ s.known := by
  obtain ⟨before, after, heq, -⟩ := List.lookup_eq_some_iff.1 h
  exact heq ▸ List.mem_append_right _ List.mem_cons_self

theorem not_knows_of_lookup {s : Survey} {key : Text × Int} (h : s.known.lookup key = none) :
    ¬ s.Knows key := by
  rintro ⟨found, hmem⟩
  exact absurd (List.lookup_eq_none_iff.1 h _ hmem) (by simp)

/-- Every rule gives what it begins with, at every depth that leaves room. -/
theorem surveys_rule (hnodup : (g.rules.map Rule.name).Nodup)
    (hspelled : ∀ t ∈ g.terms, t.Spelled) : ∀ {n : Nat} {active : List (Text × Int)},
    Room g K n active → RulesSurveyed g active K (firstOfRuleWithin g n) := by
  intro n
  induction n with
  | zero => exact fun hroom => absurd hroom not_room_zero
  | succ n ih =>
    intro active hroom name k hpos hK habove s hactive hok _
    rw [firstOfRuleWithin_succ]
    cases hlookup : s.known.lookup (name, k) with
    | some found =>
      exact ⟨.refl s, hactive, hok, hok.entries (knows_of_lookup hlookup)⟩
    | none =>
    cases hfind : g.find? name with
    | none =>
      have hundefined : ∀ r ∈ g.rules, r.name ≠ name := by
        intro r hr hname
        rw [(find?_eq_some_iff hnodup).2 ⟨hr, hname⟩] at hfind
        cases hfind
      refine ⟨.refl s, hactive, hok, Collected.empty.describe (fun _ h => h.elim) ?_ ?_⟩
      · intro _ ts hts
        obtain ⟨r, hr, hname, -⟩ := (first_ref hpos).1 hts
        exact hundefined r hr hname
      · rintro - key ⟨-, -, hreach, r, hr, hname⟩
        rcases reaches_ref.1 hreach with heq | ⟨r', hr', hname', -⟩
        · exact absurd (hname.trans heq.symm) (hundefined r hr)
        · exact absurd hname' (hundefined r' hr')
    | some r =>
    obtain ⟨hr, hname⟩ := (find?_eq_some_iff hnodup).1 hfind
    dsimp only
    split
    · next hagain =>
      have hmem : (name, k) ∈ active := hactive ▸ List.contains_iff_mem.1 hagain
      obtain ⟨r', hr', hname', a, ha, m, rest, hexp⟩ := (habove _ hmem).2 rfl
      have hok' := hok.complain ⟨r', hr', hname', a, ha, m, rest, hexp⟩
      refine ⟨⟨List.prefix_append _ _, List.suffix_refl _⟩, hactive, hok',
        SeqSet.Keyed.empty, (fun _ h => nomatch h), fun hclean => ?_, fun hclean => ?_⟩
      all_goals exact absurd hclean (s.problems_complain_ne_nil _)
    · next hfirst =>
      have hnew : (name, k) ∉ active :=
        fun hmem => hfirst (List.contains_iff_mem.2 (hactive ▸ hmem))
      have habove' : ∀ a ∈ r.alts, Above g ((name, k) :: active) a.body k := by
        intro a ha key hkey
        rcases List.mem_cons.1 hkey with rfl | hkey
        · exact ⟨Int.le_refl k, fun _ => ⟨r, hr, hname, a, ha, 0, [], by
            rw [List.append_nil]; exact .refl⟩⟩
        · exact (habove.expand (hname ▸ .ref hr ha)) key hkey
      have halts := surveys_alts (ih (hroom.enter ⟨r, hr, hname⟩ hpos hK hnew)) hpos hK
        (fun a ha => ⟨habove' a ha, fun t ht => hspelled t (termsOf_subset_terms hr ha ht)⟩)
        (fun _ => False) (fun _ => False) .empty
      obtain ⟨hgrows, hactive', hok', hfound⟩ := halts (s.enter (name, k))
        (congrArg _ hactive) (hok.enter (not_knows_of_lookup hlookup)) Collected.empty
      -- names are unique, so the rule found is the only one of its name
      have hunique : ∀ r' ∈ g.rules, r'.name = name → r' = r := by
        intro r' hr' hname'
        exact List.inj_on_of_nodup_map hnodup hr' hr (hname'.trans hname.symm)
      obtain ⟨hleft, hentry⟩ := hok'.leave hactive' hnew hpos
        (hfound.describe (fun ts hts => ⟨r, hr, hname, hts.resolve_left id⟩)
          (fun _ ts ⟨r', hr', hname', hts⟩ => .inr (hunique r' hr' hname' ▸ hts))
          (fun _ key ⟨r', hr', hname', hkey⟩ => .inl (.inr (hunique r' hr' hname' ▸ hkey))))
      refine ⟨⟨hgrows.1, hgrows.2.trans (List.suffix_cons _ _)⟩, ?_, hleft, hentry⟩
      show (firstOfAlts _ k r.alts .empty (s.enter (name, k))).2.active.erase (name, k) = active
      rw [hactive', List.erase_cons_head]

theorem room_start (g : Grammar) (K : Int) :
    Room g K (g.rules.length * (K.toNat + 1) + 1) [] where
  nodup := List.nodup_nil
  within _ h := nomatch h
  enough := by
    rw [Nat.mul_succ, List.length_nil]
    omega

/-- What is worked out for a body while no rule is being looked into. -/
theorem surveys_firstOf (hnodup : (g.rules.map Rule.name).Nodup)
    (hspelled : ∀ t ∈ g.terms, t.Spelled) {body : List Elem} {k : Int} (hk : 0 ≤ k)
    (hbody : Elem.termsOf body ⊆ g.terms) :
    Surveys g [] (fun _ => True) (g.firstOf body k) (Found g body k) :=
  surveys_body (fun e _ => e.surveyed (surveys_rule hnodup hspelled (room_start g k))) hk
    (Int.le_refl k) Above.nil fun t ht => hspelled t (hbody ht)

/-- What is worked out for a rule while no rule is being looked into. -/
theorem surveys_firstOfRule (hnodup : (g.rules.map Rule.name).Nodup)
    (hspelled : ∀ t ∈ g.terms, t.Spelled) (name : Text) {k : Int} (hk : 0 < k) :
    Surveys g [] (fun _ => True) (firstOfRule g name k) (Found g [.ref name] k) :=
  surveys_rule hnodup hspelled (room_start g k) name k hk (Int.le_refl k) Above.nil

theorem Survey.Ok.start : Survey.Ok g {} where
  entries h := nomatch h
  straight _ _ _ := fun ⟨_, h⟩ => nomatch h
  recorded _ h := nomatch h
  apart _ h := nomatch h

/-- Nothing is recorded when no rule is left-recursive. -/
theorem Survey.Ok.clean {s : Survey} (hok : s.Ok g)
    (hstraight : ∀ r ∈ g.rules, ¬ g.LeftRecursive r.name) : s.problems = [] := by
  refine List.eq_nil_iff_forall_not_mem.2 fun p hp => ?_
  obtain ⟨name, -, hrec⟩ := hok.recorded p hp
  obtain ⟨r, hr, rfl, hreach⟩ := hrec
  exact hstraight r hr ⟨r, hr, rfl, hreach⟩

end RulesOfGrammar

end JavaPrimer
