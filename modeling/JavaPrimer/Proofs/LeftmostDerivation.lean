import JavaPrimer.Grammar.Basic
import Mathlib.Data.List.Basic

/-!
# Leftmost derivations

What a table can begin with, said by derivation. A leftmost expansion takes the first element of
a body and puts in its place what it may stand for; a term at the front is moved over to the terms
already written. The sequences of length `k` are the first `k` terms that some expansion writes,
and an expansion that ends sooner counts as it is.

The number of steps of an expansion is kept, because a repetition may go round without writing
anything: such a round is left out by induction on it.

* `Grammar.Step`, `Grammar.Leftmost` — one step, and an expansion with its number of steps;
* `Leftmost.split`, `Leftmost.front` — an expansion of two bodies one after the other, and one that
  stops sooner;
* `Grammar.FirstSeq` — the sequences of at most `k` terms that a body begins with;
* `first_append`, `first_ref`, `first_many` and others — those sequences by the shape of the body;
* `Grammar.Nullable`, `Grammar.Reaches`, `Grammar.LeftRecursive` — rules at the leftmost place;
* `Elem.byItems` — induction on elements;
* `Elem.terms`, `Grammar.terms` — the terms that a table is written with;
* `Grammar.Within` — a table whose alternatives are all in another one.
-/

namespace JavaPrimer

namespace Grammar

/-! ### Expansions -/

/-- An element at the front is replaced: a term is written and goes, a rule becomes the body of one
of its alternatives, a repetition stops or goes round once more. -/
inductive Step (g : Grammar) : Elem → List Term → List Elem → Prop
  | term {t : Term} : Step g (.term t) [t] []
  | ref {r : Rule} {a : Alt} : r ∈ g.rules → a ∈ r.alts → Step g (.ref r.name) [] a.body
  | seq {items : List Elem} : Step g (.seq items) [] items
  | skip {items : List Elem} : Step g (.opt items) [] []
  | take {items : List Elem} : Step g (.opt items) [] items
  | stop {items : List Elem} : Step g (.many items) [] []
  | again {items : List Elem} : Step g (.many items) [] (items ++ [.many items])
  | oneOf {items : List Elem} {e : Elem} : e ∈ items → Step g (.oneOf items) [] [e]

/-- A body expands in `n` steps, always at its front, to some terms and the elements left. -/
inductive Leftmost (g : Grammar) : Nat → List Elem → List Term → List Elem → Prop
  | refl {body : List Elem} : Leftmost g 0 body [] body
  | step {n : Nat} {e : Elem} {items rest left : List Elem} {us ts : List Term} :
      g.Step e us items → Leftmost g n (items ++ rest) ts left →
      Leftmost g (n + 1) (e :: rest) (us ++ ts) left

variable {g : Grammar} {m n : Nat} {xs ys items left : List Elem} {us vs ts : List Term} {k : Int}

/-- An expansion followed by another of what it leaves. -/
theorem Leftmost.trans (h : g.Leftmost m xs us ys) (h' : g.Leftmost n ys vs left) :
    g.Leftmost (m + n) xs (us ++ vs) left := by
  induction h with
  | refl => rwa [Nat.zero_add, List.nil_append]
  | step hstep _ ih =>
    rw [Nat.succ_add, List.append_assoc]
    exact .step hstep (ih h')

/-- What stands behind a body does not matter to its expansions. -/
theorem Leftmost.append_right (h : g.Leftmost n xs ts left) (ys : List Elem) :
    g.Leftmost n (xs ++ ys) ts (left ++ ys) := by
  induction h with
  | refl => exact .refl
  | step hstep _ ih =>
    rw [List.append_assoc] at ih
    exact .step hstep ih

/-- An expansion of two bodies stays in the first, or has used it up. -/
theorem Leftmost.split (h : g.Leftmost n (xs ++ ys) ts left) :
    (∃ left', g.Leftmost n xs ts left' ∧ left = left' ++ ys)
      ∨ ∃ m₁ m₂ us vs, n = m₁ + m₂ ∧ ts = us ++ vs ∧ g.Leftmost m₁ xs us []
          ∧ g.Leftmost m₂ ys vs left := by
  induction n generalizing xs ts with
  | zero =>
    cases h
    exact .inl ⟨xs, .refl, rfl⟩
  | succ n ih =>
    cases xs with
    | nil => exact .inr ⟨0, n + 1, [], ts, (Nat.zero_add _).symm, rfl, .refl, h⟩
    | cons e xs =>
      rw [List.cons_append] at h
      cases h with
      | @step _ _ items _ _ us ts hstep hrest =>
        rw [← List.append_assoc] at hrest
        rcases ih hrest with ⟨left', hin, rfl⟩ | ⟨m₁, m₂, us', vs, rfl, rfl, hin, hout⟩
        · exact .inl ⟨left', .step hstep hin, rfl⟩
        · refine .inr ⟨m₁ + 1, m₂, us ++ us', vs, ?_, (List.append_assoc ..).symm,
            .step hstep hin, hout⟩
          exact Nat.add_right_comm m₁ m₂ 1

/-- A step writes one term at most. -/
theorem Step.length_le {e : Elem} (h : g.Step e us items) : us.length ≤ 1 := by
  cases h <;> simp

/-- Every front of what an expansion writes is written by an expansion that stops there. -/
theorem Leftmost.front (h : g.Leftmost n xs ts left) (hfront : us <+: ts) :
    ∃ m left', g.Leftmost m xs us left' := by
  induction h generalizing us with
  | refl =>
    obtain rfl := List.prefix_nil.1 hfront
    exact ⟨0, _, .refl⟩
  | @step n e items rest left ws ts hstep _ ih =>
    by_cases hus : us = []
    · subst hus
      exact ⟨0, _, .refl⟩
    · have hlen : ws.length ≤ us.length :=
        Nat.le_trans hstep.length_le (List.length_pos_iff.2 hus)
      obtain ⟨vs, rfl⟩ := List.prefix_of_prefix_length_le (List.prefix_append ws ts) hfront hlen
      obtain ⟨m, left', hrest⟩ := ih ((List.prefix_append_right_inj ws).1 hfront)
      exact ⟨m + 1, left', .step hstep hrest⟩

/-! ### First sequences -/

/-- A sequence that a body begins with under a budget: `k` terms that an expansion writes, or fewer
when the expansion is complete. -/
def FirstSeq (g : Grammar) (k : Int) (body : List Elem) (ts : List Term) : Prop :=
  ∃ n left, g.Leftmost n body ts left ∧ ((ts.length : Int) = k ∨ left = [] ∧ (ts.length : Int) < k)

theorem FirstSeq.length_le {body : List Elem} (h : g.FirstSeq k body ts) :
    (ts.length : Int) ≤ k := by
  obtain ⟨n, left, -, hlen | ⟨-, hlen⟩⟩ := h <;> omega

/-- A sequence shorter than the budget is a complete expansion. -/
theorem FirstSeq.complete {body : List Elem} (h : g.FirstSeq k body ts)
    (hlen : (ts.length : Int) < k) : ∃ n, g.Leftmost n body ts [] := by
  obtain ⟨n, left, hexp, hfull | ⟨rfl, -⟩⟩ := h
  · omega
  · exact ⟨n, hexp⟩

/-- Under a smaller budget a body begins with a front of each sequence. -/
theorem FirstSeq.front {body : List Elem} {j : Int} (h : g.FirstSeq k body ts) (hj : 0 ≤ j)
    (hjk : j ≤ k) : ∃ us, us <+: ts ∧ g.FirstSeq j body us := by
  obtain ⟨n, left, hexp, hfull⟩ := h
  by_cases hlen : (ts.length : Int) < j
  · have hleft : left = [] := by
      rcases hfull with hfull | ⟨hleft, -⟩
      · omega
      · exact hleft
    exact ⟨ts, List.prefix_refl ts, n, left, hexp, .inr ⟨hleft, hlen⟩⟩
  · obtain ⟨m, left', hexp⟩ := hexp.front (List.take_prefix j.toNat ts)
    refine ⟨ts.take j.toNat, List.take_prefix _ _, m, left', hexp, .inl ?_⟩
    rw [List.length_take]
    omega

theorem first_zero {body : List Elem} : g.FirstSeq 0 body ts ↔ ts = [] := by
  constructor
  · intro h
    have := h.length_le
    exact List.length_eq_zero_iff.1 (by omega)
  · rintro rfl
    exact ⟨0, body, .refl, .inl rfl⟩

theorem first_nil (hk : 0 ≤ k) : g.FirstSeq k [] ts ↔ ts = [] := by
  constructor
  · rintro ⟨n, left, h, -⟩
    cases h
    rfl
  · rintro rfl
    refine ⟨0, [], .refl, ?_⟩
    rcases Int.lt_or_eq_of_le hk with hk | rfl
    · exact .inr ⟨rfl, hk⟩
    · exact .inl rfl

/-- Two bodies one after the other: the first fills the budget, or ends and leaves the rest of it
to the second. -/
theorem first_append :
    g.FirstSeq k (xs ++ ys) ts ↔ (g.FirstSeq k xs ts ∧ (ts.length : Int) = k)
      ∨ ∃ us vs, ts = us ++ vs ∧ g.FirstSeq k xs us ∧ (us.length : Int) < k
          ∧ g.FirstSeq (k - us.length) ys vs := by
  constructor
  · rintro ⟨n, left, h, hfull⟩
    rcases h.split with ⟨left', hin, rfl⟩ | ⟨m₁, m₂, us, vs, rfl, rfl, hin, hout⟩
    · rcases hfull with hfull | ⟨hleft, hlt⟩
      · exact .inl ⟨⟨n, left', hin, .inl hfull⟩, hfull⟩
      · obtain ⟨rfl, rfl⟩ := List.append_eq_nil_iff.1 hleft
        exact .inr ⟨ts, [], (List.append_nil ts).symm, ⟨n, [], hin, .inr ⟨rfl, hlt⟩⟩, hlt,
          (first_nil (by omega)).2 rfl⟩
    · rw [List.length_append, Int.natCast_add] at hfull
      by_cases hus : (us.length : Int) < k
      · refine .inr ⟨us, vs, rfl, ⟨m₁, [], hin, .inr ⟨rfl, hus⟩⟩, hus, m₂, left, hout, ?_⟩
        rcases hfull with hfull | ⟨hleft, hlt⟩
        · exact .inl (by omega)
        · exact .inr ⟨hleft, by omega⟩
      · -- the first body has filled the budget, so the second writes nothing
        have hvs : vs.length = 0 := by omega
        have hus' : (us.length : Int) = k := by omega
        rw [List.length_eq_zero_iff.1 hvs, List.append_nil]
        exact .inl ⟨⟨m₁, [], hin, .inl hus'⟩, hus'⟩
  · rintro (⟨⟨n, left, h, -⟩, hfull⟩ | ⟨us, vs, rfl, hus, hlt, n, left, hvs, hfull⟩)
    · exact ⟨n, left ++ ys, h.append_right ys, .inl hfull⟩
    · obtain ⟨m, hus⟩ := hus.complete hlt
      refine ⟨m + n, left, (hus.append_right ys).trans hvs, ?_⟩
      rw [List.length_append, Int.natCast_add]
      rcases hfull with hfull | ⟨hleft, hfull⟩
      · exact .inl (by omega)
      · exact .inr ⟨hleft, by omega⟩

/-- One element is expanded before anything is written. -/
theorem first_singleton {e : Elem} (hk : 0 < k) :
    g.FirstSeq k [e] ts ↔ ∃ us items vs, g.Step e us items ∧ ts = us ++ vs
      ∧ ∃ n left, g.Leftmost n items vs left
          ∧ ((ts.length : Int) = k ∨ left = [] ∧ (ts.length : Int) < k) := by
  constructor
  · rintro ⟨n, left, h, hfull⟩
    cases h with
    | refl =>
      rcases hfull with hfull | ⟨hleft, -⟩
      · rw [List.length_nil] at hfull
        exact absurd hfull (by omega)
      · cases hleft
    | step hstep hrest =>
      rw [List.append_nil] at hrest
      exact ⟨_, _, _, hstep, rfl, _, _, hrest, hfull⟩
  · rintro ⟨us, items, vs, hstep, rfl, n, left, hrest, hfull⟩
    exact ⟨n + 1, left, .step hstep (by rwa [List.append_nil]), hfull⟩

/-- An element that is no term has the sequences of what it may stand for. -/
theorem first_of_step {e : Elem} (hk : 0 < k) (hsilent : ∀ us items, g.Step e us items → us = []) :
    g.FirstSeq k [e] ts ↔ ∃ items, g.Step e [] items ∧ g.FirstSeq k items ts := by
  rw [first_singleton hk]
  constructor
  · rintro ⟨us, items, vs, hstep, rfl, hrest⟩
    obtain rfl := hsilent us items hstep
    exact ⟨items, hstep, hrest⟩
  · rintro ⟨items, hstep, hrest⟩
    exact ⟨[], items, ts, hstep, rfl, hrest⟩

theorem first_term {t : Term} (hk : 0 < k) : g.FirstSeq k [.term t] ts ↔ ts = [t] := by
  rw [first_singleton hk]
  constructor
  · rintro ⟨us, items, vs, ⟨⟩, rfl, n, left, hrest, -⟩
    cases hrest
    rfl
  · rintro rfl
    refine ⟨[t], [], [], .term, rfl, 0, [], .refl, ?_⟩
    rw [List.length_singleton]
    rcases Int.lt_or_eq_of_le (show (1 : Int) ≤ k by omega) with hk | hk
    · exact .inr ⟨rfl, hk⟩
    · exact .inl hk

theorem first_ref {name : Text} (hk : 0 < k) :
    g.FirstSeq k [.ref name] ts
      ↔ ∃ r ∈ g.rules, r.name = name ∧ ∃ a ∈ r.alts, g.FirstSeq k a.body ts := by
  rw [first_of_step hk (fun us items h => by cases h; rfl)]
  constructor
  · rintro ⟨items, hstep, h⟩
    cases hstep with
    | ref hr ha => exact ⟨_, hr, rfl, _, ha, h⟩
  · rintro ⟨r, hr, rfl, a, ha, h⟩
    exact ⟨a.body, .ref hr ha, h⟩

theorem first_seq (hk : 0 < k) : g.FirstSeq k [.seq items] ts ↔ g.FirstSeq k items ts := by
  rw [first_of_step hk (fun us items h => by cases h; rfl)]
  constructor
  · rintro ⟨items, ⟨⟩, h⟩
    exact h
  · exact fun h => ⟨items, .seq, h⟩

theorem first_opt (hk : 0 < k) :
    g.FirstSeq k [.opt items] ts ↔ ts = [] ∨ g.FirstSeq k items ts := by
  rw [first_of_step hk (fun us items h => by cases h <;> rfl)]
  constructor
  · rintro ⟨items, ⟨⟩, h⟩
    · exact .inl ((first_nil (Int.le_of_lt hk)).1 h)
    · exact .inr h
  · rintro (rfl | h)
    · exact ⟨[], .skip, (first_nil (Int.le_of_lt hk)).2 rfl⟩
    · exact ⟨items, .take, h⟩

theorem first_oneOf (hk : 0 < k) :
    g.FirstSeq k [.oneOf items] ts ↔ ∃ e ∈ items, g.FirstSeq k [e] ts := by
  rw [first_of_step hk (fun us items h => by cases h; rfl)]
  constructor
  · rintro ⟨items, hstep, h⟩
    cases hstep with
    | oneOf he => exact ⟨_, he, h⟩
  · rintro ⟨e, he, h⟩
    exact ⟨[e], .oneOf he, h⟩

/-- A repetition stops at once, or goes round and comes back to itself. -/
theorem first_round (hk : 0 < k) :
    g.FirstSeq k [.many items] ts ↔ ts = [] ∨ g.FirstSeq k (items ++ [.many items]) ts := by
  rw [first_of_step hk (fun us items h => by cases h <;> rfl)]
  constructor
  · rintro ⟨items, ⟨⟩, h⟩
    · exact .inl ((first_nil (Int.le_of_lt hk)).1 h)
    · exact .inr h
  · rintro (rfl | h)
    · exact ⟨[], .stop, (first_nil (Int.le_of_lt hk)).2 rfl⟩
    · exact ⟨_, .again, h⟩

/-- A repetition, round by round; a round that writes nothing is passed over. -/
theorem first_many (hk : 0 < k) :
    g.FirstSeq k [.many items] ts ↔ ts = []
      ∨ ∃ us, g.FirstSeq k items us ∧ us ≠ [] ∧ ((us.length : Int) = k ∧ ts = us
          ∨ (us.length : Int) < k ∧ ∃ vs, ts = us ++ vs
              ∧ g.FirstSeq (k - us.length) [.many items] vs) := by
  constructor
  · rintro ⟨n, left, h, hfull⟩
    -- on the number of steps, for rounds that write nothing
    induction n using Nat.strongRecOn generalizing ts left with
    | ind n ih =>
      cases h with
      | refl =>
        rcases hfull with hfull | ⟨hleft, -⟩
        · rw [List.length_nil] at hfull
          exact absurd hfull (by omega)
        · cases hleft
      | @step n _ items' _ _ us ts hround hrest =>
        cases hround with
        | stop =>
          cases hrest
          exact .inl rfl
        | again =>
          rw [List.append_nil] at hrest
          rw [List.nil_append] at hfull ⊢
          rcases hrest.split with ⟨left', hin, rfl⟩ | ⟨m₁, m₂, us, vs, rfl, rfl, hin, hout⟩
          · rcases hfull with hfull | ⟨hleft, -⟩
            · refine .inr ⟨ts, ⟨n, left', hin, .inl hfull⟩, ?_, .inl ⟨hfull, rfl⟩⟩
              rintro rfl
              rw [List.length_nil] at hfull
              exact absurd hfull (by omega)
            · exact absurd hleft (List.append_ne_nil_of_right_ne_nil _ (List.cons_ne_nil _ _))
          · by_cases hus : us = []
            · subst hus
              exact ih m₂ (by omega) _ hout hfull
            · rw [List.length_append, Int.natCast_add] at hfull
              by_cases hlt : (us.length : Int) < k
              · refine .inr ⟨us, ⟨m₁, [], hin, .inr ⟨rfl, hlt⟩⟩, hus, .inr ⟨hlt, vs, rfl, m₂, left,
                  hout, ?_⟩⟩
                rcases hfull with hfull | ⟨hleft, hfull⟩
                · exact .inl (by omega)
                · exact .inr ⟨hleft, by omega⟩
              · have hvs : vs.length = 0 := by omega
                have hus' : (us.length : Int) = k := by omega
                rw [List.length_eq_zero_iff.1 hvs, List.append_nil]
                exact .inr ⟨us, ⟨m₁, [], hin, .inl hus'⟩, hus, .inl ⟨hus', rfl⟩⟩
  · rw [first_round hk, first_append]
    rintro (h | ⟨us, hus, -, ⟨hlen, rfl⟩ | ⟨hlt, vs, rfl, hvs⟩⟩)
    · exact .inl h
    · exact .inr (.inl ⟨hus, hlen⟩)
    · exact .inr (.inr ⟨us, vs, rfl, hus, hlt, hvs⟩)

/-! ### Rules at the leftmost place -/

/-- A body that can stand for nothing. -/
def Nullable (g : Grammar) (body : List Elem) : Prop := ∃ n, g.Leftmost n body [] []

/-- A rule comes to stand at the front of a body before anything is written: whatever stood before
it was nullable and is gone. -/
def Reaches (g : Grammar) (body : List Elem) (name : Text) : Prop :=
  ∃ n rest, g.Leftmost n body [] (.ref name :: rest)

/-- A rule that can reach itself at the leftmost place. -/
def LeftRecursive (g : Grammar) (name : Text) : Prop :=
  ∃ r ∈ g.rules, r.name = name ∧ ∃ a ∈ r.alts, g.Reaches a.body name

theorem nullable_iff_first {body : List Elem} (hk : 0 < k) :
    g.Nullable body ↔ g.FirstSeq k body [] := by
  constructor
  · rintro ⟨n, h⟩
    exact ⟨n, [], h, .inr ⟨rfl, hk⟩⟩
  · exact fun h => h.complete hk

theorem not_reaches_nil {name : Text} : ¬ g.Reaches [] name := by
  rintro ⟨n, rest, h⟩
  cases h

theorem reaches_append {name : Text} :
    g.Reaches (xs ++ ys) name ↔ g.Reaches xs name ∨ g.Nullable xs ∧ g.Reaches ys name := by
  constructor
  · rintro ⟨n, rest, h⟩
    rcases h.split with ⟨left', hin, hleft⟩ | ⟨m₁, m₂, us, vs, rfl, hts, hin, hout⟩
    · cases left' with
      | nil => exact .inr ⟨⟨n, hin⟩, 0, rest, hleft ▸ .refl⟩
      | cons e left' =>
        obtain ⟨rfl, -⟩ := List.cons.inj hleft
        exact .inl ⟨n, left', hin⟩
    · obtain ⟨rfl, rfl⟩ := List.append_eq_nil_iff.1 hts.symm
      exact .inr ⟨⟨m₁, hin⟩, m₂, rest, hout⟩
  · rintro (⟨n, rest, h⟩ | ⟨⟨m, hnull⟩, n, rest, h⟩)
    · exact ⟨n, rest ++ ys, h.append_right ys⟩
    · exact ⟨m + n, rest, (hnull.append_right ys).trans h⟩

theorem reaches_singleton {e : Elem} {name : Text} :
    g.Reaches [e] name ↔ e = .ref name ∨ ∃ items, g.Step e [] items ∧ g.Reaches items name := by
  constructor
  · rintro ⟨n, rest, h⟩
    generalize hts : ([] : List Term) = ts at h
    cases h with
    | refl => exact .inl rfl
    | step hstep hrest =>
      obtain ⟨rfl, rfl⟩ := List.append_eq_nil_iff.1 hts.symm
      rw [List.append_nil] at hrest
      exact .inr ⟨_, hstep, _, rest, hrest⟩
  · rintro (rfl | ⟨items, hstep, n, rest, h⟩)
    · exact ⟨0, [], .refl⟩
    · exact ⟨n + 1, rest, .step hstep (by rwa [List.append_nil])⟩

theorem not_reaches_term {t : Term} {name : Text} : ¬ g.Reaches [.term t] name := by
  rw [reaches_singleton]
  rintro (h | ⟨items, h, -⟩)
  · cases h
  · cases h

theorem reaches_ref {name target : Text} :
    g.Reaches [.ref name] target
      ↔ name = target ∨ ∃ r ∈ g.rules, r.name = name ∧ ∃ a ∈ r.alts, g.Reaches a.body target := by
  rw [reaches_singleton]
  constructor
  · rintro (h | ⟨items, hstep, h⟩)
    · exact .inl (Elem.ref.inj h)
    · cases hstep with
      | ref hr ha => exact .inr ⟨_, hr, rfl, _, ha, h⟩
  · rintro (rfl | ⟨r, hr, rfl, a, ha, h⟩)
    · exact .inl rfl
    · exact .inr ⟨a.body, .ref hr ha, h⟩

theorem reaches_seq {name : Text} (h : g.Reaches [.seq items] name) : g.Reaches items name := by
  rcases reaches_singleton.1 h with h | ⟨items, ⟨⟩, h⟩
  · cases h
  · exact h

theorem reaches_opt {name : Text} (h : g.Reaches [.opt items] name) : g.Reaches items name := by
  rcases reaches_singleton.1 h with h | ⟨items, ⟨⟩, h⟩
  · cases h
  · exact absurd h not_reaches_nil
  · exact h

theorem reaches_oneOf {name : Text} (h : g.Reaches [.oneOf items] name) :
    ∃ e ∈ items, g.Reaches [e] name := by
  rcases reaches_singleton.1 h with h | ⟨items, hstep, h⟩
  · cases h
  · cases hstep with
    | oneOf he => exact ⟨_, he, h⟩

/-- Only the first round of a repetition matters: the rounds before were nullable. -/
theorem reaches_many {name : Text} (h : g.Reaches [.many items] name) : g.Reaches items name := by
  obtain ⟨n, rest, h⟩ := h
  generalize hleft : Elem.ref name :: rest = left at h
  induction n using Nat.strongRecOn with
  | ind n ih =>
    generalize hts : ([] : List Term) = ts at h
    cases h with
    | refl => cases hleft
    | step hround hrest =>
      obtain ⟨rfl, rfl⟩ := List.append_eq_nil_iff.1 hts.symm
      subst hleft
      rw [List.append_nil] at hrest
      cases hround with
      | stop => cases hrest
      | again =>
        rcases hrest.split with ⟨left', hin, hleft⟩ | ⟨m₁, m₂, us, vs, rfl, hvs, hin, hout⟩
        · cases left' with
          | nil => cases hleft
          | cons e left' =>
            obtain ⟨rfl, -⟩ := List.cons.inj hleft
            exact ⟨_, left', hin⟩
        · obtain ⟨rfl, rfl⟩ := List.append_eq_nil_iff.1 hvs.symm
          exact ih m₂ (by omega) hout

end Grammar

/-! ### Elements by their items -/

/-- Induction on elements, the items of an element being its parts. -/
@[elab_as_elim]
theorem Elem.byItems {P : Elem → Prop} (term : ∀ t, P (.term t)) (ref : ∀ name, P (.ref name))
    (seq : ∀ items, (∀ e ∈ items, P e) → P (.seq items))
    (opt : ∀ items, (∀ e ∈ items, P e) → P (.opt items))
    (many : ∀ items, (∀ e ∈ items, P e) → P (.many items))
    (oneOf : ∀ items, (∀ e ∈ items, P e) → P (.oneOf items)) (e : Elem) : P e := by
  refine @Elem.rec P (fun items => ∀ e ∈ items, P e) term ref seq opt many oneOf ?_ ?_ e
  · exact fun e h => nomatch h
  · intro e items he hitems x hx
    rcases List.mem_cons.1 hx with rfl | hx
    · exact he
    · exact hitems x hx

/-! ### The terms of a table -/

namespace Elem

mutual

/-- The terms written in an element. -/
def terms : Elem → List Term
  | term t => [t]
  | ref _ => []
  | seq items | opt items | many items | oneOf items => termsOf items

/-- The terms written in a list of elements. -/
def termsOf : List Elem → List Term
  | [] => []
  | e :: rest => e.terms ++ termsOf rest

end

end Elem

namespace Grammar

/-- The terms written in the bodies of a table. -/
def terms (g : Grammar) : List Term :=
  g.rules.flatMap fun r => r.alts.flatMap fun a => Elem.termsOf a.body

theorem termsOf_subset_terms {g : Grammar} {r : Rule} {a : Alt} (hr : r ∈ g.rules) (ha : a ∈ r.alts) :
    Elem.termsOf a.body ⊆ g.terms :=
  fun _ ht => List.mem_flatMap.2 ⟨r, hr, List.mem_flatMap.2 ⟨a, ha, ht⟩⟩

/-! ### The alternatives of another table -/

/-- Every alternative of a table is in another one, under a rule of the same name. -/
def Within (g g' : Grammar) : Prop :=
  ∀ r ∈ g.rules, ∃ r' ∈ g'.rules, r'.name = r.name ∧ r.alts ⊆ r'.alts

namespace Within

variable {g g' : Grammar} {n : Nat} {body left : List Elem} {ts : List Term} {k : Int}

theorem step (h : g.Within g') {e : Elem} {us : List Term} {items : List Elem}
    (hstep : g.Step e us items) : g'.Step e us items := by
  cases hstep with
  | ref hr ha =>
    obtain ⟨r', hr', hname, halts⟩ := h _ hr
    exact hname ▸ .ref hr' (halts ha)
  | term => exact .term
  | seq => exact .seq
  | skip => exact .skip
  | take => exact .take
  | stop => exact .stop
  | again => exact .again
  | oneOf he => exact .oneOf he

theorem leftmost (h : g.Within g') (hexp : g.Leftmost n body ts left) :
    g'.Leftmost n body ts left := by
  induction hexp with
  | refl => exact .refl
  | step hstep _ ih => exact .step (h.step hstep) ih

theorem firstSeq (h : g.Within g') (hts : g.FirstSeq k body ts) : g'.FirstSeq k body ts := by
  obtain ⟨n, left, hexp, hlen⟩ := hts
  exact ⟨n, left, h.leftmost hexp, hlen⟩

theorem leftRecursive (h : g.Within g') {name : Text} (hrec : g.LeftRecursive name) :
    g'.LeftRecursive name := by
  obtain ⟨r, hr, hname, a, ha, n, rest, hexp⟩ := hrec
  obtain ⟨r', hr', hname', halts⟩ := h r hr
  exact ⟨r', hr', hname'.trans hname, a, halts ha, n, rest, h.leftmost hexp⟩

theorem terms_subset (h : g.Within g') : g.terms ⊆ g'.terms := by
  intro t ht
  obtain ⟨r, hr, ht⟩ := List.mem_flatMap.1 ht
  obtain ⟨a, ha, ht⟩ := List.mem_flatMap.1 ht
  obtain ⟨r', hr', -, halts⟩ := h r hr
  exact termsOf_subset_terms hr' (halts ha) ht

end Within

end Grammar

end JavaPrimer
