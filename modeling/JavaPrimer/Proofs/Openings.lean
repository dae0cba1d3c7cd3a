import JavaPrimer.Proofs.Derivation
import JavaPrimer.Proofs.Prediction

/-!
# What a body opens with

The tokens that a body of a grammar can begin with follow its shape, element by element and rule by
rule. With one token of lookahead the choice of a rule is a search through what its alternatives
open with.

* `Grammar.Opens` — a body that is never empty, and the tokens that it opens with;
* `Grammar.opens_term`, `Opens.opt`, `Opens.many`, `Grammar.opens_kinds`, `Grammar.opens_ref` — the
  kinds of element;
* `Grammar.OpenEach` — the alternatives of a rule one by one;
* `RuleCompiled.predict_eq_find` — the choice as a search.
-/

namespace JavaPrimer

open Grammar

/-! ### Opening tokens -/

namespace Grammar

/-- A body that is never empty and opens with the tokens of which `P` holds. -/
structure Opens (g : Grammar) (body : List Elem) (P : Token → Bool) : Prop where
  solid : ¬ g.FirstSeq 1 body []
  iff : ∀ tok, (∃ t, g.FirstSeq 1 body [t] ∧ t.accepts tok = true) ↔ P tok = true

variable {g : Grammar} {xs ys items rest : List Elem} {P Q : Token → Bool}

theorem Opens.congr (h : g.Opens xs P) (heq : ∀ tok, P tok = Q tok) : g.Opens xs Q :=
  ⟨h.solid, fun tok => heq tok ▸ h.iff tok⟩

/-- Of two bodies, the second opens only where the first can be empty. -/
theorem first_one_append {t : Term} : g.FirstSeq 1 (xs ++ ys) [t]
    ↔ g.FirstSeq 1 xs [t] ∨ g.FirstSeq 1 xs [] ∧ g.FirstSeq 1 ys [t] := by
  rw [first_append]
  constructor
  · rintro (⟨h, -⟩ | ⟨us, vs, heq, hus, hlt, hvs⟩)
    · exact .inl h
    · obtain rfl : us = [] := List.length_eq_zero_iff.1 (by omega)
      obtain rfl : [t] = vs := heq
      exact .inr ⟨hus, hvs⟩
  · rintro (h | ⟨hxs, hys⟩)
    · exact .inl ⟨h, rfl⟩
    · exact .inr ⟨[], [t], rfl, hxs, by decide, hys⟩

theorem first_one_append_nil :
    g.FirstSeq 1 (xs ++ ys) [] ↔ g.FirstSeq 1 xs [] ∧ g.FirstSeq 1 ys [] := by
  rw [first_append]
  constructor
  · rintro (⟨-, h⟩ | ⟨us, vs, heq, hus, -, hvs⟩)
    · cases h
    · obtain ⟨rfl, rfl⟩ := List.append_eq_nil_iff.1 heq.symm
      exact ⟨hus, hvs⟩
  · rintro ⟨hxs, hys⟩
    exact .inr ⟨[], [], rfl, hxs, by decide, hys⟩

/-- What stands behind a body that is never empty does not matter. -/
theorem Opens.append (h : g.Opens xs P) (ys : List Elem) : g.Opens (xs ++ ys) P where
  solid hnil := h.solid (first_one_append_nil.1 hnil).1
  iff tok := by
    rw [← h.iff tok]
    refine exists_congr fun t => and_congr_left fun _ => ?_
    rw [first_one_append]
    exact or_iff_left fun hnil => h.solid hnil.1

/-- A body that may be empty, in front of one that is not: either can open. -/
theorem Opens.after (h : g.Opens ys P) (xs : List Elem) (hnil : g.FirstSeq 1 xs [])
    (hiff : ∀ tok, (∃ t, g.FirstSeq 1 xs [t] ∧ t.accepts tok = true) ↔ Q tok = true) :
    g.Opens (xs ++ ys) fun tok => Q tok || P tok where
  solid hempty := h.solid (first_one_append_nil.1 hempty).2
  iff tok := by
    rw [Bool.or_eq_true, ← h.iff tok, ← hiff tok, ← exists_or]
    refine exists_congr fun t => ?_
    rw [first_one_append, ← or_and_right, and_iff_right hnil]

theorem accepts_token_eq (k : Kind) (tok : Token) :
    (Term.token k).accepts tok = (tok.kind == k) := by
  rw [Bool.eq_iff_iff, accepts_token, beq_iff_eq]

theorem opens_term {t : Term} : g.Opens [.term t] t.accepts where
  solid hnil := absurd ((first_term (by decide)).1 hnil) (List.cons_ne_nil _ _).symm
  iff tok := by
    simp only [first_term (show (0 : Int) < 1 by decide), List.cons.injEq, and_true]
    exact ⟨fun ⟨u, hu, h⟩ => hu ▸ h, fun h => ⟨t, rfl, h⟩⟩

/-- An optional body in front. -/
theorem Opens.opt (h : g.Opens items Q) (hrest : g.Opens rest P) :
    g.Opens (.opt items :: rest) fun tok => Q tok || P tok := by
  refine hrest.after [.opt items] ?_ fun tok => ?_
  · exact (first_opt (by decide)).2 (.inl rfl)
  · rw [← h.iff tok]
    refine exists_congr fun t => and_congr_left fun _ => ?_
    rw [first_opt (by decide)]
    exact or_iff_right (List.cons_ne_nil _ _)

/-- A repeated body in front. -/
theorem Opens.many (h : g.Opens items Q) (hrest : g.Opens rest P) :
    g.Opens (.many items :: rest) fun tok => Q tok || P tok := by
  refine hrest.after [.many items] ?_ fun tok => ?_
  · exact (first_round (by decide)).2 (.inl rfl)
  · rw [← (h.append [.many items]).iff tok]
    refine exists_congr fun t => and_congr_left fun _ => ?_
    rw [first_round (by decide)]
    exact or_iff_right (List.cons_ne_nil _ _)

/-- One token of a few kinds. -/
theorem opens_kinds (ks : List Kind) : g.Opens [.kinds ks] fun tok => ks.contains tok.kind := by
  have hone : (0 : Int) < 1 := by decide
  have hfirst : ∀ ts, g.FirstSeq 1 [.kinds ks] ts ↔ ∃ k ∈ ks, ts = [.token k] := by
    intro ts
    unfold Elem.kinds
    split
    · simp only [first_term hone, List.mem_singleton, exists_eq_left]
    · simp only [first_oneOf hone, first_term hone, List.mem_map, exists_exists_and_eq_and]
  refine ⟨fun hnil => ?_, fun tok => ?_⟩
  · obtain ⟨k, -, h⟩ := (hfirst []).1 hnil
    cases h
  · rw [List.contains_iff_mem]
    constructor
    · rintro ⟨t, ht, haccepts⟩
      obtain ⟨k, hk, heq⟩ := (hfirst [t]).1 ht
      obtain rfl := List.singleton_inj.1 heq
      exact accepts_token.1 haccepts ▸ hk
    · exact fun hk => ⟨.token tok.kind, (hfirst _).2 ⟨_, hk, rfl⟩, accepts_token.2 rfl⟩

/-- What the alternatives of a list open with, one by one. -/
def OpenEach (g : Grammar) (alts : List Alt) (Ps : List (Token → Bool)) : Prop :=
  List.Forall₂ (fun a P => g.Opens a.body P) alts Ps

theorem OpenEach.nil : g.OpenEach [] [] := List.Forall₂.nil

theorem OpenEach.cons {name : Text} {gate : List Term} {body : List Elem} {alts : List Alt}
    {Ps : List (Token → Bool)} (h : g.Opens body P) (hrest : g.OpenEach alts Ps) :
    g.OpenEach (⟨name, gate, body⟩ :: alts) (P :: Ps) :=
  List.Forall₂.cons h hrest

theorem exists_mem_of_forall₂ {α β : Type} {R : α → β → Prop} {p : α → Prop} {q : β → Prop}
    {as : List α} {bs : List β} (h : List.Forall₂ R as bs) (hpq : ∀ a b, R a b → (p a ↔ q b)) :
    (∃ a ∈ as, p a) ↔ ∃ b ∈ bs, q b := by
  induction h with
  | nil => simp only [List.not_mem_nil, false_and, exists_false]
  | cons hab _ ih => simp only [List.mem_cons, exists_eq_or_imp, hpq _ _ hab, ih]

/-- A rule opens as its alternatives do. -/
theorem opens_ref {n : Text} {r : Rule} {Ps : List (Token → Bool)}
    (hunique : (g.rules.map Rule.name).Nodup) (hr : g.find? n = some r)
    (h : g.OpenEach r.alts Ps) : g.Opens [.ref n] fun tok => Ps.any (· tok) := by
  have hmem : r ∈ g.rules := List.mem_of_find?_eq_some hr
  have hname : r.name = n := by simpa using List.find?_some hr
  have hfirst : ∀ ts, g.FirstSeq 1 [.ref n] ts ↔ ∃ a ∈ r.alts, g.FirstSeq 1 a.body ts := by
    intro ts
    rw [first_ref (by decide)]
    constructor
    · rintro ⟨r', hr', hname', hfirst⟩
      obtain rfl := List.inj_on_of_nodup_map hunique hr' hmem (hname'.trans hname.symm)
      exact hfirst
    · exact fun hfirst => ⟨r, hmem, hname, hfirst⟩
  refine ⟨fun hnil => ?_, fun tok => ?_⟩
  · obtain ⟨P, -, hfalse⟩ := (exists_mem_of_forall₂ h (q := fun _ => False)
      fun a P hP => iff_of_false hP.solid id).1 ((hfirst []).1 hnil)
    exact hfalse
  · rw [List.any_eq_true, ← exists_mem_of_forall₂ h fun a P hP => hP.iff tok]
    simp only [hfirst]
    constructor
    · rintro ⟨t, ⟨a, ha, ht⟩, haccepts⟩
      exact ⟨a, ha, t, ht, haccepts⟩
    · rintro ⟨a, ha, t, ht, haccepts⟩
      exact ⟨t, ⟨a, ha, ht⟩, haccepts⟩

end Grammar

/-! ### Choosing by one token -/

/-- Whether the tokens ahead match the gate of an alternative that has one. -/
def Alt.gatedOn (ahead : Nat → Token) (a : Alt) : Bool :=
  !a.gate.isEmpty && sequenceMatches ahead a.gate

section Choosing

variable {g : Grammar} {r : Rule} {c : Choice} {ahead : Nat → Token} {i : Nat}

theorem Rule.gateMatches_iff :
    r.GateMatches ahead i ↔ ∃ a, r.alts[i]? = some a ∧ a.gatedOn ahead = true := by
  refine exists_congr fun a => and_congr_right fun _ => ?_
  rw [Alt.gatedOn, Bool.and_eq_true, Bool.not_eq_true', List.isEmpty_eq_false_iff,
    sequenceMatches_iff]

/-- With one token of lookahead a body that is never empty is matched by the next token. -/
theorem Grammar.Opens.matches_iff {body : List Elem} {P : Token → Bool} (h : g.Opens body P) :
    (∃ ts, g.FirstSeq 1 body ts ∧ Matches ahead ts) ↔ P (ahead 0) = true := by
  rw [← h.iff]
  constructor
  · rintro ⟨ts, hts, hmatch⟩
    have hlen := hts.length_le
    match ts, hts, hmatch with
    | [], hts, _ => exact absurd hts h.solid
    | [t], hts, hmatch => exact ⟨t, hts, (matches_cons.1 hmatch).1⟩
  · rintro ⟨t, ht, haccepts⟩
    exact ⟨[t], ht, matches_cons.2 ⟨haccepts, matches_nil⟩⟩

/-- With two tokens of lookahead a term takes the first, and the second opens what is behind it. -/
theorem Grammar.matches_two_iff {t : Term} {rest : List Elem} {P : Token → Bool}
    (h : g.Opens rest P) :
    (∃ ts, g.FirstSeq 2 (.term t :: rest) ts ∧ Matches ahead ts)
      ↔ t.accepts (ahead 0) = true ∧ P (ahead 1) = true := by
  have hfirst : ∀ ts, g.FirstSeq 2 (.term t :: rest) ts
      ↔ ∃ us, ts = t :: us ∧ g.FirstSeq 1 rest us := by
    intro ts
    rw [← List.singleton_append, first_append]
    simp only [first_term (show (0 : Int) < 2 by decide)]
    constructor
    · rintro (⟨rfl, hlen⟩ | ⟨us, vs, rfl, rfl, -, hvs⟩)
      · cases hlen
      · exact ⟨vs, rfl, hvs⟩
    · rintro ⟨us, rfl, hus⟩
      exact .inr ⟨[t], us, rfl, rfl, (by decide : (1 : Int) < 2), hus⟩
  have hrest : (∃ ts, g.FirstSeq 1 rest ts ∧ Matches (fun i => ahead (i + 1)) ts)
      ↔ P (ahead 1) = true := h.matches_iff
  simp only [hfirst, ← hrest]
  constructor
  · rintro ⟨ts, ⟨us, rfl, hus⟩, hmatch⟩
    obtain ⟨haccepts, hmatch⟩ := matches_cons.1 hmatch
    exact ⟨haccepts, us, hus, hmatch⟩
  · rintro ⟨haccepts, us, hus, hmatch⟩
    exact ⟨t :: us, ⟨us, rfl, hus⟩, matches_cons.2 ⟨haccepts, hmatch⟩⟩

/-- The alternatives without a gate that one token of lookahead allows. -/
theorem Rule.bodyMatches_iff (hk : r.lookahead = 1) {Ps : List (Token → Bool)}
    (hopens : g.OpenEach r.alts Ps) :
    r.BodyMatches g ahead i ↔ ∃ p, (r.alts.zip Ps)[i]? = some p
      ∧ (p.1.gate.isEmpty && p.2 (ahead 0)) = true := by
  obtain ⟨hlen, hzip⟩ := List.forall₂_iff_zip.1 hopens
  rw [Rule.BodyMatches, hk]
  constructor
  · rintro ⟨a, ha, hgate, hfits⟩
    have hi : i < Ps.length := hlen ▸ (List.getElem?_eq_some_iff.1 ha).1
    have hp : (r.alts.zip Ps)[i]? = some (a, Ps[i]) :=
      List.getElem?_zip_eq_some.2 ⟨ha, List.getElem?_eq_getElem hi⟩
    have hfits := (hzip (List.mem_of_getElem? hp)).matches_iff.1 hfits
    exact ⟨_, hp, Bool.and_eq_true_iff.2 ⟨List.isEmpty_iff.2 hgate, hfits⟩⟩
  · rintro ⟨⟨a, P⟩, hp, hboth⟩
    obtain ⟨hgate, hfits⟩ := Bool.and_eq_true_iff.1 hboth
    exact ⟨a, (List.getElem?_zip_eq_some.1 hp).1, List.isEmpty_iff.1 hgate,
      (hzip (List.mem_of_getElem? hp)).matches_iff.2 hfits⟩

/-- The element found first is the only one of which `p` holds. -/
theorem find?_of_unique {α : Type} {p : α → Bool} {xs : List α} {x : α} (hi : xs[i]? = some x)
    (hx : p x = true) (hunique : ∀ j y, xs[j]? = some y → p y = true → j = i) :
    xs.find? p = some x := by
  obtain ⟨hlt, rfl⟩ := List.getElem?_eq_some_iff.1 hi
  refine List.find?_eq_some_iff_getElem.2 ⟨hx, i, hlt, rfl, fun j hj => ?_⟩
  rw [Bool.not_eq_true', ← Bool.not_eq_true]
  intro hy
  have := hunique j _ (List.getElem?_eq_getElem (by omega)) hy
  omega

/-- One token of lookahead: a gate that matches, or else the alternative that opens with the next
token. -/
theorem RuleCompiled.predict_eq_find (h : RuleCompiled g r c) (hr : r.Unambiguous g)
    (hk : r.lookahead = 1) {Ps : List (Token → Bool)}
    (hopens : g.OpenEach r.alts Ps) :
    (c.predict ahead).bind (fun i => r.alts[i]?)
      = (r.alts.find? (Alt.gatedOn ahead)).or
          (((r.alts.zip Ps).find? fun p => p.1.gate.isEmpty && p.2 (ahead 0)).map Prod.fst) := by
  rcases h.predict_cases ahead with ⟨i, hi, hsome⟩ | ⟨hgate, hrest⟩
  · obtain ⟨a, ha, hfits⟩ := Rule.gateMatches_iff.1 hi
    rw [hsome, Option.bind_some, ha, find?_of_unique ha hfits, Option.some_or]
    exact fun j b hj hb => hr.gate_unique (Rule.gateMatches_iff.2 ⟨b, hj, hb⟩) hi
  · have hungated : r.alts.find? (Alt.gatedOn ahead) = none := by
      refine List.find?_eq_none.2 fun a ha hfits => ?_
      obtain ⟨i, hi⟩ := List.mem_iff_getElem?.1 ha
      exact hgate i (Rule.gateMatches_iff.2 ⟨a, hi, hfits⟩)
    rw [hungated, Option.none_or]
    rcases hrest with ⟨i, hi, hsome⟩ | ⟨hbody, hnone⟩
    · obtain ⟨p, hp, hfits⟩ := (Rule.bodyMatches_iff hk hopens).1 hi
      rw [hsome, Option.bind_some, (List.getElem?_zip_eq_some.1 hp).1, find?_of_unique hp hfits,
        Option.map_some]
      exact fun j q hj hq => hr.body_unique ((Rule.bodyMatches_iff hk hopens).2 ⟨q, hj, hq⟩) hi
    · rw [hnone, Option.bind_none, eq_comm, Option.map_eq_none_iff]
      refine List.find?_eq_none.2 fun p hp hfits => ?_
      obtain ⟨i, hi⟩ := List.mem_iff_getElem?.1 hp
      exact hbody i ((Rule.bodyMatches_iff hk hopens).2 ⟨p, hi, hfits⟩)

end Choosing

end JavaPrimer
