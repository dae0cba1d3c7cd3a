import JavaPrimer.Grammar.Java
import JavaPrimer.Proofs.Reading
import Mathlib.Data.List.Forall2

/-!
# Derivations from a rule table

Which lists of tokens a table derives: a term takes one token, a rule chooses an alternative and
derives the elements of its body one after another, a repetition is any number of bodies. A
restriction may forbid an alternative by what its elements were derived from.

* `Grammar.Derives` — the lists of tokens that an element derives under a restriction;
* `Grammar.DerivesAll` — a sequence of elements;
* `Grammar.derivesAll_cons`, `Grammar.derives_many`, `Grammar.derives_kinds` — derivations by
  the shape of what they derive from;
* `JavaRules.Assignable`, `JavaRules.Admitted` — the two restrictions that the table of the
  language leaves unwritten;
* `JavaRules.derives_choice`, `JavaRules.derives_single` — the rules that they do not concern.
-/

namespace JavaPrimer

namespace Grammar

/-- A condition on a rule, the alternative chosen and the tokens of each element of its body. -/
abbrev Restriction := Rule → Alt → List (List Token) → Prop

/-- Every alternative may be chosen. -/
def unrestricted : Restriction := fun _ _ _ => True

/-- The lists of tokens that an element derives. -/
inductive Derives (g : Grammar) (ok : Restriction) : Elem → List Token → Prop
  | term {t : Term} {tok : Token} : t.accepts tok = true → Derives g ok (.term t) [tok]
  | ref {name : Text} {r : Rule} {alt : Alt} {parts : List (List Token)} :
      g.find? name = some r → alt ∈ r.alts → List.Forall₂ (Derives g ok) alt.body parts →
      ok r alt parts → Derives g ok (.ref name) parts.flatten
  | seq {items : List Elem} {parts : List (List Token)} :
      List.Forall₂ (Derives g ok) items parts → Derives g ok (.seq items) parts.flatten
  | none {items : List Elem} : Derives g ok (.opt items) []
  | some {items : List Elem} {parts : List (List Token)} :
      List.Forall₂ (Derives g ok) items parts → Derives g ok (.opt items) parts.flatten
  | many {items : List Elem} {rounds : List (List (List Token))} :
      (∀ parts ∈ rounds, List.Forall₂ (Derives g ok) items parts) →
      Derives g ok (.many items) (rounds.map List.flatten).flatten
  | oneOf {items : List Elem} {e : Elem} {ts : List Token} :
      e ∈ items → Derives g ok e ts → Derives g ok (.oneOf items) ts

/-- The lists of tokens that elements derive one after another. -/
def DerivesAll (g : Grammar) (ok : Restriction) (items : List Elem) (ts : List Token) : Prop :=
  ∃ parts, ts = parts.flatten ∧ List.Forall₂ (g.Derives ok) items parts

variable {g : Grammar} {ok : Restriction} {ts : List Token}

/-! ### Sequences -/

@[simp] theorem derivesAll_nil : g.DerivesAll ok [] ts ↔ ts = [] := by
  constructor
  · intro h
    obtain ⟨parts, rfl, hparts⟩ := h
    rw [List.forall₂_nil_left_iff.1 hparts]
    rfl
  · intro h
    exact ⟨[], h, .nil⟩

theorem derivesAll_cons {e : Elem} {items : List Elem} :
    g.DerivesAll ok (e :: items) ts
      ↔ ∃ us vs, ts = us ++ vs ∧ g.Derives ok e us ∧ g.DerivesAll ok items vs := by
  constructor
  · intro h
    obtain ⟨parts, rfl, hparts⟩ := h
    obtain ⟨us, parts, he, hitems, rfl⟩ := List.forall₂_cons_left_iff.1 hparts
    exact ⟨us, parts.flatten, rfl, he, parts, rfl, hitems⟩
  · intro h
    obtain ⟨us, vs, rfl, he, parts, rfl, hitems⟩ := h
    exact ⟨us :: parts, rfl, .cons he hitems⟩

theorem derivesAll_singleton {e : Elem} : g.DerivesAll ok [e] ts ↔ g.Derives ok e ts := by
  simp [derivesAll_cons]

/-! ### Single tokens -/

theorem derives_term {t : Term} :
    g.Derives ok (.term t) ts ↔ ∃ tok, ts = [tok] ∧ t.accepts tok = true := by
  constructor
  · intro h
    cases h with
    | term h => exact ⟨_, rfl, h⟩
  · intro h
    obtain ⟨tok, rfl, h⟩ := h
    exact .term h

theorem accepts_token {k : Kind} {tok : Token} : (Term.token k).accepts tok = true ↔ tok.kind = k := by
  simp [Term.accepts, Term.token]

theorem accepts_word {image : Text} (h : image ≠ []) {tok : Token} :
    (Term.word image).accepts tok = tok.isWord image := by
  have hne : image.isEmpty = false := List.isEmpty_eq_false_iff.2 h
  simp only [Term.accepts, Term.word, Token.isWord, hne, Bool.false_or]

theorem derives_oneOf {items : List Elem} :
    g.Derives ok (.oneOf items) ts ↔ ∃ e ∈ items, g.Derives ok e ts := by
  constructor
  · intro h
    cases h with
    | oneOf he h => exact ⟨_, he, h⟩
  · intro h
    obtain ⟨e, he, h⟩ := h
    exact .oneOf he h

/-- One token of any of the kinds given. -/
theorem derives_kinds {ks : List Kind} :
    g.Derives ok (.kinds ks) ts ↔ ∃ t, ts = [t] ∧ t.kind ∈ ks := by
  have hone : g.Derives ok (.oneOf (ks.map fun k => .term (.token k))) ts
      ↔ ∃ t, ts = [t] ∧ t.kind ∈ ks := by
    rw [derives_oneOf]
    constructor
    · intro h
      obtain ⟨e, he, h⟩ := h
      obtain ⟨k, hk, rfl⟩ := List.mem_map.1 he
      obtain ⟨t, rfl, ht⟩ := derives_term.1 h
      exact ⟨t, rfl, accepts_token.1 ht ▸ hk⟩
    · intro h
      obtain ⟨t, rfl, ht⟩ := h
      exact ⟨_, List.mem_map.2 ⟨t.kind, ht, rfl⟩, .term (accepts_token.2 rfl)⟩
  unfold Elem.kinds
  split
  · next k => simp only [derives_term, accepts_token, List.mem_singleton]
  · exact hone

/-- An element that takes one token, before others. -/
theorem derivesAll_one_cons {e : Elem} {P : Token → Prop}
    (he : ∀ us, g.Derives ok e us ↔ ∃ t, us = [t] ∧ P t) {items : List Elem} :
    g.DerivesAll ok (e :: items) ts
      ↔ ∃ t us, ts = t :: us ∧ P t ∧ g.DerivesAll ok items us := by
  simp only [derivesAll_cons, he]
  constructor
  · intro h
    obtain ⟨us, vs, rfl, ⟨t, rfl, ht⟩, h⟩ := h
    exact ⟨t, vs, rfl, ht, h⟩
  · intro h
    obtain ⟨t, us, rfl, ht, h⟩ := h
    exact ⟨[t], us, rfl, ⟨t, rfl, ht⟩, h⟩

theorem derives_tok {k : Kind} :
    g.Derives ok (JavaRules.tok k) ts ↔ ∃ t, ts = [t] ∧ t.kind = k := by
  simp only [JavaRules.tok, derives_term, accepts_token]

theorem derivesAll_tok_cons {k : Kind} {items : List Elem} :
    g.DerivesAll ok (JavaRules.tok k :: items) ts
      ↔ ∃ t us, ts = t :: us ∧ t.kind = k ∧ g.DerivesAll ok items us :=
  derivesAll_one_cons fun _ => derives_tok

theorem derivesAll_anyOf_cons {ks : List Kind} {items : List Elem} :
    g.DerivesAll ok (JavaRules.anyOf ks :: items) ts
      ↔ ∃ t us, ts = t :: us ∧ t.kind ∈ ks ∧ g.DerivesAll ok items us :=
  derivesAll_one_cons fun _ => derives_kinds

theorem derivesAll_word_cons {image : Text} (hne : image ≠ []) {items : List Elem} :
    g.DerivesAll ok (Elem.word image :: items) ts
      ↔ ∃ t us, ts = t :: us ∧ t.isWord image = true ∧ g.DerivesAll ok items us :=
  derivesAll_one_cons fun _ => by simp only [Elem.word, derives_term, accepts_word hne]

/-- An element up to a token that closes it. -/
theorem derivesAll_then_tok {e : Elem} {k : Kind} :
    g.DerivesAll ok [e, JavaRules.tok k] ts
      ↔ ∃ us r, ts = us ++ [r] ∧ g.Derives ok e us ∧ r.kind = k := by
  rw [derivesAll_cons]
  simp only [derivesAll_tok_cons, derivesAll_nil]
  constructor
  · intro h
    obtain ⟨us, vs, rfl, he, r, ws, rfl, hr, rfl⟩ := h
    exact ⟨us, r, rfl, he, hr⟩
  · intro h
    obtain ⟨us, r, rfl, he, hr⟩ := h
    exact ⟨us, [r], rfl, he, r, [], rfl, hr, rfl⟩

/-! ### Optional and repeated parts -/

theorem derives_opt {items : List Elem} :
    g.Derives ok (.opt items) ts ↔ ts = [] ∨ g.DerivesAll ok items ts := by
  constructor
  · intro h
    cases h with
    | none => exact .inl rfl
    | some h => exact .inr ⟨_, rfl, h⟩
  · intro h
    rcases h with rfl | ⟨parts, rfl, h⟩
    · exact .none
    · exact .some h

theorem derives_many {items : List Elem} :
    g.Derives ok (.many items) ts
      ↔ ∃ rounds : List (List Token), ts = rounds.flatten ∧ ∀ us ∈ rounds, g.DerivesAll ok items us := by
  constructor
  · intro h
    cases h with
    | @many _ rounds h =>
      refine ⟨rounds.map List.flatten, rfl, ?_⟩
      intro us hus
      obtain ⟨parts, hparts, rfl⟩ := List.mem_map.1 hus
      exact ⟨parts, rfl, h parts hparts⟩
  · intro h
    obtain ⟨rounds, rfl, h⟩ := h
    have hsplit : ∃ split : List (List (List Token)), rounds = split.map List.flatten
        ∧ ∀ parts ∈ split, List.Forall₂ (g.Derives ok) items parts := by
      induction rounds with
      | nil => exact ⟨[], rfl, fun parts h => nomatch h⟩
      | cons us rounds ih =>
        obtain ⟨parts, rfl, hparts⟩ := h us List.mem_cons_self
        obtain ⟨split, rfl, hsplit⟩ := ih fun vs hvs => h vs (List.mem_cons_of_mem _ hvs)
        exact ⟨parts :: split, rfl, List.forall_mem_cons.2 ⟨hparts, hsplit⟩⟩
    obtain ⟨split, rfl, hsplit⟩ := hsplit
    exact .many hsplit

/-- A repetition of things that are read one after another. -/
theorem derives_many_of_readEach {α : Type} {P : α → List Token → Prop} {items : List Elem}
    {xs : List α} (h : ReadEach P xs ts)
    (hitem : ∀ x ∈ xs, ∀ us, P x us → g.DerivesAll ok items us) : g.Derives ok (.many items) ts := by
  rw [derives_many]
  induction xs generalizing ts with
  | nil => exact ⟨[], h, fun us hus => nomatch hus⟩
  | cons x xs ih =>
    obtain ⟨us, vs, rfl, hx, hxs⟩ := h
    obtain ⟨rounds, rfl, hrounds⟩ := ih hxs fun y hy => hitem y (List.mem_cons_of_mem x hy)
    refine ⟨us :: rounds, rfl, List.forall_mem_cons.2 ⟨?_, hrounds⟩⟩
    exact hitem x List.mem_cons_self us hx

/-- What every round of a repetition is the reading of, all of them are. -/
theorem readEach_of_derives_many {α : Type} {P : α → List Token → Prop} {items : List Elem}
    (h : g.Derives ok (.many items) ts)
    (hitem : ∀ us, us.length ≤ ts.length → g.DerivesAll ok items us → ∃ x, P x us) :
    ∃ xs, ReadEach P xs ts := by
  obtain ⟨rounds, rfl, hrounds⟩ := derives_many.1 h
  clear h
  induction rounds with
  | nil => exact ⟨[], rfl⟩
  | cons us rounds ih =>
    rw [List.flatten_cons, List.length_append] at hitem
    obtain ⟨x, hx⟩ := hitem us (by omega) (hrounds us List.mem_cons_self)
    obtain ⟨xs, hxs⟩ := ih (fun vs hvs => hrounds vs (List.mem_cons_of_mem us hvs))
      fun vs hvs => hitem vs (by omega)
    exact ⟨x :: xs, us, rounds.flatten, rfl, hx, hxs⟩

/-! ### Rules -/

theorem derives_ref {name : Text} {r : Rule} (hr : g.find? name = some r) :
    g.Derives ok (.ref name) ts
      ↔ ∃ alt ∈ r.alts, ∃ parts, ts = parts.flatten
        ∧ List.Forall₂ (g.Derives ok) alt.body parts ∧ ok r alt parts := by
  constructor
  · intro h
    cases h with
    | @ref _ r' alt parts hr' halt hparts hok =>
      obtain rfl : r' = r := Option.some.inj (hr'.symm.trans hr)
      exact ⟨alt, halt, parts, rfl, hparts, hok⟩
  · intro h
    obtain ⟨alt, halt, parts, rfl, hparts, hok⟩ := h
    exact .ref hr halt hparts hok

/-- A rule that is under no restriction derives what one of its bodies derives. -/
theorem derives_free {name : Text} {r : Rule} (hr : g.find? name = some r)
    (hok : ∀ alt parts, ok r alt parts) :
    g.Derives ok (.ref name) ts ↔ ∃ alt ∈ r.alts, g.DerivesAll ok alt.body ts := by
  rw [derives_ref hr]
  constructor
  · intro h
    obtain ⟨alt, halt, parts, rfl, hparts, -⟩ := h
    exact ⟨alt, halt, parts, rfl, hparts⟩
  · intro h
    obtain ⟨alt, halt, parts, rfl, hparts⟩ := h
    exact ⟨alt, halt, parts, rfl, hparts, hok alt parts⟩

end Grammar

/-! ### What the table leaves unwritten -/

namespace JavaRules

/-- Tokens that can be assigned to: a name that does not end in a call, under any number of
parentheses. -/
inductive Assignable : List Token → Prop
  | name {ts : List Token} :
      javaGrammar.DerivesAll Grammar.unrestricted [tok .ident, .many [.ref "selector"]] ts →
      (∀ t ∈ ts.getLast?, t.kind ≠ .rparen) → Assignable ts
  | paren {l r : Token} {ts : List Token} :
      l.kind = .lparen → Assignable ts → r.kind = .rparen → Assignable (l :: (ts ++ [r]))

/-- The gate of the print statement decides before the other alternatives of a statement do, and
the left side of an assignment can be assigned to. -/
def Admitted : Grammar.Restriction := fun r alt parts =>
  (r.name = "statement" → spellsPrint parts.flatten = true → alt.name = "printStmt")
    ∧ (r.name = "exprStmt" → parts.getD 1 [] ≠ [] → Assignable (parts.getD 0 []))

/-- The restriction concerns no rules but those for statements. -/
def FreeElsewhere (ok : Grammar.Restriction) : Prop :=
  ∀ r : Rule, r.name ≠ "statement" → r.name ≠ "exprStmt" → ∀ alt parts, ok r alt parts

theorem freeElsewhere_unrestricted : FreeElsewhere Grammar.unrestricted :=
  fun _ _ _ _ _ => trivial

theorem freeElsewhere_admitted : FreeElsewhere Admitted :=
  fun _ hs he _ _ => ⟨fun h => absurd h hs, fun h => absurd h he⟩

variable {ok : Grammar.Restriction} {ts : List Token}

theorem derives_choice (hok : FreeElsewhere ok) {name : Text} {r : Rule}
    (hr : javaGrammar.find? name = some r) (hs : r.name ≠ "statement") (he : r.name ≠ "exprStmt") :
    javaGrammar.Derives ok (.ref name) ts
      ↔ ∃ alt ∈ r.alts, javaGrammar.DerivesAll ok alt.body ts :=
  Grammar.derives_free hr (hok r hs he)

theorem derives_single (hok : FreeElsewhere ok) {name : Text} {body : List Elem}
    (hr : javaGrammar.find? name = some (single name body)) (hs : name ≠ "statement")
    (he : name ≠ "exprStmt") :
    javaGrammar.Derives ok (.ref name) ts ↔ javaGrammar.DerivesAll ok body ts := by
  rw [derives_choice hok hr hs he]
  simp [single, Alt.plain]

end JavaRules

end JavaPrimer
