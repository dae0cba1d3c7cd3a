import JavaPrimer.Proofs.Derivation
import JavaPrimer.Proofs.ReadBackExpr

/-!
# Expressions that the rule table derives

The table derives a list of tokens from its rule for expressions exactly if some expression is
read from them. The rules of the six tiers go by number, the operands being the seventh; a tier
derives what is read as an expression that binds tighter than the tiers before it.

* `JavaRules.tierName`, `JavaRules.derives_tier` — the rules of the tiers;
* `JavaRules.derives_tier_of_readFrom` — from expressions to derivations, by induction on the
  expression;
* `JavaRules.readFrom_of_derives` — from derivations to expressions, by induction on the number of
  tokens;
* `JavaRules.derives_expression_iff` — both together;
* `JavaRules.assignable_iff` — tokens that can be assigned to are those of an assignable expression.
-/

namespace JavaPrimer

namespace JavaRules

open Grammar

variable {ok : Restriction} {ts : List Token}

/-! ### The rules -/

/-- The name of the rule of the `k`-th tier; operands are those of the tightest. -/
def tierName (k : Nat) : Text := (tiers[k]?.map fun tier => tier.level.name).getD "unary"

/-- The kinds of token that write the operators of the `k`-th tier. -/
def tierKinds (k : Nat) : List Kind := (tiers[k]?.map fun tier => tier.ops.map (·.1)).getD []

theorem find?_tierName : ∀ k, k < tiers.length → javaGrammar.find? (tierName k)
    = some (tierRule (tierName k) (tierName (k + 1)) (tierKinds k))
  | 0, _ => rfl
  | 1, _ => rfl
  | 2, _ => rfl
  | 3, _ => rfl
  | 4, _ => rfl
  | 5, _ => rfl

theorem tierName_ne : ∀ k, k < tiers.length →
    tierName k ≠ "statement" ∧ tierName k ≠ "exprStmt" := by decide

theorem derives_tier (hok : FreeElsewhere ok) {k : Nat} (hk : k < tiers.length) :
    javaGrammar.Derives ok (.ref (tierName k)) ts
      ↔ ∃ us vs, ts = us ++ vs ∧ javaGrammar.Derives ok (.ref (tierName (k + 1))) us
        ∧ javaGrammar.Derives ok (.many [anyOf (tierKinds k), .ref (tierName (k + 1))]) vs := by
  rw [derives_single hok (find?_tierName k hk) (tierName_ne k hk).1 (tierName_ne k hk).2]
  rw [derivesAll_cons]
  simp only [derivesAll_singleton]

theorem derives_expression (hok : FreeElsewhere ok) :
    javaGrammar.Derives ok (.ref "expression") ts
      ↔ javaGrammar.Derives ok (.ref (tierName 0)) ts := by
  rw [derives_single hok rfl (by decide) (by decide)]
  exact derivesAll_singleton

/-- The kinds of token that write an operator before an operand. -/
def signKinds : List Kind := [.minus, .plus, .bang, .plusPlus, .minusMinus]

theorem derives_unary (hok : FreeElsewhere ok) :
    javaGrammar.Derives ok (.ref "unary") ts
      ↔ (∃ o us, ts = o :: us ∧ o.kind ∈ signKinds ∧ javaGrammar.Derives ok (.ref "unary") us)
        ∨ javaGrammar.Derives ok (.ref "castOrPrimary") ts := by
  rw [derives_choice hok (r := expressionRules[7]) rfl (by decide) (by decide)]
  show (∃ alt ∈ [Alt.plain _ _, Alt.plain _ _], _) ↔ _
  simp only [List.mem_cons, List.not_mem_nil, or_false, exists_eq_or_imp, exists_eq_left,
    Alt.plain, derivesAll_anyOf_cons, derivesAll_singleton, signKinds]

theorem derives_castOrPrimary (hok : FreeElsewhere ok) :
    javaGrammar.Derives ok (.ref "castOrPrimary") ts
      ↔ (∃ l w r us, ts = l :: w :: r :: us ∧ l.kind = .lparen ∧ w.kind ∈ primitiveKinds
          ∧ r.kind = .rparen ∧ javaGrammar.Derives ok (.ref "unary") us)
        ∨ javaGrammar.Derives ok (.ref "postfix") ts := by
  rw [derives_choice hok (r := expressionRules[8]) rfl (by decide) (by decide)]
  show (∃ alt ∈ [Alt.plain _ _, Alt.plain _ _], _) ↔ _
  have htype : ∀ us, javaGrammar.Derives ok (.ref "castType") us
      ↔ ∃ w, us = [w] ∧ w.kind ∈ primitiveKinds := by
    intro us
    rw [derives_single hok rfl (by decide) (by decide)]
    exact derivesAll_singleton.trans derives_kinds
  simp only [List.mem_cons, List.not_mem_nil, or_false, exists_eq_or_imp, exists_eq_left,
    Alt.plain, derivesAll_tok_cons, derivesAll_one_cons htype, derivesAll_singleton]
  constructor
  · intro h
    rcases h with ⟨l, vs, rfl, hl, w, ws, rfl, hw, r, us, rfl, hr, h⟩ | h
    · exact .inl ⟨l, w, r, us, rfl, hl, hw, hr, h⟩
    · exact .inr h
  · intro h
    rcases h with ⟨l, w, r, us, rfl, hl, hw, hr, h⟩ | h
    · exact .inl ⟨l, _, rfl, hl, w, _, rfl, hw, r, us, rfl, hr, h⟩
    · exact .inr h

theorem derives_stepped (hok : FreeElsewhere ok) :
    javaGrammar.Derives ok (.ref "postfix") ts
      ↔ javaGrammar.Derives ok (.ref "primary") ts
        ∨ ∃ us o, ts = us ++ [o] ∧ o.kind ∈ [Kind.plusPlus, .minusMinus]
          ∧ javaGrammar.Derives ok (.ref "primary") us := by
  rw [derives_single hok rfl (by decide) (by decide), derivesAll_cons]
  simp only [derivesAll_singleton, derives_opt, anyOf, derives_kinds]
  constructor
  · intro h
    obtain ⟨us, vs, rfl, h, rfl | ⟨o, rfl, ho⟩⟩ := h
    · rw [List.append_nil]
      exact .inl h
    · exact .inr ⟨us, o, rfl, ho, h⟩
  · intro h
    rcases h with h | ⟨us, o, rfl, ho, h⟩
    · exact ⟨ts, [], (List.append_nil ts).symm, h, .inl rfl⟩
    · exact ⟨us, [o], rfl, h, .inr ⟨o, rfl, ho⟩⟩

/-- The kinds of token that are literals. -/
def literalKinds : List Kind :=
  [.intLit, .floatLit, .stringLit, .charLit, .kwTrue, .kwFalse, .kwNull]

theorem derives_primary (hok : FreeElsewhere ok) :
    javaGrammar.Derives ok (.ref "primary") ts
      ↔ (∃ t, ts = [t] ∧ t.kind ∈ literalKinds)
        ∨ (∃ t us, ts = t :: us ∧ t.kind = .ident
            ∧ javaGrammar.Derives ok (.many [.ref "selector"]) us)
        ∨ (∃ l us r, ts = l :: (us ++ [r]) ∧ l.kind = .lparen ∧ r.kind = .rparen
            ∧ javaGrammar.Derives ok (.ref "expression") us)
        ∨ ∃ n t l us r, ts = n :: t :: l :: (us ++ [r]) ∧ n.kind = .kwNew ∧ t.kind = .ident
            ∧ l.kind = .lparen ∧ r.kind = .rparen
            ∧ javaGrammar.Derives ok (.opt [.ref "arguments"]) us := by
  rw [derives_choice hok (r := expressionRules[10]) rfl (by decide) (by decide)]
  show (∃ alt ∈ [Alt.plain _ _, Alt.plain _ _, Alt.plain _ _, Alt.plain _ _], _) ↔ _
  simp only [List.mem_cons, List.not_mem_nil, or_false, exists_eq_or_imp, exists_eq_left,
    Alt.plain, derivesAll_tok_cons, derivesAll_then_tok, derivesAll_singleton, anyOf,
    derives_kinds, literalKinds]
  constructor
  · intro h
    rcases h with h | h | ⟨l, vs, rfl, hl, us, r, rfl, h, hr⟩
      | ⟨n, vs, rfl, hn, t, ws, rfl, ht, l, vs, rfl, hl, us, r, rfl, h, hr⟩
    · exact .inl h
    · exact .inr (.inl h)
    · exact .inr (.inr (.inl ⟨l, us, r, rfl, hl, hr, h⟩))
    · exact .inr (.inr (.inr ⟨n, t, l, us, r, rfl, hn, ht, hl, hr, h⟩))
  · intro h
    rcases h with h | h | ⟨l, us, r, rfl, hl, hr, h⟩
      | ⟨n, t, l, us, r, rfl, hn, ht, hl, hr, h⟩
    · exact .inl h
    · exact .inr (.inl h)
    · exact .inr (.inr (.inl ⟨l, _, rfl, hl, us, r, rfl, h, hr⟩))
    · exact .inr (.inr (.inr ⟨n, _, rfl, hn, t, _, rfl, ht, l, _, rfl, hl, us, r, rfl, h, hr⟩))

theorem derives_selector (hok : FreeElsewhere ok) :
    javaGrammar.Derives ok (.ref "selector") ts
      ↔ (∃ l us r, ts = l :: (us ++ [r]) ∧ l.kind = .lparen ∧ r.kind = .rparen
          ∧ javaGrammar.Derives ok (.opt [.ref "arguments"]) us)
        ∨ ∃ d t, ts = [d, t] ∧ d.kind = .dot ∧ t.kind = .ident := by
  rw [derives_choice hok (r := expressionRules[11]) rfl (by decide) (by decide)]
  show (∃ alt ∈ [Alt.plain _ _, Alt.plain _ _], _) ↔ _
  simp only [List.mem_cons, List.not_mem_nil, or_false, exists_eq_or_imp, exists_eq_left,
    Alt.plain, derivesAll_tok_cons, derivesAll_then_tok, derives_tok]
  constructor
  · intro h
    rcases h with ⟨l, vs, rfl, hl, us, r, rfl, h, hr⟩ | ⟨us, t, rfl, ⟨d, rfl, hd⟩, ht⟩
    · exact .inl ⟨l, us, r, rfl, hl, hr, h⟩
    · exact .inr ⟨d, t, rfl, hd, ht⟩
  · intro h
    rcases h with ⟨l, us, r, rfl, hl, hr, h⟩ | ⟨d, t, rfl, hd, ht⟩
    · exact .inl ⟨l, _, rfl, hl, us, r, rfl, h, hr⟩
    · exact .inr ⟨[d], t, rfl, ⟨d, rfl, hd⟩, ht⟩

theorem derives_arguments (hok : FreeElsewhere ok) :
    javaGrammar.Derives ok (.ref "arguments") ts
      ↔ ∃ us vs, ts = us ++ vs ∧ javaGrammar.Derives ok (.ref "expression") us
        ∧ javaGrammar.Derives ok (.many [tok .comma, .ref "expression"]) vs := by
  rw [derives_single hok rfl (by decide) (by decide), derivesAll_cons]
  simp only [derivesAll_singleton]

/-! ### From expressions to derivations -/

/-- Where the tighter tiers have operands only, a tier derives what the next one derives. -/
theorem derives_tier_of_next (hok : FreeElsewhere ok) {k : Nat} (hk : k < tiers.length)
    (h : javaGrammar.Derives ok (.ref (tierName (k + 1))) ts) :
    javaGrammar.Derives ok (.ref (tierName k)) ts := by
  rw [derives_tier hok hk]
  refine ⟨ts, [], (List.append_nil ts).symm, h, ?_⟩
  rw [derives_many]
  exact ⟨[], rfl, fun us hus => nomatch hus⟩

theorem derives_tier_of_le (hok : FreeElsewhere ok) {k : Nat} (hk : k ≤ tiers.length)
    (h : javaGrammar.Derives ok (.ref (tierName k)) ts) :
    ∀ j, j ≤ k → javaGrammar.Derives ok (.ref (tierName j)) ts := by
  induction k with
  | zero =>
    intro j hj
    rw [Nat.le_zero.1 hj]
    exact h
  | succ k ih =>
    intro j hj
    rcases Nat.lt_or_ge j (k + 1) with hlt | hge
    · exact ih (by omega) (derives_tier_of_next hok hk h) j (by omega)
    · rw [Nat.le_antisymm hj hge]
      exact h

theorem mem_tierKinds {k : Nat} (hk : k < tiers.length) {kind : Kind} :
    kind ∈ tierKinds k ↔ ∃ op, (tiers[k]).op? kind = some op := by
  have hkinds : tierKinds k = (tiers[k]).ops.map (·.1) := by
    rw [tierKinds, List.getElem?_eq_getElem hk]
    rfl
  rw [hkinds, Tier.op?]
  constructor
  · intro h
    obtain ⟨entry, hentry, rfl⟩ := List.mem_map.1 h
    have hsome : ((tiers[k]).ops.find? (·.1 == entry.1)).isSome = true :=
      List.find?_isSome.2 ⟨entry, hentry, beq_self_eq_true entry.1⟩
    obtain ⟨found, hfound⟩ := Option.isSome_iff_exists.1 hsome
    exact ⟨found.2, by rw [hfound]; rfl⟩
  · intro h
    obtain ⟨op, hop⟩ := h
    obtain ⟨entry, hfound, -⟩ := Option.map_eq_some_iff.1 hop
    have hkind : entry.1 = kind := by simpa using List.find?_some hfound
    exact List.mem_map.2 ⟨entry, List.mem_of_find?_eq_some hfound, hkind⟩

/-- One more operator and operand on the right. -/
theorem derives_tier_snoc (hok : FreeElsewhere ok) {k : Nat} (hk : k < tiers.length)
    {us vs : List Token} {o : Token} (hl : javaGrammar.Derives ok (.ref (tierName k)) us)
    (ho : o.kind ∈ tierKinds k) (hr : javaGrammar.Derives ok (.ref (tierName (k + 1))) vs) :
    javaGrammar.Derives ok (.ref (tierName k)) (us ++ o :: vs) := by
  rw [derives_tier hok hk] at hl ⊢
  obtain ⟨first, more, rfl, hfirst, hmore⟩ := hl
  obtain ⟨rounds, rfl, hrounds⟩ := derives_many.1 hmore
  refine ⟨first, rounds.flatten ++ o :: vs, by rw [List.append_assoc], hfirst, ?_⟩
  rw [derives_many]
  refine ⟨rounds ++ [o :: vs], by simp, ?_⟩
  intro ws hws
  rcases List.mem_append.1 hws with hws | hws
  · exact hrounds ws hws
  · rw [List.mem_singleton.1 hws, derivesAll_anyOf_cons]
    exact ⟨o, vs, rfl, ho, derivesAll_singleton.2 hr⟩

theorem mem_signKinds {k : Kind} : k ∈ signKinds ↔ ∃ op, UnaryOp.ofKind? k = some op := by
  cases k <;> simp [signKinds, UnaryOp.ofKind?]

theorem mem_stepKinds {k : Kind} : k ∈ [Kind.plusPlus, .minusMinus]
    ↔ ∃ op, UnaryOp.ofKind? k = some op ∧ op.isStep = true := by
  cases k <;> simp [UnaryOp.ofKind?, UnaryOp.isStep]

theorem mem_literalKinds {k : Kind} :
    k ∈ literalKinds ↔ ∃ sort, LiteralSort.ofKind? k = some sort := by
  cases k <;> simp [literalKinds, LiteralSort.ofKind?]

theorem mem_primitiveKinds {k : Kind} : k ∈ primitiveKinds ↔ k.isPrimitive = true := by
  cases k <;> simp [primitiveKinds, Kind.isPrimitive]

/-- The table derives, as an expression, all that the expression is read from. -/
def Derived (ok : Restriction) (e : Expr) : Prop :=
  ∀ us, e.ReadFrom us → javaGrammar.Derives ok (.ref "expression") us

theorem derives_opt_arguments (hok : FreeElsewhere ok) {args : List Expr}
    (h : argsReadFrom args ts) (ih : ∀ e ∈ args, Derived ok e) :
    javaGrammar.Derives ok (.opt [.ref "arguments"]) ts := by
  rw [derives_opt, derivesAll_singleton]
  cases args with
  | nil => exact .inl h
  | cons e args =>
    obtain ⟨us, vs, rfl, he, hargs⟩ := h
    rw [moreArgsReadFrom_eq] at hargs
    refine .inr ((derives_arguments hok).2 ⟨us, vs, rfl, ih e List.mem_cons_self us he, ?_⟩)
    refine derives_many_of_readEach hargs ?_
    intro x hx ws hws
    obtain ⟨comma, ws, rfl, hcomma, hx'⟩ := hws
    rw [derivesAll_tok_cons]
    refine ⟨comma, ws, rfl, hcomma, derivesAll_singleton.2 ?_⟩
    exact ih x (List.mem_cons_of_mem e hx) ws hx'

theorem derives_selectors (hok : FreeElsewhere ok) {xs : List Selector}
    (h : selectorsReadFrom xs ts)
    (ih : ∀ s args, Selector.call s args ∈ xs → ∀ e ∈ args, Derived ok e) :
    javaGrammar.Derives ok (.many [.ref "selector"]) ts := by
  rw [selectorsReadFrom_eq] at h
  refine derives_many_of_readEach h ?_
  intro x hx us hread
  rw [derivesAll_singleton, derives_selector hok]
  cases x with
  | field s name =>
    obtain ⟨d, t, rfl, hd, ht⟩ := hread
    exact .inr ⟨d, t, rfl, hd, ht.1⟩
  | call s args =>
    obtain ⟨l, vs, r, rfl, hl, hr, hargs⟩ := hread
    exact .inl ⟨l, vs, r, rfl, hl, hr, derives_opt_arguments hok hargs (ih s args hx)⟩

theorem derives_unary_of_primary (hok : FreeElsewhere ok)
    (h : javaGrammar.Derives ok (.ref "primary") ts) :
    javaGrammar.Derives ok (.ref "unary") ts :=
  (derives_unary hok).2 (.inr ((derives_castOrPrimary hok).2
    (.inr ((derives_stepped hok).2 (.inl h)))))

/-- What an expression is read from is derived by every tier that it may stand in; what can be
stepped is derived as such. -/
theorem derives_tier_of_readFrom (hok : FreeElsewhere ok) (e : Expr) :
    (∀ us, e.ReadFrom us → ∀ k, k ≤ tiers.length → k < e.rank →
        javaGrammar.Derives ok (.ref (tierName k)) us)
      ∧ (e.isPrimary = true → ∀ us, e.ReadFrom us → javaGrammar.Derives ok (.ref "primary") us) := by
  -- an operand is derived by the tightest tier, and so by all of them
  have hoperand : ∀ us, javaGrammar.Derives ok (.ref "unary") us → ∀ k, k ≤ tiers.length →
      javaGrammar.Derives ok (.ref (tierName k)) us := by
    intro us h
    exact derives_tier_of_le hok (Nat.le_refl tiers.length) h
  have hwhole : ∀ e : Expr, (∀ us, e.ReadFrom us → ∀ k, k ≤ tiers.length → k < e.rank →
      javaGrammar.Derives ok (.ref (tierName k)) us) → Derived ok e := by
    intro e h us hread
    rw [derives_expression hok]
    exact h us hread 0 (Nat.zero_le _) (Parse.rank_pos_of_readFrom hread)
  have hprimary : ∀ e : Expr, (∀ us, e.ReadFrom us → javaGrammar.Derives ok (.ref "primary") us) →
      ∀ us, e.ReadFrom us → ∀ k, k ≤ tiers.length → k < e.rank →
        javaGrammar.Derives ok (.ref (tierName k)) us := by
    intro e h us hread k hk _
    exact hoperand us (derives_unary_of_primary hok (h us hread)) k hk
  induction e using Expr.byParts with
  | binary s level op t left right ihl ihr =>
    refine ⟨?_, fun h => by cases h⟩
    intro us hread k hk hrank
    obtain ⟨vs, o, ws, rfl, hwrites, hnl, hnr, hl, hr⟩ := hread
    obtain ⟨tier, htier, rfl, -⟩ := id hwrites
    obtain ⟨j, hj, rfl⟩ := List.getElem_of_mem htier
    rw [Expr.needsParens_left, rank_tier j hj] at hnl
    rw [Expr.needsParens_right, rank_tier j hj] at hnr
    have hkj : k ≤ j := by
      rw [Expr.rank, rank_tier j hj] at hrank
      omega
    have ho : o.kind ∈ tierKinds j := (mem_tierKinds hj).2 ⟨op, Parse.op?_of_writes j hj _ _ hwrites⟩
    have hown : javaGrammar.Derives ok (.ref (tierName j)) (vs ++ o :: ws) :=
      derives_tier_snoc hok hj (ihl.1 vs hl j (Nat.le_of_lt hj) hnl) ho
        (ihr.1 ws hr (j + 1) hj hnr)
    exact derives_tier_of_le hok (Nat.le_of_lt hj) hown k hkj
  | unary s op e ih =>
    refine ⟨?_, fun h => by cases h⟩
    intro us hread k hk _
    obtain ⟨o, vs, rfl, ho, hbin, he⟩ := hread
    have hrank : tiers.length < e.rank := by
      rw [Expr.rank_of_not_binary hbin]
      decide
    refine hoperand _ ?_ k hk
    rw [derives_unary hok]
    exact .inl ⟨o, vs, rfl, mem_signKinds.2 ⟨op, ho⟩, ih.1 vs he tiers.length (Nat.le_refl _) hrank⟩
  | step s op e ih =>
    refine ⟨?_, fun h => by cases h⟩
    intro us hread k hk _
    obtain ⟨vs, o, rfl, ho, hstep, hp, he⟩ := hread
    refine hoperand _ ?_ k hk
    rw [derives_unary hok, derives_castOrPrimary hok, derives_stepped hok]
    exact .inr (.inr (.inr ⟨vs, o, rfl, mem_stepKinds.2 ⟨op, ho, hstep⟩, ih.2 hp vs he⟩))
  | cast s type e ih =>
    refine ⟨?_, fun h => by cases h⟩
    intro us hread k hk _
    obtain ⟨l, w, r, vs, rfl, hl, hw, hr, -, -, hbin, he⟩ := hread
    have hrank : tiers.length < e.rank := by
      rw [Expr.rank_of_not_binary hbin]
      decide
    refine hoperand _ ?_ k hk
    rw [derives_unary hok, derives_castOrPrimary hok]
    exact .inr (.inl ⟨l, w, r, vs, rfl, hl, mem_primitiveKinds.2 hw, hr,
      ih.1 vs he tiers.length (Nat.le_refl _) hrank⟩)
  | paren s e ih =>
    have h : ∀ us, (Expr.paren s e).ReadFrom us → javaGrammar.Derives ok (.ref "primary") us := by
      intro us hread
      obtain ⟨l, vs, r, rfl, hl, hr, he⟩ := hread
      rw [derives_primary hok]
      exact .inr (.inr (.inl ⟨l, vs, r, rfl, hl, hr, hwhole e ih.1 vs he⟩))
    exact ⟨hprimary _ h, fun _ => h⟩
  | literal s sort raw =>
    have h : ∀ us, (Expr.literal s sort raw).ReadFrom us →
        javaGrammar.Derives ok (.ref "primary") us := by
      intro us hread
      obtain ⟨t, rfl, hsort, -⟩ := hread
      rw [derives_primary hok]
      exact .inl ⟨t, rfl, mem_literalKinds.2 ⟨sort, hsort⟩⟩
    exact ⟨hprimary _ h, fun _ => h⟩
  | name s head selectors ih =>
    have h : ∀ us, (Expr.name s head selectors).ReadFrom us →
        javaGrammar.Derives ok (.ref "primary") us := by
      intro us hread
      obtain ⟨t, vs, rfl, ht, hsels⟩ := hread
      rw [derives_primary hok]
      refine .inr (.inl ⟨t, vs, rfl, ht.1, derives_selectors hok hsels ?_⟩)
      exact fun s args hs e he => hwhole e (ih s args hs e he).1
    exact ⟨hprimary _ h, fun _ => h⟩
  | new s className args ih =>
    have h : ∀ us, (Expr.new s className args).ReadFrom us →
        javaGrammar.Derives ok (.ref "primary") us := by
      intro us hread
      obtain ⟨n, t, l, vs, r, rfl, hn, ht, hl, hr, hargs⟩ := hread
      rw [derives_primary hok]
      refine .inr (.inr (.inr ⟨n, t, l, vs, r, rfl, hn, ht.1, hl, hr, ?_⟩))
      exact derives_opt_arguments hok hargs fun e he => hwhole e (ih e he).1
    exact ⟨hprimary _ h, fun _ => h⟩
  | bad s => exact ⟨fun us h => h.elim, fun h => by cases h⟩
  | missing => exact ⟨fun us h => h.elim, fun h => by cases h⟩

theorem derived (hok : FreeElsewhere ok) (e : Expr) : Derived ok e := by
  intro us hread
  rw [derives_expression hok]
  exact (derives_tier_of_readFrom hok e).1 us hread 0 (Nat.zero_le _)
    (Parse.rank_pos_of_readFrom hread)

/-! ### From derivations to expressions -/

/-- Lists of at most `n` tokens that are derived as an expression are read as one. -/
def ReadsUpTo (ok : Restriction) (n : Nat) : Prop :=
  ∀ us : List Token, us.length ≤ n → javaGrammar.Derives ok (.ref "expression") us →
    ∃ e : Expr, e.ReadFrom us

/-- The same for operands. -/
def ReadsOperandsUpTo (ok : Restriction) (n : Nat) : Prop :=
  ∀ us : List Token, us.length ≤ n → javaGrammar.Derives ok (.ref "unary") us →
    ∃ e : Expr, e.isBinary = false ∧ e.ReadFrom us

theorem exists_arguments (hok : FreeElsewhere ok) (ih : ReadsUpTo ok ts.length)
    (h : javaGrammar.Derives ok (.opt [.ref "arguments"]) ts) : ∃ args, argsReadFrom args ts := by
  rw [derives_opt, derivesAll_singleton, derives_arguments hok] at h
  rcases h with rfl | ⟨us, vs, rfl, hus, hvs⟩
  · exact ⟨[], rfl⟩
  · rw [List.length_append] at ih
    obtain ⟨e, he⟩ := ih us (by omega) hus
    have hmore : ∃ es, ReadEach Expr.ReadAfterComma es vs := by
      refine readEach_of_derives_many hvs ?_
      intro ws hlen hws
      obtain ⟨comma, ws, rfl, hcomma, hws⟩ := derivesAll_tok_cons.1 hws
      rw [List.length_cons] at hlen
      obtain ⟨e, he⟩ := ih ws (by omega) (derivesAll_singleton.1 hws)
      exact ⟨e, comma, ws, rfl, hcomma, he⟩
    obtain ⟨es, hes⟩ := hmore
    exact ⟨e :: es, us, vs, rfl, he, by rwa [moreArgsReadFrom_eq]⟩

theorem exists_selectors (hok : FreeElsewhere ok) (ih : ReadsUpTo ok ts.length)
    (h : javaGrammar.Derives ok (.many [.ref "selector"]) ts) :
    ∃ xs, selectorsReadFrom xs ts := by
  have heach : ∃ xs, ReadEach Selector.ReadFrom xs ts := by
    refine readEach_of_derives_many h ?_
    intro us hlen hus
    rw [derivesAll_singleton, derives_selector hok] at hus
    rcases hus with ⟨l, vs, r, rfl, hl, hr, hvs⟩ | ⟨d, t, rfl, hd, ht⟩
    · simp only [List.length_cons, List.length_append] at hlen
      obtain ⟨args, hargs⟩ := exists_arguments hok (fun ws hws => ih ws (by omega)) hvs
      exact ⟨.call .nowhere args, l, vs, r, rfl, hl, hr, hargs⟩
    · exact ⟨.field .nowhere ⟨t.value, .nowhere⟩, d, t, rfl, hd, ht, rfl⟩
  obtain ⟨xs, hxs⟩ := heach
  exact ⟨xs, by rwa [selectorsReadFrom_eq]⟩

/-- What can be stepped holds only shorter expressions. -/
theorem exists_primary (hok : FreeElsewhere ok) {n : Nat} (ih : ReadsUpTo ok n)
    (hlen : ts.length ≤ n + 1) (h : javaGrammar.Derives ok (.ref "primary") ts) :
    ∃ e : Expr, e.isPrimary = true ∧ e.ReadFrom ts := by
  rw [derives_primary hok] at h
  rcases h with ⟨t, rfl, ht⟩ | ⟨t, us, rfl, ht, hus⟩ | ⟨l, us, r, rfl, hl, hr, hus⟩
    | ⟨w, t, l, us, r, rfl, hw, ht, hl, hr, hus⟩
  · obtain ⟨sort, hsort⟩ := mem_literalKinds.1 ht
    exact ⟨.literal .nowhere sort t.value, rfl, t, rfl, hsort, rfl⟩
  · simp only [List.length_cons] at hlen
    obtain ⟨xs, hxs⟩ := exists_selectors hok (fun ws hws => ih ws (by omega)) hus
    exact ⟨.name .nowhere ⟨t.value, .nowhere⟩ xs, rfl, t, us, rfl, ⟨ht, rfl⟩, hxs⟩
  · simp only [List.length_cons, List.length_append] at hlen
    obtain ⟨e, he⟩ := ih us (by omega) hus
    exact ⟨.paren .nowhere e, rfl, l, us, r, rfl, hl, hr, he⟩
  · simp only [List.length_cons, List.length_append] at hlen
    obtain ⟨args, hargs⟩ := exists_arguments hok (fun ws hws => ih ws (by omega)) hus
    exact ⟨.new .nowhere ⟨t.value, .nowhere⟩ args, rfl, w, t, l, us, r, rfl, hw, ⟨ht, rfl⟩, hl, hr,
      hargs⟩

theorem exists_operand (hok : FreeElsewhere ok) {n : Nat} (ih : ReadsUpTo ok n)
    (ihu : ReadsOperandsUpTo ok n) : ReadsOperandsUpTo ok (n + 1) := by
  intro us hlen h
  rw [derives_unary hok, derives_castOrPrimary hok, derives_stepped hok] at h
  rcases h with ⟨o, vs, rfl, ho, hvs⟩ | ⟨l, w, r, vs, rfl, hl, hw, hr, hvs⟩ | hp
    | ⟨vs, o, rfl, ho, hvs⟩
  · obtain ⟨op, hop⟩ := mem_signKinds.1 ho
    obtain ⟨e, hbin, he⟩ := ihu vs (Nat.le_of_succ_le_succ hlen) hvs
    exact ⟨.unary .nowhere op e, rfl, o, vs, rfl, hop, hbin, he⟩
  · simp only [List.length_cons] at hlen
    obtain ⟨e, hbin, he⟩ := ihu vs (by omega) hvs
    exact ⟨.cast .nowhere (some ⟨.nowhere, w.value, false⟩) e, rfl, l, w, r, vs, rfl, hl,
      mem_primitiveKinds.1 hw, hr, rfl, rfl, hbin, he⟩
  · obtain ⟨e, hprim, he⟩ := exists_primary hok ih hlen hp
    exact ⟨e, Expr.isBinary_of_isPrimary hprim, he⟩
  · obtain ⟨op, hop, hstep⟩ := mem_stepKinds.1 ho
    rw [List.length_append] at hlen
    obtain ⟨e, hprim, he⟩ := exists_primary hok ih (by omega) hvs
    exact ⟨.step .nowhere op e, rfl, vs, o, rfl, hop, hstep, hprim, he⟩

/-- Operands joined by the operators of a tier group to the left. -/
theorem exists_chain {k n : Nat} (hk : k < tiers.length)
    (hnext : ∀ us : List Token, us.length ≤ n → javaGrammar.Derives ok (.ref (tierName (k + 1))) us →
      ∃ e : Expr, k + 1 < e.rank ∧ e.ReadFrom us)
    {rounds : List (List Token)} (hlen : rounds.flatten.length ≤ n)
    (hrounds : ∀ us ∈ rounds,
      javaGrammar.DerivesAll ok [anyOf (tierKinds k), .ref (tierName (k + 1))] us) :
    ∀ (left : Expr) (us : List Token), k < left.rank → left.ReadFrom us →
      ∃ e : Expr, k < e.rank ∧ e.ReadFrom (us ++ rounds.flatten) := by
  induction rounds with
  | nil =>
    intro left us hrank hleft
    rw [List.flatten_nil, List.append_nil]
    exact ⟨left, hrank, hleft⟩
  | cons vs rounds ih =>
    intro left us hrank hleft
    rw [List.flatten_cons, List.length_append] at hlen
    obtain ⟨o, ws, rfl, ho, hws⟩ := derivesAll_anyOf_cons.1 (hrounds vs List.mem_cons_self)
    obtain ⟨op, hop⟩ := (mem_tierKinds hk).1 ho
    rw [List.length_cons] at hlen
    obtain ⟨right, hr, hright⟩ := hnext ws (by omega) (derivesAll_singleton.1 hws)
    have hjoin : (Expr.binary .nowhere (tiers[k]).level op .nowhere left right).ReadFrom
        (us ++ o :: ws) := by
      refine ⟨us, o, ws, rfl, Level.writes_tier hk hop, ?_, ?_, hleft, hright⟩
      · rw [Expr.needsParens_left, rank_tier k hk]
        exact hrank
      · rw [Expr.needsParens_right, rank_tier k hk]
        exact hr
    have hjoined : k < (Expr.binary .nowhere (tiers[k]).level op .nowhere left right).rank := by
      rw [Expr.rank, rank_tier k hk]
      exact Nat.lt_succ_self k
    obtain ⟨e, he, hread⟩ := ih (by omega) (fun xs hxs => hrounds xs (List.mem_cons_of_mem _ hxs))
      _ _ hjoined hjoin
    refine ⟨e, he, ?_⟩
    rw [List.flatten_cons, ← List.append_assoc]
    exact hread

/-- From the operands up, tier by tier. -/
theorem exists_tier (hok : FreeElsewhere ok) {n : Nat} (hu : ReadsOperandsUpTo ok n) :
    ∀ j k, k + j = tiers.length → ∀ us : List Token, us.length ≤ n →
      javaGrammar.Derives ok (.ref (tierName k)) us →
      ∃ e : Expr, k < e.rank ∧ e.ReadFrom us := by
  intro j
  induction j with
  | zero =>
    intro k hk us hlen h
    obtain rfl : k = tiers.length := hk
    obtain ⟨e, hbin, he⟩ := hu us hlen h
    refine ⟨e, ?_, he⟩
    rw [Expr.rank_of_not_binary hbin]
    decide
  | succ j ih =>
    intro k hk us hlen h
    have hlt : k < tiers.length := by omega
    rw [derives_tier hok hlt] at h
    obtain ⟨vs, ws, rfl, hfirst, hmore⟩ := h
    obtain ⟨rounds, rfl, hrounds⟩ := derives_many.1 hmore
    rw [List.length_append] at hlen
    have hnext := ih (k + 1) (by omega)
    obtain ⟨left, hrank, hleft⟩ := hnext vs (by omega) hfirst
    exact exists_chain hlt hnext (by omega) hrounds left vs (by omega) hleft

theorem reads_of_derives (hok : FreeElsewhere ok) (n : Nat) :
    ReadsUpTo ok n ∧ ReadsOperandsUpTo ok n := by
  have hwhole : ∀ n, ReadsOperandsUpTo ok n → ReadsUpTo ok n := by
    intro n hu us hlen h
    rw [derives_expression hok] at h
    obtain ⟨e, -, he⟩ := exists_tier hok hu tiers.length 0 (Nat.zero_add _) us hlen h
    exact ⟨e, he⟩
  induction n with
  | zero =>
    have hu : ReadsOperandsUpTo ok 0 := by
      intro us hlen h
      obtain rfl : us = [] := List.eq_nil_of_length_eq_zero (Nat.le_zero.1 hlen)
      rw [derives_unary hok, derives_castOrPrimary hok, derives_stepped hok,
        derives_primary hok] at h
      simp [derives_primary hok] at h
    exact ⟨hwhole 0 hu, hu⟩
  | succ n ih =>
    have hu := exists_operand hok ih.1 ih.2
    exact ⟨hwhole (n + 1) hu, hu⟩

/-- The table derives as an expression exactly what some expression is read from. -/
theorem derives_expression_iff (hok : FreeElsewhere ok) :
    javaGrammar.Derives ok (.ref "expression") ts ↔ ∃ e : Expr, e.ReadFrom ts := by
  constructor
  · intro h
    exact (reads_of_derives hok ts.length).1 ts (Nat.le_refl _) h
  · intro h
    obtain ⟨e, he⟩ := h
    exact derived hok e ts he

/-! ### Assignment targets -/

/-- The last selector of a name is read from the last tokens of it. -/
theorem last_of_selectors {xs : List Selector} {x : Selector} {us : List Token}
    (h : selectorsReadFrom xs us) (hx : xs.getLast? = some x) :
    ∃ vs ws, us = vs ++ ws ∧ x.ReadFrom ws := by
  rw [selectorsReadFrom_eq] at h
  obtain ⟨xs, rfl⟩ := List.getLast?_eq_some_iff.1 hx
  clear hx
  induction xs generalizing us with
  | nil =>
    obtain ⟨vs, ws, rfl, hx, rfl⟩ := h
    exact ⟨[], vs, List.append_nil vs, hx⟩
  | cons y xs ih =>
    obtain ⟨vs, ws, rfl, -, hxs⟩ := h
    obtain ⟨vs', ws, rfl, hx⟩ := ih hxs
    exact ⟨vs ++ vs', ws, (List.append_assoc _ _ _).symm, hx⟩

/-- A name that does not end in a call can be assigned to. -/
theorem isAssignable_name {s : Span} {head : Ident} {xs : List Selector}
    (h : ∀ t args, xs.getLast? ≠ some (.call t args)) :
    (Expr.name s head xs).isAssignable = true := by
  unfold Expr.isAssignable
  split
  · next t args hlast => exact absurd hlast (h t args)
  · rfl

theorem exists_assignable (h : Assignable ts) :
    ∃ e : Expr, e.ReadFrom ts ∧ e.isAssignable = true := by
  induction h with
  | @name ts hts hlast =>
    rw [derivesAll_tok_cons] at hts
    obtain ⟨t, us, rfl, ht, hus⟩ := hts
    have hok := freeElsewhere_unrestricted
    obtain ⟨xs, hxs⟩ := exists_selectors hok (reads_of_derives hok us.length).1
      (derivesAll_singleton.1 hus)
    refine ⟨.name .nowhere ⟨t.value, .nowhere⟩ xs, ⟨t, us, rfl, ⟨ht, rfl⟩, hxs⟩, ?_⟩
    refine isAssignable_name ?_
    intro s args hcall
    obtain ⟨vs, ws, rfl, l, as, r, rfl, -, hr, -⟩ := last_of_selectors hxs hcall
    exact hlast r (by simp [List.getLast?_cons, List.getLast?_append]) hr
  | @paren l r ts hl h hr ih =>
    obtain ⟨e, he, hassign⟩ := ih
    exact ⟨.paren .nowhere e, ⟨l, ts, r, rfl, hl, hr, he⟩, hassign⟩

theorem assignable_of_readFrom (e : Expr) : ∀ us, e.ReadFrom us → e.isAssignable = true →
    Assignable us := by
  induction e using Expr.byParts with
  | name s head selectors ih =>
    intro us hread hassign
    obtain ⟨t, vs, rfl, ht, hsels⟩ := hread
    have hok := freeElsewhere_unrestricted
    have hderives := derives_selectors hok hsels fun s args _ e _ => derived hok e
    refine .name (derivesAll_tok_cons.2 ⟨t, vs, rfl, ht.1, derivesAll_singleton.2 hderives⟩) ?_
    intro u hu
    cases hlast : selectors.getLast? with
    | none =>
      rw [List.getLast?_eq_none_iff.1 hlast] at hsels
      rw [show vs = [] from hsels] at hu
      have hut : u = t := by simpa [eq_comm] using hu
      rw [hut, ht.1]
      decide
    | some x =>
      obtain ⟨as, bs, rfl, hx⟩ := last_of_selectors hsels hlast
      cases x with
      | field s name =>
        obtain ⟨d, w, rfl, -, hw⟩ := hx
        have huw : u = w := by simpa [List.getLast?_cons, List.getLast?_append, eq_comm] using hu
        rw [huw, hw.1]
        decide
      | call s args =>
        simp only [Expr.isAssignable, hlast] at hassign
        cases hassign
  | paren s e ih =>
    intro us hread hassign
    obtain ⟨l, vs, r, rfl, hl, hr, he⟩ := hread
    exact .paren hl (ih vs he hassign) hr
  | bad s =>
    intro us hread
    cases hread
  | _ =>
    intros
    contradiction

/-- Whether an expression can be assigned to is told by its tokens. -/
theorem assignable_iff {e : Expr} (he : e.ReadFrom ts) :
    Assignable ts ↔ e.isAssignable = true := by
  constructor
  · intro h
    obtain ⟨e', he', hassign⟩ := exists_assignable h
    rw [← Expr.isAssignable_bare, he.bare_unique he', Expr.isAssignable_bare]
    exact hassign
  · exact assignable_of_readFrom e ts he

end JavaRules

end JavaPrimer
