import JavaPrimer.Proofs.ReadBack

/-!
# Reading expressions back

The tokens that an expression is read from are read back as that expression, up to spans,
whenever the token behind them cannot go on with it. The proof is by induction on the expression.
An operand of the left spine of a tier is read by the same loop as the whole spine, so for it the
statement is about the loop from there on (`ChainAt`).

* `endsExpr` — the kinds of token that cannot be taken for more of an expression;
* `Parse.BackAt`, `Parse.ChainAt`, `Parse.PrimaryBack` — what is proved of an expression at a
  tier, of an operand on the left, and before a step operator;
* `Parse.back_and_primaryBack`, `Parse.gives_expression` — every expression is read back.
-/

namespace JavaPrimer

/-- Kinds of token that cannot be taken for more of an expression whose operators are those of
the tiers from the `k`-th on. -/
def endsExpr (k : Nat) (kind : Kind) : Bool :=
  ((tiers.drop k).all fun tier => (tier.op? kind).isNone)
    && !([.plusPlus, .minusMinus, .dot, .lparen] : List Kind).contains kind

theorem endsExpr_succ {k : Nat} {kind : Kind} (h : endsExpr k kind = true) :
    endsExpr (k + 1) kind = true := by
  simp only [endsExpr, Bool.and_eq_true, List.all_eq_true] at h ⊢
  refine ⟨fun tier ht => h.1 tier ?_, h.2⟩
  rw [← List.drop_drop, List.drop_one] at ht
  exact List.mem_of_mem_tail ht

/-- The operators of a tier end the operands of it. -/
theorem endsExpr_ops : ∀ k, ∀ h : k < tiers.length, ∀ entry ∈ (tiers[k]).ops,
    endsExpr (k + 1) entry.1 = true := by decide

theorem endsExpr_of_op? {k : Nat} (hk : k < tiers.length) {kind : Kind} {op : BinaryOp}
    (h : (tiers[k]).op? kind = some op) : endsExpr (k + 1) kind = true := by
  obtain ⟨entry, hfind, -⟩ := Option.map_eq_some_iff.1 h
  have hkind : entry.1 = kind := by simpa using List.find?_some hfind
  rw [← hkind]
  exact endsExpr_ops k hk entry (List.mem_of_find?_eq_some hfind)

theorem op?_of_endsExpr {k : Nat} (hk : k < tiers.length) {kind : Kind}
    (h : endsExpr k kind = true) : (tiers[k]).op? kind = none := by
  simp only [endsExpr, Bool.and_eq_true, List.all_eq_true] at h
  have hmem : tiers[k] ∈ tiers.drop k := by
    rw [List.drop_eq_getElem_cons hk]
    exact List.mem_cons_self
  simpa using h.1 _ hmem

theorem ne_of_endsExpr {k : Nat} {kind : Kind} (h : endsExpr k kind = true) :
    kind ≠ .plusPlus ∧ kind ≠ .minusMinus ∧ kind ≠ .dot ∧ kind ≠ .lparen := by
  simp only [endsExpr, Bool.and_eq_true] at h
  simpa using h.2

/-- The first token of an expression can start one. -/
theorem Expr.startsExpression_of_readFrom (e : Expr) :
    ∀ us, e.ReadFrom us → ∃ t vs, us = t :: vs ∧ t.kind.startsExpression = true := by
  induction e using Expr.byParts with
  | binary s level op t left right ihl ihr =>
    intro us h
    obtain ⟨vs, o, ws, rfl, -, -, -, hl, -⟩ := h
    obtain ⟨t, vs, rfl, ht⟩ := ihl vs hl
    exact ⟨t, _, rfl, ht⟩
  | unary s op e ih =>
    intro us h
    obtain ⟨o, vs, rfl, ho, -⟩ := h
    exact ⟨o, vs, rfl, by simp [Kind.startsExpression, ho]⟩
  | step s op e ih =>
    intro us h
    obtain ⟨vs, o, rfl, -, -, -, he⟩ := h
    obtain ⟨t, vs, rfl, ht⟩ := ih vs he
    exact ⟨t, _, rfl, ht⟩
  | cast s type e ih =>
    intro us h
    obtain ⟨l, w, r, vs, rfl, hl, -⟩ := h
    exact ⟨l, _, rfl, by rw [hl]; rfl⟩
  | paren s e ih =>
    intro us h
    obtain ⟨l, vs, r, rfl, hl, -⟩ := h
    exact ⟨l, _, rfl, by rw [hl]; rfl⟩
  | literal s sort raw =>
    intro us h
    obtain ⟨t, rfl, ht, -⟩ := h
    exact ⟨t, [], rfl, by simp [Kind.startsExpression, ht]⟩
  | name s head selectors ih =>
    intro us h
    obtain ⟨t, vs, rfl, ht, -⟩ := h
    exact ⟨t, vs, rfl, by rw [ht.1]; rfl⟩
  | new s className args ih =>
    intro us h
    obtain ⟨n, t, l, vs, r, rfl, hn, -⟩ := h
    exact ⟨n, _, rfl, by rw [hn]; rfl⟩
  | bad s =>
    intro us h
    cases h
  | missing =>
    intro us h
    cases h

theorem isPrimitive_of_startsExpression {k : Kind} (h : k.startsExpression = true) :
    k.isPrimitive = false := by
  cases k <;> first | rfl | cases h

namespace Parse

variable {c : Cursor} {n : Nat}

/-- The expression is read back by the tiers from the `k`-th on. -/
def BackAt (n k : Nat) (e : Expr) : Prop :=
  ∀ us ts (c : Cursor), e.ReadFrom us → us.length ≤ n → endsExpr k (nextKind ts) = true →
    c.At (us ++ ts) →
    (climb (unary n) (tiers.drop k)).Gives c ts fun found => found.bare = e.bare

/-- Whatever the loop of the `k`-th tier makes of the expression as its left operand and of what
follows, the tiers from the `k`-th on make of its tokens and what follows. -/
def ChainAt (n k : Nat) (hk : k < tiers.length) (e : Expr) : Prop :=
  ∀ us ts zs (c : Cursor) (Q : Expr → Prop), e.ReadFrom us → us.length ≤ n →
    endsExpr (k + 1) (nextKind ts) = true → c.At (us ++ ts) →
    (∀ (d : Cursor) left m, d.At ts → left.bare = e.bare → ts.length ≤ m →
      (chain tiers[k] (climb (unary n) (tiers.drop (k + 1))) m left).Gives d zs Q) →
    (climb (unary n) (tiers.drop k)).Gives c zs Q

/-- The expression is read back as the operand of a step operator. -/
def PrimaryBack (n : Nat) (e : Expr) : Prop :=
  ∀ us ts (c : Cursor), e.ReadFrom us → us.length ≤ n + 1 → nextKind ts ≠ .dot →
    nextKind ts ≠ .lparen → c.At (us ++ ts) →
    (primary (climb (unary n) tiers)).Gives c ts fun found => found.bare = e.bare

/-! ### Tiers -/

/-- The loop of a tier ends where none of its operators comes. -/
theorem gives_chain_end {k : Nat} (hk : k < tiers.length) {operand : Parse .short Expr}
    {left : Expr} {ts : List Token} (m : Nat) (hc : c.At ts) (h : endsExpr k (nextKind ts) = true)
    {Q : Expr → Prop} (hQ : Q left) : (chain tiers[k] operand m left).Gives c ts Q := by
  cases m with
  | zero => exact gives_pure hc hQ
  | succ m =>
    refine gives_look_bind ?_
    have hnone : tierOp? tiers[k] c = none := by
      simp only [tierOp?, hc.quiet, hc.kind]
      exact op?_of_endsExpr hk h
    rw [hnone]
    exact gives_pure hc hQ

theorem chainAt_of_succ {k : Nat} (hk : k < tiers.length) {e : Expr} (h : BackAt n (k + 1) e) :
    ChainAt n k hk e := by
  intro us ts zs c Q hread hlen hend hc hcont
  rw [List.drop_eq_getElem_cons hk]
  refine (h us ts c hread hlen hend hc).bind fun d left hd hleft => ?_
  have hbudget : ts.length ≤ d.rest.length := Nat.le_of_eq (congrArg List.length hd.rest.symm)
  exact gives_look_bind (hcont d left _ hd hleft hbudget)

theorem backAt_of_chainAt {k : Nat} (hk : k < tiers.length) {e : Expr} (h : ChainAt n k hk e) :
    BackAt n k e := by
  intro us ts c hread hlen hend hc
  refine h us ts ts c _ hread hlen (endsExpr_succ hend) hc fun d left m hd hleft _ => ?_
  exact gives_chain_end hk m hd hend hleft

/-- What a tier reads back, the looser tiers read back as well. -/
theorem backAt_of_le {k : Nat} (hk : k ≤ tiers.length) {e : Expr} (h : BackAt n k e) :
    ∀ j, j ≤ k → BackAt n j e := by
  induction k with
  | zero =>
    intro j hj
    rw [Nat.le_zero.1 hj]
    exact h
  | succ k ih =>
    intro j hj
    rcases Nat.lt_or_ge j (k + 1) with hlt | hge
    · exact ih (by omega) (backAt_of_chainAt hk (chainAt_of_succ hk h)) j (by omega)
    · rw [Nat.le_antisymm hj hge]
      exact h

/-- A binary operator of the `k`-th tier: the left operand is read by the same loop. -/
theorem chainAt_binary {k : Nat} (hk : k < tiers.length) {s t : Span} {op : BinaryOp}
    {left right : Expr} (hl : ChainAt n k hk left) (hr : BackAt n (k + 1) right)
    (hop : ∀ kind, (tiers[k]).level.Writes kind op → (tiers[k]).op? kind = some op) :
    ChainAt n k hk (.binary s (tiers[k]).level op t left right) := by
  intro us ts zs c Q hread hlen hend hc hcont
  obtain ⟨vs, o, ws, rfl, hwrites, -, -, hleft, hright⟩ := hread
  have ho := hop o.kind hwrites
  simp only [List.length_append, List.length_cons] at hlen
  rw [List.append_assoc] at hc
  refine hl vs (o :: ws ++ ts) zs c Q hleft (by omega) (endsExpr_of_op? hk ho) hc ?_
  intro d l m hd hlb hm
  obtain ⟨m, rfl⟩ : ∃ m', m = m' + 1 := ⟨m - 1, by simp at hm; omega⟩
  refine gives_look_bind ?_
  have hsome : tierOp? tiers[k] d = some op := by
    simp only [tierOp?, hd.quiet, hd.kind]
    exact ho
  rw [hsome]
  refine gives_advance_bind hd fun d hd => ?_
  refine (hr ws ts d hright (by omega) hend hd).bind fun d r hd hrb => ?_
  refine hcont d _ m hd ?_ (by simp at hm; omega)
  simp only [Expr.bare, hlb, hrb]

/-! ### Arguments and selectors -/

/-- The kinds of token that can stand behind an argument. -/
def EndsArgument (kind : Kind) : Prop := kind = .comma ∨ kind = .rparen

theorem endsExpr_of_endsArgument {kind : Kind} (h : EndsArgument kind) :
    endsExpr 0 kind = true := by
  rcases h with rfl | rfl <;> decide

theorem gives_argument {e : Expr} (h : BackAt n 0 e) {us ts : List Token}
    (hread : e.ReadAfterComma us) (hlen : us.length ≤ n) (hend : EndsArgument (nextKind ts))
    (hc : c.At (us ++ ts)) :
    (argument (climb (unary n) tiers)).Gives c ts
      fun o => ∃ found, o = some found ∧ found.bare = e.bare := by
  obtain ⟨comma, vs, rfl, hcomma, he⟩ := hread
  refine gives_look_bind ?_
  have hyes : (!c.panicking && c.kind == .comma) = true := by
    rw [hc.quiet, hc.kind]
    simp [hcomma]
  rw [if_pos hyes]
  refine gives_advance_bind hc fun d hd => ?_
  have hback := h vs ts d he (Nat.le_of_succ_le hlen) (endsExpr_of_endsArgument hend) hd
  exact hback.bind fun d' found hd' hfound => gives_pure hd' ⟨found, rfl, hfound⟩

theorem gives_arguments {es : List Expr} (h : ∀ e ∈ es, BackAt n 0 e) {us ts : List Token}
    (hread : argsReadFrom es us) (hlen : us.length ≤ n) (hend : nextKind ts = .rparen)
    (hc : c.At (us ++ ts)) :
    (arguments (climb (unary n) tiers)).Gives c ts
      fun found => found.map Expr.bare = es.map Expr.bare := by
  refine gives_look_bind ?_
  cases es with
  | nil =>
    rw [show us = [] from hread] at hc
    have hno : c.kind.startsExpression = false := by
      rw [hc.kind, List.nil_append, hend]
      rfl
    rw [if_neg (by rw [hno]; decide)]
    exact gives_pure hc rfl
  | cons e es =>
    obtain ⟨vs, ws, rfl, he, hmore⟩ := hread
    rw [moreArgsReadFrom_eq] at hmore
    rw [List.length_append] at hlen
    rw [List.append_assoc] at hc
    have hyes : c.kind.startsExpression = true := by
      obtain ⟨t, vs', rfl, ht⟩ := e.startsExpression_of_readFrom vs he
      rw [hc.kind]
      exact ht
    rw [if_pos hyes]
    -- behind the first argument stands a comma or the closing parenthesis
    have hnext : EndsArgument (nextKind (ws ++ ts)) := by
      cases es with
      | nil =>
        rw [show ws = [] from hmore]
        exact .inr hend
      | cons e' es =>
        obtain ⟨_, _, rfl, ⟨comma, _, rfl, hcomma, -⟩, -⟩ := hmore
        exact .inl hcomma
    have hfirst := h e List.mem_cons_self vs (ws ++ ts) c he (by omega)
      (endsExpr_of_endsArgument hnext) hc
    refine hfirst.bind fun d found hd hfound => ?_
    have hloop : (untilNone (argument (climb (unary n) tiers))).Gives d ts
        fun found => found.map Expr.bare = es.map Expr.bare := by
      refine gives_untilNone (F := EndsArgument) ?_ ?_ ?_ ?_ (.inr hend)
        (hmore.bounded (n := n) (by omega)) hd
      · rintro e ⟨⟨_, _, hnil, -⟩, -⟩
        cases hnil
      · rintro e us ts ⟨⟨comma, _, rfl, hcomma, -⟩, -⟩
        exact .inl hcomma
      · intro e he d us ts hP hd hok
        exact gives_argument (h e (List.mem_cons_of_mem _ he)) hP.1 hP.2 hok hd
      · intro d hd
        refine gives_look_bind ?_
        have hno : (!d.panicking && d.kind == .comma) = false := by
          rw [hd.quiet, hd.kind, hend]
          rfl
        rw [if_neg (by rw [hno]; decide)]
        exact gives_pure hd rfl
    refine hloop.bind fun d' rest hd' hrest => gives_pure hd' ?_
    rw [List.map_cons, List.map_cons, hfound, hrest]

theorem gives_selector {x : Selector} {us ts : List Token}
    (h : ∀ s args, x = .call s args → ∀ e ∈ args, BackAt n 0 e) (hread : x.ReadFrom us)
    (hlen : us.length ≤ n) (hc : c.At (us ++ ts)) :
    (selector (climb (unary n) tiers)).Gives c ts
      fun o => ∃ found, o = some found ∧ found.bare = x.bare := by
  refine gives_panicking_bind hc (gives_look_bind ?_)
  rw [hc.kind]
  cases x with
  | field s name =>
    obtain ⟨d, t, rfl, hd, ht⟩ := hread
    rw [show nextKind ([d, t] ++ ts) = .dot from hd]
    refine gives_advance_bind hc fun d' hd' => ?_
    refine gives_expectIdent_bind hd' ht fun d' y hd' hy => gives_pure hd' ⟨_, rfl, ?_⟩
    simp only [Selector.bare, hy]
  | call s args =>
    obtain ⟨l, vs, r, rfl, hl, hr, hargs⟩ := hread
    rw [show nextKind (l :: (vs ++ [r]) ++ ts) = .lparen from hl]
    simp only [List.length_cons, List.length_append] at hlen
    rw [List.cons_append, List.append_assoc] at hc
    refine gives_advance_bind hc fun d hd => ?_
    have hback := gives_arguments (h s args rfl) hargs (by omega)
      (show nextKind ([r] ++ ts) = .rparen from hr) hd
    refine hback.bind fun d found hd hfound => gives_panicking_bind hd ?_
    refine gives_expect_bind hd hr fun d hd => gives_look_bind (gives_pure hd ⟨_, rfl, ?_⟩)
    simp only [Selector.bare, bareExprs_eq, hfound]

theorem gives_selectors {xs : List Selector} {us ts : List Token}
    (h : ∀ s args, Selector.call s args ∈ xs → ∀ e ∈ args, BackAt n 0 e)
    (hread : selectorsReadFrom xs us) (hlen : us.length ≤ n) (hdot : nextKind ts ≠ .dot)
    (hparen : nextKind ts ≠ .lparen) (hc : c.At (us ++ ts)) :
    (untilNone (selector (climb (unary n) tiers))).Gives c ts
      fun found => found.map Selector.bare = xs.map Selector.bare := by
  rw [selectorsReadFrom_eq] at hread
  refine gives_untilNone (F := fun _ => True) ?_ (fun _ _ _ _ => trivial) ?_ ?_ trivial
    (hread.bounded hlen) hc
  · intro x hx
    cases x with
    | field s name =>
      obtain ⟨⟨_, _, hnil, -⟩, -⟩ := hx
      cases hnil
    | call s args =>
      obtain ⟨⟨_, _, _, hnil, -⟩, -⟩ := hx
      cases hnil
  · intro x hx d us ts hread hd _
    exact gives_selector (fun s args he => h s args (he ▸ hx)) hread.1 hread.2 hd
  · intro d hd
    refine gives_panicking_bind hd (gives_look_bind ?_)
    rw [hd.kind]
    split
    · next hk => exact absurd hk hdot
    · next hk => exact absurd hk hparen
    · exact gives_pure hd rfl

/-! ### Operands -/

theorem primaryBack_literal {s : Span} {sort : LiteralSort} {raw : Text} :
    PrimaryBack n (.literal s sort raw) := by
  intro us ts c hread hlen hdot hparen hc
  obtain ⟨t, rfl, hsort, hraw⟩ := hread
  refine gives_look_bind ?_
  rw [hc.current, hsort]
  refine gives_advance_bind hc fun d hd => gives_pure hd ?_
  rw [hraw]
  rfl

theorem primaryBack_name {s : Span} {head : Ident} {selectors : List Selector}
    (h : ∀ t args, Selector.call t args ∈ selectors → ∀ e ∈ args, BackAt n 0 e) :
    PrimaryBack n (.name s head selectors) := by
  intro us ts c hread hlen hdot hparen hc
  obtain ⟨t, vs, rfl, hhead, hsels⟩ := hread
  refine gives_look_bind ?_
  rw [hc.current, hhead.1]
  refine gives_spanned (gives_advance_bind hc fun d hd => ?_)
  have hback := gives_selectors h hsels (Nat.le_of_succ_le_succ hlen) hdot hparen hd
  refine hback.bind fun d found hd hfound => gives_pure hd fun span => ?_
  simp only [Expr.bare, bareSelectors_eq, hfound, Ident.bare, hhead.2]

theorem primaryBack_paren {s : Span} {e : Expr} (h : BackAt n 0 e) :
    PrimaryBack n (.paren s e) := by
  intro us ts c hread hlen hdot hparen hc
  obtain ⟨l, vs, r, rfl, hl, hr, he⟩ := hread
  simp only [List.length_cons, List.length_append] at hlen
  rw [List.cons_append, List.append_assoc] at hc
  refine gives_look_bind ?_
  rw [hc.current, hl]
  refine gives_spanned (gives_advance_bind hc fun d hd => ?_)
  have hend : endsExpr 0 (nextKind ([r] ++ ts)) = true := by
    rw [show nextKind ([r] ++ ts) = .rparen from hr]
    decide
  refine (h vs _ d he (by omega) hend hd).bind fun d found hd hfound => ?_
  refine gives_panicking_bind hd (gives_expect_bind hd hr fun d hd => gives_pure hd fun span => ?_)
  simp only [Expr.bare, hfound]

theorem primaryBack_new {s : Span} {className : Ident} {args : List Expr}
    (h : ∀ e ∈ args, BackAt n 0 e) : PrimaryBack n (.new s className args) := by
  intro us ts c hread hlen hdot hparen hc
  obtain ⟨w, t, l, vs, r, rfl, hw, ht, hl, hr, hargs⟩ := hread
  simp only [List.length_cons, List.length_append] at hlen
  simp only [List.cons_append, List.append_assoc] at hc
  refine gives_look_bind ?_
  rw [hc.current, hw]
  refine gives_spanned (gives_advance_bind hc fun d hd => ?_)
  refine gives_expectIdent_bind hd ht fun d x hd hx => ?_
  refine gives_expect_bind hd hl fun d hd => ?_
  have hend : nextKind ([r] ++ ts) = .rparen := hr
  refine (gives_arguments h hargs (by omega) hend hd).bind fun d found hd hfound => ?_
  refine gives_panicking_bind hd (gives_expect_bind hd hr fun d hd => gives_pure hd fun span => ?_)
  simp only [Expr.bare, bareExprs_eq, hfound, hx]

/-- What starts an operand that is neither signed nor cast. -/
theorem starts_of_isPrimary {e : Expr} (hp : e.isPrimary = true) {us ts : List Token}
    (hread : e.ReadFrom us) (hc : c.At (us ++ ts)) :
    UnaryOp.ofKind? c.kind = none ∧ c.startsCast = false := by
  cases e with
  | literal s sort raw =>
    obtain ⟨t, rfl, hsort, -⟩ := hread
    have hk : c.kind = t.kind := hc.kind
    have hnot : t.kind ≠ .lparen := fun h => by rw [h] at hsort; cases hsort
    refine ⟨?_, by simp [Cursor.startsCast, hk, hnot]⟩
    rw [hk]
    cases htk : t.kind <;> first | rfl | (rw [htk] at hsort; cases hsort)
  | name s head selectors =>
    obtain ⟨t, vs, rfl, hhead, -⟩ := hread
    have hk : c.kind = .ident := hc.kind.trans hhead.1
    exact ⟨by rw [hk]; rfl, by simp [Cursor.startsCast, hk]⟩
  | paren s e =>
    obtain ⟨l, vs, r, rfl, hl, -, he⟩ := hread
    obtain ⟨t, ws, rfl, ht⟩ := e.startsExpression_of_readFrom vs he
    have hk : c.kind = .lparen := hc.kind.trans hl
    refine ⟨by rw [hk]; rfl, ?_⟩
    simp only [Cursor.startsCast, hk, hc.ahead_one, isPrimitive_of_startsExpression ht,
      Bool.and_false]
  | new s className args =>
    obtain ⟨w, t, l, vs, r, rfl, hw, -⟩ := hread
    have hk : c.kind = .kwNew := hc.kind.trans hw
    exact ⟨by rw [hk]; rfl, by simp [Cursor.startsCast, hk]⟩
  | _ => cases hp

/-- An operand without operators before it is left to `stepped`. -/
theorem gives_unary_of_isPrimary {e : Expr} (hp : e.isPrimary = true) {us ts zs : List Token}
    {Q : Expr → Prop} (hread : e.ReadFrom us) (hc : c.At (us ++ ts))
    (h : (stepped (climb (unary n) tiers)).Gives c zs Q) : (unary (n + 1)).Gives c zs Q := by
  obtain ⟨hop, hcast⟩ := starts_of_isPrimary hp hread hc
  refine gives_look_bind ?_
  rw [hop]
  refine gives_look_bind ?_
  rw [hcast]
  exact h

theorem backAt_of_primaryBack {e : Expr} (hp : e.isPrimary = true) (h : PrimaryBack n e) :
    BackAt (n + 1) tiers.length e := by
  intro us ts c hread hlen hend hc
  obtain ⟨hinc, hdec, hdot, hparen⟩ := ne_of_endsExpr hend
  refine gives_unary_of_isPrimary hp hread hc ?_
  refine (h us ts c hread hlen hdot hparen hc).bind fun d found hd hfound => ?_
  refine gives_look_bind ?_
  have hnone : stepOp? d = none := by
    simp only [stepOp?, hd.quiet, hd.kind]
    split <;> simp_all
  rw [hnone]
  exact gives_pure hd hfound

theorem backAt_step {s : Span} {op : UnaryOp} {e : Expr} (h : PrimaryBack n e) :
    BackAt (n + 1) tiers.length (.step s op e) := by
  intro us ts c hread hlen hend hc
  obtain ⟨vs, o, rfl, ho, hstep, hp, he⟩ := hread
  rw [List.append_assoc] at hc
  rw [List.length_append] at hlen
  have hkind : o.kind = .plusPlus ∧ op = .inc ∨ o.kind = .minusMinus ∧ op = .dec := by
    cases hk : o.kind <;> rw [hk] at ho <;> cases ho <;> simp_all [UnaryOp.isStep]
  have hnext : nextKind ([o] ++ ts) = o.kind := rfl
  refine gives_unary_of_isPrimary hp he hc ?_
  refine (h vs _ c he (by omega) ?_ ?_ hc).bind fun d found hd hfound => ?_
  · rw [hnext]
    rcases hkind with ⟨hk, -⟩ | ⟨hk, -⟩ <;> rw [hk] <;> decide
  · rw [hnext]
    rcases hkind with ⟨hk, -⟩ | ⟨hk, -⟩ <;> rw [hk] <;> decide
  · refine gives_look_bind ?_
    have hsome : stepOp? d = some op := by
      simp only [stepOp?, hd.quiet, hd.kind, hnext]
      rcases hkind with ⟨hk, rfl⟩ | ⟨hk, rfl⟩ <;> rw [hk] <;> rfl
    rw [hsome]
    refine gives_advance_bind hd fun d hd => gives_pure hd ?_
    simp only [Expr.bare, hfound]

theorem backAt_unary {s : Span} {op : UnaryOp} {e : Expr} (h : BackAt n tiers.length e) :
    BackAt (n + 1) tiers.length (.unary s op e) := by
  intro us ts c hread hlen hend hc
  obtain ⟨o, vs, rfl, ho, -, he⟩ := hread
  refine gives_look_bind ?_
  rw [hc.kind, show nextKind (o :: vs ++ ts) = o.kind from rfl, ho]
  refine gives_advance_bind hc fun d hd => ?_
  refine (h vs ts d he (Nat.le_of_succ_le_succ hlen) hend hd).bind fun d found hd hfound => ?_
  refine gives_pure hd ?_
  simp only [Expr.bare, hfound]

theorem backAt_cast {s : Span} {type : Option TypeSpec} {e : Expr}
    (h : BackAt n tiers.length e) : BackAt (n + 1) tiers.length (.cast s type e) := by
  intro us ts c hread hlen hend hc
  obtain ⟨l, w, r, vs, rfl, hl, hw, hr, htype, harr, -, he⟩ := hread
  simp only [List.length_cons] at hlen
  have hk : c.kind = .lparen := hc.kind.trans hl
  refine gives_look_bind ?_
  rw [hk]
  refine gives_look_bind ?_
  have hcast : c.startsCast = true := by
    have hone : c.ahead 1 = w := hc.ahead_one
    simp [Cursor.startsCast, hk, hone, hw]
  rw [hcast]
  refine gives_advance_bind hc fun d hd => gives_advance_bind hd fun d hd => ?_
  refine gives_expect_bind hd hr fun d hd => ?_
  refine (h vs ts d he (by omega) hend hd).bind fun d found hd hfound => gives_pure hd ?_
  obtain ⟨t, rfl, ht⟩ := Option.map_eq_some_iff.1 htype
  have ha : t.isArray = false := by simpa using harr
  simp only [Expr.bare, hfound, Option.map_some, TypeSpec.bare, ht, ha]

/-! ### The induction -/

/-- Only operators of a tier are ever read. -/
theorem rank_pos_of_readFrom {e : Expr} {us : List Token} (h : e.ReadFrom us) : 0 < e.rank := by
  cases e with
  | binary s level op t left right =>
    obtain ⟨_, _, _, -, ⟨tier, htier, rfl, -⟩, -⟩ := h
    obtain ⟨k, hk, rfl⟩ := List.getElem_of_mem htier
    rw [Expr.rank, rank_tier k hk]
    exact Nat.succ_pos k
  | _ => exact Nat.succ_pos 6

/-- The expression is read back wherever it may stand. -/
def Back (e : Expr) : Prop :=
  (∀ n k, k ≤ tiers.length → k < e.rank → BackAt n k e)
    ∧ ∀ n k, ∀ hk : k < tiers.length, k < e.rank → ChainAt n k hk e

theorem Back.whole {e : Expr} (h : Back e) (n : Nat) : BackAt n 0 e := by
  intro us ts c hread
  exact h.1 n 0 (Nat.zero_le _) (rank_pos_of_readFrom hread) us ts c hread

/-- What is read back by the tightest tier is read back by all. -/
theorem back_of_operand {e : Expr} (h : ∀ n, BackAt (n + 1) tiers.length e) : Back e := by
  have hall : ∀ n k, k ≤ tiers.length → BackAt n k e := by
    intro n k hk
    cases n with
    | zero =>
      intro us ts c hread hlen
      obtain ⟨t, vs, rfl, -⟩ := e.startsExpression_of_readFrom us hread
      cases hlen
    | succ n => exact backAt_of_le (Nat.le_refl _) (h n) k hk
  exact ⟨fun n k hk _ => hall n k hk, fun n k hk _ => chainAt_of_succ hk (hall n (k + 1) hk)⟩

/-- A kind of token writes one operator only, at one level only. -/
theorem op?_of_writes : ∀ k, ∀ hk : k < tiers.length, ∀ kind op,
    (tiers[k]).level.Writes kind op → (tiers[k]).op? kind = some op := by
  intro k hk kind op h
  obtain ⟨tier, htier, hlevel, ho⟩ := h
  obtain ⟨j, hj, rfl⟩ := List.getElem_of_mem htier
  have hrank : j + 1 = k + 1 := by rw [← rank_tier j hj, ← rank_tier k hk, hlevel]
  obtain rfl : j = k := Nat.succ.inj hrank
  exact ho

theorem back_binary {s t : Span} {level : Level} {op : BinaryOp} {left right : Expr}
    (hl : Back left) (hr : Back right) : Back (.binary s level op t left right) := by
  by_cases hlevel : ∃ k, ∃ hk : k < tiers.length, (tiers[k]).level = level
  · obtain ⟨j, hj, rfl⟩ := hlevel
    have hrank : (Expr.binary s (tiers[j]).level op t left right).rank = j + 1 := rank_tier j hj
    -- at its own tier the operands are those of the loop
    have hchain : ∀ n, ChainAt n j hj (.binary s (tiers[j]).level op t left right) := by
      intro n us ts zs c Q hread
      obtain ⟨_, _, _, -, -, hnl, hnr, -, -⟩ := id hread
      rw [Expr.needsParens_left, rank_tier j hj] at hnl
      rw [Expr.needsParens_right, rank_tier j hj] at hnr
      exact chainAt_binary hj (hl.2 n j hj hnl) (hr.1 n (j + 1) hj hnr)
        (op?_of_writes j hj · op) us ts zs c Q hread
    have hback : ∀ n k, k ≤ j → BackAt n k (.binary s (tiers[j]).level op t left right) :=
      fun n => backAt_of_le (Nat.le_of_lt hj) (backAt_of_chainAt hj (hchain n))
    refine ⟨fun n k _ hk => hback n k (by omega), fun n k hk hlt => ?_⟩
    rcases Nat.lt_or_ge k j with h | h
    · exact chainAt_of_succ hk (hback n (k + 1) h)
    · obtain rfl : k = j := by omega
      exact hchain n
  · -- an operator of no tier is never read
    have hnone : ∀ us, ¬ (Expr.binary s level op t left right).ReadFrom us := by
      intro us hread
      obtain ⟨_, _, _, -, ⟨tier, htier, hlev, -⟩, -⟩ := hread
      obtain ⟨k, hk, rfl⟩ := List.getElem_of_mem htier
      exact hlevel ⟨k, hk, hlev⟩
    exact ⟨fun n k _ _ us _ _ hread => absurd hread (hnone us),
      fun n k _ _ us _ _ _ _ hread => absurd hread (hnone us)⟩

/-- Every expression is read back; so is one that can be stepped, before its step operator. -/
theorem back_and_primaryBack (e : Expr) :
    Back e ∧ (e.isPrimary = true → ∀ n, PrimaryBack n e) := by
  induction e using Expr.byParts with
  | binary s level op t left right ihl ihr =>
    exact ⟨back_binary ihl.1 ihr.1, fun h => by cases h⟩
  | unary s op e ih =>
    refine ⟨back_of_operand fun n us ts c hread => ?_, fun h => by cases h⟩
    obtain ⟨_, _, -, -, hbin, -⟩ := id hread
    have hrank : tiers.length < e.rank := by
      rw [Expr.rank_of_not_binary hbin]
      decide
    exact backAt_unary (ih.1.1 n tiers.length (Nat.le_refl _) hrank) us ts c hread
  | step s op e ih =>
    refine ⟨back_of_operand fun n us ts c hread => ?_, fun h => by cases h⟩
    obtain ⟨_, _, -, -, -, hp, -⟩ := id hread
    exact backAt_step (ih.2 hp n) us ts c hread
  | cast s type e ih =>
    refine ⟨back_of_operand fun n us ts c hread => ?_, fun h => by cases h⟩
    obtain ⟨_, _, _, _, -, -, -, -, -, -, hbin, -⟩ := id hread
    have hrank : tiers.length < e.rank := by
      rw [Expr.rank_of_not_binary hbin]
      decide
    exact backAt_cast (ih.1.1 n tiers.length (Nat.le_refl _) hrank) us ts c hread
  | paren s e ih =>
    have hp : ∀ n, PrimaryBack n (.paren s e) := fun n => primaryBack_paren (ih.1.whole n)
    exact ⟨back_of_operand fun n => backAt_of_primaryBack rfl (hp n), fun _ => hp⟩
  | literal s sort raw =>
    exact ⟨back_of_operand fun n => backAt_of_primaryBack rfl primaryBack_literal,
      fun _ n => primaryBack_literal⟩
  | name s head selectors ih =>
    have hp : ∀ n, PrimaryBack n (.name s head selectors) :=
      fun n => primaryBack_name fun t args ht e he => (ih t args ht e he).1.whole n
    exact ⟨back_of_operand fun n => backAt_of_primaryBack rfl (hp n), fun _ => hp⟩
  | new s className args ih =>
    have hp : ∀ n, PrimaryBack n (.new s className args) :=
      fun n => primaryBack_new fun e he => (ih e he).1.whole n
    exact ⟨back_of_operand fun n => backAt_of_primaryBack rfl (hp n), fun _ => hp⟩
  | bad s =>
    refine ⟨back_of_operand fun n us ts c hread => ?_, fun h => by cases h⟩
    cases hread
  | missing =>
    refine ⟨back_of_operand fun n us ts c hread => ?_, fun h => by cases h⟩
    cases hread

/-- An expression is read back from the tokens it is read from. -/
theorem gives_expression {e : Expr} {us ts : List Token} (hread : e.ReadFrom us)
    (hend : endsExpr 0 (nextKind ts) = true) (hc : c.At (us ++ ts)) :
    expression.Gives c ts fun found => found.bare = e.bare := by
  have hlen : us.length ≤ c.rest.length + 1 := by
    rw [hc.rest, List.length_append]
    omega
  have h := (back_and_primaryBack e).1.whole (c.rest.length + 1) us ts c hread hlen hend hc
  exact ⟨h.clean, h.ends, h.value⟩

end Parse

/-- Up to spans, tokens are read as one expression only. -/
theorem Expr.ReadFrom.bare_unique {e e' : Expr} {us : List Token} (h : e.ReadFrom us)
    (h' : e'.ReadFrom us) : e.bare = e'.bare := by
  have hc : (Cursor.mk (ρ := .short) none us (.endOfInput .origin) () false).At (us ++ []) :=
    ⟨(List.append_nil us).symm, rfl, rfl⟩
  have hend : endsExpr 0 (nextKind []) = true := by decide
  rw [← (Parse.gives_expression h hend hc).value, (Parse.gives_expression h' hend hc).value]

end JavaPrimer
