import JavaPrimer.Proofs.WholeLists
import Mathlib.Logic.Function.Iterate

/-!
# Parsing ends

Where a parse step calls itself, or goes round in a loop, a bound taken from the tokens ahead keeps
it finite. The bound is never what stops it: every step is what its own body makes of it, and from
every place a finite number of rounds decides the outcome, whatever would be done in a further one.

* `Ends` — a function that calls itself to a finite depth only;
* `Ends.of_fuel` — what is bounded by a measure that every call decreases ends;
* `Parse.operand`, `Parse.expression_eq` — the recursion of expressions without its bound;
* `Parse.collectRound`, `Parse.untilRound`, `Parse.chainRound` — one round of each loop;
* `Parse.ends_operand`, `Parse.ends_statement` — the two recursions;
* `Parse.ends_whileMore`, `Parse.ends_untilNone`, `Parse.ends_chain` — the loops;
* `Parse.Terminates`, `Parse.terminates` — all recursions and loops of the parser.
-/

namespace JavaPrimer

/-- A function with the body `body`, in which it calls itself. It is what its body makes of it, and
a finite number of rounds decides its outcome on every argument that is `good`, whatever is called
beyond them. -/
structure Ends {σ τ : Type} (good : σ → Prop) (body : (σ → τ) → σ → τ) (p : σ → τ) : Prop where
  unfolds : ∀ x, good x → body p x = p x
  decided : ∀ x, good x → ∃ n, ∀ beyond, body^[n] beyond x = p x

/-- A body whose calls decrease a measure ends, if it is stopped by no bound below the measure. -/
theorem Ends.of_fuel {σ τ : Type} {good : σ → Prop} {body : (σ → τ) → σ → τ} {p : σ → τ}
    (size : σ → Nat) (q : Nat → σ → τ) (hq : ∀ n, q (n + 1) = body (q n))
    (hp : ∀ x, p x = q (size x) x)
    (hzero : ∀ x, good x → size x = 0 → body p x = q 0 x)
    (hlocal : ∀ x g, good x → (∀ y, good y → size y < size x → g y = p y) → body g x = body p x) :
    Ends good body p := by
  have henough : ∀ k x n, good x → size x = k → k ≤ n → q n x = body p x := by
    intro k
    induction k using Nat.strongRecOn with
    | ind k ih =>
      intro x n hx hk hn
      cases n with
      | zero => exact (hzero x hx (by omega)).symm
      | succ n =>
        rw [hq]
        apply hlocal x _ hx
        intro y hy hlt
        rw [hp y, ih (size y) (by omega) y n hy rfl (by omega),
          ih (size y) (by omega) y (size y) hy rfl (Nat.le_refl _)]
  have hunfold : ∀ x, good x → body p x = p x := by
    intro x hx
    rw [hp x, henough (size x) x (size x) hx rfl (Nat.le_refl _)]
  have hdecided : ∀ n x, good x → size x < n → ∀ beyond, body^[n] beyond x = p x := by
    intro n
    induction n with
    | zero => exact fun x _ hn => absurd hn (Nat.not_lt_zero _)
    | succ n ih =>
      intro x hx hn beyond
      rw [Function.iterate_succ_apply', ← hunfold x hx]
      apply hlocal x _ hx
      intro y hy hlt
      exact ih y hy (by omega) beyond
  exact ⟨hunfold, fun x hx => ⟨size x + 1, hdecided _ x hx (Nat.lt_succ_self _)⟩⟩

variable {ρ : Reach}

namespace Parse

variable {α : Type}

/-! ### The two recursions -/

/-- An operand, nested as deep as the tokens go. -/
def operand : Parse ρ Expr := fun c => unary (c.rest.length + 1) c

theorem forward_operand : Forward (operand (ρ := ρ)) :=
  fun c => forward_unary (c.rest.length + 1) c

theorem mirroring_operand {M : Mirror ρ} {n : Nat} : M.Mirroring n M.Exprs operand operand := by
  intro m _ c d hc hclean
  have hlength := hc.length
  have hfewer := hc.fewer
  have hunary := Mirror.mirroring_unary (M := M) (c.rest.length + 1) (c.rest.length + 1)
    (d.rest.length + 1) (Nat.le_refl _) (by omega) _ (Nat.le_refl _) c d hc.tight hclean
  exact ⟨hunary.value, hunary.diagnostics, hunary.places.mono (by omega)⟩

/-- The first of two runs over the same tokens may nest operands to any depth that suffices. -/
theorem mirroring_unary_operand {M : Mirror ρ} (n : Nat) :
    M.Mirroring n M.Exprs (unary n) operand := by
  intro m hm c d hc hclean
  have hlength := hc.length
  have hfewer := hc.fewer
  have hunary := Mirror.mirroring_unary (M := M) (c.rest.length + 1) n (d.rest.length + 1)
    (by omega) (by omega) _ (Nat.le_refl _) c d hc.tight hclean
  exact ⟨hunary.value, hunary.diagnostics, hunary.places.mono (by omega)⟩

theorem stopsShort_operand : StopsShort (operand (ρ := ρ)) operand :=
  stopsShort_of_mirrors (fun _ _ _ hc => mirroring_operand _ (Nat.le_refl _) _ _ hc)
    fun k _ _ h => h.same (Mirror.exact_holding k)

theorem ends_operand : Ends (Cursor.Ended (ρ := ρ)) unaryWith operand := by
  apply Ends.of_fuel (fun c => c.rest.length + 1) unary (fun _ => rfl) (fun _ => rfl)
  · intro c _ hsize
    exact absurd hsize (Nat.succ_ne_zero _)
  · intro c g hc hg
    -- whatever does what an operand does behind the next token is as good as one
    have hbody : ∀ q : Parse ρ Expr, (∀ d : Cursor ρ, d.Ended → d.rest.length < c.rest.length →
        q d = operand d) → unaryWith q c = (unaryWith operand c.short).holding c.behind := by
      intro q hq
      have hmirror : (Mirror.holding c.behind).Mirroring c.rest.length
          (Mirror.holding c.behind).Exprs operand q := mirroring_operand.congr hq
      exact (Mirror.mirroring_unaryWith hmirror forward_operand).eq_holding hc (Nat.lt_succ_self _)
        fun _ _ hef => hef.same (Mirror.exact_holding _)
    rw [hbody g fun d hd hlt => hg d hd (Nat.succ_lt_succ hlt)]
    exact (hbody operand fun _ _ _ => rfl).symm

/-- An expression is operands joined by operators. -/
theorem expression_eq {c : Cursor ρ} (hc : c.Ended) : expression c = climb operand tiers c := by
  -- both are what the climb over operands of a fixed depth is where the list ends
  have hboth : ∀ q : Parse ρ Expr,
      (Mirror.holding c.behind).Mirroring (c.rest.length + 1) (Mirror.holding c.behind).Exprs
        (unary (c.rest.length + 1)) q →
      climb q tiers c = (climb (unary (c.rest.length + 1)) tiers c.short).holding c.behind := by
    intro q hq
    exact (Mirror.mirroring_climb hq tiers (List.suffix_refl _)).eq_holding hc (Nat.lt_succ_self _)
      fun _ _ hef => hef.same (Mirror.exact_holding _)
  rw [hboth operand (mirroring_unary_operand _)]
  exact hboth _ (Mirror.mirroring_unary _ _ _ (Nat.le_refl _) (Nat.le_refl _))

theorem ends_statement : Ends (Cursor.Ended (ρ := ρ)) statementWith statement := by
  apply Ends.of_fuel (fun c => c.rest.length + 1) statementWithin (fun _ => rfl) (fun _ => rfl)
  · intro c _ hsize
    exact absurd hsize (Nat.succ_ne_zero _)
  · intro c g hc hg
    have hbody : ∀ q : Parse ρ (Option Stmt), (∀ d : Cursor ρ, d.Ended →
        d.rest.length < c.rest.length → q d = statement d) →
        statementWith q c = (statementWith statement c.short).holding c.behind := by
      intro q hq
      have hmirror : (Mirror.holding c.behind).Mirroring c.rest.length
          (Option.Rel (Mirror.holding c.behind).Same) statement q :=
        Mirror.mirroring_statement.congr hq
      exact (Mirror.mirroring_statementWith forward_statement hmirror).eq_holding hc
        (Nat.lt_succ_self _) (eq_of_rel (eq_of_same _))
    rw [hbody g fun d hd hlt => hg d hd (Nat.succ_lt_succ hlt)]
    exact (hbody statement fun _ _ _ => rfl).symm

/-! ### The loops -/

/-- One round of a loop that goes on while `more` holds. -/
def collectRound (more : Cursor ρ → Bool) (item : Parse ρ (Option α)) (again : Parse ρ (List α)) :
    Parse ρ (List α) := do
  if ← look more then
    let x ← item
    let xs ← again
    return x.toList ++ xs
  else return []

/-- One round of a loop that goes on until its item gives nothing. -/
def untilRound (item : Parse ρ (Option α)) (again : Parse ρ (List α)) : Parse ρ (List α) := do
  match ← item with
  | some x =>
    let xs ← again
    return x :: xs
  | none => return []

/-- One round of the loop over the operators of a tier, with the left operand read so far. -/
def chainRound (tier : Tier) (operand : Parse ρ Expr) (again : Expr × Cursor ρ → Step ρ Expr)
    (x : Expr × Cursor ρ) : Step ρ Expr :=
  (look (tierOp? tier) >>= fun found => match found with
    | none => Pure.pure x.1
    | some op => advance >>= fun mark => operand >>= fun right => fun c =>
      again (.binary (x.1.span.through right.span) tier.level op mark.span x.1 right, c)) x.2

theorem Forward.ended {p : Parse .short α} (hf : Forward p) {c : Cursor} (hc : c.Ended) :
    (p c).cursor.Ended := by
  show (p c).cursor.stop.kind = .eof
  rw [(hf c).stop]
  exact hc

/-- A step that stops short is mirrored as it is. -/
theorem StopsShort.mirrors {p : Parse .short α} {q : Parse ρ α} (h : q.StopsShort p)
    (hf : Forward p) {k : ρ.Held} {n : Nat} {c : Cursor} {d : Cursor ρ}
    (hc : (Mirror.holding k).Places n c d) : (Mirror.holding k).Mirrors n Eq p q c d := by
  intro _
  have hlength := hf.length_le c
  have hfewer := hc.fewer
  rw [Mirror.eq_of_places hc, h c hc.stop k]
  refine ⟨rfl, ?_, Mirror.places_holding k (hf.ended hc.stop) (by omega)⟩
  exact List.forall₂_same.2 fun _ _ => ⟨rfl, .inl rfl, fun _ => rfl, fun _ => rfl⟩

/-- A round goes on from where its item leaves off. -/
theorem collectRound_congr {more : Cursor ρ → Bool} {item : Parse ρ (Option α)}
    {f g : Parse ρ (List α)} {c : Cursor ρ}
    (h : more c = true → g (item c).cursor = f (item c).cursor) :
    collectRound more item g c = collectRound more item f c := by
  have hround : ∀ again : Parse ρ (List α), collectRound more item again c
      = (if more c then item >>= fun x => again >>= fun xs => Pure.pure (x.toList ++ xs)
        else Pure.pure []) c := fun _ => rfl
  rw [hround, hround]
  by_cases hgo : more c = true
  · rw [if_pos hgo, if_pos hgo, bind_apply, bind_apply, bind_apply, bind_apply, h hgo]
  · rw [if_neg hgo, if_neg hgo]

theorem collectRound_stop {more : Cursor ρ → Bool} {c : Cursor ρ} (h : more c = false)
    (item : Parse ρ (Option α)) (again : Parse ρ (List α)) :
    collectRound more item again c = ⟨[], [], c⟩ := by
  simp [collectRound, look, h]

theorem collectRound_more {more : Cursor ρ → Bool} {c : Cursor ρ} (h : more c = true)
    (item : Parse ρ (Option α)) (again : Parse ρ (List α)) :
    collectRound more item again c = ⟨(item c).value.toList ++ (again (item c).cursor).value,
      (item c).diagnostics ++ (again (item c).cursor).diagnostics, (again (item c).cursor).cursor⟩ := by
  simp [collectRound, look, h]

theorem ends_whileMore {more : Cursor ρ → Bool} (hmore : ∀ c, more c = true → c.rest ≠ [])
    {item : Parse ρ (Option α)} (hitem : ∀ c : Cursor ρ, c.Ended → c.rest ≠ [] →
      (item c).cursor.Ended ∧ (item c).cursor.rest.length < c.rest.length) :
    Ends Cursor.Ended (collectRound more item) (whileMore more item) := by
  apply Ends.of_fuel (fun c => c.rest.length) (collect more item) (fun _ => rfl) (fun _ => rfl)
  · intro c _ hsize
    have hstop : more c = false := by
      rw [← Bool.not_eq_true]
      exact fun hgo => hmore c hgo (List.eq_nil_of_length_eq_zero hsize)
    exact collectRound_stop hstop item _
  · intro c g hc hg
    apply collectRound_congr
    intro hgo
    obtain ⟨hended, hlt⟩ := hitem c hc (hmore c hgo)
    exact hg _ hended hlt

/-- Constructs with their recovery, in a loop that stops at the end of input. -/
theorem ends_recovering {more : Cursor → Bool} (hmore : ∀ c, more c = true → c.rest ≠ [])
    {skip : Nat → Cursor → Cursor} (hs : Cursor.Skips skip) {item : Parse .short (Option α)}
    (hf : Forward item) :
    Ends Cursor.Ended (collectRound more (recovering skip item))
      (whileMore more (recovering skip item)) :=
  ends_whileMore hmore fun c hc hleft =>
    ⟨(forward_recovering hs hf).ended hc, recovering_lt hs hf c hleft⟩

/-- The same over lists that go on behind the end of input. -/
theorem ends_recovering_holding {more : Cursor ρ → Bool} (hmore : ∀ c, more c = true → c.rest ≠ [])
    {skip : Nat → Cursor → Cursor} {skip' : Nat → Cursor ρ → Cursor ρ} (hs : Cursor.Skips skip)
    (hskip : ∀ k : ρ.Held, (Mirror.holding k).SkipsAlike skip skip')
    {item : Parse .short (Option α)} {item' : Parse ρ (Option α)} (hf : Forward item) (hitem : item'.StopsShort item) :
    Ends Cursor.Ended (collectRound more (recovering skip' item'))
      (whileMore more (recovering skip' item')) := by
  apply ends_whileMore hmore
  intro c hc hleft
  have hmirror := Mirror.mirrors_recovering (hskip c.behind) (c := c.short) (d := c)
    (Mirror.places_holding c.behind hc (Nat.lt_succ_self _)) hleft
    (hitem.mirrors hf (Mirror.places_holding c.behind hc (Nat.lt_succ_self _)))
  rw [Mirror.eq_of_reflects (hmirror (.inl rfl)) fun _ _ => Eq.symm]
  exact ⟨(forward_recovering hs hf).ended hc, recovering_lt hs hf c.short hleft⟩

theorem untilRound_congr {item : Parse ρ (Option α)} {f g : Parse ρ (List α)} {c : Cursor ρ}
    (h : (item c).value.isSome → g (item c).cursor = f (item c).cursor) :
    untilRound item g c = untilRound item f c := by
  have hround : ∀ again : Parse ρ (List α), untilRound item again c
      = (item >>= fun found => match found with
        | some x => again >>= fun xs => Pure.pure (x :: xs)
        | none => Pure.pure []) c := fun _ => rfl
  rw [hround, hround, bind_apply, bind_apply]
  cases hval : (item c).value with
  | none => rfl
  | some x =>
    rw [hval] at h
    simp only [bind_apply, h rfl]

theorem ends_untilNone {item : Parse .short (Option α)} {item' : Parse ρ (Option α)}
    (hf : Forward item) (hitem : item'.StopsShort item)
    (hpays : ∀ c : Cursor, c.Ended → Pays item c) :
    Ends Cursor.Ended (untilRound item') (untilNone item') := by
  apply Ends.of_fuel (fun c => c.rest.length + 1) (collectUntil item') (fun _ => rfl)
    (fun _ => rfl)
  · intro c _ hsize
    exact absurd hsize (Nat.succ_ne_zero _)
  · intro c g hc hg
    apply untilRound_congr
    rw [hitem.at hc]
    intro hsome
    exact hg _ (hf.ended hc) (Nat.succ_lt_succ (hpays c.short hc hsome))

theorem chainRound_none {tier : Tier} {x : Expr × Cursor ρ} (h : tierOp? tier x.2 = none)
    (operand : Parse ρ Expr) (again : Expr × Cursor ρ → Step ρ Expr) :
    chainRound tier operand again x = ⟨x.1, [], x.2⟩ := by
  simp [chainRound, look, h]

theorem chainRound_congr {tier : Tier} {operand : Parse ρ Expr}
    {f g : Expr × Cursor ρ → Step ρ Expr}
    {x : Expr × Cursor ρ} (h : (tierOp? tier x.2).isSome → ∀ left,
      g (left, (operand x.2.advance).cursor) = f (left, (operand x.2.advance).cursor)) :
    chainRound tier operand g x = chainRound tier operand f x := by
  cases hval : tierOp? tier x.2 with
  | none => rw [chainRound_none hval, chainRound_none hval]
  | some op =>
    rw [hval] at h
    have hround : ∀ again : Expr × Cursor ρ → Step ρ Expr, chainRound tier operand again x
        = (let right := operand x.2.advance
          let next := again (.binary (x.1.span.through right.value.span) tier.level op
            x.2.current.span x.1 right.value, right.cursor)
          ⟨next.value, right.diagnostics ++ next.diagnostics, next.cursor⟩) := by
      intro again
      simp only [chainRound, look, bind_apply, hval]
      rfl
    rw [hround, hround]
    simp only [h rfl]

/-- Before an operator a token is ahead. -/
theorem rest_of_tierOp? {tier : Tier} (htier : tier ∈ tiers) {c : Cursor ρ} (hc : c.Ended)
    (h : (tierOp? tier c).isSome) : c.rest ≠ [] := by
  obtain ⟨op, hop⟩ := Option.isSome_iff_exists.1 h
  intro hnil
  apply Mirror.kind_of_tierOp? htier hop
  rw [Cursor.kind, Cursor.current_nil hnil]
  exact hc

theorem ends_chain {tier : Tier} (htier : tier ∈ tiers) {operand : Parse .short Expr}
    {operand' : Parse ρ Expr} (hf : Forward operand) (hoperand : operand'.StopsShort operand) :
    Ends (fun x : Expr × Cursor ρ => x.2.Ended) (chainRound tier operand')
      fun x => chain tier operand' x.2.rest.length x.1 x.2 := by
  apply Ends.of_fuel (fun x : Expr × Cursor ρ => x.2.rest.length)
    (fun n (x : Expr × Cursor ρ) => chain tier operand' n x.1 x.2) (fun _ => rfl) (fun _ => rfl)
  · intro x hx hsize
    have hnone : tierOp? tier x.2 = none := by
      rw [← Option.not_isSome_iff_eq_none]
      exact fun hsome => rest_of_tierOp? htier hx hsome (List.eq_nil_of_length_eq_zero hsize)
    exact chainRound_none hnone operand' _
  · intro x g hx hg
    apply chainRound_congr
    intro hsome left
    obtain ⟨t, ts, hts⟩ := List.exists_cons_of_ne_nil (rest_of_tierOp? htier hx hsome)
    have hnext : x.2.advance.Ended := by
      rw [Cursor.advance_cons hts]
      exact hx
    have hless := hf.length_le x.2.advance.short
    rw [hoperand.at hnext, Step.cursor_holding]
    apply hg (left, (operand x.2.advance.short).cursor.holding x.2.advance.behind) (hf.ended hnext)
    show (operand x.2.advance.short).cursor.rest.length < x.2.rest.length
    have hshorter : x.2.advance.short.rest.length < x.2.rest.length := by
      rw [Cursor.advance_cons hts, hts]
      exact Nat.lt_succ_self _
    omega

/-! ### The operands and items of the loops -/

theorem mirroring_climb_operand {M : Mirror ρ} {n : Nat} {ts : List Tier} (h : ts <:+ tiers) :
    M.Mirroring n M.Exprs (climb operand ts) (climb operand ts) :=
  Mirror.mirroring_climb mirroring_operand ts h

theorem stopsShort_climb {ts : List Tier} (h : ts <:+ tiers) :
    StopsShort (climb (operand (ρ := ρ)) ts) (climb operand ts) :=
  stopsShort_of_mirrors (fun _ _ _ hc => mirroring_climb_operand h _ (Nat.le_refl _) _ _ hc)
    fun k _ _ h => h.same (Mirror.exact_holding k)

theorem stopsShort_argument :
    StopsShort (argument (climb (operand (ρ := ρ)) tiers)) (argument (climb operand tiers)) :=
  stopsShort_of_mirrors (fun _ _ _ hc => Mirror.mirroring_argument
      (mirroring_climb_operand (List.suffix_refl _)) _ (Nat.le_refl _) _ _ hc)
    fun k => eq_of_rel fun _ _ h => h.same (Mirror.exact_holding k)

theorem stopsShort_selector :
    StopsShort (selector (climb (operand (ρ := ρ)) tiers)) (selector (climb operand tiers)) :=
  stopsShort_of_mirrors (fun _ _ _ hc => Mirror.mirroring_selector
      (mirroring_climb_operand (List.suffix_refl _)) (forward_climb forward_operand tiers) _
      (Nat.le_refl _) _ _ hc)
    fun k => eq_of_rel fun _ _ h => h.same (Mirror.exact_holding k)

theorem stopsShort_some {p : Parse .short α} {q : Parse ρ α} (h : q.StopsShort p) :
    StopsShort (some <$> q) (some <$> p) := by
  intro c hc k
  rw [map_apply, map_apply, h c hc k]
  rfl

/-! ### All of them -/

/-- Every recursion and every loop of the parser ends, from every place before an end of input. -/
structure Terminates (ρ : Reach) : Prop where
  /-- Operands in one another, and in the expressions that are in them. -/
  operands : Ends (Cursor.Ended (ρ := ρ)) unaryWith operand
  /-- An expression is operands joined by the operators of the tiers. -/
  expressions : ∀ c : Cursor ρ, c.Ended → expression c = climb operand tiers c
  /-- The operators of a tier, between operands of the tighter tiers. -/
  operators : ∀ tier tighter, tier :: tighter <:+ tiers →
    Ends (fun x : Expr × Cursor ρ => x.2.Ended) (chainRound tier (climb operand tighter))
      fun x => chain tier (climb operand tighter) x.2.rest.length x.1 x.2
  /-- Arguments after the first. -/
  arguments : Ends (Cursor.Ended (ρ := ρ)) (untilRound (argument (climb operand tiers)))
    (untilNone (argument (climb operand tiers)))
  /-- Fields and calls behind a name. -/
  selectors : Ends (Cursor.Ended (ρ := ρ)) (untilRound (selector (climb operand tiers)))
    (untilNone (selector (climb operand tiers)))
  /-- Blocks in one another. -/
  blocks : Ends (Cursor.Ended (ρ := ρ)) statementWith statement
  /-- The statements of a block. -/
  blockStatements : Ends (Cursor.Ended (ρ := ρ))
    (collectRound inBlock (recovering Cursor.endStatement statement))
    (whileMore inBlock (recovering Cursor.endStatement statement))
  /-- The statements of a list without a class. -/
  bareStatements : Ends (Cursor.Ended (ρ := ρ))
    (collectRound (fun c => !c.atEnd) (recovering Cursor.endStatement statement))
    (whileMore (fun c => !c.atEnd) (recovering Cursor.endStatement statement))
  /-- The modifiers of a field. -/
  modifiers : Ends (Cursor.Ended (ρ := ρ)) (untilRound modifier) (untilNone modifier)
  /-- The members of a class. -/
  members : Ends (Cursor.Ended (ρ := ρ))
    (collectRound inBlock (recovering Cursor.endMember (some <$> member)))
    (whileMore inBlock (recovering Cursor.endMember (some <$> member)))
  /-- The classes of a program. -/
  classDecls : Ends (Cursor.Ended (ρ := ρ))
    (collectRound (fun c => !c.atEnd) (recovering Cursor.endClass classOrSkip)) classes

theorem rest_of_goesOn (c : Cursor ρ) (h : (!c.atEnd) = true) : c.rest ≠ [] := by
  rintro hnil
  simp [Cursor.atEnd, hnil] at h

theorem rest_of_inBlock (c : Cursor ρ) (h : inBlock c = true) : c.rest ≠ [] := by
  rintro hnil
  simp [inBlock, Cursor.atEnd, hnil] at h

theorem terminates (ρ : Reach) : Terminates ρ where
  operands := ends_operand
  expressions _ hc := expression_eq hc
  operators _ tighter h := ends_chain (h.subset List.mem_cons_self)
    (forward_climb forward_operand tighter)
    (stopsShort_climb ((List.suffix_cons _ _).trans h))
  arguments := ends_untilNone (forward_argument (forward_climb forward_operand tiers))
    stopsShort_argument (Mirror.pays_further_argument (forward_climb forward_operand tiers))
  selectors := ends_untilNone (forward_selector (forward_climb forward_operand tiers))
    stopsShort_selector (Mirror.pays_further_selector (forward_climb forward_operand tiers))
  blocks := ends_statement
  blockStatements := ends_recovering_holding rest_of_inBlock Cursor.endStatement_skips
    (fun _ => Mirror.skipsAlike_endStatement) forward_statement stopsShort_statement
  bareStatements := ends_recovering_holding rest_of_goesOn Cursor.endStatement_skips
    (fun _ => Mirror.skipsAlike_endStatement) forward_statement stopsShort_statement
  modifiers := ends_untilNone forward_modifier stopsShort_modifier Mirror.pays_modifier
  members := ends_recovering_holding rest_of_inBlock Cursor.endMember_skips
    (fun _ => Mirror.skipsAlike_endMember) (forward_map _ forward_member)
    (stopsShort_some stopsShort_member)
  classDecls := ends_recovering_holding rest_of_goesOn Cursor.endClass_skips
    (fun _ => Mirror.skipsAlike_endClass) forward_classOrSkip stopsShort_classOrSkip

end Parse

end JavaPrimer
