import JavaPrimer.Proofs.CleanRun
import JavaPrimer.Proofs.Identifiers
import JavaPrimer.Proofs.InStepStmt
import JavaPrimer.Proofs.WholeLists

/-!
# Identifiers are read one by one

The parser takes every identifier of a tree from a token of its own, in the order of the tokens. It
makes up an identifier only where one is missing, and that is an error. The error goes unreported
during a panic and behind a literal that was cut off; but a declaration starts in calm, and its name
is wanted behind a type, which is no literal. So in a tree without syntax errors no identifier that
is looked at is made up, even if some literals were cut off.

* `Token.ident?`, `identifiers` — the identifiers among some tokens;
* `Cursor.Leaves` — of the identifiers ahead of a run some have been read, in order;
* `Parse.Silent` — what holds after a run that reports nothing;
* `Parse.Gathers`, `Parse.Opens` — a step that reads the identifiers of its value, from anywhere or
  in calm;
* `Cursor.Reports` — where an error would be reported, as it would be behind a type;
* `Parse.gathers_expression`, `Parse.opens_statement`, `Parse.opens_member` — constructs;
* `idents_sublist_of_parse` — whole lists of tokens.
-/

namespace JavaPrimer

/-! ### Identifiers among tokens -/

/-- The identifier that a token spells, if it is one. -/
def Token.ident? (t : Token) : Option Ident :=
  if t.kind = .ident then some ⟨t.value, t.span⟩ else none

/-- The identifiers among some tokens. -/
def identifiers (ts : List Token) : List Ident := ts.filterMap Token.ident?

namespace Cursor

/-- The tokens end in an end of input, and only literals among them are cut off. -/
structure Proper (c : Cursor) : Prop where
  ended : c.stop.kind = .eof
  cut : ∀ t ∈ c.last.toList ++ c.rest,
    t.unterminated = true → (LiteralSort.ofKind? t.kind).isSome = true

/-- Of the identifiers in `base` those in `xs` have been read, and those ahead of the cursor are
still to be read. -/
structure Leaves (c : Cursor) (base xs : List Ident) : Prop where
  proper : c.Proper
  sublist : (xs ++ identifiers c.rest).Sublist base

variable {c d : Cursor} {base xs ys : List Ident}

theorem Proper.onward (h : c.Proper) (hd : c.Onward d) : d.Proper := by
  obtain ⟨ts, hts⟩ := hd.consumed
  refine ⟨hd.stop ▸ h.ended, fun t ht => h.cut t ?_⟩
  rw [hts.rest, List.mem_append, List.mem_append]
  rcases List.mem_append.1 ht with ht | ht
  · rw [Option.mem_toList, hts.last, Option.or_eq_some_iff] at ht
    rcases ht with ht | ⟨-, ht⟩
    · exact .inr (.inl (List.mem_of_getLast? ht))
    · exact .inl (Option.mem_toList.2 ht)
  · exact .inr (.inr ht)

theorem Proper.advance (h : c.Proper) : c.advance.Proper := h.onward (onward_advance c)

namespace Leaves

/-- Identifiers may be passed over. -/
theorem onward (h : c.Leaves base xs) (hd : c.Onward d) : d.Leaves base xs := by
  refine ⟨h.proper.onward hd, List.Sublist.trans ?_ h.sublist⟩
  obtain ⟨ts, hts⟩ := hd.consumed
  rw [hts.rest, identifiers, identifiers, List.filterMap_append]
  exact (List.Sublist.refl xs).append (List.sublist_append_right _ _)

theorem advance (h : c.Leaves base xs) : c.advance.Leaves base xs := h.onward (onward_advance c)

/-- Identifiers that were read may be forgotten. -/
theorem mono (h : c.Leaves base ys) (hs : xs.Sublist ys) : c.Leaves base xs :=
  ⟨h.proper, (hs.append (List.Sublist.refl _)).trans h.sublist⟩

theorem drop (h : c.Leaves base (xs ++ ys)) : c.Leaves base xs :=
  h.mono (List.sublist_append_left xs ys)

theorem none (h : c.Leaves base xs) : c.Leaves base (xs ++ []) := by rwa [List.append_nil]

/-- The identifier that comes next is read. -/
theorem read (h : c.Leaves base xs) (hk : c.kind = .ident) :
    c.advance.Leaves base (xs ++ [⟨c.current.value, c.current.span⟩]) := by
  obtain ⟨ts, hts⟩ := rest_eq_of_kind h.proper.ended (by rw [hk]; decide)
  have hnext : c.current.ident? = some ⟨c.current.value, c.current.span⟩ := if_pos hk
  have hahead : identifiers c.rest
      = [⟨c.current.value, c.current.span⟩] ++ identifiers c.advance.rest := by
    rw [rest_advance, hts, identifiers, List.filterMap_cons_some hnext]
    rfl
  refine ⟨h.proper.advance, ?_⟩
  rw [List.append_assoc, ← hahead]
  exact h.sublist

end Leaves

end Cursor

namespace Parse

variable {α β : Type} {c : Cursor} {base xs : List Ident}

/-! ### Rules for steps -/

/-- If a run of `p` from `c` reports nothing, `Q` holds of its value and its end. -/
def Silent (p : Parse .short α) (c : Cursor) (Q : α → Cursor → Prop) : Prop :=
  (p c).diagnostics = [] → Q (p c).value (p c).cursor

theorem Silent.imp {p : Parse .short α} {Q R : α → Cursor → Prop} (h : p.Silent c R)
    (hQ : ∀ a d, R a d → Q a d) : p.Silent c Q :=
  fun hd => hQ _ _ (h hd)

theorem silent_pure {a : α} {Q : α → Cursor → Prop} (h : Q a c) :
    (Pure.pure a : Parse .short α).Silent c Q :=
  fun _ => h

theorem Silent.bind {p : Parse .short α} {f : α → Parse .short β} {R : α → Cursor → Prop}
    {Q : β → Cursor → Prop} (hp : p.Silent c R) (hf : ∀ a d, R a d → (f a).Silent d Q) :
    (p >>= f).Silent c Q := by
  intro hd
  rw [bind_apply] at hd ⊢
  obtain ⟨hfirst, hsecond⟩ := List.append_eq_nil_iff.1 hd
  exact hf _ _ (hp hfirst) hsecond

theorem Silent.map {p : Parse .short α} {f : α → β} {Q : β → Cursor → Prop}
    (h : p.Silent c fun a d => Q (f a) d) : (f <$> p).Silent c Q := by
  intro hd
  rw [map_apply] at hd ⊢
  exact h hd

theorem silent_look_bind {g : Cursor → α} {f : α → Parse .short β} {Q : β → Cursor → Prop}
    (h : (f (g c)).Silent c Q) : (look g >>= f).Silent c Q := h

theorem silent_panicking_bind {f : Bool → Parse .short β} {Q : β → Cursor → Prop}
    (h : ∀ b, (f b).Silent c Q) : (panicking >>= f).Silent c Q := h c.panicking

theorem silent_advance_bind {f : Token → Parse .short β} {Q : β → Cursor → Prop}
    (h : (f c.current).Silent c.advance Q) : (advance >>= f).Silent c Q := h

theorem silent_spanned {node : Parse .short (Span → α)} {Q : α → Cursor → Prop}
    (h : node.Silent c fun build d => ∀ s, Q (build s) d) : (spanned node).Silent c Q :=
  silent_look_bind (h.bind fun _ _ hbuild => silent_look_bind (silent_pure (hbuild _)))

/-- A step of which only the place matters. -/
theorem silent_forward {p : Parse .short α} (hp : Forward p) (h : c.Leaves base xs) :
    p.Silent c fun _ d => d.Leaves base xs :=
  fun _ => h.onward (hp c)

theorem silent_forward_bind {p : Parse .short α} {f : α → Parse .short β} {Q : β → Cursor → Prop}
    (hp : Forward p) (h : c.Leaves base xs) (hf : ∀ a d, d.Leaves base xs → (f a).Silent d Q) :
    (p >>= f).Silent c Q :=
  (silent_forward hp h).bind hf

/-- A step after which the identifiers of its value have been read. -/
def Gathers (p : Parse .short α) (names : α → List Ident) : Prop :=
  ∀ {c : Cursor} {base xs : List Ident}, c.Leaves base xs →
    p.Silent c fun a d => d.Leaves base (xs ++ names a)

/-- The same from places where there is no panic. -/
def Opens (p : Parse .short α) (names : α → List Ident) : Prop :=
  ∀ {c : Cursor} {base xs : List Ident}, c.Leaves base xs → c.panicking = false →
    p.Silent c fun a d => d.Leaves base (xs ++ names a)

theorem Gathers.opens {p : Parse .short α} {names : α → List Ident} (h : Gathers p names) :
    Opens p names :=
  fun hc _ => h hc

/-- The identifiers of what may be there. -/
def ifAny (names : α → List Ident) : Option α → List Ident
  | none => []
  | some a => names a

theorem Gathers.some {p : Parse .short α} {names : α → List Ident} (h : Gathers p names) :
    Gathers (some <$> p) (ifAny names) :=
  fun hc => Silent.map (h hc)

theorem Opens.some {p : Parse .short α} {names : α → List Ident} (h : Opens p names) :
    Opens (some <$> p) (ifAny names) :=
  fun hc hp => Silent.map (h hc hp)

/-! ### Repetition -/

theorem gathers_untilNone {item : Parse .short (Option α)} {names : α → List Ident}
    (h : Gathers item (ifAny names)) :
    Gathers (untilNone item) (List.flatMap names) := by
  have hcollect : ∀ n, Gathers (collectUntil item n) (List.flatMap names) := by
    intro n
    induction n with
    | zero => exact fun hc => silent_pure hc.none
    | succ n ih =>
      intro c base xs hc
      refine (h hc).bind fun x d hd => ?_
      cases x with
      | none => exact silent_pure hd
      | some a =>
        refine (ih hd).bind fun as e he => silent_pure ?_
        rwa [List.flatMap_cons, ← List.append_assoc]
  exact fun {c} _ _ hc => hcollect (c.rest.length + 1) hc

theorem opens_whileMore {more : Cursor → Bool} {skip : Nat → Cursor → Cursor}
    {item : Parse .short (Option α)} {names : α → List Ident} (hskip : Cursor.Skips skip)
    (h : Opens item (ifAny names)) :
    Opens (whileMore more (recovering skip item)) (List.flatMap names) := by
  have hitem : ∀ {c : Cursor} {base xs : List Ident}, c.Leaves base xs → c.panicking = false →
      (recovering skip item).Silent c fun x d =>
        d.Leaves base (xs ++ ifAny names x) ∧ d.panicking = false := by
    intro c base xs hc hp hd
    have hitem := h hc hp
    rw [recovering_apply] at hd
    have hend : (recovering skip item c).cursor.panicking = false :=
      panicking_recovering skip item c
    rw [recovering_apply] at hend ⊢
    refine ⟨?_, hend⟩
    exact ((hitem hd).onward (forward_settle hskip _ _)).onward (forward_nudge _ _)
  have hcollect : ∀ n, Opens (collect more (recovering skip item) n) (List.flatMap names) := by
    intro n
    induction n with
    | zero => exact fun hc _ => silent_pure hc.none
    | succ n ih =>
      intro c base xs hc hp
      apply silent_look_bind
      split
      · refine (hitem hc hp).bind fun x d hd => (ih hd.1 hd.2).bind fun as e he => silent_pure ?_
        rw [List.flatMap_append, ← List.append_assoc]
        cases x with
        | none => exact he
        | some a => rwa [Option.toList_some, List.flatMap_singleton]
      · exact silent_pure hc.none
  exact fun {c} _ _ hc hp => hcollect c.rest.length hc hp

/-! ### Expressions -/

theorem gathers_expressionExpected : Gathers expressionExpected Expr.idents :=
  fun hc => silent_look_bind (silent_forward_bind (forward_fail _) hc fun _ _ hd =>
    silent_pure hd.none)

theorem silent_chain (tier : Tier) {operand : Parse .short Expr} (h : Gathers operand Expr.idents)
    (n : Nat) : ∀ {left : Expr} {c : Cursor}, c.Leaves base (xs ++ left.idents) →
      (chain tier operand n left).Silent c fun e d => d.Leaves base (xs ++ e.idents) := by
  induction n with
  | zero => exact fun hc => silent_pure hc
  | succ n ih =>
    intro left c hc
    apply silent_look_bind
    split
    · exact silent_pure hc
    · refine silent_forward_bind forward_advance hc fun mark d hd => ?_
      refine (h hd).bind fun right e he => ?_
      apply ih
      rwa [Expr.idents, ← List.append_assoc]

theorem gathers_climb {operand : Parse .short Expr} (h : Gathers operand Expr.idents)
    (ts : List Tier) :
    Gathers (climb operand ts) Expr.idents := by
  induction ts with
  | nil => exact h
  | cons tier tighter ih =>
    exact fun hc => (ih hc).bind fun left d hd => silent_look_bind (silent_chain tier ih _ hd)

section Operands

variable {expr : Parse .short Expr} (h : Gathers expr Expr.idents)

include h

theorem gathers_argument : Gathers (argument expr) (ifAny Expr.idents) := by
  intro c base xs hc
  apply silent_look_bind
  split
  · exact silent_forward_bind forward_advance hc fun _ d hd => h.some hd
  · exact silent_pure hc.none

theorem gathers_arguments : Gathers (arguments expr) exprsIdents := by
  intro c base xs hc
  apply silent_look_bind
  split
  · refine (h hc).bind fun first d hd => ?_
    refine (gathers_untilNone (gathers_argument h) hd).bind fun more e he => silent_pure ?_
    rwa [exprsIdents, exprsIdents_eq, ← List.append_assoc]
  · exact silent_pure hc.none

omit h in
theorem gathers_fieldSelector :
    Gathers fieldSelector (ifAny Selector.idents) := by
  intro c base xs hc
  refine silent_forward_bind forward_advance hc fun dot d hd => ?_
  refine silent_forward_bind forward_expectIdent hd fun x e he => silent_pure ?_
  split
  · exact he.none
  · exact he.none

theorem gathers_callSelector :
    Gathers (callSelector expr) (ifAny Selector.idents) := by
  intro c base xs hc
  refine silent_forward_bind forward_advance hc fun mark d hd => ?_
  refine (gathers_arguments h hd).bind fun args e he => silent_panicking_bind fun b => ?_
  cases b
  · refine silent_forward_bind (forward_expect _) he fun closed f hf => ?_
    cases closed
    · exact silent_pure hf.drop.none
    · exact silent_look_bind (silent_pure hf)
  · exact silent_pure he.drop.none

theorem gathers_selector :
    Gathers (selector expr) (ifAny Selector.idents) := by
  intro c base xs hc
  apply silent_panicking_bind
  intro b
  cases b
  · apply silent_look_bind
    split
    · exact gathers_fieldSelector hc
    · exact gathers_callSelector h hc
    · exact silent_pure hc.none
  · exact silent_pure hc.none

theorem silent_nameExpr (hc : c.Leaves base xs) (hk : c.kind = .ident) :
    (nameExpr expr).Silent c fun e d => d.Leaves base (xs ++ e.idents) := by
  apply silent_spanned
  apply silent_advance_bind
  refine (gathers_untilNone (gathers_selector h) (hc.read hk)).bind fun selectors d hd => ?_
  refine silent_pure fun s => ?_
  rwa [Expr.idents, selectorsIdents_eq, List.append_cons]

theorem gathers_newExpr : Gathers (newExpr expr) Expr.idents := by
  intro c base xs hc
  apply silent_spanned
  refine silent_forward_bind forward_advance hc fun _ d hd => ?_
  refine silent_forward_bind forward_expectIdent hd fun x e he => ?_
  obtain ⟨className, there⟩ := x
  cases there
  · exact silent_pure fun _ => he.none
  · refine silent_forward_bind (forward_expect _) he fun opened f hf => ?_
    cases opened
    · exact silent_pure fun _ => hf.none
    · refine (gathers_arguments h hf).bind fun args g hg => silent_panicking_bind fun b => ?_
      cases b
      · exact silent_forward_bind (forward_expect _) hg fun _ _ hi => silent_pure fun _ => hi
      · exact silent_pure fun _ => hg

theorem gathers_parenExpr : Gathers (parenExpr expr) Expr.idents := by
  intro c base xs hc
  apply silent_spanned
  refine silent_forward_bind forward_advance hc fun _ d hd => ?_
  refine (h hd).bind fun inner e he => silent_panicking_bind fun b => ?_
  cases b
  · exact silent_forward_bind (forward_expect _) he fun _ _ hf => silent_pure fun _ => hf
  · exact silent_pure fun _ => he

theorem gathers_primary : Gathers (primary expr) Expr.idents := by
  intro c base xs hc
  apply silent_look_bind
  split
  · exact silent_forward_bind forward_advance hc fun _ _ hd => silent_pure hd.none
  · split
    · next hk => exact silent_nameExpr h hc hk
    · exact gathers_parenExpr h hc
    · exact gathers_newExpr h hc
    · exact gathers_expressionExpected hc

theorem gathers_stepped : Gathers (stepped expr) Expr.idents := by
  intro c base xs hc
  refine (gathers_primary h hc).bind fun operand d hd => silent_look_bind ?_
  split
  · exact silent_forward_bind forward_advance hd fun _ _ he => silent_pure he
  · exact silent_pure hd

theorem gathers_castExpr : Gathers (castExpr expr) Expr.idents := by
  intro c base xs hc
  refine silent_forward_bind forward_advance hc fun mark d hd => ?_
  refine silent_forward_bind forward_advance hd fun word e he => ?_
  refine silent_forward_bind (forward_expect _) he fun closed f hf => ?_
  cases closed
  · exact silent_look_bind (silent_look_bind (silent_pure hf.none))
  · exact (h hf).bind fun _ _ hg => silent_pure hg

theorem gathers_unaryWith : Gathers (unaryWith expr) Expr.idents := by
  intro c base xs hc
  apply silent_look_bind
  split
  · exact silent_forward_bind forward_advance hc fun mark d hd =>
      (h hd).bind fun _ _ he => silent_pure he
  · apply silent_look_bind
    split
    · exact gathers_castExpr h hc
    · exact gathers_stepped (gathers_climb h tiers) hc

end Operands

theorem gathers_unary (n : Nat) : Gathers (unary n) Expr.idents := by
  induction n with
  | zero => exact gathers_expressionExpected
  | succ n ih => exact gathers_unaryWith ih

theorem gathers_expression : Gathers expression Expr.idents := by
  intro c base xs hc
  have hclimb := gathers_climb (gathers_unary (c.rest.length + 1)) tiers hc
  exact fun hd => hclimb hd

/-! ### Wanted tokens -/

theorem silent_expect (hc : c.Leaves base xs) (k : Kind) : (expect k).Silent c fun b d =>
    d.Leaves base xs ∧ (b = true → d.panicking = c.panicking) := by
  apply silent_look_bind
  split
  · refine silent_advance_bind (silent_pure ⟨?_, fun _ => Cursor.panicking_advance c⟩)
    exact hc.advance
  · exact silent_forward_bind (forward_fail _) hc fun _ d hd =>
      silent_pure ⟨hd, fun h => nomatch h⟩

theorem silent_expectAll (ks : List Kind) {c : Cursor} (hc : c.Leaves base xs) :
    (expectAll ks).Silent c fun b d =>
      d.Leaves base xs ∧ (b = true → d.panicking = c.panicking) := by
  induction ks generalizing c with
  | nil => exact silent_pure ⟨hc, fun _ => rfl⟩
  | cons k ks ih =>
    refine (silent_expect hc k).bind fun b d hd => ?_
    cases b
    · exact silent_pure ⟨hd.1, fun h => nomatch h⟩
    · exact (ih hd.1).imp fun b e he => ⟨he.1, fun hb => (he.2 hb).trans (hd.2 rfl)⟩

/-- The identifier that is wanted, or an empty name. -/
theorem silent_expectIdent (hc : c.Leaves base xs) : expectIdent.Silent c fun x d =>
    x.2 = true ∧ d.Leaves base (xs ++ [x.1]) ∧ d.panicking = c.panicking
      ∨ x.2 = false ∧ x.1.name = [] ∧ d.Leaves base xs := by
  apply silent_look_bind
  have hexpect : (expect .ident).Silent c fun b d =>
      b = true ∧ d.Leaves base (xs ++ [⟨c.current.value, c.current.span⟩])
          ∧ d.panicking = c.panicking
        ∨ b = false ∧ d.Leaves base xs := by
    apply silent_look_bind
    split
    · next hk =>
      exact silent_advance_bind
        (silent_pure (.inl ⟨rfl, hc.read hk, Cursor.panicking_advance c⟩))
    · exact silent_forward_bind (forward_fail _) hc fun _ d hd => silent_pure (.inr ⟨rfl, hd⟩)
  refine hexpect.bind fun b d hd => silent_pure ?_
  rcases hd with ⟨rfl, hd, hp⟩ | ⟨rfl, hd⟩
  · exact .inl ⟨rfl, hd, hp⟩
  · exact .inr ⟨rfl, rfl, hd⟩

end Parse

/-! ### Declarations -/

namespace Cursor

/-- An error would be reported here. -/
structure Reports (c : Cursor) : Prop where
  quiet : c.panicking = false
  last : ∀ t ∈ c.last, t.unterminated = false

/-- An error would be reported behind a token that is no literal. -/
theorem Proper.reports_advance {c : Cursor} (h : c.Proper) (hp : c.panicking = false)
    (hend : c.kind ≠ .eof) (hliteral : LiteralSort.ofKind? c.kind = none) : c.advance.Reports := by
  obtain ⟨ts, hts⟩ := rest_eq_of_kind h.ended hend
  refine ⟨(panicking_advance c).trans hp, fun t ht => ?_⟩
  rw [advance_cons hts] at ht
  obtain rfl : c.current = t := Option.some.inj ht
  refine Bool.eq_false_iff.2 fun hcut => ?_
  have hsome := h.cut c.current (by simp [hts]) hcut
  rw [show LiteralSort.ofKind? c.current.kind = none from hliteral] at hsome
  cases hsome

end Cursor

namespace Parse

variable {α : Type} {c : Cursor} {base xs : List Ident}

theorem silent_fail (h : c.Reports) (x : Complaint) {Q : Unit → Cursor → Prop} :
    (fail x).Silent c Q := by
  intro hd
  have hlast : c.last.any (·.unterminated) = false := by
    cases ht : c.last with
    | none => rfl
    | some t => exact h.last t ht
  simp [fail, h.quiet, hlast] at hd

theorem silent_expect_of_reports (h : c.Reports) (k : Kind) :
    (expect k).Silent c fun b d => b = true ∧ c.kind = k ∧ d = c.advance := by
  apply silent_look_bind
  split
  · next hk => exact silent_advance_bind (silent_pure ⟨rfl, hk, rfl⟩)
  · exact (silent_fail h _).bind (R := fun _ _ => False) fun _ _ hfalse => hfalse.elim

theorem silent_expectIdent_of_reports (h : c.Reports) :
    expectIdent.Silent c fun x _ => x.2 = true :=
  silent_look_bind ((silent_expect_of_reports h .ident).bind fun _ _ hd => silent_pure hd.1)

theorem Silent.and {p : Parse .short α} {Q R : α → Cursor → Prop} (hq : p.Silent c Q)
    (hr : p.Silent c R) : p.Silent c fun a d => Q a d ∧ R a d :=
  fun hd => ⟨hq hd, hr hd⟩

theorem ne_eof_of_isTypeWord {k : Kind} (h : k.isTypeWord = true) : k ≠ .eof := by
  rintro rfl
  cases h

theorem not_literal_of_isTypeWord {k : Kind} (h : k.isTypeWord = true) :
    LiteralSort.ofKind? k = none := by
  unfold LiteralSort.ofKind?
  split <;> first | rfl | cases h

/-- Behind a type an error would be reported. -/
theorem reports_typeSpec (hc : c.Proper) (hp : c.panicking = false) :
    typeSpec.Silent c fun type d => type.isSome = true → d.Reports := by
  apply silent_look_bind
  split
  · next hword =>
    have hnext : c.advance.Reports :=
      hc.reports_advance hp (ne_eof_of_isTypeWord hword) (not_literal_of_isTypeWord hword)
    apply silent_spanned
    apply silent_advance_bind
    apply silent_look_bind
    split
    · next hopen =>
      have hkind : c.advance.kind = .lbracket := by simpa using hopen
      have hproper : c.advance.Proper := hc.advance
      have hopened : c.advance.advance.Reports :=
        hproper.reports_advance hnext.quiet (by rw [hkind]; decide) (by rw [hkind]; rfl)
      refine silent_advance_bind ((silent_expect_of_reports hopened .rbracket).bind ?_)
      rintro closed d ⟨-, hclose, rfl⟩
      exact silent_pure fun _ _ =>
        hproper.advance.reports_advance hopened.quiet (by rw [hclose]; decide) (by rw [hclose]; rfl)
    · exact silent_pure fun _ _ => hnext
  · have hfail : (fail (.type c.current)).Silent c fun _ _ => True := fun _ => trivial
    exact hfail.bind fun _ _ _ => silent_pure fun h => nomatch h

theorem gathers_assigned : Gathers assigned Expr.idents := by
  intro c base xs hc
  refine (gathers_expression hc).bind fun value d hd => silent_panicking_bind fun b => ?_
  cases b
  · exact silent_forward_bind (forward_expect _) hd fun _ _ he => silent_pure he
  · exact silent_pure hd

theorem gathers_initialized : Gathers initialized Expr.idents := by
  intro c base xs hc
  apply silent_look_bind
  split
  · exact silent_forward_bind forward_advance hc fun _ _ hd => gathers_assigned hd
  · exact silent_forward_bind (forward_expect _) hc fun _ _ hd => silent_pure hd.none

/-- A type, a name and an initializer, as far as they go; `build` makes a node of them. -/
theorem silent_declared {names : α → List Ident}
    (build : Option TypeSpec → Ident → Expr → Span → α)
    (hbuild : ∀ type name init s, names (build type name init s) = declarationIdents type name init)
    (hc : c.Leaves base xs) (hp : c.panicking = false) :
    Silent (do
      match ← typeSpec with
      | none => return build none .absent .missing
      | some type =>
        let (name, there) ← expectIdent
        if there then
          let init ← initialized
          return build (some type) name init
        else return build (some type) name .missing) c
      fun node d => ∀ s, d.Leaves base (xs ++ names (node s)) := by
  refine ((silent_forward forward_typeSpec hc).and (reports_typeSpec hc.proper hp)).bind ?_
  rintro type d ⟨hd, hreports⟩
  cases type with
  | none =>
    refine silent_pure fun s => ?_
    rw [hbuild]
    exact hd.none
  | some type =>
    refine ((silent_expectIdent hd).and (silent_expectIdent_of_reports (hreports rfl))).bind ?_
    rintro ⟨name, there⟩ e ⟨hname, rfl⟩
    obtain ⟨-, he, -⟩ | ⟨hmissing, -⟩ := hname
    · refine (gathers_initialized he).bind fun init f hf => silent_pure fun s => ?_
      rw [hbuild, declarationIdents, List.append_cons]
      exact hf
    · cases hmissing

/-! ### Statements -/

theorem opens_varDecl : Opens varDecl Stmt.idents := by
  intro c base xs hc hp
  have hfinal : finalMark.Silent c fun _ d => d.Leaves base xs ∧ d.panicking = false := by
    apply silent_look_bind
    split
    · refine silent_advance_bind (silent_pure ⟨hc.advance, ?_⟩)
      exact (Cursor.panicking_advance c).trans hp
    · exact silent_pure ⟨hc, hp⟩
  apply silent_spanned
  refine hfinal.bind fun isFinal d hd => ?_
  exact silent_declared (fun type name init s => Stmt.varDecl s isFinal type name init)
    (fun _ _ _ _ => by rw [Stmt.idents]) hd.1 hd.2

theorem gathers_printArgument : Gathers printArgument Expr.idents := by
  intro c base xs hc
  apply silent_look_bind
  split
  · exact gathers_expression hc
  · exact silent_pure hc.none

theorem gathers_printStmt : Gathers printStmt Stmt.idents := by
  intro c base xs hc
  apply silent_spanned
  refine silent_forward_bind forward_advance hc fun _ d hd => ?_
  refine silent_forward_bind forward_advance hd fun _ e he => ?_
  refine silent_forward_bind forward_advance he fun _ f hf => ?_
  refine silent_forward_bind forward_advance hf fun _ g hg => ?_
  refine silent_forward_bind (forward_expectWord _) hg fun x i hi => ?_
  obtain ⟨method, there⟩ := x
  cases there
  · exact silent_pure fun _ => hi.none
  · refine silent_forward_bind (forward_expect _) hi fun opened j hj => ?_
    cases opened
    · exact silent_pure fun _ => hj.none
    · refine (gathers_printArgument hj).bind fun arg k hk => silent_panicking_bind fun b => ?_
      cases b
      · refine silent_forward_bind (forward_expect _) hk fun closed l hl => ?_
        cases closed
        · exact silent_pure fun _ => hl
        · exact silent_forward_bind (forward_expect _) hl fun _ _ hm => silent_pure fun _ => hm
      · exact silent_pure fun _ => hk

theorem idents_assignment (s : Span) (target : Expr) (op : AssignOp) (t : Span) (value : Expr) :
    (Stmt.expr s target op t value).idents.Sublist (target.idents ++ value.idents) := by
  rw [Stmt.idents]
  split
  · exact List.sublist_append_left _ _
  · exact .refl _

theorem gathers_exprStmt : Gathers exprStmt Stmt.idents := by
  intro c base xs hc
  have halone : ∀ {target : Expr} {d : Cursor} (s : Span), d.Leaves base (xs ++ target.idents) →
      d.Leaves base (xs ++ (Stmt.expr s target .none .nowhere .missing).idents) := by
    intro target d s hd
    rwa [Stmt.idents, if_pos rfl]
  have hassign : ∀ {target : Expr} {op : AssignOp} {mark : Token} {d : Cursor},
      d.Leaves base (xs ++ target.idents) →
      (assigned >>= fun value => Pure.pure fun span => Stmt.expr span target op mark.span value).Silent
        d fun node e => ∀ s, e.Leaves base (xs ++ (node s).idents) := by
    intro target op mark d hd
    refine (gathers_assigned hd).bind fun value e he => silent_pure fun s => he.mono ?_
    rw [List.append_assoc]
    exact (List.Sublist.refl xs).append (idents_assignment s target op mark.span value)
  apply silent_spanned
  refine (gathers_expression hc).bind fun target d hd => silent_panicking_bind fun b => ?_
  cases b
  · apply silent_look_bind
    split
    · refine silent_forward_bind forward_advance hd fun mark e he => ?_
      split
      · exact hassign he
      · exact silent_forward_bind (forward_report _) he fun _ _ hf => hassign hf
    · exact silent_forward_bind (forward_expect _) hd fun _ _ he => silent_pure fun s => halone s he
  · exact silent_pure fun s => halone s hd

theorem opens_block {stmt : Parse .short (Option Stmt)} (h : Opens stmt (ifAny Stmt.idents)) :
    Opens (block stmt) fun b => stmtsIdents b.stmts := by
  intro c base xs hc hp
  apply silent_spanned
  apply silent_advance_bind
  refine (opens_whileMore Cursor.endStatement_skips h hc.advance
    ((Cursor.panicking_advance c).trans hp)).bind fun stmts d hd => ?_
  refine silent_forward_bind (forward_expect _) hd fun _ e he => silent_pure fun s => ?_
  show e.Leaves base (xs ++ stmtsIdents stmts)
  rwa [stmtsIdents_eq]

theorem opens_statementWith {inner : Parse .short (Option Stmt)}
    (h : Opens inner (ifAny Stmt.idents)) :
    Opens (statementWith inner) (ifAny Stmt.idents) := by
  intro c base xs hc hp
  apply silent_look_bind
  dsimp only [id]
  split
  · exact silent_forward_bind (forward_fail _) hc fun _ _ hd => silent_pure hd.none
  split
  · exact gathers_printStmt.some hc
  split
  · exact opens_varDecl.some hc hp
  split
  · exact gathers_exprStmt.some hc
  split
  · exact (opens_block h hc hp).bind fun b d hd => silent_pure hd
  · exact silent_forward_bind (forward_fail _) hc fun _ _ hd => silent_pure hd.none

theorem opens_statement : Opens statement (ifAny Stmt.idents) := by
  have hwithin : ∀ n, Opens (statementWithin n) (ifAny Stmt.idents) := by
    intro n
    induction n with
    | zero => exact fun hc _ => silent_pure hc.none
    | succ n ih => exact opens_statementWith ih
  intro c base xs hc hp
  have hstep := hwithin (c.rest.length + 1) hc hp
  exact fun hd => hstep hd

/-! ### Members -/

theorem silent_modifiers (hc : c.Leaves base xs) (hp : c.panicking = false) :
    (untilNone modifier).Silent c fun _ d => d.Leaves base xs ∧ d.panicking = false := by
  have hcollect : ∀ n {c : Cursor}, c.panicking = false →
      (collectUntil modifier n).Silent c fun _ d => d.panicking = false := by
    intro n
    induction n with
    | zero => exact fun hp => silent_pure hp
    | succ n ih =>
      intro c hp
      have hone : modifier.Silent c fun _ d => d.panicking = false := by
        apply silent_look_bind
        split
        · exact Silent.map fun _ => (Cursor.panicking_advance c).trans hp
        · exact silent_pure hp
      refine hone.bind fun x d hd => ?_
      cases x with
      | none => exact silent_pure hd
      | some t => exact (ih hd).bind fun _ _ he => silent_pure he
  have hcalm : (untilNone modifier).Silent c fun _ d => d.panicking = false :=
    fun hd => hcollect (c.rest.length + 1) hp hd
  exact (silent_forward (forward_untilNone forward_modifier) hc).and hcalm

theorem opens_fieldDecl : Opens fieldDecl Member.idents := by
  intro c base xs hc hp
  apply silent_spanned
  refine (silent_modifiers hc hp).bind fun modifiers d hd => ?_
  have hbuild : ∀ type name init s, (Member.field s (modifiers.map (·.value))
      (modifiers.any (·.kind = .kwFinal)) type name init).idents
        = declarationIdents type name init := fun _ _ _ _ => rfl
  exact silent_declared _ hbuild hd.1 hd.2

/-- The statements of a body, if there is one. -/
theorem opens_methodBody : Opens methodBody fun body =>
    stmtsIdents ((body.map Block.stmts).getD []) := by
  intro c base xs hc hp
  apply silent_look_bind
  split
  · exact Silent.map (opens_block opens_statement hc hp)
  · exact silent_forward_bind (forward_expect _) hc fun _ _ hd => silent_pure hd.none

theorem opens_mainMethod : Opens mainMethod Member.idents := by
  intro c base xs hc hp
  -- without a parameter there is no body either
  have hbare : ∀ {d : Cursor} {name param : Ident} (s : Span), param.name = [] → d.Leaves base xs →
      d.Leaves base (xs ++ (Member.main s name param none).idents) := by
    intro d name param s hparam hd
    rw [Member.idents, hparam]
    exact hd.none
  have hfull : ∀ {d : Cursor} {name param : Ident} {body : Option Block} (s : Span),
      d.Leaves base (xs ++ [param] ++ stmtsIdents ((body.map Block.stmts).getD [])) →
      d.Leaves base (xs ++ (Member.main s name param body).idents) := by
    intro d name param body s hd
    refine hd.mono ?_
    rw [Member.idents, List.append_assoc]
    refine (List.Sublist.refl xs).append (List.Sublist.append ?_ (List.Sublist.refl _))
    split
    · exact List.nil_sublist _
    · exact List.Sublist.refl _
  apply silent_spanned
  refine silent_advance_bind (silent_advance_bind (silent_advance_bind ?_))
  have hc₃ : c.advance.advance.advance.Leaves base xs := hc.advance.advance.advance
  have hp₃ : c.advance.advance.advance.panicking = false := by
    simpa only [Cursor.panicking_advance] using hp
  refine (silent_expectIdent hc₃).bind ?_
  rintro ⟨name, named⟩ d hname
  obtain ⟨rfl, hd, hpd⟩ | ⟨rfl, -, hd⟩ := hname
  swap
  · exact silent_pure fun s => hbare s rfl hd
  refine (silent_expectAll _ hd.drop).bind fun opened e he => ?_
  cases opened
  · exact silent_pure fun s => hbare s rfl he.1
  refine (silent_expectIdent he.1).bind ?_
  rintro ⟨param, there⟩ f hparam
  obtain ⟨rfl, hf, hpf⟩ | ⟨rfl, hempty, hf⟩ := hparam
  swap
  · exact silent_pure fun s => hbare s hempty hf
  refine (silent_expect hf .rparen).bind fun closed g hg => ?_
  cases closed
  · exact silent_pure fun s => hfull s hg.1.none
  have hpg : g.panicking = false :=
    (hg.2 rfl).trans (hpf.trans ((he.2 rfl).trans (hpd.trans hp₃)))
  exact (opens_methodBody hg.1 hpg).bind fun body i hi => silent_pure fun s => hfull s hi

theorem opens_member : Opens member Member.idents := by
  intro c base xs hc hp
  apply silent_look_bind
  split
  · exact opens_mainMethod hc hp
  · exact opens_fieldDecl hc hp

/-! ### Classes -/

theorem opens_classDecl : Opens classDecl fun x => x.members.flatMap Member.idents := by
  intro c base xs hc hp
  apply silent_spanned
  refine silent_advance_bind (silent_advance_bind ?_)
  have hc₂ : c.advance.advance.Leaves base xs := hc.advance.advance
  have hp₂ : c.advance.advance.panicking = false := by
    simpa only [Cursor.panicking_advance] using hp
  refine (silent_expectIdent hc₂).bind ?_
  rintro ⟨name, named⟩ d hname
  obtain ⟨rfl, hd, hpd⟩ | ⟨rfl, -, hd⟩ := hname
  swap
  · exact silent_pure fun _ => hd.none
  refine (silent_expect hd.drop .lbrace).bind fun opened e he => ?_
  cases opened
  · exact silent_pure fun _ => he.1.none
  have hpe : e.panicking = false := (he.2 rfl).trans (hpd.trans hp₂)
  refine (opens_whileMore Cursor.endMember_skips opens_member.some he.1 hpe).bind
    fun members f hf => ?_
  exact silent_forward_bind (forward_expect _) hf fun _ _ hg => silent_pure fun _ => hg

theorem opens_classOrSkip :
    Opens classOrSkip (ifAny fun x => x.members.flatMap Member.idents) := by
  intro c base xs hc hp
  apply silent_look_bind
  split
  · exact opens_classDecl.some hc hp
  · exact silent_look_bind (silent_forward_bind (forward_fail _) hc fun _ _ hd =>
      silent_pure hd.none)

/-! ### Whole runs -/

theorem opens_statements : Opens statements Root.idents := by
  intro c base xs hc hp
  apply silent_spanned
  refine (opens_whileMore Cursor.endStatement_skips opens_statement hc hp).bind fun stmts d hd => ?_
  refine silent_pure fun s => ?_
  rwa [Root.idents, stmtsIdents_eq]

theorem opens_program : Opens program Root.idents := by
  intro c base xs hc hp
  have hclasses : classes.Silent c fun ys d =>
      d.Leaves base (xs ++ ys.flatMap fun y => y.members.flatMap Member.idents) :=
    opens_whileMore Cursor.endClass_skips opens_classOrSkip hc hp
  have hlisten : (listen classes).Silent c fun x d =>
      d.Leaves base (xs ++ x.1.flatMap fun y => y.members.flatMap Member.idents) := hclasses
  apply silent_spanned
  refine hlisten.bind ?_
  rintro ⟨ys, errors⟩ d hd
  have hidents : ∀ s, (Root.program s ys).idents
      = ys.flatMap fun y => y.members.flatMap Member.idents := by
    intro s
    rw [Root.idents]
  show Silent (if _ then _ else _) d _
  split
  · refine silent_forward_bind (forward_fail _) hd fun _ e he => ?_
    refine silent_forward_bind forward_calm he fun _ f hf => silent_pure fun s => ?_
    rwa [hidents]
  · refine silent_pure fun s => ?_
    rwa [hidents]

end Parse

theorem Mode.opens_parser (mode : Mode) : Parse.Opens mode.parser Root.idents := by
  cases mode
  · exact Parse.opens_program
  · exact Parse.opens_statements

/-- The identifiers of a tree that is read without syntax errors are spelled by tokens, in order,
though literals may have been cut off. -/
theorem idents_sublist_of_parse {mode : Mode} {tokens : List Token}
    (hcut : ∀ t ∈ tokens, t.unterminated = true → (LiteralSort.ofKind? t.kind).isSome = true)
    (h : (parse mode tokens).diagnostics = []) :
    (parse mode tokens).root.idents.Sublist (identifiers (tokens.takeWhile (·.kind ≠ .eof))) := by
  rw [parse_short] at h ⊢
  have hstart : (Cursor.ofTokens tokens).Leaves
      (identifiers (tokens.takeWhile (·.kind ≠ .eof))) [] := by
    have hstop := Cursor.kind_stop_ofTokens (ρ := .short) tokens
    rw [Cursor.ofTokens_short] at hstop ⊢
    refine ⟨⟨hstop, fun t ht => hcut t ?_⟩, List.Sublist.refl _⟩
    exact List.takeWhile_subset _ ht
  have hend := mode.opens_parser hstart (Cursor.fields_ofTokens tokens).2 h
  exact (List.sublist_append_left _ _).trans hend.sublist

end JavaPrimer
