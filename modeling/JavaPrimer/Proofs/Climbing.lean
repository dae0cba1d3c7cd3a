import JavaPrimer.Proofs.BehindOperators
import JavaPrimer.Proofs.ReadExpressions
import Mathlib.Data.List.Infix

/-!
# Precedence climbing

Operands and binary operators in turn can be put together in many ways. One of them has a looser
operator on no left side and neither a looser nor an equal one on any right side: the operator at
its root is the last one of the loosest level, and what stands on both sides of it is put together
in the same way. This is the tree that is read, so no operand in a parsed tree needs parentheses.

* `Expr.Fits` — an expression whose operands bind as tightly as they must;
* `Parse.fits_expression` — all expressions below one that is read fit;
* `Expr.inorder`, `Expr.rejoined` — the operands and operators of a tree in order, and the spans
  that a tree over them gets;
* `Expr.eq_of_inorder` — trees that fit are determined by what is in them in order;
* `Parse.Joints` — operators and operands as they are read in turn, whatever their levels;
* `Parse.joined_of_joints` — climbing over the levels reads the same in the same order;
* `climbing` — the tree of an expression is the one that fits.
-/

namespace JavaPrimer

/-! ### Expressions that fit -/

/-- The level that an operator belongs to. -/
def BinaryOp.level : BinaryOp → Level
  | or => .logicalOr
  | and => .logicalAnd
  | eq | ne => .equality
  | lt | gt | le | ge => .relational
  | add | sub => .additive
  | mul | div | mod => .multiplicative
  | other _ => .unknown

namespace Expr

/-- The level at the root of a binary expression. -/
def level? : Expr → Option Level
  | binary _ level .. => some level
  | _ => none

/-- A binary expression has the level of its operator, on its left no looser binary expression, and
on its right none that is looser or equally loose. A unary operator or a cast applies to no binary
expression. -/
def Fits : Expr → Prop
  | binary _ level op _ left right => level = op.level
      ∧ (∀ l ∈ left.level?, ¬ l.rank < level.rank) ∧ ∀ l ∈ right.level?, ¬ l.rank ≤ level.rank
  | unary _ _ e | cast _ _ e => e.level? = none
  | _ => True

/-- No operand of an expression needs parentheses. -/
def operandsFree : Expr → Bool
  | binary _ level _ _ left right => !left.needsParens level false && !right.needsParens level true
  | unary _ _ e | cast _ _ e => !e.isBinary
  | _ => true

/-- How an expression is laid out when no parentheses are put around its operands. -/
def layoutPlain : Expr → Text
  | binary _ _ op _ left right => left.layout ++ " " ++ op.spelling ++ " " ++ right.layout
  | unary _ op e => layoutUnary op.spelling e.layout
  | cast _ type e => "(" ++ layoutType type ++ ") " ++ e.layout
  | e => e.layout

theorem level?_eq_none {e : Expr} : e.level? = none ↔ e.isBinary = false := by
  cases e <;> simp [level?, isBinary]

theorem le_rank_iff {r : Nat} (hr : r ≤ 7) (e : Expr) :
    (∀ l ∈ e.level?, ¬ l.rank < r) ↔ r ≤ e.rank := by
  cases e <;> simp [level?, rank, hr]

theorem fits_binary {s t : Span} {level : Level} {op : BinaryOp} {left right : Expr} :
    (binary s level op t left right).Fits
      ↔ level = op.level ∧ level.rank ≤ left.rank ∧ level.rank < right.rank := by
  have hle := level.rank_le
  have hleft := le_rank_iff (r := level.rank) (by omega) left
  have hright := le_rank_iff (r := level.rank + 1) (by omega) right
  simp only [Nat.lt_succ_iff] at hright
  rw [Fits, hleft, hright]
  rfl

theorem Fits.operandsFree {e : Expr} (h : e.Fits) : e.operandsFree = true := by
  cases e with
  | binary s level op t left right =>
    obtain ⟨-, hleft, hright⟩ := fits_binary.1 h
    rw [Expr.operandsFree, (needsParens_left level left).2 hleft,
      (needsParens_right level right).2 hright]
    rfl
  | unary s op e | cast s type e =>
    rw [Expr.operandsFree, level?_eq_none.1 h]
    rfl
  | _ => rfl

/-- Where no operand needs parentheses none are put around it. -/
theorem layout_of_operandsFree {e : Expr} (h : e.operandsFree = true) :
    e.layout = e.layoutPlain := by
  cases e with
  | binary s level op t left right =>
    simp only [operandsFree, Bool.and_eq_true, Bool.not_eq_true'] at h
    rw [layout, h.1, h.2]
    rfl
  | unary s op e | cast s type e =>
    simp only [operandsFree, Bool.not_eq_true'] at h
    rw [layout, h]
    rfl
  | _ => rfl

/-- All expressions below one fit, and it binds at least as tightly as a rank. -/
structure Climbed (r : Nat) (e : Expr) : Prop where
  fits : ∀ x ∈ e.nodes, x.Fits
  rank : r ≤ e.rank

theorem Climbed.mono {q r : Nat} {e : Expr} (h : e.Climbed r) (hq : q ≤ r) : e.Climbed q :=
  ⟨h.fits, hq.trans h.rank⟩

theorem Climbed.not_binary {e : Expr} (h : e.Climbed 7) : e.isBinary = false := by
  cases e with
  | binary s level op t left right => exact absurd (h.rank.trans level.rank_le) (by decide)
  | _ => rfl

/-- An expression that is no binary one fits as tightly as any, if what is below it fits. -/
theorem climbed_of_not_binary {e : Expr} (hfits : ∀ x ∈ e.nodes, x.Fits)
    (hbinary : e.isBinary = false) : e.Climbed 7 :=
  ⟨hfits, (rank_of_not_binary hbinary).ge⟩

theorem climbed_binary {s t : Span} {op : BinaryOp} {left right : Expr} {level : Level}
    (hlevel : level = op.level) (hleft : left.Climbed level.rank)
    (hright : right.Climbed (level.rank + 1)) :
    (binary s level op t left right).Climbed level.rank := by
  refine ⟨?_, Nat.le_refl _⟩
  rw [nodes, List.forall_mem_cons, List.forall_mem_append]
  exact ⟨fits_binary.2 ⟨hlevel, hleft.rank, hright.rank⟩, hleft.fits, hright.fits⟩

theorem forall_mem_exprsNodes {Q : Expr → Prop} {es : List Expr}
    (h : ∀ e ∈ es, ∀ x ∈ e.nodes, Q x) : ∀ x ∈ exprsNodes es, Q x := by
  rw [exprsNodes_eq]
  exact List.forall_mem_flatMap.2 h

end Expr

/-! ### Reading expressions that fit -/

theorem Tier.mem_of_op? {tier : Tier} {k : Kind} {op : BinaryOp} (h : tier.op? k = some op) :
    (k, op) ∈ tier.ops := by
  obtain ⟨x, hx, rfl⟩ := Option.map_eq_some_iff.1 h
  have hk : x.1 = k := by simpa using List.find?_some hx
  rw [← hk]
  exact List.mem_of_find?_eq_some hx

/-- The parser keeps every operator with those of its level. -/
theorem level_of_mem_ops : ∀ tier ∈ tiers, ∀ x ∈ tier.ops, x.2.level = tier.level := by decide

theorem rank_of_tails : ∀ ts ∈ tiers.tails, ∀ tier ∈ ts.head?,
    tier.level.rank + ts.length = 7 := by decide

theorem rank_of_suffix {tier : Tier} {tighter : List Tier} (h : tier :: tighter <:+ tiers) :
    tier.level.rank = 7 - (tier :: tighter).length := by
  have hrank := rank_of_tails _ ((List.mem_tails _ _).2 h) tier rfl
  omega

namespace Parse

theorem op?_of_tierOp? {tier : Tier} {c : Cursor} {op : BinaryOp} (h : tierOp? tier c = some op) :
    tier.op? c.kind = some op := by
  unfold tierOp? at h
  split at h
  · cases h
  · exact h

theorem level_of_tierOp? {tier : Tier} (htier : tier ∈ tiers) {c : Cursor} {op : BinaryOp}
    (h : tierOp? tier c = some op) : tier.level = op.level :=
  (level_of_mem_ops tier htier _ (Tier.mem_of_op? (op?_of_tierOp? h))).symm

/-- The operators of a tier are joined from the left to operands that bind tighter. -/
theorem climbed_chain {tier : Tier} (htier : tier ∈ tiers) {operand : Parse .short Expr}
    (h : Yields (Expr.Climbed (tier.level.rank + 1)) operand) (n : Nat) : ∀ left c,
    left.Climbed tier.level.rank → (chain tier operand n left c).value.Climbed tier.level.rank := by
  induction n with
  | zero => exact fun _ _ hleft => hleft
  | succ n ih =>
    intro left c hleft
    cases hop : tierOp? tier c with
    | none => rwa [chain_none hop]
    | some op =>
      rw [chain_some hop]
      exact ih _ _ (Expr.climbed_binary (level_of_tierOp? htier hop) hleft (h _))

theorem climbed_climb {operand : Parse .short Expr} (h : Yields (Expr.Climbed 7) operand)
    {ts : List Tier} (hts : ts <:+ tiers) :
    Yields (Expr.Climbed (7 - ts.length)) (climb operand ts) := by
  induction ts with
  | nil => exact h
  | cons tier tighter ih =>
    have htighter := ih ((List.suffix_cons tier tighter).trans hts)
    have hrank := rank_of_suffix hts
    have hlength := hts.length_le
    have hnext : 7 - tighter.length = tier.level.rank + 1 := by
      have htiers : tiers.length = 6 := rfl
      rw [List.length_cons] at hrank hlength
      omega
    rw [hnext] at htighter
    rw [← hrank]
    refine yields_bind htighter fun left hleft => yields_then fun bound c => ?_
    exact climbed_chain (hts.subset List.mem_cons_self) htighter bound left c
      (hleft.mono (Nat.le_succ _))

section Operands

variable {expr : Parse .short Expr} (h : Yields (fun e => ∀ x ∈ e.nodes, x.Fits) expr)

theorem fits_expressionExpected : Yields (Expr.Climbed 7) expressionExpected :=
  yields_then fun _ => yields_then fun _ =>
    yields_pure (Expr.climbed_of_not_binary (List.forall_mem_singleton.2 trivial) rfl)

include h

theorem fits_arguments :
    Yields (fun es => ∀ e ∈ es, ∀ x ∈ Expr.nodes e, x.Fits) (arguments expr) := by
  have hargument : Yields (fun x => ∀ e ∈ x, ∀ x ∈ Expr.nodes e, x.Fits) (argument expr) :=
    yields_then fun b => by
      cases b
      · exact yields_pure fun _ he => nomatch he
      · exact yields_then fun _ => yields_bind h fun e he => yields_pure fun _ ha =>
          Option.some.inj ha ▸ he
  refine yields_then fun b => ?_
  cases b
  · exact yields_pure (List.forall_mem_nil _)
  · exact yields_bind h fun first hfirst => yields_bind (yields_untilNone hargument)
      fun more hmore => yields_pure (List.forall_mem_cons.2 ⟨hfirst, hmore⟩)

theorem fits_selector :
    Yields (fun x => ∀ a ∈ x, ∀ x ∈ Selector.nodes a, x.Fits) (selector expr) := by
  have hnone : ∀ a ∈ (none : Option Selector), ∀ x ∈ a.nodes, x.Fits := fun _ ha => nomatch ha
  refine yields_then fun panicking => ?_
  cases panicking
  case true => exact yields_pure hnone
  refine yields_then fun k => ?_
  split
  · refine yields_then fun dot => yields_then fun ⟨name, there⟩ => ?_
    cases there
    · exact yields_pure hnone
    · exact yields_pure fun _ ha => Option.some.inj ha ▸ List.forall_mem_nil _
  · refine yields_then fun mark => yields_bind (fits_arguments h) fun args hargs =>
      yields_then fun panicking => ?_
    cases panicking
    case true => exact yields_pure hnone
    refine yields_then fun closed => ?_
    cases closed
    · exact yields_pure hnone
    · exact yields_then fun span => yields_pure fun _ ha =>
        Option.some.inj ha ▸ Expr.forall_mem_exprsNodes hargs
  · exact yields_pure hnone

theorem fits_nameExpr : Yields (Expr.Climbed 7) (nameExpr expr) := by
  refine yields_spanned (yields_then fun head =>
    yields_bind (yields_untilNone (fits_selector h)) fun selectors hselectors =>
      yields_pure fun s => Expr.climbed_of_not_binary ?_ rfl)
  rw [Expr.nodes, List.forall_mem_cons, selectorsNodes_eq]
  exact ⟨trivial, List.forall_mem_flatMap.2 hselectors⟩

theorem fits_newExpr : Yields (Expr.Climbed 7) (newExpr expr) := by
  have hnew : ∀ className args, (∀ e ∈ args, ∀ x ∈ Expr.nodes e, x.Fits) →
      ∀ s, (Expr.new s className args).Climbed 7 := by
    intro className args hargs s
    refine Expr.climbed_of_not_binary ?_ rfl
    rw [Expr.nodes, List.forall_mem_cons]
    exact ⟨trivial, Expr.forall_mem_exprsNodes hargs⟩
  have hnone := fun className => hnew className [] (List.forall_mem_nil _)
  refine yields_spanned (yields_then fun _ => yields_then fun ⟨className, there⟩ => ?_)
  cases there
  · exact yields_pure (hnone className)
  refine yields_then fun opened => ?_
  cases opened
  · exact yields_pure (hnone className)
  refine yields_bind (fits_arguments h) fun args hargs => yields_then fun panicking => ?_
  cases panicking
  · exact yields_then fun _ => yields_pure (hnew className args hargs)
  · exact yields_pure (hnew className args hargs)

theorem fits_parenExpr : Yields (Expr.Climbed 7) (parenExpr expr) := by
  refine yields_spanned (yields_then fun _ => yields_bind h fun inner hinner =>
    yields_then fun panicking => ?_)
  have hparen : ∀ s, (Expr.paren s inner).Climbed 7 := fun s =>
    Expr.climbed_of_not_binary (List.forall_mem_cons.2 ⟨trivial, hinner⟩) rfl
  cases panicking
  · exact yields_then fun _ => yields_pure hparen
  · exact yields_pure hparen

theorem fits_stepped : Yields (Expr.Climbed 7) (stepped expr) := by
  have hprimary : Yields (Expr.Climbed 7) (primary expr) := by
    refine yields_then fun next => ?_
    split
    · exact yields_then fun _ => yields_pure
        (Expr.climbed_of_not_binary (List.forall_mem_singleton.2 trivial) rfl)
    · split
      · exact fits_nameExpr h
      · exact fits_parenExpr h
      · exact fits_newExpr h
      · exact fits_expressionExpected
  refine yields_bind hprimary fun operand hoperand => yields_then fun found => ?_
  cases found with
  | none => exact yields_pure hoperand
  | some op =>
    exact yields_then fun mark => yields_pure (Expr.climbed_of_not_binary
      (List.forall_mem_cons.2 ⟨trivial, hoperand.fits⟩) rfl)

end Operands

/-- What a unary operator or a cast applies to is no binary expression. -/
theorem fits_unaryWith {operand : Parse .short Expr} (h : Yields (Expr.Climbed 7) operand) :
    Yields (Expr.Climbed 7) (unaryWith operand) := by
  refine yields_then fun found => ?_
  cases found with
  | some op =>
    refine yields_then fun mark => yields_bind h fun e he => yields_pure ?_
    exact Expr.climbed_of_not_binary
      (List.forall_mem_cons.2 ⟨Expr.level?_eq_none.2 he.not_binary, he.fits⟩) rfl
  | none =>
    refine yields_then fun cast => ?_
    cases cast
    · exact fits_stepped fun c => (climbed_climb h (List.suffix_refl tiers) c).fits
    refine yields_then fun mark => yields_then fun word => yields_then fun closed => ?_
    cases closed
    · refine yields_then fun span => yields_then fun found => yields_pure ?_
      exact Expr.climbed_of_not_binary
        (List.forall_mem_cons.2 ⟨rfl, List.forall_mem_singleton.2 trivial⟩) rfl
    · refine yields_bind h fun e he => yields_pure ?_
      exact Expr.climbed_of_not_binary
        (List.forall_mem_cons.2 ⟨Expr.level?_eq_none.2 he.not_binary, he.fits⟩) rfl

theorem fits_unary (n : Nat) : Yields (Expr.Climbed 7) (unary n) := by
  induction n with
  | zero => exact fits_expressionExpected
  | succ n ih => exact fits_unaryWith ih

/-- All expressions below one that is read fit. -/
theorem fits_expression : Yields (fun e => ∀ x ∈ e.nodes, x.Fits) expression :=
  fun c => (climbed_climb (fits_unary (c.rest.length + 1)) (List.suffix_refl tiers) c).fits

end Parse

/-! ### What is in a tree in order -/

/-- A binary operator, where it stands, and the operand behind it. -/
structure Joint where
  op : BinaryOp
  span : Span
  operand : Expr

namespace Expr

/-- The first operand of a tree of binary expressions, and in order what is joined to it. -/
def inorder : Expr → Expr × List Joint
  | binary _ _ op t left right =>
    (left.inorder.1, left.inorder.2 ++ ⟨op, t, right.inorder.1⟩ :: right.inorder.2)
  | e => (e, [])

/-- A tree of binary expressions with each of their spans joined from those of the operands. -/
def rejoined : Expr → Expr
  | binary _ level op t left right =>
    binary (left.rejoined.span.through right.rejoined.span) level op t left.rejoined right.rejoined
  | e => e

theorem inorder_of_not_binary {e : Expr} (h : e.isBinary = false) : e.inorder = (e, []) := by
  cases e <;> first | rfl | cases h

theorem rejoined_of_not_binary {e : Expr} (h : e.isBinary = false) : e.rejoined = e := by
  cases e <;> first | rfl | cases h

theorem rank_rejoined (e : Expr) : e.rejoined.rank = e.rank := by
  cases e <;> rfl

theorem inorder_rejoined (e : Expr) : e.rejoined.inorder = e.inorder := by
  induction e using Expr.byParts with
  | binary s level op t left right ihl ihr => rw [rejoined, inorder, inorder, ihl, ihr]
  | _ => rfl

/-- Whether a tree fits is no matter of its spans. -/
theorem fits_rejoined (e : Expr) :
    (∀ x ∈ e.rejoined.nodes, x.Fits) ↔ ∀ x ∈ e.nodes, x.Fits := by
  induction e using Expr.byParts with
  | binary s level op t left right ihl ihr =>
    rw [rejoined, nodes, nodes, List.forall_mem_cons, List.forall_mem_cons,
      List.forall_mem_append, List.forall_mem_append, ihl, ihr, fits_binary, fits_binary,
      rank_rejoined, rank_rejoined]
  | _ => exact Iff.rfl

/-- The operators in a tree that fits bind at least as tightly as its root. -/
theorem rank_le_of_mem_inorder {e : Expr} (h : ∀ x ∈ e.nodes, x.Fits) :
    ∀ j ∈ e.inorder.2, e.rank ≤ j.op.level.rank := by
  induction e using Expr.byParts with
  | binary s level op t left right ihl ihr =>
    rw [nodes, List.forall_mem_cons, List.forall_mem_append] at h
    obtain ⟨hroot, hleft, hright⟩ := h
    obtain ⟨hlevel, hl, hr⟩ := fits_binary.1 hroot
    show ∀ j ∈ left.inorder.2 ++ ⟨op, t, right.inorder.1⟩ :: right.inorder.2,
      level.rank ≤ j.op.level.rank
    refine List.forall_mem_append.2 ⟨fun j hj => ?_, List.forall_mem_cons.2 ⟨?_, fun j hj => ?_⟩⟩
    · exact hl.trans (ihl hleft j hj)
    · rw [hlevel]
    · exact hr.le.trans (ihr hright j hj)
  | _ => exact List.forall_mem_nil _

/-- The operator at the root of a tree that fits is the last of the loosest ones, so it stands at
one place in the order. -/
theorem split_unique {xs ys xs' ys' : List Joint} {j j' : Joint}
    (h : xs ++ j :: ys = xs' ++ j' :: ys') (hxs : ∀ x ∈ xs, j.op.level.rank ≤ x.op.level.rank)
    (hys : ∀ y ∈ ys, j.op.level.rank < y.op.level.rank)
    (hxs' : ∀ x ∈ xs', j'.op.level.rank ≤ x.op.level.rank)
    (hys' : ∀ y ∈ ys', j'.op.level.rank < y.op.level.rank) :
    xs = xs' ∧ j = j' ∧ ys = ys' := by
  rcases List.append_eq_append_iff.1 h with ⟨zs, hxs'', hzs⟩ | ⟨zs, hxs'', hzs⟩
  · cases zs with
    | nil =>
      obtain ⟨rfl, rfl⟩ := List.cons.inj hzs
      exact ⟨by rw [hxs'', List.append_nil], rfl, rfl⟩
    | cons z zs =>
      -- the first root would stand in front of the second and be no looser, and the other way round
      obtain ⟨rfl, hys''⟩ := List.cons.inj hzs
      have hloose := hxs' j (by rw [hxs'']; exact List.mem_append_right _ List.mem_cons_self)
      have htight := hys j' (by rw [hys'']; exact List.mem_append_right _ List.mem_cons_self)
      omega
  · cases zs with
    | nil =>
      obtain ⟨rfl, rfl⟩ := List.cons.inj hzs
      exact ⟨by rw [hxs'', List.append_nil], rfl, rfl⟩
    | cons z zs =>
      obtain ⟨rfl, hys''⟩ := List.cons.inj hzs
      have hloose := hxs j' (by rw [hxs'']; exact List.mem_append_right _ List.mem_cons_self)
      have htight := hys' j (by rw [hys'']; exact List.mem_append_right _ List.mem_cons_self)
      omega

/-- An operand alone in order is a whole tree. -/
theorem eq_of_inorder_operand {e f : Expr} (he : e.isBinary = false) (h : e.inorder = f.inorder) :
    e = f := by
  rw [inorder_of_not_binary he] at h
  cases f with
  | binary s level op t left right => exact absurd (Prod.mk.inj h).2 (by simp)
  | _ => exact (Prod.mk.inj h).1

/-- Trees that fit are the same when the same is in them in order, up to the spans of their binary
expressions. -/
theorem eq_of_inorder {e f : Expr} (he : ∀ x ∈ e.nodes, x.Fits) (hf : ∀ x ∈ f.nodes, x.Fits)
    (h : e.inorder = f.inorder) : e.rejoined = f.rejoined := by
  induction e using Expr.byParts generalizing f with
  | binary s level op t left right ihl ihr =>
    cases f with
    | binary s' level' op' t' left' right' =>
      rw [nodes, List.forall_mem_cons, List.forall_mem_append] at he hf
      obtain ⟨hroot, hleft, hright⟩ := he
      obtain ⟨hroot', hleft', hright'⟩ := hf
      obtain ⟨hlevel, hl, hr⟩ := fits_binary.1 hroot
      obtain ⟨hlevel', hl', hr'⟩ := fits_binary.1 hroot'
      rw [hlevel] at hl hr
      rw [hlevel'] at hl' hr'
      obtain ⟨hfirst, hmore⟩ := Prod.mk.inj h
      obtain ⟨hbefore, hjoint, hbehind⟩ := split_unique hmore
        (fun j hj => hl.trans (rank_le_of_mem_inorder hleft j hj))
        (fun j hj => lt_of_lt_of_le hr (rank_le_of_mem_inorder hright j hj))
        (fun j hj => hl'.trans (rank_le_of_mem_inorder hleft' j hj))
        (fun j hj => lt_of_lt_of_le hr' (rank_le_of_mem_inorder hright' j hj))
      obtain ⟨rfl, rfl, hoperand⟩ := Joint.mk.inj hjoint
      rw [rejoined, rejoined, ihl hleft hleft' (Prod.ext hfirst hbefore),
        ihr hright hright' (Prod.ext hoperand hbehind), hlevel, hlevel']
    | _ => exact absurd (Prod.mk.inj h).2 (by simp)
  | _ => rw [eq_of_inorder_operand rfl h]

end Expr

/-! ### Reading operands and operators in turn -/

theorem Tier.op_unique : ∀ tier ∈ tiers, ∀ tier' ∈ tiers, ∀ x ∈ tier.ops, ∀ y ∈ tier'.ops,
    x.1 = y.1 → tier = tier' := by decide

namespace Parse

/-- Binary operators, whatever their levels, and the operands behind them, in turn and as long as
an operator of some tiers comes next: what is read, the complaints, and where it ends. -/
inductive Joints {ρ : Reach} (ts : List Tier) : Cursor ρ → Step ρ (List Joint) → Prop
  | none {c : Cursor ρ} (h : NoneJoins ts c) : Joints ts c ⟨[], [], c⟩
  | some {c : Cursor ρ} {tier : Tier} {op : BinaryOp} {s : Step ρ (List Joint)} (htier : tier ∈ ts)
    (hop : tierOp? tier c = some op) (hmore : Joints ts (operand c.advance).cursor s) :
    Joints ts c ⟨⟨op, c.current.span, (operand c.advance).value⟩ :: s.value,
      (operand c.advance).diagnostics ++ s.diagnostics, s.cursor⟩

/-- Where an operator of one tier comes next, none of a tighter tier does. -/
theorem noneJoins_tighter {tier : Tier} {tighter : List Tier} (hts : tier :: tighter <:+ tiers)
    {c : Cursor} {op : BinaryOp} (hop : tierOp? tier c = some op) : NoneJoins tighter c := by
  intro tier' htier'
  cases hop' : tierOp? tier' c with
  | none => rfl
  | some op' =>
    have hsame := Tier.op_unique tier (hts.subset List.mem_cons_self) tier'
      (hts.subset (List.mem_cons_of_mem tier htier')) _ (Tier.mem_of_op? (op?_of_tierOp? hop)) _
      (Tier.mem_of_op? (op?_of_tierOp? hop')) rfl
    have hnodup : (tier :: tighter).Nodup := hts.sublist.nodup (by decide)
    rw [← hsame] at htier'
    exact absurd htier' (List.nodup_cons.1 hnodup).1

/-- What is joined by the operators of some tiers starts with what the tighter ones join. -/
theorem Joints.split {tier : Tier} {tighter : List Tier} (hts : tier :: tighter <:+ tiers)
    {c : Cursor} {s : Step .short (List Joint)} (h : Joints (tier :: tighter) c s) :
    ∃ t u, Joints tighter c t ∧ NoneJoins tighter t.cursor ∧ Joints (tier :: tighter) t.cursor u
      ∧ s = ⟨t.value ++ u.value, t.diagnostics ++ u.diagnostics, u.cursor⟩ := by
  induction h with
  | @none c h =>
    have htighter := (List.forall_mem_cons.1 h).2
    exact ⟨_, _, .none htighter, htighter, .none h, rfl⟩
  | @some c tier' op s htier hop hmore ih =>
    rcases List.mem_cons.1 htier with rfl | htighter
    · have hnone := noneJoins_tighter hts hop
      exact ⟨_, _, .none hnone, hnone, .some List.mem_cons_self hop hmore, rfl⟩
    · obtain ⟨t, u, ht, hnone, hu, hs⟩ := ih
      refine ⟨_, u, .some htighter hop ht, hnone, hu, ?_⟩
      rw [hs]
      simp only [List.cons_append, List.append_assoc]

theorem Joints.ended {ts : List Tier} {c : Cursor} {s : Step .short (List Joint)}
    (h : Joints ts c s) (hc : c.Ended) : s.cursor.Ended := by
  induction h with
  | none _ => exact hc
  | some _ _ _ ih => exact ih (forward_operand.ended (ended_advance hc))

/-- What an expression becomes when some joints are put behind it. -/
structure Extends (left : Expr) (joints : List Joint) (e : Expr) : Prop where
  inorder : e.inorder = (left.inorder.1, left.inorder.2 ++ joints)
  rejoined : left.rejoined = left → e.rejoined = e

theorem Extends.refl (e : Expr) : Extends e [] e := ⟨by rw [List.append_nil], id⟩

theorem Extends.trans {left e f : Expr} {xs ys : List Joint} (he : Extends left xs e)
    (hf : Extends e ys f) : Extends left (xs ++ ys) f := by
  refine ⟨?_, fun h => hf.rejoined (he.rejoined h)⟩
  rw [hf.inorder, he.inorder, List.append_assoc]

/-- An operator joins an operand that others have been put behind. -/
theorem Extends.binary {e right : Expr} {xs : List Joint} (he : e.isBinary = false)
    (h : Extends e xs right) (left : Expr) (level : Level) (op : BinaryOp) (t : Span) :
    Extends left (⟨op, t, e⟩ :: xs)
      (.binary (left.span.through right.span) level op t left right) := by
  constructor
  case inorder =>
    rw [Expr.inorder, h.inorder, Expr.inorder_of_not_binary he]
    rfl
  case rejoined =>
    intro hleft
    rw [Expr.rejoined, hleft, h.rejoined (Expr.rejoined_of_not_binary he)]

/-- A step puts joints behind an expression, with their complaints and up to where they end. -/
def JoinsTo (left : Expr) (s : Step .short (List Joint)) (r : Step .short Expr) : Prop :=
  ∃ e, r = ⟨e, s.diagnostics, s.cursor⟩ ∧ Extends left s.value e

theorem operand_not_binary (c : Cursor) : (operand c).value.isBinary = false :=
  (fits_unary _ c).not_binary

/-- The operators of a tier, each with an operand that the tighter ones put together. -/
theorem joinedBy_of_joints {tier : Tier} {tighter : List Tier} (hts : tier :: tighter <:+ tiers)
    (htighter : ∀ {c s}, c.Ended → Joints tighter c s → ∀ left,
      JoinsTo left s (joined operand tighter left c)) (n : Nat) :
    ∀ {c s}, s.value.length ≤ n → c.Ended → NoneJoins tighter c → Joints (tier :: tighter) c s →
      ∀ left, JoinsTo left s (joinedBy tier (climb operand tighter) left c) := by
  induction n with
  | zero =>
    intro c s hn hc hnone h left
    cases h with
    | none h => exact ⟨left, chain_none (h tier List.mem_cons_self) _ _ left, .refl left⟩
    | some _ _ _ => cases hn
  | succ n ih =>
    intro c s hn hc hnone h left
    cases h with
    | none h => exact ⟨left, chain_none (h tier List.mem_cons_self) _ _ left, .refl left⟩
    | @some c tier' op s htier hop hmore =>
      obtain rfl : tier' = tier := by
        rcases List.mem_cons.1 htier with rfl | htier
        · rfl
        · rw [hnone _ htier] at hop
          cases hop
      obtain ⟨t, u, ht, hnone', hu, rfl⟩ := hmore.split hts
      have hended := forward_operand.ended (ended_advance hc)
      obtain ⟨right, hright, hextends⟩ := htighter hended ht (operand c.advance).value
      have hclimb : climb operand tighter c.advance
          = ⟨right, (operand c.advance).diagnostics ++ t.diagnostics, t.cursor⟩ := by
        rw [climb_eq_joined, bind_apply, hright]
      have hjoin := hextends.binary (operand_not_binary c.advance) left tier'.level op
        c.current.span
      have hless : u.value.length ≤ n := by
        simp only [List.length_cons, List.length_append] at hn
        omega
      obtain ⟨e, he, hthen⟩ := ih hless (ht.ended hended) hnone' hu
        (.binary (left.span.through right.span) tier'.level op c.current.span left right)
      refine ⟨e, ?_, hjoin.trans hthen⟩
      rw [joinedBy_some (hts.subset List.mem_cons_self) (forward_climb forward_operand tighter) hc
        hop, advance_bind_apply, bind_apply, hclimb, he]
      simp only [List.append_assoc]

/-- Climbing over the levels reads the same operators and operands, and puts them together in the
same order. -/
theorem joined_of_joints {ts : List Tier} (hts : ts <:+ tiers) :
    ∀ {c s}, c.Ended → Joints ts c s → ∀ left, JoinsTo left s (joined operand ts left c) := by
  induction ts with
  | nil =>
    intro c s hc h left
    cases h with
    | none _ => exact ⟨left, rfl, .refl left⟩
    | some htier _ _ => cases htier
  | cons tier tighter ih =>
    intro c s hc h left
    have htail := (List.suffix_cons tier tighter).trans hts
    obtain ⟨t, u, ht, hnone, hu, rfl⟩ := h.split hts
    obtain ⟨inner, hinner, hextends⟩ := ih htail hc ht left
    obtain ⟨e, he, hthen⟩ := joinedBy_of_joints hts (ih htail) u.value.length (Nat.le_refl _)
      (ht.ended hc) hnone hu inner
    refine ⟨e, ?_, hextends.trans hthen⟩
    rw [joined, bind_apply, hinner, he]

/-- From every place on operators and operands can be read in turn until no operator comes. -/
theorem exists_joints {c : Cursor} (hc : c.Ended) : ∃ s, Joints tiers c s := by
  by_cases hnone : NoneJoins tiers c
  · exact ⟨_, .none hnone⟩
  · simp only [NoneJoins, not_forall] at hnone
    obtain ⟨tier, htier, hop⟩ := hnone
    obtain ⟨op, hop⟩ := Option.ne_none_iff_exists'.1 hop
    obtain ⟨ts, hts⟩ := Cursor.rest_eq_of_kind hc (Mirror.kind_of_tierOp? htier hop)
    have hless : (operand c.advance).cursor.rest.length < c.rest.length := by
      have hle := forward_operand.length_le c.advance
      rw [Cursor.rest_advance, hts, List.tail_cons] at hle
      rw [hts, List.length_cons]
      omega
    obtain ⟨s, hs⟩ := exists_joints (forward_operand.ended (ended_advance hc))
    exact ⟨_, .some htier hop hs⟩
termination_by c.rest.length

/-! Operators and operands that are read in turn stop short of the end of input. -/

section Over

variable {ρ : Reach}

theorem tierOp?_short (tier : Tier) (c : Cursor ρ) : tierOp? tier c.short = tierOp? tier c := by
  unfold tierOp? Cursor.kind
  rw [c.current_short]
  rfl

theorem operand_advance {tier : Tier} (htier : tier ∈ tiers) {c : Cursor ρ} (hc : c.Ended)
    {op : BinaryOp} (hop : tierOp? tier c = some op) :
    operand c.advance = (operand c.short.advance).holding c.behind := by
  have hleft := rest_of_tierOp? htier hc (Option.isSome_of_eq_some hop)
  rw [Cursor.advance_short hleft]
  exact stopsShort_operand c.short.advance (ended_advance hc) c.behind

theorem Joints.exists_short {c : Cursor ρ} {s : Step ρ (List Joint)} (h : Joints tiers c s)
    (hc : c.Ended) : ∃ s₀, Joints tiers c.short s₀ ∧ s = s₀.holding c.behind := by
  induction h with
  | @none c h =>
    exact ⟨_, .none fun tier htier => (tierOp?_short tier c).trans (h tier htier), rfl⟩
  | @some c tier op s htier hop _ ih =>
    have hnext := operand_advance htier hc hop
    rw [hnext] at ih ⊢
    obtain ⟨s₀, hs₀, rfl⟩ := ih (forward_operand.ended (ended_advance (c := c.short) hc))
    have hop' : tierOp? tier c.short = Option.some op := (tierOp?_short tier c).trans hop
    refine ⟨_, .some htier hop' hs₀, ?_⟩
    rw [c.current_short]
    rfl

theorem Joints.holding {c : Cursor} {s : Step .short (List Joint)} (h : Joints tiers c s)
    (hc : c.Ended) (k : ρ.Held) : Joints tiers (c.holding k) (s.holding k) := by
  induction h with
  | @none c h =>
    exact .none fun tier htier => (tierOp?_short tier (c.holding k)).symm.trans (h tier htier)
  | @some c tier op s htier hop _ ih =>
    have hop' : tierOp? tier (c.holding k) = Option.some op :=
      (tierOp?_short tier (c.holding k)).symm.trans hop
    have hcurrent : (c.holding k).current = c.current := (c.holding k).current_short.symm
    have hnext := operand_advance (c := c.holding k) htier hc hop'
    have hmore := ih (forward_operand.ended (ended_advance hc))
    have hjoints := Joints.some htier hop' (s := s.holding k) (by rw [hnext]; exact hmore)
    rw [hnext, hcurrent] at hjoints
    exact hjoints

end Over

end Parse

/-! ### The tree of an expression -/

theorem Expr.groupOperands_eq_self {e : Expr} (h : e.operandsFree = true) :
    e.groupOperands = e := by
  cases e with
  | binary s level op t left right =>
    simp only [operandsFree, Bool.and_eq_true, Bool.not_eq_true'] at h
    rw [groupOperands, h.1, h.2]
    rfl
  | unary s op e | cast s type e =>
    simp only [operandsFree, Bool.not_eq_true'] at h
    rw [groupOperands, h]
    rfl
  | _ => rfl

/-- Groups are added to no tree in which no operand needs them. -/
theorem Expr.grouped_eq_self (e : Expr) :
    (∀ x ∈ e.nodes, x.operandsFree = true) → e.grouped = e := by
  have hexprs : ∀ es : List Expr, (∀ e ∈ es, (∀ x ∈ e.nodes, x.operandsFree = true) →
      e.grouped = e) → (∀ x ∈ exprsNodes es, x.operandsFree = true) →
      rewriteExprs groupOperands es = es := by
    intro es ih h
    rw [exprsNodes_eq] at h
    rw [rewriteExprs_eq]
    refine (List.map_congr_left fun e he => ?_).trans (List.map_id es)
    exact ih e he fun x hx => h x (List.mem_flatMap.2 ⟨e, he, hx⟩)
  induction e using Expr.byParts with
  | binary s level op t left right ihl ihr =>
    intro h
    rw [nodes, List.forall_mem_cons, List.forall_mem_append] at h
    obtain ⟨hroot, hleft, hright⟩ := h
    show (Expr.binary s level op t left.grouped right.grouped).groupOperands = _
    rw [ihl hleft, ihr hright, groupOperands_eq_self hroot]
  | unary s op e ih =>
    intro h
    rw [nodes, List.forall_mem_cons] at h
    show (Expr.unary s op e.grouped).groupOperands = _
    rw [ih h.2, groupOperands_eq_self h.1]
  | cast s type e ih =>
    intro h
    rw [nodes, List.forall_mem_cons] at h
    show (Expr.cast s type e.grouped).groupOperands = _
    rw [ih h.2, groupOperands_eq_self h.1]
  | step s op e ih =>
    exact fun h => congrArg (Expr.step s op) (ih (List.forall_mem_cons.1 h).2)
  | paren s e ih => exact fun h => congrArg (Expr.paren s) (ih (List.forall_mem_cons.1 h).2)
  | literal s sort raw => exact fun _ => rfl
  | name s head selectors ih =>
    intro h
    rw [nodes, List.forall_mem_cons, selectorsNodes_eq] at h
    show Expr.name s head (rewriteSelectors groupOperands selectors) = _
    rw [rewriteSelectors_eq]
    refine congrArg (Expr.name s head)
      ((List.map_congr_left fun x hx => ?_).trans (List.map_id selectors))
    cases x with
    | field t name => rfl
    | call t args =>
      refine congrArg (Selector.call t) (hexprs args (ih t args hx) fun y hy => ?_)
      exact h.2 y (List.mem_flatMap.2 ⟨_, hx, hy⟩)
  | new s className args ih =>
    exact fun h => congrArg (Expr.new s className) (hexprs args ih (List.forall_mem_cons.1 h).2)
  | bad s => exact fun _ => rfl
  | missing => exact fun _ => rfl

open Parse

/-- An expression is what its first operand and the joints behind it are put together to. -/
theorem expression_of_joints {c : Cursor} (hc : c.Ended) {s : Step .short (List Joint)}
    (hs : Joints tiers (operand c).cursor s) :
    (expression c).diagnostics = (operand c).diagnostics ++ s.diagnostics
      ∧ (expression c).cursor = s.cursor
      ∧ ∀ e : Expr, e.rejoined = (expression c).value
        ↔ e.inorder = ((operand c).value, s.value) ∧ ∀ x ∈ e.nodes, x.Fits := by
  obtain ⟨v, hv, hextends⟩ := joined_of_joints (List.suffix_refl tiers)
    (forward_operand.ended hc) hs
    (operand c).value
  have hread : expression c
      = ⟨v, (operand c).diagnostics ++ s.diagnostics, s.cursor⟩ := by
    rw [expression_eq hc, climb_eq_joined, bind_apply, hv]
  have hoperand := operand_not_binary c
  have hinorder : v.inorder = ((operand c).value, s.value) := by
    rw [hextends.inorder, Expr.inorder_of_not_binary hoperand]
    rfl
  have hvfits : ∀ x ∈ v.nodes, x.Fits := by
    have hall := fits_expression c
    rwa [hread] at hall
  have hrejoined := hextends.rejoined (Expr.rejoined_of_not_binary hoperand)
  rw [hread]
  refine ⟨rfl, rfl, fun e => ⟨fun h => ?_, fun h => ?_⟩⟩
  · change e.rejoined = v at h
    rw [← e.inorder_rejoined, ← e.fits_rejoined, h]
    exact ⟨hinorder, hvfits⟩
  · rw [Expr.eq_of_inorder h.2 hvfits (h.1.trans hinorder.symm)]
    exact hrejoined

/-- Every operator in a parsed tree has its level, and its operands bind as tightly as they must, so
none of them needs parentheses and the layout puts none around them, whatever is wrong with the
tokens. Where operands and binary operators are read in turn, an expression is the one tree over
them that fits. -/
theorem climbing (mode : Mode) (tokens : List Token) {ρ : Reach} {c : Cursor ρ} (hc : c.Ended) :
    (∀ e ∈ (parse mode tokens).root.nodes,
        e.Fits ∧ e.operandsFree = true ∧ e.layout = e.layoutPlain)
      ∧ (parse mode tokens).root.mapExpr Expr.grouped = (parse mode tokens).root
      ∧ (∃ s, Joints tiers (operand c).cursor s)
      ∧ ∀ s, Joints tiers (operand c).cursor s →
        (expression c).diagnostics = (operand c).diagnostics ++ s.diagnostics
          ∧ (expression c).cursor = s.cursor
          ∧ ∀ e : Expr, e.rejoined = (expression c).value
            ↔ e.inorder = ((operand c).value, s.value) ∧ ∀ x ∈ e.nodes, x.Fits := by
  have hfits : ∀ e ∈ (parse mode tokens).root.exprs, ∀ x ∈ e.nodes, x.Fits :=
    exprs_parse fits_expression (List.forall_mem_nil _) mode tokens
  have hended : (operand c.short).cursor.Ended := forward_operand.ended hc
  rw [stopsShort_operand.at hc, stopsShort_expression.at hc]
  refine ⟨fun e he => ?_, ?_, ?_, fun s hs => ?_⟩
  · obtain ⟨e', he', he⟩ := List.mem_flatMap.1 he
    have hfree := (hfits e' he' e he).operandsFree
    exact ⟨hfits e' he' e he, hfree, Expr.layout_of_operandsFree hfree⟩
  · refine Root.mapExpr_eq_self _ fun e he => e.grouped_eq_self fun x hx => ?_
    exact (hfits e he x hx).operandsFree
  · obtain ⟨s, hs⟩ := exists_joints hended
    exact ⟨_, hs.holding hended c.behind⟩
  · obtain ⟨s₀, hs₀, rfl⟩ := hs.exists_short hended
    obtain ⟨hdiagnostics, hcursor, hvalue⟩ := expression_of_joints (c := c.short) hc hs₀
    simp only [Step.value_holding, Step.diagnostics_holding, Step.cursor_holding]
    exact ⟨hdiagnostics, congrArg (Cursor.holding · c.behind) hcursor, hvalue⟩

/-- A difference with a product, `1-2*3`. -/
def productSubtracted : List Token :=
  [⟨.intLit, "1", ⟨⟨1, 1⟩, ⟨1, 2⟩⟩, false⟩, ⟨.minus, "-", ⟨⟨1, 2⟩, ⟨1, 3⟩⟩, false⟩,
    ⟨.intLit, "2", ⟨⟨1, 3⟩, ⟨1, 4⟩⟩, false⟩, ⟨.star, "*", ⟨⟨1, 4⟩, ⟨1, 5⟩⟩, false⟩,
    ⟨.intLit, "3", ⟨⟨1, 5⟩, ⟨1, 6⟩⟩, false⟩]

/-- The tree of a difference with a product is the one over its three literals that fits. -/
theorem climbing_productSubtracted :
    (Cursor.ofTokens productSubtracted : Cursor .whole).Ended
      ∧ (parse .statements productSubtracted).root.mapExpr Expr.grouped
        = (parse .statements productSubtracted).root
      ∧ ∀ e : Expr, e.rejoined = (expression (.ofTokens productSubtracted : Cursor .whole)).value
        ↔ e.inorder = (.literal ⟨⟨1, 1⟩, ⟨1, 2⟩⟩ .int "1",
            [⟨.sub, ⟨⟨1, 2⟩, ⟨1, 3⟩⟩, .literal ⟨⟨1, 3⟩, ⟨1, 4⟩⟩ .int "2"⟩,
              ⟨.mul, ⟨⟨1, 4⟩, ⟨1, 5⟩⟩, .literal ⟨⟨1, 5⟩, ⟨1, 6⟩⟩ .int "3"⟩])
          ∧ ∀ x ∈ e.nodes, x.Fits := by
  have hended : (Cursor.ofTokens productSubtracted : Cursor .whole).Ended := rfl
  obtain ⟨-, hgrouped, -, hjoints⟩ := climbing .statements productSubtracted hended
  have hminus : tierOp? ⟨.additive, [(.plus, .add), (.minus, .sub)]⟩
      (operand (.ofTokens productSubtracted : Cursor .whole)).cursor = some .sub := rfl
  have hstar : tierOp? ⟨.multiplicative, [(.star, .mul), (.slash, .div), (.percent, .mod)]⟩
      (operand (operand (.ofTokens productSubtracted : Cursor .whole)).cursor.advance).cursor
        = some .mul := rfl
  have hend : NoneJoins tiers (operand (operand (operand
      (.ofTokens productSubtracted : Cursor .whole)).cursor.advance).cursor.advance).cursor := by
    unfold NoneJoins
    decide
  have hread := hjoints _ (.some (by decide) hminus (.some (by decide) hstar (.none hend)))
  exact ⟨hended, hgrouped, hread.2.2⟩

end JavaPrimer
