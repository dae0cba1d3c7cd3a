import JavaPrimer.Proofs.Bare
import JavaPrimer.Proofs.LayoutCutTree

/-!
# Grouping

A tree that was put together by hand may have an operator directly below another one that binds
tighter. Its layout adds parentheses there. Adding them to the tree itself gives a tree of the same
words in which no operand needs them, and taking all groups out of both trees gives the same tree.

* `Operands.asBuilt`, `Operands.tidy` — trees built by hand, and those with their parentheses added;
* `Expr.rewrite`, `Stmt.mapExpr`, `Root.mapExpr` — rewriting the expressions of a tree;
* `Expr.grouped`, `Expr.unparen` — the two rewritings;
* `Root.words_grouped`, `Root.spelled_grouped`, `Root.unparen_grouped` — how the three trees fit.
-/

namespace JavaPrimer

/-- The operands of a tree put together by hand: any, but a step operator stands behind a name, a
group or an object creation. -/
def Operands.asBuilt : Operands where
  beside _ _ _ := true
  behind _ := true
  before := Expr.takesStep

/-- The same with no operand that needs parentheses. -/
def Operands.tidy : Operands where
  beside level onRight e := !e.needsParens level onRight
  behind e := !e.isBinary
  before := Expr.takesStep

/-! ### Rewriting expressions -/

mutual

/-- An expression rewritten node by node, from the leaves up. -/
def Expr.rewrite (f : Expr → Expr) : Expr → Expr
  | .binary s level op t left right => f (.binary s level op t (left.rewrite f) (right.rewrite f))
  | .unary s op e => f (.unary s op (e.rewrite f))
  | .step s op e => f (.step s op (e.rewrite f))
  | .cast s type e => f (.cast s type (e.rewrite f))
  | .paren s e => f (.paren s (e.rewrite f))
  | .literal s sort raw => f (.literal s sort raw)
  | .name s head selectors => f (.name s head (rewriteSelectors f selectors))
  | .new s className args => f (.new s className (rewriteExprs f args))
  | .bad s => f (.bad s)
  | .missing => f .missing

/-- Each of a list of expressions rewritten. -/
def rewriteExprs (f : Expr → Expr) : List Expr → List Expr
  | [] => []
  | e :: rest => e.rewrite f :: rewriteExprs f rest

/-- A selector with its arguments rewritten. -/
def Selector.rewrite (f : Expr → Expr) : Selector → Selector
  | .field s name => .field s name
  | .call s args => .call s (rewriteExprs f args)

/-- Each of a list of selectors rewritten. -/
def rewriteSelectors (f : Expr → Expr) : List Selector → List Selector
  | [] => []
  | x :: rest => x.rewrite f :: rewriteSelectors f rest

end

theorem rewriteExprs_eq (f : Expr → Expr) (es : List Expr) :
    rewriteExprs f es = es.map (Expr.rewrite f) := by
  induction es with
  | nil => rfl
  | cons e es ih => rw [rewriteExprs, ih, List.map_cons]

theorem rewriteSelectors_eq (f : Expr → Expr) (xs : List Selector) :
    rewriteSelectors f xs = xs.map (Selector.rewrite f) := by
  induction xs with
  | nil => rfl
  | cons x xs ih => rw [rewriteSelectors, ih, List.map_cons]

/-! ### Rewriting the expressions of a tree -/

mutual

/-- A statement with its expressions changed. -/
def Stmt.mapExpr (f : Expr → Expr) : Stmt → Stmt
  | .block s stmts => .block s (mapStmts f stmts)
  | .varDecl s isFinal type name init => .varDecl s isFinal type name (f init)
  | .print s method arg => .print s method (f arg)
  | .expr s target op t value => .expr s (f target) op t (f value)
  | .missing => .missing

/-- Each of a list of statements with its expressions changed. -/
def mapStmts (f : Expr → Expr) : List Stmt → List Stmt
  | [] => []
  | x :: rest => x.mapExpr f :: mapStmts f rest

end

/-- A block with its expressions changed. -/
def Block.mapExpr (f : Expr → Expr) (b : Block) : Block := ⟨b.span, b.stmts.map (Stmt.mapExpr f)⟩

/-- A member with its expressions changed. -/
def Member.mapExpr (f : Expr → Expr) : Member → Member
  | .main s name param body => .main s name param (body.map (Block.mapExpr f))
  | .field s modifiers isFinal type name init => .field s modifiers isFinal type name (f init)

/-- A class with its expressions changed. -/
def ClassDecl.mapExpr (f : Expr → Expr) (c : ClassDecl) : ClassDecl :=
  ⟨c.span, c.name, c.members.map (Member.mapExpr f)⟩

/-- A whole tree with its expressions changed. -/
def Root.mapExpr (f : Expr → Expr) : Root → Root
  | .program s classes => .program s (classes.map (ClassDecl.mapExpr f))
  | .statements s stmts => .statements s (stmts.map (Stmt.mapExpr f))

theorem mapStmts_eq (f : Expr → Expr) (xs : List Stmt) : mapStmts f xs = xs.map (Stmt.mapExpr f) := by
  induction xs with
  | nil => rfl
  | cons x xs ih => rw [mapStmts, ih, List.map_cons]

/-! ### Adding groups and taking them out -/

/-- An expression as a group, if it is needed. -/
def Expr.groupedIf (needed : Bool) (e : Expr) : Expr := if needed then .paren .nowhere e else e

/-- A group around each operand of an expression that needs one. -/
def Expr.groupOperands : Expr → Expr
  | .binary s level op t left right =>
    .binary s level op t (left.groupedIf (left.needsParens level false))
      (right.groupedIf (right.needsParens level true))
  | .unary s op e => .unary s op (e.groupedIf e.isBinary)
  | .cast s type e => .cast s type (e.groupedIf e.isBinary)
  | e => e

/-- What stands in a group. -/
def Expr.ungroup : Expr → Expr
  | .paren _ e => e
  | e => e

/-- An expression with a group around each operand that needs one. -/
def Expr.grouped : Expr → Expr := Expr.rewrite Expr.groupOperands

/-- An expression without groups. -/
def Expr.unparen : Expr → Expr := Expr.rewrite Expr.ungroup

namespace Expr

theorem needsParens_grouped (level : Level) (onRight : Bool) (e : Expr) :
    e.grouped.needsParens level onRight = e.needsParens level onRight := by
  cases e <;> rfl

theorem isBinary_grouped (e : Expr) : e.grouped.isBinary = e.isBinary := by
  cases e <;> rfl

theorem takesStep_grouped (e : Expr) : e.grouped.takesStep = e.takesStep := by
  cases e <;> rfl

theorem isAssignable_grouped (e : Expr) : e.grouped.isAssignable = e.isAssignable := by
  induction e using Expr.byParts with
  | name s head selectors ih =>
    simp only [grouped, rewrite, groupOperands, isAssignable, rewriteSelectors_eq,
      List.getLast?_map]
    rcases selectors.getLast? with _ | ⟨_ | _⟩ <;> rfl
  | paren s e ih => exact ih
  | _ => rfl

/-! ### A group and what it stands for -/

variable (needed : Bool) (e : Expr)

theorem words_groupedIf : (e.groupedIf needed).words = enclosed needed e.words := by
  cases needed <;> rfl

theorem unparen_groupedIf : (e.groupedIf needed).bare.unparen = e.bare.unparen := by
  cases needed <;> rfl

theorem spelled_groupedIf {ok : Operands} (h : e.Spelled ok) : (e.groupedIf needed).Spelled ok := by
  cases needed <;> exact h

theorem needsParens_groupedIf (level : Level) (onRight : Bool) :
    (e.groupedIf (e.needsParens level onRight)).needsParens level onRight = false := by
  cases h : e.needsParens level onRight with
  | false => exact h
  | true => rfl

theorem isBinary_groupedIf : (e.groupedIf e.isBinary).isBinary = false := by
  cases h : e.isBinary with
  | false => exact h
  | true => rfl

theorem beside_groupedIf (level : Level) (onRight : Bool) :
    Operands.tidy.beside level onRight (e.groupedIf (e.needsParens level onRight)) = true :=
  congrArg (!·) (needsParens_groupedIf e level onRight)

theorem behind_groupedIf : Operands.tidy.behind (e.groupedIf e.isBinary) = true :=
  congrArg (!·) (isBinary_groupedIf e)

end Expr

/-! ### Expressions -/

theorem argsWords_grouped {es : List Expr} (h : ∀ e ∈ es, e.grouped.words = e.words) :
    argsWords (rewriteExprs Expr.groupOperands es) = argsWords es := by
  have hmore : ∀ xs : List Expr, (∀ e ∈ xs, e.grouped.words = e.words) →
      moreArgsWords (rewriteExprs Expr.groupOperands xs) = moreArgsWords xs := by
    intro xs hxs
    rw [moreArgsWords_eq, moreArgsWords_eq, rewriteExprs_eq, List.flatMap_map]
    exact List.flatMap_congr fun e he => congrArg (texts [","] ++ ·) (hxs e he)
  cases es with
  | nil => rfl
  | cons e es =>
    have he : (e.rewrite Expr.groupOperands).words = e.words := h e List.mem_cons_self
    rw [rewriteExprs, argsWords, argsWords, he,
      hmore es fun x hx => h x (List.mem_cons_of_mem e hx)]

theorem selectorsWords_grouped {xs : List Selector}
    (h : ∀ t args, Selector.call t args ∈ xs → ∀ e ∈ args, e.grouped.words = e.words) :
    selectorsWords (rewriteSelectors Expr.groupOperands xs) = selectorsWords xs := by
  rw [selectorsWords_eq, selectorsWords_eq, rewriteSelectors_eq, List.flatMap_map]
  refine List.flatMap_congr fun x hx => ?_
  cases x with
  | field s name => rfl
  | call s args => rw [Selector.rewrite, Selector.words, Selector.words, argsWords_grouped (h s args hx)]

/-- The words of a tree hold its groups already. -/
theorem Expr.words_grouped (e : Expr) : e.grouped.words = e.words := by
  induction e using Expr.byParts with
  | binary s level op t left right ihl ihr =>
    show (Expr.binary s level op t (left.grouped.groupedIf (left.grouped.needsParens level false))
      (right.grouped.groupedIf (right.grouped.needsParens level true))).words = _
    rw [words, needsParens_groupedIf, needsParens_groupedIf, words_groupedIf, words_groupedIf,
      needsParens_grouped, needsParens_grouped, ihl, ihr, words]
    rfl
  | unary s op e ih =>
    show (Expr.unary s op (e.grouped.groupedIf e.grouped.isBinary)).words = _
    rw [words, isBinary_groupedIf, words_groupedIf, isBinary_grouped, ih, words]
    rfl
  | step s op e ih =>
    show e.grouped.words ++ [op.spelling] = _
    rw [ih, words]
  | cast s type e ih =>
    show (Expr.cast s type (e.grouped.groupedIf e.grouped.isBinary)).words = _
    rw [words, isBinary_groupedIf, words_groupedIf, isBinary_grouped, ih, words]
    rfl
  | paren s e ih =>
    show texts ["("] ++ (e.grouped.words ++ texts [")"]) = _
    rw [ih, words]
  | literal s sort raw => rfl
  | name s head selectors ih =>
    show head.name :: selectorsWords (rewriteSelectors groupOperands selectors) = _
    rw [selectorsWords_grouped ih, words]
  | new s className args ih =>
    show (Expr.new s className (rewriteExprs groupOperands args)).words = _
    rw [words, argsWords_grouped ih, words]
  | bad s => rfl
  | missing => rfl

theorem Expr.spelled_grouped (e : Expr) : e.Spelled .asBuilt → e.grouped.Spelled .tidy := by
  have hlist : ∀ args : List Expr, (∀ e ∈ args, e.Spelled .asBuilt → e.grouped.Spelled .tidy) →
      exprsSpelled .asBuilt args → exprsSpelled .tidy (rewriteExprs groupOperands args) := by
    intro args ih hargs
    rw [rewriteExprs_eq, exprsSpelled_iff, List.forall_mem_map]
    exact fun e he => ih e he (exprsSpelled_iff.1 hargs e he)
  induction e using Expr.byParts with
  | binary s level op t left right ihl ihr =>
    intro h
    obtain ⟨hop, -, -, hl, hr⟩ := h
    exact ⟨hop, beside_groupedIf _ level false, beside_groupedIf _ level true,
      spelled_groupedIf _ _ (ihl hl), spelled_groupedIf _ _ (ihr hr)⟩
  | unary s op e ih =>
    intro h
    obtain ⟨hop, -, he⟩ := h
    exact ⟨hop, behind_groupedIf _, spelled_groupedIf _ _ (ih he)⟩
  | step s op e ih =>
    intro h
    obtain ⟨hop, hstep, hbefore, he⟩ := h
    exact ⟨hop, hstep, (takesStep_grouped e).trans hbefore, ih he⟩
  | cast s type e ih =>
    intro h
    obtain ⟨htype, -, he⟩ := h
    exact ⟨htype, behind_groupedIf _, spelled_groupedIf _ _ (ih he)⟩
  | paren s e ih => exact ih
  | literal s sort raw => exact id
  | name s head selectors ih =>
    intro h
    obtain ⟨hhead, hsel⟩ := h
    refine ⟨hhead, ?_⟩
    rw [rewriteSelectors_eq, selectorsSpelled_iff, List.forall_mem_map]
    intro x hx
    have hx' := selectorsSpelled_iff.1 hsel x hx
    cases x with
    | field t name => exact hx'
    | call t args => exact hlist args (ih t args hx) hx'
  | new s className args ih =>
    intro h
    obtain ⟨hname, hargs⟩ := h
    exact ⟨hname, hlist args ih hargs⟩
  | bad s => exact id
  | missing => exact id

theorem unparenExprs_grouped {es : List Expr}
    (h : ∀ e ∈ es, e.grouped.bare.unparen = e.bare.unparen) :
    rewriteExprs Expr.ungroup (bareExprs (rewriteExprs Expr.groupOperands es))
      = rewriteExprs Expr.ungroup (bareExprs es) := by
  simp only [rewriteExprs_eq, bareExprs_eq, List.map_map]
  exact List.map_congr_left h

theorem Expr.unparen_grouped (e : Expr) : e.grouped.bare.unparen = e.bare.unparen := by
  induction e using Expr.byParts with
  | binary s level op t left right ihl ihr =>
    show Expr.binary _ level op _ (left.grouped.groupedIf _).bare.unparen
      (right.grouped.groupedIf _).bare.unparen = _
    rw [unparen_groupedIf, unparen_groupedIf, ihl, ihr]
    rfl
  | unary s op e ih =>
    show Expr.unary _ op (e.grouped.groupedIf _).bare.unparen = _
    rw [unparen_groupedIf, ih]
    rfl
  | step s op e ih => exact congrArg (Expr.step .nowhere op) ih
  | cast s type e ih =>
    show Expr.cast _ (type.map TypeSpec.bare) (e.grouped.groupedIf _).bare.unparen = _
    rw [unparen_groupedIf, ih]
    rfl
  | paren s e ih => exact ih
  | literal s sort raw => rfl
  | name s head selectors ih =>
    show Expr.name .nowhere head.bare (rewriteSelectors ungroup
      (bareSelectors (rewriteSelectors groupOperands selectors))) = Expr.name .nowhere head.bare
        (rewriteSelectors ungroup (bareSelectors selectors))
    simp only [rewriteSelectors_eq, bareSelectors_eq, List.map_map]
    refine congrArg (Expr.name .nowhere head.bare) (List.map_congr_left fun x hx => ?_)
    cases x with
    | field t name => rfl
    | call t args => exact congrArg (Selector.call .nowhere) (unparenExprs_grouped (ih t args hx))
  | new s className args ih =>
    exact congrArg (Expr.new .nowhere className.bare) (unparenExprs_grouped ih)
  | bad s => rfl
  | missing => rfl

/-! ### Statements -/

theorem initWords_grouped (init : Expr) : initWords init.grouped = initWords init := by
  cases init with
  | missing => rfl
  | _ => exact congrArg (texts ["="] ++ ·) (Expr.words_grouped _)

theorem Stmt.words_grouped (x : Stmt) : (x.mapExpr Expr.grouped).words = x.words := by
  induction x using Stmt.byParts with
  | block s stmts ih =>
    rw [mapExpr, words, words, mapStmts_eq, stmtsWords_eq, stmtsWords_eq, List.flatMap_map,
      List.flatMap_congr ih]
  | varDecl s isFinal type name init =>
    rw [mapExpr, words, words, declaredWords, declaredWords, initWords_grouped]
  | print s method arg => rw [mapExpr, words, words, Expr.words_grouped]
  | expr s target op t value =>
    rw [mapExpr, words, words, assignedWords, assignedWords, Expr.words_grouped,
      Expr.words_grouped]
  | missing => rfl

theorem Expr.spelledInit_grouped {init : Expr} (h : init.SpelledInit .asBuilt) :
    init.grouped.SpelledInit .tidy := by
  rcases h with rfl | h
  · exact .inl rfl
  · exact .inr (init.spelled_grouped h)

theorem Stmt.spelled_grouped (x : Stmt) :
    x.Spelled .asBuilt → (x.mapExpr Expr.grouped).Spelled .tidy := by
  induction x using Stmt.byParts with
  | block s stmts ih =>
    intro h
    rw [mapExpr, mapStmts_eq, Spelled, stmtsSpelled_iff, List.forall_mem_map]
    exact fun x hx => ih x hx (stmtsSpelled_iff.1 h x hx)
  | varDecl s isFinal type name init =>
    exact fun h => ⟨h.1, h.2.1, Expr.spelledInit_grouped h.2.2⟩
  | print s method arg => exact fun h => ⟨h.1, Expr.spelledInit_grouped h.2⟩
  | expr s target op t value =>
    intro h
    obtain ⟨htarget, hassign, hprint⟩ := h
    refine ⟨target.spelled_grouped htarget, ?_, ?_⟩
    · rcases hassign with ⟨rfl, rfl⟩ | ⟨hop, hassign, hvalue⟩
      · exact .inl ⟨rfl, rfl⟩
      · exact .inr ⟨hop, (Expr.isAssignable_grouped target).trans hassign,
          value.spelled_grouped hvalue⟩
    · rw [← Stmt.words_grouped] at hprint
      exact hprint
  | missing => exact id

theorem Stmt.unparen_grouped (x : Stmt) :
    (x.mapExpr Expr.grouped).bare.mapExpr Expr.unparen = x.bare.mapExpr Expr.unparen := by
  induction x using Stmt.byParts with
  | block s stmts ih =>
    simp only [mapExpr, bare, mapStmts_eq, bareStmts_eq, List.map_map]
    exact congrArg (Stmt.block .nowhere) (List.map_congr_left ih)
  | varDecl s isFinal type name init => simp only [mapExpr, bare, Expr.unparen_grouped]
  | print s method arg => simp only [mapExpr, bare, Expr.unparen_grouped]
  | expr s target op t value => simp only [mapExpr, bare, Expr.unparen_grouped]
  | missing => rfl

/-! ### Whole trees -/

theorem Member.words_grouped (x : Member) : (x.mapExpr Expr.grouped).words = x.words := by
  cases x with
  | field s modifiers isFinal type name init =>
    rw [mapExpr, words, words, declaredWords, declaredWords, initWords_grouped]
  | main s name param body =>
    cases body with
    | none => rfl
    | some b =>
      have hbody := (Stmt.block .nowhere b.stmts).words_grouped
      rw [Stmt.mapExpr, mapStmts_eq] at hbody
      simp only [mapExpr, words, Option.map_some, Option.getD_some, Block.mapExpr, hbody]

theorem Root.words_grouped (x : Root) : (x.mapExpr Expr.grouped).words = x.words := by
  cases x with
  | statements s stmts =>
    rw [mapExpr, words, words, List.flatMap_map]
    exact List.flatMap_congr fun x _ => x.words_grouped
  | program s classes =>
    rw [mapExpr, words, words, List.flatMap_map]
    refine List.flatMap_congr fun c _ => ?_
    rw [ClassDecl.mapExpr, ClassDecl.words, ClassDecl.words, List.flatMap_map,
      List.flatMap_congr fun m _ => m.words_grouped]

theorem Member.spelled_grouped {x : Member} (h : x.Spelled .asBuilt) :
    (x.mapExpr Expr.grouped).Spelled .tidy := by
  cases x with
  | field s modifiers isFinal type name init =>
    obtain ⟨hms, hfinal, htype, hname, hinit⟩ := h
    exact ⟨hms, hfinal, htype, hname, Expr.spelledInit_grouped hinit⟩
  | main s name param body =>
    obtain ⟨hname, hparam, b, rfl, hbody⟩ := h
    refine ⟨hname, hparam, _, rfl, ?_⟩
    rw [Block.mapExpr, stmtsSpelled_iff, List.forall_mem_map]
    exact fun x hx => x.spelled_grouped (stmtsSpelled_iff.1 hbody x hx)

theorem Root.spelled_grouped {x : Root} (h : x.Spelled .asBuilt) :
    (x.mapExpr Expr.grouped).Spelled .tidy := by
  cases x with
  | statements s stmts =>
    show ∀ y ∈ stmts.map (Stmt.mapExpr Expr.grouped), y.Spelled .tidy
    rw [List.forall_mem_map]
    exact fun y hy => y.spelled_grouped (h y hy)
  | program s classes =>
    obtain ⟨hne, hclasses⟩ := h
    refine ⟨fun hnil => hne (List.map_eq_nil_iff.1 hnil), ?_⟩
    rw [List.forall_mem_map]
    intro c hc
    obtain ⟨hname, hmembers⟩ := hclasses c hc
    refine ⟨hname, ?_⟩
    rw [ClassDecl.mapExpr, List.forall_mem_map]
    exact fun m hm => Member.spelled_grouped (hmembers m hm)

theorem Member.unparen_grouped (x : Member) :
    (x.mapExpr Expr.grouped).bare.mapExpr Expr.unparen = x.bare.mapExpr Expr.unparen := by
  cases x with
  | field s modifiers isFinal type name init => simp only [mapExpr, bare, Expr.unparen_grouped]
  | main s name param body =>
    cases body with
    | none => rfl
    | some b =>
      simp only [mapExpr, bare, Option.map_some, Block.mapExpr, Block.bare, List.map_map]
      rw [List.map_congr_left fun x _ => x.unparen_grouped]
      rfl

theorem Root.unparen_grouped (x : Root) :
    (x.mapExpr Expr.grouped).bare.mapExpr Expr.unparen = x.bare.mapExpr Expr.unparen := by
  cases x with
  | statements s stmts =>
    simp only [mapExpr, bare, List.map_map]
    exact congrArg (Root.statements .nowhere) (List.map_congr_left fun x _ => x.unparen_grouped)
  | program s classes =>
    simp only [mapExpr, bare, List.map_map]
    refine congrArg (Root.program .nowhere) (List.map_congr_left fun c _ => ?_)
    simp only [Function.comp_apply, ClassDecl.mapExpr, ClassDecl.bare, List.map_map]
    exact congrArg (ClassDecl.mk .nowhere c.name.bare)
      (List.map_congr_left fun m _ => m.unparen_grouped)

end JavaPrimer
