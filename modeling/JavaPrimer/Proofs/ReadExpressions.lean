import JavaPrimer.Proofs.Grouping
import JavaPrimer.Proofs.SafeParsing

/-!
# Where the expressions of a tree come from

The expressions that stand in statements and fields are read by one step of the parser, or they are
missing. So what holds of every expression that is read, and of a missing one, holds of all
expressions of every tree that is parsed, whatever is wrong with the tokens.

* `Stmt.exprs`, `Member.exprs`, `Root.exprs` — the expressions that stand in a tree;
* `Expr.nodes`, `Root.nodes` — these and all below them;
* `Root.mapExpr_eq_self` — changing expressions that stay the same changes no tree;
* `Parse.Yields` — what holds of the value of a step, wherever it starts;
* `exprs_parse` — where the expressions of a parsed tree come from.
-/

namespace JavaPrimer

/-! ### Expressions of a tree -/

mutual

/-- The expressions that stand in a statement. -/
def Stmt.exprs : Stmt → List Expr
  | .block _ stmts => stmtsExprs stmts
  | .varDecl _ _ _ _ init => [init]
  | .print _ _ arg => [arg]
  | .expr _ target _ _ value => [target, value]
  | .missing => []

/-- The expressions that stand in a list of statements. -/
def stmtsExprs : List Stmt → List Expr
  | [] => []
  | x :: rest => x.exprs ++ stmtsExprs rest

end

/-- The expressions that stand in a member. -/
def Member.exprs : Member → List Expr
  | .main _ _ _ body => stmtsExprs ((body.map Block.stmts).getD [])
  | .field _ _ _ _ _ init => [init]

/-- The expressions that stand in a tree. -/
def Root.exprs : Root → List Expr
  | .program _ classes => classes.flatMap fun c => c.members.flatMap Member.exprs
  | .statements _ stmts => stmtsExprs stmts

theorem stmtsExprs_eq (xs : List Stmt) : stmtsExprs xs = xs.flatMap Stmt.exprs := by
  induction xs with
  | nil => rfl
  | cons x xs ih => rw [stmtsExprs, ih, List.flatMap_cons]

mutual

/-- An expression and all expressions below it. -/
def Expr.nodes : Expr → List Expr
  | .binary s level op t left right =>
    .binary s level op t left right :: (left.nodes ++ right.nodes)
  | .unary s op e => .unary s op e :: e.nodes
  | .step s op e => .step s op e :: e.nodes
  | .cast s type e => .cast s type e :: e.nodes
  | .paren s e => .paren s e :: e.nodes
  | .literal s sort raw => [.literal s sort raw]
  | .name s head selectors => .name s head selectors :: selectorsNodes selectors
  | .new s className args => .new s className args :: exprsNodes args
  | .bad s => [.bad s]
  | .missing => []

/-- A list of expressions and all expressions below them. -/
def exprsNodes : List Expr → List Expr
  | [] => []
  | e :: rest => e.nodes ++ exprsNodes rest

/-- All expressions in a selector. -/
def Selector.nodes : Selector → List Expr
  | .field _ _ => []
  | .call _ args => exprsNodes args

/-- All expressions in a list of selectors. -/
def selectorsNodes : List Selector → List Expr
  | [] => []
  | x :: rest => x.nodes ++ selectorsNodes rest

end

/-- All expressions in a tree, down to the leaves. -/
def Root.nodes (x : Root) : List Expr := x.exprs.flatMap Expr.nodes

theorem exprsNodes_eq (es : List Expr) : exprsNodes es = es.flatMap Expr.nodes := by
  induction es with
  | nil => rfl
  | cons e es ih => rw [exprsNodes, ih, List.flatMap_cons]

theorem selectorsNodes_eq (xs : List Selector) : selectorsNodes xs = xs.flatMap Selector.nodes := by
  induction xs with
  | nil => rfl
  | cons x xs ih => rw [selectorsNodes, ih, List.flatMap_cons]

/-! ### Changing expressions that stay the same -/

section Same

variable {f : Expr → Expr}

theorem Stmt.mapExpr_eq_self (x : Stmt) (h : ∀ e ∈ x.exprs, f e = e) : x.mapExpr f = x := by
  induction x using Stmt.byParts with
  | block s stmts ih =>
    rw [exprs, stmtsExprs_eq] at h
    rw [mapExpr, mapStmts_eq]
    refine congrArg (Stmt.block s) ((List.map_congr_left fun x hx => ?_).trans (List.map_id stmts))
    exact ih x hx fun e he => h e (List.mem_flatMap.2 ⟨x, hx, he⟩)
  | varDecl s isFinal type name init => rw [mapExpr, h init List.mem_cons_self]
  | print s method arg => rw [mapExpr, h arg List.mem_cons_self]
  | expr s target op t value =>
    rw [mapExpr, h target List.mem_cons_self, h value (List.mem_cons_of_mem _ List.mem_cons_self)]
  | missing => rfl

theorem stmts_mapExpr_eq_self {xs : List Stmt} (h : ∀ e ∈ stmtsExprs xs, f e = e) :
    xs.map (Stmt.mapExpr f) = xs := by
  rw [stmtsExprs_eq] at h
  refine (List.map_congr_left fun x hx => ?_).trans (List.map_id xs)
  exact x.mapExpr_eq_self fun e he => h e (List.mem_flatMap.2 ⟨x, hx, he⟩)

theorem Member.mapExpr_eq_self (x : Member) (h : ∀ e ∈ x.exprs, f e = e) : x.mapExpr f = x := by
  cases x with
  | main s name param body =>
    cases body with
    | none => rfl
    | some b =>
      have hbody : b.stmts.map (Stmt.mapExpr f) = b.stmts := stmts_mapExpr_eq_self h
      rw [mapExpr, Option.map_some, Block.mapExpr, hbody]
  | field s modifiers isFinal type name init => rw [mapExpr, h init List.mem_cons_self]

theorem Root.mapExpr_eq_self (x : Root) (h : ∀ e ∈ x.exprs, f e = e) : x.mapExpr f = x := by
  cases x with
  | statements s stmts => rw [mapExpr, stmts_mapExpr_eq_self h]
  | program s classes =>
    refine congrArg (Root.program s)
      ((List.map_congr_left fun c hc => ?_).trans (List.map_id classes))
    have hmembers : c.members.map (Member.mapExpr f) = c.members := by
      refine (List.map_congr_left fun x hx => ?_).trans (List.map_id c.members)
      exact x.mapExpr_eq_self fun e he =>
        h e (List.mem_flatMap.2 ⟨c, hc, List.mem_flatMap.2 ⟨x, hx, he⟩⟩)
    rw [ClassDecl.mapExpr, hmembers]
    rfl

end Same

/-! ### Values of steps -/

namespace Parse

variable {α β : Type} {Q : α → Prop}

/-- Wherever a step starts, its value has a property. -/
def Yields (Q : α → Prop) (p : Parse .short α) : Prop := ∀ c, Q (p c).value

theorem yields_pure {a : α} (h : Q a) : Yields Q (Pure.pure a : Parse .short α) := fun _ => h

theorem yields_bind {R : β → Prop} {p : Parse .short β} {f : β → Parse .short α} (hp : Yields R p)
    (hf : ∀ b, R b → Yields Q (f b)) : Yields Q (p >>= f) := fun c => hf _ (hp c) _

/-- What a step gives may have no part in it. -/
theorem yields_then {p : Parse .short β} {f : β → Parse .short α} (hf : ∀ b, Yields Q (f b)) :
    Yields Q (p >>= f) := fun _ => hf _ _

theorem yields_map {R : β → Prop} {p : Parse .short β} {f : β → α} (hp : Yields R p)
    (hf : ∀ b, R b → Q (f b)) : Yields Q (f <$> p) := by
  intro c
  rw [map_apply]
  exact hf _ (hp c)

theorem yields_spanned {node : Parse .short (Span → α)}
    (h : Yields (fun build => ∀ s, Q (build s)) node) : Yields Q (spanned node) :=
  yields_then fun _ => yields_bind h fun _ hbuild => yields_then fun s => yields_pure (hbuild s)

theorem yields_untilNone {item : Parse .short (Option α)}
    (h : Yields (fun x => ∀ a ∈ x, Q a) item) :
    Yields (fun xs => ∀ a ∈ xs, Q a) (untilNone item) := by
  have hcollect : ∀ n, Yields (fun xs => ∀ a ∈ xs, Q a) (collectUntil item n) := by
    intro n
    induction n with
    | zero => exact yields_pure (List.forall_mem_nil _)
    | succ n ih =>
      refine yields_bind h fun x hx => ?_
      cases x with
      | none => exact yields_pure (List.forall_mem_nil _)
      | some x =>
        exact yields_bind ih fun xs hxs => yields_pure (List.forall_mem_cons.2 ⟨hx x rfl, hxs⟩)
  exact fun c => hcollect _ c

theorem yields_whileMore {more : Cursor → Bool} {skip : Nat → Cursor → Cursor}
    {item : Parse .short (Option α)} (h : Yields (fun x => ∀ a ∈ x, Q a) item) :
    Yields (fun xs => ∀ a ∈ xs, Q a) (whileMore more (recovering skip item)) :=
  fun _ => leads_whileMore h

end Parse

/-! ### Expressions of a parsed tree -/

namespace Parse

section Statements

variable {Q : Expr → Prop} (hread : Yields Q expression) (hmissing : Q .missing)

include hread

theorem yields_assigned : Yields Q assigned :=
  yields_bind hread fun value hvalue => yields_then fun b => by
    cases b
    · exact yields_then fun _ => yields_pure hvalue
    · exact yields_pure hvalue

include hmissing

theorem yields_initialized : Yields Q initialized :=
  yields_then fun b => by
    cases b
    · exact yields_then fun _ => yields_pure hmissing
    · exact yields_then fun _ => yields_assigned hread

/-- A type, a name and an initializer, as far as they go; `build` makes a node of them. -/
theorem yields_declared {α : Type} {Q' : (Span → α) → Prop}
    (build : Option TypeSpec → Ident → Expr → Span → α)
    (h : ∀ type name init, Q init → Q' (build type name init)) : Yields Q' (do
      match ← typeSpec with
      | none => return build none .absent .missing
      | some type =>
        let (name, there) ← expectIdent
        if there then
          let init ← initialized
          return build (some type) name init
        else return build (some type) name .missing) :=
  yields_then fun type => by
    cases type with
    | none => exact yields_pure (h _ _ _ hmissing)
    | some type =>
      refine yields_then fun ⟨name, there⟩ => ?_
      cases there
      · exact yields_pure (h _ _ _ hmissing)
      · exact yields_bind (yields_initialized hread hmissing) fun init hinit =>
          yields_pure (h _ _ _ hinit)

theorem yields_varDecl : Yields (fun x => ∀ e ∈ x.exprs, Q e) varDecl :=
  yields_spanned (yields_then fun isFinal =>
    yields_declared hread hmissing (fun type name init s => Stmt.varDecl s isFinal type name init)
      fun _ _ _ hinit _ => List.forall_mem_singleton.2 hinit)

theorem yields_printStmt : Yields (fun x => ∀ e ∈ x.exprs, Q e) printStmt := by
  have hargument : Yields Q printArgument := yields_then fun b => by
    cases b
    · exact yields_pure hmissing
    · exact hread
  have hnone : ∀ method s, ∀ e ∈ (Stmt.print s method .missing).exprs, Q e :=
    fun _ _ => List.forall_mem_singleton.2 hmissing
  refine yields_spanned ?_
  iterate 4 refine yields_then fun _ => ?_
  refine yields_then fun ⟨method, there⟩ => ?_
  cases there
  · exact yields_pure (hnone method)
  refine yields_then fun opened => ?_
  cases opened
  · exact yields_pure (hnone method)
  refine yields_bind hargument fun arg harg => yields_then fun panicking => ?_
  have hprint : ∀ s, ∀ e ∈ (Stmt.print s method arg).exprs, Q e :=
    fun _ => List.forall_mem_singleton.2 harg
  cases panicking
  · refine yields_then fun closed => ?_
    cases closed
    · exact yields_pure hprint
    · exact yields_then fun _ => yields_pure hprint
  · exact yields_pure hprint

theorem yields_exprStmt : Yields (fun x => ∀ e ∈ x.exprs, Q e) exprStmt := by
  refine yields_spanned (yields_bind hread fun target htarget => yields_then fun panicking => ?_)
  have halone : ∀ s, ∀ e ∈ (Stmt.expr s target .none .nowhere .missing).exprs, Q e :=
    fun _ => List.forall_mem_cons.2 ⟨htarget, List.forall_mem_singleton.2 hmissing⟩
  cases panicking
  case true => exact yields_pure halone
  refine yields_then fun found => ?_
  cases found with
  | none => exact yields_then fun _ => yields_pure halone
  | some op =>
    refine yields_then fun mark => ?_
    have hvalue : Yields (fun build => ∀ s, ∀ e ∈ Stmt.exprs (build s), Q e)
        (assigned >>= fun value =>
          Pure.pure fun span => Stmt.expr span target op mark.span value) :=
      yields_bind (yields_assigned hread) fun value hvalue => yields_pure fun _ =>
        List.forall_mem_cons.2 ⟨htarget, List.forall_mem_singleton.2 hvalue⟩
    split
    · exact hvalue
    · exact yields_then fun _ => hvalue

omit hread hmissing in
theorem yields_block {stmt : Parse .short (Option Stmt)}
    (h : Yields (fun x => ∀ y ∈ x, ∀ e ∈ y.exprs, Q e) stmt) :
    Yields (fun b => ∀ e ∈ stmtsExprs b.stmts, Q e) (block stmt) := by
  refine yields_spanned (yields_then fun _ => ?_)
  refine yields_bind (yields_whileMore h) fun stmts hstmts => ?_
  refine yields_then fun _ => yields_pure fun _ => ?_
  rw [stmtsExprs_eq]
  exact List.forall_mem_flatMap.2 hstmts

theorem yields_statementWith {inner : Parse .short (Option Stmt)}
    (h : Yields (fun x => ∀ y ∈ x, ∀ e ∈ y.exprs, Q e) inner) :
    Yields (fun x => ∀ y ∈ x, ∀ e ∈ y.exprs, Q e) (statementWith inner) := by
  have hnone : ∀ y ∈ (none : Option Stmt), ∀ e ∈ y.exprs, Q e := fun _ hy => nomatch hy
  have hsome : ∀ {p : Parse .short Stmt}, Yields (fun x => ∀ e ∈ x.exprs, Q e) p →
      Yields (fun x => ∀ y ∈ x, ∀ e ∈ y.exprs, Q e) (some <$> p) :=
    fun hp => yields_map hp fun _ hx _ hy => Option.some.inj hy ▸ hx
  refine yields_then fun c => ?_
  split
  · exact yields_then fun _ => yields_pure hnone
  split
  · exact hsome (yields_printStmt hread hmissing)
  split
  · exact hsome (yields_varDecl hread hmissing)
  split
  · exact hsome (yields_exprStmt hread hmissing)
  split
  · exact yields_bind (yields_block h) fun b hb => yields_pure fun _ hy => Option.some.inj hy ▸ hb
  · exact yields_then fun _ => yields_pure hnone

theorem yields_statement : Yields (fun x => ∀ y ∈ x, ∀ e ∈ y.exprs, Q e) statement := by
  have hwithin : ∀ n, Yields (fun x => ∀ y ∈ x, ∀ e ∈ y.exprs, Q e) (statementWithin n) := by
    intro n
    induction n with
    | zero => exact yields_pure fun _ hy => nomatch hy
    | succ n ih => exact yields_statementWith hread hmissing ih
  exact fun c => hwithin (c.rest.length + 1) c

theorem yields_member : Yields (fun x => ∀ e ∈ x.exprs, Q e) member := by
  have hnone : ∀ name param s, ∀ e ∈ (Member.main s name param none).exprs, Q e :=
    fun _ _ _ _ he => nomatch he
  have hbody : Yields (fun body => ∀ name param s, ∀ e ∈ (Member.main s name param body).exprs, Q e)
      methodBody := yields_then fun b => by
    cases b
    · exact yields_then fun _ => yields_pure hnone
    · exact yields_map (yields_block (yields_statement hread hmissing)) fun _ hb _ _ _ => hb
  refine yields_then fun b => ?_
  cases b
  · exact yields_spanned (yields_then fun modifiers => yields_declared hread hmissing
      (fun type name init s => Member.field s (modifiers.map (·.value))
        (modifiers.any (·.kind = .kwFinal)) type name init)
      fun _ _ _ hinit _ => List.forall_mem_singleton.2 hinit)
  · refine yields_spanned ?_
    iterate 3 refine yields_then fun _ => ?_
    refine yields_then fun ⟨name, named⟩ => ?_
    cases named
    · exact yields_pure (hnone name _)
    refine yields_then fun opened => ?_
    cases opened
    · exact yields_pure (hnone name _)
    refine yields_then fun ⟨param, there⟩ => ?_
    cases there
    · exact yields_pure (hnone name param)
    refine yields_then fun closed => ?_
    cases closed
    · exact yields_pure (hnone name param)
    · exact yields_bind hbody fun body hb => yields_pure (hb name param)

theorem yields_classDecl :
    Yields (fun c => ∀ x ∈ c.members, ∀ e ∈ x.exprs, Q e) classDecl := by
  have hnone : ∀ x ∈ ([] : List Member), ∀ e ∈ x.exprs, Q e := List.forall_mem_nil _
  have hmember : Yields (fun x => ∀ m ∈ x, ∀ e ∈ m.exprs, Q e) (some <$> member) :=
    yields_map (yields_member hread hmissing) fun _ hx _ hm => Option.some.inj hm ▸ hx
  refine yields_spanned ?_
  iterate 2 refine yields_then fun _ => ?_
  refine yields_then fun ⟨name, named⟩ => ?_
  cases named
  · exact yields_pure fun _ => hnone
  refine yields_then fun opened => ?_
  cases opened
  · exact yields_pure fun _ => hnone
  exact yields_bind (yields_whileMore hmember) fun members hmembers =>
    yields_then fun _ => yields_pure fun _ => hmembers

theorem yields_statements : Yields (fun x => ∀ e ∈ x.exprs, Q e) statements := by
  refine yields_spanned (yields_bind (yields_whileMore (yields_statement hread hmissing))
    fun stmts hstmts => yields_pure fun _ => ?_)
  rw [Root.exprs, stmtsExprs_eq]
  exact List.forall_mem_flatMap.2 hstmts

theorem yields_program : Yields (fun x => ∀ e ∈ x.exprs, Q e) program := by
  have hclass : Yields (fun x => ∀ c ∈ x, ∀ m ∈ ClassDecl.members c, ∀ e ∈ m.exprs, Q e)
      classOrSkip := yields_then fun b => by
    cases b
    · exact yields_then fun _ => yields_then fun _ => yields_pure fun _ hc => nomatch hc
    · exact yields_map (yields_classDecl hread hmissing) fun _ hx _ hc => Option.some.inj hc ▸ hx
  have hclasses : Yields (fun x => ∀ c ∈ x.1, ∀ m ∈ ClassDecl.members c, ∀ e ∈ m.exprs, Q e)
      (listen classes) := fun c => yields_whileMore hclass c
  refine yields_spanned (yields_bind hclasses fun ⟨xs, errors⟩ hxs => ?_)
  have hroot : ∀ s, ∀ e ∈ (Root.program s xs).exprs, Q e := fun _ =>
    List.forall_mem_flatMap.2 fun c hc => List.forall_mem_flatMap.2 (hxs c hc)
  dsimp only
  split
  · exact yields_then fun _ => yields_then fun _ => yields_pure hroot
  · exact yields_pure hroot

end Statements

end Parse

/-- The expressions of a parsed tree were read as expressions, or they are missing. -/
theorem exprs_parse {Q : Expr → Prop} (hread : Parse.Yields Q Parse.expression)
    (hmissing : Q .missing) (mode : Mode) (tokens : List Token) :
    ∀ e ∈ (parse mode tokens).root.exprs, Q e := by
  rw [parse_short]
  cases mode with
  | full => exact Parse.yields_program hread hmissing (.ofTokens tokens)
  | statements => exact Parse.yields_statements hread hmissing (.ofTokens tokens)

end JavaPrimer
