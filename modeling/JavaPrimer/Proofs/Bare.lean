import JavaPrimer.Proofs.Reading

/-!
# Trees without their spans

Two trees that differ only in where their parts stand are laid out alike and are read from the
same tokens.

* `Expr.bare`, `Stmt.bare`, `Member.bare`, `ClassDecl.bare`, `Root.bare` — the tree with every
  span forgotten;
* `Expr.isAssignable_bare` — what can be assigned to does not depend on spans;
* `Root.layout_bare` — neither does the layout.
-/

namespace JavaPrimer

/-- An identifier without its span. -/
def Ident.bare (x : Ident) : Ident := ⟨x.name, .nowhere⟩

/-- A written type without its span. -/
def TypeSpec.bare (x : TypeSpec) : TypeSpec := ⟨.nowhere, x.name, x.isArray⟩

mutual

/-- An expression without its spans. -/
def Expr.bare : Expr → Expr
  | .binary _ level op _ left right => .binary .nowhere level op .nowhere left.bare right.bare
  | .unary _ op e => .unary .nowhere op e.bare
  | .step _ op e => .step .nowhere op e.bare
  | .cast _ type e => .cast .nowhere (type.map TypeSpec.bare) e.bare
  | .paren _ e => .paren .nowhere e.bare
  | .literal _ sort raw => .literal .nowhere sort raw
  | .name _ head selectors => .name .nowhere head.bare (bareSelectors selectors)
  | .new _ className args => .new .nowhere className.bare (bareExprs args)
  | .bad _ => .bad .nowhere
  | .missing => .missing

/-- Each of a list of expressions without its spans. -/
def bareExprs : List Expr → List Expr
  | [] => []
  | e :: rest => e.bare :: bareExprs rest

/-- A selector without its spans. -/
def Selector.bare : Selector → Selector
  | .field _ name => .field .nowhere name.bare
  | .call _ args => .call .nowhere (bareExprs args)

/-- Each of a list of selectors without its spans. -/
def bareSelectors : List Selector → List Selector
  | [] => []
  | x :: rest => x.bare :: bareSelectors rest

end

mutual

/-- A statement without its spans. -/
def Stmt.bare : Stmt → Stmt
  | .block _ stmts => .block .nowhere (bareStmts stmts)
  | .varDecl _ isFinal type name init =>
    .varDecl .nowhere isFinal (type.map TypeSpec.bare) name.bare init.bare
  | .print _ method arg => .print .nowhere method.bare arg.bare
  | .expr _ target op _ value => .expr .nowhere target.bare op .nowhere value.bare
  | .missing => .missing

/-- Each of a list of statements without its spans. -/
def bareStmts : List Stmt → List Stmt
  | [] => []
  | x :: rest => x.bare :: bareStmts rest

end

/-- A block without its spans. -/
def Block.bare (b : Block) : Block := ⟨.nowhere, b.stmts.map Stmt.bare⟩

/-- A member without its spans. -/
def Member.bare : Member → Member
  | .main _ name param body => .main .nowhere name.bare param.bare (body.map Block.bare)
  | .field _ modifiers isFinal type name init =>
    .field .nowhere modifiers isFinal (type.map TypeSpec.bare) name.bare init.bare

/-- A class without its spans. -/
def ClassDecl.bare (c : ClassDecl) : ClassDecl :=
  ⟨.nowhere, c.name.bare, c.members.map Member.bare⟩

/-- A whole tree without its spans. -/
def Root.bare : Root → Root
  | .program _ classes => .program .nowhere (classes.map ClassDecl.bare)
  | .statements _ stmts => .statements .nowhere (stmts.map Stmt.bare)

/-! ### Lists -/

theorem bareExprs_eq (es : List Expr) : bareExprs es = es.map Expr.bare := by
  induction es with
  | nil => rfl
  | cons e es ih => rw [bareExprs, ih, List.map_cons]

theorem bareSelectors_eq (xs : List Selector) : bareSelectors xs = xs.map Selector.bare := by
  induction xs with
  | nil => rfl
  | cons x xs ih => rw [bareSelectors, ih, List.map_cons]

theorem bareStmts_eq (xs : List Stmt) : bareStmts xs = xs.map Stmt.bare := by
  induction xs with
  | nil => rfl
  | cons x xs ih => rw [bareStmts, ih, List.map_cons]

/-! ### What does not depend on spans -/

theorem Expr.isAssignable_bare (e : Expr) : e.bare.isAssignable = e.isAssignable := by
  induction e using Expr.byParts with
  | name s head selectors ih =>
    simp only [bare, isAssignable, bareSelectors_eq, List.getLast?_map]
    rcases selectors.getLast? with _ | ⟨_ | _⟩ <;> rfl
  | paren s e ih => exact ih
  | _ => rfl

/-! ### Layouts -/

theorem layoutType_bare (type : Option TypeSpec) :
    layoutType (type.map TypeSpec.bare) = layoutType type := by
  cases type <;> rfl

theorem Expr.isBinary_bare (e : Expr) : e.bare.isBinary = e.isBinary := by
  cases e <;> rfl

theorem Expr.needsParens_bare (level : Level) (onRight : Bool) (e : Expr) :
    e.bare.needsParens level onRight = e.needsParens level onRight := by
  cases e <;> rfl

theorem layoutArgs_bare {es : List Expr} (h : ∀ e ∈ es, e.bare.layout = e.layout) :
    layoutArgs (bareExprs es) = layoutArgs es := by
  induction es with
  | nil => rfl
  | cons e es ih =>
    rw [bareExprs, layoutArgs, layoutArgs, h e List.mem_cons_self,
      ih fun x hx => h x (List.mem_cons_of_mem e hx)]

theorem layoutSelectors_bare {xs : List Selector}
    (h : ∀ t args, Selector.call t args ∈ xs → ∀ e ∈ args, e.bare.layout = e.layout) :
    layoutSelectors (bareSelectors xs) = layoutSelectors xs := by
  induction xs with
  | nil => rfl
  | cons x xs ih =>
    have hx : x.bare.layout = x.layout := by
      cases x with
      | field s name => rfl
      | call s args =>
        rw [Selector.bare, Selector.layout, Selector.layout,
          layoutArgs_bare (h s args List.mem_cons_self)]
    rw [bareSelectors, layoutSelectors, layoutSelectors, hx,
      ih fun t args hmem => h t args (List.mem_cons_of_mem x hmem)]

theorem Expr.layout_bare (e : Expr) : e.bare.layout = e.layout := by
  induction e using Expr.byParts with
  | binary s level op t left right ihl ihr =>
    rw [bare, layout, layout, needsParens_bare, needsParens_bare, ihl, ihr]
  | unary s op e ih => rw [bare, layout, layout, isBinary_bare, ih]
  | step s op e ih => rw [bare, layout, layout, ih]
  | cast s type e ih => rw [bare, layout, layout, isBinary_bare, layoutType_bare, ih]
  | paren s e ih => rw [bare, layout, layout, ih]
  | literal s sort raw => rfl
  | name s head selectors ih => rw [bare, layout, layout, layoutSelectors_bare ih, Ident.bare]
  | new s className args ih => rw [bare, layout, layout, layoutArgs_bare ih, Ident.bare]
  | bad s => rfl
  | missing => rfl

theorem layoutInit_bare (init : Expr) : layoutInit init.bare = layoutInit init := by
  cases init with
  | missing => rfl
  | _ => exact congrArg (Text.ofString " = " ++ ·) (Expr.layout_bare _)

theorem layoutStmts_bare {xs : List Stmt} (h : ∀ x ∈ xs, ∀ depth, x.bare.layout depth = x.layout depth)
    (depth : Nat) : layoutStmts depth (xs.map Stmt.bare) = layoutStmts depth xs := by
  induction xs with
  | nil => rfl
  | cons x xs ih =>
    rw [List.map_cons, layoutStmts, layoutStmts, h x List.mem_cons_self,
      ih fun y hy => h y (List.mem_cons_of_mem x hy)]

theorem Stmt.layout_bare (x : Stmt) : ∀ depth, x.bare.layout depth = x.layout depth := by
  induction x using Stmt.byParts with
  | block s stmts ih =>
    intro depth
    rw [bare, layout, layout, bareStmts_eq, layoutStmts_bare ih]
  | varDecl s isFinal type name init =>
    intro depth
    rw [bare, layout, layout, layoutType_bare, layoutInit_bare, Ident.bare]
  | print s method arg =>
    intro depth
    rw [bare, layout, layout, Expr.layout_bare, Ident.bare]
  | expr s target op t value =>
    intro depth
    rw [bare, layout, layout, Expr.layout_bare, Expr.layout_bare]
  | missing => exact fun _ => rfl

theorem Member.layout_bare (x : Member) : x.bare.layout = x.layout := by
  cases x with
  | field s modifiers isFinal type name init =>
    rw [bare, layout, layout, layoutType_bare, layoutInit_bare, Ident.bare]
  | main s name param body =>
    cases body with
    | none => rfl
    | some b =>
      show _ ++ layoutBraces 1 (layoutStmts 2 (b.stmts.map Stmt.bare)) = _
      rw [layoutStmts_bare fun x _ => x.layout_bare]
      rfl

theorem layoutMembers_bare (xs : List Member) :
    layoutMembers (xs.map Member.bare) = layoutMembers xs := by
  have hbelow : ∀ x : Member, x.bare.layoutBelow = x.layoutBelow := by
    intro x
    have hmain : x.bare.isMain = x.isMain := by cases x <;> rfl
    rw [Member.layoutBelow, Member.layoutBelow, hmain, Member.layout_bare]
  cases xs with
  | nil => rfl
  | cons x xs =>
    rw [List.map_cons, layoutMembers, layoutMembers, Member.layout_bare, List.flatMap_map]
    simp only [hbelow]

theorem ClassDecl.layout_bare (c : ClassDecl) : c.bare.layout = c.layout := by
  rw [layout, layout, bare, layoutMembers_bare, Ident.bare]

/-- The layout of a tree does not depend on its spans. -/
theorem Root.layout_bare (x : Root) : x.bare.layout = x.layout := by
  cases x with
  | statements s stmts =>
    rw [bare, layout, layout, layoutStmts_bare fun x _ => x.layout_bare]
  | program s classes =>
    cases classes with
    | nil => rfl
    | cons c cs =>
      have hall : (c :: cs).map (fun d => d.bare.layout) = (c :: cs).map ClassDecl.layout :=
        List.map_congr_left fun d _ => d.layout_bare
      show List.intercalate _ (((c :: cs).map ClassDecl.bare).map ClassDecl.layout) ++ _ = _
      rw [List.map_map]
      exact congrArg (List.intercalate _ · ++ _) hall

end JavaPrimer
