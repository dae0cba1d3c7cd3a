import JavaPrimer.Proofs.Grouping
import JavaPrimer.Proofs.Reformatting

/-!
# From a tree to its layout and back

The layout of a tree that was put together by hand is read as that tree, up to spans and groups. No
exponent of such a tree is loose before a step operator, since these stand behind names, groups and
object creations only.

* `Settled` — words that are read as they stand;
* `Expr.settled`, `Stmt.settled`, `Member.settled`, `Root.settled` — those of a tree built by hand;
* `analyze_layout` — what the layout of such a tree is read as.
-/

namespace JavaPrimer

/-! ### Settled words -/

/-- No word takes a sign from the next one. -/
def Settled (ws : List Text) : Prop := takeSigns ws = ws

theorem Settled.cons {v : Text} {ws : List Text} (hv : v.isLoose = false) (hws : Settled ws) :
    Settled (v :: ws) := by
  rw [Settled, takeSigns_cons hv, hws]

theorem Settled.mid {v : Text} {us ws : List Text} (hu : Settled us) (hv : v.isLoose = false)
    (hs : v.isStep = false) (hws : Settled ws) : Settled (us ++ v :: ws) := by
  rw [Settled, takeSigns_mid hv hs, hu, hws]

theorem Settled.append {us ws : List Text} (hu : Settled us) (htight : EndsTight us)
    (hws : Settled ws) : Settled (us ++ ws) := by
  rw [Settled, takeSigns_of_tight htight, hu, hws]

theorem Settled.bracketed {l r : String} (hl : l ∈ Text.brackets) (hr : r ∈ Text.brackets)
    {ws : List Text} (hws : Settled ws) : Settled (texts [l] ++ (ws ++ texts [r])) := by
  rw [Settled, Text.takeSigns_bracketed hl hr, hws]

theorem Settled.enclosed {ws : List Text} (hws : Settled ws) (needed : Bool) :
    Settled (enclosed needed ws) := by
  cases needed with
  | false => exact hws
  | true => exact hws.bracketed (by decide) (by decide)

theorem Settled.flatMap {α : Type} {f : α → List Text} {xs : List α}
    (h : ∀ x ∈ xs, Settled (f x) ∧ EndsTight (f x)) : Settled (xs.flatMap f) := by
  induction xs with
  | nil => rfl
  | cons x xs ih =>
    obtain ⟨hx, htight⟩ := h x List.mem_cons_self
    rw [List.flatMap_cons]
    exact hx.append htight (ih fun y hy => h y (List.mem_cons_of_mem x hy))

theorem Settled.after_tight {us ws : List Text} (h : ∀ v ∈ us, v.isLoose = false)
    (hws : Settled ws) : Settled (us ++ ws) := by
  rw [Settled, takeSigns_tight h, hws]

theorem Settled.semi {ws : List Text} (hws : Settled ws) : Settled (ws ++ texts [";"]) := by
  rw [Settled, takeSigns_semi, hws]

/-! ### The words of trees built by hand -/

theorem Operands.asBuilt_within : asBuilt.Within asLaid where
  beside _ _ _ _ := rfl
  behind _ _ := rfl
  before e h := by
    change e.takesStep = true at h
    cases e <;> first | rfl | cases h

theorem Operands.tidy_within : tidy.Within asRead where
  beside _ _ _ h := h
  behind _ h := h
  before e h := by
    change e.takesStep = true at h
    cases e <;> first | rfl | cases h

theorem settled_args {es : List Expr} (h : ∀ e ∈ es, Settled e.words) : Settled (argsWords es) := by
  have hmore : ∀ {ws : List Text}, Settled ws → ∀ xs : List Expr, (∀ e ∈ xs, Settled e.words) →
      Settled (ws ++ moreArgsWords xs) := by
    intro ws hws xs hxs
    induction xs generalizing ws with
    | nil => rwa [moreArgsWords, List.append_nil]
    | cons e xs ih =>
      have he : Settled (ws ++ (texts [","] ++ e.words)) :=
        hws.mid (v := Text.ofString ",") (by decide) (by decide) (hxs e List.mem_cons_self)
      have hrest := ih he fun x hx => hxs x (List.mem_cons_of_mem e hx)
      rwa [List.append_assoc] at hrest
  cases es with
  | nil => rfl
  | cons e es =>
    exact hmore (h e List.mem_cons_self) es fun x hx => h x (List.mem_cons_of_mem e hx)

theorem Expr.settled (e : Expr) : e.Spelled .asBuilt → Settled e.words := by
  have hcall : ∀ args : List Expr, (∀ e ∈ args, e.Spelled .asBuilt → Settled e.words) →
      exprsSpelled .asBuilt args → Settled (texts ["("] ++ (argsWords args ++ texts [")"])) := by
    intro args ih hargs
    refine Settled.bracketed (by decide) (by decide) (settled_args ?_)
    exact fun e he => ih e he (exprsSpelled_iff.1 hargs e he)
  induction e using Expr.byParts with
  | binary s level op t left right ihl ihr =>
    intro h
    obtain ⟨⟨k, hop⟩, -, -, hl, hr⟩ := h
    obtain ⟨hloose, hstep⟩ := writes_tight hop
    exact ((ihl hl).enclosed _).mid hloose hstep ((ihr hr).enclosed _)
  | unary s op e ih =>
    intro h
    obtain ⟨⟨k, hop⟩, -, he⟩ := h
    exact ((ih he).enclosed _).cons (fixed_isLoose _ (UnaryOp.mem_operators hop))
  | step s op e ih =>
    intro h
    obtain ⟨⟨k, hop⟩, -, htake, he⟩ := h
    have htight := ((e.cutInto_layout (he.mono Operands.asBuilt_within)).2 htake).2
    exact (ih he).append htight rfl
  | cast s type e ih =>
    intro h
    obtain ⟨⟨t, k, rfl, harray, hkey, -⟩, -, he⟩ := h
    have htype : ∀ v ∈ typeWords (some t), v.isLoose = false := by
      intro v hv
      simp only [typeWords, TypeSpec.words, harray, Option.map_some, Option.getD_some] at hv
      rw [List.mem_singleton.1 hv]
      exact (keyword_tight hkey).1
    have hclose := ((ih he).enclosed e.isBinary).cons (v := Text.ofString ")") (by decide)
    exact (hclose.after_tight htype).cons (by decide)
  | paren s e ih => exact fun h => (ih h).bracketed (by decide) (by decide)
  | literal s sort raw => exact fun _ => rfl
  | name s head selectors ih =>
    intro h
    obtain ⟨hhead, hsel⟩ := h
    refine Settled.cons hhead.tight.1 ?_
    rw [selectorsWords_eq]
    refine Settled.flatMap fun x hx => ?_
    have hx' := selectorsSpelled_iff.1 hsel x hx
    cases x with
    | field t name =>
      have hname : name.Spelled := hx'
      have hend : EndsTight (texts ["."] ++ [name.name]) :=
        (endsTight_singleton (by decide)).append (endsTight_singleton hname.tight.1)
      exact ⟨Settled.cons (by decide) rfl, hend⟩
    | call t args => exact ⟨hcall args (ih t args hx) hx', endsTight_bracketed (by decide) _⟩
  | new s className args ih =>
    intro h
    obtain ⟨hname, hargs⟩ := h
    exact ((hcall args ih hargs).cons hname.tight.1).cons (by decide)
  | bad s => exact False.elim
  | missing => exact False.elim

theorem settled_init {init : Expr} (h : init.SpelledInit .asBuilt) : Settled (initWords init) := by
  rcases h with rfl | h
  · rfl
  · rw [initWords_of_spelled h]
    exact (init.settled h).cons (by decide)

theorem settled_declared {type : Option TypeSpec} {name : Ident} {init : Expr}
    (htype : TypeSpelled type) (hname : name.Spelled) (hinit : init.SpelledInit .asBuilt) :
    Settled (declaredWords type name init) :=
  ((settled_init hinit).semi.cons hname.tight.1).after_tight (typeWords_tight htype)

theorem Stmt.settled (x : Stmt) : x.Spelled .asBuilt → Settled x.words := by
  induction x using Stmt.byParts with
  | block s stmts ih =>
    intro h
    refine Settled.bracketed (by decide) (by decide) ?_
    rw [stmtsWords_eq]
    refine Settled.flatMap fun x hx => ?_
    have hx' := stmtsSpelled_iff.1 h x hx
    exact ⟨ih x hx hx', (x.cutInto_layout (hx'.mono Operands.asBuilt_within)).2⟩
  | varDecl s isFinal type name init =>
    intro h
    obtain ⟨htype, hname, hinit⟩ := h
    refine (settled_declared htype hname hinit).after_tight ?_
    cases isFinal <;> decide
  | print s method arg =>
    intro h
    obtain ⟨hmem, harg⟩ := h
    have hmethod : method.Spelled := isToken_iff.2 (lexeme_printMethod hmem)
    have hargSettled : Settled arg.words := by
      rcases harg with rfl | harg
      · rfl
      · exact arg.settled harg
    have hcall := (hargSettled.bracketed (l := "(") (r := ")") (by decide) (by decide)).semi
    have hprint : ∀ v ∈ printWords, v.isLoose = false := by decide
    have hwords := (hcall.cons hmethod.tight.1).after_tight hprint
    simpa [words, texts] using hwords
  | expr s target op t value =>
    intro h
    obtain ⟨htarget, hassign, -⟩ := h
    have hrest : Settled (assignedWords op value ++ texts [";"]) := by
      rcases hassign with ⟨rfl, rfl⟩ | ⟨⟨k, hop⟩, -, hvalue⟩
      · rfl
      · rw [assignedWords, if_neg (AssignOp.ne_none_of_ofKind? hop)]
        exact ((value.settled hvalue).cons (fixed_isLoose _ (AssignOp.mem_operators hop))).semi
    have hhead : ∀ s ∈ (assignedWords op value ++ texts [";"]).head?, s.isStep = false := by
      refine assignedWords_head target (hassign.imp id ?_)
      exact fun h => ⟨h.1, h.2.1, h.2.2.mono Operands.asBuilt_within⟩
    rw [Settled, words, takeSigns_append, target.settled htarget, hrest]
    intro v _ w hw
    rw [Text.runsInto, hhead w hw, Bool.and_false]
  | missing => exact False.elim

theorem Member.settled {x : Member} (h : x.Spelled .asBuilt) : Settled x.words := by
  cases x with
  | field s modifiers isFinal type name init =>
    obtain ⟨hms, -, htype, hname, hinit⟩ := h
    refine (settled_declared htype hname hinit).after_tight ?_
    intro v hv
    obtain ⟨k, hkey, -⟩ := hms v hv
    exact (keyword_tight hkey).1
  | main s name param body =>
    obtain ⟨hname, hparam, b, rfl, hbody⟩ := h
    have hblock := (Stmt.block .nowhere b.stmts).settled hbody
    have hparams := (hblock.cons (v := Text.ofString ")") (by decide)).cons hparam.tight.1
    have hopen : ∀ v ∈ texts ["(", "String", "[", "]"], v.isLoose = false := by decide
    have hhead : ∀ v ∈ texts ["public", "static", "void"], v.isLoose = false := by decide
    exact ((hparams.after_tight hopen).cons hname.tight.1).after_tight hhead

/-- No exponent of a tree built by hand takes a sign. -/
theorem Root.settled {x : Root} (h : x.Spelled .asBuilt) : Settled x.words := by
  cases x with
  | statements s stmts =>
    refine Settled.flatMap fun x hx => ⟨x.settled (h x hx), ?_⟩
    exact (x.cutInto_layout ((h x hx).mono Operands.asBuilt_within)).2
  | program s classes =>
    have hmono : (Root.program s classes).Spelled .asLaid := Root.Spelled.mono Operands.asBuilt_within h
    refine Settled.flatMap fun c hc => ⟨?_, (ClassDecl.cutInto_layout (hmono.2 c hc)).2⟩
    obtain ⟨hname, hmembers⟩ := h.2 c hc
    have hbody : Settled (c.members.flatMap Member.words) := by
      refine Settled.flatMap fun m hm => ⟨Member.settled (hmembers m hm), ?_⟩
      exact (Member.cutInto_layout ((hmembers m hm).mono Operands.asBuilt_within)).2
    have hbraces := hbody.bracketed (l := "\x7b") (r := "\x7d") (by decide) (by decide)
    have hhead : ∀ v ∈ texts ["public", "class"], v.isLoose = false := by decide
    exact (hbraces.cons hname.tight.1).after_tight hhead

/-! ### Reading the layout of a tree -/

theorem Root.inMode_mapExpr {mode : Mode} {x : Root} (f : Expr → Expr) (h : x.InMode mode) :
    (x.mapExpr f).InMode mode := by
  cases mode <;> cases x <;> exact h

/-- The layout of a tree built by hand is read without a complaint, and as that tree up to spans and
groups. -/
theorem analyze_layout {mode : Mode} {x : Root} (hmode : x.InMode mode) (hx : x.Spelled .asBuilt) :
    (analyze mode x.layout).errors = []
      ∧ (analyze mode x.layout).root.bare.mapExpr Expr.unparen = x.bare.mapExpr Expr.unparen := by
  obtain ⟨hclean, hwords⟩ := (Root.cutInto_layout (hx.mono Operands.asBuilt_within)).lex
  rw [Root.settled hx, ← x.words_grouped] at hwords
  have hgrouped : (x.mapExpr Expr.grouped).Spelled .asRead :=
    (Root.spelled_grouped hx).mono Operands.tidy_within
  have hparse := parse_of_words (Root.inMode_mapExpr Expr.grouped hmode) hgrouped hclean hwords
  refine ⟨hparse.1, ?_⟩
  rw [hparse.2, x.unparen_grouped]

/-- A sum below a product: the layout `x = (a + b) * c;` is read as that tree again. -/
theorem analyze_layout_product :
    let name (t : Text) : Expr := .name .nowhere ⟨t, .nowhere⟩ []
    let sum := Expr.binary .nowhere .additive .add .nowhere (name "a") (name "b")
    let product := Expr.binary .nowhere .multiplicative .mul .nowhere sum (name "c")
    let tree := Root.statements .nowhere [.expr .nowhere (name "x") .set .nowhere product]
    tree.layout = Text.ofString "x = (a + b) * c;\n"
      ∧ (analyze .statements tree.layout).errors = []
      ∧ (analyze .statements tree.layout).root.bare.mapExpr Expr.unparen
        = tree.bare.mapExpr Expr.unparen := by
  intro name sum product tree
  have hword : ∀ v ∈ texts ["a", "b", "c", "x"], (name v).Spelled .asBuilt := by
    have hall : ∀ v ∈ texts ["a", "b", "c", "x"], keyword? v = none
        ∧ v.head?.any Glyph.isWordStart = true ∧ v.all Glyph.isWordPart = true := by decide
    intro v hv
    obtain ⟨hkey, hstart, hpart⟩ := hall v hv
    have hlex := Lexeme.of_word hstart hpart
    rw [hkey] at hlex
    exact ⟨isToken_iff.2 hlex, trivial⟩
  have hsum : sum.Spelled .asBuilt :=
    ⟨⟨.plus, ⟨_, List.mem_of_getElem? (i := 4) rfl, rfl, rfl⟩⟩, rfl, rfl, hword _ (by decide),
      hword _ (by decide)⟩
  have hproduct : product.Spelled .asBuilt :=
    ⟨⟨.star, ⟨_, List.mem_of_getElem? (i := 5) rfl, rfl, rfl⟩⟩, rfl, rfl, hsum, hword _ (by decide)⟩
  have htree : tree.Spelled .asBuilt := by
    intro y hy
    obtain rfl := List.mem_singleton.1 hy
    exact ⟨hword _ (by decide), .inr ⟨⟨.equals, rfl⟩, rfl, hproduct⟩, by decide⟩
  have hmode : tree.InMode .statements := trivial
  exact ⟨rfl, analyze_layout hmode htree⟩

end JavaPrimer
