import JavaPrimer.Proofs.LayoutCut

/-!
# Cutting the layout of a tree

The lines of a layout end in semicolons and braces, which stand before anything, so the layouts of
statements and classes are cut into their words one after another.

* `cutInto_declared` — declarations after their modifiers;
* `Stmt.cutInto_layout`, `Member.cutInto_layout`, `ClassDecl.cutInto_layout` — the parts of a tree;
* `Root.cutInto_layout` — a whole tree.
-/

namespace JavaPrimer

/-! ### Words that take no sign -/

theorem takeSigns_tight {us ws : List Text} (h : ∀ v ∈ us, v.isLoose = false) :
    takeSigns (us ++ ws) = us ++ takeSigns ws := by
  induction us with
  | nil => rfl
  | cons u us ih =>
    rw [List.cons_append, takeSigns_cons (h u List.mem_cons_self),
      ih fun v hv => h v (List.mem_cons_of_mem u hv)]
    rfl

theorem typeWords_tight {type : Option TypeSpec} (h : TypeSpelled type) :
    ∀ v ∈ typeWords type, v.isLoose = false := by
  obtain ⟨t, k, rfl, hkey, -⟩ := h
  have hbrackets : ∀ v ∈ texts ["[", "]"], v.isLoose = false := by decide
  intro v hv
  rcases List.mem_cons.1 hv with rfl | hv
  · exact (keyword_tight hkey).1
  · split at hv
    · exact hbrackets v hv
    · cases hv

theorem takeSigns_semi (ws : List Text) : takeSigns (ws ++ texts [";"]) = takeSigns ws ++ texts [";"] :=
  takeSigns_mid (v := Text.ofString ";") (by decide) (by decide)

theorem endsTight_semi (ws : List Text) : EndsTight (ws ++ texts [";"]) := by
  intro v hv
  rw [show texts [";"] = [Text.ofString ";"] from rfl, List.getLast?_concat] at hv
  rw [← Option.some.inj hv]
  decide

/-! ### Declarations -/

theorem cutInto_type {type : Option TypeSpec} (h : TypeSpelled type) :
    Text.CutInto Glyph.isNeutral (layoutType type) (typeWords type) := by
  obtain ⟨t, k, rfl, hkey, -⟩ := h
  have hname : Text.CutInto Glyph.isNeutral t.name [t.name] :=
    (Lexeme.of_keywords hkey).cutInto_neutral
  show Text.CutInto _ (if t.isArray then t.name ++ Text.ofString "[]" else t.name)
    (t.name :: if t.isArray then texts ["[", "]"] else [])
  cases t.isArray with
  | false => exact hname
  | true =>
    have hbrackets := (Text.cutInto_bracket (s := "[") (by decide)).append_any
      (Text.cutInto_bracket (s := "]") (by decide))
    exact (hname.append_neutral hbrackets rfl).mono fun _ _ => rfl

theorem cutInto_equals : Text.CutInto (fun _ => true) (Text.ofString " = ") (texts ["="]) :=
  (Text.cutInto_space.append_any (Text.cutInto_fixed (s := "=") (k := .equals) (by decide))).append_space

theorem cutInto_init {t : Text} {ws : List Text} (ht : Text.CutInto Glyph.isNeutral t ws)
    {init : Expr} (h : init.SpelledInit .asLaid) :
    Text.CutInto Glyph.isNeutral (t ++ layoutInit init) (ws ++ takeSigns (initWords init)) := by
  rcases h with rfl | h
  · rw [show layoutInit .missing = [] from rfl, List.append_nil,
      show takeSigns (initWords .missing) = [] from rfl, List.append_nil]
    exact ht
  · have hlayout : layoutInit init = Text.ofString " = " ++ init.layout := by
      cases init with
      | missing => exact absurd h id
      | _ => rfl
    have hwords : takeSigns (initWords init) = texts ["="] ++ takeSigns init.words := by
      rw [initWords_of_spelled h]
      exact takeSigns_cons (by decide)
    rw [hlayout, hwords]
    exact ht.append_neutral (cutInto_equals.append_any (init.cutInto_layout h).1) rfl

/-- A declaration behind whatever may stand before anything. -/
theorem cutInto_declared {t : Text} {ws : List Text} (ht : Text.CutInto (fun _ => true) t ws)
    {type : Option TypeSpec} {name : Ident} {init : Expr} (htype : TypeSpelled type)
    (hname : name.Spelled) (hinit : init.SpelledInit .asLaid) :
    Text.CutInto (fun _ => true)
      (t ++ layoutType type ++ Text.ofString " " ++ name.name ++ layoutInit init ++ Text.ofString ";")
      (ws ++ takeSigns (declaredWords type name init)) := by
  have hfront := (ht.append_any (cutInto_type htype)).append_space.append_any hname.cutInto_neutral
  have hcut := (cutInto_init hfront hinit).append_neutral
    (Text.cutInto_bracket (s := ";") (by decide)) rfl
  rw [declaredWords, takeSigns_tight (typeWords_tight htype), takeSigns_cons hname.tight.1,
    takeSigns_semi]
  simpa using hcut

theorem endsTight_declared (type : Option TypeSpec) (name : Ident) (init : Expr) :
    EndsTight (declaredWords type name init) := by
  have h := endsTight_semi (typeWords type ++ name.name :: initWords init)
  rwa [List.append_assoc] at h

/-! ### Statements -/

/-- The layout of a statement stands before anything. -/
def Stmt.Cuts (x : Stmt) : Prop :=
  (∀ depth, Text.CutInto (fun _ => true) (x.layout depth) (takeSigns x.words)) ∧ EndsTight x.words

theorem cutInto_indentation (depth : Nat) : Text.CutInto (fun _ => true) (indentation depth) [] := by
  unfold indentation
  induction 4 * depth with
  | zero => exact Text.cutInto_nil _
  | succ n ih =>
    rw [List.replicate_succ]
    exact Text.cutInto_space.append_any ih

theorem Text.CutInto.asLine {t : Text} {ws : List Text} (h : CutInto (fun _ => true) t ws) :
    CutInto (fun _ => true) t.asLine ws := by
  have hline := h.append_any cutInto_lineEnd
  rwa [List.append_nil] at hline

theorem cutInto_lines {xs : List Stmt} (h : ∀ x ∈ xs, x.Cuts) (depth : Nat) :
    Text.CutInto (fun _ => true) ((layoutStmts depth xs).flatMap Text.asLine)
      (takeSigns (stmtsWords xs)) := by
  induction xs with
  | nil => exact Text.cutInto_nil _
  | cons x xs ih =>
    obtain ⟨hcut, htight⟩ := h x List.mem_cons_self
    have hline := ((cutInto_indentation depth).append_any (hcut depth)).asLine
    rw [layoutStmts, List.flatMap_cons, stmtsWords, takeSigns_of_tight htight]
    exact hline.append_any (ih fun y hy => h y (List.mem_cons_of_mem x hy))

theorem cutInto_braces {xs : List Stmt} (h : ∀ x ∈ xs, x.Cuts) (depth depth' : Nat) :
    Text.CutInto (fun _ => true) (layoutBraces depth ((layoutStmts depth' xs)))
      (takeSigns (texts ["\x7b"] ++ (stmtsWords xs ++ texts ["\x7d"]))) := by
  have hopen : Text.CutInto (fun _ => true) (Text.ofString "\x7b\n") (texts ["\x7b"]) :=
    (Text.cutInto_bracket (s := "\x7b") (by decide)).append_any Text.cutInto_lineEnd
  have hbody := ((hopen.append_any (cutInto_lines h depth')).append_any
    (cutInto_indentation depth)).append_any (Text.cutInto_bracket (s := "\x7d") (by decide))
  rw [List.append_nil, List.append_assoc (texts _)] at hbody
  rw [Text.takeSigns_bracketed (by decide) (by decide)]
  exact hbody

/-- The front of a print statement up to its method. -/
theorem cutInto_printFront {method : Ident} (h : method.Spelled) :
    Text.CutInto Glyph.isNeutral (Text.ofString "System.out." ++ method.name)
      (printWords ++ [method.name]) := by
  have hout := cutInto_point h.cutInto_neutral (Lexeme.head_of_ident h.lexeme)
  have hsystem : Ident.Spelled ⟨Text.ofString "System", .nowhere⟩ := isToken_iff.2 lexeme_system
  have houtWord : Ident.Spelled ⟨Text.ofString "out", .nowhere⟩ := isToken_iff.2 lexeme_out
  have hrest := cutInto_point (houtWord.cutInto.append hout
    (fun x hx => Option.some.inj hx ▸ rfl) (fun h => nomatch h)) rfl
  exact hsystem.cutInto.append hrest (fun x hx => Option.some.inj hx ▸ rfl) (fun h => nomatch h)

theorem cutInto_print {s : Span} {method : Ident} {arg : Expr} (hmem : method.name ∈ printMethods)
    (harg : arg = .missing ∨ arg.Spelled .asLaid) : (Stmt.print s method arg).Cuts := by
  have hmethod : method.Spelled := isToken_iff.2 (lexeme_printMethod hmem)
  have hargCut : Text.CutInto Glyph.isNeutral arg.layout (takeSigns arg.words) := by
    rcases harg with rfl | h
    · exact Text.cutInto_nil _
    · exact (arg.cutInto_layout h).1
  have hprint : ∀ v ∈ printWords ++ [method.name], v.isLoose = false := by
    have hall : ∀ v ∈ printWords, v.isLoose = false := by decide
    intro v hv
    rcases List.mem_append.1 hv with hv | hv
    · exact hall v hv
    · rw [List.mem_singleton.1 hv]
      exact hmethod.tight.1
  have hwords : takeSigns (Stmt.print s method arg).words = (printWords ++ [method.name])
      ++ (texts ["("] ++ (takeSigns arg.words ++ texts [")"])) ++ texts [";"] := by
    rw [← Text.takeSigns_bracketed (by decide) (by decide), ← takeSigns_tight hprint,
      ← takeSigns_semi]
    simp [Stmt.words, texts]
  refine ⟨?_, ?_⟩
  · intro depth
    have hopen := (cutInto_printFront hmethod).append_neutral
      (Text.cutInto_bracket (s := "(") (by decide)) rfl
    have hclose : Text.CutInto (fun _ => true) (Text.ofString ");") (texts [")", ";"]) :=
      (Text.cutInto_bracket (s := ")") (by decide)).append_any
        (Text.cutInto_bracket (s := ";") (by decide))
    have hcut := (hopen.append_any hargCut).append_neutral hclose rfl
    rw [hwords]
    simpa [Stmt.layout, texts] using hcut
  · have hend := endsTight_semi (printWords ++ method.name
      :: (texts ["("] ++ (arg.words ++ texts [")"])))
    simpa [Stmt.words, texts] using hend

theorem cutInto_assigned {t : Text} {ws : List Text} (ht : Text.CutInto Glyph.isNeutral t ws)
    {target : Expr} {op : AssignOp} {value : Expr}
    (h : op = .none ∧ value = .missing
      ∨ (∃ k, AssignOp.ofKind? k = some op) ∧ target.isAssignable = true ∧ value.Spelled .asLaid) :
    Text.CutInto Glyph.isNeutral (t ++ layoutAssigned op value.layout)
      (ws ++ takeSigns (assignedWords op value)) := by
  rcases h with ⟨rfl, rfl⟩ | ⟨⟨k, hop⟩, -, hvalue⟩
  · rw [show layoutAssigned .none Expr.missing.layout = [] from rfl, List.append_nil,
      show takeSigns (assignedWords .none .missing) = [] from rfl, List.append_nil]
    exact ht
  · have hne := AssignOp.ne_none_of_ofKind? hop
    have hmem := AssignOp.mem_operators hop
    have hop' := (Text.cutInto_space.append_any (Lexeme.of_fixed hmem).cutInto_neutral).append_space
    rw [layoutAssigned, if_neg hne, assignedWords, if_neg hne,
      takeSigns_cons (fixed_isLoose _ hmem)]
    exact ht.append_neutral (hop'.append_any (value.cutInto_layout hvalue).1) rfl

theorem assignedWords_head {op : AssignOp} {value : Expr} (target : Expr)
    (h : op = .none ∧ value = .missing
      ∨ (∃ k, AssignOp.ofKind? k = some op) ∧ target.isAssignable = true ∧ value.Spelled .asLaid) :
    ∀ s ∈ (assignedWords op value ++ texts [";"]).head?, s.isStep = false := by
  intro s hs
  rcases h with ⟨rfl, rfl⟩ | ⟨⟨k, hop⟩, -, -⟩
  · rw [← Option.some.inj hs]
    decide
  · rw [assignedWords, if_neg (AssignOp.ne_none_of_ofKind? hop)] at hs
    rw [← Option.some.inj hs]
    revert hop
    cases k <;> intro hop <;> cases hop <;> decide

/-- The layout of a spelled statement is cut into its words before anything. -/
theorem Stmt.cutInto_layout (x : Stmt) : x.Spelled .asLaid → x.Cuts := by
  induction x using Stmt.byParts with
  | block s stmts ih =>
    intro h
    have hstmts : ∀ x ∈ stmts, x.Cuts := fun x hx => ih x hx (stmtsSpelled_iff.1 h x hx)
    exact ⟨fun depth => cutInto_braces hstmts depth (depth + 1), endsTight_bracketed (by decide) _⟩
  | varDecl s isFinal type name init =>
    intro h
    obtain ⟨htype, hname, hinit⟩ := h
    have hfinal : Text.CutInto (fun _ => true) (if isFinal then Text.ofString "final " else [])
        (if isFinal then texts ["final"] else []) := by
      cases isFinal with
      | false => exact Text.cutInto_nil _
      | true => exact (Text.cutInto_fixed (s := "final") (k := .kwFinal) (by decide)).append_space
    have htight : ∀ v ∈ (if isFinal then texts ["final"] else []), v.isLoose = false := by
      cases isFinal <;> decide
    refine ⟨?_, ?_⟩
    · intro depth
      rw [words, takeSigns_tight htight]
      exact cutInto_declared hfinal htype hname hinit
    · refine EndsTight.append ?_ (endsTight_declared type name init)
      exact fun v hv => htight v (List.mem_of_getLast? hv)
  | print s method arg => exact fun h => cutInto_print h.1 h.2
  | expr s target op t value =>
    intro h
    obtain ⟨htarget, hassign, -⟩ := h
    have hcut := (cutInto_assigned (target.cutInto_layout htarget).1 hassign).append_neutral
      (Text.cutInto_bracket (s := ";") (by decide)) rfl
    have hwords : takeSigns (Stmt.expr s target op t value).words
        = takeSigns target.words ++ takeSigns (assignedWords op value) ++ texts [";"] := by
      rw [words, takeSigns_append, takeSigns_semi, List.append_assoc]
      intro v _ w hw
      rw [Text.runsInto, assignedWords_head target hassign w hw, Bool.and_false]
    refine ⟨fun depth => hwords ▸ hcut, ?_⟩
    have hend := endsTight_semi (target.words ++ assignedWords op value)
    rwa [List.append_assoc] at hend
  | missing => exact False.elim

/-! ### Members and classes -/

theorem cutInto_modifiers {ms : List Text}
    (h : ∀ m ∈ ms, ∃ k, (m, k) ∈ keywords ∧ k.isModifier = true) :
    Text.CutInto (fun _ => true) (ms.flatMap fun m => m ++ Text.ofString " ") ms := by
  induction ms with
  | nil => exact Text.cutInto_nil _
  | cons m ms ih =>
    obtain ⟨k, hkey, -⟩ := h m List.mem_cons_self
    exact (Lexeme.of_keywords hkey).cutInto_neutral.append_space.append_any
      (ih fun x hx => h x (List.mem_cons_of_mem m hx))

theorem intercalate_space (ms : List Text) (a b : Text) :
    List.intercalate (Text.ofString " ") (ms ++ [a, b])
      = (ms.flatMap fun m => m ++ Text.ofString " ") ++ a ++ Text.ofString " " ++ b := by
  induction ms with
  | nil => simp
  | cons m ms ih =>
    cases hrest : ms ++ [a, b] with
    | nil => simp at hrest
    | cons x xs =>
      rw [hrest, intercalate_cons] at ih
      rw [List.cons_append, hrest, intercalate_cons, List.flatMap_cons, List.flatMap_cons]
      simp only [List.append_assoc] at ih ⊢
      rw [← ih]

/-- The layout of a member stands before anything. -/
theorem Member.cutInto_layout {x : Member} (h : x.Spelled .asLaid) :
    Text.CutInto (fun _ => true) x.layout (takeSigns x.words) ∧ EndsTight x.words := by
  cases x with
  | field s modifiers isFinal type name init =>
    obtain ⟨hms, -, htype, hname, hinit⟩ := h
    have htight : ∀ v ∈ modifiers, v.isLoose = false := by
      intro v hv
      obtain ⟨k, hkey, -⟩ := hms v hv
      exact (keyword_tight hkey).1
    have hfront := (cutInto_indentation 1).append_any (cutInto_modifiers hms)
    refine ⟨?_, EndsTight.append (fun v hv => htight v (List.mem_of_getLast? hv))
      (endsTight_declared type name init)⟩
    have hcut := cutInto_declared hfront htype hname hinit
    rw [layout, intercalate_space, words, takeSigns_tight htight]
    simpa only [List.append_assoc, List.nil_append] using hcut
  | main s name param body =>
    obtain ⟨hname, hparam, b, rfl, hbody⟩ := h
    have hstmts : ∀ x ∈ b.stmts, x.Cuts := fun x hx =>
      x.cutInto_layout (stmtsSpelled_iff.1 hbody x hx)
    have hpublic := (Text.cutInto_fixed (s := "public") (k := .kwPublic) (by decide)).append_space
    have hstatic := (Text.cutInto_fixed (s := "static") (k := .kwStatic) (by decide)).append_space
    have hvoid := (Text.cutInto_fixed (s := "void") (k := .kwVoid) (by decide)).append_space
    have hhead : Text.CutInto (fun _ => true) (Text.ofString "public static void ")
        (texts ["public", "static", "void"]) := hpublic.append_any (hstatic.append_any hvoid)
    have hstring := Text.cutInto_fixed (s := "String") (k := .kwString) (by decide)
    have hbrackets : Text.CutInto (fun _ => true) (Text.ofString "[] ") (texts ["[", "]"]) :=
      (Text.cutInto_bracket (s := "[") (by decide)).append_any
        ((Text.cutInto_bracket (s := "]") (by decide)).append_any Text.cutInto_space)
    have hopen : Text.CutInto (fun _ => true) (Text.ofString "(String[] ")
        (texts ["(", "String", "[", "]"]) :=
      (Text.cutInto_bracket (s := "(") (by decide)).append_any
        (hstring.append_neutral hbrackets rfl)
    have hclose : Text.CutInto (fun _ => true) (Text.ofString ") ") (texts [")"]) :=
      (Text.cutInto_bracket (s := ")") (by decide)).append_any Text.cutInto_space
    have hfront := ((((cutInto_indentation 1).append_any hhead).append_any
      hname.cutInto_neutral).append_neutral hopen rfl).append_any hparam.cutInto_neutral
    have hcut := (hfront.append_neutral hclose rfl).append_any (cutInto_braces hstmts 1 2)
    have hwords : takeSigns (Member.main s name param (some b)).words
        = texts ["public", "static", "void"] ++ [name.name] ++ texts ["(", "String", "[", "]"]
          ++ [param.name] ++ texts [")"]
          ++ takeSigns (texts ["\x7b"] ++ (stmtsWords b.stmts ++ texts ["\x7d"])) := by
      have hall : ∀ v ∈ texts ["public", "static", "void"] ++ [name.name]
          ++ texts ["(", "String", "[", "]"] ++ [param.name] ++ texts [")"], v.isLoose = false := by
        have hfixed : ∀ v ∈ texts ["public", "static", "void", "(", "String", "[", "]", ")"],
            v.isLoose = false := by decide
        intro v hv
        simp only [texts, List.map_cons, List.map_nil, List.cons_append, List.nil_append,
          List.mem_cons, List.not_mem_nil, or_false] at hv
        rcases hv with rfl | rfl | rfl | rfl | rfl | rfl | rfl | rfl | rfl | rfl
        all_goals first | exact hname.tight.1 | exact hparam.tight.1 | exact hfixed _ (by decide)
      rw [← takeSigns_tight hall]
      simp [words, Stmt.words, texts]
    refine ⟨?_, ?_⟩
    · rw [List.nil_append] at hcut
      rw [hwords]
      exact hcut
    · have hend : EndsTight (texts ["\x7b"] ++ (stmtsWords b.stmts ++ texts ["\x7d"])) :=
        endsTight_bracketed (by decide) _
      intro v hv
      refine hend v ?_
      simpa [words, Stmt.words, texts, List.getLast?_append, List.getLast?_cons] using hv

theorem Member.cutInto_below {x : Member} (h : x.Spelled .asLaid) :
    Text.CutInto (fun _ => true) x.layoutBelow (takeSigns x.words) := by
  have hline := (Member.cutInto_layout h).1.asLine
  unfold layoutBelow
  split
  · exact Text.cutInto_lineEnd.append_any hline
  · exact hline

/-- Texts that stand before anything are cut one after another. -/
theorem cutInto_flatMap {α : Type} {f : α → Text} {w : α → List Text} {xs : List α}
    (h : ∀ x ∈ xs, Text.CutInto (fun _ => true) (f x) (takeSigns (w x)) ∧ EndsTight (w x)) :
    Text.CutInto (fun _ => true) (xs.flatMap f) (takeSigns (xs.flatMap w)) := by
  induction xs with
  | nil => exact Text.cutInto_nil _
  | cons x xs ih =>
    obtain ⟨hcut, htight⟩ := h x List.mem_cons_self
    rw [List.flatMap_cons, List.flatMap_cons, takeSigns_of_tight htight]
    exact hcut.append_any (ih fun y hy => h y (List.mem_cons_of_mem x hy))

theorem cutInto_members {xs : List Member} (h : ∀ x ∈ xs, x.Spelled .asLaid) :
    Text.CutInto (fun _ => true) (layoutMembers xs) (takeSigns (xs.flatMap Member.words)) := by
  cases xs with
  | nil => exact Text.cutInto_nil _
  | cons x xs =>
    obtain ⟨hcut, htight⟩ := Member.cutInto_layout (h x List.mem_cons_self)
    have hrest : ∀ y ∈ xs, y.Spelled .asLaid := fun y hy => h y (List.mem_cons_of_mem x hy)
    rw [layoutMembers, List.flatMap_cons, takeSigns_of_tight htight]
    exact hcut.asLine.append_any (cutInto_flatMap fun y hy =>
      ⟨Member.cutInto_below (hrest y hy), (Member.cutInto_layout (hrest y hy)).2⟩)

theorem ClassDecl.cutInto_layout {c : ClassDecl} (h : c.Spelled .asLaid) :
    Text.CutInto (fun _ => true) c.layout (takeSigns c.words) ∧ EndsTight c.words := by
  obtain ⟨hname, hmembers⟩ := h
  have hpublic := (Text.cutInto_fixed (s := "public") (k := .kwPublic) (by decide)).append_space
  have hclass := (Text.cutInto_fixed (s := "class") (k := .kwClass) (by decide)).append_space
  have hhead : Text.CutInto (fun _ => true) (Text.ofString "public class ")
      (texts ["public", "class"]) := hpublic.append_any hclass
  have hopen : Text.CutInto (fun _ => true) (Text.ofString " \x7b\n") (texts ["\x7b"]) :=
    Text.cutInto_space.append_any
      ((Text.cutInto_bracket (s := "\x7b") (by decide)).append_any Text.cutInto_lineEnd)
  have hfront := (hhead.append_any hname.cutInto_neutral).append_neutral hopen rfl
  have hcut := (hfront.append_any (cutInto_members hmembers)).append_any
    (Text.cutInto_bracket (s := "\x7d") (by decide))
  have hwords : takeSigns c.words = texts ["public", "class"] ++ [c.name.name] ++ texts ["\x7b"]
      ++ takeSigns (c.members.flatMap Member.words) ++ texts ["\x7d"] := by
    have hall : ∀ v ∈ texts ["public", "class"] ++ [c.name.name], v.isLoose = false := by
      have hfixed : ∀ v ∈ texts ["public", "class"], v.isLoose = false := by decide
      intro v hv
      rcases List.mem_append.1 hv with hv | hv
      · exact hfixed v hv
      · rw [List.mem_singleton.1 hv]
        exact hname.tight.1
    rw [List.append_assoc _ (texts ["\x7b"]), List.append_assoc (texts _ ++ _),
      List.append_assoc (texts ["\x7b"]), ← Text.takeSigns_bracketed (by decide) (by decide),
      ← takeSigns_tight hall]
    simp [words]
  refine ⟨hwords ▸ hcut, ?_⟩
  have hend := (endsTight_bracketed (l := "\x7b") (r := "\x7d") (by decide)
    (c.members.flatMap Member.words))
  intro v hv
  refine hend v ?_
  simpa [words, texts, List.getLast?_append, List.getLast?_cons] using hv

/-- The layout of a spelled tree is cut into its words, with the signs that loose exponents take. -/
theorem Root.cutInto_layout {x : Root} (h : x.Spelled .asLaid) :
    Text.CutInto (fun _ => true) x.layout (takeSigns x.words) := by
  cases x with
  | statements s stmts =>
    have hcut := cutInto_lines (fun x hx => x.cutInto_layout (h x hx)) 0
    rwa [stmtsWords_eq] at hcut
  | program s classes =>
    obtain ⟨hne, hclasses⟩ := h
    cases classes with
    | nil => exact absurd rfl hne
    | cons c cs =>
      obtain ⟨hcut, htight⟩ := ClassDecl.cutInto_layout (hclasses c List.mem_cons_self)
      have hlines : Text.CutInto (fun _ => true) (Text.ofString "\n\n") [] :=
        Text.cutInto_lineEnd.append_any Text.cutInto_lineEnd
      have hrest : ∀ d ∈ cs, Text.CutInto (fun _ => true) (Text.ofString "\n\n" ++ d.layout)
          (takeSigns d.words) ∧ EndsTight d.words := by
        intro d hd
        obtain ⟨hcut, htight⟩ := ClassDecl.cutInto_layout (hclasses d (List.mem_cons_of_mem c hd))
        exact ⟨hlines.append_any hcut, htight⟩
      have hall := (hcut.append_any (cutInto_flatMap hrest)).asLine
      rw [← takeSigns_of_tight htight] at hall
      show Text.CutInto _ (List.intercalate (Text.ofString "\n\n")
        (c.layout :: cs.map ClassDecl.layout) ++ Text.ofString "\n") (takeSigns (c.words ++ _))
      rw [intercalate_cons, List.flatMap_map]
      exact hall

end JavaPrimer
