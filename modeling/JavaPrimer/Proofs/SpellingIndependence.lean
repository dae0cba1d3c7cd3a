import JavaPrimer.Proofs.WholeLists

/-!
# Diagnostics and the spelling of names and literals

Two token lists that differ only in what the learner calls things, or writes into literals, have
the same syntax errors at the same places. The categories are the same too, but for one slip: the
classifier looks into the message, which quotes the learner's text, so that a spelling with both
`left` and `assignment` in it turns a general syntax error into one about an assignment. Where the
spellings of both lists mislead at the same tokens, if at any, the categories are the same.

* `Mirror.plain` — two runs with one end of input;
* `Mirror.places_ofTokens` — the beginnings of two lists that are alike;
* `Mirror.reflects_parse` — whole runs;
* `diagnostics_of_alike` — the diagnostics of two such lists;
* `category_of_quoted_words` — a literal that turns the category of an error.
-/

namespace JavaPrimer

namespace Mirror

variable {T : Token → Token → Prop}

/-- Two runs over lists of tokens that are related one by one. -/
def plain (T : Token → Token → Prop) (hT : ∀ t u, T t u → t.Alike u) : Mirror where
  token := T
  alike := hT
  behind := []
  closes := fun _ h => nomatch h
  held := ()

theorem forall₂_takeWhile {α : Type} {R : α → α → Prop} {p : α → Bool}
    (hp : ∀ a b, R a b → p b = p a) {xs ys : List α} (h : List.Forall₂ R xs ys) :
    List.Forall₂ R (xs.takeWhile p) (ys.takeWhile p) := by
  induction h with
  | nil => exact .nil
  | @cons a b xs ys hab _ ih =>
    rw [List.takeWhile_cons, List.takeWhile_cons, hp a b hab]
    split
    · exact .cons hab ih
    · exact .nil

theorem rel_find? {α : Type} {R : α → α → Prop} {p : α → Bool} (hp : ∀ a b, R a b → p b = p a)
    {xs ys : List α} (h : List.Forall₂ R xs ys) : Option.Rel R (xs.find? p) (ys.find? p) := by
  induction h with
  | nil => exact .none
  | @cons a b xs ys hab _ ih =>
    rw [List.find?_cons, List.find?_cons, hp a b hab]
    split
    · exact .some hab
    · exact ih

theorem rel_getLast? {α : Type} {R : α → α → Prop} {xs ys : List α} (h : List.Forall₂ R xs ys) :
    Option.Rel R xs.getLast? ys.getLast? := by
  induction h with
  | nil => exact .none
  | @cons a b xs ys hab htail ih =>
    cases htail with
    | nil => exact .some hab
    | cons _ _ => simpa only [List.getLast?_cons_cons] using ih

/-- The ends of input that two such lists get are the same. -/
theorem impliedEnd_eq (hT : ∀ t u, T t u → t.Alike u) {ts us : List Token}
    (h : List.Forall₂ T ts us) : Cursor.impliedEnd us = Cursor.impliedEnd ts := by
  have hlast := rel_getLast? h
  unfold Cursor.impliedEnd
  generalize ts.getLast? = x at hlast
  generalize us.getLast? = y at hlast
  cases hlast with
  | none => rfl
  | some htu => simp only [Option.map_some, (hT _ _ htu).span]

/-- Before the first tokens of two lists that are related one by one. -/
theorem places_ofTokens (hT : ∀ t u, T t u → t.Alike u) (hrefl : ∀ t, T t t) {ts us : List Token}
    (h : List.Forall₂ T ts us) :
    (plain T hT).Places ((Cursor.ofTokens ts : Cursor).rest.length + 1) (.ofTokens ts)
    (.ofTokens us) := by
  have hkind : ∀ a b, T a b → b.kind = a.kind := fun a b hab => (hT a b hab).kind
  have hstop := Cursor.kind_stop_ofTokens (ρ := .short) ts
  rw [Cursor.ofTokens_short] at hstop ⊢
  rw [Cursor.ofTokens_short us]
  constructor
  case last => exact .none
  case panicking => rfl
  case rest =>
    refine ⟨us.takeWhile (·.kind ≠ .eof), (List.append_nil _).symm, ?_⟩
    exact forall₂_takeWhile (fun a b hab => by rw [hkind a b hab]) h
  case stop => exact hstop
  case held => rfl
  case ends =>
    left
    apply And.intro rfl
    have hfind := rel_find? (p := fun t => decide (t.kind = .eof))
      (fun a b hab => by rw [hkind a b hab]) h
    show T ((ts.find? (·.kind = .eof)).getD (Cursor.impliedEnd ts))
      ((us.find? (·.kind = .eof)).getD (Cursor.impliedEnd us))
    rw [impliedEnd_eq hT h]
    generalize ts.find? (fun t => decide (t.kind = .eof)) = x at hfind
    generalize us.find? (fun t => decide (t.kind = .eof)) = y at hfind
    cases hfind with
    | none => exact hrefl _
    | some htu => exact htu
  case fewer => exact Nat.lt_succ_self _

/-- Both modes read two such lists alike. -/
theorem reflects_parse (hT : ∀ t u, T t u → t.Alike u) (hrefl : ∀ t, T t t) (mode : Mode)
    {ts us : List Token} (h : List.Forall₂ T ts us) :
    List.Forall₂ (Diagnostic.Like T) (parse mode ts).diagnostics (parse mode us).diagnostics := by
  have hplaces := places_ofTokens hT hrefl h
  rw [parse_short, parse_short]
  cases mode with
  | full => exact (mirrors_program rfl hplaces (.inl rfl)).diagnostics
  | statements => exact (mirrors_statements rfl hplaces (.inl rfl)).diagnostics

end Mirror

/-- Lists of tokens that differ only in how names and literals are spelled have as many syntax
errors, at the same places in the same order, and of the same categories, unless one is a general
syntax error and the other one about an assignment. The categories are all the same if in each
place the spellings of both lists mislead or neither does. -/
theorem diagnostics_of_alike (mode : Mode) {ts us : List Token}
    (h : List.Forall₂ Token.Alike ts us) :
    List.Forall₂ (fun d e => e.span = d.span ∧ (e.category = d.category
          ∨ d.category.isLoose = true ∧ e.category.isLoose = true))
        (parse mode ts).diagnostics (parse mode us).diagnostics
      ∧ (List.Forall₂ (fun t u => u.misleads = t.misleads) ts us →
        List.Forall₂ (fun d e => e.span = d.span ∧ e.category = d.category)
          (parse mode ts).diagnostics (parse mode us).diagnostics) := by
  constructor
  · have hlike := Mirror.reflects_parse (fun _ _ htu => htu) Token.Alike.refl mode h
    exact hlike.imp fun d e hde => ⟨hde.span, hde.category⟩
  · intro hmislead
    have hboth : List.Forall₂ (fun t u => t.Alike u ∧ u.misleads = t.misleads) ts us :=
      List.Forall₂.mp (fun _ _ halike hsame => ⟨halike, hsame⟩) h hmislead
    have hlike := Mirror.reflects_parse (fun _ _ htu => htu.1)
      (fun t => ⟨Token.Alike.refl t, rfl⟩) mode hboth
    exact hlike.imp fun d e hde => ⟨hde.span, hde.faithful fun _ _ htu => htu.2⟩

/-- A declaration without a name, `String` with a literal behind it. -/
def namelessDeclaration (literal : Text) : List Token :=
  [⟨.kwString, "String", ⟨⟨1, 1⟩, ⟨1, 7⟩⟩, false⟩, ⟨.stringLit, literal, ⟨⟨1, 8⟩, ⟨1, 25⟩⟩, false⟩,
    ⟨.semi, ";", ⟨⟨1, 25⟩, ⟨1, 26⟩⟩, false⟩]

theorem namelessDeclaration_alike (s t : Text) :
    List.Forall₂ Token.Alike (namelessDeclaration s) (namelessDeclaration t) :=
  .cons (.refl _) (.cons ⟨rfl, rfl, rfl, .inr ⟨rfl, nofun⟩⟩ (.cons (.refl _) .nil))

/-- Two literals of which neither is about assignments. -/
theorem diagnostics_of_plain_literals :
    List.Forall₂ Token.Alike (namelessDeclaration "\"some other text\"")
        (namelessDeclaration "\"and yet another\"")
      ∧ List.Forall₂ (fun d e => e.span = d.span ∧ e.category = d.category)
        (parse .statements (namelessDeclaration "\"some other text\"")).diagnostics
        (parse .statements (namelessDeclaration "\"and yet another\"")).diagnostics :=
  ⟨namelessDeclaration_alike _ _,
    (diagnostics_of_alike .statements (namelessDeclaration_alike _ _)).2
      (.cons rfl (.cons (by decide +kernel) (.cons rfl .nil)))⟩

/-- The same error is a general one or one about an assignment, by the words of a literal. -/
theorem category_of_quoted_words :
    List.Forall₂ Token.Alike (namelessDeclaration "\"left assignment\"")
        (namelessDeclaration "\"some other text\"")
      ∧ (parse .statements (namelessDeclaration "\"left assignment\"")).diagnostics.map
          (fun d => (d.span, d.category))
        = [(⟨⟨1, 8⟩, ⟨1, 25⟩⟩, .invalidAssignmentTarget)]
      ∧ (parse .statements (namelessDeclaration "\"some other text\"")).diagnostics.map
          (fun d => (d.span, d.category))
        = [(⟨⟨1, 8⟩, ⟨1, 25⟩⟩, .generalSyntax)] :=
  ⟨namelessDeclaration_alike _ _, by decide +kernel, by decide +kernel⟩

end JavaPrimer
