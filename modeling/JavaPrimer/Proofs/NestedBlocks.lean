import JavaPrimer.Proofs.ScopeStack

/-!
# A nested block affects nothing behind it

What is declared in a block goes to scopes of its own. Statements touch the innermost scope only, so
at the end of a block the scopes around it are those that were in force at its start, and what is
found behind the block is what would be found there without it.

The same holds wherever the block stands: what is found in front of a list of statements and behind
it is the same whatever the list is, if the list is the body of a block or of a main method.

* `Nesting`, `Nesting.fill` — a list of statements inside blocks;
* `Enclosure`, `Enclosure.around` — and inside a whole tree;
* `checkScopes_block` — a block more or less.
-/

namespace JavaPrimer

variable {known : List Text} {scopes : Scopes}

/-! ### Statements inside blocks -/

/-- A place for statements: a list of its own, or a block among the statements at such a place. -/
inductive Nesting where
  | here
  | inside (front : List Stmt) (span : Span) (inner : Nesting) (behind : List Stmt)

/-- The statements around a place together with those at the place. -/
def Nesting.fill (xs : List Stmt) : Nesting → List Stmt
  | here => xs
  | inside front span inner behind => front ++ .block span (inner.fill xs) :: behind

/-- What is found in some statements stands in one piece among what is found around them, and that
does not depend on them. -/
def FoundWithin (known : List Text) (found : List Stmt → List Finding) : Prop :=
  ∃ (front : List Finding) (scopes : Scopes) (behind : List Finding), ∀ xs,
    found xs = front ++ ((stmtsFindings known scopes xs).1 ++ behind)

theorem FoundWithin.around {found : List Stmt → List Finding} (h : FoundWithin known found)
    (front behind : List Finding) : FoundWithin known fun xs => front ++ (found xs ++ behind) := by
  obtain ⟨us, scopes, vs, hfound⟩ := h
  refine ⟨front ++ us, scopes, vs ++ behind, fun xs => ?_⟩
  simp only [hfound, List.append_assoc]

theorem FoundWithin.congr {found other : List Stmt → List Finding} (h : FoundWithin known found)
    (hother : ∀ xs, other xs = found xs) : FoundWithin known other := by
  obtain ⟨us, scopes, vs, hfound⟩ := h
  exact ⟨us, scopes, vs, fun xs => (hother xs).trans (hfound xs)⟩

theorem Nesting.foundWithin (place : Nesting) (scopes : Scopes) :
    FoundWithin known fun xs => (stmtsFindings known scopes (place.fill xs)).1 := by
  induction place generalizing scopes with
  | here => exact ⟨[], scopes, [], fun xs => (List.append_nil _).symm⟩
  | inside front span inner behind ih =>
    have hinner := ih ([] :: (stmtsFindings known scopes front).2)
    have hall := hinner.around (stmtsFindings known scopes front).1
      (stmtsFindings known (stmtsFindings known scopes front).2 behind).1
    simp only [fill, stmtsFindings_append, stmtsFindings_block]
    exact hall

/-! ### Statements inside a tree -/

/-- A tree without the statements of one list: bare statements, or a program with a main method
whose body is to be filled in. -/
inductive Enclosure where
  | bare (span : Span)
  | method (span : Span) (classesBefore : List ClassDecl) (classSpan : Span) (className : Ident)
    (membersBefore : List Member) (methodSpan : Span) (name param : Ident) (bodySpan : Span)
    (membersAfter : List Member) (classesAfter : List ClassDecl)

/-- The tree with its statements. -/
def Enclosure.around (xs : List Stmt) : Enclosure → Root
  | bare span => .statements span xs
  | method span classesBefore classSpan className membersBefore methodSpan name param bodySpan
      membersAfter classesAfter =>
    .program span (classesBefore
      ++ ⟨classSpan, className,
          membersBefore ++ .main methodSpan name param (some ⟨bodySpan, xs⟩) :: membersAfter⟩
        :: classesAfter)

/-- Fields are found the same whatever main methods stand between them. -/
theorem fieldsFindings_main (known : List Text) (scopes : Scopes) (front behind : List Member)
    (s : Span) (name param : Ident) (body : Option Block) :
    fieldsFindings known scopes (front ++ .main s name param body :: behind)
      = fieldsFindings known scopes (front ++ behind) := by
  induction front generalizing scopes with
  | nil => rfl
  | cons x front ih =>
    cases x with
    | main s' name' param' body' => exact ih scopes
    | field s' modifiers isFinal type name' init =>
      simp only [List.cons_append, fieldsFindings, ih]

/-- What is found in the body of a main method stands in one piece as well. -/
theorem foundWithin_main (known : List Text) (scopes : Scopes) (s t : Span) (name param : Ident) :
    FoundWithin known fun xs =>
      ((Member.main s name param (some ⟨t, xs⟩)).mainFindings known scopes).1 := by
  cases hparam : param.name.isEmpty with
  | true =>
    refine ⟨[], [] :: scopes, [], fun xs => ?_⟩
    simp [Member.mainFindings, inScope, hparam]
  | false =>
    refine ⟨(Scopes.declare param false ([] :: scopes)).1,
      (Scopes.declare param false ([] :: scopes)).2, [], fun xs => ?_⟩
    simp [Member.mainFindings, inScope, hparam]

theorem Enclosure.foundWithin (known : List Text) (e : Enclosure) :
    FoundWithin known fun xs => (e.around xs).findings known := by
  cases e with
  | bare span => exact ⟨[], [[]], [], fun xs => (List.append_nil _).symm⟩
  | method span classesBefore classSpan className membersBefore methodSpan name param bodySpan
      membersAfter classesAfter =>
    -- of the main methods this one has all the others in front of it or behind it
    let front := allMembers classesBefore ++ membersBefore
    let behind := membersAfter ++ allMembers classesAfter
    have hmembers : ∀ x : Member, allMembers (classesBefore
          ++ ⟨classSpan, className, membersBefore ++ x :: membersAfter⟩ :: classesAfter)
        = front ++ x :: behind := by
      intro x
      simp [front, behind, allMembers]
    let fields := fieldsFindings known [[]] (front ++ behind)
    have hmain := (foundWithin_main known fields.2 methodSpan bodySpan name param).around
      (fields.1 ++ front.flatMap fun x => (x.mainFindings known fields.2).1)
      (behind.flatMap fun x => (x.mainFindings known fields.2).1)
    refine hmain.congr fun xs => ?_
    simp only [around, Root.findings_program, hmembers, fieldsFindings_main, List.flatMap_append,
      List.flatMap_cons, fields, List.append_assoc]

/-! ### A block more or less -/

/-- A place that stands in the scopes of another. -/
theorem FoundWithin.fill {found : List Stmt → List Finding} (h : FoundWithin known found)
    (place : Nesting) : FoundWithin known fun xs => found (place.fill xs) := by
  obtain ⟨front, scopes, behind, hfound⟩ := h
  exact ((place.foundWithin scopes).around front behind).congr fun xs => hfound (place.fill xs)

/-- Diagnostics come in the order of what was found. -/
theorem FoundWithin.diagnostics {extra : List Text} {tree : List Stmt → Root}
    (h : FoundWithin (builtins ++ extra) fun xs => (tree xs).findings (builtins ++ extra)) :
    ∃ (front : List Diagnostic) (scopes : Scopes) (behind : List Diagnostic), ∀ xs,
      checkScopes extra (tree xs) = front
        ++ ((stmtsFindings (builtins ++ extra) scopes xs).1.map Finding.diagnostic ++ behind) := by
  obtain ⟨front, scopes, behind, hfound⟩ := h
  refine ⟨front.map Finding.diagnostic, scopes, behind.map Finding.diagnostic, fun xs => ?_⟩
  have htree : (tree xs).findings (builtins ++ extra)
      = front ++ ((stmtsFindings (builtins ++ extra) scopes xs).1 ++ behind) := hfound xs
  rw [checkScopes, htree, List.map_append, List.map_append]

/-- A nested block affects nothing behind it. In a list of bare statements, what is found with a
block in it is what is found without it, and what is found in the block put in between, right behind
what is found in front of it. The same holds of a block at any depth, in bare statements as well as in
a main method, with what is found around the list before and behind, whatever stands in the list. At
the end of a block only its own scope has to go: those around it are as they were. -/
theorem checkScopes_block (extra : List Text) :
    (∀ (span s : Span) (pre b : List Stmt), ∃ D₂, ∀ post, ∃ D₃,
        checkScopes extra (.statements span (pre ++ .block s b :: post))
            = checkScopes extra (.statements span pre) ++ D₂ ++ D₃
          ∧ checkScopes extra (.statements span (pre ++ post))
            = checkScopes extra (.statements span pre) ++ D₃)
      ∧ (∀ (e : Enclosure) (place : Nesting), ∃ front behind, ∀ (s : Span) (pre b : List Stmt),
        ∃ D₁ D₂, ∀ post, ∃ D₃,
          checkScopes extra (e.around (place.fill pre)) = front ++ D₁ ++ behind
            ∧ checkScopes extra (e.around (place.fill (pre ++ post)))
              = front ++ (D₁ ++ D₃) ++ behind
            ∧ checkScopes extra (e.around (place.fill (pre ++ .block s b :: post)))
              = front ++ (D₁ ++ D₂ ++ D₃) ++ behind)
      ∧ ∀ known scopes own b, (stmtsFindings known (own :: scopes) b).2.tail = scopes := by
  refine ⟨fun span s pre b => ?_, fun e place => ?_, fun known scopes own b =>
    tail_stmtsFindings known b (own :: scopes)⟩
  · let found := stmtsFindings (builtins ++ extra)
    let scopes := (found [[]] pre).2
    refine ⟨(found ([] :: scopes) b).1.map Finding.diagnostic, fun post =>
      ⟨(found scopes post).1.map Finding.diagnostic, ?_, ?_⟩⟩
    all_goals
      simp only [checkScopes, Root.findings, inScope, stmtsFindings_append, stmtsFindings_block,
        List.map_append, List.append_assoc, found, scopes]
  · have hall := FoundWithin.diagnostics
      (FoundWithin.fill (e.foundWithin (builtins ++ extra)) place)
    obtain ⟨front, scopes, behind, hfound⟩ := hall
    refine ⟨front, behind, fun s pre b => ?_⟩
    let found := stmtsFindings (builtins ++ extra)
    let inside := (found scopes pre).2
    refine ⟨(found scopes pre).1.map Finding.diagnostic,
      (found ([] :: inside) b).1.map Finding.diagnostic, fun post =>
        ⟨(found inside post).1.map Finding.diagnostic, ?_, ?_, ?_⟩⟩
    all_goals
      simp only [hfound, stmtsFindings_append, stmtsFindings_block, List.map_append,
        List.append_assoc, found, inside]

end JavaPrimer
