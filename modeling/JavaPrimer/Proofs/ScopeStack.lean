import JavaPrimer.Proofs.Reading
import JavaPrimer.Scope

/-!
# Scopes are opened and closed

A check is given the scopes in force and hands on the ones it leaves. A declaration goes to the
innermost scope, and so what a statement leaves differs from what it was given in the innermost
scope only: whatever was opened has been closed again. In a block that scope is its own, and when it
is closed the scopes are in force that were in force in front of the block.

* `Scopes.tail_declare`, `tail_stmtsFindings` — the scopes around are left as they are;
* `Stmt.findings_block`, `stmtsFindings_append`, `stmtsFindings_block` — blocks, and statements one
  after another;
* `mainsFindings_eq` — main methods, each of which leaves the scopes as they were.
-/

namespace JavaPrimer

variable {known : List Text} {scopes : Scopes}

/-! ### The scopes around -/

/-- A declaration goes to the innermost scope. -/
theorem Scopes.tail_declare (name : Ident) (isFinal : Bool) (scopes : Scopes) :
    (scopes.declare name isFinal).2.tail = scopes.tail := by
  unfold Scopes.declare
  dsimp only
  split <;> rfl

theorem tail_declarationFindings (known : List Text) (scopes : Scopes) (type : Option TypeSpec)
    (name : Ident) (isFinal : Bool) (init : Expr) :
    (declarationFindings known scopes type name isFinal init).2.tail = scopes.tail := by
  cases type with
  | none => rfl
  | some type => exact scopes.tail_declare name isFinal

theorem tail_findings_of_stmts {stmts : List Stmt}
    (h : ∀ x ∈ stmts, ∀ scopes, (x.findings known scopes).2.tail = scopes.tail) :
    ∀ scopes, (stmtsFindings known scopes stmts).2.tail = scopes.tail := by
  induction stmts with
  | nil => exact fun _ => rfl
  | cons x stmts ih =>
    obtain ⟨hx, hstmts⟩ := List.forall_mem_cons.1 h
    intro scopes
    rw [stmtsFindings]
    exact (ih hstmts _).trans (hx scopes)

/-- A statement leaves the scopes around the innermost one as they are. -/
theorem Stmt.tail_findings (known : List Text) (x : Stmt) :
    ∀ scopes, (x.findings known scopes).2.tail = scopes.tail := by
  induction x using Stmt.byParts with
  | block span stmts ih =>
    intro scopes
    exact congrArg List.tail (tail_findings_of_stmts ih ([] :: scopes))
  | varDecl span isFinal type name init =>
    exact fun scopes => tail_declarationFindings known scopes type name isFinal init
  | print span method arg => exact fun _ => rfl
  | expr span target op t value =>
    intro scopes
    rw [Stmt.findings]
    split <;> rfl
  | missing => exact fun _ => rfl

/-- So do statements one after another. -/
theorem tail_stmtsFindings (known : List Text) (stmts : List Stmt) (scopes : Scopes) :
    (stmtsFindings known scopes stmts).2.tail = scopes.tail :=
  tail_findings_of_stmts (fun x _ => x.tail_findings known) scopes

/-! ### Blocks -/

/-- When the scope of a block is closed, the scopes are in force that were when it was opened. -/
theorem Stmt.findings_block (known : List Text) (scopes : Scopes) (s : Span) (b : List Stmt) :
    (Stmt.block s b).findings known scopes = ((stmtsFindings known ([] :: scopes) b).1, scopes) :=
  Prod.ext rfl (tail_stmtsFindings known b ([] :: scopes))

/-- What is found in some statements, and then in others under the scopes that they leave. -/
theorem stmtsFindings_append (known : List Text) (scopes : Scopes) (xs ys : List Stmt) :
    stmtsFindings known scopes (xs ++ ys)
      = ((stmtsFindings known scopes xs).1
            ++ (stmtsFindings known (stmtsFindings known scopes xs).2 ys).1,
          (stmtsFindings known (stmtsFindings known scopes xs).2 ys).2) := by
  induction xs generalizing scopes with
  | nil => rfl
  | cons x xs ih =>
    rw [List.cons_append, stmtsFindings, ih]
    simp only [stmtsFindings, List.append_assoc]

/-- Behind a block the scopes are in force that were in force in front of it. -/
theorem stmtsFindings_block (known : List Text) (scopes : Scopes) (s : Span) (b xs : List Stmt) :
    stmtsFindings known scopes (.block s b :: xs)
      = ((stmtsFindings known ([] :: scopes) b).1 ++ (stmtsFindings known scopes xs).1,
          (stmtsFindings known scopes xs).2) := by
  rw [stmtsFindings, Stmt.findings_block]

/-! ### Main methods -/

/-- A main method leaves the scopes as they were: its parameter and its body are in a scope of its
own. -/
theorem Member.scopes_mainFindings (known : List Text) (scopes : Scopes) (x : Member) :
    (x.mainFindings known scopes).2 = scopes := by
  cases x with
  | field span modifiers isFinal type name init => rfl
  | main span name param body =>
    refine (tail_stmtsFindings known _ _).trans ?_
    cases param.name.isEmpty with
    | true => rfl
    | false => exact Scopes.tail_declare param false ([] :: scopes)

/-- So every one of some main methods is looked at under the same scopes. -/
theorem mainsFindings_eq (known : List Text) (scopes : Scopes) (members : List Member) :
    mainsFindings known scopes members
      = (members.flatMap fun x => (x.mainFindings known scopes).1, scopes) := by
  induction members with
  | nil => rfl
  | cons x members ih => rw [mainsFindings, x.scopes_mainFindings, ih, List.flatMap_cons]

/-- The fields of a program, and every main method under the scopes that they leave. -/
theorem Root.findings_program (known : List Text) (span : Span) (classes : List ClassDecl) :
    (Root.program span classes).findings known
      = (fieldsFindings known [[]] (allMembers classes)).1
        ++ (allMembers classes).flatMap fun x =>
          (x.mainFindings known (fieldsFindings known [[]] (allMembers classes)).2).1 := by
  show (membersFindings known [[]] (allMembers classes)).1 = _
  rw [membersFindings, mainsFindings_eq]

end JavaPrimer
