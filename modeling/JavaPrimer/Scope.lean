import JavaPrimer.Diagnostic.Basic
import JavaPrimer.Tree.Basic

/-!
# Scopes

Names are declared in scopes that nest like blocks. The fields of all classes share one
scope; the parameter of a main method shares one with the top level of its body. A
declaration is visible from its own initializer to the end of its scope.

Definitions:
- `Binding`, `Scopes`: the declarations in force, innermost scope first.
- `Finding`: a duplicate declaration, an undeclared name or a write to a constant.
- `Expr.findings`: an expression under the scopes in force.
- `inScope`: a check in a scope of its own.
- `Stmt.findings`: a statement, with the scopes in force after it.
- `Root.findings`: a whole tree.
- `builtins`: names that need no declaration.
-/

namespace JavaPrimer

/-- Names that resolve without a declaration. Only the head of a dotted chain is looked up. -/
def builtins : List Text :=
  ["System", "out", "println", "print",
   "Math", "pow", "sqrt", "abs", "round", "ceil", "floor", "min", "max",
   "Random", "Scanner", "nextInt", "nextDouble", "nextLine",
   "Integer", "Double", "parseInt", "parseDouble",
   "length", "charAt", "substring", "toLowerCase", "toUpperCase", "equals", "compareTo"]

/-! ### Findings -/

/-- What scope checking finds, always about one identifier. -/
inductive Finding where
  /-- The name is declared in the same scope already, first on the line given. -/
  | duplicate (name : Ident) (firstLine : Int)
  /-- The name has no declaration in force. -/
  | undeclared (name : Ident)
  /-- The name is a constant and is written to. -/
  | finalWrite (name : Ident)
deriving DecidableEq

namespace Finding

/-- The identifier a finding is about. -/
def ident : Finding → Ident
  | duplicate name _ | undeclared name | finalWrite name => name

/-- The category of a finding. -/
def category : Finding → Category
  | duplicate .. => .duplicateDeclaration
  | undeclared _ => .undeclaredVariable
  | finalWrite _ => .assignToFinal

/-- The message of a finding. -/
def message : Finding → Text
  | duplicate name line =>
    "Variable '" ++ name.name ++ "' is already declared in this scope (first declared on line "
      ++ Text.decimal line ++ ")"
  | undeclared name => "Variable '" ++ name.name ++ "' has not been declared"
  | finalWrite name => "Cannot assign to '" ++ name.name ++ "' because it was declared final"

/-- The diagnostic of a finding. -/
def diagnostic (f : Finding) : Diagnostic := .make f.category f.message f.ident.span

end Finding

/-! ### Declarations in force -/

/-- A declaration in force. -/
structure Binding where
  name : Text
  isFinal : Bool
  line : Int
deriving DecidableEq

/-- The declarations of each scope, innermost scope first. -/
abbrev Scopes := List (List Binding)

/-- The declaration of a name in one scope. -/
def findBinding? (name : Text) (scope : List Binding) : Option Binding :=
  scope.find? (·.name == name)

namespace Scopes

/-- The innermost declaration of a name. -/
def find? (name : Text) (scopes : Scopes) : Option Binding :=
  scopes.findSome? (findBinding? name)

/-- Whether a name is declared as a constant. -/
def isConstant (name : Text) (scopes : Scopes) : Bool :=
  (scopes.find? name).any (·.isFinal)

/-- Declares a name in the innermost scope. The first declaration of a name is kept. -/
def declare (name : Ident) (isFinal : Bool) (scopes : Scopes) : List Finding × Scopes :=
  let scope := scopes.headD []
  match findBinding? name.name scope with
  | some first => ([.duplicate name first.line], scopes)
  | none => ([], (⟨name.name, isFinal, name.span.start.line⟩ :: scope) :: scopes.tail)

end Scopes

/-! ### Expressions -/

/-- The identifier of an expression that is a bare name. -/
def Expr.bareName? : Expr → Option Ident
  | .name _ head [] => some head
  | _ => none

/-- A bare constant that a step operator would change. -/
def stepFindings (scopes : Scopes) (operand : Expr) : List Finding :=
  match operand.bareName? with
  | some name => if scopes.isConstant name.name then [.finalWrite name] else []
  | none => []

/-- A name used in an expression: declared, or known without. -/
def useFindings (known : List Text) (scopes : Scopes) (name : Ident) : List Finding :=
  if (scopes.find? name.name).isSome || known.contains name.name then [] else [.undeclared name]

mutual

/-- What is wrong with the names of an expression. -/
def Expr.findings (known : List Text) (scopes : Scopes) : Expr → List Finding
  | .name _ head selectors =>
    useFindings known scopes head ++ selectorsFindings known scopes selectors
  | .binary _ _ _ _ left right => left.findings known scopes ++ right.findings known scopes
  | .unary _ op operand =>
    (if op.isStep then stepFindings scopes operand else []) ++ operand.findings known scopes
  | .step _ _ operand => stepFindings scopes operand ++ operand.findings known scopes
  | .cast _ _ operand => operand.findings known scopes
  | .paren _ inner => inner.findings known scopes
  | .new _ _ args => exprsFindings known scopes args
  | .literal .. | .bad _ | .missing => []

/-- What is wrong with the names of a list of expressions. -/
def exprsFindings (known : List Text) (scopes : Scopes) : List Expr → List Finding
  | [] => []
  | e :: rest => e.findings known scopes ++ exprsFindings known scopes rest

/-- What is wrong with the names in the arguments of a selector. -/
def Selector.findings (known : List Text) (scopes : Scopes) : Selector → List Finding
  | .field .. => []
  | .call _ args => exprsFindings known scopes args

/-- What is wrong with the names in the arguments of a list of selectors. -/
def selectorsFindings (known : List Text) (scopes : Scopes) : List Selector → List Finding
  | [] => []
  | x :: rest => x.findings known scopes ++ selectorsFindings known scopes rest

end

/-! ### Statements -/

/-- The left side of an assignment. A bare name must be declared and no constant; anything else
is checked like an expression. -/
def targetFindings (known : List Text) (scopes : Scopes) (target : Expr) : List Finding :=
  match target.bareName? with
  | some name => match scopes.find? name.name with
    | none => [.undeclared name]
    | some b => if b.isFinal then [.finalWrite name] else []
  | none => target.findings known scopes

/-- A declaration and its initializer, which sees the new name. A declaration without a type is
passed over. -/
def declarationFindings (known : List Text) (scopes : Scopes) (type : Option TypeSpec)
    (name : Ident) (isFinal : Bool) (init : Expr) : List Finding × Scopes :=
  match type with
  | none => ([], scopes)
  | some _ =>
    let (duplicates, after) := scopes.declare name isFinal
    (duplicates ++ init.findings known after, after)

/-- A check in a scope of its own, which is opened in front of it and closed behind it. -/
def inScope (check : Scopes → List Finding × Scopes) (scopes : Scopes) : List Finding × Scopes :=
  let found := check ([] :: scopes)
  (found.1, found.2.tail)

mutual

/-- What is wrong with the names of a statement, and the scopes in force after it. -/
def Stmt.findings (known : List Text) (scopes : Scopes) : Stmt → List Finding × Scopes
  | .block _ stmts => inScope (fun inner => stmtsFindings known inner stmts) scopes
  | .varDecl _ isFinal type name init => declarationFindings known scopes type name isFinal init
  | .print _ _ arg => (arg.findings known scopes, scopes)
  | .expr _ target op _ value =>
    if op = .none then (target.findings known scopes, scopes)
    else (targetFindings known scopes target ++ value.findings known scopes, scopes)
  | .missing => ([], scopes)

/-- What is wrong with the names of a list of statements, and the scopes in force after it. -/
def stmtsFindings (known : List Text) (scopes : Scopes) : List Stmt → List Finding × Scopes
  | [] => ([], scopes)
  | s :: rest =>
    let first := s.findings known scopes
    let more := stmtsFindings known first.2 rest
    (first.1 ++ more.1, more.2)

end

/-! ### Programs -/

/-- Every member of every class, in order. -/
def allMembers (classes : List ClassDecl) : List Member := classes.flatMap ClassDecl.members

/-- The fields among the members given, all in the innermost scope. -/
def fieldsFindings (known : List Text) (scopes : Scopes) : List Member → List Finding × Scopes
  | [] => ([], scopes)
  | .main .. :: rest => fieldsFindings known scopes rest
  | .field _ _ isFinal type name init :: rest =>
    let first := declarationFindings known scopes type name isFinal init
    let more := fieldsFindings known first.2 rest
    (first.1 ++ more.1, more.2)

/-- A main method: its parameter and its body share a scope. -/
def Member.mainFindings (known : List Text) (scopes : Scopes) : Member → List Finding × Scopes
  | .field .. => ([], scopes)
  | .main _ _ param body =>
    inScope (fun inner =>
      let (duplicates, after) :=
        if param.name.isEmpty then ([], inner) else inner.declare param false
      let found := stmtsFindings known after ((body.map Block.stmts).getD [])
      (duplicates ++ found.1, found.2)) scopes

/-- The main methods among the members given. -/
def mainsFindings (known : List Text) (scopes : Scopes) : List Member → List Finding × Scopes
  | [] => ([], scopes)
  | x :: rest =>
    let first := x.mainFindings known scopes
    let more := mainsFindings known first.2 rest
    (first.1 ++ more.1, more.2)

/-- The members of a program: every field is declared before any main method is looked at. -/
def membersFindings (known : List Text) (scopes : Scopes) (members : List Member) :
    List Finding × Scopes :=
  let fields := fieldsFindings known scopes members
  let mains := mainsFindings known fields.2 members
  (fields.1 ++ mains.1, mains.2)

/-- What is wrong with the names of a tree. -/
def Root.findings (known : List Text) : Root → List Finding
  | .statements _ stmts => (inScope (fun inner => stmtsFindings known inner stmts) []).1
  | .program _ classes =>
    (inScope (fun inner => membersFindings known inner (allMembers classes)) []).1

/-- Scope checking: the diagnostics of a tree when the names in `extra` are known besides the
built-in ones. -/
def checkScopes (extra : List Text) (root : Root) : List Diagnostic :=
  (root.findings (builtins ++ extra)).map Finding.diagnostic

end JavaPrimer
