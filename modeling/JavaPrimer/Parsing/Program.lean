import JavaPrimer.Parsing.Statement

/-!
# Parsing programs

A program is a list of classes; what is not a class is skipped to the next one. Both ways to
read a list of tokens stop at its first end of input and depend on nothing after it.

Definitions:
- `Parse.mainMethod`, `Parse.fieldDecl`, `Parse.member`, `Parse.classDecl`: the class level.
- `Parse.classes`, `Parse.program`: classes up to the end of input.
- `Parsed`, `parseProgram`, `parseStatements`: the tree and the syntax errors of a token list.
-/

namespace JavaPrimer

variable {ρ : Reach}

namespace Parse

/-! ### Members -/

/-- The body of the main method: a block, or an error where no brace opens one. -/
def methodBody : Parse ρ (Option Block) := do
  if ← look fun c => c.kind == .lbrace then some <$> block statement
  else
    let _ ← expect .lbrace
    return none

/-- The main method, from `public static void` on. -/
def mainMethod : Parse ρ Member := spanned do
  let _ ← advance
  let _ ← advance
  let _ ← advance
  let (name, named) ← expectIdent
  if !named then return fun span => .main span name .absent none
  else if ← expectAll [.lparen, .kwString, .lbracket, .rbracket] then
    let (param, there) ← expectIdent
    if !there then return fun span => .main span name param none
    else if ← expect .rparen then
      let body ← methodBody
      return fun span => .main span name param body
    else return fun span => .main span name param none
  else return fun span => .main span name .absent none

/-- One modifier, if it comes next. -/
def modifier : Parse ρ (Option Token) := do
  if ← look fun c => c.kind.isModifier then some <$> advance else return none

/-- A field. -/
def fieldDecl : Parse ρ Member := spanned do
  let modifiers ← untilNone modifier
  let words := modifiers.map (·.value)
  let isFinal := modifiers.any (·.kind = .kwFinal)
  match ← typeSpec with
  | none => return fun span => .field span words isFinal none .absent .missing
  | some type =>
    let (name, there) ← expectIdent
    if there then
      let init ← initialized
      return fun span => .field span words isFinal (some type) name init
    else return fun span => .field span words isFinal (some type) name .missing

/-- A member of a class. -/
def member : Parse ρ Member := do
  if ← look Cursor.startsMain then mainMethod else fieldDecl

/-! ### Classes -/

/-- A class, from `public class` on. -/
def classDecl : Parse ρ ClassDecl := spanned do
  let _ ← advance
  let _ ← advance
  let (name, named) ← expectIdent
  if !named then return fun span => ⟨span, name, []⟩
  else if ← expect .lbrace then
    let members ← whileMore inBlock (recovering Cursor.endMember (some <$> member))
    let _ ← expect .rbrace
    return fun span => ⟨span, name, members⟩
  else return fun span => ⟨span, name, []⟩

/-- A class, or an error where none starts. -/
def classOrSkip : Parse ρ (Option ClassDecl) := do
  if ← look Cursor.startsClass then some <$> classDecl
  else
    let found ← look Cursor.current
    fail (.classDecl found)
    return none

/-- Classes up to the end of input. -/
def classes : Parse ρ (List ClassDecl) :=
  whileMore (fun c => !c.atEnd) (recovering Cursor.endClass classOrSkip)

/-- A program: classes, of which there must be one. -/
def program : Parse ρ Root := spanned do
  let (classes, errors) ← listen classes
  if classes.isEmpty && errors.isEmpty then
    fail .noClass
    calm
    return fun span => .program span classes
  else return fun span => .program span classes

end Parse

/-! ### Whole token lists -/

/-- A tree, populated as far as recovery allowed, and the syntax errors. -/
structure Parsed where
  root : Root
  diagnostics : List Diagnostic

/-- Runs a parse step over a token list. -/
def parseWith (p : Parse ρ Root) (tokens : List Token) : Parsed :=
  let s := p (.ofTokens tokens)
  ⟨s.value, s.diagnostics⟩

/-- Reads a token list as a program. -/
def parseProgram (tokens : List Token) : Parsed := parseWith (ρ := .whole) Parse.program tokens

/-- Reads a token list as bare statements. -/
def parseStatements (tokens : List Token) : Parsed :=
  parseWith (ρ := .whole) Parse.statements tokens

end JavaPrimer
