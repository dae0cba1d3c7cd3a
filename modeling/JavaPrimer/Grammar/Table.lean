import JavaPrimer.Grammar.First

/-!
# Prediction tables

A grammar without problems compiles to a table that chooses an alternative of a rule from
the tokens ahead: a gate that matches wins, then an alternative that can start with what is
there, then one that can be empty.

Definitions:
- `Prediction`, `Choice`, `Choice.predict`, `Choice.starts`: choosing.
- `Grammar.shapeProblems`: what can be told without lookahead sequences.
- `Grammar.compile`: the table, or the problems of the grammar.
- `Grammar.validate`: the problems alone.
-/

namespace JavaPrimer

/-! ### Choosing -/

/-- A sequence that selects an alternative. -/
structure Prediction where
  alt : Nat
  sequence : List Term
deriving DecidableEq

/-- What a rule is chosen by. -/
structure Choice where
  rule : Rule
  gates : List Prediction
  ungated : List Prediction
  starters : List Term

/-- Whether the tokens ahead start with a sequence. -/
def sequenceMatches (ahead : Nat → Token) : List Term → Bool
  | [] => true
  | t :: rest => t.accepts (ahead 0) && sequenceMatches (fun i => ahead (i + 1)) rest

namespace Choice

/-- The alternative that the tokens ahead select. -/
def predict (c : Choice) (ahead : Nat → Token) : Option Nat :=
  let fits (p : Prediction) : Bool := sequenceMatches ahead p.sequence
  let (always, looking) := c.ungated.partition (·.sequence.isEmpty)
  ((c.gates.find? fits).or ((looking.find? fits).or always.head?)).map (·.alt)

/-- Whether a token can begin the rule. -/
def starts (c : Choice) (tok : Token) : Bool := c.starters.any (·.accepts tok)

end Choice

/-! ### Overlaps -/

/-- Whether two sequences can match the same tokens. One that is shorter may be followed by
anything, so only the common length counts. -/
def sequencesOverlap : List Term → List Term → Bool
  | s :: ss, t :: ts => s.overlaps t && sequencesOverlap ss ts
  | _, _ => true

/-- Whether a gate can match the start of its own alternative. -/
def gateCanMatch (gate : List Term) (firsts : List (List Term)) : Bool :=
  firsts.any fun ts => ts.length == gate.length && sequencesOverlap ts gate

/-! ### Problems -/

/-- Whether a rule looks at too few or too many tokens. -/
def Rule.lookaheadOutside (r : Rule) : Bool := r.lookahead < 1 || r.lookahead > maxLookahead

/-- The problems of an alternative that can be told by its shape. -/
def Alt.shapeProblems (g : Grammar) (r : Rule) (a : Alt) : List GrammarProblem :=
  (if maxLookahead < a.gate.length then [.longGate r.name a.name] else [])
    ++ ((Elem.refsOf a.body).filter fun t => (g.find? t).isNone).map (.undefinedRule r.name)

/-- The problems of a rule that can be told by its shape, given the names of the rules before. -/
def Rule.shapeProblems (g : Grammar) (before : List Text) (r : Rule) : List GrammarProblem :=
  (if before.contains r.name then [.definedTwice r.name] else [])
    ++ (if r.lookaheadOutside then [.lookahead r.name r.lookahead] else [])
    ++ (if r.alts.isEmpty then [.noAlternatives r.name] else [])
    ++ r.alts.flatMap (Alt.shapeProblems g r)

/-- The problems of the rules given, after those with the names given. -/
def rulesShapeProblems (g : Grammar) : List Text → List Rule → List GrammarProblem
  | _, [] => []
  | before, r :: rest => r.shapeProblems g before ++ rulesShapeProblems g (r.name :: before) rest

/-- The problems of a grammar that can be told without lookahead sequences. -/
def Grammar.shapeProblems (g : Grammar) : List GrammarProblem := rulesShapeProblems g [] g.rules

/-- The problems of a gate given the gates before it. -/
def gateProblems (r : Rule) (a : Alt) (before : List Prediction) (firsts : List (List Term)) :
    List GrammarProblem :=
  (if gateCanMatch a.gate firsts then [] else [.deadGate r.name a.gate a.name])
    ++ (before.filter fun p => sequencesOverlap p.sequence a.gate).map fun p =>
      .gateOverlap r.name ((r.alts[p.alt]?.map Alt.name).getD []) a.name a.gate

/-- The problems of the sequences of the `i`-th alternative given those of the alternatives
before it. -/
def sequenceProblems (r : Rule) (a : Alt) (before : List Prediction) (firsts : List (List Term)) :
    List GrammarProblem :=
  firsts.flatMap fun ts =>
    (before.filter fun p => sequencesOverlap p.sequence ts).map fun p =>
      .ambiguous r.name ((r.alts[p.alt]?.map Alt.name).getD []) a.name ts r.lookahead

/-! ### Compiling -/

/-- Works through the alternatives of a rule, the first of them being the `i`-th. -/
def compileAlts (g : Grammar) (r : Rule) : Nat → List Alt → Choice →
    Surveying (Choice × List GrammarProblem)
  | _, [], c => pure (c, [])
  | i, a :: rest, c =>
    if a.gate.isEmpty then do
      let firsts ← g.firstOf a.body r.lookahead
      let problems := sequenceProblems r a c.ungated firsts.seqs
      let added := firsts.seqs.map (Prediction.mk i)
      let (c, more) ← compileAlts g r (i + 1) rest { c with ungated := c.ungated ++ added }
      return (c, problems ++ more)
    else do
      let firsts ← g.firstOf a.body a.gate.length
      let problems := gateProblems r a c.gates firsts.seqs
      let (c, more) ← compileAlts g r (i + 1) rest { c with gates := c.gates ++ [⟨i, a.gate⟩] }
      return (c, problems ++ more)

/-- The choice for a rule, and the problems met. -/
def compileRule (g : Grammar) (r : Rule) : Surveying (Choice × List GrammarProblem) := do
  let (c, problems) ← compileAlts g r 0 r.alts ⟨r, [], [], []⟩
  let starts ← firstOfRule g r.name 1
  return ({ c with starters := starts.seqs.flatten }, problems)

/-- The choices for the rules given, and the problems met. -/
def compileRules (g : Grammar) : List Rule → Surveying (List Choice × List GrammarProblem)
  | [] => pure ([], [])
  | r :: rest => do
    let (c, problems) ← compileRule g r
    let (cs, more) ← compileRules g rest
    return (c :: cs, problems ++ more)

/-- Texts without the ones that have come before. -/
def distinct (ts : List Text) : List Text :=
  ts.foldl (fun out t => if out.contains t then out else out ++ [t]) []

/-- The table of a grammar, one choice for a rule, or the texts of its problems. -/
def Grammar.compile (g : Grammar) : Except (List Text) (List Choice) :=
  let shape := g.shapeProblems
  if shape.isEmpty then
    let ((choices, problems), s) := (compileRules g g.rules).run {}
    let all := problems ++ s.problems
    if all.isEmpty then .ok choices else .error (distinct (all.map GrammarProblem.message))
  else .error (shape.map GrammarProblem.message)

/-- The texts of the problems of a grammar. -/
def Grammar.validate (g : Grammar) : List Text :=
  match g.compile with
  | .ok _ => []
  | .error problems => problems

/-- The choice for a rule. -/
def findChoice? (choices : List Choice) (name : Text) : Option Choice :=
  choices.find? (·.rule.name == name)

end JavaPrimer
