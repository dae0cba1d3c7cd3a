import JavaPrimer.Grammar.Basic

/-!
# Problems of a grammar

What can make a table unfit for choosing alternatives by looking ahead.

Definitions:
- `maxLookahead`: the most tokens that a choice or a gate may look at.
- `GrammarProblem`, `GrammarProblem.message`: the problems and their texts.
-/

namespace JavaPrimer

/-- The most tokens that a choice or a gate may look at. -/
def maxLookahead : Nat := 4

/-- A problem of a grammar. -/
inductive GrammarProblem where
  /-- Two rules have one name. -/
  | definedTwice (rule : Text)
  /-- A rule looks at too few or too many tokens. -/
  | lookahead (rule : Text) (k : Int)
  /-- A rule has nothing to choose from. -/
  | noAlternatives (rule : Text)
  /-- A gate is longer than any choice may look. -/
  | longGate (rule alt : Text)
  /-- A reference to a rule that is not there. -/
  | undefinedRule (rule target : Text)
  /-- A gate that its own alternative cannot start with. -/
  | deadGate (rule : Text) (gate : List Term) (alt : Text)
  /-- Two gates that can both match. -/
  | gateOverlap (rule first second : Text) (gate : List Term)
  /-- Two alternatives that can both start with a sequence. -/
  | ambiguous (rule first second : Text) (sequence : List Term) (k : Int)
  /-- A rule that can reach itself without consuming a token. -/
  | leftRecursive (rule : Text)
deriving DecidableEq

/-- The text of a problem. -/
def GrammarProblem.message : GrammarProblem → Text
  | definedTwice rule => "rule " ++ rule.quoted ++ " is defined twice"
  | lookahead rule k =>
    "rule " ++ rule.quoted ++ ": lookahead budget " ++ Text.decimal k ++ " outside 1.."
      ++ Text.decimal maxLookahead
  | noAlternatives rule => "rule " ++ rule.quoted ++ " has no alternatives"
  | longGate rule alt =>
    "rule " ++ rule.quoted ++ ": gate of " ++ alt.quoted ++ " is longer than "
      ++ Text.decimal maxLookahead ++ " tokens"
  | undefinedRule rule target =>
    "rule " ++ rule.quoted ++ ": reference to undefined rule " ++ target.quoted
  | deadGate rule gate alt =>
    "rule " ++ rule.quoted ++ ": gate " ++ termsText gate ++ " of " ++ alt.quoted
      ++ " can never match"
  | gateOverlap rule first second gate =>
    "rule " ++ rule.quoted ++ ": gates of " ++ first.quoted ++ " and " ++ second.quoted
      ++ " overlap on " ++ termsText gate
  | ambiguous rule first second sequence k =>
    "rule " ++ rule.quoted ++ ": alternatives " ++ first.quoted ++ " and " ++ second.quoted
      ++ " both start with " ++ termsText sequence ++ " (k=" ++ Text.decimal k ++ ")"
  | leftRecursive rule => "rule " ++ rule.quoted ++ " is left-recursive"

end JavaPrimer
