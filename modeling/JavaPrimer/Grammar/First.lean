import JavaPrimer.Grammar.Problem
import Std.Data.TreeSet

/-!
# Lookahead sequences

The sequences of at most `k` terms that a list of elements can begin with; one shorter than
`k` means that the list can end after it. A budget `k` below zero is never used up: then the
sequences are those that make up the whole list. Rules are looked into at most once for every
`k`; one that is reached again while it is being looked into is left-recursive and adds nothing.

Definitions:
- `termsKey`, `SeqSet`: sequences in the order they were found, each once by its key.
- `Survey`, `Surveying`: what has been worked out so far.
- `firstOfMany`, `Elem.first`, `firstOfBody`: the sequences of elements.
- `firstOfRule`: the sequences of a rule.
- `Grammar.first`: the same from scratch, with the problems met.
-/

namespace JavaPrimer

/-! ### Sets of sequences -/

/-- The text by which sequences are told apart: the number and the image of every term. -/
def termsKey (ts : List Term) : Text :=
  ts.flatMap fun t => Text.decimal t.kind.code ++ ":" ++ t.image ++ "|"

/-- A number for every glyph. -/
def Glyph.ordinal : Glyph → Nat
  | .scalar c => c.toNat
  | .stray b => 0x110000 + b.toNat

/-- Sequences in the order they were found, each once. -/
structure SeqSet where
  /-- The sequences, the last one found first. -/
  newestFirst : List (List Term) := []
  /-- The keys of the sequences. -/
  keys : Std.TreeSet (List Nat) := ∅

namespace SeqSet

/-- No sequence. -/
def empty : SeqSet := {}

/-- The sequences in the order they were found. -/
def seqs (s : SeqSet) : List (List Term) := s.newestFirst.reverse

/-- Adds a sequence, unless one with its key is there. -/
def add (s : SeqSet) (ts : List Term) : SeqSet :=
  let key := (termsKey ts).map Glyph.ordinal
  if s.keys.contains key then s else ⟨ts :: s.newestFirst, s.keys.insert key⟩

/-- Adds sequences in order. -/
def addAll (s : SeqSet) (tss : List (List Term)) : SeqSet := tss.foldl add s

/-- The set of sequences given. -/
def ofList (tss : List (List Term)) : SeqSet := empty.addAll tss

end SeqSet

/-! ### Working out -/

/-- What has been worked out so far. -/
structure Survey where
  /-- The sequences of a rule for a budget. -/
  known : List ((Text × Int) × SeqSet) := []
  /-- The rules that are being looked into. -/
  active : List (Text × Int) := []
  /-- The problems met, in order. -/
  problems : List GrammarProblem := []

/-- A computation that looks up and extends what has been worked out. -/
abbrev Surveying := StateM Survey

/-- Extends each of the sequences given: one of full length stays, any other is followed by what
`more` gives for the length left. -/
def extendAll (k : Int) (more : Int → Surveying SeqSet) (heads : List (List Term)) (out : SeqSet) :
    Surveying SeqSet :=
  match heads with
  | [] => pure out
  | h :: rest =>
    if (h.length : Int) = k then extendAll k more rest (out.add h)
    else do
      let tails ← more (k - h.length)
      extendAll k more rest (out.addAll (tails.seqs.map (h ++ ·)))

/-- The sequences of a repetition whose body has the sequences `body`; `n` bounds the rounds. No
round is empty, so each uses up some of the budget. -/
def firstOfMany (body : Int → Surveying SeqSet) : Nat → Int → Surveying SeqSet
  | 0, _ => pure (.ofList [[]])
  | n + 1, k => do
    let heads ← body k
    extendAll k (firstOfMany body n) (heads.seqs.filter (!·.isEmpty)) (.ofList [[]])

mutual

/-- The sequences of an element, with `rule` for the rules it refers to. -/
def Elem.first (rule : Text → Int → Surveying SeqSet) : Elem → Int → Surveying SeqSet
  | .term t, _ => pure (.ofList [[t]])
  | .ref name, k => rule name k
  | .seq items, k => firstOfBody rule items k
  | .opt items, k => do
    let found ← firstOfBody rule items k
    return found.add []
  | .many items, k => firstOfMany (fun j => firstOfBody rule items j) (k.toNat + 1) k
  | .oneOf items, k => firstOfAny rule items .empty k

/-- The sequences of a list of elements, one after another. -/
def firstOfBody (rule : Text → Int → Surveying SeqSet) : List Elem → Int → Surveying SeqSet
  | [], _ => pure (.ofList [[]])
  | e :: rest, k =>
    if k = 0 then pure (.ofList [[]])
    else do
      let heads ← e.first rule k
      extendAll k (fun j => firstOfBody rule rest j) heads.seqs .empty

/-- The sequences of any of a list of elements, added to those given. -/
def firstOfAny (rule : Text → Int → Surveying SeqSet) :
    List Elem → SeqSet → Int → Surveying SeqSet
  | [], out, _ => pure out
  | e :: rest, out, k => do
    let more ← e.first rule k
    firstOfAny rule rest (out.addAll more.seqs) k

end

/-! ### Rules -/

/-- The sequences of any of a list of alternatives, added to those given. -/
def firstOfAlts (rule : Text → Int → Surveying SeqSet) (k : Int) :
    List Alt → SeqSet → Surveying SeqSet
  | [], out => pure out
  | a :: rest, out => do
    let more ← firstOfBody rule a.body k
    firstOfAlts rule k rest (out.addAll more.seqs)

/-- Marks a rule as being looked into. -/
def Survey.enter (key : Text × Int) (s : Survey) : Survey := { s with active := key :: s.active }

/-- Records what was worked out for a rule. -/
def Survey.leave (key : Text × Int) (found : SeqSet) (s : Survey) : Survey :=
  { s with active := s.active.erase key, known := (key, found) :: s.known }

/-- Records a problem. -/
def Survey.complain (p : GrammarProblem) (s : Survey) : Survey :=
  { s with problems := s.problems ++ [p] }

/-- The sequences of a rule, with rules looked into at most `n` deep. -/
def firstOfRuleWithin (g : Grammar) : Nat → Text → Int → Surveying SeqSet
  | 0, _, _ => pure .empty
  | n + 1, name, k => do
    let s ← get
    match s.known.lookup (name, k), g.find? name with
    | some found, _ => return found
    | none, none => return .empty
    | none, some r =>
      if s.active.contains (name, k) then
        modify (Survey.complain (.leftRecursive name))
        return .empty
      else
        modify (Survey.enter (name, k))
        let found ← firstOfAlts (firstOfRuleWithin g n) k r.alts .empty
        modify (Survey.leave (name, k) found)
        return found

/-- The sequences of a rule. No rule is looked into twice at once for one budget, and budgets only
fall, so the bound is never met. -/
def firstOfRule (g : Grammar) (name : Text) (k : Int) : Surveying SeqSet :=
  firstOfRuleWithin g (g.rules.length * (k.toNat + 1) + 1) name k

/-- The sequences of a body of the grammar. -/
def Grammar.firstOf (g : Grammar) (body : List Elem) (k : Int) : Surveying SeqSet :=
  firstOfBody (firstOfRuleWithin g (g.rules.length * (k.toNat + 1) + 1)) body k

/-- The sequences of a rule from scratch, and the problems met. -/
def Grammar.first (g : Grammar) (name : Text) (k : Int) : List (List Term) × List GrammarProblem :=
  let (found, s) := (firstOfRule g name k).run {}
  (found.seqs, s.problems)

end JavaPrimer
