import JavaPrimer.Diagnostic.Category
import JavaPrimer.Scope
import JavaPrimer.Text.Quoted

/-!
# The reference for learners

What the command line prints when it is asked for help.

Definitions:
- `quickReference`: the overview.
- `Topic`, `Topic.name`, `Topic.text`: the topics in display order and what they say.
- `HelpError`, `Topic.find`: the topic that a word or the start of one means.
-/

namespace JavaPrimer

/-- Lines of text, each ended by a line feed. -/
def linesText (lines : List Text) : Text := lines.flatMap Text.asLine

/-- The overview. -/
def quickReference : Text := linesText
  ["javacheck v1.0 - checks Java teaching-subset programs",
   "",
   "Usage:",
   "  javacheck check <file|-> [--mode full|statements] [--pretty]",
   "  javacheck tokens <file|->",
   "  javacheck fmt <file|-> [--mode full|statements] [--write]",
   "  javacheck repl [--mode full|statements]",
   "  javacheck grammar",
   "  javacheck help [topic]",
   "",
   "Exit codes: 0 no findings, 1 usage or I/O error, 2 diagnostics reported.",
   "",
   "Topics:",
   "  categories   every diagnostic category and its hint",
   "  grammar      the supported subset of Java",
   "  modes        full programs versus bare statements",
   "  builtins     names that never need a declaration"]

/-- A help topic. -/
inductive Topic where
  | categories
  | grammar
  | modes
  | builtins
deriving DecidableEq

namespace Topic

/-- The topics in display order. -/
def all : List Topic := [categories, grammar, modes, builtins]

/-- The name of a topic. -/
def name : Topic → Text
  | categories => "categories"
  | grammar => "grammar"
  | modes => "modes"
  | builtins => "builtins"

/-- A category with its hint. -/
def categoryEntry (c : Category) : Text := c.name ++ "\n  " ++ c.hint ++ "\n\n"

/-- Every category with its hint. -/
def categoriesText : Text := "Diagnostic categories\n\n" ++ Category.all.flatMap categoryEntry

/-- The supported part of the language. -/
def grammarText : Text := linesText
  ["Supported Java subset",
   "",
   "Programs",
   "  public class Name \x7b members \x7d",
   "  members: fields and one shape of method:",
   "    public static void main(String[] args) \x7b statements \x7d",
   "  fields: [public] [static] [final] type name [= expression];",
   "",
   "Types",
   "  String, int, double, boolean, char, long, float, short, byte",
   "  and one-dimensional arrays of them (int[], String[]).",
   "",
   "Statements",
   "  type name [= expression];          final type name = expression;",
   "  System.out.println(expression);   System.out.print(expression);",
   "  target = expression;               also += -= *= /= %=",
   "  name++;  name--;  ++name;  --name;  method calls such as Math.pow(2, 3);",
   "  \x7b statements \x7d",
   "",
   "Expressions, loosest to tightest",
   "  ||   &&   == !=   < > <= >=   + -   * / %",
   "  unary - + ! ++ --, casts such as (int) 3.7, postfix ++ --",
   "  literals, names, calls, field access, (grouping), new Name(args)",
   "",
   "Not supported: if, loops, other methods, generics, array literals."]

/-- The two modes. -/
def modesText : Text := linesText
  ["Modes",
   "",
   "full        the source must be one or more public classes. This is the",
   "            default, and unknown mode names fall back to it.",
   "statements  the source is a list of bare statements, as typed into a short",
   "            exercise box. Class declarations are not accepted here.",
   "",
   "Scope checking only runs when there are no syntax errors."]

/-- The names that need no declaration, sorted. -/
def builtinsText : Text :=
  "Names that resolve without a declaration\n\n  "
    ++ List.intercalate (Text.ofString "\n  ") (JavaPrimer.builtins.mergeSort Text.bytesLE)
    ++ "\n\nOnly the first name of a dotted chain is checked.\n"

/-- What a topic says. -/
def text : Topic → Text
  | categories => categoriesText
  | grammar => grammarText
  | modes => modesText
  | builtins => builtinsText

end Topic

/-! ### Finding a topic -/

/-- Why a word means no topic. -/
inductive HelpError where
  | unknown (query : Text)
  | ambiguous (query : Text) (topics : List Topic)
deriving DecidableEq

/-- Topic names with commas between. -/
def topicNames (topics : List Topic) : Text :=
  List.intercalate (Text.ofString ", ") (topics.map Topic.name)

/-- The text of an error. -/
def HelpError.message : HelpError → Text
  | unknown query => "unknown help topic: " ++ query
  | ambiguous query topics =>
    "ambiguous help topic " ++ query.quoted ++ " matches " ++ topicNames topics

/-- The topic whose name a word is, or the only one whose name it starts. -/
def Topic.find (query : Text) : Except HelpError Topic :=
  match Topic.all.find? (·.name == query) with
  | some t => .ok t
  | none =>
    match Topic.all.filter fun t => !query.isEmpty && query.isPrefixOf t.name with
    | [] => .error (.unknown query)
    | [t] => .ok t
    | several => .error (.ambiguous query several)

end JavaPrimer
