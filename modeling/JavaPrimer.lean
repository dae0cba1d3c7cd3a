import JavaPrimer.Analysis
import JavaPrimer.Command.Lines
import JavaPrimer.Command.Options
import JavaPrimer.Command.Plan
import JavaPrimer.Command.Repl
import JavaPrimer.Diagnostic.Basic
import JavaPrimer.Diagnostic.Category
import JavaPrimer.FileTree
import JavaPrimer.Grammar.Basic
import JavaPrimer.Grammar.First
import JavaPrimer.Grammar.Java
import JavaPrimer.Grammar.Problem
import JavaPrimer.Grammar.Table
import JavaPrimer.Json.Basic
import JavaPrimer.Json.Reader
import JavaPrimer.Layout.Basic
import JavaPrimer.Layout.Comments
import JavaPrimer.Main
import JavaPrimer.Parsing.Complaint
import JavaPrimer.Parsing.Cursor
import JavaPrimer.Parsing.Expression
import JavaPrimer.Parsing.Program
import JavaPrimer.Parsing.Recovery
import JavaPrimer.Parsing.Statement
import JavaPrimer.Reference
import JavaPrimer.Scenario
import JavaPrimer.Scope
import JavaPrimer.Span
import JavaPrimer.Text.Basic
import JavaPrimer.Text.Blank
import JavaPrimer.Text.Printable
import JavaPrimer.Text.Quoted
import JavaPrimer.Token.Basic
import JavaPrimer.Token.Kind
import JavaPrimer.Token.Lexing
import JavaPrimer.Token.Numeral
import JavaPrimer.Token.Piece
import JavaPrimer.Token.Quoted
import JavaPrimer.Tree.Basic
import JavaPrimer.Tree.DeclaredType
import JavaPrimer.Tree.Operator
import JavaPrimer.Tree.Visit
import JavaPrimer.Proofs.CarriageReturns
import JavaPrimer.Proofs.CleanReading
import JavaPrimer.Proofs.Bare
import JavaPrimer.Proofs.RangedReading
import JavaPrimer.Proofs.Ranges
import JavaPrimer.Proofs.ReadBack
import JavaPrimer.Proofs.ReadBackExpr
import JavaPrimer.Proofs.ReadBackTree
import JavaPrimer.Proofs.Derivation
import JavaPrimer.Proofs.DerivedExpr
import JavaPrimer.Proofs.AcceptedLanguage
import JavaPrimer.Proofs.Lexeme
import JavaPrimer.Proofs.Cutting
import JavaPrimer.Proofs.Wording
import JavaPrimer.Proofs.WordingTree
import JavaPrimer.Proofs.LayoutCut
import JavaPrimer.Proofs.LayoutCutTree
import JavaPrimer.Proofs.Reformatting
import JavaPrimer.Proofs.Gaps
import JavaPrimer.Proofs.Grouping
import JavaPrimer.Proofs.RoundTrip
import JavaPrimer.Proofs.InStep
import JavaPrimer.Proofs.InStepExpr
import JavaPrimer.Proofs.InStepStmt
import JavaPrimer.Proofs.StatementBoundary
import JavaPrimer.Proofs.Scoping
import JavaPrimer.Proofs.LeftmostDerivation
import JavaPrimer.Proofs.LineEndings
import JavaPrimer.Proofs.LookaheadSets
import JavaPrimer.Proofs.Surveying
import JavaPrimer.Proofs.WellFormedGrammar
import JavaPrimer.Proofs.CompiledTable
import JavaPrimer.Proofs.Prediction
import JavaPrimer.Proofs.Covering
import JavaPrimer.Proofs.LosslessTree
import JavaPrimer.Proofs.Likeness
import JavaPrimer.Proofs.MirroredSteps
import JavaPrimer.Proofs.MirroredExpr
import JavaPrimer.Proofs.MirroredTree
import JavaPrimer.Proofs.SpellingIndependence
import JavaPrimer.Proofs.Termination
import JavaPrimer.Proofs.Places
import JavaPrimer.Proofs.Positions
import JavaPrimer.Proofs.BetweenBraces
import JavaPrimer.Proofs.SafeParsing
import JavaPrimer.Proofs.BraceMatching
import JavaPrimer.Proofs.BraceRecovery
import JavaPrimer.Proofs.BraceRecoveryTree
import JavaPrimer.Proofs.MentionedNames
import JavaPrimer.Proofs.TwoModes
import JavaPrimer.Proofs.BehindOperators
import JavaPrimer.Proofs.CutLiteral
import JavaPrimer.Proofs.TokenSpans
import JavaPrimer.Proofs.Climbing
import JavaPrimer.Proofs.UnclosedBraces
import JavaPrimer.Proofs.ForgottenSemicolon
import JavaPrimer.Proofs.LongestMatch
import JavaPrimer.Proofs.LineByLine
import JavaPrimer.Proofs.SelfDelimiting
import JavaPrimer.Proofs.LiteralGrammar
import JavaPrimer.Proofs.CommentWarning
import JavaPrimer.Proofs.NestedBlocks
import JavaPrimer.Proofs.Identifiers
import JavaPrimer.Proofs.IdentifierRun
import JavaPrimer.Proofs.DistinctReports
import JavaPrimer.Proofs.ConstantWrites
import JavaPrimer.Proofs.KnownNames
import JavaPrimer.Proofs.RaisedBudget
import JavaPrimer.Proofs.Conversation
import JavaPrimer.Proofs.ExactLookahead
import JavaPrimer.Proofs.LookaheadTermination
import JavaPrimer.Proofs.TableDriven
