import Untangle.Command.FileTree
import Untangle.Deobfuscation.Run
import Untangle.Detection.Detection
import Untangle.Evaluation.Evaluate
import Untangle.Grammar.Program
import Untangle.Json.Layout
import Untangle.Main
import Untangle.Number.Display
import Untangle.Printing.Program
import Untangle.Proofs.Command.Outputs
import Untangle.Proofs.Detection.ConstantExpressions
import Untangle.Proofs.Detection.MangledNames
import Untangle.Proofs.Evaluation.Certainty
import Untangle.Proofs.Evaluation.Comparison
import Untangle.Proofs.Evaluation.Numerals
import Untangle.Proofs.Evaluation.Purity
import Untangle.Proofs.Grammar.Attachment
import Untangle.Proofs.Grammar.BareNames
import Untangle.Proofs.Grammar.Chains
import Untangle.Proofs.Grammar.Conversion
import Untangle.Proofs.Grammar.ExpressionReading
import Untangle.Proofs.Grammar.Expressions
import Untangle.Proofs.Grammar.Followers
import Untangle.Proofs.Grammar.Functions
import Untangle.Proofs.Grammar.LayeredPrograms
import Untangle.Proofs.Grammar.OperatorReading
import Untangle.Proofs.Grammar.OperatorRuns
import Untangle.Proofs.Grammar.Parentheses
import Untangle.Proofs.Grammar.PatternPlaces
import Untangle.Proofs.Grammar.Patterns
import Untangle.Proofs.Grammar.PrivateNames
import Untangle.Proofs.Grammar.Programs
import Untangle.Proofs.Grammar.Readings
import Untangle.Proofs.Grammar.RoleTrees
import Untangle.Proofs.Grammar.Roles
import Untangle.Proofs.Grammar.SpannedFunctions
import Untangle.Proofs.Grammar.SpannedPrograms
import Untangle.Proofs.Grammar.StatementReading
import Untangle.Proofs.Grammar.Statements
import Untangle.Proofs.Number.Negation
import Untangle.Proofs.Printing.ExpressionLayouts
import Untangle.Proofs.Printing.NumberAccess
import Untangle.Proofs.Printing.PrintedWords
import Untangle.Proofs.Printing.RoundTrip
import Untangle.Proofs.Printing.Spelling
import Untangle.Proofs.Printing.StatementLayouts
import Untangle.Proofs.Printing.Writing
import Untangle.Proofs.Rewrite.ArrayReads
import Untangle.Proofs.Rewrite.ComputedIndices
import Untangle.Proofs.Rewrite.DeadBranches
import Untangle.Proofs.Rewrite.ElementProxies
import Untangle.Proofs.Rewrite.Hygiene
import Untangle.Proofs.Rewrite.InlinedCall
import Untangle.Proofs.Rewrite.InlinedReads
import Untangle.Proofs.Rewrite.InlinedWrites
import Untangle.Proofs.Rewrite.InliningRounds
import Untangle.Proofs.Rewrite.NamedMethods
import Untangle.Proofs.Rewrite.Narrowing
import Untangle.Proofs.Rewrite.ProxyCalls
import Untangle.Proofs.Rewrite.RemovedArrays
import Untangle.Proofs.Rewrite.RepeatedRuns
import Untangle.Proofs.Rewrite.Running
import Untangle.Proofs.Rewrite.Simplification
import Untangle.Proofs.Rewrite.Unchanged
import Untangle.Proofs.Rewrite.UnpackedArrays
import Untangle.Proofs.Rewrite.UnusedFunctions
import Untangle.Proofs.Scope.Agreement
import Untangle.Proofs.Scope.Coverage
import Untangle.Proofs.Scope.DeclarationWalk
import Untangle.Proofs.Scope.Dropped
import Untangle.Proofs.Scope.Lookup
import Untangle.Proofs.Scope.Meaning
import Untangle.Proofs.Scope.Records
import Untangle.Proofs.Scope.Region
import Untangle.Proofs.Scope.ResolutionWalk
import Untangle.Proofs.Scope.WithBodies
import Untangle.Proofs.Text.Bytes
import Untangle.Proofs.Text.Lines
import Untangle.Proofs.Token.Gap
import Untangle.Proofs.Token.MaximalMunch
import Untangle.Proofs.Token.Numeral
import Untangle.Proofs.Token.NumeralGrammar
import Untangle.Proofs.Token.Partition
import Untangle.Proofs.Token.PlainNames
import Untangle.Proofs.Token.Quoted
import Untangle.Proofs.Token.Reach
import Untangle.Proofs.Token.Safety
import Untangle.Proofs.Token.Sliced
import Untangle.Proofs.Token.Slicing
import Untangle.Proofs.Token.StringValues
import Untangle.Proofs.Token.Substitutions
import Untangle.Proofs.Token.Words
import Untangle.Proofs.Tree.Copy
import Untangle.Proofs.Tree.Edits
import Untangle.Proofs.Tree.Effects
import Untangle.Proofs.Tree.Exchange
import Untangle.Proofs.Tree.Grown
import Untangle.Proofs.Tree.Growth
import Untangle.Proofs.Tree.Phrases
import Untangle.Proofs.Tree.Sequence
import Untangle.Proofs.Tree.Slots
import Untangle.Proofs.Tree.Spans
import Untangle.Proofs.Tree.Subtree
import Untangle.Proofs.Tree.Walks
import Untangle.Proofs.Tree.WellFormed
import Untangle.Rewrite.Pass
import Untangle.Scope.Resolution
import Untangle.Text.Quoted
import Untangle.Text.Units
import Untangle.Tree.Edit
