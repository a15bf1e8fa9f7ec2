import SnippetRewrite.Arena.Basic
import SnippetRewrite.Arena.Compare
import SnippetRewrite.Arena.Copy
import SnippetRewrite.Arena.View
import SnippetRewrite.CommandLine.Arguments
import SnippetRewrite.CommandLine.Program
import SnippetRewrite.Compile.Compiler
import SnippetRewrite.Compile.Failure
import SnippetRewrite.Compile.Pipeline
import SnippetRewrite.Console.Collector
import SnippetRewrite.Console.Command
import SnippetRewrite.Console.Dialogue
import SnippetRewrite.Console.Report
import SnippetRewrite.Console.State
import SnippetRewrite.Json.Number
import SnippetRewrite.Json.Record
import SnippetRewrite.Json.Settings
import SnippetRewrite.Json.Storage
import SnippetRewrite.Json.Value
import SnippetRewrite.Main
import SnippetRewrite.Number.Double
import SnippetRewrite.Number.Notation
import SnippetRewrite.Number.Rounding
import SnippetRewrite.Number.Scaling
import SnippetRewrite.Number.Shortest
import SnippetRewrite.Parse.Cursor
import SnippetRewrite.Parse.Expression
import SnippetRewrite.Parse.Failure
import SnippetRewrite.Parse.Grammar
import SnippetRewrite.Parse.Literal
import SnippetRewrite.Parse.Signature
import SnippetRewrite.Parse.Statement
import SnippetRewrite.Parse.Token
import SnippetRewrite.Parse.Unit
import SnippetRewrite.Rewrite.Config
import SnippetRewrite.Rewrite.Engine
import SnippetRewrite.Rewrite.Pass
import SnippetRewrite.Rewrite.Trace
import SnippetRewrite.Rule.Catalogue
import SnippetRewrite.Rule.Instance
import SnippetRewrite.Rule.Match
import SnippetRewrite.Rule.Snippet
import SnippetRewrite.Rule.Store
import SnippetRewrite.Syntax.Kind
import SnippetRewrite.Syntax.Operator
import SnippetRewrite.Syntax.Outline
import SnippetRewrite.Syntax.Printer
import SnippetRewrite.Syntax.Tree
import SnippetRewrite.Syntax.Value
import SnippetRewrite.Text.AlphabeticRanges
import SnippetRewrite.Text.Backspace
import SnippetRewrite.Text.CharClass
import SnippetRewrite.Text.Cluster
import SnippetRewrite.Text.ClusterRanges
import SnippetRewrite.Text.NumericRanges
import SnippetRewrite.Text.Trim
import SnippetRewrite.Proofs.Arena.Ownership
import SnippetRewrite.Proofs.Arena.Reading
import SnippetRewrite.Proofs.Arena.TreeShape
import SnippetRewrite.Proofs.Arena.Operation
import SnippetRewrite.Proofs.Arena.FreeList
import SnippetRewrite.Proofs.Rule.TreeMatch
import SnippetRewrite.Proofs.Arena.Editing
import SnippetRewrite.Proofs.Rule.TreeInstance
import SnippetRewrite.Proofs.Rewrite.Step
import SnippetRewrite.Proofs.Rewrite.Reference
import SnippetRewrite.Proofs.Rewrite.Refinement
import SnippetRewrite.Proofs.Rewrite.Integrity
import SnippetRewrite.Proofs.Rewrite.Fixpoint
import SnippetRewrite.Proofs.Rule.Marking
import SnippetRewrite.Proofs.Rule.Substitution
import SnippetRewrite.Proofs.Rule.Captured
import SnippetRewrite.Proofs.Rule.Collapse
import SnippetRewrite.Proofs.Parse.Parts
import SnippetRewrite.Proofs.Parse.Reader
import SnippetRewrite.Proofs.Parse.Inversion
import SnippetRewrite.Proofs.Rule.Compiled
import SnippetRewrite.Proofs.Rewrite.Applications
import SnippetRewrite.Proofs.Parse.Token
import SnippetRewrite.Proofs.Parse.Atom
import SnippetRewrite.Proofs.Syntax.Formula
import SnippetRewrite.Proofs.Parse.Strength
import SnippetRewrite.Proofs.Parse.Legible
import SnippetRewrite.Proofs.Parse.Term
import SnippetRewrite.Proofs.Parse.Chain
import SnippetRewrite.Proofs.Parse.Operation
import SnippetRewrite.Proofs.Parse.ReadBack
import SnippetRewrite.Proofs.Parse.RoundTrip
import SnippetRewrite.Proofs.Syntax.Callee
import SnippetRewrite.Proofs.Parse.Reparse
import SnippetRewrite.Proofs.Rule.Overlap
import SnippetRewrite.Proofs.Rewrite.Settling
import SnippetRewrite.Proofs.Rewrite.Limit
import SnippetRewrite.Proofs.Rewrite.Catalogue
import SnippetRewrite.Proofs.Rewrite.Bodies
import SnippetRewrite.Proofs.Syntax.Spelled
import SnippetRewrite.Proofs.Parse.Statement
import SnippetRewrite.Proofs.Syntax.Layout
import SnippetRewrite.Proofs.Parse.Branch
import SnippetRewrite.Proofs.Parse.Declaration
import SnippetRewrite.Proofs.Parse.Respelled
import SnippetRewrite.Proofs.Parse.Reprint
import SnippetRewrite.Proofs.Rewrite.Accounting
import SnippetRewrite.Proofs.Rewrite.Shrinking
import SnippetRewrite.Proofs.Rewrite.Concatenation
import SnippetRewrite.Proofs.Parse.Sigil
import SnippetRewrite.Proofs.Rewrite.ForeignSigil
import SnippetRewrite.Proofs.Arena.Root
import SnippetRewrite.Proofs.Parse.Numbering
import SnippetRewrite.Proofs.Rewrite.Registration
import SnippetRewrite.Proofs.Parse.Sorts
import SnippetRewrite.Proofs.Parse.Beginning
import SnippetRewrite.Proofs.Parse.AnySigil
import SnippetRewrite.Proofs.Parse.Places
import SnippetRewrite.Proofs.Parse.Brackets
import SnippetRewrite.Proofs.Parse.Accepted
import SnippetRewrite.Proofs.Console.Collecting
import SnippetRewrite.Proofs.Parse.Excerpt
import SnippetRewrite.Proofs.Parse.Carried
import SnippetRewrite.Proofs.Parse.Lookahead
import SnippetRewrite.Proofs.Parse.Juxtaposed
import SnippetRewrite.Proofs.Parse.Progress
import SnippetRewrite.Proofs.Parse.Lines
import SnippetRewrite.Proofs.Parse.ErrorPlace
import SnippetRewrite.Proofs.Rewrite.LineOrder
import SnippetRewrite.Proofs.Rule.Snippets
import SnippetRewrite.Proofs.Arena.Unfolding
import SnippetRewrite.Proofs.Rule.FreshInstance
import SnippetRewrite.Proofs.Rule.RefusedInstance
import SnippetRewrite.Proofs.Rewrite.Subsumption
import SnippetRewrite.Proofs.Arena.Postorder
import SnippetRewrite.Proofs.Rule.OwnInstance
import SnippetRewrite.Proofs.Rewrite.EqualSides
import SnippetRewrite.Proofs.Rewrite.TraceLog
import SnippetRewrite.Proofs.Arena.Release
import SnippetRewrite.Proofs.Arena.Splicing
import SnippetRewrite.Proofs.Arena.Atomicity
import SnippetRewrite.Proofs.Parse.ValueText
import SnippetRewrite.Proofs.Arena.Copying
import SnippetRewrite.Proofs.Console.Handover
import SnippetRewrite.Proofs.Rewrite.Growth
import SnippetRewrite.Proofs.Parse.PairedGrammar
import SnippetRewrite.Proofs.Parse.Termination
import SnippetRewrite.Proofs.Rule.CatalogueTrees
import SnippetRewrite.Proofs.Arena.Equivalence
