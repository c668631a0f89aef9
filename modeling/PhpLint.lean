import PhpLint.Kind
import PhpLint.Text.Grouped
import PhpLint.Text.Line
import PhpLint.Text.Letter
import PhpLint.Text.Quoted
import PhpLint.Hierarchy.ClassName
import PhpLint.Token.Lexer
import PhpLint.Literal.Quoted
import PhpLint.Literal.Binary64
import PhpLint.Tree.Position
import PhpLint.Tree.Dump
import PhpLint.Tree.Integrity
import PhpLint.Tree.Builder
import PhpLint.Tree.Edit
import PhpLint.Parse.Fragment
import PhpLint.Tree.Expression
import PhpLint.Tree.Statement
import PhpLint.Cost
import PhpLint.Options.Reader
import PhpLint.Hierarchy.Memo
import PhpLint.Equivalence
import PhpLint.Coupling
import PhpLint.Fix.Apply
import PhpLint.ReplaceCall.Merge
import PhpLint.Tool.Program
import PhpLint.Tool.Single
import PhpLint.Main
import PhpLint.Proofs.Parse.Refusal
import PhpLint.Proofs.ReplaceCall.Outdated
import PhpLint.Proofs.Tree.GivenUp
import PhpLint.Proofs.Token.Lossless
import PhpLint.Proofs.Token.Alone
import PhpLint.Proofs.Token.Bytewise
import PhpLint.Proofs.Equivalence.Sound
import PhpLint.Proofs.Equivalence.Cost
import PhpLint.Proofs.Equivalence.Formatting
import PhpLint.Proofs.IfConditions.Ambiguous
import PhpLint.Proofs.Spacing.Findings
import PhpLint.Proofs.Analysis.Walks
import PhpLint.Proofs.Fix.Splices
import PhpLint.Proofs.IfConditions.Repeats
import PhpLint.Proofs.Analysis.Repeats
import PhpLint.Proofs.Hierarchy.Answers
import PhpLint.Proofs.Hierarchy.Order
import PhpLint.Proofs.Fix.Applicable
import PhpLint.Proofs.Fix.Eliminating
import PhpLint.Proofs.Parse.Shapes
import PhpLint.Proofs.Hierarchy.Closure
import PhpLint.Proofs.Condition.ShortCircuit
import PhpLint.Proofs.Parse.Places
import PhpLint.Proofs.Parse.Chains
import PhpLint.Proofs.Tree.Footprint
import PhpLint.Proofs.Fix.Siblings
import PhpLint.Proofs.Parse.Targets
import PhpLint.Proofs.Tree.Wrapping
import PhpLint.Proofs.Tree.Restoring
import PhpLint.Proofs.Fix.Commuting
import PhpLint.Proofs.Token.Heredocs
import PhpLint.Proofs.Literal.Interpolated
import PhpLint.Proofs.Literal.Integer
import PhpLint.Proofs.Cost.Bounds
import PhpLint.Proofs.IfConditions.Exemption
import PhpLint.Proofs.Parse.Snippets
import PhpLint.Proofs.Hierarchy.Namespaces
import PhpLint.Proofs.Tree.Traversal
import PhpLint.Proofs.Text.Grouped
