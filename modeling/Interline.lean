import Interline.Text
import Interline.Span
import Interline.Token
import Interline.TokenStore
import Interline.SyntaxTree
import Interline.SourceModel
import Interline.StatementType
import Interline.Requirement
import Interline.Linebreaks
import Interline.Replacement
import Interline.Repair
import Interline.Policy
import Interline.Check
import Interline.Policy.Entry
import Interline.Path
import Interline.Violation
import Interline.LintResult
import Interline.LinebreakRule
import Interline.Config
import Interline.Wildcard
import Interline.Glob
import Interline.Project.FileTree
import Interline.Project.IgnoreRule
import Interline.Project.Walk
import Interline.Analyzer
import Interline.JavaScript.Model
import Interline.Json
import Interline.CommandLine.Help
import Interline.CommandLine.Session
import Interline.Main
import Interline.Proofs.Adjacency
import Interline.Proofs.CheckedPairs
import Interline.Proofs.ScopeStack
import Interline.Proofs.TreeGrowth
import Interline.Proofs.TokenSearch
import Interline.Proofs.TextPlaces
import Interline.Proofs.Splicing
import Interline.Proofs.LineCounts
import Interline.Proofs.Coherence
import Interline.Proofs.Reports
import Interline.Proofs.LastTokens
import Interline.Proofs.ModelCheck
import Interline.Proofs.Rebasing
import Interline.Proofs.SparingEdits
import Interline.Proofs.OnePass
import Interline.Proofs.OpenEnds
import Interline.Proofs.Deletions
import Interline.Proofs.ManyPasses
import Interline.Proofs.Conflicts
import Interline.Proofs.SecondPass
import Interline.Proofs.FileGroups
import Interline.Proofs.SingleEdit
import Interline.Proofs.TreePlaces
import Interline.Proofs.TokenLeaves
import Interline.Proofs.Outline
import Interline.Proofs.BlankLines
import Interline.Proofs.Selection
import Interline.Proofs.RulePrecedence
import Interline.Proofs.EntryForm
import Interline.Proofs.LineTerminators
import Interline.Proofs.WalkedPaths
import Interline.Proofs.SourceOrder
import Interline.Proofs.ResultOrder
import Interline.Proofs.ExhaustiveSearch
import Interline.Proofs.Descents
import Interline.Proofs.LocatedPaths
import Interline.Proofs.ConfigSearch
