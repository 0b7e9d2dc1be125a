import SchemeStack.Text.Alphanumeric
import SchemeStack.Text.Decimal
import SchemeStack.Text.Quoted
import SchemeStack.Source.Excerpt
import SchemeStack.Token.Basic
import SchemeStack.Datum.Access
import SchemeStack.Token.Scanner
import SchemeStack.Datum.Reader
import SchemeStack.Settings
import SchemeStack.Core.Value
import SchemeStack.Expr.Analysis
import SchemeStack.SymbolTable
import SchemeStack.Core.Printer
import SchemeStack.Core.Lowering
import SchemeStack.Core.NormalForm
import SchemeStack.Core.DeadBinding
import SchemeStack.Machine.Codegen
import SchemeStack.CommandLine.Execution
import SchemeStack.Main
import SchemeStack.Proofs.CodeMeaning
import SchemeStack.Proofs.OperandOrder
import SchemeStack.Proofs.CellSafety
import SchemeStack.Proofs.NormalFormNames
import SchemeStack.Proofs.DeadBindingMeaning
import SchemeStack.Proofs.LoweringMeaning
import SchemeStack.Proofs.PipelineFaults
import SchemeStack.Proofs.WrittenForms
import SchemeStack.Proofs.FreshSpelling
import SchemeStack.Proofs.GlobalNames
import SchemeStack.Proofs.PoolLayout
import SchemeStack.Proofs.EntryCompleteness
import SchemeStack.Proofs.TableRuns
import SchemeStack.Proofs.TextJoining
import SchemeStack.Proofs.SessionEntries
import SchemeStack.Proofs.TemplateMeaning
import SchemeStack.Proofs.LiveBindings
import SchemeStack.Proofs.NormalFormStability
import SchemeStack.Proofs.ExcerptCaret
import SchemeStack.Proofs.FaultPlaces
import SchemeStack.Proofs.LiteralTemplates
import SchemeStack.Proofs.LexicalScope
import SchemeStack.Proofs.VariableCensus
import SchemeStack.Proofs.DotLiterals
import SchemeStack.Proofs.StrayParens
import SchemeStack.Proofs.AlphaEquivalence
import SchemeStack.Proofs.Traversals
