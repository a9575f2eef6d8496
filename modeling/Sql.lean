import Sql.Collect.Parameters
import Sql.Collect.Projection
import Sql.Collect.Tables
import Sql.Criteria
import Sql.Dialect
import Sql.Document.Mapping
import Sql.Document.Stage
import Sql.Edit.Bind
import Sql.Edit.Combine
import Sql.Edit.Join
import Sql.Edit.Page
import Sql.Edit.Sort
import Sql.Error
import Sql.Filter
import Sql.Filter.Place
import Sql.Filter.PushDown
import Sql.Format
import Sql.Format.Fragment
import Sql.Format.Params
import Sql.Format.Printer
import Sql.Name
import Sql.Name.Quoted
import Sql.Name.Reserved
import Sql.Number
import Sql.Number.Double
import Sql.Number.Shortest
import Sql.Parser
import Sql.Parser.Basic
import Sql.Parser.Expr
import Sql.Parser.Select
import Sql.Schema
import Sql.Scope
import Sql.Scope.Columns
import Sql.Statement
import Sql.Statement.Same
import Sql.Statement.Visit
import Sql.Statement.Walk
import Sql.Text.Alphabetic
import Sql.Text.Blank
import Sql.Text.CharRange
import Sql.Text.Numeric
import Sql.Token
import Sql.Token.Lexer
import Sql.Value
import Sql.Value.Reader
import Sql.Proofs.AnyDepth
import Sql.Proofs.Bindings
import Sql.Proofs.CallNames
import Sql.Proofs.CombinedOperands
import Sql.Proofs.CombinedTables
import Sql.Proofs.Conjuncts
import Sql.Proofs.CriteriaParams
import Sql.Proofs.DocumentCtes
import Sql.Proofs.DottedNames
import Sql.Proofs.FilterFrame
import Sql.Proofs.FilteredLeaves
import Sql.Proofs.FunctionNames
import Sql.Proofs.Grammar
import Sql.Proofs.JoinedColumns
import Sql.Proofs.LayoutText
import Sql.Proofs.LineBreaks
import Sql.Proofs.ListedColumns
import Sql.Proofs.NestingBound
import Sql.Proofs.OperatorOrder
import Sql.Proofs.Placeholders
import Sql.Proofs.PrintedText
import Sql.Proofs.PushedDown
import Sql.Proofs.QuotedText
import Sql.Proofs.ReadAtoms
import Sql.Proofs.ReadSelect
import Sql.Proofs.ReadStatement
import Sql.Proofs.ReadTree
import Sql.Proofs.Regrouping
import Sql.Proofs.ResolutionCalls
import Sql.Proofs.RoundTrip
import Sql.Proofs.Runs
import Sql.Proofs.SchemaLookups
import Sql.Proofs.SharedColumns
import Sql.Proofs.SortedOperations
import Sql.Proofs.StagedColumns
import Sql.Proofs.StagedFrame
import Sql.Proofs.SubqueryPlaces
import Sql.Proofs.TableReferences
import Sql.Proofs.TextPositions
import Sql.Proofs.UsableMappings
import Sql.Proofs.Walks
import Sql.Proofs.WrittenCtes
