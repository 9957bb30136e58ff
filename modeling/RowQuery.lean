import RowQuery.Double.Decimal
import RowQuery.Json.Printer
import RowQuery.Json.Source
import RowQuery.Text.Blank
import RowQuery.Text.Quoted
import RowQuery.Text.Capital
import RowQuery.Text.Base64
import RowQuery.Value.Json
import RowQuery.Tree.Json
import RowQuery.Path
import RowQuery.Config
import RowQuery.Spec
import RowQuery.Directive.Json
import RowQuery.Builder
import RowQuery.Builder.Chain
import RowQuery.Builder.InPlace
import RowQuery.Declaration
import RowQuery.Sql.Spec
import RowQuery.Sql.Provider
import RowQuery.Document.Spec
import RowQuery.Document.Store
import RowQuery.Document.Provider
import RowQuery.Proofs.Builder.Translation
import RowQuery.Proofs.Builder.Grammar
import RowQuery.Proofs.Builder.Alternatives
import RowQuery.Proofs.Document.Meaning
import RowQuery.Proofs.Sql.Meaning
import RowQuery.Proofs.Sql.Condition
import RowQuery.Proofs.Builder.LastWrite
import RowQuery.Proofs.Builder.Lockout
import RowQuery.Proofs.Builder.Atomic
import RowQuery.Proofs.Builder.Dotted
import RowQuery.Proofs.Sql.Scope
import RowQuery.Proofs.Repository.Paging
import RowQuery.Proofs.Repository.Caching
import RowQuery.Proofs.Document.PrefixRange
import RowQuery.Proofs.Document.Refusal
import RowQuery.Proofs.Document.Whole
import RowQuery.Proofs.Builder.Shaping
import RowQuery.Proofs.Builder.Calls
import RowQuery.Proofs.Builder.Negation
import RowQuery.Proofs.Tree.Join
import RowQuery.Proofs.Tree.Overwrite
import RowQuery.Proofs.Operator.RoundTrip
import RowQuery.Proofs.Sql.Key
import RowQuery.Proofs.Sql.Like
import RowQuery.Proofs.Document.NullField
import RowQuery.Proofs.Document.Stored
import RowQuery.Proofs.Document.Chronology
import RowQuery.Proofs.Repository.Token
import RowQuery.Proofs.Declaration
import RowQuery.Proofs.Path.Resolution
import RowQuery.Proofs.Path.Text
import RowQuery.Proofs.Sql.Joins
import RowQuery.Proofs.Builder.Sorting
