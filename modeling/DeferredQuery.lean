import DeferredQuery.Text.CharRange
import DeferredQuery.Text.Blank
import DeferredQuery.Text.Printable
import DeferredQuery.Text.CaseTable
import DeferredQuery.Text.Case
import DeferredQuery.Text.Quoted
import DeferredQuery.Text.Join
import DeferredQuery.Number.Checked
import DeferredQuery.Number.Binary64
import DeferredQuery.Number.Decimal
import DeferredQuery.Uuid
import DeferredQuery.Instant
import DeferredQuery.Digest.Sha256
import DeferredQuery.Named
import DeferredQuery.Json.Basic
import DeferredQuery.Json.Printer
import DeferredQuery.Json.Reader
import DeferredQuery.Json.Fields
import DeferredQuery.Ty.Basic
import DeferredQuery.Ty.Json
import DeferredQuery.Value.Basic
import DeferredQuery.Value.Order
import DeferredQuery.Value.Text
import DeferredQuery.Value.Json
import DeferredQuery.Method
import DeferredQuery.Expr.Basic
import DeferredQuery.Expr.Text
import DeferredQuery.Expr.Json
import DeferredQuery.KeyMap
import DeferredQuery.Schema.Basic
import DeferredQuery.Schema.Json
import DeferredQuery.QueryText.Tree
import DeferredQuery.QueryText.Reader
import DeferredQuery.QueryText.Error
import DeferredQuery.QueryText.Typing
import DeferredQuery.Bindings
import DeferredQuery.Eval.Error
import DeferredQuery.Eval.Scalar
import DeferredQuery.Eval.Items
import DeferredQuery.Eval.Basic
import DeferredQuery.Pipeline.Basic
import DeferredQuery.Pipeline.Json
import DeferredQuery.Pipeline.Classify
import DeferredQuery.Shape.Volatile
import DeferredQuery.Shape.Closed
import DeferredQuery.Shape.Extract
import DeferredQuery.Plan.Key
import DeferredQuery.Plan.Cache
import DeferredQuery.Plan.Store
import DeferredQuery.Plan.Compiler
import DeferredQuery.MemoryStore
import DeferredQuery.Sql.Term
import DeferredQuery.Sql.TermJson
import DeferredQuery.Sql.Function
import DeferredQuery.Sql.Error
import DeferredQuery.Sql.Row
import DeferredQuery.Sql.Select
import DeferredQuery.Sql.Statement
import DeferredQuery.Sql.Cell
import DeferredQuery.Yaml.Basic
import DeferredQuery.Yaml.Reader
import DeferredQuery.Config.Logging
import DeferredQuery.Config.Basic
import DeferredQuery.Proofs.Eval.Alike
import DeferredQuery.Proofs.Eval.Entails
import DeferredQuery.Proofs.Eval.Outcomes
import DeferredQuery.Proofs.Number.Shortest
import DeferredQuery.Proofs.Text.Quoting
import DeferredQuery.Proofs.Expr.Nodes
import DeferredQuery.Proofs.Expr.Form
import DeferredQuery.Proofs.Expr.Legible
import DeferredQuery.Proofs.Expr.Matching
import DeferredQuery.Proofs.Eval.Follows
import DeferredQuery.Proofs.Shape.Binding
import DeferredQuery.Proofs.Shape.Parts
import DeferredQuery.Proofs.Shape.Tags
import DeferredQuery.Proofs.Shape.Meaning
import DeferredQuery.Proofs.Pipeline.Chain
import DeferredQuery.Proofs.Pipeline.Execution
import DeferredQuery.Proofs.Pipeline.Draws
import DeferredQuery.Proofs.Pipeline.Matching
import DeferredQuery.Proofs.Plan.Cache
import DeferredQuery.Proofs.Plan.Calls
import DeferredQuery.Proofs.Plan.Runs
import DeferredQuery.Proofs.Plan.Transparency
import DeferredQuery.Proofs.Order.Stable
import DeferredQuery.Proofs.Order.Values
import DeferredQuery.Proofs.Sql.Reading
import DeferredQuery.Proofs.Sql.Terms
import DeferredQuery.Proofs.Sql.Lexical
import DeferredQuery.Proofs.Eval.Computed
import DeferredQuery.Proofs.Order.Lexicographic
import DeferredQuery.Proofs.Sql.Lowering
import DeferredQuery.Proofs.Sql.Frames
import DeferredQuery.Proofs.Sql.Clauses
import DeferredQuery.Proofs.Sql.Pieces
import DeferredQuery.Proofs.Sql.Markers
import DeferredQuery.Proofs.Sql.Alignment
import DeferredQuery.Proofs.Sql.Columns
import DeferredQuery.Proofs.Sql.Steps
import DeferredQuery.Proofs.Sql.Flattening
import DeferredQuery.Proofs.Eval.Settled
import DeferredQuery.Proofs.Shape.Tagged
import DeferredQuery.Proofs.QueryText.Built
import DeferredQuery.Proofs.QueryText.Deferred
import DeferredQuery.Proofs.Shape.Deferred
import DeferredQuery.Proofs.Sql.Conversions
import DeferredQuery.Proofs.Shape.Captured
import DeferredQuery.Proofs.Sql.Ternary
import DeferredQuery.Proofs.Sql.Guards
import DeferredQuery.Proofs.Sql.Keyed
import DeferredQuery.Proofs.Sql.Written
import DeferredQuery.Proofs.Sql.Tokens
import DeferredQuery.Proofs.Sql.Scoped
import DeferredQuery.Proofs.Sql.Windows
import DeferredQuery.Proofs.Plan.Bound
import DeferredQuery.Proofs.Pipeline.Rebuild
import DeferredQuery.Proofs.Pipeline.Spine
import DeferredQuery.Proofs.Shape.Spine
import DeferredQuery.Proofs.Shape.Replacement
import DeferredQuery.Proofs.Shape.Shared
import DeferredQuery.Proofs.Shape.Freshness
import DeferredQuery.Proofs.Shape.Ordered
import DeferredQuery.Proofs.Shape.Layers
import DeferredQuery.Proofs.Shape.Idempotent
import DeferredQuery.Proofs.Eval.Fits
import DeferredQuery.Proofs.QueryText.Sound
import DeferredQuery.Proofs.Shape.Restored
import DeferredQuery.Proofs.QueryText.Reading
import DeferredQuery.Proofs.QueryText.Captures
import DeferredQuery.Proofs.QueryText.Plain
import DeferredQuery.Proofs.QueryText.Inverse
import DeferredQuery.Proofs.Text.Canonical
import DeferredQuery.Proofs.Json.Scalars
import DeferredQuery.Proofs.Json.Text
import DeferredQuery.Proofs.Json.Encodings
import DeferredQuery.Proofs.Json.Values
import DeferredQuery.Proofs.Json.Pipelines
import DeferredQuery.Proofs.Json.Canonical
import DeferredQuery.Proofs.Plan.Delivery
import DeferredQuery.Proofs.Eval.Distinct
import DeferredQuery.Proofs.Eval.Whole
import DeferredQuery.Proofs.Sql.Cells
import DeferredQuery.Proofs.Eval.Families
import DeferredQuery.Proofs.Eval.Answers
import DeferredQuery.Proofs.Eval.Reads
import DeferredQuery.Proofs.Order.Repeated
import DeferredQuery.Proofs.Shape.Parallel
import DeferredQuery.Proofs.Shape.Shortcut
import DeferredQuery.Proofs.QueryText.Signs
