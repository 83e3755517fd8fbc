import DeferredQuery.Digest.Sha256
import DeferredQuery.Expr.Text

/-!
# Plan keys

A plan is kept under the schema that it was compiled for, the way its rows are delivered and the
text of the query's shape.
-/

namespace DeferredQuery

/-- How the rows of a query are delivered: all at once, or as a stream. -/
inductive Mode where
  | sync
  | async
deriving DecidableEq, Repr

def Mode.text : Mode → String
  | sync => "Sync"
  | async => "Async"

structure PlanKey where
  /-- The identity of the schema. -/
  schema : String
  mode : Mode
  /-- The text of the shape. -/
  shape : String
deriving DecidableEq, Repr

namespace PlanKey

def ofShape (schema : String) (mode : Mode) (shape : Expr) : PlanKey := ⟨schema, mode, shape.text⟩

/-- The digest of the parts with a zero byte after each of the first two. -/
def fingerprint (k : PlanKey) : String :=
  Sha256.hexOfText (k.schema ++ "\x00" ++ k.mode.text ++ "\x00" ++ k.shape)

end PlanKey

end DeferredQuery
