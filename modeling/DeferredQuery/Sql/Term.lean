import DeferredQuery.Expr.Basic

/-!
# Terms of SQL statements

The expressions of a statement, before any choice of notation.
-/

namespace DeferredQuery.Sql

inductive Term where
  | column (table column : String)
  /-- A value that is bound when the statement runs. -/
  | parameter (name : String)
  | literal (value : Value)
  | function (name : String) (args : List Term) (ty : Ty)
  | binary (op : BinOp) (left right : Term)
  | unary (op : UnOp) (operand : Term)
  | cast (operand : Term) (ty : Ty)

instance : Inhabited Term := ⟨.literal .null⟩

/-- The name of the statement's type for values of a type, where there is one. -/
def typeName? : Ty → Option String
  | .bool => some "BOOLEAN"
  | .int => some "BIGINT"
  | .float => some "DOUBLE"
  | .string => some "VARCHAR"
  | .uuid => some "UUID"
  | .timestamp => some "TIMESTAMP"
  | .nullable t => typeName? t
  | _ => none

/-- The term for a placeholder, cast to its type where the statement has one for it. -/
def placeholder (name : String) (t : Ty) : Term :=
  if (typeName? t).isSome then .cast (.parameter name) t else .parameter name

end DeferredQuery.Sql
