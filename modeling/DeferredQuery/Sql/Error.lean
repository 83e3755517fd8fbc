import DeferredQuery.Expr.Text

/-!
# Errors of statements
-/

namespace DeferredQuery.Sql

/-- What a pipeline asks for that no single statement can give. -/
inductive Unsupported where
  | afterTerminal (name : String)
  | selectAfterDistinct
  /-- An operation on rows that are already cut or made distinct. -/
  | afterCut (name : String)
  | thenByAlone
  | skipAfterTake
  | distinctAfterCut
  | secondJoin
  | operation (name : String)
  /-- A tag that is no literal text. -/
  | computedTag
  | notLambda (found : Expr)
  | lambdaArity (params bound : Nat)
  | missingField (name : String)
  | scalarMember (name : String)
  | nestedQuery (set : String)
  /-- An operator whose meaning in the statement differs from that in the query. -/
  | operands (op : BinOp) (left right : Ty)
  | lambdaValue
  /-- A field of a projected row that is a row itself. -/
  | wideField (name : String)
  | rowValue (entity : String)
  | recordValue
  | castTo (ty : Ty)
  | literalOf (ty : Ty)

namespace Unsupported

def message : Unsupported → String
  | afterTerminal name => name ++ " after a terminal operation"
  | selectAfterDistinct => "Select after Distinct"
  | afterCut name => name ++ " after Skip, Take or Distinct"
  | thenByAlone => "ThenBy without OrderBy"
  | skipAfterTake => "Skip after Take"
  | distinctAfterCut => "Distinct after Skip or Take"
  | secondJoin => "more than one Join"
  | operation name => name ++ " is not supported by the DuckDB store"
  | computedTag => "TagWith requires a literal tag"
  | notLambda found => "expected a lambda, found " ++ found.text
  | lambdaArity params bound =>
    "lambda takes " ++ toString params ++ " parameters, " ++ toString bound ++ " bound"
  | missingField name => "projected record has no field '" ++ name ++ "'"
  | scalarMember name => "member '" ++ name ++ "' of a scalar value"
  | nestedQuery set => "nested query over '" ++ set ++ "'"
  | operands op left right => op.symbol ++ " on " ++ left.text ++ " and " ++ right.text
  | lambdaValue => "lambda outside a query operator"
  | wideField name => "field '" ++ name ++ "' projects a whole entity"
  | rowValue entity => "whole " ++ entity ++ " row used as a value"
  | recordValue => "record used as a value"
  | castTo ty => "cast to " ++ ty.text
  | literalOf ty => "literal of type " ++ ty.text

end Unsupported

inductive Error where
  | unknownSet (set : String)
  | unknownProperty (entity property : String)
  | noFunction (method : Method)
  | unsupported (cause : Unsupported)

namespace Error

def message : Error → String
  | unknownSet set => "Entity set '" ++ set ++ "' is not part of the model"
  | unknownProperty entity property =>
    "Entity '" ++ entity ++ "' has no property '" ++ property ++ "'"
  | noFunction method => "No translator accepts method " ++ method.text
  | unsupported cause => "Not supported by the DuckDB store: " ++ cause.message

end Error

end DeferredQuery.Sql
