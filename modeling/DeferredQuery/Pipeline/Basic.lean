import DeferredQuery.Expr.Text

/-!
# Pipelines

A query as a source of rows, the operations on them in order, and the type of what comes out.
-/

namespace DeferredQuery

inductive Operation where
  | filter (predicate : Expr)
  | select (selector : Expr)
  | orderBy (key : Expr) (descending : Bool)
  | thenBy (key : Expr) (descending : Bool)
  | skip (count : Expr)
  | take (count : Expr)
  | distinct
  | join (inner : SetRef) (outerKey innerKey result : Expr)
  | count (predicate : Option Expr)
  | any (predicate : Option Expr)
  | first (predicate : Option Expr) (orDefault : Bool)
  | single (predicate : Option Expr)
  /-- An operation that is known by its name alone. -/
  | custom (name : String) (arguments : List Expr)

namespace Operation

def name : Operation → String
  | filter _ => "Where"
  | select _ => "Select"
  | orderBy _ descending => if descending then "OrderByDescending" else "OrderBy"
  | thenBy _ descending => if descending then "ThenByDescending" else "ThenBy"
  | skip _ => "Skip"
  | take _ => "Take"
  | distinct => "Distinct"
  | join .. => "Join"
  | count _ => "Count"
  | any _ => "Any"
  | first _ orDefault => if orDefault then "FirstOrDefault" else "First"
  | single _ => "Single"
  | custom name _ => name

/-- Whether the operation turns the sequence into one value. -/
def isTerminal : Operation → Bool
  | count _ | any _ | first .. | single _ => true
  | _ => false

/-- The arguments that are expressions, so without the inner source of a join. -/
def arguments : Operation → List Expr
  | filter predicate => [predicate]
  | select selector => [selector]
  | orderBy key _ => [key]
  | thenBy key _ => [key]
  | skip n => [n]
  | take n => [n]
  | distinct => []
  | join _ outerKey innerKey result => [outerKey, innerKey, result]
  | count predicate => predicate.toList
  | any predicate => predicate.toList
  | first predicate _ => predicate.toList
  | single predicate => predicate.toList
  | custom _ arguments => arguments

def text (op : Operation) : String :=
  let inner := match op with
    | join root .. => root.set ++ ", "
    | _ => ""
  op.name ++ "(" ++ inner ++ Text.commaSep (op.arguments.map Expr.text) ++ ")"

end Operation

/-- What a pipeline gives: items of a type in order, or one value of it. -/
inductive ResultTy where
  | sequence (element : Ty)
  | single (value : Ty)
deriving DecidableEq

namespace ResultTy

def element : ResultTy → Ty
  | sequence t => t
  | single t => t

def isSingle : ResultTy → Bool
  | sequence _ => false
  | single _ => true

end ResultTy

structure Pipeline where
  source : SetRef
  operations : List Operation
  result : ResultTy

namespace Pipeline

def text (p : Pipeline) : String :=
  Text.joinWith " | " (p.source.set :: p.operations.map Operation.text)

end Pipeline

end DeferredQuery
