import DeferredQuery.Pipeline.Basic
import DeferredQuery.Sql.Row

/-!
# Select statements by their clauses

The operations of a pipeline fill the clauses of one statement. Later filters and sorts join the
earlier ones; an operation that would have to see rows already cut or made distinct is refused.
-/

namespace DeferredQuery.Sql

structure Join where
  table : String
  name : String
  outerKey : Term
  innerKey : Term

structure SortKey where
  term : Term
  descending : Bool

/-- How many rows of the statement the query is about. -/
inductive Cardinality where
  | many
  | first (orDefault : Bool)
  | count
  | exists
deriving DecidableEq, Repr

structure Select where
  table : String
  join : Option Join
  filters : List Term
  order : List SortKey
  /-- The number of keys of the latest sort and its secondary keys; they are the most
  significant. -/
  primaryKeys : Nat
  limit : Option Term
  offset : Option Term
  distinct : Bool
  comments : List String
  /-- What each row of the statement holds. -/
  current : Row
  cardinality : Cardinality

namespace Select

def outerName : String := "t0"

def innerName : String := "t1"

def resolve (schema : Schema) (root : SetRef) : Except Error Entity :=
  match (schema.sets.get? root.set).bind schema.entities.get? with
  | some e => .ok e
  | none => .error (.unknownSet root.set)

def ofSource (schema : Schema) (root : SetRef) : Except Error Select := do
  let e ← resolve schema root
  return {
    table := e.table, join := none, filters := [], order := [], primaryKeys := 0, limit := none
    offset := none, distinct := false, comments := [], current := .entity outerName e.name
    cardinality := .many }

/-- Whether the rows are cut or made distinct. -/
def isCut (s : Select) : Bool := s.limit.isSome || s.offset.isSome || s.distinct

def requireWhole (s : Select) (operation : String) : Except Error Unit :=
  if s.isCut then .error (.unsupported (.afterCut operation)) else .ok ()

def filter (ctx : Context) (s : Select) (operation : String) (predicate : Expr) :
    Except Error Select := do
  s.requireWhole operation
  let term ← lowerLambdaTerm ctx [s.current] predicate
  return { s with filters := s.filters ++ [term] }

def filterBy (ctx : Context) (s : Select) (operation : String) :
    Option Expr → Except Error Select
  | some predicate => s.filter ctx operation predicate
  | none => .ok s

def take (s : Select) (count : Term) : Select :=
  { s with
    limit := some <|
      match s.limit with
      | some earlier => .function "LEAST" [earlier, count] .int
      | none => count }

def skip (s : Select) (count : Term) : Select :=
  { s with
    offset := some <|
      match s.offset with
      | some earlier => .binary .add earlier count
      | none => count }

/-- Joins the table of a set, and makes rows of the pairs. -/
def joinWith (ctx : Context) (s : Select) (inner : SetRef) (outerKey innerKey result : Expr) :
    Except Error Select := do
  s.requireWhole "Join"
  if s.join.isSome then throw (.unsupported .secondJoin)
  let e ← resolve ctx.schema inner
  let row := Row.entity innerName e.name
  let outerTerm ← lowerLambdaTerm ctx [s.current] outerKey
  let innerTerm ← lowerLambdaTerm ctx [row] innerKey
  let current ← lowerLambda ctx [s.current, row] result
  return { s with current, join := some ⟨e.table, innerName, outerTerm, innerTerm⟩ }

/-- Adds a comment or refuses the operation of the given name. -/
def annotate (s : Select) (name : String) (arguments : List Expr) : Except Error Select :=
  if name = "TagWith" then
    match arguments with
    | [.constant (.string tag) _] =>
      .ok { s with
        comments := s.comments ++ [String.ofList (Text.partCommentEnd tag.toList)] }
    | _ => .error (.unsupported .computedTag)
  else .error (.unsupported (.operation name))

def extend (ctx : Context) (s : Select) : Operation → Except Error Select
  | .filter predicate => s.filter ctx "Where" predicate
  | .select selector => do
    if s.distinct then throw (.unsupported .selectAfterDistinct)
    let current ← lowerLambda ctx [s.current] selector
    return { s with current }
  | .orderBy key descending => do
    s.requireWhole "OrderBy"
    let term ← lowerLambdaTerm ctx [s.current] key
    return { s with order := ⟨term, descending⟩ :: s.order, primaryKeys := 1 }
  | .thenBy key descending => do
    s.requireWhole "ThenBy"
    if s.order.isEmpty then throw (.unsupported .thenByAlone)
    let term ← lowerLambdaTerm ctx [s.current] key
    return { s with
      order := s.order.insertIdx s.primaryKeys ⟨term, descending⟩
      primaryKeys := s.primaryKeys + 1 }
  | .skip n => do
    if s.limit.isSome then throw (.unsupported .skipAfterTake)
    let term ← lowerTerm ctx [] n
    return s.skip term
  | .take n => do
    let term ← lowerTerm ctx [] n
    return s.take term
  | .distinct =>
    if s.limit.isSome || s.offset.isSome then .error (.unsupported .distinctAfterCut)
    else .ok { s with distinct := true }
  | .join inner outerKey innerKey result => s.joinWith ctx inner outerKey innerKey result
  | .count predicate => do
    let s ← s.filterBy ctx "Count" predicate
    return { s with cardinality := .count }
  | .any predicate => do
    let s ← s.filterBy ctx "Any" predicate
    return { s with cardinality := .exists }
  | .first predicate orDefault => do
    let s ← s.filterBy ctx (Operation.first predicate orDefault).name predicate
    return { s.take (.literal (.int 1)) with cardinality := .first orDefault }
  | .single _ => .error (.unsupported (.operation "Single"))
  | .custom name arguments => s.annotate name arguments

def apply (ctx : Context) (s : Select) (op : Operation) : Except Error Select :=
  if s.cardinality = .many then s.extend ctx op
  else .error (.unsupported (.afterTerminal op.name))

def ofPipeline (ctx : Context) (p : Pipeline) : Except Error Select := do
  let s ← ofSource ctx.schema p.source
  p.operations.foldlM (apply ctx) s

end Select

end DeferredQuery.Sql
