import DeferredQuery.Pipeline.Classify
import DeferredQuery.Plan.Cache
import DeferredQuery.Plan.Store
import DeferredQuery.Shape.Extract
import DeferredQuery.Shape.Volatile

/-!
# Running queries through plans

A query is reduced to its shape, whose plan is taken from the cache or compiled by the store, and
then run with the values that the query captured.
-/

namespace DeferredQuery

inductive ExecutionError (ε : Type) where
  | rows (e : ε)
  /-- All rows are asked for at once, but the plan streams them. -/
  | streaming

namespace ExecutionError

variable {ε : Type}

def message (wording : ε → String) : ExecutionError ε → String
  | rows e => wording e
  | streaming => "store returned a streaming executor for a synchronous query"

end ExecutionError

inductive QueryError (κ ε : Type) where
  | extraction (e : ExtractError)
  | classification (e : ClassifyError)
  | compilation (e : κ)
  | execution (e : ExecutionError ε)
  | emptySequence
  | cancelled

namespace QueryError

variable {κ ε : Type}

def message (compilation : κ → String) (rows : ε → String) : QueryError κ ε → String
  | extraction e => e.message
  | classification e => "Query parse error: " ++ e.message
  | .compilation e => compilation e
  | execution e => "Query execution failed: " ++ e.message rows
  | emptySequence => "Sequence contains no elements"
  | cancelled => "Query was cancelled"

end QueryError

/-- A compiled query. Plans of different compilations have different numbers. -/
structure Plan (σ ε : Type) where
  number : Nat
  /-- The type of the rows. -/
  element : Ty
  executor : Executor σ ε

structure Compiler (σ κ ε : Type) where
  store : Store σ κ ε
  classifier : Classifier
  volatile : VolatileMethods
  oracle : Eval.Oracle

/-- What a compiler changes as it works. -/
structure Session (σ ε : Type) where
  cache : PlanCache (Plan σ ε)
  contents : σ
  /-- The number of compilations, failed ones included. -/
  compiles : Nat
  /-- The number of answers drawn from the compiler's oracle. -/
  draws : Nat

/-- The state of one call: the session, and the placeholder values of this call. -/
structure Call (σ ε : Type) where
  params : Bindings
  session : Session σ ε

namespace Compiler

variable {σ κ ε : Type}

/-- A computation that keeps its state when it fails. -/
abbrev QueryM (σ κ ε : Type) := ExceptT (QueryError κ ε) (StateM (Call σ ε))

def shape (c : Compiler σ κ ε) (query : Expr) : Extract.ExtractM Expr := do
  let e ← extract c.oracle (c.volatile.tag query)
  return e.untag

/-- The shape of a query, with its values among the placeholders of the call. -/
def extractShape (c : Compiler σ κ ε) (query : Expr) : QueryM σ κ ε Expr := ExceptT.mk fun call =>
  match (c.shape query).run ⟨call.params, call.session.draws⟩ with
  | (r, s) =>
    (r.mapError .extraction, ⟨s.params, { call.session with draws := s.draws }⟩)

def lookup (key : PlanKey) : QueryM σ κ ε (Option (Plan σ ε)) := ExceptT.mk fun call =>
  let (found, cache) := call.session.cache.get key
  (.ok found, { call with session := { call.session with cache } })

def compile (c : Compiler σ κ ε) (mode : Mode) (p : Pipeline) : QueryM σ κ ε (Plan σ ε) :=
  ExceptT.mk fun call =>
    let number := call.session.compiles
    let (r, contents) := c.store.compile p p.result.element mode call.session.contents
    let call := { call with session := { call.session with contents, compiles := number + 1 } }
    match r with
    | .ok executor => (.ok ⟨number, p.result.element, executor⟩, call)
    | .error e => (.error (.compilation e), call)

/-- Puts a plan into the cache; the result is the plan that the cache holds now. -/
def remember (key : PlanKey) (plan : Plan σ ε) : QueryM σ κ ε (Plan σ ε) :=
  ExceptT.mk fun call =>
    let (kept, cache) := call.session.cache.insert key plan
    (.ok kept, { call with session := { call.session with cache } })

def planOf (c : Compiler σ κ ε) (mode : Mode) (shape : Expr) : QueryM σ κ ε (Plan σ ε) := do
  let key := PlanKey.ofShape c.store.identity mode shape
  match ← lookup key with
  | some plan => return plan
  | none => do
    match Pipeline.classify c.classifier shape with
    | .error e => throw (.classification e)
    | .ok pipeline => do
      let plan ← c.compile mode pipeline
      remember key plan

def plan (c : Compiler σ κ ε) (mode : Mode) (query : Expr) : QueryM σ κ ε (Plan σ ε) := do
  let shape ← c.extractShape query
  c.planOf mode shape

def run (plan : Plan σ ε) : QueryM σ κ ε (Rows ε) := ExceptT.mk fun call =>
  let (r, contents) := plan.executor.run call.params call.session.contents
  (r.mapError fun e => .execution (.rows e),
    { call with session := { call.session with contents } })

/-! ## Entry points -/

def rows (c : Compiler σ κ ε) (query : Expr) : QueryM σ κ ε (Rows ε) := do
  let plan ← c.plan .sync query
  match plan.executor.mode with
  | .sync => run plan
  | .async => throw (.execution .streaming)

def stream (c : Compiler σ κ ε) (query : Expr) : QueryM σ κ ε (Rows ε) := do
  let plan ← c.plan .async query
  run plan

/-- All values up to the first failing row, which is an error. -/
def collect : Rows ε → Except (QueryError κ ε) (List Value)
  | [] => .ok []
  | .error e :: _ => .error (.execution (.rows e))
  | .ok v :: rest => do return v :: (← collect rest)

def firstRow : Rows ε → Except (QueryError κ ε) Value
  | [] => .error .emptySequence
  | .error e :: _ => .error (.execution (.rows e))
  | .ok v :: _ => .ok v

def execute (c : Compiler σ κ ε) (query : Expr) : QueryM σ κ ε (List Value) := do
  let rows ← c.rows query
  ExceptT.mk (pure (collect rows))

def executeStream (c : Compiler σ κ ε) (query : Expr) : QueryM σ κ ε (List Value) := do
  let rows ← c.stream query
  ExceptT.mk (pure (collect rows))

def executeScalar (c : Compiler σ κ ε) (query : Expr) : QueryM σ κ ε Value := do
  let rows ← c.rows query
  ExceptT.mk (pure (firstRow rows))

/-- The first value of a query, taken from a stream that may have been cancelled before. -/
def executeScalarStream (c : Compiler σ κ ε) (cancelled : Bool) (query : Expr) :
    QueryM σ κ ε Value := do
  let rows ← c.stream query
  if cancelled then throw .cancelled else ExceptT.mk (pure (firstRow rows))

end Compiler

end DeferredQuery
