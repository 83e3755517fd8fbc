import DeferredQuery.Eval.Basic
import DeferredQuery.Plan.Store
import DeferredQuery.Schema.Json

/-!
# The store in memory

Rows are held per entity set. A pipeline is checked against the schema when it is compiled, and
runs operation by operation on the rows that are there when it runs.
-/

namespace DeferredQuery

inductive MemoryStoreError where
  | unknownSet (set : String)
  | unsupported (operation : String)
deriving DecidableEq, Repr

def MemoryStoreError.message : MemoryStoreError → String
  | unknownSet set => "Entity set '" ++ set ++ "' is not part of the model"
  | unsupported operation =>
    "Operation '" ++ operation ++ "' is not supported by the in-memory store"

/-- The rows of the entity sets, and the number of answers drawn from the oracle. -/
structure Memory where
  tables : KeyMap (List Value)
  draws : Nat

namespace Memory

def empty : Memory := ⟨.empty, 0⟩

def scan (m : Memory) (root : SetRef) : List Value := (m.tables.get? root.set).getD []

def insert (schema : Schema) (m : Memory) (set : String) (rows : List Value) :
    Except MemoryStoreError Memory :=
  match schema.sets.get? set with
  | none => .error (.unknownSet set)
  | some _ =>
    .ok { m with tables := m.tables.insert set ((m.tables.get? set).getD [] ++ rows) }

end Memory

namespace MemoryStore

/-! ## Checking -/

def checkSet (schema : Schema) (root : SetRef) : Except MemoryStoreError Unit :=
  match schema.sets.get? root.set with
  | some _ => .ok ()
  | none => .error (.unknownSet root.set)

def checkOperation (schema : Schema) : Operation → Except MemoryStoreError Unit
  | .join inner _ _ _ => checkSet schema inner
  | .custom name _ => if name ∈ Items.passing then .ok () else .error (.unsupported name)
  | _ => .ok ()

/-- Whether the schema has all sets of a pipeline, and the store all of its operations. -/
def check (schema : Schema) (p : Pipeline) : Except MemoryStoreError Unit := do
  checkSet schema p.source
  p.operations.forM (checkOperation schema)

/-! ## Running -/

/-- A step of a run: a sort by one key and the secondary keys after it, or one operation. -/
inductive Stage where
  | sort (key : Eval.SortKey) (rest : List Eval.SortKey)
  | apply (op : Operation)

namespace Stage

/-- The secondary keys at the start of some stages, and the stages after them. -/
def leadingKeys : List Stage → List Eval.SortKey × List Stage
  | .apply (.thenBy key descending) :: rest =>
    let (keys, rest) := leadingKeys rest
    (⟨key, descending⟩ :: keys, rest)
  | stages => ([], stages)

def ofOperations : List Operation → List Stage
  | [] => []
  | .orderBy key descending :: ops =>
    let (keys, rest) := leadingKeys (ofOperations ops)
    .sort ⟨key, descending⟩ keys :: rest
  | op :: ops => .apply op :: ofOperations ops

def name : Stage → String
  | sort key _ => (Operation.orderBy key.selector key.descending).name
  | apply op => op.name

def run (env : Eval.Env) (items : List Value) : Stage → Eval.EvalM Value
  | sort key rest => do
    let vs ← Eval.order env items (key :: rest)
    return .list vs
  | apply (.thenBy ..) => throw (.typeMismatch .notOrdered)
  | apply (.join inner outerKey innerKey result) =>
    Eval.apply env [] (.operator "Join") items
      [.const (.query inner), outerKey, innerKey, result]
  | apply op => Eval.apply env [] (.operator op.name) items op.arguments

end Stage

/-- The result of stages, each on the items that the one before it gave. -/
def runStages (env : Eval.Env) (current : Value) : List Stage → Eval.EvalM Value
  | [] => return current
  | stage :: rest =>
    match current with
    | .list items => do
      let v ← stage.run env items
      runStages env v rest
    | _ => throw (.typeMismatch (.afterTerminal stage.name))

def rows (env : Eval.Env) (source : List Value) (p : Pipeline) : Eval.EvalM (List Value) := do
  let v ← runStages env (.list source) (Stage.ofOperations p.operations)
  match p.result.isSingle, v with
  | false, .list items => return items
  | _, v => return [v]

def run (oracle : Eval.Oracle) (p : Pipeline) (params : Bindings) :
    StateM Memory (Except EvalError (Rows EvalError)) := fun m =>
  let env : Eval.Env := ⟨some params, some fun root => .ok (m.scan root), oracle⟩
  match rows env (m.scan p.source) p m.draws with
  | .ok (vs, draws) => (.ok (vs.map .ok), { m with draws })
  | .error e => (.error e, m)

def store (schema : Schema) (oracle : Eval.Oracle) : Store Memory MemoryStoreError EvalError :=
  { identity := schema.identity
    compile := fun p _ mode => pure do
      check schema p
      return ⟨mode, run oracle p⟩ }

end MemoryStore

end DeferredQuery
