import DeferredQuery.Bindings
import DeferredQuery.Pipeline.Basic
import DeferredQuery.Plan.Key

/-!
# Stores

A store compiles pipelines into executors, which run any number of times over the store's contents
of the moment. A store with contents in `σ` fails to compile with errors in `κ`, and its rows fail
with errors in `ε`.
-/

namespace DeferredQuery

/-- The rows of one run, each of which may fail. -/
abbrev Rows (ε : Type) := List (Except ε Value)

structure Executor (σ ε : Type) where
  mode : Mode
  /-- The rows for the given placeholder values. -/
  run : Bindings → StateM σ (Except ε (Rows ε))

structure Store (σ κ ε : Type) where
  /-- The identity of the schema that pipelines are compiled for. -/
  identity : String
  compile : Pipeline → Ty → Mode → StateM σ (Except κ (Executor σ ε))

namespace Store

variable {σ κ ε : Type}

/-- The store that compiles for one mode, whatever is asked for. -/
def forced (mode : Mode) (s : Store σ κ ε) : Store σ κ ε :=
  { s with compile := fun p t _ => s.compile p t mode }

def constant (identity : String) (rows : Rows ε) : Store σ κ ε :=
  { identity, compile := fun _ _ _ => pure (.ok ⟨.sync, fun _ => pure (.ok rows)⟩) }

end Store

end DeferredQuery
