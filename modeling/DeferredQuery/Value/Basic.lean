import DeferredQuery.Instant
import DeferredQuery.Ty.Basic
import DeferredQuery.Uuid

/-!
# Values

What expressions evaluate to, what placeholders stand for and what rows consist of.
-/

namespace DeferredQuery

/-- An entity set by its name, with the entity type of its rows. -/
structure SetRef where
  entity : String
  set : String
deriving DecidableEq, Repr

structure Capture (α : Type) where
  name : String
  ty : Ty
  value : α

inductive Value where
  | null
  | bool (b : Bool)
  | int (n : Int64)
  | float (x : Float)
  | string (s : String)
  | uuid (u : Uuid)
  | instant (t : Instant)
  | list (items : List Value)
  /-- A row; names may repeat, and the first one is read. -/
  | record (fields : List (Named Value))
  /-- The variables that a query captured from one scope. -/
  | closure (className : String) (captures : List (Capture Value))
  /-- All rows of an entity set, not yet fetched. -/
  | query (root : SetRef)

structure Closure where
  className : String
  captures : List (Capture Value)

namespace Capture

variable {α : Type}

def find? (name : String) : List (Capture α) → Option (Capture α)
  | [] => none
  | c :: rest => if c.name = name then some c else find? name rest

end Capture

namespace Value

instance : Inhabited Value := ⟨.null⟩

mutual

/-- The type of the value itself, whatever type it was declared with. A list has the type of its
first item. -/
def ty : Value → Ty
  | .null => .null
  | .bool _ => .bool
  | .int _ => .int
  | .float _ => .float
  | .string _ => .string
  | .uuid _ => .uuid
  | .instant _ => .timestamp
  | .list items => .sequence (headTy items)
  | .record fields => .struct (fieldTys fields)
  | .closure className _ => .closure className
  | .query root => .queryable (.entity root.entity)

def headTy : List Value → Ty
  | [] => .unknown
  | v :: _ => v.ty

def fieldTys : List (Named Value) → List (Named Ty)
  | [] => []
  | ⟨name, v⟩ :: rest => ⟨name, v.ty⟩ :: fieldTys rest

end

/-- A captured variable that is declared with the value's own type. -/
def capture (name : String) (v : Value) : Capture Value :=
  ⟨name, match v.ty with
    | .null => .object
    | t => t, v⟩

def isNull : Value → Bool
  | .null => true
  | _ => false

def asBool? : Value → Option Bool
  | .bool b => some b
  | _ => none

def asInt? : Value → Option Int64
  | .int n => some n
  | _ => none

def asFloat? : Value → Option Float
  | .int n => some (Binary64.ofInt64 n)
  | .float x => some x
  | _ => none

def asString? : Value → Option String
  | .string s => some s
  | _ => none

end Value

end DeferredQuery
