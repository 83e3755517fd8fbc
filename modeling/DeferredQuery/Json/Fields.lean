import DeferredQuery.Json.Basic
import DeferredQuery.Number.Checked

/-!
# Reading structured values from JSON

A structure is read from an object, where members under other names are ignored and none of its
own may repeat, or from an array that gives its fields in order. A case of an enumeration is read
from its name, or from an object with the name as its only member.
-/

namespace DeferredQuery.Json

/-- What a structure has for one of its fields: a value, no member of that name, or no item since
the array ended. -/
inductive Slot where
  | given (j : Json)
  | absent
  | ended

namespace Slot

variable {α : Type}

def required (read : Json → Option α) : Slot → Option α
  | given j => read j
  | _ => none

def optional (read : Json → Option α) : Slot → Option (Option α)
  | given .null => some none
  | given j => (read j).map some
  | absent => some none
  | ended => none

def orElse (read : Json → Option α) (default : α) : Slot → Option α
  | given j => read j
  | _ => some default

end Slot

def member? (members : List (Named Json)) (name : String) : Option Slot :=
  match members.filter fun m => m.name == name with
  | [] => some .absent
  | [m] => some (.given m.value)
  | _ => none

def slots? (names : List String) : Json → Option (List Slot)
  | .obj members => names.mapM (member? members)
  | .arr items =>
    if items.length ≤ names.length then
      some (items.map .given ++ List.replicate (names.length - items.length) .ended)
    else none
  | _ => none

/-- The name of an enumeration's case and the value it carries, if any. -/
def case? : Json → Option (String × Option Json)
  | .str name => some (name, none)
  | .obj [⟨name, j⟩] => some (name, some j)
  | _ => none

/-- The name of a case without a value, which may also be given as `null`. -/
def plainCase? (j : Json) : Option String :=
  match j.case? with
  | some (name, none) => some name
  | some (name, some .null) => some name
  | _ => none

/-! ## Scalars -/

def bool? : Json → Option Bool
  | .bool b => some b
  | _ => none

def string? : Json → Option String
  | .str s => some s
  | _ => none

def int64? : Json → Option Int64
  | .int n => Checked.fit? n
  | _ => none

/-- A floating point number; a whole number is taken as the nearest one. -/
def float? : Json → Option Float
  | .float x => some x
  | .int n => some (Float.ofInt n)
  | _ => none

def items? : Json → Option (List Json)
  | .arr items => some items
  | _ => none

end DeferredQuery.Json
