import DeferredQuery.Named

/-!
# JSON values

Whole numbers and floating point numbers are kept apart, and the members of an object keep their
order and may repeat a name.
-/

namespace DeferredQuery

inductive Json where
  | null
  | bool (b : Bool)
  | int (n : Int)
  | float (x : Float)
  | str (s : String)
  | arr (items : List Json)
  | obj (members : List (Named Json))

namespace Json

instance : Inhabited Json := ⟨.null⟩

mutual

/-- The number of containers around the innermost value. -/
def depth : Json → Nat
  | .arr items => depthItems items + 1
  | .obj members => depthMembers members + 1
  | _ => 0

def depthItems : List Json → Nat
  | [] => 0
  | j :: rest => max j.depth (depthItems rest)

def depthMembers : List (Named Json) → Nat
  | [] => 0
  | ⟨_, j⟩ :: rest => max j.depth (depthMembers rest)

end

def object (members : List (String × Json)) : Json :=
  .obj (members.map fun m => ⟨m.1, m.2⟩)

/-- An object with a single member, which tags a value with the name of its case. -/
def tagged (tag : String) (j : Json) : Json := .obj [⟨tag, j⟩]

end Json

end DeferredQuery
