import DeferredQuery.Json.Fields
import DeferredQuery.Ty.Basic

/-!
# Methods

A method is known by its owner and its name. Query operators share one owner; the other methods
here are the scalar functions that a query text can call.
-/

namespace DeferredQuery

structure Method where
  owner : String
  name : String
deriving DecidableEq, Repr

namespace Method

def text (m : Method) : String := m.owner ++ "." ++ m.name

def queryable : String := "Queryable"

def operator (name : String) : Method := ⟨queryable, name⟩

def isOperator (m : Method) : Bool := m.owner == queryable

def mathPow : Method := ⟨"Math", "Pow"⟩
def mathAbs : Method := ⟨"Math", "Abs"⟩
def toUpper : Method := ⟨"String", "ToUpper"⟩
def toLower : Method := ⟨"String", "ToLower"⟩
def contains : Method := ⟨"String", "Contains"⟩
def startsWith : Method := ⟨"String", "StartsWith"⟩
def newGuid : Method := ⟨"Guid", "NewGuid"⟩
def now : Method := ⟨"DateTime", "Now"⟩
def utcNow : Method := ⟨"DateTime", "UtcNow"⟩

/-- The method and result type of a call on a type name, such as `Math.Pow(a, b)`. -/
def resolveStatic? (owner name : String) (args : List Ty) : Option (Method × Ty) :=
  match owner, name, args with
  | "Math", "Pow", [_, _] => some (mathPow, .float)
  | "Math", "Abs", [t] => some (mathAbs, t)
  | "Guid", "NewGuid", [] => some (newGuid, .uuid)
  | "DateTime", "Now", [] => some (now, .timestamp)
  | "DateTime", "UtcNow", [] => some (utcNow, .timestamp)
  | _, _, _ => none

def resolveInstance? (receiver : Ty) (name : String) (args : List Ty) : Option (Method × Ty) :=
  match receiver.unwrap, name, args with
  | .string, "ToUpper", [] => some (toUpper, .string)
  | .string, "ToLower", [] => some (toLower, .string)
  | .string, "Contains", [_] => some (contains, .bool)
  | .string, "StartsWith", [_] => some (startsWith, .bool)
  | _, _, _ => none

def toJson (m : Method) : Json := .object [("owner", .str m.owner), ("name", .str m.name)]

def ofJson? (j : Json) : Option Method := do
  match ← j.slots? ["owner", "name"] with
  | [owner, name] => some ⟨← owner.required Json.string?, ← name.required Json.string?⟩
  | _ => none

end Method

end DeferredQuery
