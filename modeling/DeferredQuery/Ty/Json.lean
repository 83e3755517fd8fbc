import DeferredQuery.Json.Fields
import DeferredQuery.Ty.Basic

/-!
# Types as JSON

Each type is tagged with its name; a scalar type is the name alone.
-/

namespace DeferredQuery.Ty

mutual

def toJson : Ty → Json
  | .bool => .str "Bool"
  | .int => .str "Int"
  | .float => .str "Float"
  | .string => .str "String"
  | .uuid => .str "Uuid"
  | .timestamp => .str "Timestamp"
  | .nullable t => .tagged "Nullable" t.toJson
  | .object => .str "Object"
  | .entity name => .tagged "Entity" (.str name)
  | .struct fields => .tagged "Struct" (.arr (fieldsToJson fields))
  | .sequence t => .tagged "Sequence" t.toJson
  | .queryable t => .tagged "Queryable" t.toJson
  | .function params result =>
    .tagged "Function" (.object [("params", .arr (listToJson params)), ("ret", result.toJson)])
  | .closure className => .tagged "Closure" (.str className)
  | .null => .str "Null"
  | .unknown => .str "Unknown"

def listToJson : List Ty → List Json
  | [] => []
  | t :: rest => t.toJson :: listToJson rest

def fieldsToJson : List (Named Ty) → List Json
  | [] => []
  | ⟨name, t⟩ :: rest =>
    .object [("name", .str name), ("data_type", t.toJson)] :: fieldsToJson rest

end

def ofName? : String → Option Ty
  | "Bool" => some .bool
  | "Int" => some .int
  | "Float" => some .float
  | "String" => some .string
  | "Uuid" => some .uuid
  | "Timestamp" => some .timestamp
  | "Object" => some .object
  | "Null" => some .null
  | "Unknown" => some .unknown
  | _ => none

def readField? (read : Json → Option Ty) (j : Json) : Option (Named Ty) := do
  match ← j.slots? ["name", "data_type"] with
  | [name, t] => some ⟨← name.required Json.string?, ← t.required read⟩
  | _ => none

def read? : (fuel : Nat) → Json → Option Ty
  | 0, j => j.plainCase?.bind ofName?
  | fuel + 1, j =>
    match j.case? with
    | some ("Nullable", some t) => (read? fuel t).map nullable
    | some ("Entity", some name) => name.string?.map entity
    | some ("Struct", some fields) => do
      struct (← (← fields.items?).mapM (readField? (read? fuel)))
    | some ("Sequence", some t) => (read? fuel t).map sequence
    | some ("Queryable", some t) => (read? fuel t).map queryable
    | some ("Function", some f) => do
      match ← f.slots? ["params", "ret"] with
      | [params, result] =>
        let params ← params.required fun j => do (← j.items?).mapM (read? fuel)
        let result ← result.required (read? fuel)
        function params result
      | _ => none
    | some ("Closure", some name) => name.string?.map closure
    | _ => j.plainCase?.bind ofName?

def ofJson? (j : Json) : Option Ty := read? j.depth j

end DeferredQuery.Ty
