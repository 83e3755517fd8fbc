import DeferredQuery.Ty.Json
import DeferredQuery.Value.Basic

/-!
# Values as JSON

Each value is tagged with the name of its kind.
-/

namespace DeferredQuery

namespace SetRef

def toJson (r : SetRef) : Json := .object [("entity", .str r.entity), ("set", .str r.set)]

def ofJson? (j : Json) : Option SetRef := do
  match ← j.slots? ["entity", "set"] with
  | [entity, set] => some ⟨← entity.required Json.string?, ← set.required Json.string?⟩
  | _ => none

end SetRef

namespace Value

mutual

def toJson : Value → Json
  | .null => .str "Null"
  | .bool b => .tagged "Bool" (.bool b)
  | .int n => .tagged "Int" (.int n.toInt)
  | .float x => .tagged "Float" (.float x)
  | .string s => .tagged "String" (.str s)
  | .uuid u => .tagged "Uuid" (.str u.text)
  | .instant t => .tagged "Timestamp" (.str (t.text "Z"))
  | .list items => .tagged "List" (.arr (itemsToJson items))
  | .record fields => .tagged "Record" (.object [("fields", .arr (fieldsToJson fields))])
  | .closure className captures =>
    .tagged "Closure"
      (.object [("class_name", .str className), ("fields", .arr (capturesToJson captures))])
  | .query root => .tagged "Query" root.toJson

def itemsToJson : List Value → List Json
  | [] => []
  | v :: rest => v.toJson :: itemsToJson rest

def fieldsToJson : List (Named Value) → List Json
  | [] => []
  | ⟨name, v⟩ :: rest => .arr [.str name, v.toJson] :: fieldsToJson rest

def capturesToJson : List (Capture Value) → List Json
  | [] => []
  | ⟨name, t, v⟩ :: rest =>
    .object [("name", .str name), ("data_type", t.toJson), ("value", v.toJson)] ::
      capturesToJson rest

end

def readPair? {α : Type} (read : Json → Option α) : Json → Option (Named α)
  | .arr [name, item] => do some ⟨← name.string?, ← read item⟩
  | _ => none

def readCapture? (read : Json → Option Value) (j : Json) : Option (Capture Value) := do
  match ← j.slots? ["name", "data_type", "value"] with
  | [name, t, v] =>
    some ⟨← name.required Json.string?, ← t.required Ty.ofJson?, ← v.required read⟩
  | _ => none

def readRecord? (read : Json → Option Value) (j : Json) : Option Value := do
  match ← j.slots? ["fields"] with
  | [fields] => fields.required fun j => do record (← (← j.items?).mapM (readPair? read))
  | _ => none

def readClosure? (read : Json → Option Value) (j : Json) : Option Value := do
  match ← j.slots? ["class_name", "fields"] with
  | [className, fields] =>
    closure (← className.required Json.string?)
      (← fields.required fun j => do (← j.items?).mapM (readCapture? read))
  | _ => none

def read? : (fuel : Nat) → Json → Option Value
  | 0, j => if j.plainCase? = some "Null" then some .null else none
  | fuel + 1, j =>
    match j.case? with
    | some ("Bool", some b) => b.bool?.map bool
    | some ("Int", some n) => n.int64?.map int
    | some ("Float", some x) => x.float?.map float
    | some ("String", some s) => s.string?.map string
    | some ("Uuid", some s) => (s.string?.bind Uuid.read?).map uuid
    | some ("Timestamp", some s) => (s.string?.bind Instant.read?).map instant
    | some ("List", some items) => do list (← (← items.items?).mapM (read? fuel))
    | some ("Record", some r) => readRecord? (read? fuel) r
    | some ("Closure", some c) => readClosure? (read? fuel) c
    | some ("Query", some root) => (SetRef.ofJson? root).map query
    | _ => if j.plainCase? = some "Null" then some .null else none

def ofJson? (j : Json) : Option Value := read? j.depth j

end Value

end DeferredQuery
