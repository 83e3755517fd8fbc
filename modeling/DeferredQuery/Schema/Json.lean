import DeferredQuery.Digest.Sha256
import DeferredQuery.Json.Printer
import DeferredQuery.Schema.Basic
import DeferredQuery.Ty.Json

/-!
# Schemas as JSON

Entity types and sets are the members of two objects, in the order of their names. The digest of
the canonical text identifies a schema.
-/

namespace DeferredQuery

namespace KeyMap

variable {α : Type}

def toJson (write : α → Json) (m : KeyMap α) : Json :=
  .obj (m.entries.map fun x => ⟨x.name, write x.value⟩)

/-- Reads the members of an object, of which a later one replaces an earlier. -/
def read? (read : Json → Option α) : Json → Option (KeyMap α)
  | .obj members => do
    return ofList (← members.mapM fun m => do return ⟨m.name, ← read m.value⟩)
  | _ => none

end KeyMap

namespace Property

def toJson (p : Property) : Json :=
  .object [("name", .str p.name), ("column", .str p.column), ("data_type", p.ty.toJson)]

def ofJson? (j : Json) : Option Property := do
  match ← j.slots? ["name", "column", "data_type"] with
  | [name, column, t] =>
    some ⟨← name.required Json.string?, ← column.required Json.string?,
      ← t.required Ty.ofJson?⟩
  | _ => none

end Property

namespace Entity

def toJson (e : Entity) : Json :=
  .object [("name", .str e.name), ("table", .str e.table),
    ("properties", .arr (e.properties.map Property.toJson))]

def ofJson? (j : Json) : Option Entity := do
  match ← j.slots? ["name", "table", "properties"] with
  | [name, table, properties] =>
    some ⟨← name.required Json.string?, ← table.required Json.string?,
      ← properties.required fun j => do (← j.items?).mapM Property.ofJson?⟩
  | _ => none

end Entity

namespace Schema

def toJson (s : Schema) : Json :=
  .object [("entities", s.entities.toJson Entity.toJson), ("sets", s.sets.toJson .str)]

def ofJson? (j : Json) : Option Schema := do
  match ← j.slots? ["entities", "sets"] with
  | [entities, sets] =>
    some ⟨← entities.required (KeyMap.read? Entity.ofJson?),
      ← sets.required (KeyMap.read? Json.string?)⟩
  | _ => none

/-- The digest of the canonical text, part of the key of every plan for this schema. -/
def identity (s : Schema) : String := Sha256.hexOfText s.toJson.text

end Schema

end DeferredQuery
