import DeferredQuery.KeyMap
import DeferredQuery.Ty.Basic

/-!
# Schemas

The entity types that queries are written against, each mapped to one table, and the named sets of
their rows.
-/

namespace DeferredQuery

structure Property where
  name : String
  column : String
  ty : Ty
deriving DecidableEq

structure Entity where
  name : String
  table : String
  properties : List Property
deriving DecidableEq

namespace Entity

def property? (e : Entity) (name : String) : Option Property :=
  e.properties.find? fun p => p.name == name

end Entity

structure Schema where
  entities : KeyMap Entity
  /-- The name of the entity type behind each set. -/
  sets : KeyMap String

namespace Schema

def empty : Schema := ⟨.empty, .empty⟩

def withEntity (s : Schema) (e : Entity) : Schema :=
  { s with entities := s.entities.insert e.name e }

def withSet (s : Schema) (set entity : String) : Schema :=
  { s with sets := s.sets.insert set entity }

def propertyTy? (s : Schema) (entity name : String) : Option Ty :=
  (s.entities.get? entity).bind fun e => (e.property? name).map Property.ty

end Schema

end DeferredQuery
