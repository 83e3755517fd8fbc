import DeferredQuery.Named
import DeferredQuery.Text.Join

/-!
# Static types

The types of query expressions: scalars, optional values, rows of an entity, anonymous rows,
sequences held in memory and sequences that a store has yet to produce.
-/

namespace DeferredQuery

inductive Ty where
  | bool
  | int
  | float
  | string
  | uuid
  | timestamp
  | nullable (inner : Ty)
  /-- A value whose type is known only when the query runs. -/
  | object
  /-- A row of a mapped table. -/
  | entity (name : String)
  /-- An anonymous row. -/
  | struct (fields : List (Named Ty))
  /-- Items held in memory. -/
  | sequence (element : Ty)
  /-- Items that a store produces when the query runs. -/
  | queryable (element : Ty)
  | function (params : List Ty) (result : Ty)
  /-- The captured variables of one scope. -/
  | closure (className : String)
  | null
  | unknown

namespace Ty

instance : Inhabited Ty := ⟨.unknown⟩

/-! ## Equality -/

mutual

def beq : Ty → Ty → Bool
  | .bool, .bool => true
  | .int, .int => true
  | .float, .float => true
  | .string, .string => true
  | .uuid, .uuid => true
  | .timestamp, .timestamp => true
  | .nullable a, .nullable b => beq a b
  | .object, .object => true
  | .entity a, .entity b => a == b
  | .struct a, .struct b => beqFields a b
  | .sequence a, .sequence b => beq a b
  | .queryable a, .queryable b => beq a b
  | .function ps a, .function qs b => beqList ps qs && beq a b
  | .closure a, .closure b => a == b
  | .null, .null => true
  | .unknown, .unknown => true
  | _, _ => false

def beqList : List Ty → List Ty → Bool
  | [], [] => true
  | a :: as, b :: bs => beq a b && beqList as bs
  | _, _ => false

def beqFields : List (Named Ty) → List (Named Ty) → Bool
  | [], [] => true
  | ⟨m, a⟩ :: as, ⟨n, b⟩ :: bs => m == n && beq a b && beqFields as bs
  | _, _ => false

end

mutual

theorem eq_of_beq : ∀ {a b : Ty}, beq a b = true → a = b
  | .nullable a, b, h => by cases b <;> simp_all [beq]; exact eq_of_beq h
  | .sequence a, b, h => by cases b <;> simp_all [beq]; exact eq_of_beq h
  | .queryable a, b, h => by cases b <;> simp_all [beq]; exact eq_of_beq h
  | .struct a, b, h => by cases b <;> simp_all [beq]; exact eq_of_beqFields h
  | .function ps a, b, h => by
    cases b <;> simp_all [beq]
    exact ⟨eq_of_beqList h.1, eq_of_beq h.2⟩
  | .entity a, b, h => by cases b <;> simp_all [beq]
  | .closure a, b, h => by cases b <;> simp_all [beq]
  | .bool, b, h => by cases b <;> simp_all [beq]
  | .int, b, h => by cases b <;> simp_all [beq]
  | .float, b, h => by cases b <;> simp_all [beq]
  | .string, b, h => by cases b <;> simp_all [beq]
  | .uuid, b, h => by cases b <;> simp_all [beq]
  | .timestamp, b, h => by cases b <;> simp_all [beq]
  | .object, b, h => by cases b <;> simp_all [beq]
  | .null, b, h => by cases b <;> simp_all [beq]
  | .unknown, b, h => by cases b <;> simp_all [beq]

theorem eq_of_beqList : ∀ {as bs : List Ty}, beqList as bs = true → as = bs
  | [], bs, h => by cases bs <;> simp_all [beqList]
  | a :: as, bs, h => by
    cases bs with
    | nil => simp [beqList] at h
    | cons b bs =>
      simp only [beqList, Bool.and_eq_true] at h
      rw [eq_of_beq h.1, eq_of_beqList h.2]

theorem eq_of_beqFields : ∀ {as bs : List (Named Ty)}, beqFields as bs = true → as = bs
  | [], bs, h => by cases bs <;> simp_all [beqFields]
  | ⟨m, a⟩ :: as, bs, h => by
    cases bs with
    | nil => simp [beqFields] at h
    | cons b bs =>
      obtain ⟨n, b⟩ := b
      simp only [beqFields, Bool.and_eq_true, beq_iff_eq] at h
      rw [h.1.1, eq_of_beq h.1.2, eq_of_beqFields h.2]

end

mutual

theorem beq_refl : ∀ a : Ty, beq a a = true
  | .nullable a => by simp [beq, beq_refl a]
  | .sequence a => by simp [beq, beq_refl a]
  | .queryable a => by simp [beq, beq_refl a]
  | .struct a => by simp [beq, beqFields_refl a]
  | .function ps a => by simp [beq, beqList_refl ps, beq_refl a]
  | .entity _ => by simp [beq]
  | .closure _ => by simp [beq]
  | .bool | .int | .float | .string | .uuid | .timestamp | .object | .null | .unknown => rfl

theorem beqList_refl : ∀ as : List Ty, beqList as as = true
  | [] => rfl
  | a :: as => by simp [beqList, beq_refl a, beqList_refl as]

theorem beqFields_refl : ∀ as : List (Named Ty), beqFields as as = true
  | [] => rfl
  | ⟨_, a⟩ :: as => by simp [beqFields, beq_refl a, beqFields_refl as]

end

theorem beq_iff {a b : Ty} : beq a b = true ↔ a = b :=
  ⟨eq_of_beq, fun h => h ▸ beq_refl a⟩

instance : DecidableEq Ty := fun _ _ => decidable_of_iff _ beq_iff

/-! ## Parts -/

/-- Whether a store produces the values of this type; these parts of a query are never computed
by the client. -/
def isQueryable : Ty → Bool
  | .queryable _ => true
  | _ => false

def isSequence : Ty → Bool
  | .queryable _ | .sequence _ => true
  | _ => false

def element? : Ty → Option Ty
  | .queryable t | .sequence t => some t
  | _ => none

def unwrap : Ty → Ty
  | .nullable t => t
  | t => t

def isNumeric (t : Ty) : Bool :=
  match t.unwrap with
  | .int | .float => true
  | _ => false

def instantParts : List String := ["Year", "Month", "Day", "Hour", "Minute", "Second"]

/-- The type of a member of a value; `property` gives the types of mapped properties. -/
def member? (property : (entity name : String) → Option Ty) (t : Ty) (name : String) :
    Option Ty :=
  match t.unwrap with
  | .entity e => property e name
  | .struct fields => Named.find? name fields
  | .string => if name = "Length" then some .int else none
  | .sequence _ => if name = "Count" then some .int else none
  | .timestamp => if name ∈ instantParts then some .int else none
  | .unknown | .object => some .unknown
  | _ => none

/-! ## Text -/

mutual

def text : Ty → String
  | .bool => "bool"
  | .int => "int"
  | .float => "float"
  | .string => "string"
  | .uuid => "uuid"
  | .timestamp => "timestamp"
  | .nullable t => t.text ++ "?"
  | .object => "object"
  | .entity name => name
  | .struct fields => "\x7b" ++ Text.commaSep (fieldTexts fields) ++ "\x7d"
  | .sequence t => "Sequence<" ++ t.text ++ ">"
  | .queryable t => "Queryable<" ++ t.text ++ ">"
  | .function params result => "Func<" ++ Text.commaSep (texts params ++ [result.text]) ++ ">"
  | .closure className => className
  | .null => "null"
  | .unknown => "?"

def texts : List Ty → List String
  | [] => []
  | t :: rest => t.text :: texts rest

def fieldTexts : List (Named Ty) → List String
  | [] => []
  | ⟨name, t⟩ :: rest => (name ++ ": " ++ t.text) :: fieldTexts rest

end

end Ty

end DeferredQuery
