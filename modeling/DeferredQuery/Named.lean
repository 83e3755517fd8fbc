/-!
# Named items

A value under a name. Lists of them keep their order and may repeat a name; the first one counts
on lookup.
-/

namespace DeferredQuery

structure Named (α : Type) where
  name : String
  value : α
deriving DecidableEq, Repr

namespace Named

variable {α : Type}

/-- The value under the first occurrence of a name. -/
def find? (name : String) : List (Named α) → Option α
  | [] => none
  | item :: rest => if item.name = name then some item.value else find? name rest

@[simp] theorem find?_nil (name : String) : find? name ([] : List (Named α)) = none := rfl

theorem find?_cons (name : String) (item : Named α) (rest : List (Named α)) :
    find? name (item :: rest) = if item.name = name then some item.value else find? name rest :=
  rfl

theorem find?_append (name : String) (xs ys : List (Named α)) :
    find? name (xs ++ ys) = (find? name xs).or (find? name ys) := by
  induction xs with
  | nil => simp
  | cons x xs ih =>
    simp only [List.cons_append, find?_cons, ih]
    split <;> simp

theorem find?_isSome_iff {name : String} {xs : List (Named α)} :
    (find? name xs).isSome = true ↔ ∃ x ∈ xs, x.name = name := by
  induction xs with
  | nil => simp
  | cons x xs ih =>
    rw [find?_cons]
    by_cases hx : x.name = name
    · simp [hx]
    · simp [hx, ih]

theorem mem_of_find? {name : String} {xs : List (Named α)} {v : α} (h : find? name xs = some v) :
    ⟨name, v⟩ ∈ xs := by
  induction xs with
  | nil => cases h
  | cons x xs ih =>
    rw [find?_cons] at h
    split at h
    · rename_i hx
      cases h
      cases hx
      exact List.mem_cons_self
    · exact List.mem_cons_of_mem _ (ih h)

end Named

end DeferredQuery
