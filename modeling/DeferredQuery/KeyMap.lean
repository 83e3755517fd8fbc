import DeferredQuery.Named

/-!
# Maps ordered by name

A finite map from names, held as a list with strictly increasing names, so that equal maps are
equal lists and have one text.
-/

namespace DeferredQuery

structure KeyMap (α : Type) where
  entries : List (Named α)
  ordered : entries.Pairwise fun a b => a.name < b.name

namespace KeyMap

variable {α : Type}

@[ext] theorem ext {a b : KeyMap α} (h : a.entries = b.entries) : a = b := by
  cases a
  cases b
  simp_all

def empty : KeyMap α := ⟨[], .nil⟩

/-- Puts an entry in its place, or in the place of the entry with its name. -/
def insertEntry (x : Named α) : List (Named α) → List (Named α)
  | [] => [x]
  | y :: ys =>
    if x.name < y.name then x :: y :: ys
    else if x.name = y.name then x :: ys
    else y :: insertEntry x ys

/-- Insertion adds an entry and no other one. -/
theorem mem_insertEntry {x z : Named α} {ys : List (Named α)} (h : z ∈ insertEntry x ys) :
    z = x ∨ z ∈ ys := by
  induction ys with
  | nil => exact .inl (by simpa [insertEntry] using h)
  | cons y ys ih =>
    unfold insertEntry at h
    split at h
    · simpa using h
    · split at h
      · rcases List.mem_cons.1 h with h | h
        · exact .inl h
        · exact .inr (List.mem_cons_of_mem _ h)
      · rcases List.mem_cons.1 h with h | h
        · exact .inr (h ▸ List.mem_cons_self)
        · rcases ih h with h | h
          · exact .inl h
          · exact .inr (List.mem_cons_of_mem _ h)

/-- The order of names is kept: the entry goes before the first one with a later name. -/
theorem insertEntry_ordered (x : Named α) {ys : List (Named α)}
    (h : ys.Pairwise fun a b => a.name < b.name) :
    (insertEntry x ys).Pairwise fun a b => a.name < b.name := by
  induction ys with
  | nil => simp [insertEntry]
  | cons y ys ih =>
    obtain ⟨hy, hys⟩ := List.pairwise_cons.1 h
    unfold insertEntry
    split
    · rename_i hxy
      refine List.pairwise_cons.2 ⟨fun z hz => ?_, h⟩
      rcases List.mem_cons.1 hz with rfl | hz
      · exact hxy
      · exact String.lt_trans hxy (hy z hz)
    · split
      · rename_i hxy
        exact List.pairwise_cons.2 ⟨fun z hz => hxy ▸ hy z hz, hys⟩
      · rename_i hlt hne
        refine List.pairwise_cons.2 ⟨fun z hz => ?_, ih hys⟩
        rcases mem_insertEntry hz with rfl | hz
        · rcases Decidable.em (y.name < z.name) with h' | h'
          · exact h'
          · exact absurd (String.le_antisymm (String.not_lt.1 h') (String.not_lt.1 hlt)) hne
        · exact hy z hz

/-- Adds an entry; one of the same name is replaced. -/
def insert (name : String) (value : α) (m : KeyMap α) : KeyMap α :=
  ⟨insertEntry ⟨name, value⟩ m.entries, insertEntry_ordered _ m.ordered⟩

def ofList (entries : List (Named α)) : KeyMap α :=
  entries.foldl (fun m x => m.insert x.name x.value) empty

def get? (m : KeyMap α) (name : String) : Option α := Named.find? name m.entries

end KeyMap

end DeferredQuery
