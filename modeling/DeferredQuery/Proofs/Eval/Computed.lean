import DeferredQuery.Eval.Items
import DeferredQuery.Proofs.Order.Stable

/-!
# Operators whose lambdas just compute

On items that stem from rows of another kind, an operator whose lambdas compute values without
failing or drawing is the plain list function on those rows.
-/

namespace DeferredQuery.Items

variable {m : Type → Type} [Monad m] [LawfulMonad m] {α : Type} {xs : List α} {item : α → Value}

theorem keep_map {p : Value → m Bool} {q : α → Bool} (h : ∀ x ∈ xs, p (item x) = pure (q x)) :
    keep p (xs.map item) = pure ((xs.filter q).map item) := by
  induction xs with
  | nil => rfl
  | cons x xs ih =>
      rw [List.map_cons, keep, h x List.mem_cons_self, pure_bind,
        ih fun y hy => h y (List.mem_cons_of_mem _ hy), pure_bind, List.filter_cons]
      cases q x <;> rfl

theorem select_map {f : Value → m Value} {item' : α → Value}
    (h : ∀ x ∈ xs, f (item x) = pure (item' x)) :
    select f (xs.map item) = pure (xs.map item') := by
  induction xs with
  | nil => rfl
  | cons x xs ih =>
      rw [List.map_cons, select, h x List.mem_cons_self, pure_bind,
        ih fun y hy => h y (List.mem_cons_of_mem _ hy), pure_bind]
      rfl

theorem keyed_map {keys : List (Key m)} {row : α → List Value}
    (h : ∀ x ∈ xs, keyValues keys (item x) = pure (row x)) :
    keyed keys (xs.map item) = pure (xs.map fun x => ⟨row x, item x⟩) := by
  induction xs with
  | nil => rfl
  | cons x xs ih =>
      rw [List.map_cons, keyed, h x List.mem_cons_self, pure_bind,
        ih fun y hy => h y (List.mem_cons_of_mem _ hy), pure_bind]
      rfl

/-- A sort by keys that draw nothing is a sort by rows of values. -/
theorem order_map {keys : List (Key m)} {row : α → List Value}
    (h : ∀ x ∈ xs, keyValues keys (item x) = pure (row x)) :
    order keys (xs.map item) = pure ((Stable.sort
      (fun x y => rowOrder (keys.map Key.descending) (row x) (row y)) xs).map item) := by
  rw [order, keyed_map h, pure_bind]
  have hsort := @Stable.map_sort α Keyed
    (fun x y => rowOrder (keys.map Key.descending) (row x) (row y)) xs
    (fun a b => rowOrder (keys.map Key.descending) a.keys b.keys) (fun x => ⟨row x, item x⟩)
    fun _ _ _ _ => rfl
  have hitems : sortKeyed (keys.map Key.descending) (xs.map fun x => ⟨row x, item x⟩) =
      (Stable.sort (fun a b : Keyed => rowOrder (keys.map Key.descending) a.keys b.keys)
        (xs.map fun x => ⟨row x, item x⟩)).map Keyed.item := rfl
  rw [hitems, ← hsort, List.map_map]
  rfl

variable {β : Type} {ys : List β} {inner innerKey : β → Value}

/-- Of the inner items, those with a key equal to the outer one are joined, in their order. -/
theorem joinRow_map {result : Value → Value → m Value} {outer key : Value} {made : β → Value}
    (h : ∀ y ∈ ys, key.looseEq (innerKey y) = true → result outer (inner y) = pure (made y)) :
    joinRow result outer key (ys.map fun y => (inner y, innerKey y)) =
      pure ((ys.filter fun y => key.looseEq (innerKey y)).map made) := by
  induction ys with
  | nil => rfl
  | cons y ys ih =>
      have hrest := ih fun z hz => h z (List.mem_cons_of_mem _ hz)
      rw [List.map_cons, joinRow, List.filter_cons]
      split
      · rename_i hkey
        rw [h y List.mem_cons_self hkey, pure_bind, hrest, pure_bind]
        rfl
      · exact hrest

/-- Each outer item with a key gives what it makes with the inner items of that key. -/
theorem join_map {o i : Value → m Value} {result : Value → Value → m Value} {outerKey : α → Value}
    {made : α → β → Value} (ho : ∀ x ∈ xs, o (item x) = pure (outerKey x))
    (hi : ∀ y ∈ ys, i (inner y) = pure (innerKey y))
    (hresult : ∀ x ∈ xs, ∀ y ∈ ys, (outerKey x).isNull = false →
      (outerKey x).looseEq (innerKey y) = true → result (item x) (inner y) = pure (made x y)) :
    join o i result (xs.map item) (ys.map inner) =
      pure (xs.flatMap fun x =>
        (ys.filter fun y => !(outerKey x).isNull && (outerKey x).looseEq (innerKey y)).map
          (made x)) := by
  have hzip : (ys.map inner).zip (ys.map innerKey) = ys.map fun y => (inner y, innerKey y) := by
    rw [← List.zip_map']
  rw [join, select_map hi, pure_bind, hzip]
  induction xs with
  | nil => rfl
  | cons x xs ih =>
      have hrest := ih (fun z hz => ho z (List.mem_cons_of_mem _ hz))
        fun z hz => hresult z (List.mem_cons_of_mem _ hz)
      rw [List.map_cons, joinRows, ho x List.mem_cons_self, pure_bind, hrest, List.flatMap_cons]
      cases hnull : (outerKey x).isNull with
      | true => simp
      | false =>
          have hrow := joinRow_map fun y hy => hresult x List.mem_cons_self y hy hnull
          simp [hrow]

/-! ## Distinct items -/

/-- Nothing is left out of a list without equal items. -/
theorem distinctFrom_eq_self {kept vs : List Value}
    (hkept : ∀ u ∈ kept, ∀ v ∈ vs, u.looseEq v = false)
    (hvs : vs.Pairwise fun u v => u.looseEq v = false) : distinctFrom kept vs = vs := by
  induction vs generalizing kept with
  | nil => rfl
  | cons v vs ih =>
      obtain ⟨hv, hvs⟩ := List.pairwise_cons.mp hvs
      have hnone : (kept.any fun u => u.looseEq v) = false := by
        rw [List.any_eq_false]
        intro u hu
        simp [hkept u hu v List.mem_cons_self]
      have hrest : distinctFrom (kept ++ [v]) vs = vs := by
        refine ih (fun u hu w hw => ?_) hvs
        rcases List.mem_append.mp hu with hu | hu
        · exact hkept u hu w (List.mem_cons_of_mem _ hw)
        · obtain rfl := List.mem_singleton.mp hu
          exact hv w hw
      rw [distinctFrom, hnone, hrest]
      rfl

/-- No item that is kept equals one before it. -/
theorem distinctFrom_spec (kept vs : List Value) :
    (∀ u ∈ kept, ∀ v ∈ distinctFrom kept vs, u.looseEq v = false) ∧
      (distinctFrom kept vs).Pairwise fun u v => u.looseEq v = false := by
  induction vs generalizing kept with
  | nil => exact ⟨nofun, .nil⟩
  | cons v vs ih =>
      rw [distinctFrom]
      split
      · exact ih kept
      · rename_i hnone
        obtain ⟨hkept, hpair⟩ := ih (kept ++ [v])
        have hv : ∀ w ∈ distinctFrom (kept ++ [v]) vs, v.looseEq w = false :=
          hkept v (by simp)
        refine ⟨fun u hu w hw => ?_, List.pairwise_cons.mpr ⟨hv, hpair⟩⟩
        rcases List.mem_cons.mp hw with rfl | hw
        · rw [Bool.not_eq_true, List.any_eq_false] at hnone
          simpa using hnone u hu
        · exact hkept u (List.mem_append_left _ hu) w hw

/-- Items that are distinct already stay as they are. -/
theorem distinct_distinct (vs : List Value) : distinct (distinct vs) = distinct vs :=
  distinctFrom_eq_self nofun (distinctFrom_spec [] vs).2

end DeferredQuery.Items
