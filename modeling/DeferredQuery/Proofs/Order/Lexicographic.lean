import Mathlib.Data.List.Forall2
import DeferredQuery.Proofs.Order.Values

/-!
# Sorts by several keys

The rows of key values are ordered by the first place where they differ. A sort puts the items in
this order of their rows, and those with one row in the order in which they came.
-/

namespace DeferredQuery

open Stable (OrdersOn)

/-! ## Values -/

def Ty.isExact : Ty → Bool
  | .bool | .int | .string | .uuid | .timestamp => true
  | _ => false

namespace Value

/-- Null is below all other values, and the values of one type are ordered as usual. -/
inductive Below : Value → Value → Prop
  | null {v : Value} : v ≠ .null → Below .null v
  | bool : Below (.bool false) (.bool true)
  | int {a b : Int64} : a < b → Below (.int a) (.int b)
  | string {a b : String} : a < b → Below (.string a) (.string b)
  | uuid {a b : Uuid} : a.bits < b.bits → Below (.uuid a) (.uuid b)
  | instant {a b : Instant} :
    a.seconds < b.seconds ∨ (a.seconds = b.seconds ∧ a.nanos < b.nanos) →
      Below (.instant a) (.instant b)

def IsOf (t : Ty) (v : Value) : Prop := v = .null ∨ v.ty = t

variable {t : Ty} {a b : Value} {vs : List Value}

theorem compare?_isSome_of_isOf (ht : t.isExact = true) (ha : a.IsOf t) (hb : b.IsOf t) :
    (a.compare? b).isSome := by
  rcases ha with rfl | rfl
  · cases b <;> rfl
  rcases hb with rfl | hb
  · cases a <;> rfl
  · cases a <;> cases ht <;> cases b <;> cases hb <;> rfl

theorem unmixed_of_isOf (ht : t.isExact = true) (h : ∀ v ∈ vs, v.IsOf t) : Unmixed vs := by
  intro v _ w hw _ hfloat
  rcases h w hw with rfl | rfl
  · cases hfloat
  · rw [hfloat] at ht
    cases ht

/-- Values of an exact type that compare as equal are equal. -/
theorem eq_of_order_eq (ht : t.isExact = true) (ha : a.IsOf t) (hb : b.IsOf t)
    (h : a.order b = .eq) : a = b := by
  rcases ha with rfl | rfl
  · cases b <;> first | rfl | cases h
  rcases hb with rfl | hb
  · cases a <;> first | rfl | cases h
  cases a <;> cases ht <;> cases b <;> cases hb
  case bool.refl.bool.refl a b => exact congrArg _ (Std.compare_eq_iff_eq.mp h)
  case int.refl.int.refl a b => exact congrArg _ (Int64.toInt_inj.mp (Std.compare_eq_iff_eq.mp h))
  case string.refl.string.refl a b => exact congrArg _ (Std.compare_eq_iff_eq.mp h)
  case uuid.refl.uuid.refl a b =>
      obtain ⟨a⟩ := a
      obtain ⟨b⟩ := b
      exact congrArg _ (congrArg _ (BitVec.toNat_inj.mp (Std.compare_eq_iff_eq.mp h)))
  case instant.refl.instant.refl a b =>
      obtain ⟨s, n⟩ := a
      obtain ⟨s', n'⟩ := b
      obtain ⟨hs, hn⟩ := Ordering.then_eq_eq.mp h
      obtain rfl := Std.compare_eq_iff_eq.mp hs
      obtain rfl := Std.compare_eq_iff_eq.mp hn
      rfl

/-- The order of values of an exact type is the usual one, with null below all others. -/
theorem below_of_order_eq_lt (ht : t.isExact = true) (ha : a.IsOf t) (hb : b.IsOf t)
    (h : a.order b = .lt) : Below a b := by
  rcases ha with rfl | rfl
  · refine .null ?_
    rintro rfl
    cases h
  rcases hb with rfl | hb
  · cases a <;> cases h
  cases a <;> cases ht <;> cases b <;> cases hb
  case bool.refl.bool.refl a b => cases a <;> cases b <;> first | exact .bool | cases h
  case int.refl.int.refl a b => exact .int (Int64.lt_iff_toInt_lt.mpr (Int.compare_eq_lt.mp h))
  case string.refl.string.refl a b => exact .string (compareOfLessAndEq_eq_lt.mp h)
  case uuid.refl.uuid.refl a b => exact .uuid (BitVec.lt_def.mpr (Nat.compare_eq_lt.mp h))
  case instant.refl.instant.refl a b =>
      refine .instant ((Ordering.then_eq_lt.mp h).imp Int.compare_eq_lt.mp fun h => ?_)
      exact ⟨Int.compare_eq_eq.mp h.1, Nat.compare_eq_lt.mp h.2⟩

end Value

/-! ## Rows of key values -/

namespace Items

/-- The rows differ, and at the first place where they do the first one has the value that comes
first in the direction of that place. -/
inductive Precedes : (descending : List Bool) → List Value → List Value → Prop
  | head {d : Bool} {ds : List Bool} {a b : Value} {as bs : List Value} :
    (if d then Value.Below b a else Value.Below a b) → Precedes (d :: ds) (a :: as) (b :: bs)
  | tail {d : Bool} {ds : List Bool} {a : Value} {as bs : List Value} : Precedes ds as bs →
    Precedes (d :: ds) (a :: as) (a :: bs)

variable {ts : List Ty} {ds : List Bool} {as bs : List Value}

theorem eq_of_keyOrder_eq {t : Ty} {a b : Value} (ht : t.isExact = true) (ha : a.IsOf t)
    (hb : b.IsOf t) {d : Bool} (h : keyOrder d a b = .eq) : a = b := by
  cases d with
  | false => exact Value.eq_of_order_eq ht ha hb h
  | true => exact Value.eq_of_order_eq ht ha hb (Ordering.swap_eq_eq.mp h)

theorem below_of_keyOrder_eq_lt {t : Ty} {a b : Value} (ht : t.isExact = true) (ha : a.IsOf t)
    (hb : b.IsOf t) {d : Bool} (h : keyOrder d a b = .lt) :
    if d then Value.Below b a else Value.Below a b := by
  cases d with
  | false => exact Value.below_of_order_eq_lt ht ha hb h
  | true =>
      refine Value.below_of_order_eq_lt ht hb ha ?_
      rw [Value.order_swap]
      exact h

/-- By induction on the rows, one key after another. -/
theorem eq_of_rowOrder_eq (hts : ∀ t ∈ ts, t.isExact = true) (hds : ds.length = ts.length)
    (has : List.Forall₂ Value.IsOf ts as) (hbs : List.Forall₂ Value.IsOf ts bs)
    (h : rowOrder ds as bs = .eq) : as = bs := by
  induction has generalizing ds bs with
  | nil =>
      cases hbs
      rfl
  | cons ha has ih =>
      obtain ⟨ht, hts⟩ := List.forall_mem_cons.mp hts
      cases hbs with
      | cons hb hbs =>
          cases ds with
          | nil => cases hds
          | cons d ds =>
              obtain ⟨hhead, htail⟩ := Ordering.then_eq_eq.mp h
              rw [eq_of_keyOrder_eq ht ha hb hhead, ih hts (Nat.succ.inj hds) hbs htail]

/-- The first place where two rows differ decides. -/
theorem precedes_of_rowOrder_eq_lt (hts : ∀ t ∈ ts, t.isExact = true)
    (hds : ds.length = ts.length) (has : List.Forall₂ Value.IsOf ts as)
    (hbs : List.Forall₂ Value.IsOf ts bs) (h : rowOrder ds as bs = .lt) : Precedes ds as bs := by
  induction has generalizing ds bs with
  | nil => cases ds <;> cases h
  | cons ha has ih =>
      obtain ⟨ht, hts⟩ := List.forall_mem_cons.mp hts
      cases hbs with
      | cons hb hbs =>
          cases ds with
          | nil => cases hds
          | cons d ds =>
              rcases Ordering.then_eq_lt.mp h with h | ⟨hhead, htail⟩
              · exact .head (below_of_keyOrder_eq_lt ht ha hb h)
              · obtain rfl := eq_of_keyOrder_eq ht ha hb hhead
                exact .tail (ih hts (Nat.succ.inj hds) hbs htail)

/-- Rows whose values have one exact type at each place are ordered. -/
theorem ordersOn_rowOrder {α : Type} {l : List α} {row : α → List Value}
    (hts : ∀ t ∈ ts, t.isExact = true) (hds : ds.length = ts.length)
    (h : ∀ x ∈ l, List.Forall₂ Value.IsOf ts (row x)) :
    OrdersOn (fun x y => rowOrder ds (row x) (row y)) l := by
  induction ts generalizing ds row with
  | nil =>
      obtain rfl := List.eq_nil_of_length_eq_zero hds
      exact ⟨fun _ _ _ _ => rfl, fun _ _ _ _ _ _ h _ => h⟩
  | cons t ts ih =>
      obtain ⟨ht, hts⟩ := List.forall_mem_cons.mp hts
      obtain ⟨d, ds, rfl⟩ := List.exists_cons_of_length_eq_add_one hds
      have hrow : ∀ x ∈ l, ∃ a as, a.IsOf t ∧ List.Forall₂ Value.IsOf ts as ∧ row x = a :: as :=
        fun x hx => List.forall₂_cons_left_iff.mp (h x hx)
      have hheads : ∀ v ∈ l.map fun x => (row x).headD .null, v.IsOf t := by
        refine List.forall_mem_map.mpr fun x hx => ?_
        obtain ⟨a, as, ha, -, hx⟩ := hrow x hx
        rwa [hx]
      have htails : ∀ x ∈ l, List.Forall₂ Value.IsOf ts (row x).tail := by
        intro x hx
        obtain ⟨a, as, -, has, hx⟩ := hrow x hx
        rwa [hx]
      have hfirst := (Value.ordersOn_keyOrder (Value.unmixed_of_isOf ht hheads)
        (fun v hv w hw => Value.compare?_isSome_of_isOf ht (hheads v hv) (hheads w hw)) d).comap
      refine (hfirst.lex (ih hts (Nat.succ.inj hds) htails)).congr fun x hx y hy => ?_
      obtain ⟨a, as, -, -, hx⟩ := hrow x hx
      obtain ⟨b, bs, -, -, hy⟩ := hrow y hy
      rw [hx, hy]
      rfl

/-- The items in the order of their rows. Of two with one row the first one stays the first. -/
def Arranges (descending : List Bool) (xs : List Keyed) (out : List Value) : Prop :=
  ∃ ys : List (Keyed × Nat), ys.Perm xs.zipIdx ∧ out = ys.map (fun y => y.1.item) ∧
    ys.Pairwise fun x y => Precedes descending x.1.keys y.1.keys ∨
      (x.1.keys = y.1.keys ∧ x.2 < y.2)

theorem Arranges.perm {xs : List Keyed} {out : List Value} (h : Arranges ds xs out) :
    out.Perm (xs.map Keyed.item) := by
  obtain ⟨ys, hperm, rfl, -⟩ := h
  have hitems := congrArg (List.map Keyed.item) (List.zipIdx_map_fst 0 xs)
  rw [List.map_map] at hitems
  exact hitems ▸ hperm.map fun y => y.1.item

/-- A stable sort arranges items in the order of their rows. -/
theorem arranges_sortKeyed {xs : List Keyed} (hts : ∀ t ∈ ts, t.isExact = true)
    (hds : ds.length = ts.length) (h : ∀ x ∈ xs, List.Forall₂ Value.IsOf ts x.keys) :
    Arranges ds xs (sortKeyed ds xs) := by
  have hrows : ∀ y ∈ xs.zipIdx, List.Forall₂ Value.IsOf ts y.1.keys := fun y hy =>
    h y.1 (List.fst_mem_of_mem_zipIdx hy)
  have horders := ordersOn_rowOrder hts hds hrows
  have hpositions : xs.zipIdx.Pairwise fun x y => x.2 < y.2 := by
    rw [← List.pairwise_map (f := Prod.snd) (R := (· < ·)), List.zipIdx_map_snd]
    exact List.pairwise_lt_range' 1
  have hsort := @Stable.map_sort _ _ (fun x y => rowOrder ds x.1.keys y.1.keys) xs.zipIdx
    (fun a b => rowOrder ds a.keys b.keys) Prod.fst fun _ _ _ _ => rfl
  rw [List.zipIdx_map_fst] at hsort
  refine ⟨Stable.sort (fun x y => rowOrder ds x.1.keys y.1.keys) xs.zipIdx,
    List.mergeSort_perm _ _, ?_, ?_⟩
  · have hmap := congrArg (List.map Keyed.item) hsort.symm
    rwa [List.map_map] at hmap
  · refine ((Stable.pairwise_sort horders).and
      (Stable.pairwise_ties horders hpositions)).imp_of_mem fun {x y} hx hy hxy => ?_
    have hx := hrows x (Stable.mem_sort.mp hx)
    have hy := hrows y (Stable.mem_sort.mp hy)
    cases hcmp : rowOrder ds x.1.keys y.1.keys with
    | lt => exact .inl (precedes_of_rowOrder_eq_lt hts hds hx hy hcmp)
    | eq => exact .inr ⟨eq_of_rowOrder_eq hts hds hx hy hcmp, hxy.2 hcmp⟩
    | gt => exact absurd hcmp hxy.1

end Items

end DeferredQuery
