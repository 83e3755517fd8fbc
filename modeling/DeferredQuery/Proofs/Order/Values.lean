import DeferredQuery.Eval.Items
import DeferredQuery.Proofs.Order.Stable

/-!
# The order of values of one type

Whole and floating point numbers together have no transitive order, since a comparison of the two
rounds. Values of one type that compare with each other have one, with null below them.
-/

namespace DeferredQuery

open Stable (OrdersOn)

theorem le_trans_of_transCmp {α : Type} (cmp : α → α → Ordering) [Std.TransCmp cmp] {a b c : α}
    (hab : cmp a b ≠ .gt) (hbc : cmp b c ≠ .gt) : cmp a c ≠ .gt := by
  have hle : (cmp a b).isLE := Ordering.isLE_iff_ne_gt.mpr hab
  have hle' : (cmp b c).isLE := Ordering.isLE_iff_ne_gt.mpr hbc
  exact Ordering.isLE_iff_ne_gt.mp (Std.TransCmp.isLE_trans hle hle')

/-! ## Floating point numbers -/

namespace Binary64

open Float.Model (UnpackedFloat)

/-- The class of a number, its exponent and its significand, the latter two with its sign. -/
def rank : UnpackedFloat → Int × Int × Int
  | .infinity .negative => (-2, 0, 0)
  | .finite .negative m e _ => (-1, -e, -m)
  | .zero _ | .notANumber => (0, 0, 0)
  | .finite .positive m e _ => (1, e, m)
  | .infinity .positive => (2, 0, 0)

def rankOrder : UnpackedFloat → UnpackedFloat → Ordering :=
  compareLex (compareOn fun x => (rank x).1)
    (compareLex (compareOn fun x => (rank x).2.1) (compareOn fun x => (rank x).2.2))

instance : Std.TransCmp rankOrder := by
  unfold rankOrder
  infer_instance

theorem compare_neg (m n : Int) : compare (-m) (-n) = compare n m := by
  rcases Int.lt_trichotomy m n with h | rfl | h
  · rw [Int.compare_eq_gt.mpr (by omega), Int.compare_eq_gt.mpr h]
  · rw [Int.compare_eq_eq.mpr rfl, Int.compare_eq_eq.mpr rfl]
  · rw [Int.compare_eq_lt.mpr (by omega), Int.compare_eq_lt.mpr h]

/-- Numbers are compared by their ranks. -/
theorem unpacked_compare {a b : UnpackedFloat} {o : Ordering} (h : a.compare b = some o) :
    o = rankOrder a b := by
  have hnat : ∀ m n : Nat, compare (m : Int) (n : Int) = compare m n := by
    intro m n
    rcases Nat.lt_trichotomy m n with h | rfl | h
    · rw [Nat.compare_eq_lt.mpr h, Int.compare_eq_lt.mpr (by omega)]
    · rw [Nat.compare_eq_eq.mpr rfl, Int.compare_eq_eq.mpr rfl]
    · rw [Nat.compare_eq_gt.mpr h, Int.compare_eq_gt.mpr (by omega)]
  unfold rankOrder compareLex compareOn
  cases a with
  | notANumber => cases h
  | infinity s =>
      cases s <;> rcases b with t | _ | t | ⟨t, n, f, _⟩ <;> try cases t
      all_goals cases h <;> rfl
  | zero s =>
      rcases b with t | _ | t | ⟨t, n, f, _⟩ <;> try cases t
      all_goals cases h <;> rfl
  | finite s m e hm =>
      cases s <;> rcases b with t | _ | t | ⟨t, n, f, _⟩ <;> try cases t
      all_goals cases h
      case finite.negative.finite.negative.refl =>
        have hone : compare (-1 : Int) (-1) = .eq := rfl
        have hint : (compare e f).swap = compare f e := Std.OrientedCmp.eq_swap.symm
        have hnat' : (compare m n).swap = compare n m := Std.OrientedCmp.eq_swap.symm
        change _ = (compare (-1 : Int) (-1)).then
          ((compare (-e) (-f)).then (compare (-(m : Int)) (-(n : Int))))
        rw [hone, compare_neg, compare_neg, hnat, Ordering.swap_then, hint, hnat', Ordering.eq_then]
      case finite.positive.finite.positive.refl =>
        have hone : compare (1 : Int) 1 = .eq := rfl
        change _ = (compare (1 : Int) 1).then ((compare e f).then (compare (m : Int) (n : Int)))
        rw [hone, hnat, Ordering.eq_then]
      all_goals rfl

theorem unpacked_compare_isSome (a b : UnpackedFloat) :
    (a.compare b).isSome = (b.compare a).isSome := by
  rcases a with s | _ | s | ⟨s, m, e, _⟩ <;> try cases s
  all_goals rcases b with t | _ | t | ⟨t, n, f, _⟩ <;> try cases t
  all_goals rfl

/-- The comparison of unpacked numbers turns around with its operands. -/
theorem unpacked_compare_swap (a b : UnpackedFloat) :
    b.compare a = (a.compare b).map Ordering.swap := by
  have hsome := unpacked_compare_isSome a b
  cases hab : a.compare b with
  | none =>
      rw [hab] at hsome
      simpa using hsome.symm
  | some o =>
      rw [hab] at hsome
      obtain ⟨p, hba⟩ := Option.isSome_iff_exists.mp hsome.symm
      have hswap : rankOrder b a = (rankOrder a b).swap := Std.OrientedCmp.eq_swap
      rw [hba, unpacked_compare hab, unpacked_compare hba, hswap]
      rfl

/-- Doubles compare as the numbers that they stand for. -/
theorem compare?_eq (x y : Float) :
    compare? x y = x.toModel.unpack.compare y.toModel.unpack := by
  have hlt : ∀ x y : Float, x < y ↔ x.toModel.unpack.compare y.toModel.unpack = some .lt := by
    intro x y
    change decide (x.toModel.lt y.toModel = true) = true ↔ _
    simp [Float.Model.lt, UnpackedFloat.lt]
  have heq : (x == y) = (x.toModel.unpack.compare y.toModel.unpack == some .eq) := rfl
  unfold compare?
  simp only [hlt, heq]
  rw [unpacked_compare_swap x.toModel.unpack y.toModel.unpack]
  rcases x.toModel.unpack.compare y.toModel.unpack with _ | o
  · rfl
  · cases o <;> rfl

theorem compare?_swap (x y : Float) : compare? y x = (compare? x y).map Ordering.swap := by
  rw [compare?_eq, compare?_eq, unpacked_compare_swap]

theorem compare?_trans {x y z : Float} {o p q : Ordering} (hxy : compare? x y = some o)
    (hyz : compare? y z = some p) (hxz : compare? x z = some q) (ho : o ≠ .gt) (hp : p ≠ .gt) :
    q ≠ .gt := by
  rw [compare?_eq] at hxy hyz hxz
  obtain rfl := unpacked_compare hxy
  obtain rfl := unpacked_compare hyz
  obtain rfl := unpacked_compare hxz
  exact le_trans_of_transCmp rankOrder ho hp

end Binary64

/-! ## Values -/

instance : Std.TransCmp Uuid.compare :=
  inferInstanceAs (Std.TransCmp (compareOn fun u : Uuid => u.bits.toNat))

instance : Std.TransCmp Instant.compare :=
  inferInstanceAs (Std.TransCmp (compareLex (compareOn Instant.seconds) (compareOn Instant.nanos)))

namespace Value

theorem compare?_swap (v w : Value) : w.compare? v = (v.compare? w).map Ordering.swap := by
  cases v <;> cases w
  case bool.bool a b => exact congrArg some Std.OrientedCmp.eq_swap
  case int.int a b => exact congrArg some Std.OrientedCmp.eq_swap
  case string.string a b => exact congrArg some Std.OrientedCmp.eq_swap
  case uuid.uuid a b => exact congrArg some Std.OrientedCmp.eq_swap
  case instant.instant a b => exact congrArg some Std.OrientedCmp.eq_swap
  case float.float a b => exact Binary64.compare?_swap a b
  case int.float a b => exact Binary64.compare?_swap _ b
  case float.int a b => exact Binary64.compare?_swap a _
  all_goals rfl

def order (v w : Value) : Ordering := (v.compare? w).getD .eq

theorem order_swap (v w : Value) : w.order v = (v.order w).swap := by
  unfold order
  rw [compare?_swap v w]
  cases v.compare? w <;> rfl

/-- For values of one type the order is transitive, null being the least. -/
theorem order_trans {u v w : Value} (huv : u.ty = v.ty) (hvw : v.ty = w.ty)
    (hu : (u.compare? v).isSome) (hv : (v.compare? w).isSome) (hw : (u.compare? w).isSome)
    (h₁ : u.order v ≠ .gt) (h₂ : v.order w ≠ .gt) : u.order w ≠ .gt := by
  cases u <;> cases v <;> simp only [ty, reduceCtorEq] at huv <;>
    cases w <;> simp only [ty, reduceCtorEq] at hvw
  case null => exact h₁
  case bool a b c => exact le_trans_of_transCmp (compare : Bool → Bool → Ordering) h₁ h₂
  case int a b c => exact @le_trans_of_transCmp Int compare _ _ b.toInt _ h₁ h₂
  case string a b c => exact le_trans_of_transCmp (compare : String → String → Ordering) h₁ h₂
  case uuid a b c => exact le_trans_of_transCmp Uuid.compare h₁ h₂
  case instant a b c => exact le_trans_of_transCmp Instant.compare h₁ h₂
  case float a b c =>
    obtain ⟨o, ho⟩ := Option.isSome_iff_exists.mp hu
    obtain ⟨p, hp⟩ := Option.isSome_iff_exists.mp hv
    obtain ⟨q, hq⟩ := Option.isSome_iff_exists.mp hw
    rw [order, ho] at h₁
    rw [order, hp] at h₂
    rw [order, hq]
    exact Binary64.compare?_trans ho hp hq h₁ h₂
  all_goals simp [compare?, asFloat?] at hu

/-- No whole number stands beside a float. Both compare with each other, but after rounding, so
that the order of three of them need not be transitive. -/
def Unmixed (vs : List Value) : Prop := ∀ v ∈ vs, ∀ w ∈ vs, v.ty = .int → w.ty ≠ .float

theorem Unmixed.ty_eq {vs : List Value} (h : Unmixed vs) {v w : Value} (hv : v ∈ vs) (hw : w ∈ vs)
    (hv₀ : v ≠ .null) (hw₀ : w ≠ .null) (hsome : (v.compare? w).isSome) : v.ty = w.ty := by
  have hvw := h v hv w hw
  have hwv := h w hw v hv
  cases v <;> cases w <;> simp_all [compare?, asFloat?, ty]

/-- Values that compare with each other are ordered. -/
theorem ordersOn_order {vs : List Value} (hunmixed : Unmixed vs)
    (hsome : ∀ v ∈ vs, ∀ w ∈ vs, (v.compare? w).isSome) : OrdersOn order vs where
  swap v _ w _ := order_swap v w
  trans u hu v hv w hw h₁ h₂ := by
    have hleast : ∀ x, order .null x ≠ .gt := by
      intro x
      cases x <;> exact nofun
    have hnull : ∀ x, order x .null ≠ .gt → x = .null := by
      intro x hx
      cases x <;> first | rfl | exact (hx rfl).elim
    by_cases hu₀ : u = .null
    · rw [hu₀]
      exact hleast w
    by_cases hv₀ : v = .null
    · rw [hv₀] at h₁
      exact (hu₀ (hnull u h₁)).elim
    by_cases hw₀ : w = .null
    · rw [hw₀] at h₂
      exact (hv₀ (hnull v h₂)).elim
    exact order_trans (hunmixed.ty_eq hu hv hu₀ hv₀ (hsome u hu v hv))
      (hunmixed.ty_eq hv hw hv₀ hw₀ (hsome v hv w hw)) (hsome u hu v hv) (hsome v hv w hw)
      (hsome u hu w hw) h₁ h₂

theorem ordersOn_keyOrder {vs : List Value} (hunmixed : Unmixed vs)
    (hsome : ∀ v ∈ vs, ∀ w ∈ vs, (v.compare? w).isSome) (descending : Bool) :
    OrdersOn (Items.keyOrder descending) vs := by
  have horder := ordersOn_order hunmixed hsome
  cases descending with
  | false => exact horder
  | true => exact horder.reverse

end Value

end DeferredQuery
