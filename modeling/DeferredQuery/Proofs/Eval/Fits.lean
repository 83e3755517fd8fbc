import Mathlib.Data.List.Forall2
import DeferredQuery.Proofs.Eval.Outcomes

/-!
# Values that fit a type

A value fits a static type if conversion to the type changes nothing of it, and if what is read from
it fits the types of the reads. Null fits every type. A text may stand where a floating point number
is expected, since a text joined to a number has the number's type. The types that say nothing of a
value are fit by null alone, because arithmetic takes its type from the other operand then.
-/

namespace DeferredQuery

namespace Value

inductive Fits : Ty → Value → Prop
  | null {t : Ty} : Fits t .null
  | bool (b : Bool) : Fits .bool (.bool b)
  | int (n : Int64) : Fits .int (.int n)
  | float (x : Float) : Fits .float (.float x)
  | joined (s : String) : Fits .float (.string s)
  | string (s : String) : Fits .string (.string s)
  | uuid (u : Uuid) : Fits .uuid (.uuid u)
  | instant (t : Instant) : Fits .timestamp (.instant t)
  | list {element : Ty} {items : List Value} : (∀ v ∈ items, Fits element v) →
    Fits (.sequence element) (.list items)
  | record {tys : List (Named Ty)} {fields : List (Named Value)} :
    (∀ name t v, Named.find? name tys = some t → Named.find? name fields = some v → Fits t v) →
    Fits (.struct tys) (.record fields)
  | query {element : Ty} (root : SetRef) : Fits (.queryable element) (.query root)
  /-- Each variable of a scope fits the type that it is declared with, and can be told from the
  others by its name. -/
  | closure {className : String} {captures : List (Capture Value)} :
    (captures.map Capture.name).Nodup → (∀ c ∈ captures, Fits c.ty c.value) →
    Fits (.closure className) (.closure className captures)

namespace Fits

variable {t u : Ty} {v w : Value}

theorem convert_eq (h : Fits t v) : v.convert t = v := by
  cases h <;> rfl

theorem eq_null_of_nullable (h : Fits (.nullable t) v) : v = .null := by
  cases h
  rfl

/-- A number that is widened fits the wider type. -/
theorem convert_float (h : Fits .int v) : Fits .float (v.convert .float) := by
  cases h with
  | null => exact .null
  | int n => exact .float _

/-! ## Scalars -/

/-- Members keep what the type of their owner says of them. -/
theorem member {property : (entity name : String) → Option Ty} {name : String} (h : Fits t v)
    (hty : t.member? property name = some u) (hread : v.member name = .ok w) : Fits u w := by
  cases h with
  | null => cases hread
  | string s =>
      simp only [Ty.member?, Ty.unwrap] at hty
      simp only [Value.member, storedMember, computedMember?] at hread
      split at hty
      · rename_i hname
        simp only [if_pos hname] at hread
        cases hty
        cases hread
        exact .int _
      · cases hty
  | list hitems =>
      simp only [Ty.member?, Ty.unwrap] at hty
      simp only [Value.member, storedMember, computedMember?] at hread
      split at hty
      · rename_i hname
        simp only [if_pos hname] at hread
        cases hty
        cases hread
        exact .int _
      · cases hty
  | instant t =>
      simp only [Ty.member?, Ty.unwrap] at hty
      simp only [Value.member, storedMember, computedMember?] at hread
      split at hty <;> cases hty
      split at hread
      · rename_i hcomputed
        cases hread
        split at hcomputed <;> cases hcomputed <;> exact .int _
      · cases hread
  | @record tys fields hfields =>
      simp only [Ty.member?, Ty.unwrap] at hty
      simp only [Value.member, storedMember] at hread
      cases hfind : Named.find? name fields with
      | none => simp [hfind, computedMember?] at hread
      | some r =>
          obtain rfl : r = w := by simpa [hfind] using hread
          exact hfields name u r hty hfind
  | bool | int | float | joined | uuid | query | closure => cases hty

/-- Negation is refused where the result does not fit, and keeps the type otherwise. -/
theorem negated (h : Fits t v) (happly : UnOp.neg.apply v = .ok w) : Fits t w := by
  cases h with
  | null =>
      cases happly
      exact .null
  | int n =>
      simp only [UnOp.apply] at happly
      split at happly <;> cases happly
      exact .int _
  | float x =>
      cases happly
      exact .float _
  | _ => cases happly

end Fits

theorem fits_not {v w : Value} (happly : UnOp.not.apply v = .ok w) : Fits .bool w := by
  cases v <;> cases happly
  · exact .null
  · exact .bool _

end Value

/-! ## Arithmetic -/

namespace BinOp

variable {op : BinOp} (hcomparison : op.isComparison = false) (hlogical : op.isLogical = false)

include hcomparison hlogical

theorem resultTy_of_float {l r : Ty} (h : l = .float ∨ r = .float) : op.resultTy l r = .float := by
  simp only [resultTy, hcomparison, hlogical, Bool.or_self, Bool.false_eq_true, if_false]
  rcases h with rfl | rfl
  · rfl
  · split <;> simp_all [Ty.unwrap]

theorem resultTy_of_string {l r : Ty} (h : l = .string ∨ r = .string) :
    op.resultTy l r = .float ∨ op.resultTy l r = .string := by
  simp only [resultTy, hcomparison, hlogical, Bool.or_self, Bool.false_eq_true, if_false]
  rcases h with rfl | rfl <;> split <;> simp_all [Ty.unwrap]

/-- A text is joined to a number or to another value. -/
theorem fits_joined {l r : Ty} (h : (l = .float ∨ r = .float) ∨ l = .string ∨ r = .string)
    (s : String) : Value.Fits (op.resultTy l r) (.string s) := by
  rcases h with h | h
  · rw [resultTy_of_float hcomparison hlogical h]
    exact .joined s
  · rcases resultTy_of_string hcomparison hlogical h with h | h <;> rw [h]
    · exact .joined s
    · exact .string s

end BinOp

namespace Value

theorem Fits.ty_of_string {t : Ty} {v : Value} (h : Fits t v) (hv : v.asString?.isSome = true) :
    t = .float ∨ t = .string := by
  cases h with
  | joined s => exact .inl rfl
  | string s => exact .inr rfl
  | _ => cases hv

theorem Fits.ty_of_number {t : Ty} {v : Value} {x : Float} (h : Fits t v)
    (hv : v.asFloat? = some x) : t = .float ∨ ∃ n, v = .int n ∧ t = .int := by
  cases h with
  | int n => exact .inr ⟨n, rfl, rfl⟩
  | float => exact .inl rfl
  | _ => cases hv

/-- The type of arithmetic is fit by its value, also where the operands are of two kinds. -/
theorem Fits.arithmetic {op : BinOp} {l r : Ty} {a b w : Value} (hl : Fits l a) (hr : Fits r b)
    (hcomparison : op.isComparison = false) (hlogical : op.isLogical = false)
    (happly : op.arithmetic a b = .ok w) : Fits (op.resultTy l r) w := by
  unfold BinOp.arithmetic at happly
  split at happly
  · cases happly
    exact .null
  · cases happly
    exact .null
  · cases hl
    cases hr
    split at happly
    · cases happly
    · split at happly <;> cases happly
      simp only [BinOp.resultTy, hcomparison, hlogical, Bool.or_self, Bool.false_eq_true, if_false]
      exact .int _
  · rename_i hints
    split at happly
    · rename_i htext
      cases happly
      refine BinOp.fits_joined hcomparison hlogical ?_ _
      rcases htext.2 with ha | hb
      · rcases hl.ty_of_string ha with h | h <;> simp [h]
      · rcases hr.ty_of_string hb with h | h <;> simp [h]
    · split at happly <;> cases happly
      rename_i x y ha hb
      have hfloat : l = .float ∨ r = .float := by
        rcases hl.ty_of_number ha with h | ⟨m, rfl, -⟩
        · exact .inl h
        · rcases hr.ty_of_number hb with h | ⟨n, rfl, -⟩
          · exact .inr h
          · exact (hints m n rfl rfl).elim
      rw [BinOp.resultTy_of_float hcomparison hlogical hfloat]
      exact .float _

theorem fits_compare {op : BinOp} {l r : Ty} {a b w : Value} (hcomparison : op.isComparison = true)
    (happly : op.apply a b = .ok w) : Fits (op.resultTy l r) w := by
  simp only [BinOp.apply, hcomparison, if_true] at happly
  obtain ⟨c, -, hbool⟩ := bind_eq_ok.mp happly
  cases hbool
  simp only [BinOp.resultTy, hcomparison, Bool.true_or, if_true]
  exact .bool c

theorem Fits.binary {op : BinOp} {l r : Ty} {a b w : Value} (hl : Fits l a) (hr : Fits r b)
    (hlogical : op.isLogical = false) (happly : op.apply a b = .ok w) :
    Fits (op.resultTy l r) w := by
  cases hcomparison : op.isComparison with
  | true => exact fits_compare hcomparison happly
  | false =>
      rw [BinOp.apply, if_neg (by simp [hcomparison])] at happly
      exact hl.arithmetic hr hcomparison hlogical happly

/-- Arithmetic on null gives null, whatever the other operand is. -/
theorem fits_apply_null {op : BinOp} {l r : Ty} {a b w : Value} (h : a = .null ∨ b = .null)
    (happly : op.apply a b = .ok w) : Fits (op.resultTy l r) w := by
  cases hcomparison : op.isComparison with
  | true => exact fits_compare hcomparison happly
  | false =>
      rw [BinOp.apply, if_neg (by simp [hcomparison])] at happly
      have hnull : op.arithmetic a b = .ok .null := by
        rcases h with rfl | rfl
        · rfl
        · cases a <;> rfl
      cases hnull.symm.trans happly
      exact .null

/-! ## Records and lists -/

/-- Of types and values under the same names, those found by one name belong together. -/
theorem fits_record {fields : List (Named Value)} {tys : List (Named Ty)}
    (h : List.Forall₂ (fun x y => x.name = y.name ∧ Fits x.value y.value) tys fields) :
    Fits (.struct tys) (.record fields) := by
  refine .record fun name t v ht hv => ?_
  induction h with
  | nil => cases ht
  | @cons x y tys fields hxy _ ih =>
      rw [Named.find?_cons] at ht hv
      by_cases hname : x.name = name
      · rw [if_pos hname] at ht
        rw [if_pos (hxy.1 ▸ hname)] at hv
        cases ht
        cases hv
        exact hxy.2
      · rw [if_neg hname] at ht
        rw [if_neg (hxy.1 ▸ hname)] at hv
        exact ih ht hv

theorem Fits.of_closure {t : Ty} {className : String} {captures : List (Capture Value)}
    (h : Fits t (.closure className captures)) :
    (captures.map Capture.name).Nodup ∧ ∀ c ∈ captures, Fits c.ty c.value := by
  cases h with
  | closure hnames hcaptures => exact ⟨hnames, hcaptures⟩

theorem Fits.of_list {t : Ty} {items : List Value} (h : Fits t (.list items)) :
    ∃ element, t = .sequence element ∧ ∀ v ∈ items, Fits element v := by
  cases h with
  | list hitems => exact ⟨_, rfl, hitems⟩

end Value

end DeferredQuery
