import DeferredQuery.Proofs.QueryText.Built

/-!
# Signs of whole numbers

A minus before a whole number is folded into the number. The least 64-bit number has no negation,
but no query text can write it: the digits of a literal have no sign, so that the number they make
has a negation, and so has each number that comes of it by negations.
-/

namespace DeferredQuery

open Checked (fit? fit?_eq_some_iff greatest)

def Symmetric (n : Int64) : Prop := -Checked.greatest ≤ n.toInt ∧ n.toInt ≤ Checked.greatest

def Expr.Bounded (e : Expr) : Prop := ∀ n t, .constant (.int n) t ∈ e.nodes → Symmetric n

theorem Symmetric.toInt_neg {n : Int64} (h : Symmetric n) : (-n).toInt = -n.toInt := by
  obtain ⟨hleast, hgreatest⟩ := h
  unfold Checked.greatest at hleast hgreatest
  rw [Int64.toInt_neg]
  exact Int.bmod_eq_of_le (by omega) (by omega)

theorem Symmetric.neg {n : Int64} (h : Symmetric n) : Symmetric (-n) := by
  obtain ⟨hleast, hgreatest⟩ := h
  unfold Symmetric
  rw [Symmetric.toInt_neg ⟨hleast, hgreatest⟩]
  omega

theorem Symmetric.checked_neg {n : Int64} (h : Symmetric n) : Checked.neg n = some (-n) :=
  Checked.fit?_eq_some_iff.mpr h.toInt_neg

namespace Expr

theorem bounded_of_children {e : Expr} (hself : ∀ n t, e ≠ .constant (.int n) t)
    (h : ∀ c ∈ e.children, c.Bounded) : e.Bounded := by
  intro n t hconstant
  rcases mem_nodes.mp hconstant with he | ⟨c, hc, hconstant⟩
  · exact absurd he.symm (hself n t)
  · exact h c hc n t hconstant

theorem bounded_int {n : Int64} {t : Ty} : (constant (.int n) t).Bounded ↔ Symmetric n := by
  constructor
  · intro h
    exact h n t (self_mem_nodes _)
  · rintro h m u hm
    obtain ⟨rfl, rfl⟩ : m = n ∧ u = t := by simpa [nodes] using hm
    exact h

theorem bounded_constant {v : Value} {t : Ty} (hv : ∀ n, v = .int n → Symmetric n) :
    (constant v t).Bounded := by
  intro n u h
  obtain ⟨rfl, -⟩ : v = .int n ∧ t = u := by simpa [nodes, eq_comm] using h
  exact hv n rfl

end Expr

namespace QueryText

def negate? : Expr → Option Expr
  | .constant (.int n) t => (Checked.neg n).map fun m => .constant (.int m) t
  | e => some (negate e)

theorem negate?_eq_some {e : Expr} (h : e.Bounded) : negate? e = some (negate e) := by
  unfold negate?
  split
  · rw [(Expr.bounded_int.mp h).checked_neg]
    rfl
  · rfl

/-! ## Steps of building -/

/-- The digits of a literal have no sign, so their number has a negation. -/
theorem symmetric_of_literal {l : Literal} {n : Int64} (h : l.value = .ok (.int n)) :
    Symmetric n := by
  cases l with
  | int digits =>
      rw [Literal.value] at h
      cases hfit : fit? (Decimal.ofDigits digits) with
      | none => simp [hfit] at h
      | some m =>
          obtain rfl : m = n := by simpa [hfit] using h
          have hn := m.toInt_lt
          rw [fit?_eq_some_iff] at hfit
          unfold Symmetric greatest
          omega
  | _ => cases h

theorem bounded_path {env : Env} {e : Expr} {v : Value} (h : env.Path e v) : e.Bounded := by
  induction h with
  | root => exact Expr.bounded_constant (by simp)
  | read _ _ ih =>
      exact Expr.bounded_of_children nofun (List.forall_mem_singleton.mpr ih)

theorem bounded_resolve? {env : Env} {scope : List Binder} {name : String} {e : Expr}
    (h : env.resolve? scope name = some e) : e.Bounded := by
  unfold Env.resolve? at h
  split at h
  · cases h
    exact Expr.bounded_of_children nofun nofun
  split at h
  · cases h
    exact Expr.bounded_constant (by simp)
  · obtain ⟨c, hc, hcapture⟩ := Option.bind_eq_some_iff.mp h
    obtain ⟨v, hpath⟩ := path_of_capture? (.root hc) hcapture
    exact bounded_path hpath

end QueryText

namespace Expr.Bounded

open QueryText

variable {e left right target receiver : Expr} {args : List Expr}

theorem convert (h : e.Bounded) (t : Ty) : (Expr.convert e t).Bounded :=
  bounded_of_children nofun (List.forall_mem_singleton.mpr h)

theorem binary (hl : left.Bounded) (hr : right.Bounded) (op : BinOp) :
    (Expr.binary op left right).Bounded := by
  refine bounded_of_children nofun (List.forall_mem_cons.mpr ⟨hl, ?_⟩)
  exact List.forall_mem_singleton.mpr hr

theorem unary (h : e.Bounded) (op : UnOp) : (Expr.unary op e).Bounded :=
  bounded_of_children nofun (List.forall_mem_singleton.mpr h)

theorem combine (hl : left.Bounded) (hr : right.Bounded) (op : BinOp) :
    (combine op left right).Bounded := by
  unfold QueryText.combine
  repeat' split
  · exact hl.binary hr op
  · exact hl.binary (hr.convert _) op
  · exact (hl.convert _).binary hr op
  · exact (hl.convert _).binary hr op
  · exact hl.binary (hr.convert _) op
  · exact hl.binary hr op

theorem negate (h : e.Bounded) : (negate e).Bounded := by
  unfold QueryText.negate
  split
  · exact bounded_int.mpr (bounded_int.mp h).neg
  · exact bounded_constant (by simp)
  · exact h.unary .neg

theorem readMember {names : Names} {name : String} (h : target.Bounded)
    (hread : readMember names target name = .ok e) : e.Bounded := by
  unfold QueryText.readMember at hread
  split at hread <;> cases hread
  exact bounded_of_children nofun (List.forall_mem_singleton.mpr h)

theorem staticCall {owner name : String} (h : ∀ a ∈ args, a.Bounded)
    (hcall : staticCall owner name args = .ok e) : e.Bounded := by
  unfold QueryText.staticCall at hcall
  split at hcall <;> cases hcall
  exact bounded_of_children nofun h

theorem receiverCall {name : String} (hreceiver : receiver.Bounded) (h : ∀ a ∈ args, a.Bounded)
    (hcall : receiverCall receiver name args = .ok e) : e.Bounded := by
  have hall := List.forall_mem_cons.mpr ⟨hreceiver, h⟩
  unfold QueryText.receiverCall at hcall
  split at hcall
  · cases hcall
    exact bounded_of_children nofun hall
  · unfold scalarCall at hcall
    split at hcall <;> cases hcall
    exact bounded_of_children nofun hall

theorem record {fields : List (Named Expr)} (h : ∀ field ∈ fields, field.value.Bounded) :
    (Expr.record fields).Bounded :=
  bounded_of_children nofun (List.forall_mem_map.mpr h)

end Expr.Bounded

namespace QueryText

theorem Env.steps_bounded (env : Env) : env.Steps Expr.Bounded where
  resolve := bounded_resolve?
  literal h := Expr.bounded_constant fun _ hn => symmetric_of_literal (hn ▸ h)
  lambda _ _ h := Expr.bounded_of_children nofun (List.forall_mem_singleton.mpr h)
  combine op _ _ hl hr := hl.combine hr op
  negate h := h.negate
  not h := h.unary .not
  readMember h := h.readMember
  staticCall := Expr.Bounded.staticCall
  receiverCall h := h.receiverCall
  record := .record

/-! ## Runs of signs -/

/-- The tree is a literal with the digits, behind minuses and parentheses that make of it the number
`z`. -/
inductive Signed (digits : List Char) : Tree → Int → Prop
  | literal : Signed digits (.literal (.int digits)) (Decimal.ofDigits digits)
  | paren {t : Tree} {z : Int} : Signed digits t z → Signed digits (.paren t) z
  | neg {t : Tree} {z : Int} : Signed digits t z → Signed digits (.unary .neg t) (-z)

section Signed

variable {env : Env} {scope : List Binder} {seeds : List Ty} {digits : List Char} {t : Tree}
  {z : Int}

/-- A number that has a negation is folded, whatever signs are before its digits. -/
theorem Signed.build_eq_ok (h : Signed digits t z) (hz : z.natAbs ≤ greatest) :
    ∃ n : Int64, n.toInt = z ∧ build env scope seeds t = .ok (.const (.int n)) := by
  induction h generalizing seeds with
  | literal =>
      have hfit : fit? (Decimal.ofDigits digits) = some (.ofInt (Decimal.ofDigits digits)) := by
        rw [Int.natAbs_natCast] at hz
        exact if_pos ⟨by unfold Checked.least; omega, hz⟩
      refine ⟨_, fit?_eq_some_iff.mp hfit, ?_⟩
      rw [build, Literal.value, hfit]
      rfl
  | paren _ ih =>
      rw [build]
      exact ih hz
  | @neg t z _ ih =>
      rw [Int.natAbs_neg] at hz
      obtain ⟨n, rfl, hbuild⟩ := @ih [] hz
      have hn : Symmetric n := by
        unfold Symmetric
        omega
      refine ⟨-n, hn.toInt_neg, ?_⟩
      rw [build, hbuild]
      rfl

/-- Digits that make too large a number are an error also behind a minus. -/
theorem Signed.build_eq_error (h : Signed digits t z) (hz : greatest < z.natAbs) :
    build env scope seeds t = .error (.integerTooLarge (String.ofList digits)) := by
  induction h generalizing seeds with
  | literal =>
      rw [Int.natAbs_natCast] at hz
      rw [build, Literal.value, Checked.fit?_eq_none_iff.mpr (.inr hz)]
      rfl
  | paren _ ih =>
      rw [build]
      exact ih hz
  | neg _ ih =>
      rw [Int.natAbs_neg] at hz
      rw [build, ih hz]
      rfl

end Signed

/-- All whole numbers in the expression of a text have negations, and so have those of its parts
when a minus before one is folded. Digits with signs and parentheses around them stand for their
number, if it has a negation, and are an error otherwise. -/
theorem signs_fold (env : Env) :
    (∀ text e, parse env text = .ok e → e.Bounded) ∧
    (∀ scope seeds t e, build env scope seeds t = .ok e →
      e.Bounded ∧ negate? e = some (negate e)) ∧
    ∀ scope seeds digits t z, Signed digits t z →
      (z.natAbs ≤ greatest → ∃ n : Int64, n.toInt = z ∧
        build env scope seeds t = .ok (.const (.int n))) ∧
      (greatest < z.natAbs →
        build env scope seeds t = .error (.integerTooLarge (String.ofList digits))) := by
  refine ⟨fun text e h => env.steps_bounded.parse h, fun scope seeds t e h => ?_,
    fun scope seeds digits t z h => ⟨h.build_eq_ok, h.build_eq_error⟩⟩
  have hbounded := env.steps_bounded.build h
  exact ⟨hbounded, negate?_eq_some hbounded⟩

/-- Two minuses before a small number; a minus before the greatest number, which gives the least one
with a negation; and one before the number after it, which is too large. -/
theorem signs_fold_at_ends :
    let env : Env := ⟨⟨fun _ _ => none, fun _ => none⟩, none⟩
    let signed (digits : String) : Tree := .unary .neg (.paren (.literal (.int digits.toList)))
    (parse env "-(-7)" = .ok (.const (.int 7)) ∧ Symmetric 7) ∧
    (∃ n : Int64, n.toInt = -greatest ∧
      build env [] [] (signed "9223372036854775807") = .ok (.const (.int n)) ∧
      negate? (.const (.int n)) = some (.const (.int (-n)))) ∧
    build env [] [] (signed "9223372036854775808") =
      .error (.integerTooLarge "9223372036854775808") := by
  intro env signed
  obtain ⟨hparse, hstage, hsigned⟩ := signs_fold env
  have hseven : parse env "-(-7)" = .ok (.const (.int 7)) := rfl
  have hdigits : Decimal.ofDigits "9223372036854775807".toList = 9223372036854775807 := by decide
  have hlarge : Decimal.ofDigits "9223372036854775808".toList = 9223372036854775808 := by decide
  refine ⟨⟨hseven, Expr.bounded_int.mp (hparse _ _ hseven)⟩, ?_, ?_⟩
  · have hfits : (-(Decimal.ofDigits "9223372036854775807".toList : Int)).natAbs ≤ greatest := by
      rw [hdigits]
      unfold greatest
      omega
    obtain ⟨n, hn, hbuild⟩ := (hsigned [] [] _ _ _ (.neg (.paren .literal))).1 hfits
    refine ⟨n, ?_, hbuild, (hstage _ _ _ _ hbuild).2⟩
    rw [hn, hdigits]
    rfl
  · have hexceeds : greatest < (-(Decimal.ofDigits "9223372036854775808".toList : Int)).natAbs := by
      rw [hlarge]
      unfold greatest
      omega
    exact (hsigned [] [] _ _ _ (.neg (.paren .literal))).2 hexceeds

end QueryText

end DeferredQuery
