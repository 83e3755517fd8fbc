import DeferredQuery.Proofs.QueryText.Sound
import DeferredQuery.Proofs.Shape.Deferred
import DeferredQuery.Proofs.Shape.Meaning
import DeferredQuery.Proofs.Shape.Shared
import DeferredQuery.Proofs.Shape.Tagged

/-!
# Values behind placeholders

A placeholder whose value has another type than the part that it replaces is converted to the part's
type. The conversion changes numbers of the other kind only, and there is none if the captured
variables fit the types that they are declared with. A list has the type of its first item, so that
one of whole numbers and floating point numbers does not fit its own type.
-/

namespace DeferredQuery

open Eval (Oracle)

namespace Value

/-- The value is a number of the other kind than those of the type. -/
def IsOtherKind (t : Ty) : Value → Prop
  | .int _ => t.unwrap = .float
  | .float _ => t.unwrap = .int
  | _ => False

theorem convert_eq_iff {v : Value} {t : Ty} : v.convert t = v ↔ ¬ v.IsOtherKind t := by
  cases v with
  | int n => by_cases h : t.unwrap = .float <;> simp [convert, IsOtherKind, h]
  | float x => by_cases h : t.unwrap = .int <;> simp [convert, IsOtherKind, h]
  | _ => exact iff_of_true rfl id

theorem convert_self (v : Value) : v.convert v.ty = v := by
  cases v <;> rfl

theorem convert_convert (v : Value) (t : Ty) : (v.convert t).convert t = v.convert t := by
  cases v with
  | int n => by_cases h : t.unwrap = .float <;> simp [convert, h]
  | float x => by_cases h : t.unwrap = .int <;> simp [convert, h]
  | _ => rfl

end Value

namespace Extract

/-- A placeholder reads the value that is bound to it, converted to the type of its part. -/
theorem evaluate_placeholderNode {P : Bindings} {name : String} {v : Value}
    (h : P.get? name = some v) (t : Ty) (rows : Option Eval.RowSource) (clock : Oracle) (j : Nat) :
    Eval.evaluate ⟨some P, rows, clock⟩ (placeholderNode name v t) j = .ok (v.convert t, j) := by
  have hlookup : Eval.Env.lookup ⟨some P, rows, clock⟩ [] name = .ok v := by
    simp only [Eval.Env.lookup, Named.find?_nil, Option.none_or, Option.bind_some]
    rw [show Named.find? name P = some v from h]
  unfold placeholderNode
  split
  · rename_i hplain
    have hkeeps : v.convert t = v := by
      rcases (Bool.or_eq_true _ _).mp hplain with hnull | hty
      · cases v with
        | null => rfl
        | _ => cases hnull
      · exact (beq_iff_eq.mp hty) ▸ v.convert_self
    exact Eval.lift_eq_ok.mpr ⟨hkeeps.symm ▸ hlookup, rfl⟩
  · exact Eval.bind_eq_ok.mpr ⟨v, j, Eval.lift_eq_ok.mpr ⟨hlookup, rfl⟩, rfl⟩

/-- What is bound for a part of a query text gives the value of the part, once it is converted to
the part's type. The conversions that are skipped only bring operands to an optional type. -/
theorem evaluate_of_grown {env : QueryText.Env} {oracle : Oracle} {r : Expr} (h : env.Grown r)
    (hdraw : r.DrawFree) {u : Value} {name : Option String} {n k : Nat}
    (hvalue : valueOf oracle r n = .ok ((u, name), k)) :
    ∃ v, (∀ outer j, Eval.evaluate outer r j = .ok (v, j)) ∧ u.convert r.ty = v.convert r.ty := by
  have hbuilt : ∀ {e : Expr}, env.Built e → e.DrawFree → valueOf oracle e n = .ok ((u, name), k) →
      ∀ outer j, Eval.evaluate outer e j = .ok (u, j) := by
    intro e he hdraw hvalue outer j
    have heval := evaluate_of_valueOf_of_keeps (P := env.Built) (fun _ _ _ h => h.target)
      (fun _ _ h => h.ne_convert.elim) he hdraw hvalue
    exact value_of_closed hdraw (heval 0) outer [] j
  cases h with
  | built h => exact ⟨u, hbuilt h hdraw hvalue, rfl⟩
  | @convert operand t h hbrings =>
      rw [valueOf] at hvalue
      split at hvalue
      · have hoperand := hbuilt h (hdraw.child (by simp [Expr.children])) hvalue
        refine ⟨u.convert t, fun outer j => ?_, (u.convert_convert t).symm⟩
        exact Eval.bind_eq_ok.mpr ⟨u, j, hoperand outer j, rfl⟩
      · have heval := evaluate_of_compute hdraw hvalue
        exact ⟨u, fun outer j => value_of_closed hdraw (heval 0) outer [] j, rfl⟩

/-- Where the captured variables fit their types, each value of a part fits the part's type, unless
the part only brings an operand to another type. -/
theorem convert_of_faithful {env : QueryText.Env} (henv : env.Faithful) {r : Expr}
    (h : env.Grown r) (hclosed : (Closedness.analyze r).closed = true) {v : Value}
    (hvalue : ∀ outer j, Eval.evaluate outer r j = .ok (v, j)) : v.convert r.ty = v := by
  let oracle : Oracle := ⟨fun _ => ⟨0⟩, fun _ => ⟨0, 0⟩⟩
  cases h with
  | built h =>
      have hsound := QueryText.sound_of_closed henv h hclosed oracle
      exact ((hsound.value []).of_ok (hvalue (.closed oracle) 0)).convert_eq
  | @convert operand t _ _ =>
      obtain ⟨u, j, -, hpure⟩ := Eval.bind_eq_ok.mp (hvalue (.closed oracle) 0)
      obtain ⟨hconvert, -⟩ := Eval.pure_eq_ok.mp hpure
      exact hconvert ▸ u.convert_convert t

theorem Created.exists_valueOf {oracle : Oracle} {P : Bindings} {part node : Expr}
    (h : Created oracle P part node) (hP : Numbered P) :
    ∃ u name n k, valueOf oracle part n = .ok ((u, partName part), k) ∧
      node = placeholderNode name u part.ty ∧ P.get? name = some u := by
  obtain ⟨before, after, name, u, hrun, hafter, hnode, hget⟩ := h.exists_get? hP
  obtain ⟨w, k, hvalue, -, hafter'⟩ := bind_eq_ok.mp hrun
  obtain ⟨-, rfl⟩ : _ ∧ w = u := by
    rw [hafter'] at hafter
    simpa [Bindings.add] using hafter
  exact ⟨w, name, before.draws, k, hvalue, hnode, hget⟩

/-- Each node that an extraction puts in gives the value of the part that it replaces, converted to
the static type of the part. That restores the value if and only if it is no number of the other
kind than the type, which it never is if the captured variables fit the types that they are declared
with. -/
theorem restored_iff_not_isOtherKind {env : QueryText.Env} {text : String} {e : Expr}
    (hparse : QueryText.parse env text = .ok e) {ms : VolatileMethods}
    (hms : ∀ m ∈ VolatileMethods.standard, m ∈ ms) {oracle : Oracle} {n : Nat} {shape : Expr}
    {s : State} (h : (extract oracle (ms.tag e)).run ⟨[], n⟩ = (.ok shape, s)) :
    ShapedBy (fun _ part node => ∃ v, (∀ outer j, Eval.evaluate outer part j = .ok (v, j)) ∧
        (∀ rows clock j, Eval.evaluate ⟨some s.params, rows, clock⟩ node j =
          .ok (v.convert part.ty, j)) ∧
        ((∀ rows clock j, Eval.evaluate ⟨some s.params, rows, clock⟩ node j = .ok (v, j)) ↔
          ¬ v.IsOtherKind part.ty) ∧
        (env.Faithful → ¬ v.IsOtherKind part.ty)) [] false (ms.tag e) shape := by
  have hgrown : env.Grown e := .built (QueryText.built_parse hparse)
  have hgrows := growsAlways_extract oracle (ms.tag e) ⟨[], n⟩
  rw [h] at hgrows
  have hnumbered : Numbered s.params := hgrows.2 numbered_nil
  refine (shapedBy_created h List.prefix_rfl).imp_of_mem fun _ part node hpart _ hcreated => ?_
  obtain ⟨hmem, heligible⟩ := mem_nodes_of_replaced hpart
  have hclosed := closed_of_eligible heligible
  have hpartGrown := hgrown.node (VolatileMethods.mem_nodes_of_closed hmem hclosed)
  have hdraw := drawFree_of_replaced (VolatileMethods.sealed_tag hms e false) hpart
  obtain ⟨u, name, i, k, hvalue, rfl, hget⟩ := hcreated.exists_valueOf hnumbered
  obtain ⟨v, heval, hconvert⟩ := evaluate_of_grown hpartGrown hdraw hvalue
  have hnode : ∀ rows clock j, Eval.evaluate ⟨some s.params, rows, clock⟩
      (placeholderNode name u part.ty) j = .ok (v.convert part.ty, j) :=
    fun rows clock j => hconvert ▸ evaluate_placeholderNode hget part.ty rows clock j
  refine ⟨v, heval, hnode, ?_, fun henv => Value.convert_eq_iff.mp
    (convert_of_faithful henv hpartGrown hclosed heval)⟩
  rw [← Value.convert_eq_iff]
  constructor
  · intro hrestored
    simpa using (hnode none oracle 0).symm.trans (hrestored none oracle 0)
  · intro hkeeps rows clock j
    rw [hnode, hkeeps]

def listed (items : List Value) : Closure := ⟨"Scope", [Value.capture "xs" (.list items)]⟩

def secondOf (scope : Closure) : Expr :=
  let xs : Expr := .member (.const (.closure scope.className scope.captures)) "xs" (.sequence .int)
  .call (.operator "First") none
    [.call (.operator "Skip") none [xs, .const (.int 1)] (.sequence .int)] .int

def younger (limit : Expr) : Expr :=
  .call (.operator "Where") none
    [.constant (.query ⟨"Person", "people"⟩) (.queryable (.entity "Person")),
      .lambda [⟨"p", .entity "Person"⟩]
        (.binary .lt (.member (.parameter "p" (.entity "Person")) "Age" .int) limit)]
    (.queryable (.entity "Person"))

theorem tag_younger_secondOf (scope : Closure) :
    VolatileMethods.standard.tag (younger (secondOf scope)) = younger (secondOf scope) :=
  VolatileMethods.tag_eq_self rfl

/-- A list of whole numbers fits its type, so the second of them stands behind its placeholder. -/
theorem restored_of_ages :
    let scope := listed [.int 1, .int 3]
    let env : QueryText.Env := ⟨township.names, some scope⟩
    let e := younger (secondOf scope)
    let shape := younger (.parameter "__First_0" .int)
    let bound : Bindings := [⟨"__First_0", .int 3⟩]
    let oracle : Oracle := ⟨fun _ => ⟨0⟩, fun _ => ⟨0, 0⟩⟩
    QueryText.parse env "people.Where(p => p.Age < xs.Skip(1).First())" = .ok e ∧
      (extract oracle (VolatileMethods.standard.tag e)).run ⟨[], 0⟩ = (.ok shape, ⟨bound, 0⟩) ∧
      env.Faithful ∧
      ShapedBy (fun _ part node => ∃ v, (∀ outer j, Eval.evaluate outer part j = .ok (v, j)) ∧
        ∀ rows clock j, Eval.evaluate ⟨some bound, rows, clock⟩ node j = .ok (v, j)) [] false
          (VolatileMethods.standard.tag e) shape := by
  intro scope env e shape bound oracle
  have hparse : QueryText.parse env "people.Where(p => p.Age < xs.Skip(1).First())" = .ok e := rfl
  have hshape : (extract oracle (VolatileMethods.standard.tag e)).run ⟨[], 0⟩ =
      (.ok shape, ⟨bound, 0⟩) := by
    rw [tag_younger_secondOf]
    with_unfolding_all rfl
  have henv : env.Faithful := by
    rintro c ⟨⟩
    refine .closure (by simp [scope, listed]) fun c hc => ?_
    obtain rfl := List.mem_singleton.mp hc
    refine .list fun v hv => ?_
    simp only [List.mem_cons, List.not_mem_nil, or_false] at hv
    rcases hv with rfl | rfl <;> exact .int _
  refine ⟨hparse, hshape, henv, ?_⟩
  refine (restored_iff_not_isOtherKind hparse (fun _ hm => hm) hshape).imp fun _ part node h => ?_
  obtain ⟨v, heval, -, hrestored, hfaithful⟩ := h
  exact ⟨v, heval, hrestored.mpr (hfaithful henv)⟩

/-- A list of a whole number and a floating point one has the type of the whole number. The second
of the numbers is cut to a whole number behind its placeholder, so that the person below it is
lost. -/
theorem narrowed_of_ages :
    let scope := listed [.int 1, .float 2.5]
    let node : Expr := .convert (.parameter "__First_0" .float) .int
    let bound : Bindings := [⟨"__First_0", .float 2.5⟩]
    let people : List Value := [.record [⟨"Age", .int 2⟩], .record [⟨"Age", .int 3⟩]]
    QueryText.parse ⟨township.names, some scope⟩ "people.Where(p => p.Age < xs.Skip(1).First())" =
        .ok (younger (secondOf scope)) ∧
      (∀ oracle n, (extract oracle (VolatileMethods.standard.tag (younger (secondOf scope)))).run
        ⟨[], n⟩ = (.ok (younger node), ⟨bound, n⟩)) ∧
      (∀ outer n, Eval.evaluate outer (secondOf scope) n = .ok (.float 2.5, n)) ∧
      (∀ rows oracle n, Eval.evaluate ⟨some bound, rows, oracle⟩ node n = .ok (.int 2, n)) ∧
      (∀ oracle n, Eval.evaluate ⟨none, some fun _ => .ok people, oracle⟩
        (younger (secondOf scope)) n = .ok (.list [.record [⟨"Age", .int 2⟩]], n)) ∧
      ∀ oracle n, Eval.evaluate ⟨some bound, some fun _ => .ok people, oracle⟩
        (younger node) n = .ok (.list [], n) := by
  intro scope node bound people
  rw [tag_younger_secondOf]
  refine ⟨rfl, fun _ _ => ?_, fun _ _ => rfl, fun _ _ _ => rfl, fun _ _ => rfl, fun _ _ => rfl⟩
  with_unfolding_all rfl

end Extract

end DeferredQuery
