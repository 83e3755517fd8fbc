import DeferredQuery.Proofs.Eval.Settled
import DeferredQuery.Proofs.Shape.Parts
import DeferredQuery.Proofs.Shape.Tags

/-!
# Extraction from tagged queries

In a tagged query each call that draws from the oracle stands in a tag of its own. No closed part
contains a tag, so that extraction computes nothing that draws: what it returns and what it binds
are the same for all oracles.
-/

namespace DeferredQuery

open Eval (Oracle Settled)

/-! ## Calls in tags -/

/-- Each call in the expression that draws stands directly in a tag; `tagged` holds for the
expression in a tag. -/
inductive Expr.Sealed : (tagged : Bool) → Expr → Prop
  | intro {tagged : Bool} {e : Expr} : (e.isDraw = true → tagged = true) →
    (∀ c ∈ e.children, Sealed e.isTag c) → Sealed tagged e

namespace Expr.Sealed

variable {tagged : Bool} {e c : Expr}

theorem child (h : e.Sealed tagged) (hc : c ∈ e.children) : c.Sealed e.isTag := by
  cases h with
  | intro _ h => exact h c hc

theorem isDraw_eq_false (h : e.Sealed false) : e.isDraw = false := by
  cases h with
  | intro h _ => exact Bool.eq_false_iff.mpr fun hdraw => nomatch h hdraw

/-- An expression that draws nothing itself. -/
theorem of_children (h : e.isDraw = false) (hc : ∀ c ∈ e.children, c.Sealed e.isTag) :
    e.Sealed tagged := .intro (fun hdraw => nomatch h.symm.trans hdraw) hc

end Expr.Sealed

namespace VolatileMethods

theorem marks_of_isDraw {ms : VolatileMethods} (hms : ∀ m ∈ standard, m ∈ ms) {e : Expr}
    (h : e.isDraw = true) : ms.marks e = true := by
  unfold Expr.isDraw at h
  split at h
  · rename_i m t
    have hm : m ∈ standard := by
      simpa [Method.isVolatile, standard, or_assoc] using h
    simpa [marks] using hms m hm
  · cases h

/-- Tagging puts each drawing call into a tag. -/
theorem sealed_tag {ms : VolatileMethods} (hms : ∀ m ∈ standard, m ∈ ms) (e : Expr)
    (tagged : Bool) : (tag ms e).Sealed tagged := by
  have hchildren : ∀ {e s : Expr}, e.NodeRel (fun _ s => ∀ tagged, s.Sealed tagged) s →
      ∀ c ∈ s.children, c.Sealed s.isTag := by
    intro e s h c hc
    obtain ⟨_, -, hsealed⟩ := h.exists_child hc
    exact hsealed s.isTag
  refine rel_tag (R := fun _ s => ∀ tagged, s.Sealed tagged) (fun e s hmarks h tagged => ?_)
    (fun e s _ h tagged => ?_) e tagged
  · have hdraw : s.isDraw = false :=
      Bool.eq_false_iff.mpr fun hdraw => nomatch hmarks.symm.trans (marks_of_isDraw hms hdraw)
    exact .of_children hdraw (hchildren h)
  · refine .of_children rfl fun c hc => ?_
    obtain rfl := List.mem_singleton.mp hc
    exact .intro (fun _ => rfl) (hchildren h)

end VolatileMethods

/-! ## Computations without an oracle -/

namespace Extract

theorem settled_compute {e : Expr} (h : e.DrawFree) : Settled fun oracle => compute oracle e := by
  have hsettles : Eval.Settles none none e := Eval.settles_of_drawFree h
  obtain ⟨x, hx⟩ := hsettles.value []
  refine ⟨x.mapError (⟨e, ·⟩), fun oracle => ?_⟩
  funext n
  have hvalue : Eval.evaluate (.closed oracle) e n = (liftM x : Eval.EvalM Value) n :=
    congrFun (hx oracle) n
  simp only [compute, hvalue]
  cases x <;> rfl

/-- Without draws a value and its name are settled. -/
theorem settled_valueOf {e : Expr} (h : e.DrawFree) : Settled fun oracle => valueOf oracle e := by
  induction e with
  | constant v t => exact .pure _
  | member target name t ih =>
      refine (ih (h.child (by simp [Expr.children]))).bind fun (v, path) => ?_
      dsimp only
      cases v.storedMember name with
      | ok w => exact .pure _
      | error _ => exact (settled_compute h).bind fun _ => .pure _
  | convert operand t ih =>
      simp only [valueOf]
      split
      · exact ih (h.child (by simp [Expr.children]))
      · exact (settled_compute h).bind fun _ => .pure _
  | _ => exact (settled_compute h).bind fun _ => .pure _

/-- What the computation returns and what it binds are the same for all oracles, and it draws
nothing from them. -/
def Fixed {α : Type} (m : Oracle → ExtractM α) : Prop :=
  ∀ bound, ∃ r bound', ∀ oracle n, (m oracle).run ⟨bound, n⟩ = (r, ⟨bound', n⟩)

section Fixed

variable {α β : Type} {m : Oracle → ExtractM α} {f : Oracle → α → ExtractM β}

theorem Fixed.pure (a : α) : Fixed fun _ => (Pure.pure a : ExtractM α) :=
  fun bound => ⟨.ok a, bound, fun _ _ => rfl⟩

theorem Fixed.bind (hm : Fixed m) (hf : ∀ a, Fixed fun oracle => f oracle a) :
    Fixed fun oracle => m oracle >>= f oracle := by
  intro bound
  obtain ⟨r, bound', hr⟩ := hm bound
  cases r with
  | error e => exact ⟨.error e, bound', fun oracle n => by rw [run_bind, hr]⟩
  | ok a =>
      obtain ⟨r', bound'', hr'⟩ := hf a bound'
      exact ⟨r', bound'', fun oracle n => by rw [run_bind, hr]; exact hr' oracle n⟩

end Fixed

/-- What is bound for a part without draws is the same for all oracles. -/
theorem fixed_bind {e : Expr} (h : e.DrawFree) : Fixed fun oracle => bind oracle e := by
  intro bound
  obtain ⟨x, hx⟩ := settled_valueOf h
  cases x with
  | error err =>
      refine ⟨.error err, bound, fun oracle n => ?_⟩
      simp only [bind, ExceptT.run_mk, hx oracle]
      rfl
  | ok r =>
      refine ⟨.ok (placeholderNode (placeholder r.2 bound.length) r.1 e.ty),
        bound.add (placeholder r.2 bound.length) r.1, fun oracle n => ?_⟩
      simp only [bind, ExceptT.run_mk, hx oracle]
      rfl

/-- No closed part draws, where draws stand in tags. -/
theorem drawFree_of_closed {e : Expr} (h : e.Sealed false)
    (hclosed : (Closedness.analyze e).closed = true) : e.DrawFree := by
  induction e using Expr.induction_on_children with
  | step e ih =>
      obtain ⟨htag, hchildren⟩ := closed_children hclosed
      exact .intro h.isDraw_eq_false fun c hc => ih c hc (htag ▸ h.child hc) (hchildren c hc)

/-- A part that is replaced draws nothing. -/
theorem drawFree_of_replaced {e r : Expr} {tagged : Bool} (h : e.Sealed tagged)
    (hr : .replaced r ∈ parts tagged e) : r.DrawFree := by
  induction e using Expr.induction_on_children generalizing tagged with
  | step e ih =>
      cases hpart : (!tagged && eligible e (.analyze e)) with
      | true =>
          obtain rfl : r = e := by simpa [parts_of_replaced hpart] using hr
          obtain ⟨htagged, heligible⟩ := (Bool.and_eq_true _ _).mp hpart
          obtain rfl : tagged = false := by simpa using htagged
          exact drawFree_of_closed h (closed_of_eligible heligible)
      | false =>
          obtain hself | ⟨c, hc, hr⟩ := (mem_parts_of_kept hpart).mp hr
          · cases hself
          · exact ih c hc (h.child hc) hr

theorem fixed_visit {e : Expr} {tagged : Bool} (h : e.Sealed tagged) :
    Fixed fun oracle => visit oracle (closedness tagged e) e :=
  visit_of_parts .pure .bind fun _ hr => fixed_bind (drawFree_of_replaced h hr)

/-- Extraction from a tagged query draws nothing: its outcome and the values that it binds are the
same for all oracles, wherever they stand. -/
theorem extract_tag_eq {ms : VolatileMethods} (hms : ∀ m ∈ VolatileMethods.standard, m ∈ ms)
    (e : Expr) (bound : Bindings) :
    ∃ outcome bound', ∀ oracle n,
      (extract oracle (ms.tag e)).run ⟨bound, n⟩ = (outcome, ⟨bound', n⟩) :=
  fixed_visit (VolatileMethods.sealed_tag hms e false) bound

/-- People above a captured age whose identifier is not a new one. The new identifier stays in the
shape. -/
theorem extract_tag_of_newcomers :
    let people : Expr := .constant (.query ⟨"Person", "people"⟩) (.queryable (.entity "Person"))
    let p : Expr := .parameter "p" (.entity "Person")
    let captured : Expr :=
      .member (.constant (.closure "Scope" [⟨"min", .int, .int 30⟩]) (.closure "Scope")) "min" .int
    let fresh : Expr := .call .newGuid none [] .uuid
    let where_ (least new : Expr) : Expr := .call (.operator "Where") none
      [people, .lambda [⟨"p", .entity "Person"⟩] (.binary .and
        (.binary .gt (.member p "Age" .int) least) (.binary .ne (.member p "Id" .uuid) new))]
      (.queryable (.entity "Person"))
    ∀ oracle n,
      (extract oracle (VolatileMethods.standard.tag (where_ captured fresh))).run ⟨[], n⟩ =
        (.ok (where_ (.parameter "__min_0" .int) (.volatile fresh)),
          ⟨[⟨"__min_0", .int 30⟩], n⟩) := by
  intro people p captured fresh where_
  have htag : VolatileMethods.standard.tag (where_ captured fresh) =
      where_ captured (.volatile fresh) := by
    simp [where_, people, p, captured, fresh, VolatileMethods.tag, VolatileMethods.tagList,
      VolatileMethods.mark, VolatileMethods.marks, VolatileMethods.standard, Method.operator,
      Method.queryable, Method.newGuid, Method.now, Method.utcNow]
  obtain ⟨outcome, bound, h⟩ := extract_tag_eq (fun _ hm => hm) (where_ captured fresh) []
  have hzero := h ⟨fun _ => ⟨0⟩, fun _ => ⟨0, 0⟩⟩ 0
  rw [htag] at hzero
  obtain ⟨rfl, hstate⟩ := Prod.mk.inj hzero
  obtain ⟨rfl, -⟩ := State.mk.inj hstate
  exact h

end Extract

end DeferredQuery
