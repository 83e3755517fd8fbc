import DeferredQuery.Proofs.Shape.Replacement

/-!
# Shapes of shapes

Extraction leaves nothing behind that it would replace. A closed expression of a shape has no
placeholder in it, so it stands there as it stood in the query, where it was not replaced either.
So the shape of a shape is the shape itself, and it binds nothing.
-/

namespace DeferredQuery

namespace Extract

open Eval (Oracle)

variable {bound : List String} {tagged : Bool} {e s : Expr}

theorem not_closed_placeholderNode (name : String) (v : Value) (t : Ty) :
    ∀ n ∈ (placeholderNode name v t).nodes, (Closedness.analyze n).closed = false := by
  unfold placeholderNode
  split
  · simp [Expr.nodes, Closedness.analyze, Closedness.closed]
  · simp [Expr.nodes, Closedness.analyze, Closedness.closed, Closedness.ofChildren]

/-- What is closed in a shape stands there as in the query. -/
theorem eq_of_closed (h : ShapedBy Replaced bound tagged e s)
    (hclosed : (Closedness.analyze s).closed = true) : s = e := by
  induction h with
  | @replaced bound tagged e s _ hq =>
      obtain ⟨name, v, rfl⟩ := hq
      have hopen := not_closed_placeholderNode name v e.ty _ (Expr.self_mem_nodes _)
      rw [hopen] at hclosed
      cases hclosed
  | @kept bound tagged e ss _ hlength _ ih =>
      have hchildren := (closed_children hclosed).2
      rw [Expr.children_withChildren hlength] at hchildren
      have hsame : List.Forall₂ Eq e.children ss := List.forall₂_iff_zip.mpr
        ⟨hlength, fun {c s} hcs => (ih c s hcs (hchildren s (List.of_mem_zip hcs).2)).symm⟩
      rw [← List.forall₂_eq_eq_eq.subst (motive := fun R => R e.children ss) hsame]
      exact e.withChildren_children

/-- No part of a shape is replaced. -/
theorem replaced_not_mem_parts_shape (h : ShapedBy Replaced bound tagged e s) (r : Expr) :
    .replaced r ∉ parts tagged s := by
  intro hr
  induction h with
  | replaced _ hq =>
      obtain ⟨name, v, rfl⟩ := hq
      obtain ⟨hnode, heligible⟩ := mem_nodes_of_replaced hr
      have hopen := not_closed_placeholderNode name v _ r hnode
      rw [closed_of_eligible heligible] at hopen
      cases hopen
  | @kept bound tagged e ss hkept hlength hchildren ih =>
      have hkept' : (!tagged && eligible (e.withChildren ss) (.analyze (e.withChildren ss))) =
          false := by
        by_contra hnot
        have heligible := (Bool.and_eq_true _ _).mp ((Bool.not_eq_false _).mp hnot)
        have hsame := eq_of_closed (.kept hkept hlength hchildren)
          (closed_of_eligible heligible.2)
        rw [hsame] at hnot
        exact hnot hkept
      rcases (mem_parts_of_kept hkept').mp hr with hself | ⟨s, hs, hr⟩
      · cases hself
      · rw [Expr.children_withChildren hlength] at hs
        rw [Expr.isTag_withChildren hlength] at hr
        rw [← List.map_snd_zip (Nat.le_of_eq hlength.symm)] at hs
        obtain ⟨⟨c, s⟩, hcs, rfl⟩ := List.mem_map.mp hs
        exact ih c s hcs hr

theorem mapM_eq_pure {f : Expr → ExtractM Expr} {es : List Expr} (h : ∀ e ∈ es, f e = pure e) :
    es.mapM f = pure es := by
  induction es with
  | nil => rfl
  | cons e es ih =>
      rw [List.mapM_cons, h e List.mem_cons_self, pure_bind,
        ih fun e he => h e (List.mem_cons_of_mem _ he), pure_bind]

/-- Without a part to replace, a visit changes nothing. -/
theorem visit_of_not_replaced (oracle : Oracle) (h : ∀ r, .replaced r ∉ parts tagged e) :
    visit oracle (closedness tagged e) e = pure e := by
  induction e using Expr.induction_on_children generalizing tagged with
  | step e ih =>
      have hkept : (!tagged && eligible e (.analyze e)) = false := by
        by_contra hnot
        exact h e (by simp [parts_of_replaced ((Bool.not_eq_false _).mp hnot)])
      have hchildren : ∀ c ∈ e.children, visit oracle (closedness e.isTag c) c = pure c :=
        fun c hc => ih c hc fun r hr => h r ((mem_parts_of_kept hkept).mpr (.inr ⟨c, hc, hr⟩))
      rw [visit_of_kept oracle hkept, mapM_eq_pure hchildren, pure_bind,
        Expr.withChildren_children]

/-- A shape has the static type of its query. No part of it is replaced, so extracting it again,
behind any values that are bound already, gives the shape itself and binds nothing. -/
theorem extract_shape_eq_self {oracle : Oracle} {e shape : Expr} {s s' : State}
    (h : (extract oracle e).run s = (.ok shape, s')) :
    shape.ty = e.ty ∧ (∀ r, .replaced r ∉ parts false shape) ∧
      ∀ oracle' t, (extract oracle' shape).run t = (.ok shape, t) := by
  have hnone := replaced_not_mem_parts_shape (shapedBy_replaced h)
  refine ⟨(ty_shape (shapedBy_replaced h)).symm, hnone, fun oracle' t => ?_⟩
  have hvisit := visit_of_not_replaced oracle' hnone
  change (visit oracle' (closedness false shape) shape).run t = _
  rw [hvisit]
  rfl

/-- The placeholder of a captured number is made optional again, and a tag stays as it is. -/
theorem extract_shape_of_scores :
    let oracle : Oracle := ⟨fun _ => ⟨0⟩, fun _ => ⟨0, 0⟩⟩
    let p : Expr := .parameter "p" (.entity "Person")
    let scope : Expr := .constant (.closure "Scope" [⟨"least", .int, .int 60⟩]) (.closure "Scope")
    let query (least : Expr) : Expr := .lambda [⟨"p", .entity "Person"⟩]
      (.binary .and (.binary .ge (.member p "Score" (.nullable .int)) least)
        (.binary .ne (.member p "Id" .uuid) (.volatile (.call .newGuid none [] .uuid))))
    let captured : Expr := .convert (.member scope "least" .int) (.nullable .int)
    let shape : Expr := query (.convert (.parameter "__least_0" .int) (.nullable .int))
    (extract oracle (query captured)).run ⟨[], 0⟩ =
        (.ok shape, ⟨[⟨"__least_0", .int 60⟩], 0⟩) ∧
      shape.ty = (query captured).ty ∧ (∀ r, .replaced r ∉ parts false shape) ∧
      ∀ oracle' t, (extract oracle' shape).run t = (.ok shape, t) := by
  intro oracle p scope query captured shape
  have hshape : (extract oracle (query captured)).run ⟨[], 0⟩ =
      (.ok shape, ⟨[⟨"__least_0", .int 60⟩], 0⟩) := rfl
  exact ⟨hshape, extract_shape_eq_self hshape⟩

end Extract

end DeferredQuery
