import DeferredQuery.Proofs.Eval.Outcomes
import DeferredQuery.Proofs.Shape.Deferred
import DeferredQuery.Proofs.Shape.Replacement

/-!
# Sorts in shapes

A secondary sort key refines the sort that it stands on. Where extraction takes that sort out of the
query, because its value is known already, and leaves the secondary key there, the shape has a key
without a sort.
-/

namespace DeferredQuery

/-! ## Untagged sorts -/

namespace Expr

theorem sorts_withChildren {e : Expr} {ss : List Expr} (h : e.children.length = ss.length) :
    (e.withChildren ss).sorts = e.sorts := by
  cases e with
  | call m receiver args t =>
      obtain ⟨receiver', args', rfl, heq, -⟩ := length_children_call h
      rw [heq]
      rfl
  | _ => unfold withChildren; split <;> simp_all [sorts]

theorem sorts_untag {e : Expr} (h : e.sorts = true) : e.untag.sorts = true := by
  cases e with
  | call => rwa [untag_of_kept rfl, sorts_withChildren (by simp)]
  | _ => cases h

theorem refines_untag {e : Expr} (htag : e.isTag = false) (h : e.Refines) : e.untag.Refines := by
  cases e with
  | call m receiver args t =>
      cases args with
      | nil => cases receiver <;> trivial
      | cons source rest =>
          have hsource : Eval.extendsOrder m = true → source.untag.sorts = true :=
            fun hextends => sorts_untag (h hextends)
          cases receiver <;> exact hsource
  | volatile inner => cases htag
  | _ => trivial

theorem WellOrdered.untag {e : Expr} (h : e.WellOrdered) : e.untag.WellOrdered := by
  intro n hn
  obtain ⟨n', hn', htag, rfl⟩ := mem_nodes_untag.mp hn
  exact refines_untag htag (h n' hn')

end Expr

/-! ## Shapes -/

namespace Extract

open Eval (Oracle)

theorem wellOrdered_placeholderNode (name : String) (v : Value) (t : Ty) :
    (placeholderNode name v t).untag.WellOrdered ∧
      (placeholderNode name v t).untag.sorts = false := by
  unfold placeholderNode
  split <;> simp [Expr.untag, Expr.WellOrdered, Expr.nodes, Expr.Refines, Expr.sorts]

/-- A part that is replaced by a placeholder sorts no more. -/
theorem sorts_shape {bound : List String} {tagged : Bool} {e s : Expr}
    (h : ShapedBy Replaced bound tagged e s) :
    s.untag.sorts = true ↔
      (!tagged && eligible e (.analyze e)) = false ∧ e.untag.sorts = true := by
  induction h with
  | replaced hpart hq =>
      obtain ⟨name, v, rfl⟩ := hq
      simp [hpart, (wellOrdered_placeholderNode name v _).2]
  | @kept bound tagged e ss hkept hlength hchildren ih =>
      cases htag : e.isTag with
      | false =>
          rw [Expr.untag_withChildren htag hlength, Expr.untag_of_kept htag,
            Expr.sorts_withChildren (by simpa using hlength), Expr.sorts_withChildren (by simp)]
          simp [hkept]
      | true =>
          cases e with
          | volatile inner =>
              obtain ⟨s, rfl⟩ := List.length_eq_one_iff.mp hlength.symm
              have hinner := ih inner s (by simp [Expr.children])
              rw [Expr.withChildren, Expr.untag, hinner]
              simp [hkept, Expr.isTag, Expr.untag]
          | _ => cases htag

/-- The secondary sort keys that are kept on a source which is kept too, and sorts. -/
def KeepsSorts (tagged : Bool) (e : Expr) : Prop :=
  ∀ m receiver source rest t, .kept (.call m receiver (source :: rest) t) ∈ parts tagged e →
    Eval.extendsOrder m = true → eligible source (.analyze source) = false ∧
      source.untag.sorts = true

def KeepsSort : Expr → Prop
  | .call m _ (source :: _) _ => Eval.extendsOrder m = true →
    eligible source (.analyze source) = false ∧ source.untag.sorts = true
  | _ => True

/-- A kept node keeps its sorts if it does so itself and its children do. -/
theorem keepsSorts_of_kept {tagged : Bool} {e : Expr}
    (h : (!tagged && eligible e (.analyze e)) = false) :
    KeepsSorts tagged e ↔ KeepsSort e ∧ ∀ c ∈ e.children, KeepsSorts e.isTag c := by
  constructor
  · intro hall
    refine ⟨?_, fun c hc m receiver source rest t hpart => hall m receiver source rest t
      ((mem_parts_of_kept h).mpr (.inr ⟨c, hc, hpart⟩))⟩
    cases e with
    | call m receiver args t =>
        cases args with
        | nil => trivial
        | cons source rest =>
            exact hall m receiver source rest t ((mem_parts_of_kept h).mpr (.inl rfl))
    | _ => trivial
  · rintro ⟨hself, hchildren⟩ m receiver source rest t hpart
    rcases (mem_parts_of_kept h).mp hpart with heq | ⟨c, hc, hpart⟩
    · cases heq
      exact hself
    · exact hchildren c hc m receiver source rest t hpart

theorem forall_mem_iff_of_forall₂ {α β : Type} {P : α → Prop} {Q : β → Prop} {xs : List α}
    {ys : List β} (h : List.Forall₂ (fun x y => P x ↔ Q y) xs ys) :
    (∀ x ∈ xs, P x) ↔ ∀ y ∈ ys, Q y := by
  induction h with
  | nil => simp
  | cons hxy _ ih => simp only [List.forall_mem_cons, hxy, ih]

/-- The node of a kept call refines a sort if and only if the call's source is kept and sorts. -/
theorem refines_shape_iff {bound : List String} {e : Expr} {ss : List Expr}
    (htag : e.isTag = false) (hlength : e.children.length = ss.length)
    (hchildren : ∀ c s, (c, s) ∈ e.children.zip ss → ShapedBy Replaced bound false c s) :
    (e.withChildren (ss.map Expr.untag)).Refines ↔ KeepsSort e := by
  have hsource : ∀ c s, (c, s) ∈ e.children.zip ss → (s.untag.sorts = true ↔
      eligible c (.analyze c) = false ∧ c.untag.sorts = true) :=
    fun c s hcs => sorts_shape (hchildren c s hcs)
  cases e with
  | call m receiver args t =>
      obtain ⟨receiver', args', rfl, -, hargs⟩ := Expr.length_children_call hlength
      have hreceiver : receiver.toList.length = receiver'.toList.length := by
        simp [Expr.children] at hlength
        omega
      rw [Expr.children, List.zip_append hreceiver] at hsource
      have hnode : (Expr.call m receiver args t).withChildren
          ((receiver'.toList ++ args').map Expr.untag) =
            .call m (receiver'.map Expr.untag) (args'.map Expr.untag) t := by
        cases receiver <;> cases receiver' <;> simp_all [Expr.withChildren]
      rw [hnode]
      cases args with
      | nil =>
          obtain rfl := List.length_eq_zero_iff.mp hargs.symm
          exact Iff.rfl
      | cons source rest =>
          cases args' with
          | nil => cases hargs
          | cons s ss =>
              exact imp_congr_right fun _ => hsource source s (by simp)
  | volatile inner => cases htag
  | _ =>
      unfold Expr.withChildren
      split <;> first | exact Iff.rfl | simp_all

/-- By induction on what becomes of the expression. -/
theorem wellOrdered_shape {bound : List String} {tagged : Bool} {e s : Expr}
    (h : ShapedBy Replaced bound tagged e s) : s.untag.WellOrdered ↔ KeepsSorts tagged e := by
  induction h with
  | replaced hpart hq =>
      obtain ⟨name, v, rfl⟩ := hq
      have hparts : KeepsSorts _ _ := fun m receiver source rest t hkept => by
        rw [parts_of_replaced hpart] at hkept
        cases List.mem_singleton.mp hkept
      exact iff_of_true (wellOrdered_placeholderNode name v _).1 hparts
  | @kept bound tagged e ss hkept hlength hchildren ih =>
      rw [keepsSorts_of_kept hkept]
      cases htag : e.isTag with
      | false =>
          rw [htag] at hchildren ih
          rw [Expr.untag_withChildren htag hlength, Expr.wellOrdered_iff,
            refines_shape_iff htag hlength hchildren,
            Expr.children_withChildren (by simpa using hlength)]
          have hnodes : List.Forall₂ (fun s c => s.untag.WellOrdered ↔ KeepsSorts false c) ss
              e.children :=
            (List.forall₂_iff_zip.mpr ⟨hlength, fun hcs => ih _ _ hcs⟩).flip
          exact and_congr_right fun _ =>
            List.forall_mem_map.trans (forall_mem_iff_of_forall₂ hnodes)
      | true =>
          cases e with
          | volatile inner =>
              obtain ⟨s, rfl⟩ := List.length_eq_one_iff.mp hlength.symm
              rw [Expr.withChildren, Expr.untag, ih inner s (by simp [Expr.children])]
              simp [KeepsSort, Expr.children, Expr.isTag]
          | _ => cases htag

/-! ## Queries -/

/-- A sort is replaced if its value is known and it is no query. -/
theorem eligible_of_sorts {source : Expr} (h : source.untag.sorts = true) :
    eligible source (.analyze source) = false ↔
      ((Closedness.analyze source).closed = true → source.ty.isQueryable = true) := by
  cases source with
  | call m receiver args t => simp [eligible, Expr.isLambda, stripLift, isConstant]
  | volatile inner => simp [eligible, Closedness.analyze, Closedness.closed]
  | _ => simp [Expr.untag, Expr.sorts] at h

theorem sorts_of_tagged {ms : VolatileMethods} {e : Expr} (he : e.WellOrdered) {m : Method}
    {receiver : Option Expr} {source : Expr} {rest : List Expr} {t : Ty}
    (h : .call m receiver (source :: rest) t ∈ (ms.tag e).nodes)
    (hextends : Eval.extendsOrder m = true) : source.untag.sorts = true := by
  have hnode : (Expr.call m receiver (source :: rest) t).untag ∈ e.untag.nodes := by
    rw [← ms.untag_tag e]
    exact Expr.mem_nodes_untag.mpr ⟨_, h, rfl, rfl⟩
  have hrefines := he.untag _ hnode
  cases receiver <;> exact hrefines hextends

/-- In the shape of a query whose secondary sort keys stand on sorts, all of them still do if and
only if no key is kept whose sort is of known values in memory. Then the evaluator never misses a
sort, over any rows and values, if the source of rows does not. -/
theorem wellOrdered_shape_iff {ms : VolatileMethods} {oracle : Oracle} {e shape : Expr}
    {s s' : State} (hordered : e.WellOrdered)
    (h : (extract oracle (ms.tag e)).run s = (.ok shape, s')) :
    (shape.untag.WellOrdered ↔
      ∀ m receiver source rest t, .kept (.call m receiver (source :: rest) t) ∈
        parts false (ms.tag e) → Eval.extendsOrder m = true →
          (Closedness.analyze source).closed = true → source.ty.isQueryable = true) ∧
      (shape.untag.WellOrdered → ∀ env : Eval.Env,
        (∀ rows, env.rows = some rows → ∀ root, rows root ≠ .error (.typeMismatch .notOrdered)) →
          ∀ n, Eval.evaluate env shape.untag n ≠ .error (.typeMismatch .notOrdered)) := by
  refine ⟨?_, fun hshape env hrows n => Eval.evaluate_ne_notOrdered hrows hshape n⟩
  rw [wellOrdered_shape (shapedBy_replaced h)]
  constructor
  · intro hkeeps m receiver source rest t hkept hextends
    obtain ⟨heligible, hsorts⟩ := hkeeps m receiver source rest t hkept hextends
    exact (eligible_of_sorts hsorts).mp heligible
  · intro hkeeps m receiver source rest t hkept hextends
    have hsorts := sorts_of_tagged hordered (mem_nodes_of_kept hkept) hextends
    exact ⟨(eligible_of_sorts hsorts).mpr (hkeeps m receiver source rest t hkept hextends), hsorts⟩

/-- People are sorted by a second key with a captured value in it, on a sort that a store makes. -/
theorem wellOrdered_shape_of_people :
    let x : Expr := .member (.const (.closure "Scope" [⟨"x", .int, .int 40⟩])) "x" .int
    let age : Expr := .member (.parameter "p" (.entity "Person")) "Age" .int
    let people : Expr := .constant (.query ⟨"Person", "people"⟩) (.queryable (.entity "Person"))
    let sorted : Expr := .call (.operator "OrderBy") none
      [people, .lambda [⟨"p", .entity "Person"⟩] age] (.queryable (.entity "Person"))
    let query (least : Expr) : Expr := .call (.operator "ThenBy") none
      [sorted, .lambda [⟨"p", .entity "Person"⟩] (.binary .gt age least)]
      (.queryable (.entity "Person"))
    let shape : Expr := query (.parameter "__x_0" .int)
    let oracle : Oracle := ⟨fun _ => ⟨0⟩, fun _ => ⟨0, 0⟩⟩
    (query x).WellOrdered ∧
      (extract oracle (VolatileMethods.standard.tag (query x))).run ⟨[], 0⟩ =
        (.ok shape, ⟨[⟨"__x_0", .int 40⟩], 0⟩) ∧
      shape.untag.WellOrdered ∧
      ∀ env : Eval.Env,
        (∀ rows, env.rows = some rows → ∀ root, rows root ≠ .error (.typeMismatch .notOrdered)) →
          ∀ n, Eval.evaluate env shape.untag n ≠ .error (.typeMismatch .notOrdered) := by
  intro x age people sorted query shape oracle
  have hordered : (query x).WellOrdered := by
    simp [query, sorted, age, people, x, Expr.const, Expr.WellOrdered, Expr.nodes,
      Expr.nodesOfList, Expr.Refines, Expr.sorts, Method.operator, Eval.startsOrder,
      Eval.extendsOrder]
  have htag : VolatileMethods.standard.tag (query x) = query x := VolatileMethods.tag_eq_self rfl
  have hrun : (extract oracle (VolatileMethods.standard.tag (query x))).run ⟨[], 0⟩ =
      (.ok shape, ⟨[⟨"__x_0", .int 40⟩], 0⟩) := by
    rw [htag]
    rfl
  obtain ⟨hiff, havoids⟩ := wellOrdered_shape_iff hordered hrun
  have hshape : shape.untag.WellOrdered := by
    refine hiff.mpr fun m receiver source rest t hkept hextends hclosed => ?_
    rw [htag] at hkept
    have hparts : parts false (query x) = [.kept (query x), .kept sorted, .kept people,
      .kept (.lambda [⟨"p", .entity "Person"⟩] age), .kept age,
      .kept (.parameter "p" (.entity "Person")),
      .kept (.lambda [⟨"p", .entity "Person"⟩] (.binary .gt age x)), .kept (.binary .gt age x),
      .kept age, .kept (.parameter "p" (.entity "Person")), .replaced x] := rfl
    rw [hparts] at hkept
    have hsource : source = sorted ∨ source = people := by
      simp [query, sorted, age, people] at hkept
      tauto
    rcases hsource with rfl | rfl <;> rfl
  exact ⟨hordered, hrun, hshape, havoids hshape⟩

/-- Ages that were captured are sorted before the query runs, by a key that depends on nothing; the
second key stays in the query, where it has no sort to refine. -/
theorem unordered_shape_of_ages :
    let scope : Closure := ⟨"Scope", [⟨"xs", .sequence .int, .list [.int 41]⟩]⟩
    let xs : Expr :=
      .member (.const (.closure scope.className scope.captures)) "xs" (.sequence .int)
    let sorted : Expr := .call (.operator "OrderBy") none [xs, .lambda [⟨"v", .int⟩]
      (.const (.int 1))] (.sequence .int)
    let first (source : Expr) : Expr := .call (.operator "First") none
      [.call (.operator "ThenBy") none [source, .lambda [⟨"v", .int⟩] (.parameter "v" .int)]
        (.sequence .int)] .int
    let query (source : Expr) : Expr := .call (.operator "Where") none
      [.constant (.query ⟨"Person", "people"⟩) (.queryable (.entity "Person")),
        .lambda [⟨"p", .entity "Person"⟩] (.binary .eq (first source)
          (.member (.parameter "p" (.entity "Person")) "Age" .int))]
      (.queryable (.entity "Person"))
    let shape : Expr := query (.parameter "__OrderBy_0" (.sequence .int))
    let rows : Eval.RowSource := fun _ => .ok [.record [⟨"Age", .int 41⟩]]
    QueryText.parse ⟨township.names, some scope⟩
        "people.Where(p => xs.OrderBy(v => 1).ThenBy(v => v).First() == p.Age)" =
          .ok (query sorted) ∧
      (query sorted).WellOrdered ∧
      (∀ oracle n, (extract oracle (VolatileMethods.standard.tag (query sorted))).run ⟨[], n⟩ =
        (.ok shape, ⟨[⟨"__OrderBy_0", .list [.int 41]⟩], n⟩)) ∧
      ¬ shape.untag.WellOrdered ∧
      (∀ oracle n, Eval.evaluate ⟨none, some rows, oracle⟩ (query sorted) n =
        .ok (.list [.record [⟨"Age", .int 41⟩]], n)) ∧
      ∀ oracle n, Eval.evaluate ⟨some [⟨"__OrderBy_0", .list [.int 41]⟩], some rows, oracle⟩
        shape.untag n = .error (.typeMismatch .notOrdered) := by
  intro scope xs sorted first query shape rows
  have htag : VolatileMethods.standard.tag (query sorted) = query sorted :=
    VolatileMethods.tag_eq_self rfl
  rw [htag]
  refine ⟨rfl, ?_, fun oracle n => ?_, ?_, fun oracle n => ?_, fun oracle n => ?_⟩
  · simp [query, first, sorted, xs, Expr.const, Expr.WellOrdered, Expr.nodes, Expr.nodesOfList,
      Expr.Refines, Expr.sorts, Method.operator, Eval.startsOrder, Eval.extendsOrder]
  · with_unfolding_all rfl
  · simp [shape, query, first, Expr.untag, Expr.untagList, Expr.WellOrdered, Expr.nodes,
      Expr.nodesOfList, Expr.Refines, Expr.sorts, Method.operator, Eval.startsOrder,
      Eval.extendsOrder]
  · with_unfolding_all rfl
  · rfl

end Extract

end DeferredQuery
