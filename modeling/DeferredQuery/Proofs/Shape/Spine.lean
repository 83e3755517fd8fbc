import DeferredQuery.Proofs.Pipeline.Spine
import DeferredQuery.Proofs.Shape.Replacement

/-!
# The spine of a shape

Tagging, extraction and untagging keep static types, and they keep the calls on the spine of a
query: these depend on rows of a store, so they are neither tagged nor computed. So a shape is
classified to the operations of its query, on other arguments.
-/

namespace DeferredQuery

open Pipeline (Chain SameSpine Step)

/-! ## Tags -/

namespace Expr

theorem stays_tag (ms : VolatileMethods) (e : Expr) : e.Stays (ms.tag e) where
  ty := VolatileMethods.ty_tag ms e
  set root t he := by rw [he, VolatileMethods.tag]

theorem stays_untag (e : Expr) : e.Stays e.untag where
  ty := ty_untag e
  set root t he := by rw [he, untag]

end Expr

theorem forall₂_map_right {α β : Type} {R : α → β → Prop} {f : α → β} (h : ∀ a, R a (f a))
    (as : List α) : List.Forall₂ R as (as.map f) :=
  List.forall₂_map_right_iff.mpr (List.forall₂_same.mpr fun a _ => h a)

namespace Pipeline

/-- A call on the spine is never tagged, as its first argument is queryable. -/
theorem sameSpine_tag (ms : VolatileMethods) (e : Expr) : SameSpine e (ms.tag e) where
  ty := VolatileMethods.ty_tag ms e
  chain hc := by
    induction hc with
    | source root t => exact ⟨[], .source root t, .nil⟩
    | @step receiver root steps m args t hr _ ih =>
        obtain ⟨steps', hchain, hsteps⟩ := ih
        have hr' : (ms.tag receiver).ty.isQueryable = true := by rwa [VolatileMethods.ty_tag]
        have htag : ms.tag (.call m none (receiver :: args) t) =
            .call m none (ms.tag receiver :: args.map ms.tag) t := by
          simp [VolatileMethods.tag, VolatileMethods.tagList_eq_map, VolatileMethods.mark,
            VolatileMethods.marks, hr']
        rw [htag]
        refine ⟨_, .step m _ t hr' hchain, List.rel_append hsteps (.cons ⟨rfl, ?_⟩ .nil)⟩
        exact forall₂_map_right (Expr.stays_tag ms) args

theorem sameSpine_untag (e : Expr) : SameSpine e e.untag where
  ty := Expr.ty_untag e
  chain hc := by
    induction hc with
    | source root t => exact ⟨[], .source root t, .nil⟩
    | @step receiver root steps m args t hr _ ih =>
        obtain ⟨steps', hchain, hsteps⟩ := ih
        have hr' : receiver.untag.ty.isQueryable = true := by rwa [Expr.ty_untag]
        rw [Expr.untag, Expr.untagList_eq_map, List.map_cons]
        refine ⟨_, .step m _ t hr' hchain, List.rel_append hsteps (.cons ⟨rfl, ?_⟩ .nil)⟩
        exact forall₂_map_right Expr.stays_untag args

end Pipeline

/-! ## Extraction -/

namespace Extract

open Eval (Oracle)

theorem isConstant_of_eligible {e : Expr} {c : Closedness} (h : eligible e c = true) :
    isConstant e = false := by
  simp only [eligible, Bool.and_eq_true] at h
  cases e with
  | constant v t => simp [stripLift, isConstant] at h
  | _ => rfl

/-- A node of a shape keeps its static type, and an entity set stays. -/
theorem stays_shape {bound : List String} {tagged : Bool} {e s : Expr}
    (h : ShapedBy Replaced bound tagged e s) : e.Stays s where
  ty := (ty_shape h).symm
  set := by
    rintro root t rfl
    cases hpart : (!tagged && eligible (.constant (.query root) t)
      (.analyze (.constant (.query root) t))) with
    | true => exact nomatch isConstant_of_eligible ((Bool.and_eq_true _ _).mp hpart).2
    | false =>
        cases h.nodeRel hpart
        rfl

/-- What depends on an entity set is not closed. -/
theorem closed_of_chain {e : Expr} {root : SetRef} {steps : List Step} (h : Chain e root steps)
    (hty : e.ty.isQueryable = true ∨ steps ≠ []) : (Closedness.analyze e).closed = false := by
  induction h with
  | source root t =>
      have ht : t.isQueryable = true := by simpa [Expr.ty] using hty
      simp [Closedness.analyze, Closedness.closed, ht]
  | step m args t hr _ ih =>
      simp [Closedness.analyze, Closedness.analyzeList, ih (.inl hr)]

theorem kept_of_chain {e : Expr} {root : SetRef} {steps : List Step} (h : Chain e root steps) :
    (!false && eligible e (.analyze e)) = false := by
  rw [Bool.not_false, Bool.true_and, Bool.eq_false_iff]
  intro heligible
  cases h with
  | source root t => exact nomatch isConstant_of_eligible heligible
  | step m args t hr hc =>
      have hopen := closed_of_chain (.step m args t hr hc) (.inr (by simp))
      exact nomatch hopen.symm.trans (closed_of_eligible heligible)

/-- The shape of a chain is a chain of the same methods on the same entity set. -/
theorem chain_shape {bound : List String} {e s : Expr} {root : SetRef} {steps : List Step}
    (hchain : Chain e root steps) (h : ShapedBy Replaced bound false e s) :
    ∃ steps', Chain s root steps' ∧ List.Forall₂ Step.Stays steps steps' := by
  induction hchain generalizing bound s with
  | source root t =>
      cases h.nodeRel (kept_of_chain (.source root t))
      exact ⟨[], .source root t, .nil⟩
  | @step receiver root steps m args t hr hc ih =>
      cases h.nodeRel (kept_of_chain (.step m args t hr hc)) with
      | call _ _ hreceiver hargs =>
          cases hreceiver
          cases hargs with
          | @cons _ s _ ss hs hss =>
              obtain ⟨steps', hchain, hsteps⟩ := ih hs
              have hr' : s.ty.isQueryable = true := by rwa [← ty_shape hs]
              have hstays : List.Forall₂ Expr.Stays args ss := hss.imp fun _ _ h => stays_shape h
              exact ⟨_, .step m ss t hr' hchain, List.rel_append hsteps (.cons ⟨rfl, hstays⟩ .nil)⟩

theorem sameSpine_extract {oracle : Oracle} {e shape : Expr} {s s' : State}
    (h : (extract oracle e).run s = (.ok shape, s')) : SameSpine e shape where
  ty := (ty_shape (shapedBy_replaced h)).symm
  chain hc := chain_shape hc (shapedBy_replaced h)

/-- Tagging and extraction leave the spine of a query intact. The shape is classified to the same
source, the same operations up to their arguments, which keep their static types, and the same
result. -/
theorem classify_shape {ms : VolatileMethods} {oracle : Oracle} {e shape : Expr} {s s' : State}
    {p : Pipeline} (hp : Pipeline.classify .standard e = .ok p)
    (hshape : (extract oracle (ms.tag e)).run s = (.ok shape, s')) :
    ∃ p', Pipeline.classify .standard shape.untag = .ok p' ∧ p'.source = p.source ∧
      List.Forall₂ Operation.Stays p.operations p'.operations ∧ p'.result = p.result :=
  ((Pipeline.sameSpine_tag ms e).trans ((sameSpine_extract hshape).trans
    (Pipeline.sameSpine_untag shape))).classify hp

/-- A join is kept on the spine, also where a later step has a captured value and a fresh key. -/
theorem classify_shape_of_orders :
    let people : Expr := .constant (.query ⟨"Person", "people"⟩) (.queryable (.entity "Person"))
    let orders : SetRef := ⟨"Order", "orders"⟩
    let o : Expr := .parameter "o" (.entity "Order")
    let key (x type : String) : Expr :=
      .lambda [⟨x, .entity type⟩] (.member (.parameter x (.entity type)) "Id" .uuid)
    let result : Expr := .lambda [⟨"p", .entity "Person"⟩, ⟨"o", .entity "Order"⟩] o
    let captured : Expr :=
      .member (.constant (.closure "Scope" [⟨"min", .int, .int 30⟩]) (.closure "Scope")) "min" .int
    let fresh : Expr := .call .newGuid none [] .uuid
    let test (least new : Expr) : Expr := .lambda [⟨"o", .entity "Order"⟩] (.binary .and
      (.binary .gt (.member o "Total" .int) least) (.binary .ne (.member o "Id" .uuid) new))
    let query (least new : Expr) : Expr := .call (.operator "Count") none
      [.call (.operator "Where") none
        [.call (.operator "Join") none
          [people, .constant (.query orders) (.queryable (.entity "Order")), key "p" "Person",
            key "o" "Order", result] (.queryable (.entity "Order")),
          test least new] (.queryable (.entity "Order"))] .int
    let oracle : Eval.Oracle := ⟨fun _ => ⟨0⟩, fun _ => ⟨0, 0⟩⟩
    let placeholder : Expr := .parameter "__min_0" .int
    let pipeline (least : Expr) : Pipeline := ⟨⟨"Person", "people"⟩,
      [.join orders (key "p" "Person") (key "o" "Order") result, .filter (test least fresh),
        .count none], .single .int⟩
    Pipeline.classify .standard (query captured fresh) = .ok (pipeline captured) ∧
      (extract oracle (VolatileMethods.standard.tag (query captured fresh))).run ⟨[], 0⟩ =
        (.ok (query placeholder (.volatile fresh)), ⟨[⟨"__min_0", .int 30⟩], 0⟩) ∧
      ∃ p', Pipeline.classify .standard (query placeholder (.volatile fresh)).untag = .ok p' ∧
        p'.source = (pipeline captured).source ∧
        List.Forall₂ Operation.Stays (pipeline captured).operations p'.operations ∧
        p'.result = (pipeline captured).result := by
  intro people orders o key result captured fresh test query oracle placeholder pipeline
  have hp : Pipeline.classify .standard (query captured fresh) = .ok (pipeline captured) := rfl
  have htag : VolatileMethods.standard.tag (query captured fresh) =
      query captured (.volatile fresh) := by
    simp [query, test, key, result, people, o, captured, fresh, VolatileMethods.tag,
      VolatileMethods.tagList, VolatileMethods.mark, VolatileMethods.marks,
      VolatileMethods.standard, Method.operator, Method.queryable, Method.newGuid, Method.now,
      Method.utcNow]
  have hshape : (extract oracle (VolatileMethods.standard.tag (query captured fresh))).run ⟨[], 0⟩ =
      (.ok (query placeholder (.volatile fresh)), ⟨[⟨"__min_0", .int 30⟩], 0⟩) := by
    rw [htag]
    rfl
  exact ⟨hp, hshape, classify_shape hp hshape⟩

end Extract

end DeferredQuery
