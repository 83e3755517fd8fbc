import DeferredQuery.Proofs.Shape.Tags

/-!
# Tags around nodes

A tagged expression is told by its nodes without the tags, in order, and by the number of tags
around each of them. Tagging leaves the nodes and adds one tag to each call of a listed method that
no store takes part in, also where there are tags already.
-/

namespace DeferredQuery

namespace Expr

/-! ## Layers -/

/-- The nodes of an expression that are no tags, in the order of `nodes` and without the tags in
them, each with the number of tags directly around it. -/
def layers (tags : Nat) (e : Expr) : List (Expr × Nat) :=
  match e with
  | .volatile inner => layers (tags + 1) inner
  | e => (e.untag, tags) :: e.children.attach.flatMap fun c => layers 0 c.1
termination_by sizeOf e
decreasing_by
  · simp
  · exact sizeOf_lt_of_mem_children c.2

theorem layers_volatile (tags : Nat) (inner : Expr) :
    layers tags (.volatile inner) = layers (tags + 1) inner := by rw [layers]

theorem layers_of_kept {e : Expr} (h : e.isTag = false) (tags : Nat) :
    layers tags e = (e.untag, tags) :: e.children.flatMap (layers 0) := by
  rw [layers, ← List.flatMap_map, List.attach_map_subtype_val]
  rintro inner rfl
  cases h

/-- The nodes of an expression are itself and those of its children. -/
theorem nodes_eq (e : Expr) : e.nodes = e :: e.children.flatMap nodes := by
  have hlist (es : List Expr) : nodesOfList es = es.flatMap nodes := by
    induction es with
    | nil => rfl
    | cons e es ih => rw [nodesOfList, ih, List.flatMap_cons]
  have hfields (fields : List (Named Expr)) :
      nodesOfFields fields = (fields.map Named.value).flatMap nodes := by
    induction fields with
    | nil => rfl
    | cons field fields ih => rw [nodesOfFields, ih, List.map_cons, List.flatMap_cons]
  rw [nodes.eq_def]
  refine congrArg (List.cons e) ?_
  cases e with
  | call m receiver args t => cases receiver <;> simp [children, hlist]
  | record fields => exact hfields fields
  | _ => simp [children]

theorem untag_eq_self {e : Expr} (h : ∀ n ∈ e.nodes, n.isTag = false) : e.untag = e := by
  induction e using induction_on_children with
  | step e ih =>
      have hchildren : e.children.map untag = e.children := by
        refine (List.map_congr_left fun c hc => ?_).trans (List.map_id _)
        exact ih c hc fun n hn => h n (mem_nodes_of_child hc hn)
      rw [untag_of_kept (h e (self_mem_nodes e)), hchildren, withChildren_children]

/-- Without tags the layers are the nodes themselves. -/
theorem layers_eq_nodes {e : Expr} (h : ∀ n ∈ e.nodes, n.isTag = false) :
    layers 0 e = e.nodes.map fun n => (n, 0) := by
  induction e using induction_on_children with
  | step e ih =>
      rw [layers_of_kept (h e (self_mem_nodes e)), untag_eq_self h, nodes_eq, List.map_cons,
        List.map_flatMap]
      refine congrArg (List.cons _) (List.flatMap_congr fun c hc => ?_)
      exact ih c hc fun n hn => h n (mem_nodes_of_child hc hn)

theorem isTag_eq_false_of_mem_nodes_untag {n e : Expr} (h : n ∈ e.untag.nodes) :
    n.isTag = false := by
  obtain ⟨n', -, htag, rfl⟩ := mem_nodes_untag.mp h
  rw [untag_of_kept htag]
  exact (isTag_withChildren (by simp)).trans htag

end Expr

namespace VolatileMethods

/-! ## Calls to tag -/

/-- The expression calls a listed method, and no part of the call has a queryable type. -/
def Concerns (ms : VolatileMethods) (e : Expr) : Prop :=
  ∃ m receiver args t, e = .call m receiver args t ∧ m ∈ ms ∧
    ∀ part ∈ receiver.toList ++ args, part.ty.isQueryable = false

theorem marks_iff {ms : VolatileMethods} {e : Expr} : ms.marks e = true ↔ ms.Concerns e := by
  constructor
  · intro h
    cases e with
    | call m receiver args t =>
        obtain ⟨hm, hparts⟩ := (Bool.and_eq_true _ _).mp h
        refine ⟨m, receiver, args, t, rfl, List.contains_iff_mem.mp hm, fun part hpart => ?_⟩
        simpa using List.all_eq_true.mp hparts part hpart
    | _ => cases h
  · rintro ⟨m, receiver, args, t, rfl, hm, hparts⟩
    refine (Bool.and_eq_true _ _).mpr ⟨List.contains_iff_mem.mpr hm, List.all_eq_true.mpr ?_⟩
    exact fun part hpart => by simp [hparts part hpart]

/-- Whether a call is tagged does not change with parts that keep their types. -/
theorem marks_withChildren_map (ms : VolatileMethods) {f : Expr → Expr} (hf : ∀ c, (f c).ty = c.ty)
    (e : Expr) : ms.marks (e.withChildren (e.children.map f)) = ms.marks e := by
  cases e with
  | call m receiver args t =>
      cases receiver <;> simp [Expr.children, Expr.withChildren, marks, hf, Function.comp_def]
  | _ => simp [Expr.children, Expr.withChildren, marks]

/-- Tagging adds a tag to each call that it concerns, and leaves all else. -/
theorem layers_tag (ms : VolatileMethods) (tags : Nat) (e : Expr) :
    (ms.tag e).layers tags =
      (e.layers tags).map fun x => (x.1, x.2 + if ms.marks x.1 then 1 else 0) := by
  induction e using Expr.induction_on_children generalizing tags with
  | step e ih =>
      cases htag : e.isTag with
      | true =>
          cases e with
          | volatile inner =>
              rw [tag, Expr.layers_volatile, Expr.layers_volatile]
              exact ih inner (by simp [Expr.children]) (tags + 1)
          | _ => cases htag
      | false =>
          have hlength : e.children.length = (e.children.map ms.tag).length := by simp
          have hkept : (e.withChildren (e.children.map ms.tag)).isTag = false :=
            (Expr.isTag_withChildren hlength).trans htag
          have hmarks := marks_withChildren_map ms (ty_tag ms) e
          have huntag : ms.marks e.untag = ms.marks e := by
            rw [Expr.untag_of_kept htag, marks_withChildren_map ms Expr.ty_untag]
          have hself : (e.withChildren (e.children.map ms.tag)).untag = e.untag := by
            rw [← untag_mark ms, ← tag_eq_mark, untag_tag]
          have hmark : (ms.tag e).layers tags = (e.withChildren (e.children.map ms.tag)).layers
              (tags + if ms.marks e then 1 else 0) := by
            rw [tag_eq_mark, mark, hmarks]
            split
            · exact Expr.layers_volatile tags _
            · rfl
          have hchildren : (e.children.map ms.tag).flatMap (Expr.layers 0) =
              (e.children.flatMap (Expr.layers 0)).map fun x =>
                (x.1, x.2 + if ms.marks x.1 then 1 else 0) := by
            rw [List.flatMap_map, List.map_flatMap]
            exact List.flatMap_congr fun c hc => ih c hc 0
          rw [hmark, Expr.layers_of_kept hkept, Expr.layers_of_kept htag, hself,
            Expr.children_withChildren hlength, hchildren, List.map_cons, huntag]

/-! ## Tagged expressions -/

/-- Tagging keeps types, texts and what is left without tags. It adds one tag to each node that is
a call to tag and none to the other nodes, and untagging leaves no tag. -/
theorem tag_exact (ms : VolatileMethods) (e : Expr) :
    (ms.tag e).untag = e.untag ∧ (ms.tag e).ty = e.ty ∧ (ms.tag e).text = e.text ∧
      (∀ n ∈ e.untag.nodes, n.isTag = false) ∧
      List.Forall₂ (fun x y => y.1 = x.1 ∧ (ms.Concerns x.1 → y.2 = x.2 + 1) ∧
        (¬ ms.Concerns x.1 → y.2 = x.2)) (e.layers 0) ((ms.tag e).layers 0) ∧
      ((∀ n ∈ e.nodes, n.isTag = false) →
        List.Forall₂ (fun n y => y.1 = n ∧ (ms.Concerns n → y.2 = 1) ∧
          (¬ ms.Concerns n → y.2 = 0)) e.nodes ((ms.tag e).layers 0)) := by
  have hlayer : ∀ n k, (ms.Concerns n → (k + if ms.marks n then 1 else 0) = k + 1) ∧
      (¬ ms.Concerns n → (k + if ms.marks n then 1 else 0) = k) := by
    intro n k
    rw [← marks_iff]
    cases ms.marks n <;> simp
  refine ⟨untag_tag ms e, ty_tag ms e, (lookalike_tag ms e).text.symm,
    fun n hn => Expr.isTag_eq_false_of_mem_nodes_untag hn, ?_, fun h => ?_⟩
  · rw [layers_tag, List.forall₂_map_right_iff, List.forall₂_same]
    exact fun x _ => ⟨rfl, hlayer x.1 x.2⟩
  · rw [layers_tag, Expr.layers_eq_nodes h, List.map_map, List.forall₂_map_right_iff,
      List.forall₂_same]
    exact fun n _ => ⟨rfl, by simpa using hlayer n 0⟩

def next : Method := ⟨"Random", "Next"⟩

def drawn : Expr :=
  .binary .eq (.call next none [.call Method.newGuid none [] .uuid] .int)
    (.call next none [.const (.query ⟨"Person", "people"⟩)] .int)

theorem tag_exact_drawn :
    (∀ n ∈ drawn.nodes, n.isTag = false) ∧
      tag (next :: standard) drawn = .binary .eq
        (.volatile (.call next none [.volatile (.call Method.newGuid none [] .uuid)] .int))
        (.call next none [.const (.query ⟨"Person", "people"⟩)] .int) ∧
      List.Forall₂ (fun n y => y.1 = n ∧ (Concerns (next :: standard) n → y.2 = 1) ∧
        (¬ Concerns (next :: standard) n → y.2 = 0)) drawn.nodes
          ((tag (next :: standard) drawn).layers 0) := by
  have hnodes : ∀ n ∈ drawn.nodes, n.isTag = false := by decide
  obtain ⟨-, -, -, -, -, hlayers⟩ := tag_exact (next :: standard) drawn
  exact ⟨hnodes, rfl, hlayers hnodes⟩

end VolatileMethods

end DeferredQuery
