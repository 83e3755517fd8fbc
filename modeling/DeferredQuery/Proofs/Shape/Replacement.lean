import DeferredQuery.Proofs.Shape.Captured
import DeferredQuery.Proofs.Shape.Tags

/-!
# Shapes as queries with replaced parts

A shape is its query with a node in place of each part that extraction replaces; every other node
stays as it is, around the shapes of its children. What holds of each node that extraction puts in
is said once, of all places at once. What placeholders have and nodes of one kind share, such as
their static types, a shape has from its query.
-/

namespace DeferredQuery

namespace Extract

open Eval (Oracle)

/-- `s` is `e` with a node in place of each replaced part, and `Q` holds of these: of the names
that lambdas around the part bind, of the part and of the node in its place. -/
inductive ShapedBy (Q : List String → Expr → Expr → Prop) :
    (bound : List String) → (tagged : Bool) → (e s : Expr) → Prop
  | replaced {bound : List String} {tagged : Bool} {e s : Expr} :
    (!tagged && eligible e (.analyze e)) = true → Q bound e s → ShapedBy Q bound tagged e s
  | kept {bound : List String} {tagged : Bool} {e : Expr} {ss : List Expr} :
    (!tagged && eligible e (.analyze e)) = false → e.children.length = ss.length →
    (∀ c s, (c, s) ∈ e.children.zip ss → ShapedBy Q (e.binders ++ bound) e.isTag c s) →
    ShapedBy Q bound tagged e (e.withChildren ss)

namespace ShapedBy

variable {Q Q' : List String → Expr → Expr → Prop} {bound : List String} {tagged : Bool}

theorem of_forall₂ {e : Expr} {ss : List Expr}
    (h : (!tagged && eligible e (.analyze e)) = false)
    (hss : List.Forall₂ (ShapedBy Q (e.binders ++ bound) e.isTag) e.children ss) :
    ShapedBy Q bound tagged e (e.withChildren ss) :=
  .kept h hss.length_eq fun _ _ => (List.forall₂_iff_zip.mp hss).2

/-- Induction over the nodes that the query and its shape have in common. -/
theorem nodeInduction {motive : List String → Bool → Expr → Expr → Prop}
    (replaced : ∀ bound tagged e s, (!tagged && eligible e (.analyze e)) = true → Q bound e s →
      motive bound tagged e s)
    (kept : ∀ bound tagged e s, (!tagged && eligible e (.analyze e)) = false →
      Expr.NodeRel (motive (e.binders ++ bound) e.isTag) e s → motive bound tagged e s)
    {e s : Expr} (h : ShapedBy Q bound tagged e s) : motive bound tagged e s := by
  induction h with
  | replaced hpart hq => exact replaced _ _ _ _ hpart hq
  | kept hkept hlength _ ih =>
      exact kept _ _ _ _ hkept (Expr.nodeRel_withChildren
        (List.forall₂_iff_zip.mpr ⟨hlength, fun hcs => ih _ _ hcs⟩))

/-- A node that is kept has the shapes of its children for children. -/
theorem nodeRel {e s : Expr} (h : ShapedBy Q bound tagged e s)
    (hkept : (!tagged && eligible e (.analyze e)) = false) :
    Expr.NodeRel (ShapedBy Q (e.binders ++ bound) e.isTag) e s := by
  cases h with
  | replaced hpart => exact nomatch hpart.symm.trans hkept
  | kept _ hlength hchildren =>
      exact Expr.nodeRel_withChildren
        (List.forall₂_iff_zip.mpr ⟨hlength, fun hcs => hchildren _ _ hcs⟩)

/-- What is known of all places may depend on where they are. -/
theorem imp_of_mem {e s : Expr} (h : ShapedBy Q bound tagged e s)
    (hQ : ∀ bound' part node, .replaced part ∈ parts tagged e →
      (∀ name ∈ bound', name ∈ bound ∨ ∃ params body, .lambda params body ∈ e.nodes ∧
        name ∈ params.map Binder.name) → Q bound' part node → Q' bound' part node) :
    ShapedBy Q' bound tagged e s := by
  induction h with
  | replaced hpart hq =>
      exact .replaced hpart (hQ _ _ _ (by simp [parts_of_replaced hpart])
        (fun name hname => .inl hname) hq)
  | @kept bound tagged e ss hkept hlength _ ih =>
      refine .kept hkept hlength fun c s hcs => ih c s hcs fun bound' part node hpart hbound' => ?_
      have hc : c ∈ e.children := (List.of_mem_zip hcs).1
      refine hQ bound' part node ((mem_parts_of_kept hkept).mpr (.inr ⟨c, hc, hpart⟩))
        fun name hname => ?_
      rcases hbound' name hname with hmem | ⟨params, body, hlambda, hmem⟩
      · rcases List.mem_append.mp hmem with hmem | hmem
        · cases e with
          | lambda params body => exact .inr ⟨params, body, Expr.self_mem_nodes _, hmem⟩
          | _ => cases hmem
        · exact .inl hmem
      · exact .inr ⟨params, body, Expr.mem_nodes_of_child hc hlambda, hmem⟩

theorem imp {e s : Expr} (h : ShapedBy Q bound tagged e s)
    (hQ : ∀ bound part node, Q bound part node → Q' bound part node) :
    ShapedBy Q' bound tagged e s :=
  h.imp_of_mem fun bound' part node _ _ => hQ bound' part node

end ShapedBy

/-! ## Visits -/

theorem Yields.mapM {P : Bindings} {f : Expr → ExtractM Expr} {Q : Expr → Expr → Prop}
    {es : List Expr} (h : ∀ e ∈ es, Yields P (f e) (Q e)) :
    Yields P (es.mapM f) (List.Forall₂ Q es) := by
  induction es with
  | nil => exact .pure .nil
  | cons e es ih =>
      rw [List.mapM_cons]
      refine (h e List.mem_cons_self).bind fun s => ?_
      refine (ih fun e he => h e (List.mem_cons_of_mem _ he)).bind fun ss => ?_
      exact .pure fun hss hs => .cons hs hss

/-- What holds of each binding of a part holds of the nodes that a visit puts in. -/
theorem yields_shapedBy {P : Bindings} {oracle : Oracle} {Q : List String → Expr → Expr → Prop}
    (hbind : ∀ bound part, Yields P (bind oracle part) (Q bound part)) (e : Expr)
    (bound : List String) (tagged : Bool) :
    Yields P (visit oracle (closedness tagged e) e) (ShapedBy Q bound tagged e) := by
  induction e using Expr.induction_on_children generalizing bound tagged with
  | step e ih =>
      cases hkept : (!tagged && eligible e (.analyze e)) with
      | true =>
          rw [visit_of_replaced oracle hkept]
          exact (hbind bound e).mono fun s hs => .replaced hkept hs
      | false =>
          rw [visit_of_kept oracle hkept]
          refine (Yields.mapM fun c hc => ih c hc (e.binders ++ bound) e.isTag).bind fun ss => ?_
          exact .pure fun hss => .of_forall₂ hkept hss

/-! ## Placeholders -/

/-- A part is bound behind all others, under a name that is made of its own and of their number. -/
theorem bind_eq_ok {oracle : Oracle} {part node : Expr} {s s' : State} :
    (bind oracle part).run s = (.ok node, s') ↔
      ∃ v k, valueOf oracle part s.draws = .ok ((v, partName part), k) ∧
        node = placeholderNode (placeholder (partName part) s.params.length) v part.ty ∧
        s' = ⟨s.params.add (placeholder (partName part) s.params.length) v, k⟩ := by
  simp only [bind, ExceptT.run_mk]
  split
  · rename_i err hvalue
    constructor
    · intro h
      cases h
    · rintro ⟨v, k, h, -⟩
      rw [hvalue] at h
      cases h
  · rename_i v name k hvalue
    obtain rfl := name_of_valueOf hvalue
    constructor
    · intro h
      cases h
      exact ⟨v, k, hvalue, rfl, rfl⟩
    · rintro ⟨w, l, h, rfl, rfl⟩
      cases hvalue.symm.trans h
      rfl

/-- The node is the placeholder that was created for the part. The value of the part was bound
then, under the placeholder's name and behind the values before it, and the values bound by then
are the first of `P`. -/
def Created (oracle : Oracle) (P : Bindings) (part node : Expr) : Prop :=
  ∃ before after name v, (bind oracle part).run before = (.ok node, after) ∧
    after.params = before.params.add name v ∧ node = placeholderNode name v part.ty ∧
    after.params <+: P

/-- The value of the part is bound under the number that its placeholder ends in. -/
theorem Created.exists_getElem? {oracle : Oracle} {P : Bindings} {part node : Expr}
    (h : Created oracle P part node) :
    ∃ v i n k, valueOf oracle part n = .ok ((v, partName part), k) ∧
      node = placeholderNode (placeholder (partName part) i) v part.ty ∧
        P[i]? = some ⟨placeholder (partName part) i, v⟩ := by
  obtain ⟨before, after, name, v, hrun, -, -, hprefix⟩ := h
  obtain ⟨u, k, hvalue, hnode, rfl⟩ := bind_eq_ok.mp hrun
  exact ⟨u, before.params.length, before.draws, k, hvalue, hnode, getElem?_of_add_prefix hprefix⟩

theorem yields_created (P : Bindings) (oracle : Oracle) (part : Expr) :
    Yields P (bind oracle part) (Created oracle P part) := by
  intro s node s' hrun
  obtain ⟨v, k, -, hnode, rfl⟩ := bind_eq_ok.mp hrun
  exact ⟨⟨List.prefix_append _ _, fun h => h.add _ _⟩,
    fun hP => ⟨s, _, _, v, hrun, rfl, hnode, hP⟩⟩

/-- Each node that an extraction puts in is a placeholder, created for the part that it
replaces. -/
theorem shapedBy_created {oracle : Oracle} {e shape : Expr} {s s' : State}
    (h : (extract oracle e).run s = (.ok shape, s')) {P : Bindings} (hP : s'.params <+: P) :
    ShapedBy (fun _ => Created oracle P) [] false e shape :=
  (yields_shapedBy (fun _ part => yields_created P oracle part) e [] false s shape s' h).2 hP

theorem grows_extract {oracle : Oracle} {e shape : Expr} {s s' : State}
    (h : (extract oracle e).run s = (.ok shape, s')) : Grows s s' :=
  (yields_shapedBy (fun _ part => yields_created s'.params oracle part) e [] false s shape s' h).1

def Replaced (_ : List String) (part node : Expr) : Prop :=
  ∃ name v, node = placeholderNode name v part.ty

theorem shapedBy_replaced {oracle : Oracle} {e shape : Expr} {s s' : State}
    (h : (extract oracle e).run s = (.ok shape, s')) : ShapedBy Replaced [] false e shape :=
  (shapedBy_created h List.prefix_rfl).imp fun _ _ _ ⟨_, _, name, v, _, _, hnode, _⟩ =>
    ⟨name, v, hnode⟩

/-! ## What shapes keep -/

theorem ty_placeholderNode (name : String) (v : Value) (t : Ty) :
    (placeholderNode name v t).ty = t := by
  unfold placeholderNode
  split <;> rfl

theorem ty_shape {bound : List String} {tagged : Bool} {e s : Expr}
    (h : ShapedBy Replaced bound tagged e s) : e.ty = s.ty := by
  refine h.nodeInduction (motive := fun _ _ e s => e.ty = s.ty) ?_
    fun _ _ _ _ _ hnode => hnode.ty_eq
  rintro bound tagged e _ - ⟨name, v, rfl⟩
  exact (ty_placeholderNode name v e.ty).symm

theorem drawFree_placeholderNode (name : String) (v : Value) (t : Ty) :
    (placeholderNode name v t).DrawFree := by
  have hparameter : ∀ u, (Expr.parameter name u).DrawFree :=
    fun u => .intro rfl (by simp [Expr.children])
  unfold placeholderNode
  split
  · exact hparameter t
  · exact .intro rfl (by simpa [Expr.children] using hparameter v.ty)

theorem drawFree_shape {bound : List String} {tagged : Bool} {e s : Expr}
    (h : ShapedBy Replaced bound tagged e s) : e.DrawFree → s.DrawFree := by
  refine h.nodeInduction (motive := fun _ _ e s => e.DrawFree → s.DrawFree) ?_
    fun _ _ _ _ _ hnode => hnode.drawFree
  rintro bound tagged e _ - ⟨name, v, rfl⟩ -
  exact drawFree_placeholderNode name v e.ty

theorem boundIn_placeholderNode {bound : List String} {name : String} (hname : name ∈ bound)
    (v : Value) (t : Ty) : (placeholderNode name v t).boundIn bound = true := by
  unfold placeholderNode
  split <;> simpa [Expr.boundIn] using hname

/-- What is free in a shape was free in the query or is a placeholder. -/
theorem boundIn_shapedBy {oracle : Oracle} {P : Bindings} {bound : List String} {tagged : Bool}
    {e s : Expr} (h : ShapedBy (fun _ => Created oracle P) bound tagged e s) :
    e.boundIn bound = true → s.boundIn (bound ++ P.names) = true := by
  refine h.nodeInduction
    (motive := fun bound _ e s => e.boundIn bound = true → s.boundIn (bound ++ P.names) = true)
    (fun bound _ e s _ hq => ?_) fun bound _ e s _ hnode => ?_
  · obtain ⟨v, i, n, k, -, rfl, hi⟩ := hq.exists_getElem?
    have hname := List.mem_map_of_mem (f := Named.name) (List.mem_of_getElem? hi)
    exact fun _ => boundIn_placeholderNode (List.mem_append_right _ hname) v e.ty
  · refine Expr.NodeRel.boundIn (List.subset_append_left _ _) ?_
    simpa only [List.append_assoc] using hnode

/-- All parameters that are free in a shape are names of the values extracted. -/
theorem boundIn_shape {ms : VolatileMethods} {oracle : Oracle} {e s : Expr} {params : Bindings}
    {n k : Nat} (hbound : e.boundIn [] = true)
    (hshape : (extract oracle (ms.tag e)).run ⟨[], n⟩ = (.ok s, ⟨params, k⟩)) :
    s.untag.boundIn params.names = true := by
  have hshaped := shapedBy_created hshape List.prefix_rfl
  exact Expr.boundIn_untag (boundIn_shapedBy hshaped (VolatileMethods.boundIn_tag hbound))

end Extract

end DeferredQuery
