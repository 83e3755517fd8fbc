import DeferredQuery.Proofs.Eval.Follows
import DeferredQuery.Shape.Volatile

/-!
# Tags child by child

Tagging an expression tags its children and then the node itself, and untagging one takes the tags
off its children. What is kept where a node gets other children of its kind, and where a tag is put
around it or taken away, is kept by both: static types, texts, bound parameters and draws.
-/

namespace DeferredQuery

namespace Expr

theorem NodeRel.isTag_eq {R : Expr → Expr → Prop} {e s : Expr} (h : NodeRel R e s) :
    e.isTag = s.isTag := by
  cases h <;> rfl

theorem isTag_withChildren {e : Expr} {ss : List Expr} (h : e.children.length = ss.length) :
    (e.withChildren ss).isTag = e.isTag := by
  have hany : List.Forall₂ (fun _ _ => True) e.children ss :=
    List.forall₂_iff_zip.mpr ⟨h, fun _ => trivial⟩
  exact (nodeRel_withChildren hany).isTag_eq.symm

/-! ## Untagging -/

theorem untagList_eq_map (es : List Expr) : untagList es = es.map untag := by
  induction es with
  | nil => rfl
  | cons e es ih => simp [untagList, ih]

theorem untagFields_eq_map (fields : List (Named Expr)) :
    untagFields fields = fields.map fun field => ⟨field.name, field.value.untag⟩ := by
  induction fields with
  | nil => rfl
  | cons field fields ih => simp [untagFields, ih]

theorem untag_of_kept {e : Expr} (h : e.isTag = false) :
    e.untag = e.withChildren (e.children.map untag) := by
  cases e with
  | call m receiver args t =>
      cases receiver <;> simp [untag, untagList_eq_map, children, withChildren]
  | record fields => rw [untag, untagFields_eq_map, children, withChildren, withValues_map]
  | volatile inner => cases h
  | _ => rfl

theorem untag_withChildren {e : Expr} {ss : List Expr} (htag : e.isTag = false)
    (h : e.children.length = ss.length) :
    (e.withChildren ss).untag = e.withChildren (ss.map untag) := by
  rw [untag_of_kept ((isTag_withChildren h).trans htag), children_withChildren h,
    withChildren_withChildren h (by simp)]

/-- By induction on the expression; tags are the only nodes that are left out. -/
theorem rel_untag {R : Expr → Expr → Prop}
    (hnode : ∀ e s, e.isTag = false → NodeRel R e s → R e s)
    (htag : ∀ inner s, R inner s → R (.volatile inner) s) (e : Expr) : R e e.untag := by
  induction e using induction_on_children with
  | step e ih =>
      cases he : e.isTag with
      | true =>
          cases e with
          | volatile inner => exact htag inner _ (ih inner (by simp [children]))
          | _ => cases he
      | false =>
          rw [untag_of_kept he]
          exact hnode e _ he (nodeRel_map ih)

theorem ty_untag (e : Expr) : e.untag.ty = e.ty :=
  (rel_untag (R := fun e s => e.ty = s.ty) (fun _ _ _ h => h.ty_eq) (fun _ _ h => h) e).symm

theorem boundIn_untag {e : Expr} {bound : List String} (h : e.boundIn bound = true) :
    e.untag.boundIn bound = true :=
  rel_untag (R := fun e s => ∀ bound, e.boundIn bound = true → s.boundIn bound = true)
    (fun _ _ _ h _ => NodeRel.boundIn (List.Subset.refl _) (h.imp fun _ _ h => h _))
    (fun _ _ h => h) e bound h

theorem DrawFree.untag {e : Expr} (h : e.DrawFree) : e.untag.DrawFree :=
  rel_untag (R := fun e s => e.DrawFree → s.DrawFree) (fun _ _ _ h => h.drawFree)
    (fun inner _ h hdraw => h (hdraw.child (by simp [children]))) e h

/-- The nodes without tags are those of the expression, with the tags in them left out. -/
theorem mem_nodes_untag {n e : Expr} :
    n ∈ e.untag.nodes ↔ ∃ n' ∈ e.nodes, n'.isTag = false ∧ n'.untag = n := by
  induction e using induction_on_children with
  | step e ih =>
      cases htag : e.isTag with
      | true =>
          cases e with
          | volatile inner =>
              have hinner := ih inner (by simp [children])
              rw [untag, hinner]
              constructor
              · rintro ⟨n', hn', h⟩
                exact ⟨n', mem_nodes_of_child (by simp [children]) hn', h⟩
              · rintro ⟨n', hn', htag', h⟩
                rcases mem_nodes.mp hn' with rfl | ⟨c, hc, hn'⟩
                · cases htag'
                · cases List.mem_singleton.mp hc
                  exact ⟨n', hn', htag', h⟩
          | _ => cases htag
      | false =>
          rw [mem_nodes, untag_of_kept htag, children_withChildren (by simp)]
          constructor
          · rintro (rfl | ⟨c, hc, hn⟩)
            · exact ⟨e, self_mem_nodes e, htag, untag_of_kept htag⟩
            · obtain ⟨c', hc', rfl⟩ := List.mem_map.mp hc
              obtain ⟨n', hn', h⟩ := (ih c' hc').mp hn
              exact ⟨n', mem_nodes_of_child hc' hn', h⟩
          · rintro ⟨n', hn', htag', h⟩
            rcases mem_nodes.mp hn' with rfl | ⟨c, hc, hn'⟩
            · exact .inl (h ▸ untag_of_kept htag)
            · exact .inr ⟨c.untag, List.mem_map_of_mem hc, (ih c hc).mpr ⟨n', hn', htag', h⟩⟩

end Expr

/-! ## Tagging -/

namespace VolatileMethods

variable {ms : VolatileMethods}

theorem tagList_eq_map (ms : VolatileMethods) (es : List Expr) :
    tagList ms es = es.map (tag ms) := by
  induction es with
  | nil => rfl
  | cons e es ih => simp [tagList, ih]

theorem tagFields_eq_map (ms : VolatileMethods) (fields : List (Named Expr)) :
    tagFields ms fields = fields.map fun field => ⟨field.name, tag ms field.value⟩ := by
  induction fields with
  | nil => rfl
  | cons field fields ih => simp [tagFields, ih]

theorem tag_eq_mark (ms : VolatileMethods) (e : Expr) :
    ms.tag e = ms.mark (e.withChildren (e.children.map ms.tag)) := by
  cases e with
  | call m receiver args t =>
      cases receiver <;> simp [tag, tagList_eq_map, Expr.children, Expr.withChildren]
  | record fields =>
      rw [tag, tagFields_eq_map, Expr.children, Expr.withChildren, Expr.withValues_map]
      rfl
  | _ => rfl

/-- What holds of nodes of one kind whose children it holds of, and is kept where one of these is
tagged, holds of each expression and what tagging makes of it. -/
theorem rel_tag {R : Expr → Expr → Prop}
    (hnode : ∀ e s, ms.marks s = false → Expr.NodeRel R e s → R e s)
    (hmarked : ∀ e s, ms.marks s = true → Expr.NodeRel R e s → R e (.volatile s)) (e : Expr) :
    R e (ms.tag e) := by
  induction e using Expr.induction_on_children with
  | step e ih =>
      have hrel := Expr.nodeRel_map ih
      rw [tag_eq_mark]
      unfold mark
      cases hmarks : ms.marks (e.withChildren (e.children.map ms.tag)) with
      | true => exact hmarked e _ hmarks hrel
      | false => exact hnode e _ hmarks hrel

theorem lookalike_tag (ms : VolatileMethods) (e : Expr) : e.Lookalike (ms.tag e) :=
  rel_tag (fun _ _ _ h => h.lookalike) (fun _ _ _ h => ⟨h.lookalike.ty, h.lookalike.text⟩) e

theorem ty_tag (ms : VolatileMethods) (e : Expr) : (ms.tag e).ty = e.ty :=
  (lookalike_tag ms e).ty.symm

theorem boundIn_tag {e : Expr} {bound : List String} (h : e.boundIn bound = true) :
    (ms.tag e).boundIn bound = true := by
  have hnode : ∀ e s, Expr.NodeRel (fun e s => ∀ bound, e.boundIn bound = true →
      s.boundIn bound = true) e s → ∀ bound, e.boundIn bound = true → s.boundIn bound = true :=
    fun _ _ h _ => Expr.NodeRel.boundIn (List.Subset.refl _) (h.imp fun _ _ h => h _)
  exact rel_tag (R := fun e s => ∀ bound, e.boundIn bound = true → s.boundIn bound = true)
    (fun e s _ => hnode e s) (fun e s _ => hnode e s) e bound h

theorem drawFree_tag (ms : VolatileMethods) {e : Expr} (h : e.DrawFree) :
    (ms.tag e).DrawFree := by
  refine rel_tag (R := fun e s => e.DrawFree → s.DrawFree) (fun _ _ _ h => h.drawFree)
    (fun e s _ h hdraw => .intro rfl fun c hc => ?_) e h
  rw [List.mem_singleton.mp hc]
  exact h.drawFree hdraw

theorem untag_mark (ms : VolatileMethods) (e : Expr) : (ms.mark e).untag = e.untag := by
  unfold mark
  split <;> rfl

theorem untag_tag (ms : VolatileMethods) (e : Expr) : (ms.tag e).untag = e.untag := by
  induction e using Expr.induction_on_children with
  | step e ih =>
      rw [tag_eq_mark, untag_mark]
      cases htag : e.isTag with
      | true =>
          cases e with
          | volatile inner => exact ih inner (by simp [Expr.children])
          | _ => cases htag
      | false =>
          rw [Expr.untag_withChildren htag (by simp), Expr.untag_of_kept htag, List.map_map]
          exact congrArg e.withChildren (List.map_congr_left ih)

/-! ## Expressions without calls to tag -/

/-- A query without calls to tag stays as it is. -/
theorem tag_eq_self {e : Expr} (h : e.nodes.any ms.marks = false) : ms.tag e = e := by
  rw [List.any_eq_false] at h
  induction e using Expr.induction_on_children with
  | step e ih =>
      have hchildren : e.children.map ms.tag = e.children := by
        refine (List.map_congr_left fun c hc => ?_).trans (List.map_id _)
        exact ih c hc fun n hn => h n (Expr.mem_nodes_of_child hc hn)
      rw [tag_eq_mark, hchildren, Expr.withChildren_children, mark,
        if_neg (h e (Expr.self_mem_nodes e))]

end VolatileMethods

end DeferredQuery
