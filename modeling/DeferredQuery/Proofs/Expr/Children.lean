import Mathlib.Data.List.Forall2
import DeferredQuery.Expr.Text
import DeferredQuery.Proofs.Expr.Nodes

/-!
# Expressions with other children

A node is its kind, the names that it binds, and its children. A tree is changed in some places by
putting other children into its nodes. Two nodes of one kind have the same type and text, and bind
the same parameters, if their children do.
-/

namespace DeferredQuery

theorem forall₂_of_mem {α β : Type} {R S : α → β → Prop} {xs : List α} {ys : List β}
    (h : List.Forall₂ R xs ys) (hS : ∀ x ∈ xs, ∀ y ∈ ys, R x y → S x y) :
    List.Forall₂ S xs ys := by
  induction h with
  | nil => exact .nil
  | cons h _ ih =>
      exact .cons (hS _ List.mem_cons_self _ List.mem_cons_self h)
        (ih fun x hx y hy => hS x (List.mem_cons_of_mem _ hx) y (List.mem_cons_of_mem _ hy))

/-- A member of the second list stands for one of the first. -/
theorem exists_of_forall₂ {α β : Type} {R : α → β → Prop} {xs : List α} {ys : List β}
    (h : List.Forall₂ R xs ys) {y : β} (hy : y ∈ ys) : ∃ x ∈ xs, R x y := by
  obtain ⟨i, hi, rfl⟩ := List.mem_iff_getElem.mp hy
  have hlength : i < xs.length := h.length_eq ▸ hi
  exact ⟨xs[i], List.getElem_mem hlength, h.get hlength hi⟩

namespace Expr

def withValues (fields : List (Named Expr)) (values : List Expr) : List (Named Expr) :=
  fields.zipWith (fun field e => ⟨field.name, e⟩) values

def withChildren : Expr → List Expr → Expr
  | .member _ name t, [target] => .member target name t
  | .call m none _ t, args => .call m none args t
  | .call m (some _) _ t, receiver :: args => .call m (some receiver) args t
  | .lambda params _, [body] => .lambda params body
  | .convert _ t, [operand] => .convert operand t
  | .binary op _ _, [left, right] => .binary op left right
  | .unary op _, [operand] => .unary op operand
  | .record fields, values => .record (withValues fields values)
  | .volatile _, [inner] => .volatile inner
  | e, _ => e

theorem length_children_call {m : Method} {receiver : Option Expr} {args : List Expr} {t : Ty}
    {ss : List Expr} (h : (Expr.call m receiver args t).children.length = ss.length) :
    ∃ receiver' args', ss = receiver'.toList ++ args' ∧
      (Expr.call m receiver args t).withChildren ss = .call m receiver' args' t ∧
      args.length = args'.length := by
  cases receiver with
  | none => exact ⟨none, ss, rfl, rfl, h⟩
  | some receiver =>
      cases ss with
      | nil => simp [children] at h
      | cons s ss => exact ⟨some s, ss, rfl, rfl, by simpa [children] using h⟩

theorem values_withValues {fields : List (Named Expr)} {ss : List Expr}
    (h : fields.length = ss.length) : (withValues fields ss).map Named.value = ss := by
  induction fields generalizing ss with
  | nil => exact (List.length_eq_zero_iff.mp h.symm).symm
  | cons field fields ih =>
      cases ss with
      | nil => cases h
      | cons s ss => exact congrArg (List.cons s) (ih (Nat.succ.inj h))

theorem withValues_map (f : Expr → Expr) (fields : List (Named Expr)) :
    withValues fields ((fields.map Named.value).map f) =
      fields.map fun field => ⟨field.name, f field.value⟩ := by
  rw [withValues, List.map_map, List.zipWith_map_right, List.zipWith_self]
  rfl

theorem children_withChildren {e : Expr} {ss : List Expr} (h : e.children.length = ss.length) :
    (e.withChildren ss).children = ss := by
  cases e with
  | constant | parameter =>
      rw [List.length_eq_zero_iff.mp h.symm]
      rfl
  | call m receiver args t =>
      obtain ⟨receiver', args', rfl, heq, -⟩ := length_children_call h
      rw [heq]
      rfl
  | binary op left right =>
      obtain ⟨s, s', rfl⟩ := List.length_eq_two.mp h.symm
      rfl
  | record fields => exact values_withValues (by simpa [children] using h)
  | member | lambda | convert | unary | volatile =>
      obtain ⟨s, rfl⟩ := List.length_eq_one_iff.mp h.symm
      rfl

theorem withChildren_children (e : Expr) : e.withChildren e.children = e := by
  cases e with
  | call m receiver args t => cases receiver <;> rfl
  | record fields =>
      have hvalues : withValues fields (fields.map Named.value) = fields := by
        rw [withValues, List.zipWith_map_right, List.zipWith_self]
        exact List.map_id fields
      exact congrArg record hvalues
  | _ => rfl

theorem withValues_withValues {fields : List (Named Expr)} {ss us : List Expr}
    (h : fields.length = ss.length) (h' : ss.length = us.length) :
    withValues (withValues fields ss) us = withValues fields us := by
  induction fields generalizing ss us with
  | nil => simp [withValues]
  | cons field fields ih =>
      cases ss with
      | nil => cases h
      | cons s ss =>
          cases us with
          | nil => cases h'
          | cons u us =>
              exact congrArg (List.cons _) (ih (Nat.succ.inj h) (Nat.succ.inj h'))

/-- Of the children that are put into a node one after the other, the last ones stay. -/
theorem withChildren_withChildren {e : Expr} {ss us : List Expr}
    (h : e.children.length = ss.length) (h' : ss.length = us.length) :
    (e.withChildren ss).withChildren us = e.withChildren us := by
  cases e with
  | constant | parameter => rfl
  | call m receiver args t =>
      cases receiver with
      | none => rfl
      | some receiver =>
          cases ss with
          | nil => cases h
          | cons s ss =>
              cases us with
              | nil => cases h'
              | cons u us => rfl
  | binary op left right =>
      obtain ⟨s, s', rfl⟩ := List.length_eq_two.mp h.symm
      obtain ⟨u, u', rfl⟩ := List.length_eq_two.mp h'.symm
      rfl
  | record fields =>
      exact congrArg record (withValues_withValues (by simpa [children] using h) h')
  | member | lambda | convert | unary | volatile =>
      obtain ⟨s, rfl⟩ := List.length_eq_one_iff.mp h.symm
      obtain ⟨u, rfl⟩ := List.length_eq_one_iff.mp h'.symm
      rfl

/-! ## Nodes of one kind -/

/-- The nodes are the same but for their children, which are related in order. -/
inductive NodeRel (R : Expr → Expr → Prop) : Expr → Expr → Prop
  | constant (v : Value) (t : Ty) : NodeRel R (.constant v t) (.constant v t)
  | parameter (name : String) (t : Ty) : NodeRel R (.parameter name t) (.parameter name t)
  | member {e s : Expr} (name : String) (t : Ty) : R e s →
    NodeRel R (.member e name t) (.member s name t)
  | call {r r' : Option Expr} {es ss : List Expr} (m : Method) (t : Ty) : Option.Rel R r r' →
    List.Forall₂ R es ss → NodeRel R (.call m r es t) (.call m r' ss t)
  | lambda {e s : Expr} (params : List Binder) : R e s →
    NodeRel R (.lambda params e) (.lambda params s)
  | convert {e s : Expr} (t : Ty) : R e s → NodeRel R (.convert e t) (.convert s t)
  | binary {e₁ e₂ s₁ s₂ : Expr} (op : BinOp) : R e₁ s₁ → R e₂ s₂ →
    NodeRel R (.binary op e₁ e₂) (.binary op s₁ s₂)
  | unary {e s : Expr} (op : UnOp) : R e s → NodeRel R (.unary op e) (.unary op s)
  | record {es ss : List (Named Expr)} :
    List.Forall₂ (fun x y => x.name = y.name ∧ R x.value y.value) es ss →
    NodeRel R (.record es) (.record ss)
  | volatile {e s : Expr} : R e s → NodeRel R (.volatile e) (.volatile s)

section NodeRel

variable {R R' : Expr → Expr → Prop} {e s : Expr}

theorem forall₂_withValues {fields : List (Named Expr)} {ss : List Expr}
    (h : List.Forall₂ R (fields.map Named.value) ss) :
    List.Forall₂ (fun x y => x.name = y.name ∧ R x.value y.value) fields
      (withValues fields ss) := by
  induction fields generalizing ss with
  | nil => exact .nil
  | cons field fields ih =>
      cases h with
      | cons hs hss => exact .cons ⟨rfl, hs⟩ (ih hss)

/-- A node and the same node with other children. -/
theorem nodeRel_withChildren {ss : List Expr} (h : List.Forall₂ R e.children ss) :
    NodeRel R e (e.withChildren ss) := by
  cases e with
  | constant v t => exact .constant v t
  | parameter name t => exact .parameter name t
  | call m receiver args t =>
      cases receiver with
      | none => exact .call m t .none h
      | some receiver =>
          cases h with
          | cons hs hss => exact .call m t (.some hs) hss
  | binary op left right =>
      match ss, h with
      | [s, s'], .cons hs (.cons hs' .nil) => exact .binary op hs hs'
  | record fields => exact .record (forall₂_withValues h)
  | member | lambda | convert | unary | volatile =>
      match ss, h with
      | [s], .cons hs .nil => constructor; exact hs

theorem nodeRel_map {R : Expr → Expr → Prop} {f : Expr → Expr} {e : Expr}
    (h : ∀ c ∈ e.children, R c (f c)) : NodeRel R e (e.withChildren (e.children.map f)) :=
  nodeRel_withChildren (List.forall₂_map_right_iff.mpr (List.forall₂_same.mpr h))

theorem NodeRel.same (h : ∀ c ∈ e.children, R c c) : NodeRel R e e := by
  have hnode := nodeRel_withChildren (List.forall₂_same.mpr h)
  rwa [withChildren_children] at hnode

theorem NodeRel.children (h : NodeRel R e s) : List.Forall₂ R e.children s.children := by
  cases h with
  | constant | parameter => exact .nil
  | call m t hr hss =>
      cases hr with
      | none => exact hss
      | some hs => exact .cons hs hss
  | binary op hs hs' => exact .cons hs (.cons hs' .nil)
  | record hss =>
      rw [Expr.children, Expr.children, List.forall₂_map_left_iff, List.forall₂_map_right_iff]
      exact hss.imp fun _ _ h => h.2
  | member _ _ hs | lambda _ hs | convert _ hs | unary _ hs | volatile hs => exact .cons hs .nil

theorem NodeRel.exists_child {c' : Expr} (h : NodeRel R e s) (hc : c' ∈ s.children) :
    ∃ c ∈ e.children, R c c' :=
  exists_of_forall₂ h.children hc

theorem NodeRel.flip (h : NodeRel R e s) : NodeRel (fun s e => R e s) s e := by
  cases h with
  | constant v t => exact .constant v t
  | parameter name t => exact .parameter name t
  | call m t hr hss =>
      refine .call m t ?_ hss.flip
      cases hr with
      | none => exact .none
      | some hs => exact .some hs
  | binary op hs hs' => exact .binary op hs hs'
  | record hss => exact .record (hss.flip.imp fun _ _ h => ⟨h.1.symm, h.2⟩)
  | member _ _ hs | lambda _ hs | convert _ hs | unary _ hs | volatile hs => constructor; exact hs

theorem NodeRel.eq_withChildren (h : NodeRel R e s) : s = e.withChildren s.children := by
  cases h with
  | call m t hr hss => cases hr <;> rfl
  | @record es ss hss =>
      have hvalues : withValues es (ss.map Named.value) = ss := by
        induction hss with
        | nil => rfl
        | cons hxy _ ih => simpa [withValues, hxy.1] using ih
      rw [Expr.children, withChildren, hvalues]
  | _ => rfl

theorem NodeRel.imp_of_mem (h : NodeRel R e s)
    (hR : ∀ c ∈ e.children, ∀ c', R c c' → R' c c') : NodeRel R' e s := by
  rw [h.eq_withChildren]
  exact nodeRel_withChildren (forall₂_of_mem h.children fun c hc c' _ => hR c hc c')

theorem NodeRel.imp (h : NodeRel R e s) (hR : ∀ c c', R c c' → R' c c') : NodeRel R' e s :=
  h.imp_of_mem fun c _ c' => hR c c'

/-- Static types depend on those of the children. -/
theorem NodeRel.ty_eq (h : NodeRel (fun c c' => c.ty = c'.ty) e s) : e.ty = s.ty := by
  cases h with
  | lambda params hs => rw [ty, ty, hs]
  | binary op hs hs' => rw [ty, ty, hs, hs']
  | unary op hs =>
      cases op with
      | neg => exact hs
      | not => rfl
  | record hss =>
      rw [ty, ty, fieldTys_eq_map, fieldTys_eq_map]
      induction hss with
      | nil => rfl
      | cons hxy _ ih => simpa [hxy.1, hxy.2] using ih
  | volatile hs => exact hs
  | constant | parameter | member | call | convert => rfl

/-- The expressions have the same text, alone and below a conversion. -/
structure Lookalike (e s : Expr) : Prop where
  ty : e.ty = s.ty
  text : e.text = s.text

theorem texts_eq {es ss : List Expr} (h : List.Forall₂ Lookalike es ss) : texts es = texts ss := by
  induction h with
  | nil => rfl
  | cons hs _ ih => rw [texts, texts, hs.text, ih]

theorem fieldTexts_eq {es ss : List (Named Expr)}
    (h : List.Forall₂ (fun x y => x.name = y.name ∧ Lookalike x.value y.value) es ss) :
    fieldTexts es = fieldTexts ss := by
  induction h with
  | nil => rfl
  | cons hxy _ ih => rw [fieldTexts, fieldTexts, hxy.1, hxy.2.text, ih]

/-- A node's text is made of its own part and the texts of its children. -/
theorem NodeRel.lookalike (h : NodeRel Lookalike e s) : e.Lookalike s := by
  refine ⟨(h.imp fun _ _ => Lookalike.ty).ty_eq, ?_⟩
  cases h with
  | constant | parameter => rfl
  | member name t hs => rw [text, text, hs.text]
  | call m t hr hss =>
      cases hr with
      | none => rw [text, text, texts_eq hss]
      | some hs => rw [text, text, hs.text, texts_eq hss]
  | lambda params hs => rw [text, text, hs.text]
  | convert t hs => rw [text, text, hs.ty, hs.text]
  | binary op hs hs' => rw [text, text, hs.text, hs'.text]
  | unary op hs => cases op <;> rw [text, text, hs.text]
  | record hss => rw [text, text, fieldTexts_eq hss]
  | volatile hs => exact hs.text

/-! ## Bound parameters -/

theorem NodeRel.binders_eq (h : NodeRel R e s) : e.binders = s.binders := by
  cases h <;> rfl

theorem NodeRel.boundIn {bound bound' : List String} (hsub : bound ⊆ bound')
    (h : NodeRel (fun c c' => c.boundIn (e.binders ++ bound) = true →
      c'.boundIn (e.binders ++ bound') = true) e s)
    (hbound : e.boundIn bound = true) : s.boundIn bound' = true := by
  obtain ⟨hname, hchildren⟩ := boundIn_iff.mp hbound
  refine boundIn_iff.mpr ⟨?_, fun c' hc' => ?_⟩
  · rintro name t rfl
    cases h with
    | parameter => exact hsub (hname name t rfl)
  · obtain ⟨c, hc, hchild⟩ := h.exists_child hc'
    exact h.binders_eq ▸ hchild (hchildren c hc)

end NodeRel

end Expr

end DeferredQuery
