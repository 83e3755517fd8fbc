import DeferredQuery.Expr.Basic

/-!
# The nodes of an expression

Induction over expressions by their children, the list of all nodes of a tree, and the expressions
whose parameters all belong to lambdas around them.
-/

namespace DeferredQuery

namespace Expr

/-- Recursion through the children of a node is well-founded. -/
theorem sizeOf_lt_of_mem_children {c e : Expr} (hc : c ∈ e.children) : sizeOf c < sizeOf e := by
  cases e with
  | constant v t => cases hc
  | parameter name t => cases hc
  | call m receiver args t =>
      rcases List.mem_append.mp hc with hc | hc
      · rw [Option.mem_toList] at hc
        subst hc
        simp only [call.sizeOf_spec, Option.some.sizeOf_spec]
        omega
      · have hlt := List.sizeOf_lt_of_mem hc
        simp only [call.sizeOf_spec]
        omega
  | record fields =>
      obtain ⟨field, hfield, rfl⟩ := List.mem_map.mp hc
      have hlt := List.sizeOf_lt_of_mem hfield
      have hvalue : sizeOf field.value < sizeOf field := by
        cases field
        simp only [Named.mk.sizeOf_spec]
        omega
      simp only [record.sizeOf_spec]
      omega
  | binary op left right =>
      simp only [children, List.mem_cons, List.not_mem_nil, or_false] at hc
      rcases hc with rfl | rfl <;> simp only [binary.sizeOf_spec] <;> omega
  | member | lambda | convert | unary | volatile =>
      obtain rfl := List.mem_singleton.mp hc
      simp
      try omega

/-- A property of each expression whose children all have it belongs to every expression. -/
theorem induction_on_children {motive : Expr → Prop}
    (step : ∀ e, (∀ c ∈ e.children, motive c) → motive e) (e : Expr) : motive e :=
  step e fun c _ => induction_on_children step c
termination_by sizeOf e
decreasing_by exact sizeOf_lt_of_mem_children ‹_›

/-- Induction with one case for each kind of node. -/
@[induction_eliminator]
theorem nodeInduction {motive : Expr → Prop}
    (constant : ∀ v t, motive (.constant v t))
    (parameter : ∀ name t, motive (.parameter name t))
    (member : ∀ target name t, motive target → motive (.member target name t))
    (call : ∀ m receiver args t, (∀ e, receiver = some e → motive e) →
      (∀ e ∈ args, motive e) → motive (.call m receiver args t))
    (lambda : ∀ params body, motive body → motive (.lambda params body))
    (convert : ∀ operand t, motive operand → motive (.convert operand t))
    (binary : ∀ op left right, motive left → motive right → motive (.binary op left right))
    (unary : ∀ op operand, motive operand → motive (.unary op operand))
    (record : ∀ fields, (∀ field ∈ fields, motive field.value) → motive (.record fields))
    (volatile : ∀ inner, motive inner → motive (.volatile inner)) (e : Expr) : motive e := by
  refine induction_on_children (fun e ih => ?_) e
  cases e with
  | constant v t => exact constant v t
  | parameter name t => exact parameter name t
  | member target name t => exact member target name t (ih target (by simp [children]))
  | call m receiver args t =>
      refine call m receiver args t (fun e he => ih e ?_) fun e he => ih e ?_
      · simp [children, he]
      · simp [children, he]
  | lambda params body => exact lambda params body (ih body (by simp [children]))
  | convert operand t => exact convert operand t (ih operand (by simp [children]))
  | binary op left right =>
      exact binary op left right (ih left (by simp [children])) (ih right (by simp [children]))
  | unary op operand => exact unary op operand (ih operand (by simp [children]))
  | record fields =>
      refine record fields fun field hfield => ih field.value ?_
      simp only [children, List.mem_map]
      exact ⟨field, hfield, rfl⟩
  | volatile inner => exact volatile inner (ih inner (by simp [children]))

theorem fieldTys_eq_map (fields : List (Named Expr)) :
    fieldTys fields = fields.map fun field => ⟨field.name, field.value.ty⟩ := by
  induction fields with
  | nil => rfl
  | cons field fields ih => simp [fieldTys, ih]

/-! ## All nodes -/

mutual

def nodes (e : Expr) : List Expr :=
  e ::
    match e with
    | .constant .. => []
    | .parameter .. => []
    | .member target _ _ => nodes target
    | .call _ none args _ => nodesOfList args
    | .call _ (some receiver) args _ => nodes receiver ++ nodesOfList args
    | .lambda _ body => nodes body
    | .convert operand _ => nodes operand
    | .binary _ left right => nodes left ++ nodes right
    | .unary _ operand => nodes operand
    | .record fields => nodesOfFields fields
    | .volatile inner => nodes inner

def nodesOfList : List Expr → List Expr
  | [] => []
  | e :: rest => nodes e ++ nodesOfList rest

def nodesOfFields : List (Named Expr) → List Expr
  | [] => []
  | ⟨_, e⟩ :: rest => nodes e ++ nodesOfFields rest

end

theorem mem_nodesOfList {n : Expr} {es : List Expr} :
    n ∈ nodesOfList es ↔ ∃ e ∈ es, n ∈ e.nodes := by
  induction es with
  | nil => simp [nodesOfList]
  | cons e es ih => simp [nodesOfList, ih]

theorem mem_nodesOfFields {n : Expr} {fields : List (Named Expr)} :
    n ∈ nodesOfFields fields ↔ ∃ e ∈ fields.map Named.value, n ∈ e.nodes := by
  induction fields with
  | nil => simp [nodesOfFields]
  | cons field fields ih => simp [nodesOfFields, ih]

theorem mem_nodes {n e : Expr} : n ∈ e.nodes ↔ n = e ∨ ∃ c ∈ e.children, n ∈ c.nodes := by
  cases e with
  | call m receiver args t =>
      cases receiver <;> simp [nodes, children, mem_nodesOfList]
  | record fields => simp [nodes, children, mem_nodesOfFields]
  | _ => simp [nodes, children]

theorem self_mem_nodes (e : Expr) : e ∈ e.nodes := mem_nodes.mpr (.inl rfl)

theorem mem_nodes_of_child {n c e : Expr} (hc : c ∈ e.children) (hn : n ∈ c.nodes) :
    n ∈ e.nodes := mem_nodes.mpr (.inr ⟨c, hc, hn⟩)

theorem nodes_trans {a b e : Expr} (ha : a ∈ b.nodes) (hb : b ∈ e.nodes) : a ∈ e.nodes := by
  induction e using induction_on_children with
  | step e ih =>
      rcases mem_nodes.mp hb with rfl | ⟨c, hc, hb⟩
      · exact ha
      · exact mem_nodes_of_child hc (ih c hc hb)

/-! ## Bound parameters -/

mutual

/-- Whether each parameter is one of a lambda around it, or else one of the given names. -/
def boundIn (bound : List String) : Expr → Bool
  | .constant .. => true
  | .parameter name _ => name ∈ bound
  | .member target _ _ => boundIn bound target
  | .call _ none args _ => boundInList bound args
  | .call _ (some receiver) args _ => boundIn bound receiver && boundInList bound args
  | .lambda params body => boundIn (params.map Binder.name ++ bound) body
  | .convert operand _ => boundIn bound operand
  | .binary _ left right => boundIn bound left && boundIn bound right
  | .unary _ operand => boundIn bound operand
  | .record fields => boundInFields bound fields
  | .volatile inner => boundIn bound inner

def boundInList (bound : List String) : List Expr → Bool
  | [] => true
  | e :: rest => boundIn bound e && boundInList bound rest

def boundInFields (bound : List String) : List (Named Expr) → Bool
  | [] => true
  | ⟨_, e⟩ :: rest => boundIn bound e && boundInFields bound rest

end

def binders : Expr → List String
  | .lambda params _ => params.map Binder.name
  | _ => []

theorem boundInList_iff {bound : List String} {es : List Expr} :
    boundInList bound es = true ↔ ∀ e ∈ es, e.boundIn bound = true := by
  induction es with
  | nil => simp [boundInList]
  | cons e es ih => simp [boundInList, ih]

theorem boundInFields_iff {bound : List String} {fields : List (Named Expr)} :
    boundInFields bound fields = true ↔ ∀ field ∈ fields, field.value.boundIn bound = true := by
  induction fields with
  | nil => simp [boundInFields]
  | cons field fields ih => simp [boundInFields, ih]

/-- A parameter is one of the given names; other nodes add the names that they bind, and their
children are checked with these. -/
theorem boundIn_iff {bound : List String} {e : Expr} : e.boundIn bound = true ↔
    (∀ name t, e = .parameter name t → name ∈ bound) ∧
      ∀ c ∈ e.children, c.boundIn (e.binders ++ bound) = true := by
  cases e with
  | call m receiver args t =>
      cases receiver <;> simp [boundIn, boundInList_iff, children, binders]
  | record fields => simp [boundIn, boundInFields_iff, children, binders]
  | _ => simp [boundIn, children, binders]

theorem boundIn_call {bound : List String} {m : Method} {receiver : Option Expr}
    {args : List Expr} {t : Ty} (h : (Expr.call m receiver args t).boundIn bound = true) :
    (∀ e, receiver = some e → e.boundIn bound = true) ∧ ∀ e ∈ args, e.boundIn bound = true := by
  obtain ⟨-, hchildren⟩ := boundIn_iff.mp h
  exact ⟨fun e he => hchildren e (by simp [children, he]),
    fun e he => hchildren e (by simp [children, he])⟩

/-- More names may be given. -/
theorem boundIn_mono {e : Expr} {bound bound' : List String} (hsub : bound ⊆ bound')
    (h : e.boundIn bound = true) : e.boundIn bound' = true := by
  induction e using induction_on_children generalizing bound bound' with
  | step e ih =>
      obtain ⟨hname, hchildren⟩ := boundIn_iff.mp h
      refine boundIn_iff.mpr ⟨fun name t he => hsub (hname name t he), fun c hc => ?_⟩
      have hbinders : e.binders ++ bound ⊆ e.binders ++ bound' :=
        List.append_subset.mpr ⟨List.subset_append_left _ _,
          List.Subset.trans hsub (List.subset_append_right _ _)⟩
      exact ih c hc hbinders (hchildren c hc)

end Expr

end DeferredQuery
