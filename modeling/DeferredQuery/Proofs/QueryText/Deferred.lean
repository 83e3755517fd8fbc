import DeferredQuery.Proofs.QueryText.Built

/-!
# Deferred types in query texts

A type is deferred if a store has yet to produce its values or parts of them. Such types enter a
query text with the entity sets and with the names that are declared with them, the captured
variables and the properties of entities. Every other node has its type from its children.
-/

namespace DeferredQuery

/-! ## Deferred types -/

namespace Ty

mutual

/-- Whether a store has yet to produce values of the type, or parts of them. -/
def isDeferred : Ty → Bool
  | .queryable _ => true
  | .nullable t => t.isDeferred
  | .sequence t => t.isDeferred
  | .struct fields => anyDeferred fields
  | .function _ result => result.isDeferred
  | _ => false

def anyDeferred : List (Named Ty) → Bool
  | [] => false
  | ⟨_, t⟩ :: rest => t.isDeferred || anyDeferred rest

end

theorem isDeferred_of_isQueryable {t : Ty} (h : t.isQueryable = true) : t.isDeferred = true := by
  cases t <;> first | rfl | cases h

@[simp] theorem isDeferred_unwrap (t : Ty) : t.unwrap.isDeferred = t.isDeferred := by
  cases t <;> rfl

theorem anyDeferred_iff {fields : List (Named Ty)} :
    anyDeferred fields = true ↔ ∃ field ∈ fields, field.value.isDeferred = true := by
  induction fields with
  | nil => simp [anyDeferred]
  | cons field fields ih => simp [anyDeferred, ih]

/-- Deferred items make a sequence deferred. -/
theorem isDeferred_of_element? {t element : Ty} (h : t.element? = some element)
    (hdeferred : element.isDeferred = true) : t.isDeferred = true := by
  cases t <;> cases h <;> first | rfl | exact hdeferred

/-- A member has a deferred type from the value that it is read from, or as a property. -/
theorem isDeferred_of_member? {property : (entity name : String) → Option Ty} {t u : Ty}
    {name : String} (h : t.member? property name = some u) (hdeferred : u.isDeferred = true) :
    t.isDeferred = true ∨ ∃ entity, property entity name = some u := by
  rw [← isDeferred_unwrap t]
  unfold member? at h
  split at h
  case h_1 => exact .inr ⟨_, h⟩
  case h_2 fields heq =>
      rw [heq]
      exact .inl (anyDeferred_iff.mpr ⟨_, Named.mem_of_find? h, hdeferred⟩)
  case h_3 | h_4 | h_5 =>
      split at h <;> cases h
      cases hdeferred
  case h_6 | h_7 =>
      cases h
      cases hdeferred
  case h_8 => cases h

end Ty

theorem BinOp.isDeferred_of_resultTy {op : BinOp} {left right : Ty}
    (h : (op.resultTy left right).isDeferred = true) : left.isDeferred = true := by
  unfold resultTy at h
  split at h
  · cases h
  · split at h
    case h_1 | h_2 | h_3 | h_4 => cases h
    case h_5 => rwa [Ty.isDeferred_unwrap] at h

namespace Method

theorem isDeferred_of_resolveStatic? {owner name : String} {args : List Ty} {m : Method} {t : Ty}
    (h : resolveStatic? owner name args = some (m, t)) (hdeferred : t.isDeferred = true) :
    ∃ a ∈ args, a.isDeferred = true := by
  unfold resolveStatic? at h
  split at h
  · cases h
    cases hdeferred
  · cases h
    exact ⟨t, List.mem_singleton.mpr rfl, hdeferred⟩
  all_goals
    cases h
    try cases hdeferred

theorem isDeferred_of_resolveInstance? {receiver : Ty} {name : String} {args : List Ty}
    {m : Method} {t : Ty} (h : resolveInstance? receiver name args = some (m, t)) :
    t.isDeferred = false := by
  unfold resolveInstance? at h
  split at h <;> cases h <;> rfl

end Method

namespace QueryText

theorem isDeferred_of_producedTy {e : Expr} (h : (producedTy e).isDeferred = true) :
    e.ty.isDeferred = true := by
  cases e <;> exact h

theorem isDeferred_of_sequenceLike {receiver item element : Ty}
    (hitem : receiver.element? = some item)
    (h : (sequenceLike receiver element).isDeferred = true) :
    receiver.isDeferred = true ∨ element.isDeferred = true := by
  cases receiver <;> cases hitem
  · exact .inr h
  · exact .inl rfl

/-- What an operator gives has a deferred type from the operator's source or arguments. -/
theorem isDeferred_of_operatorTy {operator : String} {receiver element : Ty} {args : List Expr}
    (helement : receiver.element? = some element)
    (h : (operatorTy operator receiver element args).isDeferred = true) :
    receiver.isDeferred = true ∨ ∃ a ∈ args, a.ty.isDeferred = true := by
  have hselected : ∀ i : Nat,
      (sequenceLike receiver ((args[i]?.map producedTy).getD .unknown)).isDeferred = true →
        receiver.isDeferred = true ∨ ∃ a ∈ args, a.ty.isDeferred = true := by
    intro i hi
    rcases isDeferred_of_sequenceLike helement hi with hreceiver | hitem
    · exact .inl hreceiver
    cases harg : args[i]? with
    | none =>
        rw [harg] at hitem
        cases hitem
    | some a =>
        rw [harg] at hitem
        exact .inr ⟨a, List.mem_of_getElem? harg, isDeferred_of_producedTy hitem⟩
  unfold operatorTy at h
  split at h
  case h_1 => exact hselected 0 h
  case h_2 => exact hselected 3 h
  case h_3 | h_4 => cases h
  case h_5 | h_6 | h_7 => exact .inl (Ty.isDeferred_of_element? helement h)
  case h_8 => exact .inl h

/-! ## Declared names -/

mutual

/-- The variables that a captured scope declares, with those of the scopes nested in it. -/
def declared : Value → List (Named Ty)
  | .closure _ captures => declaredOf captures
  | _ => []

def declaredOf : List (Capture Value) → List (Named Ty)
  | [] => []
  | ⟨name, ty, v⟩ :: rest => ⟨name, ty⟩ :: (declared v ++ declaredOf rest)

end

theorem mem_declaredOf {c : Capture Value} {captures : List (Capture Value)} (h : c ∈ captures) :
    ⟨c.name, c.ty⟩ ∈ declaredOf captures := by
  induction captures with
  | nil => cases h
  | cons d captures ih =>
      rcases List.mem_cons.mp h with rfl | h
      · exact List.mem_cons_self
      · exact List.mem_cons_of_mem _ (List.mem_append_right _ (ih h))

theorem declared_subset_declaredOf {c : Capture Value} {captures : List (Capture Value)}
    (h : c ∈ captures) : declared c.value ⊆ declaredOf captures := by
  induction captures with
  | nil => cases h
  | cons d captures ih =>
      rcases List.mem_cons.mp h with rfl | h
      · exact fun x hx => List.mem_cons_of_mem _ (List.mem_append_left _ hx)
      · exact fun x hx => List.mem_cons_of_mem _ (List.mem_append_right _ (ih h hx))

/-- A property of an entity or a captured variable is declared with the type. -/
def Env.Declares (env : Env) (x : Named Ty) : Prop :=
  (∃ entity, env.names.property entity x.name = some x.value) ∨
    ∃ c, env.captured = some c ∧ x ∈ declaredOf c.captures

/-! ## Nodes -/

/-- How a query text comes to a node, as far as entity sets and deferred types go. -/
inductive Env.Typed (env : Env) : Expr → Prop
  | literal (v : Value) (t : Ty) : v.roots = [] → t.isDeferred = false → Typed env (.constant v t)
  | entitySet (root : SetRef) : Typed env (.const (.query root))
  | captured (c : Closure) : env.captured = some c →
    Typed env (.const (.closure c.className c.captures))
  | parameter (name : String) (t : Ty) : Typed env (.parameter name t)
  | declared (target : Expr) (name : String) (t : Ty) : env.Declares ⟨name, t⟩ →
    Typed env (.member target name t)
  | derived (e : Expr) : (∀ v t, e ≠ .constant v t) →
    (e.ty.isDeferred = true → ∃ c ∈ e.children, c.ty.isDeferred = true) → Typed env e

def Env.WellTyped (env : Env) (e : Expr) : Prop := ∀ n ∈ e.nodes, env.Typed n

namespace Env.WellTyped

variable {env : Env}

theorem intro {e : Expr} (h : env.Typed e) (hc : ∀ c ∈ e.children, env.WellTyped c) :
    env.WellTyped e := by
  intro n hn
  rcases Expr.mem_nodes.mp hn with rfl | ⟨c, hmem, hn⟩
  · exact h
  · exact hc c hmem n hn

theorem child {c e : Expr} (h : env.WellTyped e) (hc : c ∈ e.children) : env.WellTyped c :=
  fun n hn => h n (Expr.mem_nodes_of_child hc hn)

theorem leaf {e : Expr} (h : env.Typed e) (hleaf : e.children = []) : env.WellTyped e :=
  intro h (by simp [hleaf])

/-- A node with one child has a deferred type only if the child has one. -/
theorem of_child {c e : Expr} (hchildren : e.children = [c]) (h : env.WellTyped c)
    (ht : e.ty.isDeferred = true → c.ty.isDeferred = true) : env.WellTyped e := by
  refine intro (.derived e ?_ fun hdeferred => ?_) ?_
  · rintro v t rfl
    cases hchildren
  · exact ⟨c, by simp [hchildren], ht hdeferred⟩
  · simpa [hchildren] using h

theorem convert {operand : Expr} (h : env.WellTyped operand) {t : Ty}
    (ht : t.isDeferred = true → operand.ty.isDeferred = true) :
    env.WellTyped (.convert operand t) := of_child rfl h ht

theorem binary {left right : Expr} (hl : env.WellTyped left) (hr : env.WellTyped right)
    (op : BinOp) : env.WellTyped (.binary op left right) := by
  refine intro (.derived _ (by simp) fun hdeferred => ?_) (by simp [Expr.children, hl, hr])
  exact ⟨left, List.mem_cons_self, BinOp.isDeferred_of_resultTy hdeferred⟩

/-- Bringing an operand to another type adds a conversion at most. -/
theorem combine {left right : Expr} (hl : env.WellTyped left) (hr : env.WellTyped right)
    (op : BinOp) : env.WellTyped (combine op left right) := by
  unfold QueryText.combine
  split
  · exact hl.binary hr op
  split
  · rename_i hty
    refine hl.binary (hr.convert fun h => ?_) op
    rwa [hty] at h
  split
  · rename_i hty
    refine (hl.convert fun h => ?_).binary hr op
    rwa [hty] at h
  split
  · exact (hl.convert (t := .float) nofun).binary hr op
  · exact hl.binary (hr.convert (t := .float) nofun) op
  · exact hl.binary hr op

theorem lambda {body : Expr} (h : env.WellTyped body) (params : List Binder) :
    env.WellTyped (.lambda params body) := of_child rfl h id

theorem record {fields : List (Named Expr)} (h : ∀ field ∈ fields, env.WellTyped field.value) :
    env.WellTyped (.record fields) := by
  have hchildren : ∀ c ∈ (Expr.record fields).children, env.WellTyped c :=
    List.forall_mem_map.mpr h
  refine intro (.derived _ (by simp) fun hdeferred => ?_) hchildren
  obtain ⟨t, ht, hdeferred⟩ := Ty.anyDeferred_iff.mp hdeferred
  rw [Expr.fieldTys_eq_map] at ht
  obtain ⟨field, hfield, rfl⟩ := List.mem_map.mp ht
  exact ⟨field.value, List.mem_map_of_mem hfield, hdeferred⟩

theorem declared {target : Expr} (h : env.WellTyped target) {name : String} {t : Ty}
    (ht : env.Declares ⟨name, t⟩) : env.WellTyped (.member target name t) :=
  intro (.declared target name t ht) (by simpa [Expr.children] using h)

theorem literal {v : Value} (h : v.isBasic = true) : env.WellTyped (.const v) := by
  cases v with
  | null | bool | int | float | string => exact leaf (.literal _ _ rfl rfl) rfl
  | _ => cases h

theorem member {target : Expr} (h : env.WellTyped target) {name : String} {t : Ty}
    (ht : target.ty.member? env.names.property name = some t) :
    env.WellTyped (.member target name t) := by
  by_cases hdeclared : env.Declares ⟨name, t⟩
  · exact h.declared hdeclared
  · refine of_child rfl h fun hdeferred => ?_
    exact (Ty.isDeferred_of_member? ht hdeferred).resolve_right fun hproperty =>
      hdeclared (.inl hproperty)

theorem unary {operand : Expr} (h : env.WellTyped operand) (op : UnOp) :
    env.WellTyped (.unary op operand) := by
  cases op with
  | neg => exact of_child rfl h id
  | not => exact of_child rfl h nofun

theorem static {args : List Expr} (h : ∀ a ∈ args, env.WellTyped a) {owner name : String}
    {m : Method} {t : Ty}
    (hresolve : Method.resolveStatic? owner name (args.map Expr.ty) = some (m, t)) :
    env.WellTyped (.call m none args t) := by
  refine intro (.derived _ (by simp) fun hdeferred => ?_) (by simpa [Expr.children] using h)
  obtain ⟨_, harg, hdeferred⟩ := Method.isDeferred_of_resolveStatic? hresolve hdeferred
  obtain ⟨a, ha, rfl⟩ := List.mem_map.mp harg
  exact ⟨a, ha, hdeferred⟩

theorem scalar {receiver : Expr} {args : List Expr} (hreceiver : env.WellTyped receiver)
    (h : ∀ a ∈ args, env.WellTyped a) {name : String} {m : Method} {t : Ty}
    (hresolve : Method.resolveInstance? receiver.ty name (args.map Expr.ty) = some (m, t)) :
    env.WellTyped (.call m (some receiver) args t) := by
  refine intro (.derived _ (by simp) fun hdeferred => ?_)
    (by simpa [Expr.children] using And.intro hreceiver h)
  cases (Method.isDeferred_of_resolveInstance? hresolve).symm.trans hdeferred

theorem operator {receiver : Expr} {args : List Expr} (hreceiver : env.WellTyped receiver)
    (h : ∀ a ∈ args, env.WellTyped a) (name : String) {element : Ty}
    (helement : receiver.ty.element? = some element) :
    env.WellTyped (.call (.operator name) none (receiver :: args)
      (operatorTy name receiver.ty element args)) := by
  refine intro (.derived _ (by simp) fun hdeferred => ?_)
    (by simpa [Expr.children] using And.intro hreceiver h)
  rcases isDeferred_of_operatorTy helement hdeferred with hdeferred | ⟨a, ha, hdeferred⟩
  · exact ⟨receiver, List.mem_cons_self, hdeferred⟩
  · exact ⟨a, List.mem_cons_of_mem _ ha, hdeferred⟩

end Env.WellTyped

/-! ## Texts -/

/-- The read of a nested scope is declared as well, so the target of each further read is well
typed. -/
theorem wellTyped_of_path {env : Env} {e : Expr} {v : Value} (h : env.Path e v) :
    env.WellTyped e ∧ ∀ x ∈ declared v, env.Declares x := by
  induction h with
  | root hc => exact ⟨.leaf (.captured _ hc) rfl, fun x hx => .inr ⟨_, hc, hx⟩⟩
  | read _ hc ih =>
      obtain ⟨htarget, hdeclared⟩ := ih
      exact ⟨htarget.declared (hdeclared _ (mem_declaredOf hc)),
        fun x hx => hdeclared x (declared_subset_declaredOf hc hx)⟩

/-- Scopes need no invariant: a parameter may have any type, since nothing that has parameters is
evaluated before the query runs. -/
theorem wellTyped_of_built {env : Env} {e : Expr} (h : env.Built e) : env.WellTyped e := by
  induction h with
  | literal hv => exact .literal hv
  | entitySet root => exact .leaf (.entitySet root) rfl
  | captured hpath => exact (wellTyped_of_path hpath).1
  | parameter name t => exact .leaf (.parameter name t) rfl
  | lambda params _ ih => exact ih.lambda params
  | combined _ _ hcombine ihl ihr => exact hcombine ▸ ihl.combine ihr _
  | unary op _ ih => exact ih.unary op
  | member _ ht ih => exact ih.member ht
  | static _ hresolve ih => exact .static ih hresolve
  | scalar _ _ hresolve ihr ih => exact ihr.scalar ih hresolve
  | operator name _ _ helement ihr ih => exact ihr.operator ih name helement
  | record _ ih => exact .record ih

/-- All nodes of a query text's expression are of the known kinds. -/
theorem wellTyped_parse {env : Env} {text : String} {e : Expr} (h : parse env text = .ok e) :
    env.WellTyped e :=
  wellTyped_of_built (built_parse h)

end QueryText

end DeferredQuery
