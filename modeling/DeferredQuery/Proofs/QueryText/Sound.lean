import DeferredQuery.Proofs.Eval.Fits
import DeferredQuery.Proofs.QueryText.Built
import DeferredQuery.Proofs.Shape.Parts

/-!
# The values of a query text fit their types

A query text takes its types from its captured variables and from the operations on them. Where the
captured values fit the types that they are declared with, whatever else is computed before the
query runs fits its static type as well.
-/

namespace DeferredQuery

open Value (Fits)

namespace Eval

/-! ## Results -/

abbrev Ensures {α : Type} (Q : α → Prop) (m : EvalM α) : Prop := Meets (fun _ => True) Q m

section Ensures

variable {α : Type} {Q : α → Prop}

theorem Ensures.throw (e : EvalError) : Ensures Q (throw e : EvalM α) := Meets.throw trivial

theorem Ensures.lift {x : Except EvalError α} (h : ∀ a, x = .ok a → Q a) :
    Ensures Q (liftM x : EvalM α) := by
  refine Meets.lift ?_
  cases x with
  | ok a => exact h a rfl
  | error e => trivial

theorem Ensures.bind {β : Type} {R : β → Prop} {m : EvalM α} {f : α → EvalM β} (hm : Ensures Q m)
    (hf : ∀ a, Q a → Ensures R (f a)) : Ensures R (m >>= f) := Meets.bind hm hf

theorem Ensures.of_ok {m : EvalM α} (h : Ensures Q m) {a : α} {n k : Nat} (hm : m n = .ok (a, k)) :
    Q a := by
  have hn := h n
  rwa [hm] at hn

theorem ensures_any (m : EvalM α) : Ensures (fun _ => True) m := by
  intro n
  cases m n <;> trivial

end Ensures

/-- Without a source of rows items come from lists alone. -/
theorem ensures_items {oracle : Oracle} {t : Ty} {v : Value} (h : Fits t v) :
    Ensures (fun vs => Fits t (.list vs)) (liftM ((Env.closed oracle).items v)) := by
  refine .lift fun vs hitems => ?_
  cases v with
  | list items =>
      cases hitems
      exact h
  | _ => cases hitems

/-- No sort ends in a call of another kind. -/
theorem ensures_ordered_of_not_sorts {Q : List Value → Prop} {m : Method}
    (h : (startsOrder m || extendsOrder m) = false) {env : Env} {scope : Scope}
    {keys : List (Items.Key EvalM)} {receiver : Option Expr} {args : List Expr} {t : Ty} :
    Ensures Q (ordered env scope keys (.call m receiver args t)) := by
  obtain ⟨hstarts, hextends⟩ := Bool.or_eq_false_iff.mp h
  rw [ordered.eq_def]
  split
  · rename_i heq
    cases heq
    simp only [hstarts, hextends]
    exact .throw _
  · exact .throw _
  · exact .throw _

/-- A call that sorts gives the items of the sorts that end in it. -/
theorem operator_of_sorts {m : Method} (h : (startsOrder m || extendsOrder m) = true)
    (receiver : Option Expr) (t : Ty) (env : Env) (scope : Scope) (source selector : Expr) :
    operator env scope m [source, selector] =
      ordered env scope [] (.call m receiver [source, selector] t) >>= fun vs =>
        pure (.list vs) := by
  simp only [operator, ordered, h, if_true]
  split
  · rfl
  · have hstarts : startsOrder m = true := by simp_all
    simp only [hstarts, if_true, bind_assoc]

end Eval

namespace Method

/-- The scalar functions are no operators, nor do they have the name of one that sorts. -/
theorem not_operator_of_resolve {name : String} {tys : List Ty} {m : Method} {t : Ty}
    (h : (∃ owner, resolveStatic? owner name tys = some (m, t)) ∨
      ∃ receiver, resolveInstance? receiver name tys = some (m, t)) :
    m.isOperator = false ∧ (Eval.startsOrder m || Eval.extendsOrder m) = false := by
  unfold resolveStatic? resolveInstance? at h
  rcases h with ⟨owner, h⟩ | ⟨receiver, h⟩ <;> split at h <;> cases h <;>
    exact ⟨by decide, by decide⟩

end Method

namespace QueryText

open Eval (Ensures EvalM Oracle Scope)

/-! ## Methods -/

section Methods

variable {oracle : Oracle} {tys : List Ty} {vs : List Value} {name : String} {m : Method} {t : Ty}

/-- One case per function with a static owner. -/
theorem ensures_static {owner : String} (h : Method.resolveStatic? owner name tys = some (m, t))
    (hvs : List.Forall₂ Fits tys vs) :
    Ensures (Fits t) ((Eval.Env.closed oracle).call m none vs) := by
  unfold Method.resolveStatic? at h
  split at h
  case h_1 =>
      cases h
      rcases hvs with _ | ⟨_, _ | ⟨_, ⟨⟩⟩⟩
      refine .lift fun w hw => ?_
      simp only [Method.apply, Method.mathPow] at hw
      split at hw <;> cases hw
      · exact .float _
      · exact .null
  case h_2 =>
      cases h
      rcases hvs with _ | ⟨hv, ⟨⟩⟩
      refine .lift fun w hw => ?_
      cases hv <;> simp only [Method.apply, Method.mathAbs] at hw <;> try cases hw
      · split at hw <;> cases hw
        exact .int _
      · exact .float _
  case h_3 =>
      cases h
      cases hvs
      exact fun _ => .uuid _
  case h_4 | h_5 =>
      cases h
      cases hvs
      exact fun _ => .instant _
  case h_6 => cases h

/-- A method of texts gives a text or a truth value. -/
theorem fits_of_receiver {v w : Value} (h : m.apply (some v) vs = .ok w) :
    (m.name = "ToUpper" ∨ m.name = "ToLower") ∧ Fits .string w ∨
      (m.name = "Contains" ∨ m.name = "StartsWith") ∧ Fits .bool w := by
  unfold Method.apply at h
  split at h
  case h_5 | h_6 =>
      cases h
      exact .inl ⟨by simp [*], .string _⟩
  case h_7 | h_8 =>
      cases h
      exact .inr ⟨by simp [*], .bool _⟩
  all_goals simp_all

theorem ensures_scalar {receiver : Ty} {v : Value}
    (h : Method.resolveInstance? receiver name tys = some (m, t)) :
    Ensures (Fits t) ((Eval.Env.closed oracle).call m (some v) vs) := by
  rw [Eval.call_eq_apply (by simp)]
  refine .lift fun w happly => ?_
  unfold Method.resolveInstance? at h
  have hw := fits_of_receiver happly
  split at h <;> cases h
  · simpa [Method.toUpper] using hw
  · simpa [Method.toLower] using hw
  · simpa [Method.contains] using hw
  · simpa [Method.startsWith] using hw

end Methods

/-! ## Expressions -/

/-- What is computed of the expression before the query runs fits its type: its value, its results
as a lambda and the items of the sorts that end in it. -/
structure Sound (oracle : Oracle) (e : Expr) : Prop where
  value : ∀ scope, Ensures (Fits e.ty) (Eval.value (.closed oracle) scope e)
  invoke : ∀ scope args, Ensures (Fits (producedTy e)) (Eval.invoke (.closed oracle) scope args e)
  ordered : ∀ scope keys, Ensures (fun vs => Fits e.ty (.list vs))
    (Eval.ordered (.closed oracle) scope keys e)

namespace Sound

variable {oracle : Oracle}

/-- The expressions that are neither lambdas nor sorts. -/
theorem of_value {e : Expr} (hlambda : e.isLambda = false)
    (hcall : ∀ m receiver args t, e ≠ .call m receiver args t)
    (h : ∀ scope, Ensures (Fits e.ty) (Eval.value (.closed oracle) scope e)) : Sound oracle e where
  value := h
  invoke scope args := by
    cases e with
    | lambda => cases hlambda
    | _ => exact .throw _
  ordered scope keys := by
    cases e with
    | call m receiver args t => exact (hcall m receiver args t rfl).elim
    | _ => exact .throw _

theorem lambda {body : Expr} (h : Sound oracle body) (params : List Binder) :
    Sound oracle (.lambda params body) where
  value _ := .throw _
  invoke scope args := by
    simp only [Eval.invoke]
    split
    · exact h.value _
    · exact .throw _
  ordered _ _ := .throw _

theorem unary {operand : Expr} (h : Sound oracle operand) (op : UnOp) :
    Sound oracle (.unary op operand) := by
  refine .of_value rfl (by simp) fun scope => (h.value scope).bind fun v hv => .lift fun w hw => ?_
  cases op with
  | neg => exact hv.negated hw
  | not => exact Value.fits_not hw

theorem member {property : (entity name : String) → Option Ty} {target : Expr} {name : String}
    {t : Ty} (h : Sound oracle target) (ht : target.ty.member? property name = some t) :
    Sound oracle (.member target name t) :=
  .of_value rfl (by simp) fun scope => (h.value scope).bind fun _ hv =>
    .lift fun _ hw => hv.member ht hw

/-- An operation on two operands of which something is known. -/
theorem binary {op : BinOp} (hop : op.isLogical = false) {left right : Expr} {P Q : Value → Prop}
    (hl : ∀ scope, Ensures P (Eval.value (.closed oracle) scope left))
    (hr : ∀ scope, Ensures Q (Eval.value (.closed oracle) scope right))
    (h : ∀ a b w, P a → Q b → op.apply a b = .ok w → Fits (op.resultTy left.ty right.ty) w) :
    Sound oracle (.binary op left right) := by
  refine .of_value rfl (by simp) fun scope => ?_
  simp only [Eval.value, hop]
  exact (hl scope).bind fun a ha => (hr scope).bind fun b hb => Ensures.lift fun w hw =>
    h a b w ha hb hw

theorem logical {op : BinOp} (hop : op.isLogical = true) (left right : Expr) :
    Sound oracle (.binary op left right) := by
  refine .of_value rfl (by simp) fun scope => ?_
  have hty : (Expr.binary op left right).ty = .bool := by simp [Expr.ty, BinOp.resultTy, hop]
  rw [hty]
  simp only [Eval.value, if_pos hop]
  refine (Eval.ensures_any _).bind fun v _ => (Eval.ensures_any _).bind fun a _ => ?_
  cases op.decided? a with
  | some r => exact .pure (Fits.bool r)
  | none =>
      exact (Eval.ensures_any _).bind fun w _ => (Eval.ensures_any _).bind fun b _ =>
        .pure (Fits.bool b)

/-- Operands that are brought to one type fit the type of the operation. An optional operand is null
as long as nothing is fetched, so that it does not matter what the other one is converted to. -/
theorem combine {left right : Expr} (hl : Sound oracle left) (hr : Sound oracle right)
    (op : BinOp) : Sound oracle (combine op left right) := by
  have hwiden : ∀ {e : Expr}, Sound oracle e → e.ty = .int → ∀ scope,
      Ensures (Fits .float) (Eval.value (.closed oracle) scope (.convert e .float)) := by
    intro e he hty scope
    exact (he.value scope).bind fun v hv => .pure (Fits.convert_float (hty ▸ hv))
  unfold QueryText.combine
  split
  · exact logical ‹_› left right
  rename_i hop
  rw [Bool.not_eq_true] at hop
  split
  · rename_i hty
    refine binary hop hl.value (fun _ => Eval.ensures_any _) fun a b w ha _ => ?_
    rw [hty] at ha
    exact Value.fits_apply_null (.inl ha.eq_null_of_nullable)
  split
  · rename_i hty
    refine binary hop (fun _ => Eval.ensures_any _) hr.value fun a b w _ hb => ?_
    rw [hty] at hb
    exact Value.fits_apply_null (.inr hb.eq_null_of_nullable)
  split
  · rename_i hleft hright
    exact binary hop (hwiden hl hleft) hr.value fun a b w ha hb => ha.binary hb hop
  · rename_i hleft hright
    exact binary hop hl.value (hwiden hr hright) fun a b w ha hb => ha.binary hb hop
  · exact binary hop hl.value hr.value fun a b w ha hb => ha.binary hb hop

theorem ensures_values {es : List Expr} (h : ∀ e ∈ es, Sound oracle e) (scope : Scope) :
    Ensures (List.Forall₂ Fits (es.map Expr.ty)) (Eval.values (.closed oracle) scope es) := by
  induction es with
  | nil => exact .pure .nil
  | cons e es ih =>
      obtain ⟨he, hes⟩ := List.forall_mem_cons.mp h
      exact (he.value scope).bind fun v hv => (ih hes).bind fun vs hvs => .pure (.cons hv hvs)

/-- The methods that are no operators. -/
theorem method {m : Method} {receiver : Option Expr} {args : List Expr} {t : Ty}
    (hm : m.isOperator = false ∧ (Eval.startsOrder m || Eval.extendsOrder m) = false)
    (h : ∀ scope, Ensures (Fits t) (Eval.value (.closed oracle) scope (.call m receiver args t))) :
    Sound oracle (.call m receiver args t) where
  value := h
  invoke _ _ := .throw _
  ordered _ _ := Eval.ensures_ordered_of_not_sorts hm.2

theorem static {owner name : String} {args : List Expr} {m : Method} {t : Ty}
    (h : ∀ a ∈ args, Sound oracle a)
    (hresolve : Method.resolveStatic? owner name (args.map Expr.ty) = some (m, t)) :
    Sound oracle (.call m none args t) := by
  have hm := Method.not_operator_of_resolve (.inl ⟨owner, hresolve⟩)
  refine method hm fun scope => ?_
  simp only [Eval.value, hm.1]
  exact (ensures_values h scope).bind fun vs hvs => ensures_static hresolve hvs

theorem scalar {receiver : Expr} {name : String} {args : List Expr} {m : Method} {t : Ty}
    (hresolve : Method.resolveInstance? receiver.ty name (args.map Expr.ty) = some (m, t)) :
    Sound oracle (.call m (some receiver) args t) := by
  have hm := Method.not_operator_of_resolve (.inr ⟨receiver.ty, hresolve⟩)
  refine method hm fun scope => ?_
  simp only [Eval.value, hm.1]
  exact (Eval.ensures_any _).bind fun v _ => (Eval.ensures_any _).bind fun vs _ =>
    ensures_scalar hresolve

/-- Fields are evaluated in their order, each to a value of its type. -/
theorem record {fields : List (Named Expr)} (h : ∀ field ∈ fields, Sound oracle field.value) :
    Sound oracle (.record fields) := by
  have hfields : ∀ scope, Ensures
      (List.Forall₂ (fun x y => x.name = y.name ∧ Fits x.value y.value) (Expr.fieldTys fields))
      (Eval.fieldValues (.closed oracle) scope fields) := by
    intro scope
    induction fields with
    | nil => exact .pure .nil
    | cons field fields ih =>
        obtain ⟨hfield, hfields⟩ := List.forall_mem_cons.mp h
        exact (hfield.value scope).bind fun v hv => (ih hfields).bind fun vs hvs =>
          .pure (.cons ⟨rfl, hv⟩ hvs)
  exact .of_value rfl (by simp) fun scope => (hfields scope).bind fun vs hvs =>
    .pure (Value.fits_record hvs)

end Sound

/-! ## Operators -/

section Operators

variable {name : String} {element : Ty} {args : List Expr} {items : List Value} {m : Method}

/-- The operators whose result has another type than their source. -/
def retyping : List String :=
  ["Select", "Join", "Count", "Any", "First", "FirstOrDefault", "Single"]

theorem operatorTy_eq_receiver {receiver : Ty} (h : name ∉ retyping) :
    operatorTy name receiver element args = receiver := by
  unfold operatorTy
  split
  case h_8 => rfl
  all_goals simp [retyping] at h

theorem not_mem_retyping_of_sorts
    (h : (Eval.startsOrder (.operator name) || Eval.extendsOrder (.operator name)) = true) :
    name ∉ retyping := by
  simp only [Eval.startsOrder, Eval.extendsOrder, Method.operator, Bool.or_eq_true, beq_iff_eq] at h
  rcases h with (rfl | rfl) | rfl | rfl <;> decide

/-- An operator that keeps the type of its source gives a list of such items. -/
theorem fits_of_not_mem_retyping (h : name ∉ retyping) {t : Ty} (hitems : Fits t (.list items)) :
    Fits (operatorTy name t element args) (.list items) :=
  (operatorTy_eq_receiver h).symm ▸ hitems

/-- Counts and truth values aside, the result is an item or all of them. -/
theorem fits_collapse (h : ∀ v ∈ items, Fits element v) {w : Value}
    (hw : Items.collapse (.operator name) items = .ok w) :
    Fits (operatorTy name (.sequence element) element args) w := by
  unfold Items.collapse at hw
  split at hw
  case h_7 => cases hw
  all_goals obtain rfl : name = _ := ‹(Method.operator name).name = _›
  case h_1 =>
      cases hw
      exact .list fun v hv => h v (Eval.Items.mem_of_mem_distinctFrom hv)
  case h_2 =>
      cases hw
      exact .int _
  case h_3 =>
      cases hw
      exact .bool _
  case h_4 =>
      cases items with
      | nil => cases hw
      | cons v items =>
          cases hw
          exact h _ List.mem_cons_self
  case h_5 =>
      cases hw
      cases items with
      | nil => exact .null
      | cons v items => exact h v List.mem_cons_self
  case h_6 =>
      unfold Items.single at hw
      split at hw <;> cases hw
      exact h _ List.mem_cons_self

/-- An operator with one argument, which it invokes on the items or reads a count from. -/
theorem ensures_apply_one {oracle : Oracle} {a : Expr} (ha : Sound oracle a)
    (hitems : ∀ v ∈ items, Fits element v) (scope : Scope) :
    Ensures (Fits (operatorTy name (.sequence element) element [a]))
      (Eval.apply (.closed oracle) scope (.operator name) items [a]) := by
  have hpasses {vs : List Value} (hname : name ∉ retyping) (hvs : ∀ v ∈ vs, Fits element v) :
      Fits (operatorTy name (.sequence element) element [a]) (.list vs) :=
    fits_of_not_mem_retyping hname (.list hvs)
  have hkept := Eval.Items.meets_keep hitems fun v _ => Eval.ensures_any
    (Eval.invoke (.closed oracle) scope [v] a >>= fun r => liftM r.holds)
  simp only [Eval.apply]
  split
  · rename_i hname
    obtain rfl : name = "Where" := hname
    exact hkept.bind fun vs hvs => .pure (hpasses (by decide) hvs)
  split
  · rename_i hname
    obtain rfl : name = "Select" := hname
    exact (Eval.Items.meets_select hitems fun v _ => ha.invoke scope [v]).bind fun vs hvs =>
      .pure (Fits.list hvs)
  split
  · rename_i hstarts
    have hname : name ∉ retyping := not_mem_retyping_of_sorts (by simp [hstarts])
    exact (Eval.Items.meets_order (fun _ _ _ _ => Eval.ensures_any _) hitems).bind fun vs hvs =>
      .pure (hpasses hname hvs)
  split
  · rename_i hname
    obtain rfl : name = "Skip" := hname
    exact (Eval.ensures_any _).bind fun v _ => (Eval.ensures_any _).bind fun n _ =>
      .pure (hpasses (by decide) fun w hw => hitems w (List.mem_of_mem_drop hw))
  split
  · rename_i hname
    obtain rfl : name = "Take" := hname
    exact (Eval.ensures_any _).bind fun v _ => (Eval.ensures_any _).bind fun n _ =>
      .pure (hpasses (by decide) fun w hw => hitems w (List.mem_of_mem_take hw))
  split
  · exact hkept.bind fun vs hvs => Ensures.lift fun w hw => fits_collapse hvs hw
  split
  · rename_i hname
    have hname : name ∉ retyping := by
      simp only [Items.passing, Method.operator, List.mem_cons, List.not_mem_nil, or_false] at hname
      rcases hname with rfl | rfl | rfl <;> decide
    exact .pure (hpasses hname hitems)
  · exact .throw _

/-- The results of a join fit the type that its last argument produces. -/
theorem ensures_apply_join {oracle : Oracle} {inner outerKey innerKey result : Expr}
    (hresult : Sound oracle result) (hitems : ∀ v ∈ items, Fits element v) (scope : Scope) :
    let args := [inner, outerKey, innerKey, result]
    Ensures (Fits (operatorTy name (.sequence element) element args))
      (Eval.apply (.closed oracle) scope (.operator name) items args) := by
  simp only [Eval.apply]
  split
  · rename_i hname
    obtain rfl : name = "Join" := hname
    refine (Eval.ensures_any _).bind fun v _ => (Eval.ensures_any _).bind fun innerItems _ => ?_
    have hpairs := fun v w (_ : Fits element v) (_ : True) => hresult.invoke scope [v, w]
    exact (Eval.Items.meets_join hpairs (fun _ _ => Eval.ensures_any _)
      (fun _ _ => Eval.ensures_any _) hitems fun _ _ => trivial).bind fun vs hvs =>
        .pure (Fits.list hvs)
  · exact .throw _

theorem ensures_apply {oracle : Oracle} (hitems : ∀ v ∈ items, Fits element v)
    (hargs : ∀ a ∈ args, Sound oracle a) (scope : Scope) :
    Ensures (Fits (operatorTy name (.sequence element) element args))
      (Eval.apply (.closed oracle) scope (.operator name) items args) := by
  match args, hargs with
  | [], _ => exact .lift fun w hw => fits_collapse hitems hw
  | [a], hargs => exact ensures_apply_one (hargs a (by simp)) hitems scope
  | [_, _], _ => exact .throw _
  | [_, _, _], _ => exact .throw _
  | [_, _, _, result], hargs => exact ensures_apply_join (hargs result (by simp)) hitems scope
  | _ :: _ :: _ :: _ :: _ :: _, _ => exact .throw _

/-- A sort gives the items of its source in another order. -/
theorem ensures_order {t : Ty} (h : Fits t (.list items)) (keys : List (Items.Key EvalM)) :
    Ensures (fun vs => Fits t (.list vs)) (Items.order keys items) := by
  obtain ⟨element, rfl, hitems⟩ := h.of_list
  exact (Eval.Items.meets_order (fun _ _ _ _ => Eval.ensures_any _) hitems).mono fun vs hvs =>
    .list hvs

theorem ensures_ordered {oracle : Oracle} {source selector : Expr} (h : Sound oracle source)
    (t : Ty) (scope : Scope) (keys : List (Items.Key EvalM)) :
    Ensures (fun vs => Fits source.ty (.list vs))
      (Eval.ordered (.closed oracle) scope keys (.call m none [source, selector] t)) := by
  simp only [Eval.ordered]
  split
  · exact h.ordered scope _
  split
  · exact (h.value scope).bind fun v hv => (Eval.ensures_items hv).bind fun items hitems =>
      ensures_order hitems _
  · exact .throw _

/-- One case per operator that a query text can name. -/
theorem Sound.operator {oracle : Oracle} {receiver : Expr} (hreceiver : Sound oracle receiver)
    (hargs : ∀ a ∈ args, Sound oracle a) (name : String)
    (helement : receiver.ty.element? = some element) :
    Sound oracle (.call (.operator name) none (receiver :: args)
      (operatorTy name receiver.ty element args)) where
  value scope := by
    rw [Eval.value_operator (by simp [Method.isOperator, Method.operator])]
    by_cases hsorts :
      (Eval.startsOrder (.operator name) || Eval.extendsOrder (.operator name)) = true
    · rcases args with _ | ⟨selector, _ | _⟩
      case cons.nil =>
          rw [Eval.operator_of_sorts hsorts none (operatorTy name receiver.ty element [selector])]
          exact (ensures_ordered hreceiver _ scope []).bind fun vs hvs =>
            .pure (fits_of_not_mem_retyping (not_mem_retyping_of_sorts hsorts) hvs)
      all_goals
        simp only [Eval.operator.eq_def, hsorts]
        exact .throw _
    · simp only [Eval.operator.eq_def, hsorts]
      refine (hreceiver.value scope).bind fun v hv =>
        (Eval.ensures_items hv).bind fun items hitems => ?_
      obtain ⟨_, hty, hitems⟩ := hitems.of_list
      rw [hty] at helement ⊢
      cases helement
      exact ensures_apply hitems hargs scope
  invoke _ _ := .throw _
  ordered scope keys := by
    by_cases hsorts :
      (Eval.startsOrder (.operator name) || Eval.extendsOrder (.operator name)) = true
    · rcases args with _ | ⟨selector, _ | _⟩
      case cons.nil =>
          exact (ensures_ordered hreceiver _ scope keys).mono fun vs hvs =>
            fits_of_not_mem_retyping (not_mem_retyping_of_sorts hsorts) hvs
      all_goals exact .throw _
    · exact Eval.ensures_ordered_of_not_sorts (Bool.eq_false_iff.mpr hsorts)

end Operators

/-! ## Texts -/

/-- The captured variables fit the types that they are declared with. -/
def Env.Faithful (env : Env) : Prop :=
  ∀ c, env.captured = some c → Fits (.closure c.className) (.closure c.className c.captures)

theorem capture_find?_of_mem {captures : List (Capture Value)} {c : Capture Value}
    (hnames : (captures.map Capture.name).Nodup) (hc : c ∈ captures) :
    Capture.find? c.name captures = some c := by
  induction captures with
  | nil => cases hc
  | cons d captures ih =>
      obtain ⟨hd, hnames⟩ := List.nodup_cons.mp hnames
      rw [Capture.find?]
      rcases List.mem_cons.mp hc with rfl | hc
      · simp
      · rw [if_neg fun hname : d.name = c.name => hd (hname ▸ List.mem_map_of_mem hc)]
        exact ih hnames hc

theorem closed_of_combine {op : BinOp} {left right : Expr}
    (h : (Closedness.analyze (combine op left right)).closed = true) :
    (Closedness.analyze left).closed = true ∧ (Closedness.analyze right).closed = true := by
  unfold combine at h
  repeat' split at h
  all_goals simpa [Closedness.analyze] using h

section Texts

variable {env : Env} (henv : env.Faithful)

include henv

theorem evaluates_of_path {e : Expr} {v : Value} (h : env.Path e v) :
    Fits e.ty v ∧ ∀ outer scope, Eval.value outer scope e = pure v := by
  induction h with
  | root hc => exact ⟨henv _ hc, fun _ _ => rfl⟩
  | @read target className captures c _ hc ih =>
      obtain ⟨hnames, hcaptures⟩ := ih.1.of_closure
      refine ⟨hcaptures c hc, fun outer scope => ?_⟩
      have hread : (Value.closure className captures).member c.name = .ok c.value := by
        simp [Value.member, Value.storedMember, capture_find?_of_mem hnames hc]
      rw [Eval.value, ih.2, pure_bind, hread]
      rfl

/-- What is computed of a closed expression fits its type. -/
theorem sound_of_closed {e : Expr} (h : env.Built e)
    (hclosed : (Closedness.analyze e).closed = true) (oracle : Oracle) : Sound oracle e := by
  have hchild {c e : Expr} (h : (Closedness.analyze e).closed = true) (hc : c ∈ e.children) :
      (Closedness.analyze c).closed = true := (Extract.closed_children h).2 c hc
  induction h with
  | @literal v hv =>
      refine .of_value rfl (by simp [Expr.const]) fun _ => .pure (?_ : Fits v.ty v)
      cases v with
      | null => exact .null
      | bool b => exact .bool b
      | int n => exact .int n
      | float x => exact .float x
      | string s => exact .string s
      | _ => cases hv
  | entitySet root => cases hclosed
  | captured hpath =>
      obtain ⟨hfits, heval⟩ := evaluates_of_path henv hpath
      refine .of_value (by cases hpath <;> rfl) (by cases hpath <;> simp [Expr.const])
        fun scope => ?_
      rw [heval]
      exact .pure hfits
  | parameter name t => cases hclosed
  | lambda params _ ih => exact (ih (hchild hclosed (by simp [Expr.children]))).lambda params
  | combined _ _ hcombine ihl ihr =>
      obtain ⟨hl, hr⟩ := closed_of_combine (hcombine ▸ hclosed)
      exact hcombine ▸ (ihl hl).combine (ihr hr) _
  | unary op _ ih => exact (ih (hchild hclosed (by simp [Expr.children]))).unary op
  | member _ ht ih => exact (ih (hchild hclosed (by simp [Expr.children]))).member ht
  | static _ hresolve ih =>
      exact .static (fun a ha => ih a ha (hchild hclosed ha)) hresolve
  | scalar _ _ hresolve _ _ => exact .scalar hresolve
  | operator name _ _ helement ihr ih =>
      refine (ihr (hchild hclosed List.mem_cons_self)).operator (fun a ha => ?_) name helement
      exact ih a ha (hchild hclosed (List.mem_cons_of_mem _ ha))
  | record _ ih =>
      exact .record fun field hfield =>
        ih field hfield (hchild hclosed (List.mem_map_of_mem hfield))

end Texts

end QueryText

end DeferredQuery
