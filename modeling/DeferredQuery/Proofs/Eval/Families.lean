import DeferredQuery.Proofs.Eval.Follows

/-!
# Evaluation over all oracles

A computation for each oracle, put together from parts that are computed over the same oracle. What
passes from the parts to the whole holds of every evaluation, if it holds of each call that draws.
-/

namespace DeferredQuery.Eval

/-- The property holds of a plain result, and of two computations in sequence if it holds of each
of them. -/
structure Compositional (P : (α : Type) → (Oracle → EvalM α) → Prop) : Prop where
  lift : ∀ {α : Type} (x : Except EvalError α), P α fun _ => liftM x
  bind : ∀ {α β : Type} {m : Oracle → EvalM α} {f : Oracle → α → EvalM β},
    P α m → (∀ v, P β fun oracle => f oracle v) → P β fun oracle => m oracle >>= f oracle

variable {P : (α : Type) → (Oracle → EvalM α) → Prop}

namespace Compositional

variable (hP : Compositional P) {α : Type}

include hP

theorem pure (v : α) : P α fun _ => Pure.pure v := hP.lift (.ok v)

theorem throw (e : EvalError) : P α fun _ => MonadExcept.throw e := hP.lift (.error e)

end Compositional

/-! ## Operators on items -/

namespace Items

open DeferredQuery.Items

inductive Keys (P : (α : Type) → (Oracle → EvalM α) → Prop) : (Oracle → List (Key EvalM)) → Prop
  | nil : Keys P fun _ => []
  | cons {ks : Oracle → List (Key EvalM)} {f : Oracle → Value → EvalM Value} :
    Keys P ks → (∀ v, P Value fun oracle => f oracle v) → ∀ descending,
      Keys P fun oracle => ⟨f oracle, descending⟩ :: ks oracle

theorem Keys.directions {ks : Oracle → List (Key EvalM)} (h : Keys P ks) :
    ∃ ds, ∀ oracle, (ks oracle).map Key.descending = ds := by
  induction h with
  | nil => exact ⟨[], fun _ => rfl⟩
  | cons _ _ descending ih =>
      obtain ⟨ds, hds⟩ := ih
      exact ⟨descending :: ds, fun oracle => congrArg (descending :: ·) (hds oracle)⟩

end Items

namespace Compositional

open DeferredQuery.Items

variable (hP : Compositional P)

include hP

theorem keep {p : Oracle → Value → EvalM Bool} (hp : ∀ v, P Bool fun oracle => p oracle v)
    (items : List Value) : P (List Value) fun oracle => Items.keep (p oracle) items := by
  induction items with
  | nil => exact hP.pure []
  | cons v items ih => exact hP.bind (hp v) fun kept => hP.bind ih fun vs => hP.pure _

theorem select {f : Oracle → Value → EvalM Value} (hf : ∀ v, P Value fun oracle => f oracle v)
    (items : List Value) : P (List Value) fun oracle => Items.select (f oracle) items := by
  induction items with
  | nil => exact hP.pure []
  | cons v items ih => exact hP.bind (hf v) fun w => hP.bind ih fun ws => hP.pure _

theorem keyValues {ks : Oracle → List (Key EvalM)} (h : Items.Keys P ks) (v : Value) :
    P (List Value) fun oracle => Items.keyValues (ks oracle) v := by
  induction h with
  | nil => exact hP.pure []
  | cons _ hf _ ih => exact hP.bind (hf v) fun w => hP.bind ih fun ws => hP.pure _

theorem keyed {ks : Oracle → List (Key EvalM)} (h : Items.Keys P ks) (items : List Value) :
    P (List Keyed) fun oracle => Items.keyed (ks oracle) items := by
  induction items with
  | nil => exact hP.pure []
  | cons v items ih =>
      exact hP.bind (hP.keyValues h v) fun row => hP.bind ih fun rows => hP.pure _

theorem order {ks : Oracle → List (Key EvalM)} (h : Items.Keys P ks) (items : List Value) :
    P (List Value) fun oracle => Items.order (ks oracle) items := by
  obtain ⟨ds, hds⟩ := h.directions
  simp only [Items.order, hds]
  exact hP.bind (hP.keyed h items) fun xs => hP.pure _

theorem joinRow {f : Oracle → Value → Value → EvalM Value}
    (hf : ∀ v w, P Value fun oracle => f oracle v w) (outer key : Value)
    (inner : List (Value × Value)) :
    P (List Value) fun oracle => Items.joinRow (f oracle) outer key inner := by
  induction inner with
  | nil => exact hP.pure []
  | cons x inner ih =>
      simp only [Items.joinRow]
      split
      · exact hP.bind (hf outer x.1) fun v => hP.bind ih fun vs => hP.pure _
      · exact ih

theorem join {o i : Oracle → Value → EvalM Value} {f : Oracle → Value → Value → EvalM Value}
    (ho : ∀ v, P Value fun oracle => o oracle v) (hi : ∀ v, P Value fun oracle => i oracle v)
    (hf : ∀ v w, P Value fun oracle => f oracle v w) (outer inner : List Value) :
    P (List Value) fun oracle => Items.join (o oracle) (i oracle) (f oracle) outer inner := by
  apply hP.bind (hP.select hi inner)
  intro keys
  induction outer with
  | nil => exact hP.pure []
  | cons v outer ih =>
      apply hP.bind (ho v)
      intro key
      cases hnull : key.isNull with
      | true => exact hP.bind (hP.pure []) fun row => hP.bind ih fun rest => hP.pure _
      | false => exact hP.bind (hP.joinRow hf v key _) fun row => hP.bind ih fun rest => hP.pure _

end Compositional

/-! ## Expressions -/

/-- The property holds of the values of the expression, of its results as a lambda and of the sorts
that end in it. -/
structure Pervades (P : (α : Type) → (Oracle → EvalM α) → Prop) (params : Option Bindings)
    (rows : Option RowSource) (e : Expr) : Prop where
  value : ∀ scope, P Value fun oracle => value ⟨params, rows, oracle⟩ scope e
  invoke : ∀ scope args, P Value fun oracle => invoke ⟨params, rows, oracle⟩ scope args e
  ordered : ∀ scope ks, Items.Keys P ks →
    P (List Value) fun oracle => ordered ⟨params, rows, oracle⟩ scope (ks oracle) e

section Nodes

variable (hP : Compositional P) {params : Option Bindings} {rows : Option RowSource}

include hP

/-- The property holds of expressions that are neither lambdas nor calls by their values alone. -/
theorem Pervades.of_value {e : Expr} (hlambda : e.isLambda = false)
    (hcall : ∀ m receiver args t, e ≠ .call m receiver args t)
    (h : ∀ scope, P Value fun oracle => Eval.value ⟨params, rows, oracle⟩ scope e) :
    Pervades P params rows e where
  value := h
  invoke scope args := by
    cases e with
    | lambda => cases hlambda
    | _ => exact hP.throw _
  ordered scope ks _ := by
    cases e with
    | call m receiver args t => exact (hcall m receiver args t rfl).elim
    | _ => exact hP.throw _

namespace Compositional

theorem items {β : Type} {f : Oracle → List Value → EvalM β} (v : Value)
    (hf : ∀ items, P β fun oracle => f oracle items) :
    P β fun oracle => liftM (Env.items ⟨params, rows, oracle⟩ v) >>= f oracle :=
  hP.bind (hP.lift (Env.items ⟨params, rows, ⟨fun _ => ⟨0⟩, fun _ => ⟨0, 0⟩⟩⟩ v)) hf

theorem values {es : List Expr} (h : ∀ e ∈ es, Pervades P params rows e) (scope : Scope) :
    P (List Value) fun oracle => Eval.values ⟨params, rows, oracle⟩ scope es := by
  induction es with
  | nil => exact hP.pure []
  | cons e es ih =>
      have hrest := ih fun e he => h e (List.mem_cons_of_mem _ he)
      exact hP.bind ((h e List.mem_cons_self).value scope) fun v =>
        hP.bind hrest fun vs => hP.pure _

theorem fieldValues {fields : List (Named Expr)}
    (h : ∀ field ∈ fields, Pervades P params rows field.value) (scope : Scope) :
    P (List (Named Value)) fun oracle =>
      Eval.fieldValues ⟨params, rows, oracle⟩ scope fields := by
  induction fields with
  | nil => exact hP.pure []
  | cons field fields ih =>
      have hrest := ih fun field hfield => h field (List.mem_cons_of_mem _ hfield)
      exact hP.bind ((h field List.mem_cons_self).value scope) fun v =>
        hP.bind hrest fun vs => hP.pure _

/-- The right operand is evaluated only where the left one does not decide. -/
theorem binary {left right : Expr} (hl : Pervades P params rows left)
    (hr : Pervades P params rows right) (op : BinOp) (scope : Scope) :
    P Value fun oracle => value ⟨params, rows, oracle⟩ scope (.binary op left right) := by
  by_cases hop : op.isLogical = true
  · simp only [value, if_pos hop]
    apply hP.bind (hl.value scope)
    intro v
    apply hP.bind (hP.lift _)
    intro a
    cases op.decided? a with
    | some r => exact hP.pure _
    | none => exact hP.bind (hr.value scope) fun w => hP.bind (hP.lift _) fun b => hP.pure _
  · simp only [value, if_neg hop]
    exact hP.bind (hl.value scope) fun v => hP.bind (hr.value scope) fun w => hP.lift _

/-- One case per operator, each with its own use of the lambdas among the arguments. -/
theorem apply {m : Method} (scope : Scope) (items : List Value) {es : List Expr}
    (h : ∀ e ∈ es, Pervades P params rows e) :
    P Value fun oracle => Eval.apply ⟨params, rows, oracle⟩ scope m items es := by
  match es, h with
  | [], _ => exact hP.lift _
  | [e], h =>
      have he := h e List.mem_cons_self
      have hholds : ∀ v, P Bool fun oracle =>
          (Eval.invoke ⟨params, rows, oracle⟩ scope [v] e >>= fun r => liftM r.holds) :=
        fun v => hP.bind (he.invoke scope [v]) fun r => hP.lift _
      simp only [Eval.apply]
      split
      · exact hP.bind (hP.keep hholds items) fun vs => hP.pure _
      split
      · exact hP.bind (hP.select (he.invoke scope [·]) items) fun vs => hP.pure _
      split
      · exact hP.bind (hP.order (.cons .nil (he.invoke scope [·]) _) items) fun vs => hP.pure _
      split
      · exact hP.bind (he.value scope) fun v => hP.bind (hP.lift _) fun n => hP.pure _
      split
      · exact hP.bind (he.value scope) fun v => hP.bind (hP.lift _) fun n => hP.pure _
      split
      · exact hP.bind (hP.keep hholds items) fun vs => hP.lift _
      split
      · exact hP.pure _
      · exact hP.throw _
  | [_, _], _ => exact hP.throw _
  | [_, _, _], _ => exact hP.throw _
  | [inner, outerKey, innerKey, result], h =>
      simp only [Eval.apply]
      split
      · apply hP.bind ((h inner (by simp)).value scope)
        intro v
        apply hP.items
        intro vs
        have hjoin := hP.join ((h outerKey (by simp)).invoke scope [·])
          ((h innerKey (by simp)).invoke scope [·])
          (fun v w => (h result (by simp)).invoke scope [v, w]) items vs
        exact hP.bind hjoin fun rs => hP.pure _
      · exact hP.throw _
  | _ :: _ :: _ :: _ :: _ :: _, _ => exact hP.throw _

/-- An operator works on the items of its source, or of the sort that it refines. -/
theorem operator {m : Method} (scope : Scope) {es : List Expr}
    (h : ∀ e ∈ es, Pervades P params rows e) :
    P Value fun oracle => Eval.operator ⟨params, rows, oracle⟩ scope m es := by
  match es, h with
  | [], _ => exact hP.throw _
  | source :: args, h =>
      have hsource := h source List.mem_cons_self
      simp only [operator.eq_def]
      by_cases hsort : (startsOrder m || extendsOrder m) = true
      · simp only [hsort, if_true]
        match args, h with
        | [], _ => exact hP.throw _
        | [selector], h =>
            have hkeys : Items.Keys P fun oracle =>
                [⟨fun v => Eval.invoke ⟨params, rows, oracle⟩ scope [v] selector, sortsDown m⟩] :=
              .cons .nil ((h selector (by simp)).invoke scope [·]) _
            by_cases hextends : extendsOrder m = true
            · simp only [hextends, if_true]
              exact hP.bind (hsource.ordered scope _ hkeys) fun vs => hP.pure _
            · simp only [hextends]
              exact hP.bind (hsource.value scope) fun v => hP.items v fun items =>
                hP.bind (hP.order hkeys items) fun vs => hP.pure _
        | _ :: _ :: _, _ => exact hP.throw _
      · simp only [hsort]
        exact hP.bind (hsource.value scope) fun v => hP.items v fun items =>
          hP.apply scope items fun e he => h e (List.mem_cons_of_mem _ he)

/-- A secondary sort hands its key on to the sort that it refines. -/
theorem ordered {m : Method} (scope : Scope) {receiver : Option Expr} {es : List Expr} {t : Ty}
    (h : ∀ e ∈ es, Pervades P params rows e) {ks : Oracle → List (Items.Key EvalM)}
    (hks : Items.Keys P ks) :
    P (List Value) fun oracle =>
      Eval.ordered ⟨params, rows, oracle⟩ scope (ks oracle) (.call m receiver es t) := by
  match es, h with
  | [], _ => exact hP.throw _
  | [_], _ => exact hP.throw _
  | [source, selector], h =>
      have hsource := h source (by simp)
      have hkeys := hks.cons ((h selector (by simp)).invoke scope [·]) (sortsDown m)
      simp only [Eval.ordered]
      split
      · exact hsource.ordered scope _ hkeys
      split
      · exact hP.bind (hsource.value scope) fun v => hP.items v fun items =>
          hP.order hkeys items
      · exact hP.throw _
  | _ :: _ :: _ :: _, _ => exact hP.throw _

/-- Only a method call without operands can draw. -/
theorem call {m : Method} {receiver : Option Expr} {args : List Expr} {t : Ty}
    (hdraw : receiver = none → args = [] → m.isVolatile = true →
      P Value fun oracle => Env.call ⟨params, rows, oracle⟩ m none [])
    (hreceiver : ∀ e, receiver = some e → Pervades P params rows e)
    (hargs : ∀ e ∈ args, Pervades P params rows e) (scope : Scope) :
    P Value fun oracle => value ⟨params, rows, oracle⟩ scope (.call m receiver args t) := by
  by_cases hm : m.isOperator = true
  · simp only [value_operator hm]
    exact hP.operator scope hargs
  cases receiver with
  | none =>
      cases args with
      | nil =>
          simp only [value, if_neg hm]
          change P Value fun oracle => Env.call ⟨params, rows, oracle⟩ m none []
          by_cases hvolatile : m.isVolatile = true
          · exact hdraw rfl rfl hvolatile
          · simp only [call_eq_apply fun h => absurd h hvolatile]
            exact hP.lift _
      | cons e es =>
          have hcall : ∀ oracle v vs, (⟨params, rows, oracle⟩ : Env).call m none (v :: vs) =
              liftM (m.apply none (v :: vs)) := fun oracle v vs =>
            call_eq_apply fun _ _ => List.cons_ne_nil v vs
          simp only [value, if_neg hm, Eval.values, bind_assoc, pure_bind, hcall]
          apply hP.bind ((hargs e List.mem_cons_self).value scope)
          intro v
          have hrest := hP.values (fun c hc => hargs c (List.mem_cons_of_mem _ hc)) scope
          exact hP.bind hrest fun vs => hP.lift _
  | some e =>
      have hcall : ∀ oracle v vs, (⟨params, rows, oracle⟩ : Env).call m (some v) vs =
          liftM (m.apply (some v) vs) := fun oracle v vs =>
        call_eq_apply fun _ h => absurd h (by simp)
      simp only [value, if_neg hm, hcall]
      exact hP.bind ((hreceiver e rfl).value scope) fun v =>
        hP.bind (hP.values hargs scope) fun vs => hP.lift _

end Compositional

end Nodes

/-- What passes from parts to the whole holds of all evaluations of an expression, if it holds of
its calls that draw. -/
theorem pervades_of_draws (hP : Compositional P) {params : Option Bindings}
    {rows : Option RowSource} {e : Expr}
    (hdraw : ∀ m t, .call m none [] t ∈ e.nodes → m.isVolatile = true →
      P Value fun oracle => Env.call ⟨params, rows, oracle⟩ m none []) :
    Pervades P params rows e := by
  induction e with
  | constant v t => exact .of_value hP rfl (by simp) fun _ => hP.pure v
  | parameter name t =>
      refine .of_value hP rfl (by simp) fun scope => ?_
      exact hP.lift (Env.lookup ⟨params, rows, ⟨fun _ => ⟨0⟩, fun _ => ⟨0, 0⟩⟩⟩ scope name)
  | member target name t ih =>
      have hchild : target ∈ (Expr.member target name t).children := by simp [Expr.children]
      have htarget := ih fun m u h => hdraw m u (Expr.mem_nodes_of_child hchild h)
      exact .of_value hP rfl (by simp) fun scope =>
        hP.bind (htarget.value scope) fun _ => hP.lift _
  | call m receiver args t ihr ihargs =>
      have hreceiver := fun e he => ihr e he fun m u h =>
        hdraw m u (Expr.mem_nodes_of_child (by simp [Expr.children, he]) h)
      have hargs := fun e he => ihargs e he fun m u h =>
        hdraw m u (Expr.mem_nodes_of_child (by simp [Expr.children, he]) h)
      refine ⟨hP.call ?_ hreceiver hargs, fun _ _ => hP.throw _,
        fun scope _ hks => hP.ordered scope hargs hks⟩
      rintro rfl rfl hvolatile
      exact hdraw m t (Expr.self_mem_nodes _) hvolatile
  | lambda ps body ih =>
      have hbody := ih fun m u h => hdraw m u (Expr.mem_nodes_of_child (by simp [Expr.children]) h)
      refine ⟨fun _ => hP.throw _, fun scope args => ?_, fun _ _ _ => hP.throw _⟩
      simp only [invoke]
      split
      · exact hbody.value _
      · exact hP.throw _
  | convert operand t ih =>
      have hoperand := ih fun m u h =>
        hdraw m u (Expr.mem_nodes_of_child (by simp [Expr.children]) h)
      exact .of_value hP rfl (by simp) fun scope =>
        hP.bind (hoperand.value scope) fun _ => hP.pure _
  | binary op left right ihl ihr =>
      have hleft := ihl fun m u h =>
        hdraw m u (Expr.mem_nodes_of_child (by simp [Expr.children]) h)
      have hright := ihr fun m u h =>
        hdraw m u (Expr.mem_nodes_of_child (by simp [Expr.children]) h)
      exact .of_value hP rfl (by simp) (hP.binary hleft hright op)
  | unary op operand ih =>
      have hoperand := ih fun m u h =>
        hdraw m u (Expr.mem_nodes_of_child (by simp [Expr.children]) h)
      exact .of_value hP rfl (by simp) fun scope =>
        hP.bind (hoperand.value scope) fun _ => hP.lift _
  | record fields ih =>
      have hfields := fun field hfield => ih field hfield fun m u h =>
        hdraw m u (Expr.mem_nodes_of_child (List.mem_map_of_mem hfield) h)
      exact .of_value hP rfl (by simp) fun scope =>
        hP.bind (hP.fieldValues hfields scope) fun _ => hP.pure _
  | volatile inner ih =>
      have hinner := ih fun m u h =>
        hdraw m u (Expr.mem_nodes_of_child (by simp [Expr.children]) h)
      exact .of_value hP rfl (by simp) hinner.value

end DeferredQuery.Eval
