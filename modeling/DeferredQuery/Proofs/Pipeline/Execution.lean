import DeferredQuery.MemoryStore
import DeferredQuery.Proofs.Eval.Alike
import DeferredQuery.Proofs.Pipeline.Chain

/-!
# Running a pipeline and evaluating its chain of calls

The store runs the operations of a pipeline from the first to the last, with the secondary keys of
a sort gathered beforehand. The evaluator starts at the outermost call and walks down the chain.
Both give the same rows.
-/

namespace DeferredQuery

namespace MemoryStore

/-! ## Stages -/

namespace Stage

def secondary (k : Eval.SortKey) : Operation := .thenBy k.selector k.descending

/-- The secondary keys of a stage end where another stage begins. -/
theorem leadingKeys_append {xs ys : List Stage} (hy : leadingKeys ys = ([], ys)) :
    leadingKeys (xs ++ ys) = ((leadingKeys xs).1, (leadingKeys xs).2 ++ ys) := by
  fun_induction leadingKeys xs with
  | case1 key descending rest keys rest' hrest ih =>
      rw [hrest] at ih
      simp [leadingKeys, ih]
  | case2 xs hxs =>
      cases xs with
      | nil => simp [hy]
      | cons x xs =>
          rw [List.cons_append, leadingKeys]
          intro key descending rest h
          cases h
          exact hxs key descending xs rfl

/-- An operation that is no secondary key ends the keys of the sort before it. -/
theorem ofOperations_append {xs ys : List Operation}
    (hy : leadingKeys (ofOperations ys) = ([], ofOperations ys)) :
    ofOperations (xs ++ ys) = ofOperations xs ++ ofOperations ys := by
  fun_induction ofOperations xs with
  | case1 => rfl
  | case2 key descending ops keys rest hrest ih =>
      rw [List.cons_append, ofOperations, ih, leadingKeys_append hy, hrest]
      rfl
  | case3 op ops hop ih =>
      rw [List.cons_append, ofOperations, ih, List.cons_append]
      exact hop

@[simp] theorem leadingKeys_secondary (keys : List Eval.SortKey) :
    leadingKeys (ofOperations (keys.map secondary)) = (keys, []) := by
  induction keys with
  | nil => rfl
  | cons k keys ih => simp [secondary, ofOperations, leadingKeys, ih]

theorem ofOperations_orderBy (key : Expr) (descending : Bool) (keys : List Eval.SortKey) :
    ofOperations (.orderBy key descending :: keys.map secondary) =
      [.sort ⟨key, descending⟩ keys] := by
  simp [ofOperations]

/-- An operation that neither starts a sort nor refines one is a stage of its own. -/
theorem ofOperations_plain (before : List Operation) {op : Operation} (rest : List Operation)
    (horder : ∀ key descending, op ≠ .orderBy key descending)
    (hthen : ∀ key descending, op ≠ .thenBy key descending) :
    ofOperations (before ++ op :: rest) =
      ofOperations before ++ .apply op :: ofOperations rest := by
  have hcons : ofOperations (op :: rest) = .apply op :: ofOperations rest := by
    rw [ofOperations]
    exact horder
  rw [ofOperations_append, hcons]
  rw [hcons, leadingKeys]
  intro key descending stages h
  cases h
  exact hthen key descending rfl

def operations : Stage → List Operation
  | sort key rest => .orderBy key.selector key.descending :: rest.map secondary
  | apply op => [op]

theorem leadingKeys_operations (stages : List Stage) :
    (leadingKeys stages).1.map secondary ++ (leadingKeys stages).2.flatMap operations =
      stages.flatMap operations := by
  fun_induction leadingKeys stages with
  | case1 key descending rest keys rest' hrest ih =>
      rw [hrest] at ih
      simpa [operations, secondary] using ih
  | case2 => rfl

/-- No operation is lost or moved. -/
theorem flatMap_operations (ops : List Operation) :
    (ofOperations ops).flatMap operations = ops := by
  fun_induction ofOperations ops with
  | case1 => rfl
  | case2 key descending ops keys rest hrest ih =>
      have hkeys := leadingKeys_operations (ofOperations ops)
      rw [hrest, ih] at hkeys
      simpa [operations] using hkeys
  | case3 op ops hop ih => simpa [operations] using ih

theorem mem_of_mem_operations {ops : List Operation} {stage : Stage} {op : Operation}
    (hstage : stage ∈ ofOperations ops) (hop : op ∈ stage.operations) : op ∈ ops := by
  rw [← flatMap_operations ops]
  exact List.mem_flatMap.mpr ⟨stage, hstage, hop⟩

theorem mem_of_apply_mem {ops : List Operation} {op : Operation}
    (h : Stage.apply op ∈ ofOperations ops) : op ∈ ops :=
  mem_of_mem_operations h List.mem_cons_self

end Stage

/-! ## Runs of stages -/

open Eval

variable {env : Env}

def listItems : Value → EvalM (List Value)
  | .list items => pure items
  | _ => throw .emptySequence

theorem runStages_append (env : Env) (xs ys : List Stage) (v : Value) :
    runStages env v (xs ++ ys) = runStages env v xs >>= fun w => runStages env w ys := by
  induction xs generalizing v with
  | nil => simp [runStages]
  | cons x xs ih =>
      cases v <;> simp [runStages, ih]
      all_goals rfl

theorem alike_runStages_cons (env : Env) (s : Stage) (rest : List Stage) (v : Value) :
    Alike (runStages env v (s :: rest))
      (listItems v >>= fun items => s.run env items >>= fun w => runStages env w rest) := by
  cases v with
  | list items => exact .of_eq (by simp [runStages, listItems])
  | _ => exact .of_fails (fails_throw _) ((fails_throw _).bind _)

/-- The last stage works on the items that the stages before it leave. -/
theorem alike_runStages_concat (env : Env) (xs : List Stage) (s : Stage) (v : Value) :
    Alike (runStages env v (xs ++ [s]))
      ((runStages env v xs >>= listItems) >>= fun items => s.run env items) := by
  rw [runStages_append, bind_assoc]
  refine (Alike.refl _).bind fun w => ?_
  refine (alike_runStages_cons env s [] w).trans (.of_eq ?_)
  simp [runStages]

/-! ## Operations that give a sequence -/

def GivesList (m : EvalM Value) : Prop := ∀ n v k, m n = .ok (v, k) → ∃ items, v = .list items

theorem givesList_bind {α : Type} (m : EvalM α) {f : α → EvalM Value}
    (h : ∀ v, GivesList (f v)) : GivesList (m >>= f) := by
  intro n v k hv
  obtain ⟨w, j, -, hf⟩ := Eval.bind_eq_ok.mp hv
  exact h w j v k hf

theorem givesList_pure (items : List Value) : GivesList (pure (.list items)) := by
  intro n v k hv
  obtain ⟨rfl, -⟩ := pure_eq_ok.mp hv
  exact ⟨items, rfl⟩

theorem givesList_throw (e : EvalError) : GivesList (throw e) :=
  fun _ _ _ hv => (throw_ne_ok hv).elim

theorem givesList_custom (env : Env) (items : List Value) {name : String} (args : List Expr)
    (hname : name ∈ Items.passing) : GivesList (apply env [] (.operator name) items args) := by
  have hcases : name = "Include" ∨ name = "ThenInclude" ∨ name = "TagWith" := by
    simpa [Items.passing] using hname
  rcases args with _ | ⟨e₁, _ | ⟨e₂, _ | ⟨e₃, _ | ⟨e₄, _ | ⟨e₅, rest⟩⟩⟩⟩⟩
  · rcases hcases with rfl | rfl | rfl <;> exact givesList_throw _
  · rcases hcases with rfl | rfl | rfl <;> exact givesList_pure items
  · exact givesList_throw _
  · exact givesList_throw _
  · rcases hcases with rfl | rfl | rfl <;> exact givesList_throw _
  · exact givesList_throw _

/-- Only an operation that ends a pipeline gives something other than a sequence. -/
theorem givesList_apply (items : List Value) {op : Operation} (hop : op.Standard)
    (hterminal : op.isTerminal = false) : GivesList ((Stage.apply op).run env items) := by
  cases op with
  | filter e => exact givesList_bind _ fun _ => givesList_pure _
  | select e => exact givesList_bind _ fun _ => givesList_pure _
  | orderBy e descending =>
      cases descending <;> exact givesList_bind _ fun _ => givesList_pure _
  | thenBy e descending => exact givesList_throw _
  | skip e => exact givesList_bind _ fun _ => givesList_bind _ fun _ => givesList_pure _
  | take e => exact givesList_bind _ fun _ => givesList_bind _ fun _ => givesList_pure _
  | distinct => exact givesList_pure _
  | join inner outerKey innerKey result =>
      exact givesList_bind _ fun _ => givesList_bind _ fun _ =>
        givesList_bind _ fun _ => givesList_pure _
  | count _ | any _ | first _ _ | single _ => cases hterminal
  | custom name args => exact givesList_custom env items args hop

/-- By induction on the stages, each of which works on the items of the one before it. -/
theorem givesList_runStages {stages : List Stage} (source : List Value)
    (h : ∀ op, .apply op ∈ stages → op.Standard ∧ op.isTerminal = false) :
    GivesList (runStages env (.list source) stages) := by
  induction stages generalizing source with
  | nil => exact givesList_pure source
  | cons s stages ih =>
      have hs : GivesList (s.run env source) := by
        cases s with
        | sort key rest => exact givesList_bind _ fun _ => givesList_pure _
        | apply op =>
            obtain ⟨hop, hterminal⟩ := h op List.mem_cons_self
            exact givesList_apply source hop hterminal
      intro n v k hv
      obtain ⟨w, j, hw, hrest⟩ := Eval.bind_eq_ok.mp hv
      obtain ⟨items, rfl⟩ := hs n w j hw
      exact ih items (fun op hop => h op (List.mem_cons_of_mem _ hop)) j v k hrest

/-- The items of a computed sequence are the same for the store and for the evaluator. -/
theorem alike_items {m₁ m₂ : EvalM Value} (h : Alike m₁ m₂) (hlist : GivesList m₂) :
    Alike (m₁ >>= fun v => liftM (env.items v)) (m₂ >>= listItems) := by
  refine h.bind_of_results fun n v k hv => ?_
  obtain ⟨items, rfl⟩ := hlist n v k hv
  exact .refl _

/-! ## Chains of calls -/

/-- The names of the sorting operators belong to the sorting operations alone. -/
theorem order_operator {op : Operation} (hop : op.Standard) :
    (startsOrder (.operator op.name) = true ↔ ∃ key descending, op = .orderBy key descending) ∧
      (extendsOrder (.operator op.name) = true ↔
        ∃ key descending, op = .thenBy key descending) := by
  unfold startsOrder extendsOrder
  cases op with
  | orderBy key descending => cases descending <;> simp [Method.operator, Operation.name]
  | thenBy key descending => cases descending <;> simp [Method.operator, Operation.name]
  | first e orDefault => cases orDefault <;> simp [Method.operator, Operation.name]
  | custom name args =>
      have hcases : name = "Include" ∨ name = "ThenInclude" ∨ name = "TagWith" := by
        simpa [Items.passing] using (show name ∈ Items.passing from hop)
      rcases hcases with rfl | rfl | rfl <;> simp [Method.operator, Operation.name]
  | _ => simp [Method.operator, Operation.name]

theorem apply_operands (env : Env) (items : List Value) (op : Operation) (t : Ty)
    (hthen : ∀ key descending, op ≠ .thenBy key descending) :
    apply env [] (.operator op.name) items (op.operands t) = (Stage.apply op).run env items := by
  cases op with
  | thenBy key descending => exact (hthen key descending rfl).elim
  | join inner outerKey innerKey result =>
      simp [Operation.operands, Operation.name, apply, Stage.run, Expr.const, value,
        Method.operator]
  | _ => rfl

def keyOf (env : Env) (k : SortKey) : Items.Key EvalM :=
  ⟨fun v => invoke env [] [v] k.selector, k.descending⟩

theorem sort_run (items : List Value) (k : SortKey) (keys : List SortKey) :
    (Stage.sort k keys).run env items =
      Items.order ((k :: keys).map (keyOf env)) items >>= fun vs => pure (.list vs) := rfl

/-! ### What the evaluator makes of a call -/

theorem value_orderBy (receiver key : Expr) (descending : Bool) (t : Ty) :
    value env [] (.call (.operator (Operation.orderBy key descending).name) none
        [receiver, key] t) =
      (value env [] receiver >>= fun v => liftM (env.items v)) >>= fun items =>
        (Stage.sort ⟨key, descending⟩ []).run env items := by
  cases descending <;>
    simp [value, operator, Method.isOperator, Method.operator, Operation.name, startsOrder,
      extendsOrder, sortsDown, sort_run, keyOf]

theorem value_thenBy (receiver key : Expr) (descending : Bool) (t : Ty) :
    value env [] (.call (.operator (Operation.thenBy key descending).name) none
        [receiver, key] t) =
      ordered env [] ([⟨key, descending⟩].map (keyOf env)) receiver >>= fun vs =>
        pure (.list vs) := by
  cases descending <;>
    simp [value, operator, Method.isOperator, Method.operator, Operation.name, startsOrder,
      extendsOrder, sortsDown, keyOf]

theorem value_plain {m : Method} (hm : m.isOperator = true) (hs : startsOrder m = false)
    (he : extendsOrder m = false) (receiver : Expr) (args : List Expr) (t : Ty) :
    value env [] (.call m none (receiver :: args) t) =
      (value env [] receiver >>= fun v => liftM (env.items v)) >>= fun items =>
        apply env [] m items args := by
  rw [value, if_pos hm, operator.eq_def]
  simp [hs, he]

theorem ordered_orderBy (receiver key : Expr) (descending : Bool) (t : Ty)
    (keys : List SortKey) :
    ordered env [] (keys.map (keyOf env))
        (.call (.operator (Operation.orderBy key descending).name) none [receiver, key] t) =
      (value env [] receiver >>= fun v => liftM (env.items v)) >>= fun items =>
        Items.order ((⟨key, descending⟩ :: keys).map (keyOf env)) items := by
  cases descending <;>
    simp [ordered, Method.operator, Operation.name, startsOrder, extendsOrder, sortsDown, keyOf]

theorem ordered_thenBy (receiver key : Expr) (descending : Bool) (t : Ty)
    (keys : List SortKey) :
    ordered env [] (keys.map (keyOf env))
        (.call (.operator (Operation.thenBy key descending).name) none [receiver, key] t) =
      ordered env [] ((⟨key, descending⟩ :: keys).map (keyOf env)) receiver := by
  cases descending <;>
    simp [ordered, Method.operator, Operation.name, extendsOrder, sortsDown, keyOf]

theorem ordered_plain {m : Method} (receiver : Expr) (args : List Expr) (t : Ty)
    (keys : List (Items.Key EvalM)) (hs : startsOrder m = false) (he : extendsOrder m = false) :
    Fails (ordered env [] keys (.call m none (receiver :: args) t)) := by
  match args with
  | [selector] =>
      simp only [ordered, hs, he]
      exact fails_throw _
  | [] | _ :: _ :: _ =>
      rw [ordered]
      · exact fails_throw _
      · exact nofun

/-! ### Chains against runs -/

/-- The items of a chain, and the sort that a chain starts, are what the store makes of the
operations on the chain. -/
structure Runs (env : Env) (source : List Value) (e : Expr) (ops : List Operation) : Prop where
  items : Alike (value env [] e >>= fun v => liftM (env.items v))
    (runStages env (.list source) (Stage.ofOperations ops) >>= listItems)
  sorted : ∀ k keys, Alike (ordered env [] ((k :: keys).map (keyOf env)) e)
    (runStages env (.list source) (Stage.ofOperations (ops ++ (k :: keys).map Stage.secondary)) >>=
      listItems)

/-- A secondary key that follows no sort key ends the run. -/
theorem fails_secondary (env : Env) (before : List Stage) (k : SortKey) (keys : List SortKey)
    (v : Value) :
    Fails (runStages env v (before ++ Stage.ofOperations ((k :: keys).map Stage.secondary))) := by
  rw [runStages_append]
  refine fails_bind _ fun w => ?_
  have hfails : Fails (listItems w >>= fun items =>
      (Stage.apply (Stage.secondary k)).run env items >>= fun w =>
        runStages env w (Stage.ofOperations (keys.map Stage.secondary))) :=
    fails_bind _ fun items => (fails_throw _).bind _
  have halike := alike_runStages_cons env (.apply (Stage.secondary k))
    (Stage.ofOperations (keys.map Stage.secondary)) w
  intro n u j hu
  exact hfails n u j ((halike n u j).mp hu)

theorem runs_source {root : SetRef} {t : Ty} {source : List Value}
    (hrows : env.items (.query root) = .ok source) :
    Runs env source (.constant (.query root) t) [] where
  items := by
    refine .of_eq ?_
    simp only [value, pure_bind, hrows]
    rfl
  sorted k keys := by
    refine .of_fails ?_ ((fails_secondary env [] k keys _).bind _)
    rw [ordered]
    · exact fails_throw _
    all_goals exact nofun

section Step

variable {source : List Value} {receiver : Expr} {before : List Operation} {op : Operation}
  {t t' : Ty}

/-- One more call on a chain is one more operation. -/
theorem Runs.value_step (h : Runs env source receiver before) (hop : op.Standard)
    (hbefore : ∀ o ∈ before, o.Standard ∧ o.isTerminal = false) :
    Alike (value env [] (.call (.operator op.name) none (receiver :: op.operands t) t'))
      (runStages env (.list source) (Stage.ofOperations (before ++ [op]))) := by
  obtain ⟨hstarts, hextends⟩ := order_operator hop
  by_cases hs : startsOrder (.operator op.name) = true
  · obtain ⟨key, descending, rfl⟩ := hstarts.mp hs
    have hstages : Stage.ofOperations (before ++ [.orderBy key descending]) =
        Stage.ofOperations before ++ [.sort ⟨key, descending⟩ []] :=
      Stage.ofOperations_append rfl
    rw [hstages]
    refine Alike.trans ?_ (alike_runStages_concat _ _ _ _).symm
    exact (Alike.of_eq (value_orderBy receiver key descending t')).trans
      (h.items.bind fun items => .refl _)
  by_cases he : extendsOrder (.operator op.name) = true
  · obtain ⟨key, descending, rfl⟩ := hextends.mp he
    have hlist : GivesList (runStages env (.list source)
        (Stage.ofOperations (before ++ [.thenBy key descending]))) := by
      refine givesList_runStages source fun o ho => ?_
      rcases List.mem_append.mp (Stage.mem_of_apply_mem ho) with ho | ho
      · exact hbefore o ho
      · rw [List.mem_singleton.mp ho]
        exact ⟨trivial, rfl⟩
    refine (Alike.of_eq (value_thenBy receiver key descending t')).trans ?_
    refine ((h.sorted ⟨key, descending⟩ []).bind fun _ => .refl _).trans ?_
    refine (Alike.of_eq (bind_assoc _ _ _)).trans ?_
    refine Alike.trans ((Alike.refl _).bind_of_results fun n v k hv => ?_)
      (.of_eq (bind_pure _))
    obtain ⟨items, rfl⟩ := hlist n v k hv
    exact .refl _
  · have hthen : ∀ key descending, op ≠ .thenBy key descending :=
      fun key descending hop => he (hextends.mpr ⟨key, descending, hop⟩)
    have horder : ∀ key descending, op ≠ .orderBy key descending :=
      fun key descending hop => hs (hstarts.mpr ⟨key, descending, hop⟩)
    rw [Stage.ofOperations_plain before [] horder hthen]
    refine Alike.trans ?_ (alike_runStages_concat _ _ _ _).symm
    refine (Alike.of_eq (value_plain rfl (by simpa using hs) (by simpa using he) _ _ _)).trans ?_
    exact h.items.bind fun items => .of_eq (apply_operands env items op t hthen)

/-- A sort with all its secondary keys is one stage. -/
theorem Runs.sorted_step (h : Runs env source receiver before) (hop : op.Standard)
    (k : SortKey) (keys : List SortKey) :
    Alike (ordered env [] ((k :: keys).map (keyOf env))
        (.call (.operator op.name) none (receiver :: op.operands t) t'))
      (runStages env (.list source)
        (Stage.ofOperations (before ++ [op] ++ (k :: keys).map Stage.secondary)) >>=
          listItems) := by
  obtain ⟨hstarts, hextends⟩ := order_operator hop
  rw [List.append_assoc, List.singleton_append]
  by_cases hs : startsOrder (.operator op.name) = true
  · obtain ⟨key, descending, rfl⟩ := hstarts.mp hs
    have hstages : Stage.ofOperations (before ++ .orderBy key descending ::
        (k :: keys).map Stage.secondary) =
          Stage.ofOperations before ++ [.sort ⟨key, descending⟩ (k :: keys)] := by
      rw [← Stage.ofOperations_orderBy]
      refine Stage.ofOperations_append ?_
      rw [Stage.ofOperations_orderBy]
      rfl
    rw [hstages]
    refine (Alike.of_eq (ordered_orderBy receiver key descending t' (k :: keys))).trans ?_
    refine Alike.trans ?_ ((alike_runStages_concat _ _ _ _).bind fun _ => .refl _).symm
    refine Alike.trans ?_ (.of_eq (bind_assoc _ _ _).symm)
    exact h.items.bind fun items => .of_eq (by simp [sort_run, listItems])
  by_cases he : extendsOrder (.operator op.name) = true
  · obtain ⟨key, descending, rfl⟩ := hextends.mp he
    refine (Alike.of_eq (ordered_thenBy receiver key descending t' (k :: keys))).trans ?_
    exact h.sorted ⟨key, descending⟩ (k :: keys)
  · have hthen : ∀ key descending, op ≠ .thenBy key descending :=
      fun key descending hop => he (hextends.mpr ⟨key, descending, hop⟩)
    have horder : ∀ key descending, op ≠ .orderBy key descending :=
      fun key descending hop => hs (hstarts.mpr ⟨key, descending, hop⟩)
    have hfails := fails_secondary env (Stage.ofOperations before ++ [.apply op]) k keys
      (.list source)
    rw [Stage.ofOperations_plain before _ horder hthen]
    rw [List.append_assoc, List.singleton_append] at hfails
    refine .of_fails ?_ (hfails.bind _)
    exact ordered_plain receiver _ t' _ (by simpa using hs) (by simpa using he)

theorem Runs.step (h : Runs env source receiver before) (hop : op.Standard)
    (hterminal : op.isTerminal = false)
    (hbefore : ∀ o ∈ before, o.Standard ∧ o.isTerminal = false) :
    Runs env source (.call (.operator op.name) none (receiver :: op.operands t) t')
      (before ++ [op]) where
  items := by
    refine alike_items (h.value_step hop hbefore) (givesList_runStages source fun o ho => ?_)
    rcases List.mem_append.mp (Stage.mem_of_apply_mem ho) with ho | ho
    · exact hbefore o ho
    · rw [List.mem_singleton.mp ho]
      exact ⟨hop, hterminal⟩
  sorted := h.sorted_step hop

end Step

/-- By induction on the chain, one operation after another. -/
theorem runs_of_chain {e : Expr} {root : SetRef} {steps : List Pipeline.Step}
    {ops : List Operation} {source : List Value} (hrows : env.items (.query root) = .ok source)
    (hc : Pipeline.Chain e root steps) (hown : ∀ s ∈ steps, s.method.isOperator = true)
    (hops : Pipeline.classifySteps .standard steps = .ok ops)
    (hterminal : ∀ op ∈ ops, op.isTerminal = false) :
    Runs env source e ops := by
  induction hc generalizing ops with
  | source root t =>
      cases hops
      exact runs_source hrows
  | @step receiver root steps m args t _ _ ih =>
      obtain ⟨before, op, hbefore, hop, rfl⟩ := Pipeline.classifySteps_concat hops
      have hfirst : ∀ s ∈ steps, s.method.isOperator = true := fun s hs => hown s (by simp [hs])
      have hstandard := Classifier.standard_of_classifySteps hfirst hbefore
      have hruns := ih hrows hfirst hbefore fun o ho => hterminal o (by simp [ho])
      obtain ⟨hm, ⟨s, hargs⟩, hlast⟩ := Classifier.step_of_standard (hown ⟨m, args⟩ (by simp)) hop
      simp only at hm hargs
      subst hm hargs
      exact hruns.step hlast (hterminal op (by simp)) fun o ho =>
        ⟨hstandard o ho, hterminal o (by simp [ho])⟩

/-- The value of a chain is what the stages of its operations give; only the last of them may end
the sequence. -/
theorem alike_value_of_chain {e : Expr} {root : SetRef} {steps : List Pipeline.Step}
    {ops : List Operation} {source : List Value} (hrows : env.items (.query root) = .ok source)
    (hc : Pipeline.Chain e root steps) (hown : ∀ s ∈ steps, s.method.isOperator = true)
    (hops : Pipeline.classifySteps .standard steps = .ok ops) (hsome : ops ≠ [])
    (hterminal : ∀ op ∈ ops.dropLast, op.isTerminal = false) :
    Alike (value env [] e) (runStages env (.list source) (Stage.ofOperations ops)) := by
  cases hc with
  | source root t =>
      cases hops
      exact (hsome rfl).elim
  | @step receiver root steps m args t _ hc =>
      obtain ⟨before, op, hbefore, hop, rfl⟩ := Pipeline.classifySteps_concat hops
      rw [List.dropLast_concat] at hterminal
      have hfirst : ∀ s ∈ steps, s.method.isOperator = true := fun s hs => hown s (by simp [hs])
      have hstandard := Classifier.standard_of_classifySteps hfirst hbefore
      have hruns := runs_of_chain hrows hc hfirst hbefore hterminal
      obtain ⟨hm, ⟨s, hargs⟩, hlast⟩ := Classifier.step_of_standard (hown ⟨m, args⟩ (by simp)) hop
      simp only at hm hargs
      subst hm hargs
      exact hruns.value_step hlast fun o ho => ⟨hstandard o ho, hterminal o ho⟩

end MemoryStore

/-! ## The rows of a run -/

/-- The rows that a value of a result type stands for: the items of a sequence, or the value. -/
def ResultTy.Delivers : ResultTy → Value → List Value → Prop
  | sequence _, v, vs => v = .list vs
  | single _, v, vs => vs = [v]

def Memory.env (m : Memory) (oracle : Eval.Oracle) (params : Bindings) : Eval.Env :=
  ⟨some params, some fun root => .ok (m.scan root), oracle⟩

/-- A pipeline that gives a sequence does not end in an operation that gives one value. -/
theorem Pipeline.isTerminal_of_sequence {ops : List Operation} {t u : Ty}
    (hresult : resultTy ops t = .sequence u)
    (hterminal : ∀ op ∈ ops.dropLast, op.isTerminal = false) :
    ∀ op ∈ ops, op.isTerminal = false := by
  intro op hop
  rcases List.eq_nil_or_concat ops with rfl | ⟨before, last, rfl⟩
  · cases hop
  rw [List.concat_eq_append] at *
  rw [List.dropLast_concat] at hterminal
  rcases List.mem_append.mp hop with hop | hop
  · exact hterminal op hop
  · obtain rfl := List.mem_singleton.mp hop
    cases hlast : op.isTerminal with
    | false => rfl
    | true => simp [resultTy, hlast] at hresult

namespace MemoryStore

open Eval

/-- A run gives rows that do not fail, and only moves the oracle. -/
theorem run_eq_ok {oracle : Oracle} {p : Pipeline} {params : Bindings} {m m' : Memory}
    {vs : Rows EvalError} :
    run oracle p params m = (.ok vs, m') ↔
      ∃ items k, rows (m.env oracle params) (m.scan p.source) p m.draws = .ok (items, k) ∧
        vs = items.map .ok ∧ m' = { m with draws := k } := by
  have henv : (⟨some params, some fun root => .ok (m.scan root), oracle⟩ : Env) =
    m.env oracle params := rfl
  rw [run, henv]
  cases rows (m.env oracle params) (m.scan p.source) p m.draws with
  | error e =>
      constructor
      · intro h
        cases h
      · rintro ⟨items, k, h, -⟩
        cases h
  | ok r =>
      obtain ⟨items, k⟩ := r
      constructor
      · intro h
        cases h
        exact ⟨items, k, rfl, rfl, rfl⟩
      · rintro ⟨items', k', h, rfl, rfl⟩
        cases h
        rfl

/-- A sequence is delivered item by item, and any other result as the only row. -/
theorem rows_eq_ok (env : Env) (source items : List Value) (p : Pipeline) (n k : Nat)
    (hlist : ∀ t, p.result = .sequence t →
      GivesList (runStages env (.list source) (Stage.ofOperations p.operations))) :
    rows env source p n = .ok (items, k) ↔
      ∃ v, runStages env (.list source) (Stage.ofOperations p.operations) n = .ok (v, k) ∧
        p.result.Delivers v items := by
  unfold rows
  rw [Eval.bind_eq_ok]
  cases hresult : p.result with
  | sequence t =>
      constructor
      · rintro ⟨v, j, hv, hitems⟩
        obtain ⟨vs, rfl⟩ := hlist t hresult n v j hv
        obtain ⟨rfl, rfl⟩ := pure_eq_ok.mp hitems
        exact ⟨_, hv, rfl⟩
      · rintro ⟨v, hv, rfl⟩
        exact ⟨_, k, hv, rfl⟩
  | single t =>
      constructor
      · rintro ⟨v, j, hv, hitems⟩
        obtain ⟨rfl, rfl⟩ := pure_eq_ok.mp hitems
        exact ⟨v, hv, rfl⟩
      · rintro ⟨v, hv, rfl⟩
        exact ⟨v, k, hv, rfl⟩

/-- The store's executor agrees with the evaluator: over the same contents and placeholder values
a run succeeds exactly when the evaluation of the query does, and gives the rows that the value
stands for. A value that is evaluated always stands for rows: where these are a sequence, it is a
list. -/
theorem run_eq_ok_iff_evaluate {shape : Expr} {p : Pipeline} {root : SetRef}
    {steps : List Pipeline.Step} (hp : Pipeline.classify .standard shape = .ok p)
    (hsome : p.operations ≠ []) (hspine : Pipeline.spine [] shape = .ok (root, steps))
    (hown : ∀ s ∈ steps, s.method.isOperator = true)
    (hterminal : ∀ op ∈ p.operations.dropLast, op.isTerminal = false)
    (oracle : Oracle) (params : Bindings) (m m' : Memory) (vs : Rows EvalError) :
    (run oracle p params m = (.ok vs, m') ↔
      ∃ v k items, evaluate (m.env oracle params) shape m.draws = .ok (v, k) ∧
        p.result.Delivers v items ∧ vs = items.map .ok ∧ m' = { m with draws := k }) ∧
      ∀ v k, evaluate (m.env oracle params) shape m.draws = .ok (v, k) →
        ∃ items, p.result.Delivers v items := by
  obtain ⟨found, hchain, hops, hresult⟩ := Pipeline.classify_eq_ok hp
  obtain ⟨-, rfl⟩ : root = p.source ∧ steps = found := by
    simpa [hspine] using hchain.spine []
  have hsource : (m.env oracle params).items (.query p.source) = .ok (m.scan p.source) := rfl
  have hvalue := alike_value_of_chain hsource hchain hown hops hsome hterminal
  have hstandard := Classifier.standard_of_classifySteps hown hops
  have hlist : ∀ t, p.result = .sequence t → GivesList (runStages (m.env oracle params)
      (.list (m.scan p.source)) (Stage.ofOperations p.operations)) := by
    intro t ht
    have hnone := Pipeline.isTerminal_of_sequence (hresult ▸ ht) hterminal
    exact givesList_runStages _ fun op hop =>
      ⟨hstandard op (Stage.mem_of_apply_mem hop), hnone op (Stage.mem_of_apply_mem hop)⟩
  have hrows := fun items k => rows_eq_ok _ _ items p m.draws k hlist
  rw [run_eq_ok]
  refine ⟨⟨?_, ?_⟩, fun v k hv => ?_⟩
  · rintro ⟨items, k, hitems, hvs, hm⟩
    obtain ⟨v, hv, hdelivers⟩ := (hrows items k).mp hitems
    exact ⟨v, k, items, (hvalue _ _ _).mpr hv, hdelivers, hvs, hm⟩
  · rintro ⟨v, k, items, hv, hdelivers, hvs, hm⟩
    exact ⟨items, k, (hrows items k).mpr ⟨v, (hvalue _ _ _).mp hv, hdelivers⟩, hvs, hm⟩
  · cases hresult : p.result with
    | sequence t => exact hlist t hresult m.draws v k ((hvalue _ _ _).mp hv)
    | single t => exact ⟨[v], rfl⟩

/-- One of two people is taken and counted. -/
theorem run_count_of_people :
    let people : SetRef := ⟨"Person", "people"⟩
    let source : Expr := .constant (.query people) (.queryable (.entity "Person"))
    let first : Expr := .call (.operator "Take") none [source, .parameter "__n_0" .int]
      (.queryable (.entity "Person"))
    let p : Pipeline := ⟨people, [.take (.parameter "__n_0" .int), .count none], .single .int⟩
    let m : Memory :=
      ⟨KeyMap.ofList [⟨"people", [.record [⟨"Age", .int 36⟩], .record [⟨"Age", .int 41⟩]]⟩], 0⟩
    Pipeline.classify .standard (.call (.operator "Count") none [first] .int) = .ok p ∧
      run ⟨fun _ => ⟨0⟩, fun _ => ⟨0, 0⟩⟩ p [⟨"__n_0", .int 1⟩] m = (.ok [.ok (.int 1)], m) := by
  intro people source first p m
  have hclassify : Pipeline.classify .standard (.call (.operator "Count") none [first] .int) =
    .ok p := rfl
  refine ⟨hclassify, ?_⟩
  obtain ⟨hiff, -⟩ := run_eq_ok_iff_evaluate hclassify (by simp [p]) rfl
    (by simp [Method.isOperator, Method.operator]) (by simp [p, Operation.isTerminal])
    ⟨fun _ => ⟨0⟩, fun _ => ⟨0, 0⟩⟩ [⟨"__n_0", .int 1⟩] m m [.ok (.int 1)]
  exact hiff.mpr ⟨.int 1, 0, [.int 1], rfl, rfl, rfl, rfl⟩

end MemoryStore

end DeferredQuery
