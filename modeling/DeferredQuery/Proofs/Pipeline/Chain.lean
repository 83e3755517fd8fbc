import DeferredQuery.Eval.Items
import DeferredQuery.Pipeline.Classify
import DeferredQuery.Proofs.Expr.Nodes
import Mathlib.Data.List.Induction

/-!
# Chains of calls

The expressions that have a spine, the steps on it in the order of their work, and what each step
of a query operator stands for.
-/

namespace DeferredQuery

/-! ## Spines -/

namespace Pipeline

/-- An expression is a chain of calls from an entity set. -/
inductive Chain : Expr → SetRef → List Step → Prop where
  | source (root : SetRef) (t : Ty) : Chain (.constant (.query root) t) root []
  | step {receiver : Expr} {root : SetRef} {steps : List Step} (m : Method) (args : List Expr)
      (t : Ty) (hr : receiver.ty.isQueryable = true) (hc : Chain receiver root steps) :
      Chain (.call m none (receiver :: args) t) root (steps ++ [⟨m, args⟩])

theorem Chain.spine {e : Expr} {root : SetRef} {steps : List Step} (h : Chain e root steps)
    (later : List Step) : spine later e = .ok (root, steps ++ later) := by
  induction h generalizing later with
  | source root t => rfl
  | step m args t hr _ ih => simpa [Pipeline.spine, hr] using ih (⟨m, args⟩ :: later)

theorem chain_of_spine {later all : List Step} {e : Expr} {root : SetRef}
    (h : spine later e = .ok (root, all)) :
    ∃ steps, all = steps ++ later ∧ Chain e root steps := by
  fun_induction spine later e with
  | case1 later root' t =>
      cases h
      exact ⟨[], rfl, .source root t⟩
  | case2 later m receiver args t hr ih =>
      obtain ⟨steps, hall, hc⟩ := ih h
      exact ⟨steps ++ [⟨m, args⟩], by simp [hall], .step m args t hr hc⟩
  | case3 | case4 => cases h

theorem Chain.mem_nodes {e : Expr} {root : SetRef} {steps : List Step} (h : Chain e root steps)
    {s : Step} (hs : s ∈ steps) {a : Expr} (ha : a ∈ s.args) : a ∈ e.nodes := by
  induction h with
  | source root t => cases hs
  | @step receiver root steps m args t _ _ ih =>
      rcases List.mem_append.mp hs with hs | hs
      · exact Expr.mem_nodes_of_child (by simp [Expr.children]) (ih hs)
      · obtain rfl := List.mem_singleton.mp hs
        refine Expr.mem_nodes_of_child ?_ (Expr.self_mem_nodes a)
        simpa [Expr.children] using .inr ha

/-! ## Classified steps -/

theorem classifySteps_cons {c : Classifier} {s : Step} {steps : List Step}
    {ops : List Operation} (h : classifySteps c (s :: steps) = .ok ops) :
    ∃ op rest, s.classify c = .ok op ∧ classifySteps c steps = .ok rest ∧ ops = op :: rest := by
  cases hs : s.classify c with
  | error e => simp [classifySteps, hs, bind, Except.bind] at h
  | ok op =>
      cases hrest : classifySteps c steps with
      | error e => simp [classifySteps, hs, hrest, bind, Except.bind] at h
      | ok rest =>
          simp [classifySteps, hs, hrest, bind, Except.bind, pure, Except.pure] at h
          exact ⟨op, rest, rfl, rfl, h.symm⟩

/-- The operations of a longer chain are those of the shorter one and one more. -/
theorem classifySteps_concat {c : Classifier} {steps : List Step} {s : Step}
    {ops : List Operation} (h : classifySteps c (steps ++ [s]) = .ok ops) :
    ∃ before op, classifySteps c steps = .ok before ∧ s.classify c = .ok op ∧
      ops = before ++ [op] := by
  induction steps generalizing ops with
  | nil =>
      cases hs : s.classify c with
      | error e => simp [classifySteps, hs, bind, Except.bind] at h
      | ok op =>
          simp [classifySteps, hs, bind, Except.bind, pure, Except.pure] at h
          exact ⟨[], op, rfl, rfl, h.symm⟩
  | cons a steps ih =>
      cases ha : a.classify c with
      | error e => simp [classifySteps, ha, bind, Except.bind] at h
      | ok first =>
          cases hrest : classifySteps c (steps ++ [s]) with
          | error e => simp [classifySteps, ha, hrest, bind, Except.bind] at h
          | ok rest =>
              obtain ⟨before, op, hb, hs, rfl⟩ := ih hrest
              simp [classifySteps, ha, hrest, bind, Except.bind, pure, Except.pure] at h
              refine ⟨first :: before, op, ?_, hs, h.symm⟩
              simp [classifySteps, ha, hb, bind, Except.bind, pure, Except.pure]

/-- Each operation is that of a step. -/
theorem mem_classifySteps {c : Classifier} {steps : List Step} {ops : List Operation}
    (h : classifySteps c steps = .ok ops) {op : Operation} (hop : op ∈ ops) :
    ∃ s ∈ steps, s.classify c = .ok op := by
  induction steps using List.reverseRecOn generalizing ops with
  | nil =>
      cases h
      cases hop
  | append_singleton steps s ih =>
      obtain ⟨before, last, hbefore, hlast, rfl⟩ := classifySteps_concat h
      rcases List.mem_append.mp hop with hop | hop
      · obtain ⟨s', hs', hclassify⟩ := ih hbefore hop
        exact ⟨s', List.mem_append_left _ hs', hclassify⟩
      · obtain rfl := List.mem_singleton.mp hop
        exact ⟨s, by simp, hlast⟩

/-- A pipeline is that of a chain, and its operations are those of the chain's steps. -/
theorem classify_eq_ok {c : Classifier} {e : Expr} {p : Pipeline} (h : classify c e = .ok p) :
    ∃ steps, Chain e p.source steps ∧ classifySteps c steps = .ok p.operations ∧
      p.result = resultTy p.operations e.ty := by
  cases hs : spine [] e with
  | error err => simp [classify, hs, bind, Except.bind] at h
  | ok found =>
      obtain ⟨root, steps⟩ := found
      cases hops : classifySteps c steps with
      | error err => simp [classify, hs, hops, bind, Except.bind] at h
      | ok ops =>
          simp [classify, hs, hops, bind, Except.bind, pure, Except.pure] at h
          obtain ⟨own, hall, hc⟩ := chain_of_spine hs
          subst h
          rw [List.append_nil] at hall
          exact ⟨steps, hall ▸ hc, hops, rfl⟩

theorem Chain.classify {c : Classifier} {e : Expr} {source : SetRef} {steps : List Step}
    {ops : List Operation} (h : Chain e source steps) (hops : classifySteps c steps = .ok ops) :
    Pipeline.classify c e = .ok ⟨source, ops, resultTy ops e.ty⟩ := by
  have hspine := h.spine []
  rw [List.append_nil] at hspine
  simp [Pipeline.classify, hspine, hops, bind, Except.bind, pure, Except.pure]

theorem resultTy_eq (ops : List Operation) (t : Ty) : resultTy ops t =
    if ops.getLast?.any Operation.isTerminal then .single t
      else .sequence (t.element?.getD .unknown) := by
  unfold resultTy
  cases ops.getLast? <;> rfl

end Pipeline

/-! ## The steps of query operators -/

namespace Operation

def operands (t : Ty) : Operation → List Expr
  | join inner outerKey innerKey result =>
    [.constant (.query inner) t, outerKey, innerKey, result]
  | op => op.arguments

theorem mem_operands {op : Operation} {t : Ty} {e : Expr} (he : e ∈ op.operands t) :
    e ∈ op.arguments ∨ ∃ root, e = .constant (.query root) t := by
  cases op with
  | join inner outerKey innerKey result =>
      rcases List.mem_cons.mp he with rfl | he
      · exact .inr ⟨inner, rfl⟩
      · exact .inl he
  | _ => exact .inl he

/-- Of the operations known by name alone, only the hints that leave the rows as they are. -/
def Standard : Operation → Prop
  | custom name _ => name ∈ Items.passing
  | _ => True

end Operation

namespace Classifier

theorem unary_eq_ok {m : Method} {make : Expr → Operation} {args : List Expr} {op : Operation}
    (h : unary m make args = .ok op) : ∃ e, args = [e] ∧ op = make e := by
  match args, h with
  | [e], h => exact ⟨e, rfl, (Except.ok.inj h).symm⟩

theorem nullary_eq_ok {m : Method} {made : Operation} {args : List Expr} {op : Operation}
    (h : nullary m made args = .ok op) : args = [] ∧ op = made := by
  match args, h with
  | [], h => exact ⟨rfl, (Except.ok.inj h).symm⟩

theorem optional_eq_ok {m : Method} {make : Option Expr → Operation} {args : List Expr}
    {op : Operation} (h : optional m make args = .ok op) :
    ∃ e : Option Expr, args = e.toList ∧ op = make e := by
  match args, h with
  | [], h => exact ⟨none, rfl, (Except.ok.inj h).symm⟩
  | [e], h => exact ⟨some e, rfl, (Except.ok.inj h).symm⟩

theorem join_eq_ok {m : Method} {args : List Expr} {op : Operation} (h : join m args = .ok op) :
    ∃ root t outerKey innerKey result,
      args = [.constant (.query root) t, outerKey, innerKey, result] ∧
        op = .join root outerKey innerKey result := by
  unfold join at h
  split at h
  · exact ⟨_, _, _, _, _, rfl, (Except.ok.inj h).symm⟩
  · cases h
  · cases h

/-- An operator is classified under its own name, with its arguments as operands. -/
theorem step_of_builtins {m : Method} {build : OperationBuilder} {args : List Expr}
    {op : Operation} (hm : builtins m = some build) (h : build args = .ok op) :
    m = .operator op.name ∧ (∃ t, args = op.operands t) ∧ op.Standard := by
  obtain ⟨owner, name⟩ := m
  unfold builtins at hm
  split at hm
  · rename_i howner
    obtain rfl : owner = Method.queryable := eq_of_beq howner
    split at hm <;> rename_i hname <;> simp only at hname <;> cases hm
    any_goals
      obtain ⟨e, rfl, rfl⟩ := unary_eq_ok h
      exact ⟨hname ▸ rfl, ⟨.null, rfl⟩, trivial⟩
    any_goals
      obtain ⟨e, rfl, rfl⟩ := optional_eq_ok h
      exact ⟨hname ▸ rfl, ⟨.null, rfl⟩, trivial⟩
    · obtain ⟨rfl, rfl⟩ := nullary_eq_ok h
      exact ⟨hname ▸ rfl, ⟨.null, rfl⟩, trivial⟩
    · obtain ⟨root, t, outerKey, innerKey, result, rfl, rfl⟩ := join_eq_ok h
      exact ⟨hname ▸ rfl, ⟨t, rfl⟩, trivial⟩
  · cases hm

theorem standard_of_some {m : Method} {build : OperationBuilder} (h : builtins m = some build) :
    standard m = some build := by simp [standard, firstOf, h]

theorem standard_of_none {m : Method} (h : builtins m = none) :
    standard m = named Items.passing m := by simp [standard, firstOf, h, Items.passing]

/-- A method is one of the operators, or a hint that is kept by its name. -/
theorem standard_cases {s : Pipeline.Step} {op : Operation} (h : s.classify standard = .ok op) :
    (∃ build, builtins s.method = some build ∧ build s.args = .ok op) ∨
      s.method.name ∈ Items.passing ∧ op = .custom s.method.name s.args := by
  unfold Pipeline.Step.classify at h
  cases hb : builtins s.method with
  | some build =>
      rw [standard_of_some hb] at h
      exact .inl ⟨build, rfl, h⟩
  | none =>
      rw [standard_of_none hb, named] at h
      by_cases hn : s.method.name ∈ Items.passing
      · rw [if_pos hn] at h
        exact .inr ⟨hn, (Except.ok.inj h).symm⟩
      · rw [if_neg hn] at h
        cases h

/-- A step of a query operator is the call that its operation stands for. -/
theorem step_of_standard {s : Pipeline.Step} {op : Operation} (hs : s.method.isOperator = true)
    (h : s.classify standard = .ok op) :
    s.method = .operator op.name ∧ (∃ t, s.args = op.operands t) ∧ op.Standard := by
  rcases standard_cases h with ⟨build, hb, hbuild⟩ | ⟨hn, rfl⟩
  · exact step_of_builtins hb hbuild
  · obtain ⟨⟨owner, name⟩, args⟩ := s
    obtain rfl : owner = Method.queryable := eq_of_beq hs
    exact ⟨rfl, ⟨.null, rfl⟩, hn⟩

theorem standard_of_classifySteps {steps : List Pipeline.Step} {ops : List Operation}
    (hown : ∀ s ∈ steps, s.method.isOperator = true)
    (h : Pipeline.classifySteps standard steps = .ok ops) : ∀ op ∈ ops, op.Standard := by
  intro op hop
  obtain ⟨s, hs, hclassify⟩ := Pipeline.mem_classifySteps h hop
  exact (step_of_standard (hown s hs) hclassify).2.2

/-- The arguments of an operation are arguments of its step. -/
theorem mem_args_of_standard {s : Pipeline.Step} {op : Operation}
    (h : s.classify standard = .ok op) {e : Expr} (he : e ∈ op.arguments) : e ∈ s.args := by
  rcases standard_cases h with ⟨build, hb, hbuild⟩ | ⟨-, rfl⟩
  · obtain ⟨-, ⟨t, hargs⟩, -⟩ := step_of_builtins hb hbuild
    rw [hargs]
    cases op with
    | join => exact List.mem_cons_of_mem _ he
    | _ => exact he
  · exact he

end Classifier

end DeferredQuery
