import DeferredQuery.Proofs.Pipeline.Chain

/-!
# Rewrites that keep the spine

Arguments of the calls on a chain may be rewritten to expressions of the same static types. If the
calls, the entity set below them and the entity sets that are joined stay, the chain is classified
to the same operations on other arguments.
-/

namespace DeferredQuery

/-! ## Arguments and operations -/

/-- An expression of the same static type; an entity set stays as it is. -/
structure Expr.Stays (e e' : Expr) : Prop where
  ty : e'.ty = e.ty
  set : ∀ root t, e = .constant (.query root) t → e' = e

theorem Expr.Stays.trans {a b c : Expr} (h : a.Stays b) (h' : b.Stays c) : a.Stays c where
  ty := h'.ty.trans h.ty
  set root t ha := by
    obtain rfl := h.set root t ha
    exact h'.set root t ha

/-- The same operation, with the same flags and on the same set, with as many arguments of the same
static types. -/
inductive Operation.Stays : Operation → Operation → Prop where
  | filter {e e' : Expr} (h : e.Stays e') : Stays (.filter e) (.filter e')
  | select {e e' : Expr} (h : e.Stays e') : Stays (.select e) (.select e')
  | orderBy {e e' : Expr} (h : e.Stays e') (descending : Bool) :
    Stays (.orderBy e descending) (.orderBy e' descending)
  | thenBy {e e' : Expr} (h : e.Stays e') (descending : Bool) :
    Stays (.thenBy e descending) (.thenBy e' descending)
  | skip {e e' : Expr} (h : e.Stays e') : Stays (.skip e) (.skip e')
  | take {e e' : Expr} (h : e.Stays e') : Stays (.take e) (.take e')
  | distinct : Stays .distinct .distinct
  | join (inner : SetRef) {outerKey outerKey' innerKey innerKey' result result' : Expr}
    (houter : outerKey.Stays outerKey') (hinner : innerKey.Stays innerKey')
    (hresult : result.Stays result') :
    Stays (.join inner outerKey innerKey result) (.join inner outerKey' innerKey' result')
  | count {e e' : Option Expr} (h : Option.Rel Expr.Stays e e') : Stays (.count e) (.count e')
  | any {e e' : Option Expr} (h : Option.Rel Expr.Stays e e') : Stays (.any e) (.any e')
  | first {e e' : Option Expr} (h : Option.Rel Expr.Stays e e') (orDefault : Bool) :
    Stays (.first e orDefault) (.first e' orDefault)
  | single {e e' : Option Expr} (h : Option.Rel Expr.Stays e e') : Stays (.single e) (.single e')
  | custom (name : String) {args args' : List Expr} (h : List.Forall₂ Expr.Stays args args') :
    Stays (.custom name args) (.custom name args')

theorem Operation.Stays.isTerminal {op op' : Operation} (h : op.Stays op') :
    op'.isTerminal = op.isTerminal := by
  cases h <;> rfl

/-! ## Builders -/

namespace Classifier

variable {m : Method} {build : OperationBuilder} {args args' : List Expr} {op : Operation}

theorem unary_stays {make : Expr → Operation} (hargs : List.Forall₂ Expr.Stays args args')
    (h : unary m make args = .ok op) :
    ∃ e e', e.Stays e' ∧ op = make e ∧ unary m make args' = .ok (make e') := by
  obtain ⟨e, rfl, rfl⟩ := unary_eq_ok h
  match args', hargs with
  | [e'], .cons he .nil => exact ⟨e, e', he, rfl, rfl⟩

theorem optional_stays {make : Option Expr → Operation}
    (hargs : List.Forall₂ Expr.Stays args args') (h : optional m make args = .ok op) :
    ∃ e e', Option.Rel Expr.Stays e e' ∧ op = make e ∧ optional m make args' = .ok (make e') := by
  obtain ⟨e, rfl, rfl⟩ := optional_eq_ok h
  match e, args', hargs with
  | none, [], .nil => exact ⟨none, none, .none, rfl, rfl⟩
  | some e, [e'], .cons he .nil => exact ⟨some e, some e', .some he, rfl, rfl⟩

theorem join_stays (hargs : List.Forall₂ Expr.Stays args args') (h : join m args = .ok op) :
    ∃ op', op.Stays op' ∧ join m args' = .ok op' := by
  obtain ⟨inner, t, outerKey, innerKey, result, rfl, rfl⟩ := join_eq_ok h
  match args', hargs with
  | [_, outerKey', innerKey', result'],
      .cons hset (.cons houter (.cons hinner (.cons hresult .nil))) =>
      obtain rfl := hset.set inner t rfl
      exact ⟨_, .join inner houter hinner hresult, rfl⟩

/-- The builders of operations look at the number of arguments and at their types alone. -/
theorem builtins_stays (hm : builtins m = some build)
    (hargs : List.Forall₂ Expr.Stays args args') (h : build args = .ok op) :
    ∃ op', op.Stays op' ∧ build args' = .ok op' := by
  unfold builtins at hm
  split at hm
  · -- one case per operator, with its own builder
    split at hm <;> cases hm
    any_goals
      obtain ⟨e, e', he, rfl, h'⟩ := unary_stays hargs h
      refine ⟨_, ?_, h'⟩
      constructor
      exact he
    any_goals
      obtain ⟨e, e', he, rfl, h'⟩ := optional_stays hargs h
      refine ⟨_, ?_, h'⟩
      constructor
      exact he
    · obtain ⟨rfl, rfl⟩ := nullary_eq_ok h
      cases hargs
      exact ⟨_, .distinct, rfl⟩
    · exact join_stays hargs h
  · cases hm

end Classifier

/-! ## Spines -/

namespace Pipeline

structure Step.Stays (s s' : Step) : Prop where
  method : s'.method = s.method
  args : List.Forall₂ Expr.Stays s.args s'.args

/-- A step that stays is classified as the same operation. -/
theorem Step.Stays.classify {s s' : Step} (h : s.Stays s') {op : Operation}
    (hop : s.classify .standard = .ok op) :
    ∃ op', op.Stays op' ∧ s'.classify .standard = .ok op' := by
  obtain ⟨method, args'⟩ := s'
  obtain rfl : method = s.method := h.method
  have hargs : List.Forall₂ Expr.Stays s.args args' := h.args
  unfold Step.classify at hop ⊢
  cases hb : Classifier.builtins s.method with
  | some build =>
      rw [Classifier.standard_of_some hb] at hop ⊢
      exact Classifier.builtins_stays hb hargs hop
  | none =>
      rw [Classifier.standard_of_none hb, Classifier.named] at hop ⊢
      by_cases hn : s.method.name ∈ Items.passing
      · rw [if_pos hn] at hop ⊢
        cases hop
        exact ⟨_, .custom _ hargs, rfl⟩
      · rw [if_neg hn] at hop
        cases hop

/-- By induction on the steps. -/
theorem classifySteps_stays {steps steps' : List Step} (h : List.Forall₂ Step.Stays steps steps')
    {ops : List Operation} (hops : classifySteps .standard steps = .ok ops) :
    ∃ ops', List.Forall₂ Operation.Stays ops ops' ∧ classifySteps .standard steps' = .ok ops' := by
  induction h generalizing ops with
  | nil =>
      cases hops
      exact ⟨[], .nil, rfl⟩
  | cons hstep _ ih =>
      obtain ⟨op, rest, hop, hrest, rfl⟩ := classifySteps_cons hops
      obtain ⟨op', hop_stays, hop'⟩ := hstep.classify hop
      obtain ⟨rest', hrest_stays, hrest'⟩ := ih hrest
      refine ⟨op' :: rest', .cons hop_stays hrest_stays, ?_⟩
      simp [classifySteps, hop', hrest', bind, Except.bind, pure, Except.pure]

theorem resultTy_stays {ops ops' : List Operation} (h : List.Forall₂ Operation.Stays ops ops')
    (t : Ty) : resultTy ops' t = resultTy ops t := by
  have hterminal : ops'.map Operation.isTerminal = ops.map Operation.isTerminal := by
    induction h with
    | nil => rfl
    | cons hop _ ih => rw [List.map_cons, List.map_cons, hop.isTerminal, ih]
  have hlast : ops'.getLast?.any Operation.isTerminal = ops.getLast?.any Operation.isTerminal := by
    simpa [Option.any_map] using congrArg (fun bs : List Bool => bs.getLast?.any id) hterminal
  rw [resultTy_eq, resultTy_eq, hlast]

theorem forall₂_trans {α : Type} {R : α → α → Prop} {as bs cs : List α}
    (h : List.Forall₂ R as bs) (h' : List.Forall₂ R bs cs)
    (hR : ∀ a b c, R a b → R b c → R a c) : List.Forall₂ R as cs := by
  induction h generalizing cs with
  | nil => exact h'
  | cons hab _ ih =>
      cases h' with
      | cons hbc hrest => exact .cons (hR _ _ _ hab hbc) (ih hrest)

theorem Step.Stays.trans {s s' s'' : Step} (h : s.Stays s') (h' : s'.Stays s'') : s.Stays s'' :=
  ⟨h'.method.trans h.method, forall₂_trans h.args h'.args fun _ _ _ => Expr.Stays.trans⟩

/-- An expression of the same static type. If the given one is a chain of calls, then so is the
other, of the same methods on the same entity set. -/
structure SameSpine (e e' : Expr) : Prop where
  ty : e'.ty = e.ty
  chain : ∀ {root steps}, Chain e root steps →
    ∃ steps', Chain e' root steps' ∧ List.Forall₂ Step.Stays steps steps'

theorem SameSpine.trans {a b c : Expr} (h : SameSpine a b) (h' : SameSpine b c) :
    SameSpine a c where
  ty := h'.ty.trans h.ty
  chain hc := by
    obtain ⟨steps, hb, hsteps⟩ := h.chain hc
    obtain ⟨steps', hc', hsteps'⟩ := h'.chain hb
    exact ⟨steps', hc', forall₂_trans hsteps hsteps' fun _ _ _ => Step.Stays.trans⟩

/-- A rewrite that keeps the spine keeps the source, the operations and the result. -/
theorem SameSpine.classify {e e' : Expr} (h : SameSpine e e') {p : Pipeline}
    (hp : classify .standard e = .ok p) :
    ∃ p', classify .standard e' = .ok p' ∧ p'.source = p.source ∧
      List.Forall₂ Operation.Stays p.operations p'.operations ∧ p'.result = p.result := by
  obtain ⟨steps, hchain, hops, hresult⟩ := classify_eq_ok hp
  obtain ⟨steps', hchain', hsteps⟩ := h.chain hchain
  obtain ⟨ops', hstays, hops'⟩ := classifySteps_stays hsteps hops
  refine ⟨_, hchain'.classify hops', rfl, hstays, ?_⟩
  rw [resultTy_stays hstays, h.ty, hresult]

end Pipeline

end DeferredQuery
