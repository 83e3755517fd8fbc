import DeferredQuery.Proofs.Expr.Matching
import DeferredQuery.Proofs.Pipeline.Chain
import DeferredQuery.Schema.Basic

/-!
# Pipelines of shapes of one form

Two shapes of one form over the entity sets of one schema are classified to the same operations, in
the same order, on rows of the same entity type.
-/

namespace DeferredQuery

/-! ## Entity sets -/

namespace Expr

variable {schema : Schema}

/-- Whether a node is no entity set, or a set that the schema has for the same entity type. -/
def isRooted (schema : Schema) : Expr → Bool
  | .constant (.query root) _ => schema.sets.get? root.set == some root.entity
  | _ => true

def RootedIn (schema : Schema) (e : Expr) : Prop := ∀ n ∈ e.nodes, n.isRooted schema = true

instance (schema : Schema) (e : Expr) : Decidable (e.RootedIn schema) :=
  inferInstanceAs (Decidable (∀ n ∈ e.nodes, _))

theorem RootedIn.child {e c : Expr} (h : e.RootedIn schema) (hc : c ∈ e.children) :
    c.RootedIn schema := fun n hn => h n (mem_nodes_of_child hc hn)

theorem RootedIn.set {root : SetRef} {t : Ty}
    (h : (Expr.constant (.query root) t).RootedIn schema) :
    schema.sets.get? root.set = some root.entity := eq_of_beq (h _ (self_mem_nodes _))

structure MatchesIn (schema : Schema) (e e' : Expr) : Prop where
  form : e.Matches e'
  left : e.RootedIn schema
  right : e'.RootedIn schema

namespace MatchesIn

variable {e' : Expr}

theorem set {root : SetRef} {t : Ty} (h : (Expr.constant (.query root) t).MatchesIn schema e') :
    ∃ root' t', e' = .constant (.query root') t' ∧
      schema.sets.get? root.set = schema.sets.get? root'.set := by
  obtain ⟨v', rfl, hv⟩ := h.form.constant
  cases hv with
  | same => exact ⟨root, _, rfl, rfl⟩
  | query hentity => exact ⟨_, _, rfl, by rw [h.left.set, h.right.set, hentity]⟩

theorem call {m : Method} {args : List Expr} {t : Ty}
    (h : (Expr.call m none args t).MatchesIn schema e') :
    ∃ args' t', e' = .call m none args' t' ∧ List.Forall₂ (MatchesIn schema) args args' := by
  obtain ⟨r', args', t', rfl, hr, hargs⟩ := h.form.call
  cases hr
  exact ⟨args', t', rfl, forall₂_of_mem hargs fun a ha a' ha' hform =>
    ⟨hform, h.left.child (by simpa [children] using ha),
      h.right.child (by simpa [children] using ha')⟩⟩

end MatchesIn

end Expr

/-! ## Operations -/

/-- The same operation on matching arguments; two joins are with sets of one entity type. -/
inductive Operation.Matches (schema : Schema) : Operation → Operation → Prop where
  | filter {e e' : Expr} (h : e.Matches e') : Matches schema (.filter e) (.filter e')
  | select {e e' : Expr} (h : e.Matches e') : Matches schema (.select e) (.select e')
  | orderBy {e e' : Expr} (h : e.Matches e') (descending : Bool) :
    Matches schema (.orderBy e descending) (.orderBy e' descending)
  | thenBy {e e' : Expr} (h : e.Matches e') (descending : Bool) :
    Matches schema (.thenBy e descending) (.thenBy e' descending)
  | skip {e e' : Expr} (h : e.Matches e') : Matches schema (.skip e) (.skip e')
  | take {e e' : Expr} (h : e.Matches e') : Matches schema (.take e) (.take e')
  | distinct : Matches schema .distinct .distinct
  | join {inner inner' : SetRef} {outerKey outerKey' innerKey innerKey' result result' : Expr}
    (hset : schema.sets.get? inner.set = schema.sets.get? inner'.set)
    (houter : outerKey.Matches outerKey') (hinner : innerKey.Matches innerKey')
    (hresult : result.Matches result') :
    Matches schema (.join inner outerKey innerKey result) (.join inner' outerKey' innerKey' result')
  | count {e e' : Option Expr} (h : Option.Rel Expr.Matches e e') :
    Matches schema (.count e) (.count e')
  | any {e e' : Option Expr} (h : Option.Rel Expr.Matches e e') : Matches schema (.any e) (.any e')
  | first {e e' : Option Expr} (h : Option.Rel Expr.Matches e e') (orDefault : Bool) :
    Matches schema (.first e orDefault) (.first e' orDefault)
  | single {e e' : Option Expr} (h : Option.Rel Expr.Matches e e') :
    Matches schema (.single e) (.single e')
  | custom (name : String) {args args' : List Expr} (h : List.Forall₂ Expr.Matches args args') :
    Matches schema (.custom name args) (.custom name args')

namespace Classifier

variable {schema : Schema} {m : Method} {build : OperationBuilder} {args args' : List Expr}
  {op op' : Operation}

theorem unary_matches {make : Expr → Operation}
    (hargs : List.Forall₂ (Expr.MatchesIn schema) args args') (h : unary m make args = .ok op)
    (h' : unary m make args' = .ok op') :
    ∃ e e', e.Matches e' ∧ op = make e ∧ op' = make e' := by
  obtain ⟨e, rfl, rfl⟩ := unary_eq_ok h
  obtain ⟨e', rfl, rfl⟩ := unary_eq_ok h'
  exact ⟨e, e', (List.forall₂_cons.mp hargs).1.form, rfl, rfl⟩

theorem optional_matches {make : Option Expr → Operation}
    (hargs : List.Forall₂ (Expr.MatchesIn schema) args args') (h : optional m make args = .ok op)
    (h' : optional m make args' = .ok op') :
    ∃ e e', Option.Rel Expr.Matches e e' ∧ op = make e ∧ op' = make e' := by
  obtain ⟨e, rfl, rfl⟩ := optional_eq_ok h
  obtain ⟨e', rfl, rfl⟩ := optional_eq_ok h'
  refine ⟨e, e', ?_, rfl, rfl⟩
  cases e <;> cases e' <;> simp only [Option.toList_none, Option.toList_some] at hargs
  · exact .none
  · cases hargs
  · cases hargs
  · exact .some (List.forall₂_cons.mp hargs).1.form

theorem join_matches (hargs : List.Forall₂ (Expr.MatchesIn schema) args args')
    (h : join m args = .ok op) (h' : join m args' = .ok op') : op.Matches schema op' := by
  obtain ⟨inner, t, outerKey, innerKey, result, rfl, rfl⟩ := join_eq_ok h
  obtain ⟨inner', t', outerKey', innerKey', result', rfl, rfl⟩ := join_eq_ok h'
  simp only [List.forall₂_cons] at hargs
  obtain ⟨hset, houter, hinner, hresult, -⟩ := hargs
  obtain ⟨_, _, hroot, hset⟩ := hset.set
  cases hroot
  exact .join hset houter.form hinner.form hresult.form

/-- Operators that are classified alike differ at most in their arguments. -/
theorem builtins_matches (hm : builtins m = some build)
    (hargs : List.Forall₂ (Expr.MatchesIn schema) args args') (h : build args = .ok op)
    (h' : build args' = .ok op') : op.Matches schema op' := by
  unfold builtins at hm
  split at hm
  · -- one case per operator, with its own builder
    split at hm <;> cases hm
    any_goals
      obtain ⟨e, e', he, rfl, rfl⟩ := unary_matches hargs h h'
      constructor
      exact he
    any_goals
      obtain ⟨e, e', he, rfl, rfl⟩ := optional_matches hargs h h'
      constructor
      exact he
    · obtain ⟨-, rfl⟩ := nullary_eq_ok h
      obtain ⟨-, rfl⟩ := nullary_eq_ok h'
      exact .distinct
    · exact join_matches hargs h h'
  · cases hm

/-- One method on matching arguments gives matching operations. -/
theorem standard_matches {s s' : Pipeline.Step} (hmethod : s.method = s'.method)
    (hargs : List.Forall₂ (Expr.MatchesIn schema) s.args s'.args)
    (h : s.classify standard = .ok op) (h' : s'.classify standard = .ok op') :
    op.Matches schema op' := by
  unfold Pipeline.Step.classify at h h'
  rw [← hmethod] at h'
  cases hb : builtins s.method with
  | some build =>
      rw [standard_of_some hb] at h h'
      exact builtins_matches hb hargs h h'
  | none =>
      rw [standard_of_none hb, named] at h h'
      by_cases hn : s.method.name ∈ Items.passing
      · rw [if_pos hn] at h h'
        cases h
        cases h'
        exact .custom _ (hargs.imp fun _ _ hform => hform.form)
      · rw [if_neg hn] at h
        cases h

end Classifier

/-! ## Pipelines -/

namespace Pipeline

variable {schema : Schema}

/-- Matching expressions are chains of the same methods, from entity sets that the schema takes for
one. -/
theorem Chain.matches {e e' : Expr} {root root' : SetRef} {steps steps' : List Step}
    (hc : Chain e root steps) (h : e.MatchesIn schema e') (hc' : Chain e' root' steps') :
    schema.sets.get? root.set = schema.sets.get? root'.set ∧
      List.Forall₂ (fun s s' => s.method = s'.method ∧
        List.Forall₂ (Expr.MatchesIn schema) s.args s'.args) steps steps' := by
  induction hc generalizing e' root' steps' with
  | source root t =>
      obtain ⟨_, _, rfl, hset⟩ := h.set
      cases hc'
      exact ⟨hset, .nil⟩
  | step m args t hr _ ih =>
      obtain ⟨all', t', rfl, hall⟩ := h.call
      cases hc' with
      | step _ args' _ hr' hc' =>
          obtain ⟨hreceiver, hargs⟩ := List.forall₂_cons.mp hall
          obtain ⟨hset, hsteps⟩ := ih hreceiver hc'
          exact ⟨hset, List.rel_append hsteps (.cons ⟨rfl, hargs⟩ .nil)⟩

/-- Chains of matching steps give matching operations, one by one. -/
theorem classifySteps_matches {steps steps' : List Step}
    (h : List.Forall₂ (fun s s' => s.method = s'.method ∧
      List.Forall₂ (Expr.MatchesIn schema) s.args s'.args) steps steps')
    {ops ops' : List Operation} (hops : classifySteps .standard steps = .ok ops)
    (hops' : classifySteps .standard steps' = .ok ops') :
    List.Forall₂ (Operation.Matches schema) ops ops' := by
  induction h generalizing ops ops' with
  | nil =>
      cases hops
      cases hops'
      exact .nil
  | cons hstep _ ih =>
      obtain ⟨op, rest, hop, hrest, rfl⟩ := classifySteps_cons hops
      obtain ⟨op', rest', hop', hrest', rfl⟩ := classifySteps_cons hops'
      exact .cons (Classifier.standard_matches hstep.1 hstep.2 hop hop') (ih hrest hrest')

/-- Shapes of one form are classified to matching operations on sets of one entity type. -/
theorem classify_matches {e e' : Expr} (h : e.MatchesIn schema e') {p p' : Pipeline}
    (hp : classify .standard e = .ok p) (hp' : classify .standard e' = .ok p') :
    schema.sets.get? p.source.set = schema.sets.get? p'.source.set ∧
      List.Forall₂ (Operation.Matches schema) p.operations p'.operations := by
  obtain ⟨steps, hc, hops, -⟩ := classify_eq_ok hp
  obtain ⟨steps', hc', hops', -⟩ := classify_eq_ok hp'
  obtain ⟨hset, hsteps⟩ := hc.matches h hc'
  exact ⟨hset, classifySteps_matches hsteps hops hops'⟩

end Pipeline

end DeferredQuery
