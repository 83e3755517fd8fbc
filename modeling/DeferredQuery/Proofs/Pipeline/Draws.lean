import DeferredQuery.Proofs.Eval.Follows
import DeferredQuery.Proofs.Pipeline.Execution

/-!
# Pipelines that draw nothing

A run of a pipeline without calls that draw from the oracle leaves the contents of the store as
they are.
-/

namespace DeferredQuery

open Eval (Env EvalM Entails Oracle)

def Operation.DrawFree (op : Operation) : Prop := ∀ e ∈ op.arguments, e.DrawFree

def Pipeline.DrawFree (p : Pipeline) : Prop := ∀ op ∈ p.operations, op.DrawFree

theorem Pipeline.drawFree_of_classify {e : Expr} {p : Pipeline}
    (hp : Pipeline.classify .standard e = .ok p) (he : e.DrawFree) : p.DrawFree := by
  obtain ⟨steps, hchain, hops, -⟩ := classify_eq_ok hp
  intro op hop a ha n hn
  obtain ⟨s, hs, hclassify⟩ := mem_classifySteps hops hop
  have harg := Classifier.mem_args_of_standard hclassify ha
  exact he n (Expr.nodes_trans hn (hchain.mem_nodes hs harg))

namespace MemoryStore

theorem follows_self {e : Expr} (h : e.DrawFree) (env : Env) :
    Eval.Follows env env (Eval.Lookups env env) e e :=
  (Eval.follows_self_and_order (fun _ _ h => h) e h).1

theorem followsList_self {es : List Expr} (h : ∀ e ∈ es, e.DrawFree) (env : Env) :
    Eval.FollowsList env env (Eval.Lookups env env) es es :=
  List.forall₂_same.mpr fun e he => follows_self (h e he) env

theorem entails_apply_self {es : List Expr} (h : ∀ e ∈ es, e.DrawFree) (env : Env) (m : Method)
    (items : List Value) : Entails (Eval.apply env [] m items es) (Eval.apply env [] m items es) :=
  Eval.entails_apply (fun _ _ h => h) items (followsList_self h env) fun _ _ h => h

/-- A stage without draws gives the same wherever the oracle stands. -/
theorem entails_stage {stage : Stage} (h : ∀ op ∈ stage.operations, op.DrawFree) (env : Env)
    (items : List Value) : Entails (stage.run env items) (stage.run env items) := by
  cases stage with
  | sort key rest =>
      have hkeys : Eval.Items.KeysEntail items ((key :: rest).map (keyOf env))
          ((key :: rest).map (keyOf env)) := by
        refine List.forall₂_same.mpr fun k hk => ⟨fun v _ => ?_, rfl⟩
        obtain ⟨k', hk', rfl⟩ := List.mem_map.mp hk
        have hselector : k'.selector.DrawFree := by
          rcases List.mem_cons.mp hk' with rfl | hk'
          · exact h _ List.mem_cons_self _ List.mem_cons_self
          · exact h _ (List.mem_cons_of_mem _ (List.mem_map_of_mem hk')) _ List.mem_cons_self
        exact (follows_self hselector env).invoke [] [] (fun _ _ h => h) [v]
      exact (Eval.Items.entails_order hkeys).bind fun _ => .pure _
  | apply op =>
      by_cases hthen : ∃ key descending, op = .thenBy key descending
      · obtain ⟨key, descending, rfl⟩ := hthen
        exact .throw _
      · have hrun := apply_operands env items op .null fun key descending hop =>
          hthen ⟨key, descending, hop⟩
        rw [← hrun]
        refine entails_apply_self (fun e he => ?_) env _ items
        rcases Operation.mem_operands he with he | ⟨root, rfl⟩
        · exact h op List.mem_cons_self e he
        · exact .intro rfl (by simp [Expr.children])

theorem entails_runStages {stages : List Stage}
    (h : ∀ stage ∈ stages, ∀ op ∈ stage.operations, op.DrawFree) (env : Env) (v : Value) :
    Entails (runStages env v stages) (runStages env v stages) := by
  induction stages generalizing v with
  | nil => exact .pure v
  | cons stage stages ih =>
      cases v with
      | list items =>
          exact (entails_stage (h stage List.mem_cons_self) env items).bind fun w =>
            ih (fun s hs => h s (List.mem_cons_of_mem _ hs)) w
      | _ => exact .throw _

theorem entails_rows {p : Pipeline} (h : p.DrawFree) (env : Env) (source : List Value) :
    Entails (rows env source p) (rows env source p) := by
  refine (entails_runStages (fun stage hs op hop => ?_) env _).bind fun v => ?_
  · exact h op (Stage.mem_of_mem_operations hs hop)
  · split <;> exact .pure _

/-- A run leaves the store as it is. -/
theorem run_contents {p : Pipeline} (h : p.DrawFree) (oracle : Oracle) (params : Bindings)
    (m : Memory) : (run oracle p params m).2 = m := by
  cases hrun : run oracle p params m with
  | mk r m' =>
      cases r with
      | ok vs =>
          obtain ⟨items, k, hrows, -, rfl⟩ := run_eq_ok.mp hrun
          have hself := entails_rows h (m.env oracle params) (m.scan p.source)
          obtain rfl := hself.position hself hrows
          rfl
      | error e =>
          unfold run at hrun
          dsimp only at hrun
          split at hrun <;> cases hrun
          rfl

end MemoryStore

end DeferredQuery
