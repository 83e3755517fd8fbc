import DeferredQuery.Proofs.Sql.Conversions
import DeferredQuery.Shape.Extract

/-!
# Flattening a pipeline into one statement

The store runs the operations of a pipeline one after the other. A statement has one set of clauses
for all of them. Read by its clauses, the statement of a pipeline gives what the store makes of the
pipeline with its expressions as the statement holds them.
-/

namespace DeferredQuery

namespace MemoryStore

open Eval (Env EvalM Fails fails_bind fails_throw)

namespace Stage

theorem operations_ne_nil (stage : Stage) : stage.operations ≠ [] := by
  cases stage <;> simp [operations]

end Stage

/-- A secondary key that follows no sort ends the run. -/
theorem fails_of_thenBy_mem {env : Env} {key : Expr} {descending : Bool} {stages : List Stage}
    (h : Stage.apply (.thenBy key descending) ∈ stages) (v : Value) :
    Fails (runStages env v stages) := by
  induction stages generalizing v with
  | nil => cases h
  | cons stage stages ih =>
      have hstep : Fails (listItems v >>= fun items =>
          stage.run env items >>= fun w => runStages env w stages) := by
        refine fails_bind _ fun items => ?_
        rcases List.mem_cons.mp h with rfl | h
        · exact (fails_throw _).bind _
        · exact fails_bind _ fun w => ih h w
      intro n w k hw
      exact hstep n w k ((alike_runStages_cons env stage stages v n w k).mp hw)

end MemoryStore

namespace Sql

open Eval (Env EvalM lift_bind_pure)
open MemoryStore (Stage runStages)

namespace Reading

variable {rd : Reading} {rules : List FunctionRule} {env : Env} {s s' : Select}

/-! ## Clear statements -/

structure Clear (rd : Reading) (s : Select) : Prop where
  readable : rd.Readable s
  comparable : rd.Comparable s

/-- A statement with nothing but filters is clear if they have truth values. -/
theorem clear_of_filters {s : Select} (hjoin : s.join = none) (horder : s.order = [])
    (hoffset : s.offset = none) {entity : String}
    (hcurrent : s.current = .entity Select.outerName entity)
    (hfilter : ∀ f ∈ rd.outer s, ∀ t ∈ s.filters,
      ∃ v b, rd.value f t = .ok v ∧ v.holds = .ok b) : rd.Clear s := by
  have hjoined := @joined_of_none rd s hjoin
  refine ⟨⟨?_, ?_, hjoined ▸ hfilter, ?_, ?_, ?_⟩, ?_⟩
  · rw [hjoin]
    exact nofun
  · rw [hjoin]
    exact nofun
  · rw [horder]
    exact fun f _ => nofun
  · intro f hf
    rw [hjoined] at hf
    obtain ⟨cells, -, rfl⟩ := mem_outer hf
    rw [hcurrent]
    exact ⟨_, rfl⟩
  · rw [hoffset]
    exact nofun
  · intro k hk
    rw [horder] at hk
    cases hk

/-! ## Operations with a predicate -/

theorem filterBy_clauses {ctx : Context} {name : String} {predicate : Option Expr}
    (hfilter : s.filterBy ctx name predicate = .ok s') :
    s' = { s with filters := s'.filters } := by
  cases predicate with
  | none =>
      cases hfilter
      rfl
  | some e =>
      obtain ⟨-, term, -, rfl⟩ := Select.filter_eq_ok hfilter
      rfl

/-- A filter keeps the rows that a pass over the items keeps. -/
theorem kept_filterBy (hparams : env.params = some rd.params) (htyped : rd.Typed)
    (hs : rd.Clear s) (hcounted : rd.Counted s) {name : String} {predicate : Option Expr}
    (hcalls : ∀ e ∈ predicate.toList, e.CallFree)
    (hfilter : s.filterBy ⟨rd.schema, rules⟩ name predicate = .ok s')
    (hbool : ∀ f ∈ rd.joined s', ∀ t ∈ s'.filters,
      ∃ v b, rd.value f t = .ok v ∧ v.holds = .ok b) :
    rd.Counted s' ∧
      kept env (rd.rows s) (predicate.map fun e => e.lowered []) = pure (rd.rows s') := by
  have hclauses := filterBy_clauses hfilter
  have hcounted' : rd.Counted s' := by
    rw [hclauses]
    exact ⟨hcounted.offset, hcounted.limit⟩
  have hjoined : rd.joined s' = rd.joined s := by
    rw [hclauses]
    rfl
  refine ⟨hcounted', ?_⟩
  cases predicate with
  | none =>
      cases hfilter
      rfl
  | some e =>
      rw [hjoined] at hbool
      have horder := ordersOn_order htyped hs.readable hs.comparable
      exact kept_filter hparams horder hs.readable (hcalls e List.mem_cons_self) hfilter hbool

/-- An operation that ends a pipeline collapses the rows that its predicate keeps. -/
theorem run_filterBy (hparams : env.params = some rd.params) (htyped : rd.Typed)
    (hs : rd.Clear s) (hcounted : rd.Counted s) {op : Operation}
    (hop : op.lowered.isTerminal = true) {name : String} {predicate : Option Expr}
    (hpredicate : op.lowered.arguments = (predicate.map fun e => e.lowered []).toList)
    (hcalls : ∀ e ∈ predicate.toList, e.CallFree)
    (hfilter : s.filterBy ⟨rd.schema, rules⟩ name predicate = .ok s')
    (hbool : ∀ f ∈ rd.joined s', ∀ t ∈ s'.filters,
      ∃ v b, rd.value f t = .ok v ∧ v.holds = .ok b) :
    rd.Counted s' ∧ (Stage.apply op.lowered).run env (rd.rows s) =
      liftM (Items.collapse (.operator op.lowered.name) (rd.rows s')) := by
  obtain ⟨hcounted', hkept⟩ := kept_filterBy hparams htyped hs hcounted hcalls hfilter hbool
  refine ⟨hcounted', ?_⟩
  rw [run_terminal hop, hpredicate, Option.head?_toList, hkept, pure_bind]

theorem result_take_one (vs : List Value) (predicate : Option Expr) (orDefault : Bool) :
    result (vs.take 1) (.first orDefault) =
      Items.collapse (.operator (Operation.first predicate orDefault).name) vs := by
  cases vs <;> cases orDefault <;> rfl

/-! ## One operation -/

/-- The rows of each set are the ones of its table. -/
def Scans (rd : Reading) (env : Env) : Prop :=
  ∀ root e, Select.resolve rd.schema root = .ok e →
    env.items (.query root) = .ok ((rd.tables e.table).map (rd.schema.record e.name))

/-- The counts among the arguments of operations are read as counts. -/
def CountsRead (rd : Reading) (rules : List FunctionRule) (ops : List Operation) : Prop :=
  ∀ e t, .skip e ∈ ops ∨ .take e ∈ ops → lowerTerm ⟨rd.schema, rules⟩ [] e = .ok t → rd.IsCount t

/-- One operation adds to the statement what the evaluator does with the rows. -/
theorem run_apply (hparams : env.params = some rd.params) (htyped : rd.Typed)
    (hscans : rd.Scans env) {op : Operation} (hcalls : op.CallFree)
    (hthen : ∀ key descending, op ≠ .thenBy key descending) (hcounts : rd.CountsRead rules [op])
    (hs : rd.Clear s) (hcounted : rd.Counted s)
    (happly : s.apply ⟨rd.schema, rules⟩ op = .ok s') (hs' : rd.Clear s') :
    rd.Counted s' ∧ (Stage.apply op.lowered).run env (rd.rows s) =
      liftM (result (rd.rows s') s'.cardinality) := by
  obtain ⟨hmany, happly⟩ := Select.apply_eq_ok happly
  have horder := ordersOn_order htyped hs.readable hs.comparable
  cases op with
  | filter e =>
      have hkept := @kept_filter rd rules env s s' hparams horder hs.readable "Where" e
        (hcalls e List.mem_cons_self) happly
      obtain ⟨-, term, -, rfl⟩ := Select.filter_eq_ok happly
      have hkept := hkept hs'.readable.filter
      refine ⟨⟨hcounted.offset, hcounted.limit⟩, ?_⟩
      rw [Operation.lowered, run_filter, hkept, pure_bind, hmany]
      rfl
  | select e =>
      have hrun := @run_select rd rules env s s' hparams hs.readable e
        (hcalls e List.mem_cons_self) happly hs'.readable
      obtain ⟨-, row, -, rfl⟩ := Select.select_eq_ok happly
      refine ⟨⟨hcounted.offset, hcounted.limit⟩, ?_⟩
      rw [hmany]
      exact hrun
  | orderBy e descending =>
      have hfold : (Stage.sort ⟨e, descending⟩ []).operations.foldlM
          (Select.apply ⟨rd.schema, rules⟩) s = .ok s' := by
        refine bind_eq_ok.mpr ⟨s', ?_, rfl⟩
        rw [Select.apply, if_pos hmany]
        exact happly
      have hrun := @run_sort rd rules env s s' hparams htyped hs.readable hs.comparable
        ⟨e, descending⟩ [] (by simpa using hcalls e List.mem_cons_self) hfold hs'.readable
        hs'.comparable
      obtain ⟨-, term, -, rfl⟩ := Select.orderBy_eq_ok happly
      refine ⟨⟨hcounted.offset, hcounted.limit⟩, ?_⟩
      rw [hmany]
      cases descending <;> exact hrun
  -- a further key is part of the stage of the key that it refines
  | thenBy e descending => exact (hthen e descending rfl).elim
  | skip e =>
      obtain ⟨hcounted', hrun⟩ := run_skip hparams (hcalls e List.mem_cons_self) hcounted happly
        (fun t ht => hcounts e t (.inl List.mem_cons_self) ht) hs'.readable
      obtain ⟨-, t, -, rfl⟩ := Select.skip_eq_ok happly
      have hmany' : (s.skip t).cardinality = .many := hmany
      refine ⟨hcounted', ?_⟩
      rw [hmany']
      exact hrun
  | take e =>
      obtain ⟨hcounted', hrun⟩ := run_take hparams (hcalls e List.mem_cons_self) hcounted happly
        fun t ht => hcounts e t (.inr List.mem_cons_self) ht
      obtain ⟨t, -, rfl⟩ := Select.take_eq_ok happly
      have hmany' : (s.take t).cardinality = .many := hmany
      refine ⟨hcounted', ?_⟩
      rw [hmany']
      exact hrun
  | distinct =>
      have hrun := @run_distinct rd env s s' _ happly
      obtain ⟨-, -, rfl⟩ := Select.distinct_eq_ok happly
      refine ⟨⟨hcounted.offset, hcounted.limit⟩, ?_⟩
      rw [hmany]
      exact hrun
  | join inner outerKey innerKey made =>
      have hrun := @run_join rd rules env s s' hparams htyped hs.readable hs.comparable inner
        outerKey innerKey made
        ⟨hcalls _ (by simp [Operation.arguments]), hcalls _ (by simp [Operation.arguments]),
          hcalls _ (by simp [Operation.arguments])⟩ happly (hscans inner) hs'.readable
      obtain ⟨-, -, e, outerTerm, innerTerm, current, -, -, -, -, rfl⟩ := Select.join_eq_ok happly
      refine ⟨⟨hcounted.offset, hcounted.limit⟩, ?_⟩
      rw [hmany]
      exact hrun
  | count predicate =>
      obtain ⟨t, hfilter, rfl⟩ := Select.count_eq_ok happly
      obtain ⟨hcounted', hrun⟩ := @run_filterBy rd rules env s t hparams htyped hs hcounted
        (.count predicate) rfl _ predicate rfl hcalls hfilter hs'.readable.filter
      exact ⟨⟨hcounted'.offset, hcounted'.limit⟩, hrun⟩
  | any predicate =>
      obtain ⟨t, hfilter, rfl⟩ := Select.any_eq_ok happly
      obtain ⟨hcounted', hrun⟩ := @run_filterBy rd rules env s t hparams htyped hs hcounted
        (.any predicate) rfl _ predicate rfl hcalls hfilter hs'.readable.filter
      exact ⟨⟨hcounted'.offset, hcounted'.limit⟩, hrun⟩
  | first predicate orDefault =>
      obtain ⟨t, hfilter, rfl⟩ := Select.first_eq_ok happly
      obtain ⟨hcounted', hrun⟩ := @run_filterBy rd rules env s t hparams htyped hs hcounted
        (.first predicate orDefault) rfl _ predicate rfl hcalls hfilter hs'.readable.filter
      obtain ⟨hlimited, hrows⟩ := rows_take hcounted' isCount_one
      refine ⟨⟨hlimited.offset, hlimited.limit⟩, ?_⟩
      have hone : rd.count (.literal (.int 1)) = 1 := rfl
      rw [hrun, Operation.lowered, ← result_take_one, ← hone, ← hrows]
      rfl
  | single predicate => cases happly
  | custom name arguments =>
      obtain ⟨rfl, ⟨e, rfl⟩, comments, rfl⟩ := Select.custom_eq_ok happly
      refine ⟨⟨hcounted.offset, hcounted.limit⟩, ?_⟩
      rw [hmany]
      rfl

/-! ## Runs -/

theorem CountsRead.mono {ops all : List Operation} (h : rd.CountsRead rules all)
    (hops : ∀ op ∈ ops, op ∈ all) : rd.CountsRead rules ops :=
  fun e t he => h e t (he.imp (hops _) (hops _))

/-- A stage is a single operation, or a sort with all its keys. -/
theorem run_stage (hparams : env.params = some rd.params) (htyped : rd.Typed)
    (hscans : rd.Scans env) {stage : Stage} (hcalls : ∀ op ∈ stage.operations, op.CallFree)
    (hthen : ∀ key descending, stage ≠ .apply (.thenBy key descending))
    (hcounts : rd.CountsRead rules stage.operations) (hs : rd.Clear s) (hcounted : rd.Counted s)
    (hfold : stage.operations.foldlM (Select.apply ⟨rd.schema, rules⟩) s = .ok s')
    (hs' : rd.Clear s') :
    rd.Counted s' ∧ stage.lowered.run env (rd.rows s) =
      liftM (result (rd.rows s') s'.cardinality) := by
  cases stage with
  | sort key keys =>
      have hkeys : ∀ k ∈ key :: keys, k.selector.CallFree := by
        intro k hk
        rcases List.mem_cons.mp hk with rfl | hk
        · exact hcalls _ List.mem_cons_self _ List.mem_cons_self
        · exact hcalls _ (List.mem_cons_of_mem _ (List.mem_map_of_mem hk)) _ List.mem_cons_self
      have hrun := run_sort hparams htyped hs.readable hs.comparable hkeys hfold hs'.readable
        hs'.comparable
      have hmany : s.cardinality = .many := by
        obtain ⟨t, ht, -⟩ := bind_eq_ok.mp hfold
        exact (Select.apply_eq_ok ht).1
      obtain ⟨-, terms, n, -, rfl⟩ := Select.sort_eq_ok hfold
      refine ⟨⟨hcounted.offset, hcounted.limit⟩, ?_⟩
      rw [hrun, hmany]
      rfl
  | apply op =>
      obtain ⟨t, ht, hend⟩ := bind_eq_ok.mp hfold
      cases hend
      exact run_apply hparams htyped hscans (hcalls op List.mem_cons_self)
        (fun key descending hop => hthen key descending (congrArg Stage.apply hop)) hcounts hs
        hcounted ht hs'

/-- By induction on the stages, each of which adds to the statement of the ones before it. -/
theorem run_stages (hparams : env.params = some rd.params) (htyped : rd.Typed)
    (hscans : rd.Scans env) {stages : List Stage}
    (hcalls : ∀ op ∈ stages.flatMap Stage.operations, op.CallFree)
    (hthen : ∀ key descending, Stage.apply (.thenBy key descending) ∉ stages)
    (hcounts : rd.CountsRead rules (stages.flatMap Stage.operations))
    (hclear : ∀ ops t, ops <+: stages.flatMap Stage.operations →
      ops.foldlM (Select.apply ⟨rd.schema, rules⟩) s = .ok t → rd.Clear t)
    (hcounted : rd.Counted s) (hmany : s.cardinality = .many)
    (hfold : (stages.flatMap Stage.operations).foldlM (Select.apply ⟨rd.schema, rules⟩) s =
      .ok s') :
    runStages env (.list (rd.rows s)) (stages.map Stage.lowered) =
      liftM (result (rd.rows s') s'.cardinality) := by
  induction stages generalizing s with
  | nil =>
      cases hfold
      rw [hmany]
      rfl
  | cons stage stages ih =>
      simp only [List.flatMap_cons, List.mem_append] at hcalls hcounts hclear hfold
      rw [List.foldlM_append] at hfold
      obtain ⟨t, ht, hrest⟩ := bind_eq_ok.mp hfold
      obtain ⟨hcounted', hrun⟩ := run_stage hparams htyped hscans
        (fun op hop => hcalls op (.inl hop))
        (fun key descending h => hthen key descending (h ▸ List.mem_cons_self))
        (hcounts.mono fun op hop => List.mem_append_left _ hop)
        (hclear [] s (List.nil_prefix) rfl) hcounted ht
        (hclear _ t (List.prefix_append _ _) ht)
      rw [List.map_cons, runStages, hrun]
      by_cases hmany' : t.cardinality = .many
      · rw [hmany']
        refine ih (fun op hop => hcalls op (.inr hop))
          (fun key descending h => hthen key descending (List.mem_cons_of_mem _ h))
          (hcounts.mono fun op hop => List.mem_append_right _ hop) ?_ hcounted' hmany' hrest
        intro ops u hops hu
        refine hclear (stage.operations ++ ops) u (List.prefix_append_right_inj _ |>.mpr hops) ?_
        rw [List.foldlM_append, ht]
        exact hu
      · -- nothing is accepted after an operation that ends a pipeline
        cases stages with
        | nil =>
            cases hrest
            exact bind_pure _
        | cons next later =>
            obtain ⟨op, ops, hops⟩ := List.exists_cons_of_ne_nil next.operations_ne_nil
            rw [List.flatMap_cons, hops] at hrest
            obtain ⟨u, hu, -⟩ := bind_eq_ok.mp hrest
            exact absurd (Select.apply_eq_ok hu).1 hmany'

/-! ## Pipelines -/

theorem rows_source {root : SetRef} (h : Select.ofSource rd.schema root = .ok s) :
    ∃ e, Select.resolve rd.schema root = .ok e ∧ s.cardinality = .many ∧ rd.Counted s ∧
      rd.rows s = (rd.tables e.table).map (rd.schema.record e.name) := by
  obtain ⟨e, he, hs⟩ := bind_eq_ok.mp h
  cases hs
  refine ⟨e, he, rfl, ⟨nofun, nofun⟩, ?_⟩
  rw [rows_of_whole rfl, frames_of_empty rfl rfl rfl, outer, List.map_map]
  rfl

/-- The statements of a pipeline and of all shorter pipelines on the way to it are clear. -/
def ClearAlong (rd : Reading) (rules : List FunctionRule) (p : Pipeline) : Prop :=
  ∀ ops t, ops <+: p.operations →
    Select.ofPipeline ⟨rd.schema, rules⟩ { p with operations := ops } = .ok t → rd.Clear t

/-- The rows of a pipeline with lowered expressions are the ones that its statement is read as. -/
theorem rows_lowered (hparams : env.params = some rd.params) (htyped : rd.Typed)
    (hscans : rd.Scans env) {p : Pipeline} {t : Ty} (hcalls : p.CallFree)
    (hresult : p.result = Pipeline.resultTy p.operations t)
    (hthen : ∀ key descending,
      Stage.apply (.thenBy key descending) ∉ Stage.ofOperations p.operations)
    (hcounts : rd.CountsRead rules p.operations) (hclear : rd.ClearAlong rules p)
    (hlower : Select.ofPipeline ⟨rd.schema, rules⟩ p = .ok s) {source : List Value}
    (hsource : env.items (.query p.source) = .ok source) :
    MemoryStore.rows env source p.lowered = liftM (rd.answer s) := by
  obtain ⟨s₀, hs₀, hfold⟩ := bind_eq_ok.mp hlower
  obtain ⟨e, he, hmany, hcounted, hrows⟩ := rows_source hs₀
  obtain rfl : source = rd.rows s₀ := by
    rw [hscans _ e he, ← hrows] at hsource
    exact (Except.ok.inj hsource).symm
  have hops := Stage.flatMap_operations p.operations
  have hrun := @run_stages rd rules env s₀ s hparams htyped hscans
    (Stage.ofOperations p.operations) (by rwa [hops]) hthen (by rwa [hops])
    (fun ops u hprefix hu => hclear ops u (hops ▸ hprefix) (bind_eq_ok.mpr ⟨s₀, hs₀, hu⟩))
    hcounted hmany (by rwa [hops])
  have hsingle : p.result.isSingle = true ↔ s.cardinality ≠ .many := by
    rw [hresult]
    exact Select.isSingle_foldlM hmany hfold t
  have hstages : Stage.ofOperations p.lowered.operations =
      (Stage.ofOperations p.operations).map Stage.lowered :=
    Stage.ofOperations_lowered p.operations
  have hsame : p.lowered.result = p.result := rfl
  rw [MemoryStore.rows, hstages, hrun, hsame, answer]
  cases hcardinality : s.cardinality with
  | many =>
      have hsequence : p.result.isSingle = false := by
        rw [← Bool.not_eq_true, hsingle, not_not]
        exact hcardinality
      rw [hsequence]
      rfl
  | _ =>
      have hvalue : p.result.isSingle = true := by
        rw [hsingle, hcardinality]
        simp
      rw [hvalue]
      exact lift_bind_pure _ fun v => [v]

end Reading

open Reading

/-- The flattened statement is read as the run of its pipeline exactly when the run gives the same
with lowered expressions, and so whenever the conversions that the statement does without, and the
casts of its placeholders, keep the values that they are applied to. -/
theorem answer_eq_run_iff {rd : Reading} {rules : List FunctionRule} {shape : Expr} {p : Pipeline}
    {s : Select} (hp : Pipeline.classify .standard shape = .ok p) (hcalls : p.CallFree)
    (hlower : Select.ofPipeline ⟨rd.schema, rules⟩ p = .ok s) (htyped : rd.Typed)
    (hcounts : rd.CountsRead rules p.operations) (hclear : rd.ClearAlong rules p)
    {oracle : Eval.Oracle} {m m' : Memory} {vs : List Value}
    (hstored : rd.Scans (m.env oracle rd.params))
    (hrun : MemoryStore.run oracle p rd.params m = (.ok (vs.map .ok), m')) :
    (rd.answer s = .ok vs ↔
      MemoryStore.run oracle p.lowered rd.params m = (.ok (vs.map .ok), m)) ∧
    (p.Keeps (m.env oracle rd.params) (m.scan p.source) → rd.answer s = .ok vs) := by
  obtain ⟨steps, -, -, hresult⟩ := Pipeline.classify_eq_ok hp
  obtain ⟨items, k, hitems, -, -⟩ := MemoryStore.run_eq_ok.mp hrun
  have hthen : ∀ key descending,
      Stage.apply (.thenBy key descending) ∉ Stage.ofOperations p.operations := by
    intro key descending hmem
    obtain ⟨v, j, hv, -⟩ := Eval.bind_eq_ok.mp hitems
    exact MemoryStore.fails_of_thenBy_mem hmem _ _ _ _ hv
  have hrows := @rows_lowered rd rules (m.env oracle rd.params) s rfl htyped hstored p _ hcalls
    hresult hthen hcounts hclear hlower (m.scan p.source) rfl
  have hinj : Function.Injective (Except.ok : Value → Except EvalError Value) :=
    fun _ _ h => Except.ok.inj h
  have hlowered : rd.answer s = .ok vs ↔
      MemoryStore.run oracle p.lowered rd.params m = (.ok (vs.map .ok), m) := by
    rw [MemoryStore.run_eq_ok]
    constructor
    · intro hanswer
      refine ⟨vs, m.draws, ?_, rfl, rfl⟩
      change MemoryStore.rows _ (m.scan p.source) p.lowered m.draws = _
      rw [hrows, hanswer]
      rfl
    · rintro ⟨items, j, hitems, hvs, -⟩
      obtain rfl := hinj.list_map hvs
      change MemoryStore.rows _ (m.scan p.source) p.lowered m.draws = _ at hitems
      rw [hrows] at hitems
      exact (Eval.lift_eq_ok.mp hitems).1
  exact ⟨hlowered, fun hkeeps => hlowered.mpr (MemoryStore.run_lowered hcalls hkeeps hrun)⟩

/-! ## People by their age and score -/

def scoring : Schema :=
  (Schema.empty.withEntity ⟨"Person", "people",
    [⟨"Age", "Age", .int⟩, ⟨"Score", "Score", .nullable .int⟩]⟩).withSet "people" "Person"

def scorer : Cells := fun column => if column = "Age" then .int 36 else .int 37

def scorers : Memory :=
  ⟨KeyMap.ofList [⟨"people", [scoring.record "Person" scorer]⟩], 0⟩

def ageAnd (more : Expr) : Expr :=
  .convert (.binary .add (.member (.parameter "p" (.entity "Person")) "Age" .int) more)
    (.nullable .int)

def scoreIs (score : Expr) : Expr :=
  .lambda [⟨"p", .entity "Person"⟩]
    (.binary .eq score (.member (.parameter "p" (.entity "Person")) "Score" (.nullable .int)))

def scoreQuery (score : Expr) : Expr :=
  .call (.operator "Where") none
    [.constant (.query ⟨"Person", "people"⟩) (.queryable (.entity "Person")), scoreIs score]
    (.queryable (.entity "Person"))

def scorePipeline (score : Expr) : Pipeline :=
  ⟨⟨"Person", "people"⟩, [.filter (scoreIs score)], .sequence (.entity "Person")⟩

def scoreSelect (score : Term) : Select where
  table := "people"
  join := none
  filters := [.binary .eq score (.column "t0" "Score")]
  order := []
  primaryKeys := 0
  limit := none
  offset := none
  distinct := false
  comments := []
  current := .entity "t0" "Person"
  cardinality := .many

section Scored

variable {params : Bindings} {oracle : Eval.Oracle} {score : Expr} {term : Term} {v : Value}

/-- What is asked of the tables, the statements and the counts holds of the people. -/
theorem clear_scorePipeline
    (hlower : Select.ofPipeline ⟨scoring, []⟩ (scorePipeline score) = .ok (scoreSelect term))
    (hvalue : Reading.value ⟨scoring, fun _ => [scorer], params⟩ [⟨"t0", scorer⟩] term = .ok v) :
    ClearAlong ⟨scoring, fun _ => [scorer], params⟩ [] (scorePipeline score) := by
  have hfilter : Reading.value ⟨scoring, fun _ => [scorer], params⟩ [⟨"t0", scorer⟩]
      (.binary .eq term (.column "t0" "Score")) = .ok (.bool (v.looseEq (.int 37))) := by
    rw [value, if_neg (by decide), hvalue]
    rfl
  intro ops t hops ht
  rcases List.prefix_cons_iff.mp hops with rfl | ⟨rest, rfl, hrest⟩
  · cases ht
    exact clear_of_filters rfl rfl rfl rfl fun _ _ _ ht => (List.not_mem_nil ht).elim
  · obtain rfl := List.prefix_nil.mp hrest
    obtain rfl : scoreSelect term = t := Except.ok.inj (hlower.symm.trans ht)
    refine clear_of_filters rfl rfl rfl rfl ?_
    intro f hf t ht
    obtain rfl := List.mem_singleton.mp hf
    obtain rfl := List.mem_singleton.mp ht
    exact ⟨_, _, hfilter, rfl⟩

/-- The table of a set has its one row. -/
theorem scans_scorers :
    Scans ⟨scoring, fun _ => [scorer], params⟩ (scorers.env oracle params) := by
  rintro ⟨entity, set⟩ e he
  have hset : "people" = set := by
    by_contra hne
    have hnone : scoring.sets.get? set = none := by
      change Named.find? set [(⟨"people", "Person"⟩ : Named String)] = none
      rw [Named.find?_cons, if_neg hne]
      rfl
    rw [Select.resolve, hnone] at he
    cases he
  subst hset
  cases he
  rfl

/-- The filter keeps the one person whose score equals the value. -/
theorem run_scorePipeline (hvalue : Eval.value (scorers.env oracle params)
      [⟨"p", scoring.record "Person" scorer⟩] score = pure v) (hv : v.looseEq (.int 37) = true) :
    MemoryStore.run oracle (scorePipeline score) params scorers =
      (.ok [.ok (scoring.record "Person" scorer)], scorers) := by
  have hinvoke : Eval.invoke (scorers.env oracle params) [] [scoring.record "Person" scorer]
      (scoreIs score) = pure (.bool (v.looseEq (.int 37))) := by
    change Eval.value _ [⟨"p", scoring.record "Person" scorer⟩] _ = _
    rw [Eval.value, if_neg (by decide), hvalue]
    rfl
  have hkept : kept (scorers.env oracle params) [scoring.record "Person" scorer]
      (some (scoreIs score)) = pure [scoring.record "Person" scorer] := by
    rw [kept, Items.keep, hinvoke, hv]
    rfl
  have hstage : (Stage.apply (.filter (scoreIs score))).run (scorers.env oracle params)
      [scoring.record "Person" scorer] = pure (.list [scoring.record "Person" scorer]) := by
    rw [run_filter, hkept, pure_bind]
  have hstages : Stage.ofOperations (scorePipeline score).operations =
    [.apply (.filter (scoreIs score))] := rfl
  have hscan : scorers.scan (scorePipeline score).source = [scoring.record "Person" scorer] := rfl
  refine MemoryStore.run_eq_ok.mpr ⟨[scoring.record "Person" scorer], 0, ?_, rfl, rfl⟩
  rw [hscan, MemoryStore.rows, hstages, runStages, hstage]
  rfl

/-- The conversions of a filter are all that has to keep its values. -/
theorem keeps_scorePipeline {env : Env}
    (hkeeps : (scoreIs score).KeepsOn env [scoring.record "Person" scorer]) :
    (scorePipeline score).Keeps env [scoring.record "Person" scorer] := by
  intro before stage after hstages n items k hrun
  have hstages : [Stage.apply (.filter (scoreIs score))] = before ++ stage :: after := hstages
  obtain ⟨rfl, hstage⟩ | ⟨bs, rfl, hbs⟩ := List.cons_eq_append_iff.mp hstages
  · obtain ⟨rfl, -⟩ := List.cons.inj hstage
    obtain ⟨hitems, -⟩ := Eval.pure_eq_ok.mp hrun
    cases hitems
    intro v hv
    obtain rfl := List.mem_singleton.mp hv
    exact hkeeps
  · simp at hbs

theorem typed_scorers : Typed ⟨scoring, fun _ => [scorer], params⟩ := by
  have hint : ∀ column, (scorer column).ty = .int := by
    intro column
    unfold scorer
    split <;> rfl
  intro table column v _ w hw
  obtain rfl := List.mem_singleton.mp hw
  rw [hint]
  exact fun _ => nofun

theorem countsRead_scorePipeline {rd : Reading} {rules : List FunctionRule} :
    rd.CountsRead rules (scorePipeline score).operations := by
  rintro e t (h | h) <;> cases List.mem_singleton.mp h

theorem callFree_scorePipeline (hscore : score.CallFree) : (scorePipeline score).CallFree := by
  intro op hop e he m receiver args t hn
  obtain rfl := List.mem_singleton.mp hop
  obtain rfl := List.mem_singleton.mp he
  simp [scoreIs, Expr.nodes] at hn
  exact hscore _ _ _ _ hn

end Scored

/-- A captured whole number is added. -/
theorem answer_score_of_whole :
    let score : Expr := ageAnd (.parameter "__x_0" .int)
    let term : Term := .binary .add (.column "t0" "Age") (.cast (.parameter "__x_0") .int)
    let rd : Reading := ⟨scoring, fun _ => [scorer], [⟨"__x_0", .int 1⟩]⟩
    Pipeline.classify .standard (scoreQuery score) = .ok (scorePipeline score) ∧
      Select.ofPipeline ⟨scoring, []⟩ (scorePipeline score) = .ok (scoreSelect term) ∧
      rd.answer (scoreSelect term) = .ok [scoring.record "Person" scorer] := by
  intro score term rd
  have hlower : Select.ofPipeline ⟨scoring, []⟩ (scorePipeline score) =
    .ok (scoreSelect term) := rfl
  have hcalls : (scorePipeline score).CallFree := by
    refine callFree_scorePipeline fun m receiver args t hn => ?_
    simp [score, ageAnd, Expr.nodes] at hn
  have hequal : (Value.int 37).looseEq (.int 37) = true := by simp [Value.looseEq, Value.same]
  have hrun := @run_scorePipeline rd.params ⟨fun _ => ⟨0⟩, fun _ => ⟨0, 0⟩⟩ score (.int 37) rfl
    hequal
  refine ⟨rfl, hlower, ?_⟩
  have hiff := @answer_eq_run_iff rd [] (scoreQuery score) _ _ rfl hcalls hlower typed_scorers
    countsRead_scorePipeline (clear_scorePipeline hlower rfl)
    _ _ _ [scoring.record "Person" scorer] scans_scorers hrun
  refine hiff.2 (keeps_scorePipeline (Expr.Keeps.mk ?_ ?_))
  · intro operand t hn _ n v k hv
    simp [score, ageAnd, Expr.nodes] at hn
    obtain ⟨rfl, rfl⟩ := hn
    cases hv
    rfl
  · intro name t hn hbound _ v hv
    simp [score, ageAnd, Expr.nodes] at hn
    rcases hn with ⟨rfl, rfl⟩ | ⟨rfl, rfl⟩ | ⟨rfl, rfl⟩
    · exact absurd List.mem_cons_self hbound
    · cases hv
      rfl
    · exact absurd List.mem_cons_self hbound

/-- A captured float makes the sum a float. The store compares its whole part with the score, and
the statement the sum itself. -/
theorem answer_score_of_float :
    let captured : Expr :=
      .member (.constant (.closure "C" [⟨"x", .object, .float 1.5⟩]) (.closure "C")) "x" .object
    let clock : Eval.Oracle := ⟨fun _ => ⟨0⟩, fun _ => ⟨0, 0⟩⟩
    let score : Expr := ageAnd (.convert (.parameter "__x_0" .float) .object)
    let term : Term := .binary .add (.column "t0" "Age") (.cast (.parameter "__x_0") .float)
    let rd : Reading := ⟨scoring, fun _ => [scorer], [⟨"__x_0", .float 1.5⟩]⟩
    (extract clock (scoreQuery (ageAnd captured))).run ⟨[], 0⟩ =
        (.ok (scoreQuery score), ⟨rd.params, 0⟩) ∧
      Pipeline.classify .standard (scoreQuery score) = .ok (scorePipeline score) ∧
      (scorePipeline score).CallFree ∧
      Select.ofPipeline ⟨scoring, []⟩ (scorePipeline score) = .ok (scoreSelect term) ∧
      rd.Typed ∧ rd.CountsRead [] (scorePipeline score).operations ∧
      rd.ClearAlong [] (scorePipeline score) ∧ rd.Scans (scorers.env clock rd.params) ∧
      MemoryStore.run clock (scorePipeline score) rd.params scorers =
        (.ok [.ok (scoring.record "Person" scorer)], scorers) ∧
      rd.answer (scoreSelect term) = .ok [] := by
  intro captured clock score term rd
  have hsum : Binary64.ofInt64 36 + 1.5 = 37.5 := by decide +kernel
  have hwhole : Binary64.truncate 37.5 = 37 := by decide +kernel
  have hlower : Select.ofPipeline ⟨scoring, []⟩ (scorePipeline score) =
    .ok (scoreSelect term) := rfl
  have hcalls : (scorePipeline score).CallFree := by
    refine callFree_scorePipeline fun m receiver args t hn => ?_
    simp [score, ageAnd, Expr.nodes] at hn
  have hvalue : Eval.value (scorers.env clock rd.params)
      [⟨"p", scoring.record "Person" scorer⟩] score = pure (.int 37) := by
    have hsum' : Eval.value (scorers.env clock rd.params)
        [⟨"p", scoring.record "Person" scorer⟩] score =
      pure (.int (Binary64.truncate (Binary64.ofInt64 36 + 1.5))) := rfl
    rw [hsum', hsum, hwhole]
  have hterm : rd.value [⟨"t0", scorer⟩] term = .ok (.float 37.5) := by
    have hsum' : rd.value [⟨"t0", scorer⟩] term = .ok (.float (Binary64.ofInt64 36 + 1.5)) := rfl
    rw [hsum', hsum]
  have hequal : (Value.int 37).looseEq (.int 37) = true := by simp [Value.looseEq, Value.same]
  have hunequal : (Value.float 37.5).looseEq (.int 37) = false := by decide +kernel
  refine ⟨rfl, rfl, hcalls, hlower, typed_scorers, countsRead_scorePipeline,
    clear_scorePipeline hlower hterm, scans_scorers, run_scorePipeline hvalue hequal, ?_⟩
  have hfilter : rd.value [⟨"t0", scorer⟩] (.binary .eq term (.column "t0" "Score")) =
      .ok (.bool false) := by
    rw [value, if_neg (by decide), hterm]
    exact congrArg (fun b => Except.ok (Value.bool b)) hunequal
  have hholds : rd.holds (.binary .eq term (.column "t0" "Score")) [⟨"t0", scorer⟩] = false := by
    rw [holds, get_eq hfilter]
    rfl
  have hfiltered : rd.filtered (scoreSelect term) = [] := by
    refine List.filter_eq_nil_iff.mpr fun f hf => ?_
    obtain rfl := List.mem_singleton.mp hf
    change ¬(rd.holds (.binary .eq term (.column "t0" "Score")) [⟨"t0", scorer⟩] && true) = true
    rw [hholds]
    decide
  have hframes : rd.frames (scoreSelect term) = [] := by
    rw [frames_eq, hfiltered]
    exact List.mergeSort_nil
  have hmany : rd.answer (scoreSelect term) = .ok (rd.rows (scoreSelect term)) := rfl
  rw [hmany, rows_of_whole rfl, hframes]
  rfl

end Sql

end DeferredQuery
