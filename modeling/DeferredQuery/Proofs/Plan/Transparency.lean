import DeferredQuery.MemoryStore
import DeferredQuery.Proofs.Pipeline.Draws
import DeferredQuery.Proofs.Plan.Runs
import DeferredQuery.Proofs.Shape.Replacement
import DeferredQuery.Proofs.Shape.Tagged
import DeferredQuery.QueryText.Typing

/-!
# When plan caching shows

Queries that draw nothing are run one after another over the store in memory, with a cache of plans
and without. The results agree for all sequences of queries exactly if any two of the queries whose
shapes have one text can share a plan.
-/

namespace DeferredQuery

open Eval (Oracle)

/-- Whatever its capacity, an empty cache keeps the first plan put into it. -/
theorem PlanCache.keeps_first {α : Type} (capacity : Nat) (victim : Nat → Nat) (k : PlanKey) :
    ∃ c : PlanCache α, (PlanCache.keeping (.empty capacity victim)).get k = (none, c) ∧
      ∀ a, ∃ c' c'', c.insert k a = (a, c') ∧ c'.get k = (some a, c'') := by
  refine ⟨_, rfl, fun a => ?_⟩
  have hroom : ∀ st : PlanStore α, st.entries = [] → st.makeRoom = st := by
    intro st hst
    simp [PlanStore.makeRoom, PlanStore.isFull, hst]
    omega
  simp [PlanCache.insert, PlanStore.insert, PlanStore.find?, PlanStore.empty, hroom,
    PlanCache.get, PlanStore.get]

namespace MemoryStore

/-! ## Sequences of queries -/

def compiler (schema : Schema) (oracle : Oracle) : Compiler Memory MemoryStoreError EvalError :=
  ⟨store schema oracle, .standard, .standard, oracle⟩

/-- Runs queries one after another, each in a fresh context; an error is no result. -/
def executeAll (c : Compiler Memory MemoryStoreError EvalError) :
    Session Memory EvalError → List Expr → List (Option (List Value))
  | _, [] => []
  | session, q :: qs =>
    let (r, call) := (c.execute q).run ⟨[], session⟩
    r.toOption :: executeAll c call.session qs

/-! ## One query -/

section Query

variable (schema : Schema) (oracle : Oracle) (m : Memory)

/-- The shape of a query with the values extracted from it. -/
def prepare (q : Expr) : Option (Expr × Bindings) :=
  match ((compiler schema oracle).shape q).run ⟨[], 0⟩ with
  | (.ok s, st) => some (s, st.params)
  | (.error _, _) => none

def compiled (s : Expr) : Option Pipeline :=
  match Pipeline.classify .standard s with
  | .ok p =>
    match check schema p with
    | .ok () => some p
    | .error _ => none
  | .error _ => none

def answer (p : Pipeline) (params : Bindings) : Option (List Value) :=
  match (run oracle p params m).1 with
  | .ok rows => (Compiler.collect rows : Except (QueryError MemoryStoreError EvalError) _).toOption
  | .error _ => none

/-- The rows of a query on its own. -/
def alone (q : Expr) : Option (List Value) := do
  let (s, params) ← prepare schema oracle q
  let p ← compiled schema s
  answer oracle m p params

end Query

/-- Wherever the oracle stands, a shape is the same, and so are the values bound for it. -/
theorem shape_fixed (schema : Schema) (oracle : Oracle) (q : Expr) (bound : Bindings) :
    ∃ r bound', ∀ n, ((compiler schema oracle).shape q).run ⟨bound, n⟩ = (r, ⟨bound', n⟩) := by
  have hvisit := Extract.fixed_visit (VolatileMethods.sealed_tag (fun _ hm => hm) q false)
  obtain ⟨r, bound', hrun⟩ := (hvisit.bind fun s => .pure s.untag) bound
  exact ⟨r, bound', hrun oracle⟩

theorem drawFree_of_shape {schema : Schema} {oracle : Oracle} {q s : Expr} (hq : q.DrawFree)
    {st st' : Extract.State} (h : ((compiler schema oracle).shape q).run st = (.ok s, st')) :
    s.DrawFree := by
  obtain ⟨shape, st'', hshape, huntag⟩ := Extract.run_bind_eq_ok.mp h
  cases huntag
  have htag := VolatileMethods.drawFree_tag .standard hq
  exact (Extract.drawFree_shape (Extract.shapedBy_replaced hshape) htag).untag

/-- The shape does not depend on where the oracle stands. -/
theorem shape_run {schema : Schema} {oracle : Oracle} {q : Expr} (hq : q.DrawFree) (n : Nat) :
    match prepare schema oracle q with
    | some (s, params) => s.DrawFree ∧
        ∃ k, ((compiler schema oracle).shape q).run ⟨[], n⟩ = (.ok s, ⟨params, k⟩)
    | none => ∃ e st, ((compiler schema oracle).shape q).run ⟨[], n⟩ = (.error e, st) := by
  obtain ⟨r, bound, hrun⟩ := shape_fixed schema oracle q []
  unfold prepare
  rw [hrun 0]
  cases r with
  | error e => exact ⟨e, _, hrun n⟩
  | ok s => exact ⟨drawFree_of_shape hq (hrun 0), n, hrun n⟩

/-! ## Plans of the store -/

section Plans

variable {schema : Schema} {oracle : Oracle}

theorem compile_store (p : Pipeline) (t : Ty) (mode : Mode) (m : Memory) :
    (store schema oracle).compile p t mode m =
      ((check schema p).map fun _ => ⟨mode, run oracle p⟩, m) := by
  simp only [store]
  cases check schema p <;> rfl

theorem compile_of_check {p : Pipeline} (hcheck : check schema p = .ok ()) (t : Ty) (mode : Mode)
    (m : Memory) : (store schema oracle).compile p t mode m = (.ok ⟨mode, run oracle p⟩, m) := by
  rw [compile_store, hcheck]
  rfl

/-- A shape is compiled if it is a pipeline over sets and operations that the store has. -/
theorem compiled_eq_some {s : Expr} {p : Pipeline} :
    compiled schema s = some p ↔
      Pipeline.classify .standard s = .ok p ∧ check schema p = .ok () := by
  unfold compiled
  cases Pipeline.classify .standard s with
  | error e => simp
  | ok p' =>
      cases hcheck : check schema p' with
      | error e =>
          simp only [hcheck, reduceCtorEq, Except.ok.injEq, false_iff, not_and]
          rintro rfl
          simp [hcheck]
      | ok u =>
          simp only [hcheck, Option.some.injEq, Except.ok.injEq]
          refine ⟨?_, And.left⟩
          rintro rfl
          exact ⟨rfl, hcheck⟩

/-- A plan runs a pipeline of some shape with its key. -/
theorem compiled_of_compiles {S : Expr → Prop} {k : PlanKey} {plan : Plan Memory EvalError}
    (h : (compiler schema oracle).Compiles S k plan) :
    ∃ s p, S s ∧ s.text = k.shape ∧ compiled schema s = some p ∧
      plan.executor = ⟨k.mode, run oracle p⟩ := by
  obtain ⟨s, p, m, m', hs, hkey, hclassify, hcompile⟩ := h
  have hstore := (compile_store p p.result.element k.mode m).symm.trans hcompile
  cases hcheck : check schema p with
  | error e =>
      rw [hcheck] at hstore
      cases hstore
  | ok u =>
      rw [hcheck] at hstore
      obtain ⟨hexecutor, -⟩ := Prod.mk.inj hstore
      exact ⟨s, p, hs, (congrArg PlanKey.shape hkey).symm,
        compiled_eq_some.mpr ⟨hclassify, hcheck⟩, (Except.ok.inj hexecutor).symm⟩

/-- What fails to be classified or checked is not compiled. -/
theorem compiled_of_fails {s : Expr} {mode : Mode} {m : Memory}
    {e : QueryError MemoryStoreError EvalError}
    (h : (compiler schema oracle).Fails mode s m e) : compiled schema s = none := by
  cases hcompiled : compiled schema s with
  | none => rfl
  | some p =>
      obtain ⟨hclassify, hcheck⟩ := compiled_eq_some.mp hcompiled
      cases h with
      | unclassified herror => cases herror.symm.trans hclassify
      | uncompiled hok hcompile =>
          cases hok.symm.trans hclassify
          have hstore := (compile_store p p.result.element mode m).symm.trans hcompile
          rw [hcheck] at hstore
          cases hstore

theorem drawFree_of_prepare {q s : Expr} {params : Bindings} (hq : q.DrawFree)
    (hprepare : prepare schema oracle q = some (s, params)) : s.DrawFree := by
  have hshape := @shape_run schema oracle q hq 0
  rw [hprepare] at hshape
  exact hshape.1

theorem drawFree_of_compiled {s : Expr} {p : Pipeline} (hs : s.DrawFree)
    (hcompiled : compiled schema s = some p) : p.DrawFree :=
  Pipeline.drawFree_of_classify (compiled_eq_some.mp hcompiled).1 hs

end Plans

/-! ## One call -/

section Call

variable {schema : Schema} {oracle : Oracle} {q : Expr}

theorem answer_eq (p : Pipeline) (params : Bindings) (m : Memory) : answer oracle m p params =
    ((Compiler.started (run oracle p params m).1 : Except (QueryError MemoryStoreError EvalError) _)
      >>= Compiler.collect).toOption := by
  unfold answer
  cases (run oracle p params m).1 <;> rfl

/-- A plan that runs a pipeline gives its rows and leaves the contents as they are. -/
theorem execute_run_ok {call call' : Call Memory EvalError} {plan : Plan Memory EvalError}
    {p : Pipeline} (hp : p.DrawFree) (hexecutor : plan.executor = ⟨.sync, run oracle p⟩)
    (hplan : ((compiler schema oracle).plan .sync q).run call = (.ok plan, call')) :
    ∃ r, ((compiler schema oracle).execute q).run call = (r, call') ∧
      r.toOption = answer oracle call'.session.contents p call'.params := by
  have hmode : plan.executor.mode = .sync := by rw [hexecutor]
  have hdelivered := Compiler.delivered_run_ok hplan hmode
  rw [hexecutor] at hdelivered
  dsimp only at hdelivered
  rw [run_contents hp] at hdelivered
  refine ⟨_, ?_, (answer_eq p call'.params call'.session.contents).symm⟩
  rw [Compiler.execute_run, hdelivered]

/-- A query gives what it gives on its own if that is what the plans of the cache give for its
text. -/
theorem execute_filled {S : Expr → Prop} (hS : ∀ s, S s → s.DrawFree) (hq : q.DrawFree)
    {session : Session Memory EvalError}
    (hcache : (compiler schema oracle).Filled S session.cache)
    (hshared : ∀ s params, prepare schema oracle q = some (s, params) → S s ∧
      ∀ s₀ p, S s₀ → compiled schema s₀ = some p → s₀.text = s.text →
        answer oracle session.contents p params = alone schema oracle session.contents q) :
    ∃ r call, ((compiler schema oracle).execute q).run ⟨[], session⟩ = (r, call) ∧
      r.toOption = alone schema oracle session.contents q ∧
      call.session.contents = session.contents ∧
      (compiler schema oracle).Filled S call.session.cache := by
  have hshape := @shape_run schema oracle q hq session.draws
  cases hprepare : prepare schema oracle q with
  | none =>
      rw [hprepare] at hshape
      obtain ⟨e, st, hrun⟩ := hshape
      have hplan : ((compiler schema oracle).plan .sync q).run ⟨[], session⟩ =
          (.error (.extraction e), ⟨st.params, { session with draws := st.draws }⟩) := by
        rw [Compiler.plan_run, hrun]
      refine ⟨_, _, by rw [Compiler.execute_run, Compiler.delivered_run_error hplan], ?_, rfl,
        hcache⟩
      have halone : alone schema oracle session.contents q = none := by simp [alone, hprepare]
      rw [halone]
      rfl
  | some prepared =>
      obtain ⟨s, params⟩ := prepared
      rw [hprepare] at hshape
      obtain ⟨-, d, hrun⟩ := hshape
      obtain ⟨hs, hanswer⟩ := hshared s params hprepare
      let after : Call Memory EvalError := ⟨params, { session with draws := d }⟩
      have hafter : (compiler schema oracle).Filled S after.session.cache := hcache
      obtain ⟨r, cache, contents, compiles, hplanOf, hfilled, hcontents, hr⟩ :=
        Compiler.planOf_filled hafter hs .sync
      obtain rfl : contents = session.contents := by
        rcases hcontents with rfl | ⟨p, rfl⟩
        · rfl
        · exact congrArg Prod.snd (compile_store p p.result.element .sync session.contents)
      have hplan : ((compiler schema oracle).plan .sync q).run ⟨[], session⟩ =
          (r, ⟨params, ⟨cache, session.contents, compiles, d⟩⟩) := by
        rw [Compiler.plan_run_of_shape hrun]
        exact hplanOf
      rcases hr with ⟨e, rfl, hfails⟩ | ⟨plan, rfl, hcompiles⟩
      · refine ⟨_, _, by rw [Compiler.execute_run, Compiler.delivered_run_error hplan], ?_, rfl,
          hfilled⟩
        have halone : alone schema oracle session.contents q = none := by
          simp [alone, hprepare, compiled_of_fails hfails]
        rw [halone]
        rfl
      · obtain ⟨s₀, p, hs₀, htext, hcompiled, hexecutor⟩ := compiled_of_compiles hcompiles
        have hp := drawFree_of_compiled (hS s₀ hs₀) hcompiled
        obtain ⟨r, hexecute, hr⟩ := execute_run_ok hp hexecutor hplan
        exact ⟨r, _, hexecute, hr.trans (hanswer s₀ p hs₀ hcompiled htext), rfl, hfilled⟩

end Call

/-! ## Runs -/

section Runs

variable (schema : Schema) (oracle : Oracle) (m : Memory) (Q : Expr → Prop)

/-- Queries of the set whose shapes have one text can run each other's plans. -/
def Shares : Prop :=
  ∀ q q' s s' params params' p, Q q → Q q' → prepare schema oracle q = some (s, params) →
    compiled schema s = some p → prepare schema oracle q' = some (s', params') →
    s.text = s'.text → answer oracle m p params' = alone schema oracle m q'

def Prepared (s : Expr) : Prop := ∃ q params, Q q ∧ prepare schema oracle q = some (s, params)

variable {schema oracle m Q}

theorem drawFree_of_prepared (hdraw : ∀ q, Q q → q.DrawFree) {s : Expr}
    (hs : Prepared schema oracle Q s) : s.DrawFree := by
  obtain ⟨q, params, hq, hprepare⟩ := hs
  exact drawFree_of_prepare (hdraw q hq) hprepare

/-- Queries give what they give on their own if each of them does so over any cache that the ones
before it can leave. -/
theorem executeAll_eq_alone {I : PlanCache (Plan Memory EvalError) → Prop}
    (hstep : ∀ q session, Q q → session.contents = m → I session.cache →
      ∃ r call, ((compiler schema oracle).execute q).run ⟨[], session⟩ = (r, call) ∧
        r.toOption = alone schema oracle m q ∧ call.session.contents = m ∧ I call.session.cache)
    {session : Session Memory EvalError} (hm : session.contents = m) (hcache : I session.cache)
    {qs : List Expr} (hqs : ∀ q ∈ qs, Q q) :
    executeAll (compiler schema oracle) session qs = qs.map (alone schema oracle m) := by
  induction qs generalizing session with
  | nil => rfl
  | cons q qs ih =>
      obtain ⟨r, call, hrun, hr, hm', hcache'⟩ :=
        hstep q session (hqs q List.mem_cons_self) hm hcache
      rw [executeAll, hrun, List.map_cons]
      simp only [hr]
      rw [ih hm' hcache' fun q hq => hqs q (List.mem_cons_of_mem _ hq)]

theorem executeAll_of_shares (hdraw : ∀ q, Q q → q.DrawFree) (hshares : Shares schema oracle m Q)
    {session : Session Memory EvalError} (hm : session.contents = m)
    (hcache : (compiler schema oracle).Filled (Prepared schema oracle Q) session.cache)
    {qs : List Expr} (hqs : ∀ q ∈ qs, Q q) :
    executeAll (compiler schema oracle) session qs = qs.map (alone schema oracle m) := by
  refine executeAll_eq_alone (fun q session hq hm hcache => ?_) hm hcache hqs
  subst hm
  refine execute_filled (fun s hs => drawFree_of_prepared hdraw hs) (hdraw q hq) hcache ?_
  intro s params hprepare
  refine ⟨⟨q, params, hq, hprepare⟩, ?_⟩
  rintro s₀ p ⟨q₀, params₀, hq₀, hprepare₀⟩ hcompiled htext
  exact hshares q₀ q s₀ s params₀ params p hq₀ hq hprepare₀ hcompiled hprepare htext

/-- Without cached plans each query runs a plan of its own. -/
theorem executeAll_disabled (hdraw : ∀ q, Q q → q.DrawFree) {session : Session Memory EvalError}
    (hm : session.contents = m) {n : Nat} (hcache : session.cache = .disabled n) {qs : List Expr}
    (hqs : ∀ q ∈ qs, Q q) :
    executeAll (compiler schema oracle) session qs = qs.map (alone schema oracle m) := by
  refine executeAll_eq_alone (I := fun cache => ∃ n, cache = .disabled n)
    (fun q session hq hm hcache => ?_) hm ⟨n, hcache⟩ hqs
  subst hm
  obtain ⟨n, hdisabled⟩ := hcache
  -- only the shape of the query itself is in the set
  have hempty : (compiler schema oracle).Filled
      (fun s => ∃ params, prepare schema oracle q = some (s, params)) session.cache := by
    rw [hdisabled]
    exact nofun
  have hfree : ∀ s, (∃ params, prepare schema oracle q = some (s, params)) → s.DrawFree := by
    rintro s ⟨params, hprepare⟩
    exact drawFree_of_prepare (hdraw q hq) hprepare
  obtain ⟨r, call, hrun, hr, hcontents, -⟩ := execute_filled hfree (hdraw q hq) hempty (by
    intro s params hprepare
    refine ⟨⟨params, hprepare⟩, ?_⟩
    rintro s₀ p ⟨params₀, hprepare₀⟩ hcompiled -
    cases hprepare₀.symm.trans hprepare
    simp [alone, hprepare, hcompiled])
  refine ⟨r, call, hrun, hr, hcontents, ?_⟩
  obtain ⟨contents, hafter⟩ :=
    @Compiler.delivered_after _ _ _ (compiler schema oracle) .sync q ⟨[], session⟩
  have hcall : call = (((compiler schema oracle).delivered q .sync).run ⟨[], session⟩).2 :=
    (congrArg Prod.snd hrun).symm.trans (congrArg Prod.snd Compiler.execute_run)
  rw [hcall, hafter]
  exact Compiler.plan_disabled hdisabled

end Runs

section Transparency

variable {schema : Schema} {oracle : Oracle} {m : Memory}

/-- Of two queries whose shapes have one text, the second runs the plan of the first. -/
theorem executeAll_pair (capacity : Nat) (victim : Nat → Nat) {q q' s s' : Expr}
    {params params' : Bindings} {p : Pipeline} (hq : q.DrawFree) (hq' : q'.DrawFree)
    (hprepare : prepare schema oracle q = some (s, params))
    (hcompiled : compiled schema s = some p)
    (hprepare' : prepare schema oracle q' = some (s', params')) (htext : s.text = s'.text) :
    executeAll (compiler schema oracle) ⟨.keeping (.empty capacity victim), m, 0, 0⟩ [q, q'] =
      [alone schema oracle m q, answer oracle m p params'] := by
  have hp : p.DrawFree := drawFree_of_compiled (drawFree_of_prepare hq hprepare) hcompiled
  obtain ⟨hclassify, hcheck⟩ := compiled_eq_some.mp hcompiled
  have hcompile := @compile_of_check schema oracle p hcheck p.result.element .sync m
  have hshape := @shape_run schema oracle q hq 0
  rw [hprepare] at hshape
  obtain ⟨-, d, hshape⟩ := hshape
  have hshape' := @shape_run schema oracle q' hq' d
  rw [hprepare'] at hshape'
  obtain ⟨-, d', hshape'⟩ := hshape'
  obtain ⟨c, hget, hkeeps⟩ :=
    PlanCache.keeps_first capacity victim (.ofShape schema.identity .sync s)
  let plan : Plan Memory EvalError := ⟨0, p.result.element, ⟨.sync, run oracle p⟩⟩
  obtain ⟨c', c'', hinsert, hget'⟩ := hkeeps plan
  have hplan : ((compiler schema oracle).plan .sync q).run
      ⟨[], ⟨.keeping (.empty capacity victim), m, 0, 0⟩⟩ = (.ok plan, ⟨params, ⟨c', m, 1, d⟩⟩) :=
    Compiler.plan_run_of_miss hshape hget hclassify hcompile hinsert
  have hkey : PlanKey.ofShape schema.identity .sync s' = .ofShape schema.identity .sync s :=
    congrArg (PlanKey.mk schema.identity .sync) htext.symm
  have hplan' : ((compiler schema oracle).plan .sync q').run ⟨[], ⟨c', m, 1, d⟩⟩ =
      (.ok plan, ⟨params', ⟨c'', m, 1, d'⟩⟩) :=
    Compiler.plan_run_of_hit hshape' (hkey ▸ hget')
  obtain ⟨r, hrun, hr⟩ := execute_run_ok hp rfl hplan
  obtain ⟨r', hrun', hr'⟩ := execute_run_ok hp rfl hplan'
  have halone : alone schema oracle m q = answer oracle m p params := by
    simp [alone, hprepare, hcompiled]
  simp only [executeAll, hrun, hrun', hr, hr', halone]

/-- Caching plans shows in no sequence of queries of a set, whatever the capacity and the choice of
victims, exactly if the queries of the set share plans wherever their shapes have one text. -/
theorem cached_eq_uncached_iff_shares (schema : Schema) (oracle : Oracle) (m : Memory)
    (capacity : Nat) (victim : Nat → Nat) (Q : Expr → Prop) (hdraw : ∀ q, Q q → q.DrawFree) :
    (∀ qs : List Expr, (∀ q ∈ qs, Q q) →
      executeAll (compiler schema oracle) ⟨.keeping (.empty capacity victim), m, 0, 0⟩ qs =
        executeAll (compiler schema oracle) ⟨.disabled 0, m, 0, 0⟩ qs) ↔
      Shares schema oracle m Q := by
  have halone : ∀ qs : List Expr, (∀ q ∈ qs, Q q) →
      executeAll (compiler schema oracle) ⟨.disabled 0, m, 0, 0⟩ qs =
        qs.map (alone schema oracle m) :=
    fun qs hqs => executeAll_disabled hdraw rfl rfl hqs
  constructor
  · intro h q q' s s' params params' p hq hq' hprepare hcompiled hprepare' htext
    have hqs : ∀ x ∈ [q, q'], Q x := by simp [hq, hq']
    have hpair := h [q, q'] hqs
    rw [executeAll_pair capacity victim (hdraw q hq) (hdraw q' hq') hprepare hcompiled hprepare'
      htext, halone [q, q'] hqs] at hpair
    simpa using hpair
  · intro hshares qs hqs
    have hempty : (compiler schema oracle).Filled (Prepared schema oracle Q)
        (.keeping (.empty capacity victim)) := nofun
    rw [halone qs hqs]
    exact executeAll_of_shares hdraw hshares rfl hempty hqs

end Transparency

/-- It is enough that the texts of the shapes tell them apart. -/
theorem shares_of_text_injective {schema : Schema} {oracle : Oracle} {m : Memory}
    {Q : Expr → Prop} (htext : ∀ q q' s s' params params', Q q → Q q' →
      prepare schema oracle q = some (s, params) → prepare schema oracle q' = some (s', params') →
      s.text = s'.text → s = s') : Shares schema oracle m Q := by
  intro q q' s s' params params' p hq hq' hprepare hcompiled hprepare' hs
  obtain rfl := htext q q' s s' params params' hq hq' hprepare hprepare' hs
  simp [alone, hprepare', hcompiled]

/-! ## Two sets of one entity type -/

/-- A schema in which people are the rows of two sets. -/
def staffing : Schema :=
  ((Schema.empty.withEntity ⟨"Person", "people", [⟨"Age", "Age", .int⟩]⟩).withSet "people"
    "Person").withSet "staff" "Person"

def staffed : Memory :=
  ⟨KeyMap.ofList [⟨"people", [.record [⟨"Age", .int 36⟩], .record [⟨"Age", .int 41⟩]]⟩,
    ⟨"staff", [.record [⟨"Age", .int 41⟩]]⟩], 0⟩

def still : Oracle := ⟨fun _ => ⟨0⟩, fun _ => ⟨0, 0⟩⟩

def countOf (set : String) : Expr :=
  .call (.operator "Count") none
    [.constant (.query ⟨"Person", set⟩) (.queryable (.entity "Person"))] .int

theorem drawFree_countOf (set : String) : (countOf set).DrawFree := by
  unfold Expr.DrawFree countOf
  simp [Expr.nodes, Expr.nodesOfList, Expr.isDraw]

theorem prepare_countOf (set : String) :
    prepare staffing still (countOf set) = some (countOf set, []) := rfl

theorem compiled_countOf_people : compiled staffing (countOf "people") =
    some ⟨⟨"Person", "people"⟩, [.count none], .single .int⟩ := rfl

/-- The text of a shape does not name the set, so the staff are counted as all people. -/
theorem cached_count_of_staff :
    QueryText.parse ⟨staffing.names, none⟩ "people.Count()" = .ok (countOf "people") ∧
      QueryText.parse ⟨staffing.names, none⟩ "staff.Count()" = .ok (countOf "staff") ∧
      executeAll (compiler staffing still) ⟨.keeping (.empty 0 fun _ => 0), staffed, 0, 0⟩
        [countOf "people", countOf "staff"] = [some [.int 2], some [.int 2]] ∧
      executeAll (compiler staffing still) ⟨.disabled 0, staffed, 0, 0⟩
        [countOf "people", countOf "staff"] = [some [.int 2], some [.int 1]] := by
  refine ⟨rfl, rfl, ?_, rfl⟩
  rw [executeAll_pair 0 _ (drawFree_countOf _) (drawFree_countOf _) (prepare_countOf "people")
    compiled_countOf_people (prepare_countOf "staff") rfl]
  rfl

/-- The counts of one set share their plan. -/
theorem cached_counts_of_people :
    (countOf "people").DrawFree ∧
      executeAll (compiler staffing still) ⟨.keeping (.empty 1 fun _ => 0), staffed, 0, 0⟩
          [countOf "people", countOf "people"] =
        executeAll (compiler staffing still) ⟨.disabled 0, staffed, 0, 0⟩
          [countOf "people", countOf "people"] := by
  have hdraw : ∀ q, q = countOf "people" → q.DrawFree := by
    rintro _ rfl
    exact drawFree_countOf "people"
  refine ⟨drawFree_countOf "people", ?_⟩
  refine (cached_eq_uncached_iff_shares staffing still staffed 1 (fun _ => 0) _ hdraw).mpr ?_ _
    (by simp)
  rintro _ _ s s' params params' p rfl rfl hprepare hcompiled hprepare' -
  rw [prepare_countOf] at hprepare hprepare'
  cases hprepare
  cases hprepare'
  rw [compiled_countOf_people] at hcompiled
  cases hcompiled
  rfl

end MemoryStore

end DeferredQuery
