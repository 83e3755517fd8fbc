import DeferredQuery.Plan.Compiler
import DeferredQuery.Proofs.Plan.Cache
import DeferredQuery.Proofs.Shape.Binding

/-!
# One compilation for each shape

A compiler serves one call after another, over any store. A call goes one of five ways; where plans
are never dropped, those that a call found or built before it are the ones in the cache, so every
key is compiled for once and every later call for it is given that plan.
-/

namespace DeferredQuery

/-! ## Caches -/

namespace PlanCache

variable {α : Type}

def entries : PlanCache α → List (PlanKey × α)
  | keeping s => s.entries
  | disabled _ => []

section Lookup

variable {cache cache' cache'' : PlanCache α} {k : PlanKey} {a kept : α} {found : Option α}

theorem mem_of_get (h : cache.get k = (some a, cache')) : (k, a) ∈ cache.entries := by
  cases cache with
  | disabled misses => cases h
  | keeping s =>
      have hfound : s.find? k = some a := (s.get_answer k).symm.trans (congrArg Prod.fst h)
      exact PlanStore.mem_of_find? hfound

theorem entries_get (h : cache.get k = (found, cache')) : cache'.entries = cache.entries := by
  cases cache with
  | disabled misses =>
      cases h
      rfl
  | keeping s =>
      cases h
      exact s.get_entries k

/-- What is put in after it was not found is kept. -/
theorem insert_of_get (hget : cache.get k = (none, cache'))
    (hinsert : cache'.insert k a = (kept, cache'')) :
    kept = a ∧ ∀ entry ∈ cache''.entries, entry ∈ cache.entries ∨ entry = (k, a) := by
  cases cache with
  | disabled misses =>
      cases hget
      cases hinsert
      exact ⟨rfl, nofun⟩
  | keeping s =>
      have habsent : s.find? k = none := (s.get_answer k).symm.trans (congrArg Prod.fst hget)
      have hafter : cache' = keeping (s.get k).2 := (congrArg Prod.snd hget).symm
      have habsent' : (s.get k).2.find? k = none := by
        rw [PlanStore.find?, s.get_entries k]
        exact habsent
      have hstore := PlanStore.insert_of_absent habsent' a
      subst hafter
      simp only [PlanCache.insert, hstore, Prod.mk.injEq] at hinsert
      obtain ⟨rfl, rfl⟩ := hinsert
      refine ⟨rfl, fun entry hentry => ?_⟩
      rcases List.mem_append.mp hentry with hentry | hentry
      · have hold := PlanStore.mem_of_mem_makeRoom hentry
        rw [s.get_entries k] at hold
        exact .inl hold
      · exact .inr (List.mem_singleton.mp hentry)

end Lookup

/-- The cache has no capacity and keeps exactly the given plans, under distinct keys. -/
def Holds (cache : PlanCache α) (plans : List (PlanKey × α)) : Prop :=
  ∃ s : PlanStore α, cache = keeping s ∧ s.capacity = 0 ∧ s.Distinct ∧ s.entries = plans

theorem holds_empty (victim : Nat → Nat) :
    (keeping (.empty 0 victim) : PlanCache α).Holds [] :=
  ⟨_, rfl, rfl, List.nodup_nil, rfl⟩

section Holds

variable {cache cache' : PlanCache α} {plans : List (PlanKey × α)} {k : PlanKey}

theorem Holds.entries_eq (h : cache.Holds plans) : cache.entries = plans := by
  obtain ⟨s, rfl, -, -, hentries⟩ := h
  exact hentries

theorem Holds.nodup (h : cache.Holds plans) : (plans.map Prod.fst).Nodup := by
  obtain ⟨s, -, -, hdistinct, rfl⟩ := h
  exact hdistinct

theorem Holds.get {found : Option α} (h : cache.Holds plans)
    (hget : cache.get k = (found, cache')) : cache'.Holds plans ∧
      (∀ a, found = some a → (k, a) ∈ plans) ∧ (found = none → k ∉ plans.map Prod.fst) := by
  obtain ⟨s, rfl, hcapacity, hdistinct, rfl⟩ := h
  obtain ⟨hfound, rfl⟩ := Prod.mk.inj hget
  obtain rfl : s.find? k = found := (s.get_answer k).symm.trans hfound
  exact ⟨⟨_, rfl, (s.step_capacity (.get k)).trans hcapacity, hdistinct.step (.get k),
    s.get_entries k⟩, fun _ => PlanStore.mem_of_find?, PlanStore.find?_eq_none_iff.mp⟩

theorem Holds.insert {a kept : α} (h : cache.Holds plans) (hk : k ∉ plans.map Prod.fst)
    (hinsert : cache.insert k a = (kept, cache')) :
    kept = a ∧ cache'.Holds (plans ++ [(k, a)]) := by
  obtain ⟨s, rfl, hcapacity, hdistinct, rfl⟩ := h
  have hstore := PlanStore.insert_of_absent (PlanStore.find?_eq_none_iff.mpr hk) a
  rw [PlanStore.makeRoom_of_unbounded hcapacity] at hstore
  have hnext := hdistinct.step (.insert k a)
  simp only [PlanStore.step, hstore] at hnext
  simp only [PlanCache.insert, hstore] at hinsert
  obtain ⟨rfl, rfl⟩ := Prod.mk.inj hinsert
  exact ⟨rfl, _, rfl, hcapacity, hnext, rfl⟩

end Holds

end PlanCache

namespace Compiler

variable {σ κ ε : Type}

/-! ## The parts of a call -/

theorem lookup_run (k : PlanKey) (call : Call σ ε) :
    (lookup k : QueryM σ κ ε _).run call =
      (.ok (call.session.cache.get k).1,
        { call with session := { call.session with cache := (call.session.cache.get k).2 } }) :=
  rfl

theorem compile_run {c : Compiler σ κ ε} {mode : Mode} {p : Pipeline} {call : Call σ ε} :
    (c.compile mode p).run call =
      match c.store.compile p p.result.element mode call.session.contents with
      | (.ok executor, contents) =>
        (.ok ⟨call.session.compiles, p.result.element, executor⟩, { call with session :=
          { call.session with contents, compiles := call.session.compiles + 1 } })
      | (.error e, contents) =>
        (.error (.compilation e), { call with session :=
          { call.session with contents, compiles := call.session.compiles + 1 } }) := by
  unfold compile
  rw [ExceptT.run_mk]
  rcases c.store.compile p p.result.element mode call.session.contents with
    ⟨e | executor, contents⟩ <;> rfl

/-! ## Plans of a shape -/

section Plans

variable {c : Compiler σ κ ε} {mode : Mode} {q shape : Expr} {call : Call σ ε}
  {cache : PlanCache (Plan σ ε)}

theorem extractShape_run : (c.extractShape q).run call =
    (((c.shape q).run ⟨call.params, call.session.draws⟩).1.mapError .extraction,
      ⟨((c.shape q).run ⟨call.params, call.session.draws⟩).2.params,
        { call.session with
          draws := ((c.shape q).run ⟨call.params, call.session.draws⟩).2.draws }⟩) :=
  rfl

theorem plan_run : (c.plan mode q).run call =
    match (c.shape q).run ⟨call.params, call.session.draws⟩ with
    | (.ok shape, st) =>
      (c.planOf mode shape).run ⟨st.params, { call.session with draws := st.draws }⟩
    | (.error e, st) =>
      (.error (.extraction e), ⟨st.params, { call.session with draws := st.draws }⟩) := by
  rw [plan, Extract.run_bind, extractShape_run]
  rcases (c.shape q).run ⟨call.params, call.session.draws⟩ with ⟨e | shape, st⟩ <;> rfl

theorem planOf_run_of_hit {plan : Plan σ ε}
    (hget : call.session.cache.get (.ofShape c.store.identity mode shape) = (some plan, cache)) :
    (c.planOf mode shape).run call =
      (.ok plan, { call with session := { call.session with cache } }) := by
  unfold planOf
  rw [Extract.run_bind, lookup_run, hget]
  rfl

/-- A shape without a plan is classified and compiled, and the plan is handed to the cache. -/
theorem planOf_run_of_miss
    (hget : call.session.cache.get (.ofShape c.store.identity mode shape) = (none, cache)) :
    (c.planOf mode shape).run call =
      match Pipeline.classify c.classifier shape with
      | .error e =>
        (.error (.classification e), { call with session := { call.session with cache } })
      | .ok p =>
        match c.store.compile p p.result.element mode call.session.contents with
        | (.error e, contents) => (.error (.compilation e), { call with session :=
            { call.session with cache, contents, compiles := call.session.compiles + 1 } })
        | (.ok x, contents) =>
          let kept := cache.insert (.ofShape c.store.identity mode shape)
            ⟨call.session.compiles, p.result.element, x⟩
          (.ok kept.1, { call with session := { call.session with
            cache := kept.2, contents, compiles := call.session.compiles + 1 } }) := by
  unfold planOf
  rw [Extract.run_bind, lookup_run, hget]
  dsimp only
  cases Pipeline.classify c.classifier shape with
  | error e => rfl
  | ok p =>
      dsimp only
      rw [Extract.run_bind, compile_run]
      dsimp only
      rcases c.store.compile p p.result.element mode call.session.contents with
        ⟨e | x, contents⟩ <;> rfl

section Shaped

variable {params : Bindings} {draws : Nat}

theorem plan_run_of_shape
    (hshape : (c.shape q).run ⟨call.params, call.session.draws⟩ = (.ok shape, ⟨params, draws⟩)) :
    (c.plan mode q).run call = (c.planOf mode shape).run ⟨params, { call.session with draws }⟩ := by
  rw [plan_run, hshape]

/-- A plan that the cache has is taken from it. -/
theorem plan_run_of_hit {plan : Plan σ ε}
    (hshape : (c.shape q).run ⟨call.params, call.session.draws⟩ = (.ok shape, ⟨params, draws⟩))
    (hget : call.session.cache.get (.ofShape c.store.identity mode shape) = (some plan, cache)) :
    (c.plan mode q).run call =
      (.ok plan, ⟨params, { call.session with cache, draws }⟩) :=
  (plan_run_of_shape hshape).trans (planOf_run_of_hit hget)

/-- A plan that the cache does not have is compiled and handed to it. -/
theorem plan_run_of_miss {p : Pipeline} {x : Executor σ ε} {contents : σ} {kept : Plan σ ε}
    {cache' : PlanCache (Plan σ ε)}
    (hshape : (c.shape q).run ⟨call.params, call.session.draws⟩ = (.ok shape, ⟨params, draws⟩))
    (hget : call.session.cache.get (.ofShape c.store.identity mode shape) = (none, cache))
    (hclassify : Pipeline.classify c.classifier shape = .ok p)
    (hcompile : c.store.compile p p.result.element mode call.session.contents =
      (.ok x, contents))
    (hinsert : cache.insert (.ofShape c.store.identity mode shape)
      ⟨call.session.compiles, p.result.element, x⟩ = (kept, cache')) :
    (c.plan mode q).run call =
      (.ok kept, ⟨params, ⟨cache', contents, call.session.compiles + 1, draws⟩⟩) := by
  have hmiss := @planOf_run_of_miss σ κ ε c mode shape
    ⟨params, { call.session with draws }⟩ cache hget
  simp only [hclassify, hcompile, hinsert] at hmiss
  exact (plan_run_of_shape hshape).trans hmiss

end Shaped

end Plans

/-! ## Calls -/

structure Request where
  mode : Mode
  query : Expr
  /-- The placeholder values of the context before the call. -/
  params : Bindings

structure Served (σ κ ε : Type) where
  request : Request
  /-- The key of the query's shape, if the query has a shape. -/
  key : Option PlanKey
  before : Session σ ε
  result : Except (QueryError κ ε) (Plan σ ε)
  after : Session σ ε

namespace Served

/-- The plan that the store compiled in a call, with its key: the compilations went up by one, and
the call did not fail. -/
def built (x : Served σ κ ε) : Option (PlanKey × Plan σ ε) :=
  match x.key, x.result with
  | some k, .ok plan => if x.before.compiles < x.after.compiles then some (k, plan) else none
  | _, _ => none

end Served

def keyOf (c : Compiler σ κ ε) (session : Session σ ε) (r : Request) : Option PlanKey :=
  ((c.extractShape r.query).run ⟨r.params, session⟩).1.toOption.map
    (PlanKey.ofShape c.store.identity r.mode)

def serve (c : Compiler σ κ ε) (session : Session σ ε) (r : Request) : Served σ κ ε :=
  let served := (c.plan r.mode r.query).run ⟨r.params, session⟩
  ⟨r, c.keyOf session r, session, served.1, served.2.session⟩

def serveAll (c : Compiler σ κ ε) : Session σ ε → List Request → List (Served σ κ ε)
  | _, [] => []
  | session, r :: rs => c.serve session r :: serveAll c (c.serve session r).after rs

inductive Course (c : Compiler σ κ ε) (session : Session σ ε) (r : Request) :
    Served σ κ ε → Prop where
  | unshaped (e : QueryError κ ε) (draws : Nat) :
      Course c session r ⟨r, none, session, .error e, { session with draws }⟩
  | found {k : PlanKey} {plan : Plan σ ε} {cache : PlanCache (Plan σ ε)} (draws : Nat)
      (hget : session.cache.get k = (some plan, cache)) :
      Course c session r ⟨r, some k, session, .ok plan, { session with cache, draws }⟩
  | unclassified {k : PlanKey} {cache : PlanCache (Plan σ ε)} (e : ClassifyError) (draws : Nat)
      (hget : session.cache.get k = (none, cache)) :
      Course c session r
        ⟨r, some k, session, .error (.classification e), { session with cache, draws }⟩
  | uncompiled {k : PlanKey} {cache : PlanCache (Plan σ ε)} {p : Pipeline} {e : κ} {contents : σ}
      (draws : Nat) (hget : session.cache.get k = (none, cache))
      (hcompile : c.store.compile p p.result.element r.mode session.contents =
        (.error e, contents)) :
      Course c session r ⟨r, some k, session, .error (.compilation e),
        ⟨cache, contents, session.compiles + 1, draws⟩⟩
  | compiled {k : PlanKey} {cache cache' : PlanCache (Plan σ ε)} {p : Pipeline}
      {executor : Executor σ ε} {contents : σ} {kept : Plan σ ε} (draws : Nat)
      (hget : session.cache.get k = (none, cache))
      (hcompile : c.store.compile p p.result.element r.mode session.contents =
        (.ok executor, contents))
      (hinsert : cache.insert k ⟨session.compiles, p.result.element, executor⟩ =
        (kept, cache')) :
      Course c session r ⟨r, some k, session, .ok kept,
        ⟨cache', contents, session.compiles + 1, draws⟩⟩

/-- By cases on the shape, the cache, the classifier and the store, in this order. -/
theorem course (c : Compiler σ κ ε) (session : Session σ ε) (r : Request) :
    c.Course session r (c.serve session r) := by
  unfold serve keyOf
  rw [plan_run, extractShape_run]
  rcases (c.shape r.query).run ⟨r.params, session.draws⟩ with ⟨e | shape, st⟩
  · exact .unshaped (.extraction e) st.draws
  · dsimp only
    let call : Call σ ε := ⟨st.params, { session with draws := st.draws }⟩
    rcases hget : session.cache.get (.ofShape c.store.identity r.mode shape) with ⟨_ | plan, cache⟩
    · rw [@planOf_run_of_miss σ κ ε c r.mode shape call cache hget]
      cases hclassify : Pipeline.classify c.classifier shape with
      | error e => exact .unclassified e st.draws hget
      | ok p =>
          dsimp only
          rcases hcompile : c.store.compile p p.result.element r.mode session.contents with
            ⟨e | executor, contents⟩
          · exact .uncompiled st.draws hget hcompile
          · exact .compiled st.draws hget hcompile rfl
    · rw [@planOf_run_of_hit σ κ ε c r.mode shape call cache plan hget]
      exact .found st.draws hget

/-! ## Sequences of calls -/

section Sequence

variable {c : Compiler σ κ ε} {session : Session σ ε} {r : Request} {x : Served σ κ ε}
  {plans : List (PlanKey × Plan σ ε)}

theorem Served.built_of_error {e : QueryError κ ε} (h : x.result = .error e) : x.built = none := by
  cases hkey : x.key <;> simp [built, h, hkey]

/-- A call adds the plan that it built to those in the cache, and the plan that it returns is one of
them. -/
theorem Course.holds (h : c.Course session r x) (hcache : session.cache.Holds plans) :
    x.after.cache.Holds (plans ++ x.built.toList) ∧ ∀ plan, x.result = .ok plan →
      ∃ k, x.key = some k ∧ (k, plan) ∈ plans ++ x.built.toList := by
  have hfailed : ∀ e, x.result = .error e → x.after.cache.Holds plans →
      x.after.cache.Holds (plans ++ x.built.toList) ∧ ∀ plan, x.result = .ok plan →
        ∃ k, x.key = some k ∧ (k, plan) ∈ plans ++ x.built.toList := by
    intro e he hafter
    rw [Served.built_of_error he, he]
    exact ⟨by simpa using hafter, nofun⟩
  cases h with
  | unshaped e draws => exact hfailed _ rfl hcache
  | unclassified e draws hget => exact hfailed _ rfl (hcache.get hget).1
  | uncompiled draws hget hcompile => exact hfailed _ rfl (hcache.get hget).1
  | found draws hget =>
      rename_i k plan cache
      obtain ⟨hafter, hfound, -⟩ := hcache.get hget
      simp only [Served.built, Nat.lt_irrefl, if_false, Option.toList_none, List.append_nil]
      refine ⟨hafter, ?_⟩
      rintro _ ⟨⟩
      exact ⟨k, rfl, hfound plan rfl⟩
  | compiled draws hget hcompile hinsert =>
      rename_i k cache cache' p executor contents kept
      obtain ⟨hcache', -, habsent⟩ := hcache.get hget
      obtain ⟨rfl, hafter⟩ := hcache'.insert (habsent rfl) hinsert
      simp only [Served.built, Nat.lt_succ_self, if_true]
      refine ⟨hafter, ?_⟩
      rintro _ ⟨⟩
      exact ⟨k, rfl, by simp⟩

/-- What a call built is what the store compiled in it. -/
theorem Course.compiled_of_built (h : c.Course session r x) (hcache : session.cache.Holds plans)
    {k : PlanKey} {plan : Plan σ ε} (hbuilt : x.built = some (k, plan)) :
    plan.number = x.before.compiles ∧ ∃ p contents,
      c.store.compile p plan.element x.request.mode x.before.contents =
        (.ok plan.executor, contents) := by
  cases h with
  | unshaped e draws => simp [Served.built] at hbuilt
  | found draws hget => simp [Served.built] at hbuilt
  | unclassified e draws hget => simp [Served.built] at hbuilt
  | uncompiled draws hget hcompile => simp [Served.built] at hbuilt
  | compiled draws hget hcompile hinsert =>
      obtain ⟨hcache', -, habsent⟩ := hcache.get hget
      obtain ⟨rfl, -⟩ := hcache'.insert (habsent rfl) hinsert
      simp only [Served.built, Nat.lt_succ_self, if_true, Option.some.injEq] at hbuilt
      obtain ⟨rfl, rfl⟩ := Prod.mk.inj hbuilt
      exact ⟨rfl, _, _, hcompile⟩

/-- Before each call of a sequence the cache has what it had at first and what the calls before
built. -/
theorem serveAll_holds {requests : List Request} {earlier later : List (Served σ κ ε)}
    (hcache : session.cache.Holds plans)
    (h : c.serveAll session requests = earlier ++ x :: later) :
    c.Course x.before x.request x ∧
      x.before.cache.Holds (plans ++ earlier.filterMap Served.built) := by
  induction earlier generalizing session requests plans with
  | nil =>
      cases requests with
      | nil => cases h
      | cons r rs =>
          obtain ⟨rfl, -⟩ := List.cons.inj h
          rw [List.filterMap_nil, List.append_nil]
          exact ⟨c.course session r, hcache⟩
  | cons y earlier ih =>
      cases requests with
      | nil => cases h
      | cons r rs =>
          obtain ⟨rfl, htail⟩ := List.cons.inj h
          have hnext := ((c.course session r).holds hcache).1
          obtain ⟨hcourse, hheld⟩ := ih hnext htail
          refine ⟨hcourse, ?_⟩
          cases hbuilt : (c.serve session r).built <;> simpa [hbuilt] using hheld

/-- What the calls of a sequence build has distinct keys. -/
theorem serveAll_nodup {requests : List Request} (hcache : session.cache.Holds []) :
    (((c.serveAll session requests).filterMap Served.built).map Prod.fst).Nodup := by
  rcases List.eq_nil_or_concat (c.serveAll session requests) with h | ⟨earlier, x, h⟩
  · simp [h]
  · rw [List.concat_eq_append] at h
    obtain ⟨hcourse, hheld⟩ := serveAll_holds hcache h
    have hafter := (hcourse.holds hheld).1.nodup
    rw [h, List.filterMap_append]
    cases hbuilt : x.built <;> simpa [hbuilt] using hafter

end Sequence

/-- Where plans are never dropped, calls one after another compile successfully at most once for a
key, every plan returned was compiled for the key of its query in that call or an earlier one, and
a call that fails leaves the cached plans as they were. -/
theorem serveAll_compiles_once (c : Compiler σ κ ε) (victim : Nat → Nat) (contents : σ)
    (compiles draws : Nat) (requests : List Request) :
    let log := c.serveAll ⟨.keeping (.empty 0 victim), contents, compiles, draws⟩ requests
    (∀ x ∈ log, c.Course x.before x.request x ∧ ∀ k plan, x.built = some (k, plan) →
      plan.number = x.before.compiles ∧ ∃ p contents,
        c.store.compile p plan.element x.request.mode x.before.contents =
          (.ok plan.executor, contents)) ∧
    ((log.filterMap Served.built).map Prod.fst).Nodup ∧
    (∀ earlier x later plan, log = earlier ++ x :: later → x.result = .ok plan →
      ∃ k, x.key = some k ∧ (k, plan) ∈ (earlier ++ [x]).filterMap Served.built) ∧
    (∀ x ∈ log, ∀ e, x.result = .error e → x.after.cache.entries = x.before.cache.entries) := by
  intro log
  have hempty : (PlanCache.keeping (.empty 0 victim) : PlanCache (Plan σ ε)).Holds [] :=
    PlanCache.holds_empty victim
  have hmem : ∀ x ∈ log, ∃ plans, c.Course x.before x.request x ∧ x.before.cache.Holds plans := by
    intro x hx
    obtain ⟨earlier, later, hlog⟩ := List.append_of_mem hx
    exact ⟨_, serveAll_holds hempty hlog⟩
  refine ⟨fun x hx => ?_, serveAll_nodup hempty, fun earlier x later plan hlog hplan => ?_,
    fun x hx e he => ?_⟩
  · obtain ⟨plans, hcourse, hheld⟩ := hmem x hx
    exact ⟨hcourse, fun k plan hbuilt => hcourse.compiled_of_built hheld hbuilt⟩
  · obtain ⟨hcourse, hheld⟩ := serveAll_holds hempty hlog
    obtain ⟨k, hk, hplans⟩ := (hcourse.holds hheld).2 plan hplan
    refine ⟨k, hk, ?_⟩
    rw [List.filterMap_append]
    cases hbuilt : x.built <;> simpa [hbuilt] using hplans
  · obtain ⟨plans, hcourse, hheld⟩ := hmem x hx
    have hafter := (hcourse.holds hheld).1
    rw [hafter.entries_eq, hheld.entries_eq, Served.built_of_error he]
    simp

def busy : Store Nat String String where
  identity := "shop"
  compile _ _ mode := fun n =>
    (if n = 0 then .error "busy" else .ok ⟨mode, fun _ => pure (.ok [])⟩, n + 1)

/-- The first call fails, the second compiles, and the third is given the plan of the second. -/
theorem serveAll_compiles_once_of_busy :
    let everyone : Request :=
      ⟨.sync, .constant (.query ⟨"Person", "people"⟩) (.queryable (.entity "Person")), []⟩
    let c : Compiler Nat String String :=
      ⟨busy, .standard, .standard, ⟨fun _ => ⟨0⟩, fun _ => ⟨0, 0⟩⟩⟩
    let log := c.serveAll ⟨.keeping (.empty 0 fun _ => 0), 0, 0, 0⟩ [everyone, everyone, everyone]
    log.map (fun x => x.result.toOption.map Plan.number) = [none, some 1, some 1] ∧
      ((log.filterMap Served.built).map Prod.fst).Nodup := by
  intro everyone c log
  have hlog := serveAll_compiles_once c (fun _ => 0) 0 0 0 [everyone, everyone, everyone]
  exact ⟨rfl, hlog.2.1⟩

end Compiler

end DeferredQuery
