import DeferredQuery.Proofs.Plan.Calls

/-!
# Plans in use

Which plans a cache holds after calls with queries of a set, and what the entry points make of the
plan of a query.
-/

namespace DeferredQuery

namespace Compiler

variable {σ κ ε : Type}

/-! ## Caches filled for a set of shapes -/

section Filled

variable (c : Compiler σ κ ε)

/-- The store compiled the plan for a shape in the set, and the shape has the key. -/
def Compiles (S : Expr → Prop) (k : PlanKey) (plan : Plan σ ε) : Prop :=
  ∃ shape p contents contents', S shape ∧ k = .ofShape c.store.identity k.mode shape ∧
    Pipeline.classify c.classifier shape = .ok p ∧
    c.store.compile p p.result.element k.mode contents = (.ok plan.executor, contents')

def Filled (S : Expr → Prop) (cache : PlanCache (Plan σ ε)) : Prop :=
  ∀ entry ∈ cache.entries, c.Compiles S entry.1 entry.2

inductive Fails (mode : Mode) (shape : Expr) (contents : σ) : QueryError κ ε → Prop where
  | unclassified {e : ClassifyError} (h : Pipeline.classify c.classifier shape = .error e) :
      Fails mode shape contents (.classification e)
  | uncompiled {p : Pipeline} {e : κ} {contents' : σ}
      (hclassify : Pipeline.classify c.classifier shape = .ok p)
      (hcompile : c.store.compile p p.result.element mode contents = (.error e, contents')) :
      Fails mode shape contents (.compilation e)

variable {c} {S : Expr → Prop} {mode : Mode} {q shape : Expr} {call : Call σ ε}

/-- A shape has no plan, or one that was compiled for its text; what happened to the contents is
that the store compiled a pipeline, or nothing. -/
theorem planOf_filled (hcache : c.Filled S call.session.cache) (hshape : S shape) (mode : Mode) :
    ∃ r cache contents compiles,
      (c.planOf mode shape).run call =
        (r, ⟨call.params, ⟨cache, contents, compiles, call.session.draws⟩⟩) ∧
      c.Filled S cache ∧
      (contents = call.session.contents ∨ ∃ p : Pipeline, contents =
        (c.store.compile p p.result.element mode call.session.contents).2) ∧
      ((∃ e, r = .error e ∧ c.Fails mode shape call.session.contents e) ∨
        ∃ plan, r = .ok plan ∧ c.Compiles S (.ofShape c.store.identity mode shape) plan) := by
  rcases hget : call.session.cache.get (.ofShape c.store.identity mode shape) with
    ⟨_ | plan, cache⟩
  · have hmiss := planOf_run_of_miss hget
    have hkept : c.Filled S cache := by rwa [Filled, PlanCache.entries_get hget]
    cases hclassify : Pipeline.classify c.classifier shape with
    | error e =>
        simp only [hclassify] at hmiss
        exact ⟨_, _, _, _, hmiss, hkept, .inl rfl, .inl ⟨_, rfl, .unclassified hclassify⟩⟩
    | ok p =>
        rcases hcompile : c.store.compile p p.result.element mode call.session.contents with
          ⟨e | x, contents⟩
        · simp only [hclassify, hcompile] at hmiss
          exact ⟨_, _, _, _, hmiss, hkept, .inr ⟨p, by rw [hcompile]⟩,
            .inl ⟨_, rfl, .uncompiled hclassify hcompile⟩⟩
        · have hcompiles : c.Compiles S (.ofShape c.store.identity mode shape)
              ⟨call.session.compiles, p.result.element, x⟩ :=
            ⟨shape, p, _, _, hshape, rfl, hclassify, hcompile⟩
          rcases hinsert : cache.insert (.ofShape c.store.identity mode shape)
            ⟨call.session.compiles, p.result.element, x⟩ with ⟨kept, cache'⟩
          obtain ⟨rfl, hadded⟩ := PlanCache.insert_of_get hget hinsert
          simp only [hclassify, hcompile, hinsert] at hmiss
          refine ⟨_, _, _, _, hmiss, fun entry hentry => ?_, .inr ⟨p, by rw [hcompile]⟩,
            .inr ⟨_, rfl, hcompiles⟩⟩
          rcases hadded entry hentry with hold | rfl
          · exact hcache entry hold
          · exact hcompiles
  · have hkept : c.Filled S cache := by rwa [Filled, PlanCache.entries_get hget]
    exact ⟨_, _, _, _, planOf_run_of_hit hget, hkept, .inl rfl,
      .inr ⟨plan, rfl, hcache _ (PlanCache.mem_of_get hget)⟩⟩

/-- A call adds at most the plan for the shape of its own query. -/
theorem plan_filled (hcache : c.Filled S call.session.cache)
    (hshape : ∀ shape st, (c.shape q).run ⟨call.params, call.session.draws⟩ = (.ok shape, st) →
      S shape) (mode : Mode) :
    c.Filled S ((c.plan mode q).run call).2.session.cache := by
  rw [plan_run]
  rcases h : (c.shape q).run ⟨call.params, call.session.draws⟩ with ⟨e | shape, st⟩
  · exact hcache
  · let after : Call σ ε := ⟨st.params, { call.session with draws := st.draws }⟩
    have hafter : c.Filled S after.session.cache := hcache
    obtain ⟨r, cache, contents, compiles, hrun, hfilled, -⟩ :=
      planOf_filled hafter (hshape shape st h) mode
    dsimp only
    rwa [hrun]

/-- A cache that keeps nothing goes on keeping nothing. -/
theorem plan_disabled {n : Nat} (hcache : call.session.cache = .disabled n) :
    ∃ n', ((c.plan mode q).run call).2.session.cache = .disabled n' := by
  rw [plan_run]
  rcases (c.shape q).run ⟨call.params, call.session.draws⟩ with ⟨e | shape, st⟩
  · exact ⟨n, hcache⟩
  · let after : Call σ ε := ⟨st.params, { call.session with draws := st.draws }⟩
    have hget : after.session.cache.get (.ofShape c.store.identity mode shape) =
        (none, .disabled (n + 1)) := by
      have hafter : after.session.cache = .disabled n := hcache
      rw [hafter]
      rfl
    refine ⟨n + 1, ?_⟩
    dsimp only
    rw [planOf_run_of_miss hget]
    split
    · rfl
    · split <;> rfl

end Filled

/-! ## Entry points -/

section Entries

variable {c : Compiler σ κ ε} {mode : Mode} {q : Expr} {call call' : Call σ ε}

def delivered (c : Compiler σ κ ε) (q : Expr) : Mode → QueryM σ κ ε (Rows ε)
  | .sync => c.rows q
  | .async => c.stream q

theorem run_read {α β : Type} (m : QueryM σ κ ε α) (read : α → Except (QueryError κ ε) β)
    (call : Call σ ε) :
    (m >>= fun a => ExceptT.mk (pure (read a))).run call =
      ((m.run call).1 >>= read, (m.run call).2) := by
  rw [Extract.run_bind]
  rcases m.run call with ⟨e | a, call'⟩ <;> rfl

theorem execute_run : (c.execute q).run call =
    (((c.delivered q .sync).run call).1 >>= collect, ((c.delivered q .sync).run call).2) :=
  run_read _ _ _

theorem executeStream_run : (c.executeStream q).run call =
    (((c.delivered q .async).run call).1 >>= collect, ((c.delivered q .async).run call).2) :=
  run_read _ _ _

theorem executeScalar_run : (c.executeScalar q).run call =
    (((c.delivered q .sync).run call).1 >>= firstRow, ((c.delivered q .sync).run call).2) :=
  run_read _ _ _

theorem executeScalarStream_run (cancelled : Bool) : (c.executeScalarStream cancelled q).run call =
    (((c.delivered q .async).run call).1 >>= fun rows =>
        if cancelled then .error .cancelled else firstRow rows,
      ((c.delivered q .async).run call).2) := by
  rw [← run_read]
  cases cancelled <;> rfl

theorem delivered_run_error {e : QueryError κ ε}
    (h : (c.plan mode q).run call = (.error e, call')) :
    (c.delivered q mode).run call = (.error e, call') := by
  cases mode with
  | sync => rw [delivered, rows, Extract.run_bind, h]
  | async => rw [delivered, stream, Extract.run_bind, h]

def started (r : Except ε (Rows ε)) : Except (QueryError κ ε) (Rows ε) :=
  r.mapError fun e => .execution (.rows e)

/-- A plan of the right mode is run on the values of the call. -/
theorem delivered_run_ok {plan : Plan σ ε}
    (h : (c.plan mode q).run call = (.ok plan, call')) (hmode : plan.executor.mode = mode) :
    (c.delivered q mode).run call =
      (started (plan.executor.run call'.params call'.session.contents).1,
        { call' with session := { call'.session with
          contents := (plan.executor.run call'.params call'.session.contents).2 } }) := by
  cases mode with
  | sync =>
      rw [delivered, rows, Extract.run_bind, h]
      dsimp only
      rw [hmode]
      rfl
  | async =>
      rw [delivered, stream, Extract.run_bind, h]
      rfl

/-- Running a plan changes nothing of a call but the contents. -/
theorem delivered_after : ∃ contents, ((c.delivered q mode).run call).2 =
    { ((c.plan mode q).run call).2 with
      session := { ((c.plan mode q).run call).2.session with contents } } := by
  cases mode with
  | sync =>
      rw [delivered, rows, Extract.run_bind]
      rcases (c.plan .sync q).run call with ⟨e | plan, call'⟩
      · exact ⟨_, rfl⟩
      · dsimp only
        cases plan.executor.mode <;> exact ⟨_, rfl⟩
  | async =>
      rw [delivered, stream, Extract.run_bind]
      rcases (c.plan .async q).run call with ⟨e | plan, call'⟩ <;> exact ⟨_, rfl⟩

end Entries

end Compiler

end DeferredQuery
