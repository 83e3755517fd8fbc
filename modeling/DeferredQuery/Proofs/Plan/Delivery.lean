import DeferredQuery.Proofs.Plan.Transparency

/-!
# Rows at once and as a stream

A store that serves both modes alike gives the same rows at once and as a stream, or fails to start
in both. The entry points then agree on a query with every cache that the compiler filled, wherever
the first error is, if and only if queries whose shapes have one text can run each other's plans:
plans of the two modes are kept apart, so each mode may have met another of these queries first.
-/

namespace DeferredQuery

/-! ## Stores that serve both modes alike -/

section Stores

variable {σ κ ε : Type}

/-- The rows of a pipeline for placeholder values over the contents of the moment, if the pipeline
compiles. -/
abbrev Store.Meaning (σ κ ε : Type) := Pipeline → Except κ (Bindings → σ → Except ε (Rows ε))

def Store.Meaning.rows? (meaning : Store.Meaning σ κ ε) (p : Pipeline) (params : Bindings)
    (contents : σ) : Option (Rows ε) :=
  (meaning p).toOption.bind fun rows => (rows params contents).toOption

def Executor.Delivers (x : Executor σ ε) (mode : Mode)
    (rows : Bindings → σ → Except ε (Rows ε)) : Prop :=
  x.mode = mode ∧ ∀ params contents, (x.run params contents).1 = rows params contents

/-- The store compiles for the mode that it is asked for. What it compiles has the same rows in both
modes, or starts in neither. Compiling is not seen in any rows. -/
structure Store.Serves (s : Store σ κ ε) (meaning : Mode → Store.Meaning σ κ ε) : Prop where
  compiles : ∀ {mode p rows}, meaning mode p = .ok rows → ∀ contents, ∃ x contents',
    s.compile p p.result.element mode contents = (.ok x, contents') ∧ x.Delivers mode rows
  refuses : ∀ {mode p e}, meaning mode p = .error e → ∀ contents, ∃ contents',
    s.compile p p.result.element mode contents = (.error e, contents')
  alike : ∀ p params contents,
    (meaning .sync).rows? p params contents = (meaning .async).rows? p params contents
  undisturbed : ∀ {mode p rows}, meaning mode p = .ok rows → ∀ p' mode' params contents,
    rows params (s.compile p' p'.result.element mode' contents).2 = rows params contents

inductive QueryError.FromStore : QueryError κ ε → Prop
  | compilation (e : κ) : FromStore (.compilation e)
  | rows (e : ε) : FromStore (.execution (.rows e))

end Stores

namespace Compiler

variable {σ κ ε : Type}

/-! ## What is read off rows -/

/-- All values, or the first error. -/
inductive Collects : Rows ε → Except (QueryError κ ε) (List Value) → Prop
  | all (vs : List Value) : Collects (vs.map .ok) (.ok vs)
  | failed (vs : List Value) (e : ε) (rest : Rows ε) :
      Collects (vs.map .ok ++ .error e :: rest) (.error (.execution (.rows e)))

/-- The first row, whatever follows it. -/
inductive Starts : Rows ε → Except (QueryError κ ε) Value → Prop
  | empty : Starts [] (.error .emptySequence)
  | value (v : Value) (rest : Rows ε) : Starts (.ok v :: rest) (.ok v)
  | failed (e : ε) (rest : Rows ε) : Starts (.error e :: rest) (.error (.execution (.rows e)))

/-- By induction on the rows, up to the first that fails. -/
theorem collects_collect (rows : Rows ε) :
    Collects rows (collect rows : Except (QueryError κ ε) _) := by
  induction rows with
  | nil => exact .all []
  | cons row rest ih =>
      cases row with
      | error e => exact .failed [] e rest
      | ok v =>
          rw [collect]
          generalize (collect rest : Except (QueryError κ ε) _) = r at ih
          cases ih with
          | all vs => exact .all (v :: vs)
          | failed vs e rest => exact .failed (v :: vs) e rest

theorem starts_firstRow (rows : Rows ε) :
    Starts rows (firstRow rows : Except (QueryError κ ε) _) := by
  cases rows with
  | nil => exact .empty
  | cons row rest =>
      cases row with
      | error e => exact .failed e rest
      | ok v => exact .value v rest

/-! ## What plans mean -/

section Meaning

variable (c : Compiler σ κ ε)

section Mode

variable (meaning : Store.Meaning σ κ ε)

def planned (shape : Expr) : Except (QueryError κ ε) (Bindings → σ → Except ε (Rows ε)) :=
  match Pipeline.classify c.classifier shape with
  | .error e => .error (.classification e)
  | .ok p => (meaning p).mapError .compilation

def rowsOf (shape : Expr) (params : Bindings) (contents : σ) :
    Except (QueryError κ ε) (Rows ε) := do
  let rows ← c.planned meaning shape
  started (rows params contents)

/-- The rows of a query, by a plan of its own. -/
def ownRows (call : Call σ ε) (q : Expr) : Except (QueryError κ ε) (Rows ε) :=
  match (c.shape q).run ⟨call.params, call.session.draws⟩ with
  | (.ok shape, st) => c.rowsOf meaning shape st.params call.session.contents
  | (.error e, _) => .error (.extraction e)

end Mode

variable (meaning : Mode → Store.Meaning σ κ ε) (Q : Expr → Prop)

/-- Some call gives the query this shape and these placeholder values. -/
def Shaped (q shape : Expr) (params : Bindings) : Prop :=
  ∃ st draws, (c.shape q).run st = (.ok shape, ⟨params, draws⟩)

/-- Queries of a set whose shapes have one text can run each other's plans. -/
def Interchangeable : Prop :=
  ∀ mode q q' shape shape' params params' rows, Q q → Q q' → c.Shaped q shape params →
    c.Shaped q' shape' params' → shape.text = shape'.text →
    c.planned (meaning mode) shape = .ok rows → ∀ contents,
      started (rows params' contents) = c.rowsOf (meaning mode) shape' params' contents

/-- The caches that calls with queries of a set leave, whatever else happens to the contents of the
store. -/
inductive Produced : PlanCache (Plan σ ε) → Prop
  | keeping (capacity : Nat) (victim : Nat → Nat) : Produced (.keeping (.empty capacity victim))
  | disabled (misses : Nat) : Produced (.disabled misses)
  | call {before : Call σ ε} (mode : Mode) {q : Expr} (hq : Q q)
      (h : Produced before.session.cache) :
      Produced ((c.plan mode q).run before).2.session.cache
  | clear {cache : PlanCache (Plan σ ε)} (h : Produced cache) : Produced cache.clear

def ShapeOf (shape : Expr) : Prop := ∃ q params, Q q ∧ c.Shaped q shape params

end Meaning

section Mode

variable {c : Compiler σ κ ε} {meaning : Store.Meaning σ κ ε} {shape : Expr}
  {rows : Bindings → σ → Except ε (Rows ε)}

theorem planned_of_error {e : ClassifyError}
    (h : Pipeline.classify c.classifier shape = .error e) :
    c.planned meaning shape = .error (.classification e) := by
  rw [planned, h]

theorem planned_of_ok {p : Pipeline} (h : Pipeline.classify c.classifier shape = .ok p) :
    c.planned meaning shape = (meaning p).mapError .compilation := by
  rw [planned, h]

/-- Only a shape that is classified has a plan. -/
theorem exists_meaning (h : c.planned meaning shape = .ok rows) :
    ∃ p, Pipeline.classify c.classifier shape = .ok p ∧ meaning p = .ok rows := by
  cases hclassify : Pipeline.classify c.classifier shape with
  | error e =>
      rw [planned_of_error hclassify] at h
      cases h
  | ok p =>
      rw [planned_of_ok hclassify] at h
      cases hp : meaning p with
      | error e =>
          rw [hp] at h
          cases h
      | ok rows' =>
          rw [hp] at h
          cases h
          exact ⟨p, rfl, hp⟩

variable {params : Bindings} {contents : σ}

theorem rowsOf_of_error {e : QueryError κ ε} (h : c.planned meaning shape = .error e) :
    c.rowsOf meaning shape params contents = .error e := by
  rw [rowsOf, h]
  rfl

theorem rowsOf_of_ok (h : c.planned meaning shape = .ok rows) :
    c.rowsOf meaning shape params contents = started (rows params contents) := by
  rw [rowsOf, h]
  rfl

variable (meaning) in
/-- A classified shape has the rows of its pipeline, or an error of the store. -/
theorem rowsOf_cases {p : Pipeline} (h : Pipeline.classify c.classifier shape = .ok p)
    (params : Bindings) (contents : σ) :
    (∃ r, meaning.rows? p params contents = some r ∧
        c.rowsOf meaning shape params contents = .ok r) ∨
      meaning.rows? p params contents = none ∧
        ∃ e, e.FromStore ∧ c.rowsOf meaning shape params contents = .error e := by
  have hplanned := @planned_of_ok σ κ ε c meaning shape p h
  rw [Store.Meaning.rows?]
  cases hp : meaning p with
  | error e =>
      rw [hp] at hplanned
      exact .inr ⟨rfl, _, .compilation e, rowsOf_of_error hplanned⟩
  | ok rows =>
      rw [hp] at hplanned
      rw [rowsOf_of_ok hplanned]
      cases hstart : rows params contents with
      | error e => exact .inr ⟨by simp [Except.toOption, hstart], _, .rows e, rfl⟩
      | ok r => exact .inl ⟨r, by simp [Except.toOption, hstart], rfl⟩

end Mode

section Cases

variable {c : Compiler σ κ ε} {meaning : Mode → Store.Meaning σ κ ε} {Q : Expr → Prop}
  {q shape : Expr} {call : Call σ ε}

/-- A store that fails to compile a pipeline has no rows for it. -/
theorem Fails.planned (hstore : c.store.Serves meaning) {mode : Mode} {contents : σ}
    {e : QueryError κ ε} (h : c.Fails mode shape contents e) :
    c.planned (meaning mode) shape = .error e := by
  cases h with
  | unclassified hclassify => exact planned_of_error hclassify
  | @uncompiled p e contents' hclassify hcompile =>
      rw [planned_of_ok hclassify]
      cases hmeaning : meaning mode p with
      | ok rows =>
          obtain ⟨x, contents'', hok, -⟩ := hstore.compiles hmeaning contents
          rw [hcompile] at hok
          cases hok
      | error e' =>
          obtain ⟨contents'', herror⟩ := hstore.refuses hmeaning contents
          rw [hcompile] at herror
          cases herror
          rfl

/-- A plan delivers the rows of the shape that it was compiled for. -/
theorem Compiles.planned (hstore : c.store.Serves meaning) {S : Expr → Prop} {k : PlanKey}
    {plan : Plan σ ε} (h : c.Compiles S k plan) :
    ∃ shape rows, S shape ∧ k = .ofShape c.store.identity k.mode shape ∧
      c.planned (meaning k.mode) shape = .ok rows ∧ plan.executor.Delivers k.mode rows := by
  obtain ⟨shape, p, contents, contents', hshape, hkey, hclassify, hcompile⟩ := h
  cases hmeaning : meaning k.mode p with
  | ok rows =>
      obtain ⟨x, contents'', hok, hdelivers⟩ := hstore.compiles hmeaning contents
      rw [hcompile] at hok
      cases hok
      refine ⟨shape, rows, hshape, hkey, ?_, hdelivers⟩
      rw [planned_of_ok hclassify, hmeaning]
      rfl
  | error e =>
      obtain ⟨contents'', herror⟩ := hstore.refuses hmeaning contents
      rw [hcompile] at herror
      cases herror

theorem Produced.filled {cache : PlanCache (Plan σ ε)} (h : c.Produced Q cache) :
    c.Filled (c.ShapeOf Q) cache := by
  induction h with
  | keeping capacity victim => exact nofun
  | disabled misses => exact nofun
  | clear h ih =>
      rename_i cache
      cases cache <;> exact nofun
  | call mode hq h ih =>
      rename_i before q
      exact plan_filled ih (fun shape st hshape => ⟨q, st.params, hq, _, st.draws, hshape⟩) mode

/-- A query has no plan, or one whose rows are its own where plans can be shared. -/
theorem plan_cases (hstore : c.store.Serves meaning) (hshared : c.Interchangeable meaning Q)
    (hcache : c.Produced Q call.session.cache) (hq : Q q) (mode : Mode) :
    (∃ e call', (c.plan mode q).run call = (.error e, call') ∧
        c.ownRows (meaning mode) call q = .error e) ∨
      ∃ plan call' rows, (c.plan mode q).run call = (.ok plan, call') ∧
        plan.executor.Delivers mode rows ∧
        started (rows call'.params call'.session.contents) = c.ownRows (meaning mode) call q := by
  rw [plan_run, ownRows]
  rcases hshape : (c.shape q).run ⟨call.params, call.session.draws⟩ with ⟨e | shape, st⟩
  · exact .inl ⟨_, _, rfl, rfl⟩
  · have hshaped : c.Shaped q shape st.params := ⟨_, st.draws, hshape⟩
    let after : Call σ ε := ⟨st.params, { call.session with draws := st.draws }⟩
    have hfilled : c.Filled (c.ShapeOf Q) after.session.cache := hcache.filled
    obtain ⟨r, cache, contents, compiles, hrun, -, hcontents, hr⟩ :=
      planOf_filled hfilled ⟨q, st.params, hq, hshaped⟩ mode
    dsimp only
    rw [hrun]
    rcases hr with ⟨e, rfl, hfails⟩ | ⟨plan, rfl, hcompiles⟩
    · exact .inl ⟨e, _, rfl, rowsOf_of_error (hfails.planned hstore)⟩
    · obtain ⟨shape₀, rows, ⟨q₀, params₀, hq₀, hshaped₀⟩, hkey, hplanned, hdelivers⟩ :=
        hcompiles.planned hstore
      refine .inr ⟨plan, _, rows, rfl, hdelivers, ?_⟩
      obtain ⟨p, -, hp⟩ := exists_meaning hplanned
      have hunseen : rows st.params contents = rows st.params call.session.contents := by
        rcases hcontents with rfl | ⟨p', rfl⟩
        · rfl
        · exact hstore.undisturbed hp p' mode st.params call.session.contents
      have htext : shape₀.text = shape.text := (congrArg PlanKey.shape hkey).symm
      have hsame := hshared mode q₀ q shape₀ shape params₀ st.params rows hq₀ hq hshaped₀ hshaped
        htext hplanned call.session.contents
      rw [← hsame, hunseen]

/-- In both modes a query has the same rows of its own, or else none. -/
theorem ownRows_cases (hstore : c.store.Serves meaning) (call : Call σ ε) (q : Expr) :
    (∃ rows, ∀ mode, c.ownRows (meaning mode) call q = .ok rows) ∨
      ∃ e e', c.ownRows (meaning .sync) call q = .error e ∧
        c.ownRows (meaning .async) call q = .error e' ∧
        (e' = e ∨ e.FromStore ∧ e'.FromStore) := by
  unfold ownRows
  rcases (c.shape q).run ⟨call.params, call.session.draws⟩ with ⟨e | shape, st⟩
  · exact .inr ⟨_, _, rfl, rfl, .inl rfl⟩
  · dsimp only
    cases hclassify : Pipeline.classify c.classifier shape with
    | error e =>
        exact .inr ⟨_, _, rowsOf_of_error (planned_of_error hclassify),
          rowsOf_of_error (planned_of_error hclassify), .inl rfl⟩
    | ok p =>
        have halike := hstore.alike p st.params call.session.contents
        rcases rowsOf_cases (meaning .sync) hclassify st.params call.session.contents with
          ⟨r, hr, hsync⟩ | ⟨hnone, e, he, hsync⟩
        · rcases rowsOf_cases (meaning .async) hclassify st.params call.session.contents with
            ⟨r', hr', hasync⟩ | ⟨hnone', -⟩
          · obtain rfl : r = r' := by simpa [hr, hr'] using halike
            exact .inl ⟨r, fun mode => by cases mode <;> assumption⟩
          · rw [hr, hnone'] at halike
            cases halike
        · rcases rowsOf_cases (meaning .async) hclassify st.params call.session.contents with
            ⟨r', hr', -⟩ | ⟨-, e', he', hasync⟩
          · rw [hnone, hr'] at halike
            cases halike
          · exact .inr ⟨e, e', hsync, hasync, .inr ⟨he, he'⟩⟩

end Cases

/-! ## Entry points -/

section Entries

variable {c : Compiler σ κ ε} {mode : Mode} {q : Expr} {call call' : Call σ ε}

def extended (c : Compiler σ κ ε) (q : Expr) (call : Call σ ε) : Bindings :=
  ((c.shape q).run ⟨call.params, call.session.draws⟩).2.params

theorem planOf_params (mode : Mode) (shape : Expr) (call : Call σ ε) :
    ((c.planOf mode shape).run call).2.params = call.params := by
  rcases hget : call.session.cache.get (.ofShape c.store.identity mode shape) with
    ⟨_ | plan, cache⟩
  · rw [planOf_run_of_miss hget]
    split
    · rfl
    · split <;> rfl
  · rw [planOf_run_of_hit hget]

theorem plan_params : ((c.plan mode q).run call).2.params = c.extended q call := by
  rw [plan_run, extended]
  rcases (c.shape q).run ⟨call.params, call.session.draws⟩ with ⟨e | shape, st⟩
  · rfl
  · exact planOf_params mode shape _

theorem delivered_params : ((c.delivered q mode).run call).2.params = c.extended q call := by
  obtain ⟨contents, hafter⟩ := @delivered_after σ κ ε c mode q call
  rw [hafter]
  exact plan_params

theorem Produced.delivered {Q : Expr → Prop} (h : c.Produced Q call.session.cache) (hq : Q q)
    (mode : Mode) : c.Produced Q ((c.delivered q mode).run call).2.session.cache := by
  obtain ⟨contents, hafter⟩ := @delivered_after σ κ ε c mode q call
  rw [hafter]
  exact .call mode hq h

/-- The entry points leave caches that calls leave. -/
theorem Produced.entries {Q : Expr → Prop} (h : c.Produced Q call.session.cache) (hq : Q q)
    (cancelled : Bool) : c.Produced Q ((c.execute q).run call).2.session.cache ∧
      c.Produced Q ((c.executeStream q).run call).2.session.cache ∧
      c.Produced Q ((c.executeScalar q).run call).2.session.cache ∧
      c.Produced Q ((c.executeScalarStream cancelled q).run call).2.session.cache := by
  rw [execute_run, executeStream_run, executeScalar_run, executeScalarStream_run]
  exact ⟨h.delivered hq .sync, h.delivered hq .async, h.delivered hq .sync, h.delivered hq .async⟩

/-- Where plans can be shared, a query has its own rows. -/
theorem delivered_eq_ownRows {meaning : Mode → Store.Meaning σ κ ε} {Q : Expr → Prop}
    (hstore : c.store.Serves meaning) (hshared : c.Interchangeable meaning Q)
    (hcache : c.Produced Q call.session.cache) (hq : Q q) (mode : Mode) :
    ((c.delivered q mode).run call).1 = c.ownRows (meaning mode) call q := by
  rcases plan_cases hstore hshared hcache hq mode with
    ⟨e, call', hrun, hown⟩ | ⟨plan, call', rows, hrun, hdelivers, hown⟩
  · rw [delivered_run_error hrun, hown]
  · rw [delivered_run_ok hrun hdelivers.1, hdelivers.2, hown]

end Entries

/-! ## Agreement -/

/-- The entry points read the rows given for their mode, which are the same, or all fail: with one
error, or with an error of the store in each mode. -/
structure Agrees (c : Compiler σ κ ε) (own : Mode → Except (QueryError κ ε) (Rows ε))
    (call : Call σ ε) (q : Expr) : Prop where
  delivered : ∀ mode, ((c.delivered q mode).run call).1 = own mode
  execute : ∀ rows, own .sync = .ok rows → Collects rows ((c.execute q).run call).1
  executeStream : ∀ rows, own .sync = .ok rows →
    ((c.executeStream q).run call).1 = ((c.execute q).run call).1
  executeScalar : ∀ rows, own .sync = .ok rows → Starts rows ((c.executeScalar q).run call).1
  executeScalarStream : ∀ rows, own .sync = .ok rows →
    ((c.executeScalarStream false q).run call).1 = ((c.executeScalar q).run call).1
  cancelled : ∀ rows, own .sync = .ok rows →
    ((c.executeScalarStream true q).run call).1 = .error .cancelled
  failed : ∀ e, own .sync = .error e → ∃ e', (e' = e ∨ e.FromStore ∧ e'.FromStore) ∧
    ((c.execute q).run call).1 = .error e ∧ ((c.executeScalar q).run call).1 = .error e ∧
    ((c.executeStream q).run call).1 = .error e' ∧
    ∀ cancelled, ((c.executeScalarStream cancelled q).run call).1 = .error e'

/-- The entry points differ in the mode and in what they read of the rows. -/
theorem agrees_of_delivered {c : Compiler σ κ ε}
    {own : Mode → Except (QueryError κ ε) (Rows ε)} {call : Call σ ε} {q : Expr}
    (hown : (∃ rows, ∀ mode, own mode = .ok rows) ∨ ∃ e e', own .sync = .error e ∧
      own .async = .error e' ∧ (e' = e ∨ e.FromStore ∧ e'.FromStore))
    (hdelivered : ∀ mode, ((c.delivered q mode).run call).1 = own mode) : c.Agrees own call q := by
  have hexecute := congrArg Prod.fst (@execute_run σ κ ε c q call)
  have hstream := congrArg Prod.fst (@executeStream_run σ κ ε c q call)
  have hscalar := congrArg Prod.fst (@executeScalar_run σ κ ε c q call)
  have hscalarStream := fun cancelled =>
    congrArg Prod.fst (@executeScalarStream_run σ κ ε c q call cancelled)
  simp only [hdelivered] at hexecute hstream hscalar hscalarStream
  rcases hown with ⟨rows, hrows⟩ | ⟨e, e', hsync, hasync, herror⟩
  · rw [hrows] at hexecute hstream hscalar
    simp only [hrows] at hscalarStream
    have hread : ∀ rows', own .sync = .ok rows' → rows = rows' := by
      intro rows' hrows'
      rw [hrows] at hrows'
      cases hrows'
      rfl
    constructor
    case delivered => exact hdelivered
    case execute =>
      intro rows' hrows'
      obtain rfl := hread rows' hrows'
      rw [hexecute]
      exact collects_collect rows
    case executeStream => exact fun _ _ => hstream.trans hexecute.symm
    case executeScalar =>
      intro rows' hrows'
      obtain rfl := hread rows' hrows'
      rw [hscalar]
      exact starts_firstRow rows
    case executeScalarStream => exact fun _ _ => (hscalarStream false).trans hscalar.symm
    case cancelled => exact fun _ _ => hscalarStream true
    case failed =>
      intro e he
      rw [hrows] at he
      cases he
  · have hnone : ∀ rows, own .sync ≠ .ok rows := by
      intro rows hrows
      rw [hsync] at hrows
      cases hrows
    constructor
    case delivered => exact hdelivered
    case failed =>
      intro e₁ he₁
      obtain rfl : e = e₁ := by simpa [hsync] using he₁
      rw [hsync] at hexecute hscalar
      rw [hasync] at hstream
      simp only [hasync] at hscalarStream
      exact ⟨e', herror, hexecute, hscalar, hstream, hscalarStream⟩
    all_goals exact fun rows hrows => absurd hrows (hnone rows)

/-! ## Borrowed plans -/

section Borrowed

variable {c : Compiler σ κ ε} {mode : Mode} {q shape : Expr} {p : Pipeline} {x : Executor σ ε}
  {st' : Extract.State} {contents' : σ} {call : Call σ ε}

/-- A plan whose key no other plan has is compiled and kept beside them. -/
theorem plan_run_of_new {plans : List (PlanKey × Plan σ ε)}
    (hcache : call.session.cache.Holds plans)
    (hshape : (c.shape q).run ⟨call.params, call.session.draws⟩ = (.ok shape, st'))
    (hnew : .ofShape c.store.identity mode shape ∉ plans.map Prod.fst)
    (hclassify : Pipeline.classify c.classifier shape = .ok p)
    (hcompile : c.store.compile p p.result.element mode call.session.contents =
      (.ok x, contents')) :
    ∃ cache, (c.plan mode q).run call =
        (.ok ⟨call.session.compiles, p.result.element, x⟩,
          ⟨st'.params, ⟨cache, contents', call.session.compiles + 1, st'.draws⟩⟩) ∧
      cache.Holds (plans ++ [(.ofShape c.store.identity mode shape,
        ⟨call.session.compiles, p.result.element, x⟩)]) := by
  rcases hget : call.session.cache.get (.ofShape c.store.identity mode shape) with ⟨found, cache⟩
  obtain ⟨hcache', hfound, -⟩ := hcache.get hget
  cases found with
  | some plan => exact absurd (List.mem_map_of_mem (hfound plan rfl)) hnew
  | none =>
      rcases hinsert : cache.insert (.ofShape c.store.identity mode shape)
        ⟨call.session.compiles, p.result.element, x⟩ with ⟨kept, cache''⟩
      obtain ⟨rfl, hcache''⟩ := hcache'.insert hnew hinsert
      exact ⟨cache'', plan_run_of_miss hshape hget hclassify hcompile hinsert, hcache''⟩

/-- A query runs the only plan that is kept if its shape has the text in the key. -/
theorem delivered_of_holds {k : PlanKey} {plan : Plan σ ε}
    {rows : Bindings → σ → Except ε (Rows ε)} (hcache : call.session.cache.Holds [(k, plan)])
    (hshape : (c.shape q).run ⟨call.params, call.session.draws⟩ = (.ok shape, st'))
    (hkey : k = .ofShape c.store.identity mode shape)
    (hdelivers : plan.executor.Delivers mode rows) :
    ((c.delivered q mode).run call).1 = started (rows st'.params call.session.contents) := by
  subst hkey
  rcases hget : call.session.cache.get (.ofShape c.store.identity mode shape) with ⟨found, cache⟩
  obtain ⟨-, hfound, habsent⟩ := hcache.get hget
  cases found with
  | none => exact absurd List.mem_cons_self (habsent rfl)
  | some plan' =>
      obtain rfl : plan' = plan := by simpa using hfound plan' rfl
      rw [delivered_run_ok (plan_run_of_hit hshape hget) hdelivers.1, hdelivers.2]

end Borrowed

/-- All entry points leave the same placeholder values. Over a store that serves both modes alike,
they agree on the queries of a set with every cache that these queries fill if and only if those
whose shapes have one text can run each other's plans. -/
theorem agrees_iff_interchangeable (c : Compiler σ κ ε) (meaning : Mode → Store.Meaning σ κ ε)
    (hstore : c.store.Serves meaning) (Q : Expr → Prop) :
    (∀ call q cancelled, ((c.execute q).run call).2.params = c.extended q call ∧
      ((c.executeStream q).run call).2.params = c.extended q call ∧
      ((c.executeScalar q).run call).2.params = c.extended q call ∧
      ((c.executeScalarStream cancelled q).run call).2.params = c.extended q call) ∧
    ((∀ call q, Q q → c.Produced Q call.session.cache →
      c.Agrees (fun mode => c.ownRows (meaning mode) call q) call q) ↔
        c.Interchangeable meaning Q) := by
  refine ⟨fun call q cancelled => ?_, fun hagrees => ?_, fun hshared call q hq hcache => ?_⟩
  · rw [execute_run, executeStream_run, executeScalar_run, executeScalarStream_run]
    exact ⟨delivered_params, delivered_params, delivered_params, delivered_params⟩
  · -- The first query leaves its plan in a fresh cache; the second one then runs that plan.
    rintro mode q q' shape shape' params params' rows hq hq' ⟨st, draws, hshape⟩
      ⟨st', draws', hshape'⟩ htext hplanned contents
    obtain ⟨p, hclassify, hp⟩ := exists_meaning hplanned
    obtain ⟨x, contents₁, hcompile, hx⟩ := hstore.compiles hp contents
    let first : Call σ ε := ⟨st.params, ⟨.keeping (.empty 0 fun _ => 0), contents, 0, st.draws⟩⟩
    have hfirst : first.session.cache.Holds [] := PlanCache.holds_empty _
    obtain ⟨cache, hrun, hcache⟩ :=
      plan_run_of_new hfirst hshape List.not_mem_nil hclassify hcompile
    have hproduced : c.Produced Q cache := by
      have hcall : c.Produced Q ((c.plan mode q).run first).2.session.cache :=
        .call mode hq (.keeping 0 _)
      rwa [hrun] at hcall
    let next : Call σ ε := ⟨st'.params, ⟨cache, contents, 1, st'.draws⟩⟩
    have hnext : next.session.cache.Holds _ := hcache
    have hkey : PlanKey.ofShape c.store.identity mode shape =
        .ofShape c.store.identity mode shape' := congrArg (PlanKey.mk c.store.identity mode) htext
    have hown := (hagrees next q' hq' hproduced).delivered mode
    rw [delivered_of_holds hnext hshape' hkey hx, ownRows, hshape'] at hown
    exact hown
  · exact agrees_of_delivered (ownRows_cases hstore call q)
      (delivered_eq_ownRows hstore hshared hcache hq)

/-- It is enough that the texts of the shapes tell them apart. -/
theorem interchangeable_of_text_injective {c : Compiler σ κ ε}
    {meaning : Mode → Store.Meaning σ κ ε} {Q : Expr → Prop}
    (htext : ∀ q q' shape shape' params params', Q q → Q q' →
      c.Shaped q shape params → c.Shaped q' shape' params' → shape.text = shape'.text →
      shape = shape') : c.Interchangeable meaning Q := by
  intro mode q q' shape shape' params params' rows hq hq' hshaped hshaped' hsame hplanned contents
  obtain rfl := htext q q' shape shape' params params' hq hq' hshaped hshaped' hsame
  exact (rowsOf_of_ok hplanned).symm

end Compiler

/-! ## Streamed counts of two sets -/

namespace MemoryStore

open Eval (Oracle)

def meaning (schema : Schema) (oracle : Oracle) :
    Mode → Store.Meaning Memory MemoryStoreError EvalError := fun _ p =>
  (check schema p).map fun _ params m => (run oracle p params m).1

/-- The rows in memory do not depend on the mode, and compiling does not touch them. -/
theorem serves_store (schema : Schema) (oracle : Oracle) :
    (store schema oracle).Serves (meaning schema oracle) := by
  constructor
  case compiles =>
    intro mode p rows hp m
    cases hcheck : check schema p with
    | error e => simp [meaning, hcheck, Except.map] at hp
    | ok u =>
        obtain rfl : (fun params m => (run oracle p params m).1) = rows := by
          simpa [meaning, hcheck, Except.map] using hp
        exact ⟨⟨mode, run oracle p⟩, m, compile_of_check hcheck _ mode m, rfl, fun _ _ => rfl⟩
  case refuses =>
    intro mode p e hp m
    cases hcheck : check schema p with
    | ok u => simp [meaning, hcheck, Except.map] at hp
    | error e' =>
        obtain rfl : e' = e := by simpa [meaning, hcheck, Except.map] using hp
        refine ⟨m, ?_⟩
        rw [compile_store, hcheck]
        rfl
  case alike => exact fun _ _ _ => rfl
  case undisturbed => exact fun _ _ _ _ _ => rfl

theorem shape_countOf (set : String) (st : Extract.State) :
    ((compiler staffing still).shape (countOf set)).run st = (.ok (countOf set), st) := rfl

def counting (set : String) : Pipeline := ⟨⟨"Person", set⟩, [.count none], .single .int⟩

theorem classify_countOf (set : String) :
    Pipeline.classify .standard (countOf set) = .ok (counting set) := rfl

/-- A stream of the number of all people takes the plan of a stream of the number of the staff,
which is kept apart from the plan that counts the people at once. -/
theorem streamed_count_of_people :
    QueryText.parse ⟨staffing.names, none⟩ "people.Count()" = .ok (countOf "people") ∧
      QueryText.parse ⟨staffing.names, none⟩ "staff.Count()" = .ok (countOf "staff") ∧
      let c := compiler staffing still
      let first := (c.executeStream (countOf "staff")).run
        ⟨[], ⟨.keeping (.empty 0 fun _ => 0), staffed, 0, 0⟩⟩
      first.1 = .ok [.int 1] ∧
        ((c.execute (countOf "people")).run ⟨[], first.2.session⟩).1 = .ok [.int 2] ∧
        ((c.executeStream (countOf "people")).run ⟨[], first.2.session⟩).1 = .ok [.int 1] := by
  refine ⟨rfl, rfl, ?_⟩
  intro c first
  let fresh : Call Memory EvalError := ⟨[], ⟨.keeping (.empty 0 fun _ => 0), staffed, 0, 0⟩⟩
  have hfresh : fresh.session.cache.Holds [] := PlanCache.holds_empty _
  obtain ⟨cache, hplan, hcache⟩ := Compiler.plan_run_of_new (c := c) hfresh
    (shape_countOf "staff" _) List.not_mem_nil (classify_countOf "staff")
    (compile_of_check rfl _ .async staffed)
  have hfirst : first = (.ok [.int 1], ⟨[], ⟨cache, staffed, 1, 0⟩⟩) := by
    have hstream : (c.delivered (countOf "staff") .async).run fresh =
        (.ok [.ok (.int 1)], ⟨[], ⟨cache, staffed, 1, 0⟩⟩) := by
      rw [Compiler.delivered, Compiler.stream, Extract.run_bind, hplan]
      rfl
    exact Compiler.executeStream_run.trans (by rw [hstream]; rfl)
  rw [hfirst]
  let next : Call Memory EvalError := ⟨[], ⟨cache, staffed, 1, 0⟩⟩
  have hnext : next.session.cache.Holds _ := hcache
  refine ⟨rfl, ?_, ?_⟩
  · have hkey : PlanKey.ofShape c.store.identity .sync (countOf "people") ∉
        [PlanKey.ofShape c.store.identity .async (countOf "staff")] := by
      simp [PlanKey.ofShape]
    obtain ⟨cache', hplan', -⟩ := Compiler.plan_run_of_new (c := c) hnext
      (shape_countOf "people" _) hkey (classify_countOf "people")
      (compile_of_check rfl _ .sync staffed)
    rw [Compiler.execute_run, Compiler.delivered_run_ok hplan' rfl]
    rfl
  · have hkey : PlanKey.ofShape c.store.identity .async (countOf "staff") =
        .ofShape c.store.identity .async (countOf "people") :=
      congrArg (PlanKey.mk c.store.identity .async) rfl
    rw [Compiler.executeStream_run,
      Compiler.delivered_of_holds hnext (shape_countOf "people" _) hkey ⟨rfl, fun _ _ => rfl⟩]
    rfl

/-- Counts of one set agree, also those that take a plan from the cache. -/
theorem counts_of_people_agree :
    (store staffing still).Serves (meaning staffing still) ∧
      let c := compiler staffing still
      let first := (c.executeStream (countOf "people")).run
        ⟨[], ⟨.keeping (.empty 1 fun _ => 0), staffed, 0, 0⟩⟩
      c.Agrees (fun _ => .ok [.ok (.int 2)]) ⟨[], ⟨first.2.session.cache, staffed, 1, 0⟩⟩
        (countOf "people") := by
  refine ⟨serves_store staffing still, ?_⟩
  intro c first
  have hshared : c.Interchangeable (meaning staffing still) (· = countOf "people") := by
    refine Compiler.interchangeable_of_text_injective ?_
    rintro _ _ shape shape' params params' rfl rfl ⟨st, draws, hshape⟩ ⟨st', draws', hshape'⟩ -
    rw [shape_countOf] at hshape hshape'
    cases hshape
    cases hshape'
    rfl
  let fresh : Call Memory EvalError := ⟨[], ⟨.keeping (.empty 1 fun _ => 0), staffed, 0, 0⟩⟩
  have hfresh : c.Produced (· = countOf "people") fresh.session.cache := .keeping 1 _
  have hproduced : c.Produced (· = countOf "people") first.2.session.cache :=
    (hfresh.entries rfl false).2.1
  exact (Compiler.agrees_iff_interchangeable c _ (serves_store staffing still) _).2.mpr hshared
    _ _ rfl hproduced

end MemoryStore

end DeferredQuery
