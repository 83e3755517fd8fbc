import DeferredQuery.Proofs.Pipeline.Draws
import DeferredQuery.Proofs.Sql.Steps

/-!
# Conversions that keep values

Lowering leaves out the conversions that its types take for representation only, and casts each
placeholder to its type. Where these keep the values that they are applied to, the lowered
expression has the value of the expression, and a pipeline with lowered expressions the rows of the
pipeline.
-/

namespace DeferredQuery

open Eval (Env Entails)
open Sql (keepsValue typeName?)

namespace Expr

variable {env : Env} {scope : Eval.Scope} {bound : List String}

/-- The conversions that lowering leaves out, and the casts that it gives to placeholders, keep the
values that they are applied to. -/
structure Keeps (env : Env) (scope : Eval.Scope) (bound : List String) (e : Expr) : Prop where
  conversion : ∀ operand t, .convert operand t ∈ e.nodes → keepsValue operand t = true →
    ∀ n v k, Eval.value env scope operand n = .ok (v, k) → v.convert t = v
  placeholder : ∀ name t, .parameter name t ∈ e.nodes → name ∉ bound →
    (typeName? t).isSome = true → ∀ v, env.lookup scope name = .ok v → v.convert t = v

theorem Keeps.child {c e : Expr} (h : e.Keeps env scope bound) (hc : c ∈ e.children) :
    c.Keeps env scope bound where
  conversion operand t hn := h.conversion operand t (mem_nodes_of_child hc hn)
  placeholder name t hn := h.placeholder name t (mem_nodes_of_child hc hn)

def KeepsOn (env : Env) (args : List Value) : Expr → Prop
  | .lambda params body =>
    body.Keeps env (Eval.bindArgs params args []) (params.map Binder.name)
  | _ => True

theorem CallFree.drawFree {e : Expr} (h : e.CallFree) : e.DrawFree := by
  intro n hn
  cases n with
  | call m receiver args t => exact (h m receiver args t hn).elim
  | _ => rfl

/-! ## Expressions and their values -/

mutual

/-- The expression has the value. Of a record built on the spot, the fields have the values of its
fields, so that one of them can stand for a member of it. -/
inductive Builds (env : Env) (scope : Eval.Scope) : Value → Expr → Prop
  | plain {v : Value} {e : Expr} (hrecord : ∀ fields, e ≠ .record fields)
      (hvalue : Eval.value env scope e = pure v) : Builds env scope v e
  | record {fs : List (Named Value)} {fields : List (Named Expr)}
      (hfields : BuildsFields env scope fs fields) : Builds env scope (.record fs) (.record fields)

inductive BuildsFields (env : Env) (scope : Eval.Scope) :
    List (Named Value) → List (Named Expr) → Prop
  | nil : BuildsFields env scope [] []
  | cons (name : String) {v : Value} {e : Expr} {fs : List (Named Value)}
      {fields : List (Named Expr)} (he : Builds env scope v e)
      (hrest : BuildsFields env scope fs fields) :
      BuildsFields env scope (⟨name, v⟩ :: fs) (⟨name, e⟩ :: fields)

end

mutual

theorem Builds.value_eq {v : Value} {e : Expr} :
    Builds env scope v e → Eval.value env scope e = pure v
  | .plain _ hvalue => hvalue
  | .record hfields => by
    rw [Eval.value, hfields.fieldValues_eq]
    rfl

theorem BuildsFields.fieldValues_eq {fs : List (Named Value)} {fields : List (Named Expr)} :
    BuildsFields env scope fs fields → Eval.fieldValues env scope fields = pure fs
  | .nil => rfl
  | .cons name he hrest => by
    rw [Eval.fieldValues, he.value_eq, hrest.fieldValues_eq]
    rfl

end

theorem entails_of_builds {e e' : Expr}
    (h : ∀ {v n k}, Eval.value env scope e n = .ok (v, k) → Builds env scope v e') :
    Entails (Eval.value env scope e) (Eval.value env scope e') := by
  intro n v k hv n'
  rw [(h hv).value_eq]
  rfl

/-- The value of a field is that of the expression under its name. -/
theorem BuildsFields.find? {fs : List (Named Value)} {fields : List (Named Expr)}
    (h : BuildsFields env scope fs fields) {name : String} {v : Value}
    (hv : Named.find? name fs = some v) :
    ∃ e, Named.find? name fields = some e ∧ Builds env scope v e := by
  cases h with
  | nil => cases hv
  | cons name' he hrest =>
      rw [Named.find?_cons] at hv ⊢
      split at hv
      · rename_i hname
        cases hv
        exact ⟨_, if_pos hname, he⟩
      · rename_i hname
        obtain ⟨e, hfind, hbuilds⟩ := hrest.find? hv
        exact ⟨e, by rwa [if_neg hname], hbuilds⟩

theorem find?_of_member {fs : List (Named Value)} {name : String} {v : Value}
    (h : Value.member (.record fs) name = .ok v) : Named.find? name fs = some v := by
  unfold Value.member Value.storedMember at h
  cases hfind : Named.find? name fs with
  | none => simp [hfind, Value.computedMember?] at h
  | some w =>
      simp only [hfind, Except.ok.injEq] at h
      rw [h]

/-- A member of a record built on the spot is its field. -/
theorem builds_memberOf {v w : Value} {e : Expr} (he : Builds env scope v e) {name : String}
    (t : Ty) (h : v.member name = .ok w) : Builds env scope w (e.memberOf name t) := by
  cases he with
  | plain hrecord hvalue =>
      have hmember : e.memberOf name t = .member e name t := by
        cases e with
        | record fields => exact (hrecord fields rfl).elim
        | _ => rfl
      rw [hmember]
      refine .plain (by simp) ?_
      rw [Eval.value, hvalue, pure_bind, h]
      rfl
  | record hfields =>
      obtain ⟨e', hfind, hbuilds⟩ := hfields.find? (find?_of_member h)
      simpa [memberOf, hfind] using hbuilds

/-- A parameter of a lambda stays, and a placeholder is cast to its type. -/
theorem builds_parameter {name : String} {t : Ty}
    (hkeeps : (Expr.parameter name t).Keeps env scope bound) {v : Value} {n k : Nat}
    (hv : Eval.value env scope (.parameter name t) n = .ok (v, k)) :
    Builds env scope v ((Expr.parameter name t).lowered bound) := by
  obtain ⟨hlookup, -⟩ := Eval.lift_eq_ok.mp hv
  have hvalue : Eval.value env scope (.parameter name t) = pure v := by
    rw [Eval.value, hlookup]
    rfl
  rw [lowered]
  split
  · exact .plain (by simp) hvalue
  · rename_i hname
    obtain ⟨hbound, htype⟩ := not_or.mp hname
    rw [Bool.not_eq_true, Option.isNone_eq_false_iff] at htype
    have hconvert := hkeeps.placeholder name t (self_mem_nodes _) hbound htype v hlookup
    refine .plain (by simp) ?_
    rw [Eval.value, hvalue, pure_bind, hconvert]

/-- The fields of a record are evaluated one by one. -/
theorem buildsFields_lowered {fields : List (Named Expr)}
    (h : ∀ field ∈ fields, ∀ v n k, Eval.value env scope field.value n = .ok (v, k) →
      Builds env scope v (field.value.lowered bound)) {fs : List (Named Value)} {n k : Nat}
    (hfs : Eval.fieldValues env scope fields n = .ok (fs, k)) :
    BuildsFields env scope fs (loweredFields bound fields) := by
  induction fields generalizing fs n k with
  | nil =>
      obtain ⟨rfl, -⟩ := Eval.pure_eq_ok.mp hfs
      exact .nil
  | cons field fields ih =>
      obtain ⟨name, e⟩ := field
      obtain ⟨v, i, hv, hrest⟩ := Eval.bind_eq_ok.mp hfs
      obtain ⟨vs, j, hvs, hpure⟩ := Eval.bind_eq_ok.mp hrest
      obtain ⟨rfl, -⟩ := Eval.pure_eq_ok.mp hpure
      obtain ⟨he, hfields⟩ := List.forall_mem_cons.mp h
      exact .cons name (he v n i hv) (ih hfields hvs)

/-- The lowered expression has each value of the expression. -/
theorem builds_lowered {e : Expr} (hcalls : e.CallFree) (hkeeps : e.Keeps env scope bound)
    {v : Value} {n k : Nat} (hv : Eval.value env scope e n = .ok (v, k)) :
    Builds env scope v (e.lowered bound) := by
  induction e generalizing v n k with
  | constant w t =>
      obtain ⟨rfl, -⟩ := Eval.pure_eq_ok.mp hv
      exact .plain (by simp [lowered]) rfl
  | parameter name t => exact builds_parameter hkeeps hv
  | member target name t ih =>
      obtain ⟨w, j, hw, hmember⟩ := Eval.bind_eq_ok.mp hv
      have hc : target ∈ (member target name t).children := by simp [children]
      rw [lowered]
      exact builds_memberOf (ih (hcalls.child hc) (hkeeps.child hc) hw) t
        (Eval.lift_eq_ok.mp hmember).1
  | call m receiver args t => exact (hcalls m receiver args t (self_mem_nodes _)).elim
  | lambda params body => exact (Eval.throw_ne_ok hv).elim
  | convert operand t ih =>
      obtain ⟨w, j, hw, hconvert⟩ := Eval.bind_eq_ok.mp hv
      obtain ⟨rfl, -⟩ := Eval.pure_eq_ok.mp hconvert
      have hc : operand ∈ (convert operand t).children := by simp [children]
      have hbuilds := ih (hcalls.child hc) (hkeeps.child hc) hw
      rw [lowered]
      split
      · rename_i hkept
        rwa [hkeeps.conversion operand t (self_mem_nodes _) hkept n w j hw]
      · refine .plain (by simp) ?_
        rw [Eval.value, hbuilds.value_eq, pure_bind]
  | binary op left right ihl ihr =>
      have hl : left ∈ (binary op left right).children := by simp [children]
      have hr : right ∈ (binary op left right).children := by simp [children]
      have hentails := Eval.entails_binary
        (entails_of_builds fun hv => ihl (hcalls.child hl) (hkeeps.child hl) hv)
        (entails_of_builds fun hv => ihr (hcalls.child hr) (hkeeps.child hr) hv) op
      rw [lowered]
      exact .plain (by simp) (funext fun n' => hentails n v k hv n')
  | unary op operand ih =>
      obtain ⟨w, j, hw, hop⟩ := Eval.bind_eq_ok.mp hv
      obtain ⟨hop, -⟩ := Eval.lift_eq_ok.mp hop
      have hc : operand ∈ (unary op operand).children := by simp [children]
      rw [lowered]
      refine .plain (by simp) ?_
      rw [Eval.value, (ih (hcalls.child hc) (hkeeps.child hc) hw).value_eq, pure_bind, hop]
      rfl
  | record fields ih =>
      obtain ⟨fs, j, hfs, hpure⟩ := Eval.bind_eq_ok.mp hv
      obtain ⟨rfl, -⟩ := Eval.pure_eq_ok.mp hpure
      rw [lowered]
      refine .record (buildsFields_lowered (fun field hfield v n k hv => ?_) hfs)
      have hc : field.value ∈ (record fields).children := List.mem_map_of_mem hfield
      exact ih field hfield (hcalls.child hc) (hkeeps.child hc) hv
  | volatile inner ih =>
      have hc : inner ∈ (volatile inner).children := by simp [children]
      rw [lowered]
      exact ih (hcalls.child hc) (hkeeps.child hc) hv

theorem entails_value_lowered {e : Expr} (hcalls : e.CallFree)
    (hkeeps : e.Keeps env scope bound) :
    Entails (Eval.value env scope e) (Eval.value env scope (e.lowered bound)) :=
  entails_of_builds fun hv => builds_lowered hcalls hkeeps hv

theorem entails_invoke_lowered {e : Expr} (hcalls : e.CallFree) {args : List Value}
    (hkeeps : e.KeepsOn env args) :
    Entails (Eval.invoke env [] args e) (Eval.invoke env [] args (e.lowered [])) := by
  cases e with
  | lambda params body =>
      rw [lowered, Eval.invoke, Eval.invoke, List.append_nil]
      split
      · exact entails_value_lowered (hcalls.child (by simp [children])) hkeeps
      · exact .throw _
  | _ => exact .throw _

end Expr

/-! ## Operations -/

def Operation.Keeps (env : Env) (items : List Value) : Operation → Prop
  | filter e | select e | orderBy e _ | thenBy e _ => ∀ v ∈ items, e.KeepsOn env [v]
  | skip e | take e => e.Keeps env [] []
  | join inner outerKey innerKey result =>
    ∀ inners, env.items (.query inner) = .ok inners →
      (∀ v ∈ items, outerKey.KeepsOn env [v]) ∧ (∀ w ∈ inners, innerKey.KeepsOn env [w]) ∧
        ∀ v ∈ items, ∀ w ∈ inners, result.KeepsOn env [v, w]
  | count predicate | any predicate | first predicate _ | single predicate =>
    ∀ e ∈ predicate, ∀ v ∈ items, e.KeepsOn env [v]
  | distinct | custom .. => True

def Pipeline.lowered (p : Pipeline) : Pipeline :=
  { p with operations := p.operations.map Operation.lowered }

def Pipeline.CallFree (p : Pipeline) : Prop := ∀ op ∈ p.operations, op.CallFree

namespace MemoryStore

open Sql.Reading (kept run_terminal)

/-! ## Stages of lowered operations -/

namespace Stage

def Keeps (env : Env) (items : List Value) : Stage → Prop
  | sort key rest => ∀ k ∈ key :: rest, ∀ v ∈ items, k.selector.KeepsOn env [v]
  | apply op => op.Keeps env items

/-- Lowering keeps the keys of a stage together. -/
theorem leadingKeys_lowered (stages : List Stage) :
    leadingKeys (stages.map lowered) =
      ((leadingKeys stages).1.map Eval.SortKey.lowered, (leadingKeys stages).2.map lowered) := by
  fun_induction leadingKeys stages with
  | case1 key descending rest keys rest' hrest ih =>
      rw [hrest] at ih
      simp only [List.map_cons, lowered, Operation.lowered, leadingKeys, ih]
      rfl
  | case2 stages hstages =>
      cases stages with
      | nil => rfl
      | cons stage stages =>
          rw [List.map_cons, leadingKeys]
          · rfl
          · intro key descending rest h
            obtain ⟨hstage, -⟩ := List.cons.inj h
            cases stage with
            | sort => cases hstage
            | apply op =>
                cases op <;> cases hstage
                exact hstages _ _ _ rfl

/-- Lowering an operation does not change which stage it belongs to. -/
theorem ofOperations_lowered (ops : List Operation) :
    ofOperations (ops.map Operation.lowered) = (ofOperations ops).map lowered := by
  fun_induction ofOperations ops with
  | case1 => rfl
  | case2 key descending ops keys rest hrest ih =>
      have hkeys := leadingKeys_lowered (ofOperations ops)
      rw [hrest, ← ih] at hkeys
      simp only [List.map_cons, Operation.lowered, ofOperations, hkeys]
      rfl
  | case3 op ops hop ih =>
      rw [List.map_cons, ofOperations, ih]
      · rfl
      · intro key descending h
        cases op <;> cases h
        exact hop _ _ rfl

end Stage

variable {env : Env} {items : List Value}

theorem entails_kept {predicate : Option Expr} (hcalls : ∀ e ∈ predicate, e.CallFree)
    (hkeeps : ∀ e ∈ predicate, ∀ v ∈ items, e.KeepsOn env [v]) :
    Entails (kept env items predicate) (kept env items (predicate.map fun e => e.lowered [])) := by
  cases predicate with
  | none => exact .pure items
  | some e =>
      refine Eval.Items.entails_keep fun v hv => ?_
      exact (Expr.entails_invoke_lowered (hcalls e rfl) (hkeeps e rfl v hv)).bind fun _ =>
        .lift_self _

theorem keysEntail_lowered {keys : List Eval.SortKey} (hcalls : ∀ k ∈ keys, k.selector.CallFree)
    (hkeeps : ∀ k ∈ keys, ∀ v ∈ items, k.selector.KeepsOn env [v]) :
    Eval.Items.KeysEntail items (keys.map (keyOf env))
      ((keys.map Eval.SortKey.lowered).map (keyOf env)) := by
  induction keys with
  | nil => exact .nil
  | cons k keys ih =>
      refine .cons ⟨fun v hv => ?_, rfl⟩ (ih (fun k hk => hcalls k (List.mem_cons_of_mem _ hk))
        fun k hk => hkeeps k (List.mem_cons_of_mem _ hk))
      exact Expr.entails_invoke_lowered (hcalls k List.mem_cons_self)
        (hkeeps k List.mem_cons_self v hv)

/-- An operation on lowered expressions gives the same, as far as conversions keep their values. -/
theorem entails_operation_lowered {op : Operation} (hcalls : op.CallFree)
    (hkeeps : op.Keeps env items) :
    Entails ((Stage.apply op).run env items) ((Stage.apply op.lowered).run env items) := by
  cases op with
  | filter e =>
      have hkept := @entails_kept env items (some e)
        (fun _ he => Option.some.inj he ▸ hcalls e List.mem_cons_self)
        fun _ he => Option.some.inj he ▸ hkeeps
      exact hkept.bind fun _ => .pure _
  | select e =>
      refine (Eval.Items.entails_select fun v hv => ?_).bind fun _ => .pure _
      exact Expr.entails_invoke_lowered (hcalls e List.mem_cons_self) (hkeeps v hv)
  | orderBy e descending =>
      have hkeys := @keysEntail_lowered env items [⟨e, descending⟩]
        (by simpa using hcalls e List.mem_cons_self) (by simpa [Operation.Keeps] using hkeeps)
      cases descending <;> exact (Eval.Items.entails_order hkeys).bind fun _ => .pure _
  | thenBy e descending => exact .throw _
  | skip e | take e =>
      refine (Expr.entails_value_lowered (hcalls e List.mem_cons_self) hkeeps).bind fun v => ?_
      exact (Entails.lift_self _).bind fun n => .pure _
  | distinct => exact .lift_self _
  | join inner outerKey innerKey result =>
      refine (Entails.pure (Value.query inner)).bind_of_results fun n v k hv => ?_
      obtain ⟨rfl, -⟩ := Eval.pure_eq_ok.mp hv
      refine (Entails.lift_self _).bind_of_results fun n' inners k' hinners => ?_
      obtain ⟨houter, hinner, hresult⟩ := hkeeps inners (Eval.lift_eq_ok.mp hinners).1
      have houterCalls := hcalls outerKey (by simp [Operation.arguments])
      have hinnerCalls := hcalls innerKey (by simp [Operation.arguments])
      have hresultCalls := hcalls result (by simp [Operation.arguments])
      refine (Eval.Items.entails_join (fun v hv => ?_) (fun w hw => ?_) fun v hv w hw => ?_).bind
        fun _ => .pure _
      · exact Expr.entails_invoke_lowered houterCalls (houter v hv)
      · exact Expr.entails_invoke_lowered hinnerCalls (hinner w hw)
      · exact Expr.entails_invoke_lowered hresultCalls (hresult v hv w hw)
  | count predicate | any predicate | first predicate orDefault | single predicate =>
      rw [Operation.lowered, run_terminal rfl, run_terminal rfl, Operation.arguments,
        Operation.arguments, Option.head?_toList, Option.head?_toList]
      refine (entails_kept (fun e he => hcalls e ?_) hkeeps).bind fun _ => .lift_self _
      exact Option.mem_toList.mpr he
  | custom name arguments =>
      exact entails_apply_self (fun e he => (hcalls e he).drawFree) env _ items

theorem entails_stage_lowered {stage : Stage} (hcalls : ∀ op ∈ stage.operations, op.CallFree)
    (hkeeps : stage.Keeps env items) :
    Entails (stage.run env items) (stage.lowered.run env items) := by
  cases stage with
  | sort key keys =>
      have hselectors : ∀ k ∈ key :: keys, k.selector.CallFree := by
        intro k hk
        rcases List.mem_cons.mp hk with rfl | hk
        · exact hcalls _ List.mem_cons_self _ List.mem_cons_self
        · exact hcalls _ (List.mem_cons_of_mem _ (List.mem_map_of_mem hk)) _ List.mem_cons_self
      exact (Eval.Items.entails_order (keysEntail_lowered hselectors hkeeps)).bind fun _ => .pure _
  | apply op => exact entails_operation_lowered (hcalls op List.mem_cons_self) hkeeps

/-! ## Runs -/

/-- Each of the stages keeps values on the items that the stages before it leave. -/
def StagesKeep (env : Env) (v : Value) (stages : List Stage) : Prop :=
  ∀ before stage after, stages = before ++ stage :: after →
    ∀ n items k, runStages env v before n = .ok (.list items, k) → stage.Keeps env items

/-- By induction on the stages, each on the items that the one before it left. -/
theorem entails_runStages_lowered {stages : List Stage}
    (hcalls : ∀ stage ∈ stages, ∀ op ∈ stage.operations, op.CallFree) {v : Value}
    (hkeeps : StagesKeep env v stages) :
    Entails (runStages env v stages) (runStages env v (stages.map Stage.lowered)) := by
  induction stages generalizing v with
  | nil => exact .pure v
  | cons stage stages ih =>
      cases v with
      | list items =>
          have hstage := hcalls stage List.mem_cons_self
          have hkeep : stage.Keeps env items := hkeeps [] stage stages rfl 0 items 0 rfl
          refine (entails_stage_lowered hstage hkeep).bind_of_results fun n w k hw => ?_
          refine ih (fun s hs => hcalls s (List.mem_cons_of_mem _ hs)) ?_
          intro before s after hstages j items' j' hrun
          have hself := entails_stage (fun op hop e he => (hstage op hop e he).drawFree) env items
          refine hkeeps (stage :: before) s after (by rw [hstages]; rfl) j items' j' ?_
          exact Eval.bind_eq_ok.mpr ⟨w, j, hself n w k hw j, hrun⟩
      | _ => exact .throw _

end MemoryStore

/-- In a run of the pipeline, all conversions that lowering leaves out and all casts that it gives
to placeholders keep the values that they are applied to. -/
def Pipeline.Keeps (env : Env) (source : List Value) (p : Pipeline) : Prop :=
  MemoryStore.StagesKeep env (.list source) (MemoryStore.Stage.ofOperations p.operations)

namespace MemoryStore

theorem entails_rows_lowered {env : Env} {source : List Value} {p : Pipeline}
    (hcalls : p.CallFree) (hkeeps : p.Keeps env source) :
    Entails (rows env source p) (rows env source p.lowered) := by
  have hstages := entails_runStages_lowered
    (fun stage hs op hop => hcalls op (Stage.mem_of_mem_operations hs hop)) hkeeps
  rw [← Stage.ofOperations_lowered] at hstages
  have hsame : p.lowered.result = p.result := rfl
  rw [rows, rows, hsame]
  refine hstages.bind fun v => ?_
  split <;> exact .pure _

/-- A run gives the same rows with lowered expressions. -/
theorem run_lowered {oracle : Eval.Oracle} {params : Bindings} {m m' : Memory} {p : Pipeline}
    {rs : Rows EvalError} (hcalls : p.CallFree)
    (hkeeps : p.Keeps (m.env oracle params) (m.scan p.source))
    (hrun : run oracle p params m = (.ok rs, m')) :
    run oracle p.lowered params m = (.ok rs, m) := by
  obtain ⟨items, k, hrows, hrs, -⟩ := run_eq_ok.mp hrun
  refine run_eq_ok.mpr ⟨items, m.draws, ?_, hrs, rfl⟩
  exact entails_rows_lowered hcalls hkeeps _ _ _ hrows _

end MemoryStore

end DeferredQuery
