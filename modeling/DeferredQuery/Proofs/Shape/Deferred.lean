import DeferredQuery.Proofs.QueryText.Deferred
import DeferredQuery.Proofs.Shape.Parts
import DeferredQuery.Proofs.Shape.Tags

/-!
# Deferred values in replaced parts

Extraction evaluates the closed parts of a query without a source of rows. Entity sets that the
query names are never in these parts. What is left are the captured variables: a closed part has a
queryable type in it only where it reads one, or a property, that is declared with a deferred type,
and its evaluation asks for rows only where a captured value holds an entity set.
-/

namespace DeferredQuery

open Eval (Oracle)

/-! ## Closed parts -/

namespace Extract

theorem closed_of_mem_nodes {n e : Expr} (h : (Closedness.analyze e).closed = true)
    (hn : n ∈ e.nodes) : (Closedness.analyze n).closed = true := by
  induction e using Expr.induction_on_children with
  | step e ih =>
      rcases Expr.mem_nodes.mp hn with rfl | ⟨c, hc, hn⟩
      · exact h
      · exact ih c hc ((closed_children h).2 c hc) hn

end Extract

namespace VolatileMethods

theorem mark_eq_of_closed {ms : VolatileMethods} {e : Expr}
    (h : (Closedness.analyze (ms.mark e)).closed = true) : ms.mark e = e := by
  unfold mark at h ⊢
  split at h
  · cases h
  · rename_i hmarks
    rw [if_neg hmarks]

/-- Below the tag of the node itself a closed expression is the query's own. -/
theorem withChildren_eq_of_closed {ms : VolatileMethods} {e : Expr}
    (h : (Closedness.analyze (e.withChildren (e.children.map ms.tag))).closed = true) :
    e.withChildren (e.children.map ms.tag) = e := by
  induction e using Expr.induction_on_children with
  | step e ih =>
      have hchildren := (Extract.closed_children h).2
      rw [Expr.children_withChildren (by simp), List.forall_mem_map] at hchildren
      have hsame : e.children.map ms.tag = e.children := by
        refine (List.map_congr_left fun c hc => ?_).trans (List.map_id _)
        have hclosed := hchildren c hc
        rw [tag_eq_mark] at hclosed ⊢
        have hmark := mark_eq_of_closed hclosed
        rw [hmark] at hclosed ⊢
        exact ih c hc hclosed
      rw [hsame, Expr.withChildren_children]

theorem mem_nodes_of_mark {ms : VolatileMethods} {n e : Expr} (hn : n ∈ (ms.mark e).nodes)
    (h : (Closedness.analyze n).closed = true) : n ∈ e.nodes := by
  unfold mark at hn
  split at hn
  · rcases Expr.mem_nodes.mp hn with rfl | ⟨c, hc, hmem⟩
    · cases h
    · rwa [List.mem_singleton.mp hc] at hmem
  · exact hn

/-- The closed parts of a tagged query are parts of the query. -/
theorem mem_nodes_of_closed {ms : VolatileMethods} {n e : Expr} (hn : n ∈ (ms.tag e).nodes)
    (h : (Closedness.analyze n).closed = true) : n ∈ e.nodes := by
  induction e using Expr.induction_on_children with
  | step e ih =>
      rw [tag_eq_mark] at hn
      rcases Expr.mem_nodes.mp (mem_nodes_of_mark hn h) with rfl | ⟨c, hc, hn⟩
      · rw [withChildren_eq_of_closed h]
        exact Expr.self_mem_nodes e
      · rw [Expr.children_withChildren (by simp)] at hc
        obtain ⟨d, hd, rfl⟩ := List.mem_map.mp hc
        exact Expr.mem_nodes_of_child hd (ih d hd hn)

end VolatileMethods

/-! ## Declared reads -/

namespace QueryText

/-- The expression reads a captured variable or a property that is declared with a deferred
type. -/
def Env.ReadsDeferred (env : Env) (e : Expr) : Prop :=
  ∃ target name t, .member target name t ∈ e.nodes ∧ t.isDeferred = true ∧ env.Declares ⟨name, t⟩

theorem Env.ReadsDeferred.mono {env : Env} {n e : Expr} (h : env.ReadsDeferred n)
    (hn : n ∈ e.nodes) : env.ReadsDeferred e := by
  obtain ⟨target, name, t, hmem, hread⟩ := h
  exact ⟨target, name, t, Expr.nodes_trans hmem hn, hread⟩

/-- A closed expression of a query text has a deferred type only from such a read. -/
theorem readsDeferred_of_closed {env : Env} {e : Expr} (h : env.WellTyped e)
    (hclosed : (Closedness.analyze e).closed = true) (hdeferred : e.ty.isDeferred = true) :
    env.ReadsDeferred e := by
  induction e using Expr.induction_on_children with
  | step e ih =>
      cases h e (Expr.self_mem_nodes e) with
      | literal v t _ ht => exact nomatch ht.symm.trans hdeferred
      | entitySet root => cases hclosed
      | captured c _ => cases hdeferred
      | parameter name t => cases hclosed
      | declared target name t hdeclared =>
          exact ⟨target, name, t, Expr.self_mem_nodes _, hdeferred, hdeclared⟩
      | derived _ _ hchild =>
          obtain ⟨c, hc, hdeferred⟩ := hchild hdeferred
          have hclosedc := (Extract.closed_children hclosed).2 c hc
          exact (ih c hc (h.child hc) hclosedc hdeferred).mono
            (Expr.mem_nodes_of_child hc (Expr.self_mem_nodes c))

/-- The constants of a closed expression hold no entity sets but those of the captured values. -/
theorem captured_of_closed {env : Env} {e : Expr} (h : env.WellTyped e)
    (hclosed : (Closedness.analyze e).closed = true) {v : Value} {t : Ty}
    (hconstant : .constant v t ∈ e.nodes) {root : SetRef} (hroot : root ∈ v.roots) :
    ∃ c, env.captured = some c ∧
      .const (.closure c.className c.captures) ∈ e.nodes ∧
        root ∈ Value.rootsOfCaptures c.captures := by
  have hclosed' := Extract.closed_of_mem_nodes hclosed hconstant
  cases h _ hconstant with
  | literal _ _ hroots _ =>
      rw [hroots] at hroot
      cases hroot
  | entitySet root => cases hclosed'
  | captured c hc => exact ⟨c, hc, hconstant, hroot⟩
  | derived _ hne _ => exact (hne v t rfl).elim

end QueryText

/-! ## Errors -/

namespace Extract

/-- Without placeholders, the rows of an entity set are asked for only if a constant holds the
set. -/
theorem constant_of_noSource {oracle : Oracle} {e : Expr} {n : Nat} {set : String}
    (h : Eval.evaluate (.closed oracle) e n = .error (.noSource set)) :
    ∃ v t, .constant v t ∈ e.nodes ∧ ∃ root ∈ v.roots, root.set = set := by
  let S : SetRef → Prop := fun root => ∃ v t, .constant v t ∈ e.nodes ∧ root ∈ v.roots
  let E : EvalError → Prop := fun err =>
    ∀ set, err = .noSource set → ∃ root, S root ∧ root.set = set
  have henv : Eval.Permits (.closed oracle) S E := by
    refine ⟨fun err herr set hset => (herr.source set hset).elim, fun root hroot => ?_⟩
    refine .error fun set hset => ⟨root, hroot, ?_⟩
    injection hset
  have hready : Eval.Supplied (.closed oracle) S E [] [] :=
    .of_lookup (by simp) fun name v hlookup => by cases hlookup
  have hsafe : Eval.Safe S E [] e :=
    ⟨.inl nofun, .inl nofun, fun v t hv root hroot => ⟨v, t, hv, hroot⟩⟩
  have hmeets := (Eval.confined_of_safe henv hsafe).value [] hready n
  have hvalue : Eval.value (.closed oracle) [] e n = .error (.noSource set) := h
  rw [hvalue] at hmeets
  obtain ⟨root, ⟨v, t, hv, hroot⟩, hset⟩ := hmeets set rfl
  exact ⟨v, t, hv, root, hroot, hset⟩

/-- The error is that of a part of the expression, which was evaluated. -/
structure StemsFrom (oracle : Oracle) (e : Expr) (err : ExtractError) : Prop where
  node : err.expression ∈ e.nodes
  fails : ∃ n, Eval.evaluate (.closed oracle) err.expression n = .error err.cause

theorem StemsFrom.of_child {oracle : Oracle} {c e : Expr} {err : ExtractError}
    (h : StemsFrom oracle c err) (hc : c ∈ e.children) : StemsFrom oracle e err :=
  ⟨Expr.mem_nodes_of_child hc h.node, h.fails⟩

theorem stemsFrom_of_compute {oracle : Oracle} {e : Expr} {name : Option String} {n : Nat}
    {err : ExtractError}
    (h : (compute oracle e >>= fun v => pure (v, name)) n = .error err) :
    StemsFrom oracle e err := by
  obtain hcompute | ⟨v, j, -, hpure⟩ := Eval.bind_eq_error.mp h
  · unfold compute at hcompute
    split at hcompute
    · cases hcompute
    · cases hcompute
      exact ⟨Expr.self_mem_nodes e, n, ‹_›⟩
  · cases hpure

/-- Evaluation fails at a part of the expression, or at the expression itself. -/
theorem stemsFrom_of_valueOf {oracle : Oracle} {e : Expr} {n : Nat} {err : ExtractError}
    (h : valueOf oracle e n = .error err) : StemsFrom oracle e err := by
  induction e generalizing n with
  | constant v t => cases h
  | member target name t ih =>
      rw [valueOf] at h
      obtain htarget | ⟨⟨v, path⟩, j, -, hread⟩ := Eval.bind_eq_error.mp h
      · exact (ih htarget).of_child (by simp [Expr.children])
      dsimp only at hread
      cases hstored : v.storedMember name with
      | ok w =>
          rw [hstored] at hread
          cases hread
      | error _ =>
          rw [hstored] at hread
          exact stemsFrom_of_compute hread
  | convert operand t ih =>
      rw [valueOf] at h
      split at h
      · exact (ih h).of_child (by simp [Expr.children])
      · exact stemsFrom_of_compute h
  | _ => exact stemsFrom_of_compute h

def FailsOnly {α : Type} (Q : ExtractError → Prop) (m : ExtractM α) : Prop :=
  ∀ s err s', m.run s = (.error err, s') → Q err

section FailsOnly

variable {α β : Type} {Q : ExtractError → Prop} {m : ExtractM α} {f : α → ExtractM β}

theorem FailsOnly.pure (a : α) : FailsOnly Q (Pure.pure a) := by
  rintro s err s' ⟨⟩

theorem FailsOnly.bind (hm : FailsOnly Q m) (hf : ∀ a, FailsOnly Q (f a)) :
    FailsOnly Q (m >>= f) := by
  intro s err s' h
  rw [run_bind] at h
  cases hrun : m.run s with
  | mk r s₁ =>
      rw [hrun] at h
      cases r with
      | error e =>
          cases h
          exact hm s err s' hrun
      | ok a => exact hf a s₁ err s' h

end FailsOnly

theorem failsOnly_bind (oracle : Oracle) (e : Expr) :
    FailsOnly (StemsFrom oracle e) (bind oracle e) := by
  intro s err s' h
  simp only [bind, ExceptT.run_mk] at h
  split at h
  · cases h
    exact stemsFrom_of_valueOf ‹_›
  · cases h

/-- What makes an extraction fail is the evaluation of a part that was to be replaced. -/
theorem extract_eq_error {oracle : Oracle} {e : Expr} {s s' : State} {err : ExtractError}
    (h : (extract oracle e).run s = (.error err, s')) :
    ∃ r, .replaced r ∈ parts false e ∧ StemsFrom oracle r err := by
  let Q : ExtractError → Prop := fun err => ∃ r, .replaced r ∈ parts false e ∧
    StemsFrom oracle r err
  have hparts : ∀ r, .replaced r ∈ parts false e → FailsOnly Q (bind oracle r) :=
    fun r hr s err s' h => ⟨r, hr, failsOnly_bind oracle r s err s' h⟩
  have hvisit : FailsOnly Q (visit oracle (closedness false e) e) :=
    @visit_of_parts Unit (fun m => FailsOnly Q (m ())) .pure (fun hm hf => hm.bind hf)
      (fun _ => oracle) e false hparts
  exact hvisit s err s' h

/-! ## Query texts -/

/-- What extraction evaluates of a query text has nodes of deferred types if and only if it reads
a captured variable or a property that is declared with one, and each node of a queryable type has
such a read in it. Rows are missing only for an entity set that a captured value holds. -/
theorem replaced_deferred_iff {env : QueryText.Env} {text : String} {e : Expr}
    (hparse : QueryText.parse env text = .ok e) (ms : VolatileMethods) (oracle : Oracle) :
    (∀ r, .replaced r ∈ parts false (ms.tag e) → r ∈ e.nodes ∧
      ((∃ n ∈ r.nodes, n.ty.isDeferred = true) ↔ env.ReadsDeferred r) ∧
      ∀ n ∈ r.nodes, n.ty.isQueryable = true → env.ReadsDeferred n) ∧
    ∀ s err s' set, (extract oracle (ms.tag e)).run s = (.error err, s') →
      err.cause = .noSource set → ∃ c, env.captured = some c ∧
        .const (.closure c.className c.captures) ∈ err.expression.nodes ∧
          ∃ root ∈ Value.rootsOfCaptures c.captures, root.set = set := by
  have htyped := QueryText.wellTyped_parse hparse
  have hpart : ∀ r, .replaced r ∈ parts false (ms.tag e) →
      r ∈ e.nodes ∧ (Closedness.analyze r).closed = true := by
    intro r hr
    obtain ⟨hmem, heligible⟩ := mem_nodes_of_replaced hr
    have hclosed := closed_of_eligible heligible
    exact ⟨VolatileMethods.mem_nodes_of_closed hmem hclosed, hclosed⟩
  have hnode : ∀ r, .replaced r ∈ parts false (ms.tag e) → ∀ n ∈ r.nodes,
      env.WellTyped n ∧ (Closedness.analyze n).closed = true := by
    intro r hr n hn
    obtain ⟨hmem, hclosed⟩ := hpart r hr
    exact ⟨fun a ha => htyped a (Expr.nodes_trans ha (Expr.nodes_trans hn hmem)),
      Extract.closed_of_mem_nodes hclosed hn⟩
  refine ⟨fun r hr => ⟨(hpart r hr).1, ⟨?_, ?_⟩, fun n hn hqueryable => ?_⟩, ?_⟩
  · rintro ⟨n, hn, hdeferred⟩
    obtain ⟨htypedn, hclosed⟩ := hnode r hr n hn
    exact (QueryText.readsDeferred_of_closed htypedn hclosed hdeferred).mono hn
  · rintro ⟨target, name, t, hmem, hdeferred, -⟩
    exact ⟨_, hmem, hdeferred⟩
  · obtain ⟨htypedn, hclosed⟩ := hnode r hr n hn
    exact QueryText.readsDeferred_of_closed htypedn hclosed
      (Ty.isDeferred_of_isQueryable hqueryable)
  · intro s err s' set herror hcause
    obtain ⟨r, hr, hexpression, k, heval⟩ := extract_eq_error herror
    obtain ⟨htypedx, hclosed⟩ := hnode r hr _ hexpression
    rw [hcause] at heval
    obtain ⟨v, t, hconstant, root, hroot, hset⟩ := constant_of_noSource heval
    obtain ⟨c, hc, hmem, hroot⟩ := QueryText.captured_of_closed htypedx hclosed hconstant hroot
    exact ⟨c, hc, hmem, root, hroot, hset⟩

def township : Schema :=
  (Schema.empty.withEntity ⟨"Person", "people", [⟨"Age", "Age", .int⟩]⟩).withSet "people" "Person"

/-- People who are held in a captured variable are counted before the query runs, which fails,
though there are rows for them. -/
theorem extract_count_of_captured :
    let people : Value := .query ⟨"Person", "people"⟩
    let scope : Closure := ⟨"Scope", [⟨"q", .queryable (.entity "Person"), people⟩]⟩
    let q : Expr := .member (.const (.closure scope.className scope.captures)) "q"
      (.queryable (.entity "Person"))
    let count : Expr := .call (.operator "Count") none [q] .int
    QueryText.parse ⟨township.names, some scope⟩ "q.Count()" = .ok count ∧
      parts false (VolatileMethods.standard.tag count) = [.replaced count] ∧
      q ∈ count.nodes ∧ q.ty.isQueryable = true ∧
      (∀ oracle s, (extract oracle (VolatileMethods.standard.tag count)).run s =
        (.error ⟨count, .noSource "people"⟩, s)) ∧
      ∀ rows oracle n, Eval.evaluate ⟨none, some fun _ => .ok rows, oracle⟩ count n =
        .ok (.int (.ofNat rows.length), n) := by
  intro people scope q count
  have htag : VolatileMethods.standard.tag count = count := by
    simp [count, q, Expr.const, VolatileMethods.tag, VolatileMethods.tagList,
      VolatileMethods.mark, VolatileMethods.marks, VolatileMethods.standard, Method.operator,
      Method.queryable, Method.newGuid, Method.now, Method.utcNow]
  rw [htag]
  refine ⟨rfl, rfl, ?_, rfl, fun _ _ => rfl, fun _ _ _ => rfl⟩
  simp [count, q, Expr.nodes, Expr.nodesOfList]

/-- A captured age is no deferred value, so nothing that is evaluated asks for rows. -/
theorem replaced_deferred_of_adults :
    let scope : Closure := ⟨"Scope", [⟨"min", .int, .int 30⟩]⟩
    let people : Expr := .constant (.query ⟨"Person", "people"⟩) (.queryable (.entity "Person"))
    let age : Expr := .member (.parameter "p" (.entity "Person")) "Age" .int
    let least : Expr := .member (.const (.closure scope.className scope.captures)) "min" .int
    let adults : Expr := .call (.operator "Where") none
      [people, .lambda [⟨"p", .entity "Person"⟩] (.binary .gt age least)]
      (.queryable (.entity "Person"))
    QueryText.parse ⟨township.names, some scope⟩ "people.Where(p => p.Age > min)" = .ok adults ∧
      (∀ r, .replaced r ∈ parts false (VolatileMethods.standard.tag adults) →
        ∀ n ∈ r.nodes, n.ty.isQueryable = false) ∧
      ∀ oracle s err s' set, (extract oracle (VolatileMethods.standard.tag adults)).run s =
        (.error err, s') → err.cause ≠ .noSource set := by
  intro scope people age least adults
  have hparse : QueryText.parse ⟨township.names, some scope⟩ "people.Where(p => p.Age > min)" =
    .ok adults := rfl
  have hdeclared : ∀ x, QueryText.Env.Declares ⟨township.names, some scope⟩ x →
      x.value.isDeferred = false := by
    rintro ⟨name, t⟩ (⟨entity, hproperty⟩ | ⟨c, hc, hmem⟩)
    · obtain ⟨e, he, hty⟩ := Option.bind_eq_some_iff.mp hproperty
      obtain ⟨⟩ := List.mem_singleton.mp (Named.mem_of_find? he)
      obtain ⟨p, hp, rfl⟩ := Option.map_eq_some_iff.mp hty
      rw [List.mem_singleton.mp (List.mem_of_find?_eq_some hp)]
      rfl
    · cases hc
      obtain ⟨⟩ := List.mem_singleton.mp hmem
      rfl
  refine ⟨hparse, fun r hr n hn => Bool.eq_false_iff.mpr fun hqueryable => ?_, ?_⟩
  · obtain ⟨hparts, -⟩ := replaced_deferred_iff hparse VolatileMethods.standard
      ⟨fun _ => ⟨0⟩, fun _ => ⟨0, 0⟩⟩
    obtain ⟨_, name, t, -, hdeferred, hread⟩ := (hparts r hr).2.2 n hn hqueryable
    exact nomatch (hdeclared _ hread).symm.trans hdeferred
  · intro oracle s err s' set herror hcause
    obtain ⟨-, hrows⟩ := replaced_deferred_iff hparse VolatileMethods.standard oracle
    obtain ⟨c, hc, -, root, hroot, -⟩ := hrows s err s' set herror hcause
    cases hc
    cases hroot

end Extract

end DeferredQuery
