import DeferredQuery.Proofs.Eval.Outcomes
import DeferredQuery.Proofs.Shape.Replacement
import DeferredQuery.Proofs.Sql.Markers

/-!
# The values that a plan needs

A shape is run with the values that were extracted with it. Whether it is evaluated or lowered to a
statement, it asks for no others.
-/

namespace DeferredQuery

open Eval (Env Oracle RowSource)

/-- Operations have no arguments but those of their steps. -/
def Classifier.Keeps (c : Classifier) : Prop :=
  ∀ (s : Pipeline.Step) op, s.classify c = .ok op → ∀ e ∈ op.arguments, e ∈ s.args

theorem Classifier.keeps_standard : standard.Keeps := fun _ _ h _ => mem_args_of_standard h

namespace Pipeline

/-- The arguments of operations have no free parameters but those of the query. -/
theorem boundIn_of_classify {c : Classifier} (hc : c.Keeps) {e : Expr} {p : Pipeline}
    {bound : List String} (hbound : e.boundIn bound = true) (h : classify c e = .ok p) :
    ∀ op ∈ p.operations, ∀ a ∈ op.arguments, a.boundIn bound = true := by
  obtain ⟨steps, hchain, hsteps, -⟩ := classify_eq_ok h
  intro op hop a ha
  obtain ⟨s, hs, hclassify⟩ := mem_classifySteps hsteps hop
  have hargs : a ∈ s.args := hc s op hclassify a ha
  clear h hsteps hop hclassify ha
  generalize p.source = root at hchain
  induction hchain with
  | source root t => cases hs
  | @step receiver root steps m args t _ _ ih =>
      obtain ⟨-, hbounds⟩ := Expr.boundIn_call hbound
      rcases List.mem_append.mp hs with hs | hs
      · exact ih (hbounds receiver List.mem_cons_self) hs
      · obtain rfl := List.mem_singleton.mp hs
        exact hbounds a (List.mem_cons_of_mem _ hargs)

end Pipeline

namespace Eval

/-- Where all free parameters have values, only a source of rows can name an unbound one. -/
theorem unboundParameter_of_boundIn {e : Expr} {params : Bindings}
    (hbound : e.boundIn params.names = true) {rows : Option RowSource} {oracle : Oracle} {n : Nat}
    {name : String}
    (h : evaluate ⟨some params, rows, oracle⟩ e n = .error (.unboundParameter name)) :
    ∃ source root, rows = some source ∧ source root = .error (.unboundParameter name) := by
  let E : EvalError → Prop := fun err => ∀ name, err = .unboundParameter name →
    ∃ source root, rows = some source ∧ source root = .error (.unboundParameter name)
  have henv : Permits ⟨some params, rows, oracle⟩ (fun _ => True) E := by
    refine ⟨fun err herr name hname => (herr.parameter name hname).elim, fun root _ => ?_⟩
    cases rows with
    | none => exact .error fun _ hname => by cases hname
    | some source =>
        cases hsource : source root with
        | ok vs =>
            simp only [Env.items, hsource]
            exact .ok fun v _ => Value.within_true v
        | error err =>
            simp only [Env.items, hsource]
            refine .error fun name hname => ⟨source, root, rfl, ?_⟩
            rw [hsource, hname]
  have hready : Supplied ⟨some params, rows, oracle⟩ (fun _ => True) E params.names [] := by
    refine .of_lookup (fun name hname => ?_) fun _ v _ => Value.within_true v
    obtain ⟨x, hx, hxname⟩ := List.mem_map.mp hname
    obtain ⟨v, hv⟩ := Option.isSome_iff_exists.mp (Named.find?_isSome_iff.mpr ⟨x, hx, hxname⟩)
    exact ⟨v, by simp [Env.lookup, hv]⟩
  have hsafe : Safe (fun _ => True) E params.names e :=
    ⟨.inr hbound, .inl (fun _ hname => by cases hname), fun v _ _ => Value.within_true v⟩
  have hmeets := (confined_of_safe henv hsafe).value [] hready n
  have hvalue : value ⟨some params, rows, oracle⟩ [] e n = .error (.unboundParameter name) := h
  rw [hvalue] at hmeets
  exact hmeets name rfl

end Eval

namespace Extract

/-- The shape of a query without free parameters asks for extracted values only. They are the names
of its free parameters, evaluation never misses another one, and neither does the statement that it
is lowered to. -/
theorem shape_bound {ms : VolatileMethods} {oracle : Oracle} {e s : Expr} {params : Bindings}
    {n k : Nat} (hbound : e.boundIn [] = true)
    (hshape : (extract oracle (ms.tag e)).run ⟨[], n⟩ = (.ok s, ⟨params, k⟩)) :
    s.untag.boundIn params.names = true ∧
    (∀ (rows : Option RowSource) (clock : Oracle) (j : Nat) (name : String),
      Eval.evaluate ⟨some params, rows, clock⟩ s.untag j = .error (.unboundParameter name) →
        ∃ source root, rows = some source ∧ source root = .error (.unboundParameter name)) ∧
    ∀ (c : Classifier) (ctx : Sql.Context) (p : Pipeline) (statement : Sql.Statement), c.Keeps →
      (∀ rule ∈ ctx.rules, rule.Conservative) → Pipeline.classify c s.untag = .ok p →
      Sql.Statement.ofPipeline ctx p = .ok statement →
        ∀ name ∈ statement.parameters, name ∈ params.names := by
  have hfree : s.untag.boundIn params.names = true := boundIn_shape hbound hshape
  refine ⟨hfree, fun rows clock j name h => Eval.unboundParameter_of_boundIn hfree h,
    fun c ctx p statement hc hrules hclassify hlower => ?_⟩
  exact Sql.Statement.parameters_subset hrules (Pipeline.boundIn_of_classify hc hfree hclassify)
    hlower

/-- The statement for people above a captured age asks for the age alone. -/
theorem shape_bound_of_adults :
    let people : Expr := .constant (.query ⟨"Person", "people"⟩) (.queryable (.entity "Person"))
    let age : Expr := .member (.parameter "p" (.entity "Person")) "Age" .int
    let captured : Expr :=
      .member (.constant (.closure "Scope" [⟨"min", .int, .int 30⟩]) (.closure "Scope")) "min" .int
    let where_ (least : Expr) : Expr := .call (.operator "Where") none
      [people, .lambda [⟨"p", .entity "Person"⟩] (.binary .gt age least)]
      (.queryable (.entity "Person"))
    let schema : Schema := (Schema.empty.withEntity
      ⟨"Person", "people", [⟨"Age", "Age", .int⟩]⟩).withSet "people" "Person"
    let clock : Oracle := ⟨fun _ => ⟨0⟩, fun _ => ⟨0, 0⟩⟩
    ∃ s params p statement,
      (extract clock (VolatileMethods.standard.tag (where_ captured))).run ⟨[], 0⟩ =
        (.ok s, ⟨params, 0⟩) ∧
      Pipeline.classify .standard s.untag = .ok p ∧
      Sql.Statement.ofPipeline ⟨schema, Sql.FunctionRule.standard⟩ p = .ok statement ∧
      statement.parameters = ["__min_0"] ∧ ∀ name ∈ statement.parameters, name ∈ params.names := by
  intro people age captured where_ schema clock
  have htag : VolatileMethods.standard.tag (where_ captured) = where_ captured := by
    simp [where_, people, age, captured, VolatileMethods.tag, VolatileMethods.tagList,
      VolatileMethods.mark, VolatileMethods.marks, VolatileMethods.standard, Method.operator,
      Method.queryable, Method.newGuid, Method.now, Method.utcNow]
  have hshape : (extract clock (VolatileMethods.standard.tag (where_ captured))).run ⟨[], 0⟩ =
      (.ok (where_ (.parameter "__min_0" .int)), ⟨[⟨"__min_0", .int 30⟩], 0⟩) := by
    rw [htag]
    rfl
  have hbound : (where_ captured).boundIn [] = true := rfl
  obtain ⟨-, -, hstatement⟩ := shape_bound hbound hshape
  exact ⟨_, _, _, _, hshape, rfl, rfl, rfl, hstatement .standard
    ⟨schema, Sql.FunctionRule.standard⟩ _ _ Classifier.keeps_standard
    Sql.FunctionRule.conservative_standard rfl rfl⟩

end Extract

end DeferredQuery
