import DeferredQuery.Proofs.Shape.Meaning
import DeferredQuery.Proofs.Shape.Deferred
import DeferredQuery.Sql.Row

/-!
# Which placeholders lambdas capture

A placeholder is found by its name, after the parameters of the lambdas around it. Its name is made
of what it stands for and of its number, but a parameter of a lambda may be spelled like that too,
and then the parameter is found. Where no lambda around a part binds the name that the part gets,
both the evaluator and the statement read the value that was extracted.
-/

namespace DeferredQuery

open Eval (Oracle)

def Named.Binds {α : Type} (scope : List (Named α)) (bound : List String) : Prop :=
  ∀ name, (∃ x ∈ scope, x.name = name) ↔ name ∈ bound

theorem Named.Binds.find?_eq_none {α : Type} {scope : List (Named α)} {bound : List String}
    (h : Named.Binds scope bound) {name : String} (hname : name ∉ bound) :
    Named.find? name scope = none := by
  rw [← Option.not_isSome_iff_eq_none, Named.find?_isSome_iff, h name]
  exact hname

/-- Some scope has one value for all names. -/
theorem Named.exists_binds {α : Type} (bound : List String) (a : α) :
    ∃ scope, Named.Binds scope bound ∧
      ∀ name ∈ bound, Named.find? name scope = some a := by
  refine ⟨bound.map fun name => ⟨name, a⟩, fun name => by simp, fun name hname => ?_⟩
  induction bound with
  | nil => cases hname
  | cons first bound ih =>
      rw [List.map_cons, Named.find?_cons]
      split
      · rfl
      · rename_i hne
        exact ih ((List.mem_cons.mp hname).resolve_left (Ne.symm hne))

namespace Extract

/-! ## Places -/

/-- A replaced part and the names that the lambdas around it bind. -/
structure Place where
  bound : List String
  part : Expr

mutual

/-- The replaced parts, in the order in which their values are bound. -/
def places (bound : List String) (tagged : Bool) (e : Expr) : List Place :=
  if !tagged && eligible e (.analyze e) then [⟨bound, e⟩]
  else
    match e with
    | .constant .. => []
    | .parameter .. => []
    | .member target _ _ => places bound false target
    | .call _ none args _ => placesOfList bound args
    | .call _ (some receiver) args _ => places bound false receiver ++ placesOfList bound args
    | .lambda params body => places (params.map Binder.name ++ bound) false body
    | .convert operand _ => places bound false operand
    | .binary _ left right => places bound false left ++ places bound false right
    | .unary _ operand => places bound false operand
    | .record fields => placesOfFields bound fields
    | .volatile inner => places bound true inner

def placesOfList (bound : List String) : List Expr → List Place
  | [] => []
  | e :: rest => places bound false e ++ placesOfList bound rest

def placesOfFields (bound : List String) : List (Named Expr) → List Place
  | [] => []
  | ⟨_, e⟩ :: rest => places bound false e ++ placesOfFields bound rest

end

theorem placesOfList_eq (bound : List String) (es : List Expr) :
    placesOfList bound es = es.flatMap (places bound false) := by
  induction es with
  | nil => rfl
  | cons e es ih => simp [placesOfList, ih]

theorem placesOfFields_eq (bound : List String) (fields : List (Named Expr)) :
    placesOfFields bound fields = (fields.map Named.value).flatMap (places bound false) := by
  induction fields with
  | nil => rfl
  | cons field fields ih => simp [placesOfFields, ih]

theorem places_of_replaced {bound : List String} {tagged : Bool} {e : Expr}
    (h : (!tagged && eligible e (.analyze e)) = true) : places bound tagged e = [⟨bound, e⟩] := by
  rw [places.eq_def, if_pos h]

theorem places_of_kept {bound : List String} {tagged : Bool} {e : Expr}
    (h : (!tagged && eligible e (.analyze e)) = false) :
    places bound tagged e = e.children.flatMap (places (e.binders ++ bound) e.isTag) := by
  rw [places.eq_def, if_neg (by simp [h])]
  cases e with
  | call m receiver args t =>
      cases receiver <;> simp [placesOfList_eq, Expr.children, Expr.binders, Expr.isTag]
  | record fields => simp [placesOfFields_eq, Expr.children, Expr.binders, Expr.isTag]
  | _ => simp [Expr.children, Expr.binders, Expr.isTag]

/-! ## Numbers -/

/-- The computation binds `count` values, and its result has a property of the number of values
that were bound before, if what is bound by the end is among the given values. -/
def Counts {α : Type} (P : Bindings) (count : Nat) (m : ExtractM α) (Q : Nat → α → Prop) : Prop :=
  ∀ s a s', m.run s = (.ok a, s') → s'.params.length = s.params.length + count ∧
    s.params <+: s'.params ∧ (s'.params <+: P → Q s.params.length a)

section Counts

variable {α β : Type} {P : Bindings} {oracle : Oracle}

theorem Counts.pure {a : α} {Q : Nat → α → Prop} (h : ∀ k, Q k a) :
    Counts P 0 (Pure.pure a) Q := by
  rintro s _ _ ⟨⟩
  exact ⟨rfl, List.prefix_rfl, fun _ => h _⟩

theorem Counts.bind {m : ExtractM α} {f : α → ExtractM β} {c d : Nat} {Q : Nat → α → Prop}
    {R : Nat → β → Prop} (hm : Counts P c m Q)
    (hf : ∀ a, Counts P d (f a) fun k b => ∀ j, k = j + c → Q j a → R j b) :
    Counts P (c + d) (m >>= f) R := by
  intro s b s'' hrun
  obtain ⟨a, s', hm', hf'⟩ := run_bind_eq_ok.mp hrun
  obtain ⟨hlength, hprefix, hQ⟩ := hm s a s' hm'
  obtain ⟨hlength', hprefix', hR⟩ := hf a s' b s'' hf'
  exact ⟨by omega, hprefix.trans hprefix',
    fun hP => hR hP _ hlength (hQ (hprefix'.trans hP))⟩

/-- What a node is known by: it is at the place of some number, and has the property of the values
bound before it. -/
def NumberedBy (ps : List Place) (Q : Place → Nat → Expr → Prop) (k : Nat) (bound : List String)
    (part node : Expr) : Prop :=
  ∃ i, ps[i]? = some ⟨bound, part⟩ ∧ Q ⟨bound, part⟩ (k + i) node

variable {Q : Place → Nat → Expr → Prop}

/-- The places of a list are those of its items, one after the other. -/
theorem counts_mapM {bound : List String} {tagged : Bool} {f : Expr → ExtractM Expr}
    {es : List Expr} (h : ∀ e ∈ es, Counts P (places bound tagged e).length (f e) fun k =>
      ShapedBy (NumberedBy (places bound tagged e) Q k) bound tagged e) :
    Counts P (es.flatMap (places bound tagged)).length (es.mapM f) fun k =>
      List.Forall₂ (ShapedBy (NumberedBy (es.flatMap (places bound tagged)) Q k) bound tagged)
        es := by
  induction es with
  | nil => exact .pure fun _ => .nil
  | cons e es ih =>
      rw [List.mapM_cons, List.flatMap_cons, List.length_append]
      refine (h e List.mem_cons_self).bind fun s => ?_
      refine (ih fun e he => h e (List.mem_cons_of_mem _ he)).bind (d := 0) fun ss => ?_
      refine .pure fun k j hk hss i hi hs => .cons ?_ ?_
      · refine hs.imp fun bound' part node ⟨l, hl, hQ⟩ => ⟨l, ?_, hQ⟩
        rw [List.getElem?_append_left (List.getElem?_eq_some_iff.mp hl).1]
        exact hl
      · refine hss.imp fun c s' hshaped => hshaped.imp fun bound' part node ⟨l, hl, hQ⟩ => ?_
        refine ⟨(places bound tagged e).length + l, ?_, ?_⟩
        · rw [List.getElem?_append_right (Nat.le_add_right _ l), Nat.add_sub_cancel_left]
          exact hl
        · rwa [← Nat.add_assoc, ← hi]

/-- The node of the part at a place has what its binding gives it. -/
theorem counts_visit (hbind : ∀ place, Counts P 1 (bind oracle place.part) (Q place)) (e : Expr)
    (bound : List String) (tagged : Bool) :
    Counts P (places bound tagged e).length (visit oracle (closedness tagged e) e) fun k =>
      ShapedBy (NumberedBy (places bound tagged e) Q k) bound tagged e := by
  induction e using Expr.induction_on_children generalizing bound tagged with
  | step e ih =>
      cases hkept : (!tagged && eligible e (.analyze e)) with
      | true =>
          rw [visit_of_replaced oracle hkept, places_of_replaced hkept]
          intro s node s' hrun
          obtain ⟨hlength, hprefix, hnode⟩ := hbind ⟨bound, e⟩ s node s' hrun
          exact ⟨hlength, hprefix, fun hP => .replaced hkept ⟨0, rfl, hnode hP⟩⟩
      | false =>
          rw [visit_of_kept oracle hkept, places_of_kept hkept]
          refine Counts.bind (d := 0)
            (counts_mapM fun c hc => ih c hc (e.binders ++ bound) e.isTag) fun ss => ?_
          refine .pure fun k j hk hss => .of_forall₂ hkept hss

theorem counts_bind (P : Bindings) (oracle : Oracle) (part : Expr) :
    Counts P 1 (bind oracle part) fun i node => ∃ v,
      P[i]? = some ⟨placeholder (partName part) i, v⟩ ∧
        node = placeholderNode (placeholder (partName part) i) v part.ty := by
  intro s node s' hrun
  obtain ⟨v, k, -, hnode, rfl⟩ := bind_eq_ok.mp hrun
  refine ⟨by simp [Bindings.add], List.prefix_append _ _, fun hP => ⟨v, ?_, hnode⟩⟩
  refine (List.prefix_iff_getElem?.mp hP s.params.length (by simp [Bindings.add])).trans ?_
  simp [Bindings.add]

end Counts

/-! ## Lookups -/

/-- The evaluator finds a value bound under a name in all scopes with the given names if and only
if the name is not one of these. -/
theorem lookup_eq_ok_iff {P : Bindings} {name : String} {v : Value}
    (hP : Named.find? name P = some v) {bound : List String} :
    (∀ rows oracle scope, Named.Binds scope bound →
      Eval.Env.lookup ⟨some P, rows, oracle⟩ scope name = .ok v) ↔ name ∉ bound := by
  constructor
  · intro hlookup hname
    obtain ⟨w, hw⟩ : ∃ w, w ≠ v := by
      cases v with
      | null => exact ⟨.bool true, nofun⟩
      | _ => exact ⟨.null, nofun⟩
    obtain ⟨scope, hscope, hfind⟩ := Named.exists_binds bound w
    have h := hlookup none ⟨fun _ => ⟨0⟩, fun _ => ⟨0, 0⟩⟩ scope hscope
    rw [Eval.Env.lookup, hfind name hname] at h
    exact hw (Except.ok.inj h)
  · intro hname rows oracle scope hscope
    rw [Eval.Env.lookup, hscope.find?_eq_none hname, Option.none_or, Option.bind_some, hP]

/-- A statement reads the placeholder of a name for a parameter, over all rows with the given names,
if and only if the name is not one of these. -/
theorem lower_eq_placeholder_iff {name : String} {t : Ty} {bound : List String} :
    (∀ ctx scope, Named.Binds scope bound →
      Sql.lower ctx scope (.parameter name t) = .ok (.scalar (Sql.placeholder name t) t)) ↔
        name ∉ bound := by
  constructor
  · intro hlower hname
    obtain ⟨scope, hscope, hfind⟩ := Named.exists_binds bound (Sql.Row.record [])
    have h := hlower ⟨.empty, []⟩ scope hscope
    rw [Sql.lower, hfind name hname] at h
    exact nomatch Except.ok.inj h
  · intro hname ctx scope hscope
    rw [Sql.lower, hscope.find?_eq_none hname]

/-- A lambda around a replaced part is in the expression, or was around it before. -/
theorem lambda_of_places {place : Place} {bound : List String} {tagged : Bool} {e : Expr}
    (h : place ∈ places bound tagged e) {name : String} (hname : name ∈ place.bound) :
    name ∈ bound ∨ ∃ params body, .lambda params body ∈ e.nodes ∧
      ∃ p ∈ params, p.name = name := by
  induction e using Expr.induction_on_children generalizing bound tagged with
  | step e ih =>
      cases hkept : (!tagged && eligible e (.analyze e)) with
      | true =>
          rw [places_of_replaced hkept, List.mem_singleton] at h
          subst h
          exact .inl hname
      | false =>
          rw [places_of_kept hkept, List.mem_flatMap] at h
          obtain ⟨c, hc, hplace⟩ := h
          rcases ih c hc hplace with hbound | ⟨params, body, hlambda, hmem⟩
          · rcases List.mem_append.mp hbound with hbinder | hbound
            · cases e with
              | lambda params body =>
                  exact .inr ⟨params, body, Expr.self_mem_nodes _, List.mem_map.mp hbinder⟩
              | _ => cases hbinder
            · exact .inl hbound
          · exact .inr ⟨params, body, Expr.mem_nodes_of_child hc hlambda, hmem⟩

/-- The part at a place is bound under its own name and the number of the place. The evaluator and
the statement reach its value from where its placeholder stands if and only if no lambda around the
place binds that name, which holds of all places if no lambda has a parameter that is spelled like a
placeholder. -/
theorem reached_iff_not_bound {oracle : Oracle} {e shape : Expr} {n : Nat} {s : State}
    (h : (extract oracle e).run ⟨[], n⟩ = (.ok shape, s)) :
    ShapedBy (fun bound part node => ∃ i v, (places [] false e)[i]? = some ⟨bound, part⟩ ∧
        let name := placeholder (partName part) i
        node = placeholderNode name v part.ty ∧ s.params[i]? = some ⟨name, v⟩ ∧
          ((∀ rows oracle scope, Named.Binds scope bound →
            Eval.Env.lookup ⟨some s.params, rows, oracle⟩ scope name = .ok v) ↔ name ∉ bound) ∧
          ∀ t, (∀ ctx scope, Named.Binds scope bound → Sql.lower ctx scope (.parameter name t) =
            .ok (.scalar (Sql.placeholder name t) t)) ↔ name ∉ bound) [] false e shape ∧
      ((∀ params body, .lambda params body ∈ e.nodes → ∀ p ∈ params, Plain p.name) →
        ∀ i place, (places [] false e)[i]? = some place →
          placeholder (partName place.part) i ∉ place.bound) := by
  obtain ⟨-, -, hshaped⟩ := counts_visit (fun place => counts_bind s.params oracle place.part) e []
    false _ shape s h
  have hnumbered : Numbered s.params :=
    ((yields_shapedBy (fun _ part => yields_created s.params oracle part) e [] false _ shape s
      h).1).2 numbered_nil
  refine ⟨(hshaped List.prefix_rfl).imp fun bound part node hnode => ?_,
    fun hplain i place hi => ?_⟩
  · obtain ⟨i, hi, v, hv, hnode⟩ := hnode
    rw [List.length_nil, Nat.zero_add] at hv hnode
    exact ⟨i, v, hi, hnode, hv, lookup_eq_ok_iff (hnumbered.find? hv),
      fun t => lower_eq_placeholder_iff⟩
  · intro hname
    rcases lambda_of_places (List.mem_of_getElem? hi) hname with hbound | ⟨params, body, hlambda,
      p, hp, hspelled⟩
    · cases hbound
    · exact hplain params body hlambda p hp _ _ hspelled

/-- A captured age is reached from a lambda over people, whatever is bound to its parameter. -/
theorem reached_of_adults :
    let x : Expr := .member (.const (.closure "Scope" [⟨"x", .int, .int 40⟩])) "x" .int
    let adults (least : Expr) : Expr := .call (.operator "Where") none
      [.constant (.query ⟨"Person", "people"⟩) (.queryable (.entity "Person")),
        .lambda [⟨"p", .entity "Person"⟩]
          (.binary .gt (.member (.parameter "p" (.entity "Person")) "Age" .int) least)]
      (.queryable (.entity "Person"))
    let shape : Expr := adults (.parameter "__x_0" .int)
    let oracle : Oracle := ⟨fun _ => ⟨0⟩, fun _ => ⟨0, 0⟩⟩
    (extract oracle (adults x)).run ⟨[], 0⟩ = (.ok shape, ⟨[⟨"__x_0", .int 40⟩], 0⟩) ∧
      places [] false (adults x) = [⟨["p"], x⟩] ∧ "__x_0" ∉ ["p"] ∧
      ShapedBy (fun _ _ _ => ∀ rows oracle scope, Named.Binds scope ["p"] →
        Eval.Env.lookup ⟨some [⟨"__x_0", .int 40⟩], rows, oracle⟩ scope "__x_0" = .ok (.int 40))
        [] false (adults x) shape := by
  intro x adults shape oracle
  have hrun : (extract oracle (adults x)).run ⟨[], 0⟩ =
    (.ok shape, ⟨[⟨"__x_0", .int 40⟩], 0⟩) := rfl
  have hplaces : places [] false (adults x) = [⟨["p"], x⟩] := rfl
  have hname : placeholder (partName x) 0 = "__x_0" := by
    simp only [x, Expr.const, partName]
    rfl
  obtain ⟨hshaped, hfresh⟩ := reached_iff_not_bound hrun
  have hbound : placeholder (partName x) 0 ∉ ["p"] := by
    refine hfresh (fun params body hlambda p hp base i hspelled => ?_) 0 ⟨["p"], x⟩ rfl
    obtain ⟨rfl, -⟩ : params = [⟨"p", .entity "Person"⟩] ∧ _ := by
      simpa [adults, x, Expr.const, Expr.nodes, Expr.nodesOfList] using hlambda
    obtain rfl := List.mem_singleton.mp hp
    have hlist := congrArg String.toList hspelled
    simp [placeholder] at hlist
  refine ⟨hrun, hplaces, hname ▸ hbound, hshaped.imp fun bound part node hnode => ?_⟩
  obtain ⟨i, v, hi, -, hv, hlookup, -⟩ := hnode
  obtain ⟨rfl, rfl, rfl⟩ : i = 0 ∧ bound = ["p"] ∧ part = x := by
    cases i <;> simp_all
  rw [hname] at hv hlookup hbound
  cases hv
  exact hlookup.mpr hbound

/-- A captured age is not reached from a lambda whose parameter has the name of its placeholder:
the query gives the ages above it, and its shape none. -/
theorem captured_of_ages :
    let scope : Closure := ⟨"Scope", [⟨"x", .int, .int 40⟩]⟩
    let x : Expr := .member (.const (.closure scope.className scope.captures)) "x" .int
    let people : Expr := .constant (.query ⟨"Person", "people"⟩) (.queryable (.entity "Person"))
    let ages : Expr := .call (.operator "Select") none [people, .lambda [⟨"p", .entity "Person"⟩]
      (.member (.parameter "p" (.entity "Person")) "Age" .int)] (.queryable .int)
    let above (least : Expr) : Expr := .call (.operator "Where") none [ages,
      .lambda [⟨"__x_0", .int⟩] (.binary .gt (.parameter "__x_0" .int) least)] (.queryable .int)
    let shape : Expr := above (.parameter "__x_0" .int)
    let rows : Eval.RowSource := fun _ =>
      .ok [.record [⟨"Age", .int 36⟩], .record [⟨"Age", .int 41⟩]]
    QueryText.parse ⟨township.names, some scope⟩
        "people.Select(p => p.Age).Where(__x_0 => __x_0 > x)" = .ok (above x) ∧
      (∀ oracle n, (extract oracle (VolatileMethods.standard.tag (above x))).run ⟨[], n⟩ =
        (.ok shape, ⟨[⟨"__x_0", .int 40⟩], n⟩)) ∧
      places [] false (VolatileMethods.standard.tag (above x)) = [⟨["__x_0"], x⟩] ∧
      placeholder (partName x) 0 = "__x_0" ∧
      (∀ oracle n, Eval.evaluate ⟨none, some rows, oracle⟩ (above x) n =
        .ok (.list [.int 41], n)) ∧
      ∀ oracle n, Eval.evaluate ⟨some [⟨"__x_0", .int 40⟩], some rows, oracle⟩ shape n =
        .ok (.list [], n) := by
  intro scope x people ages above shape rows
  have htag : VolatileMethods.standard.tag (above x) = above x := VolatileMethods.tag_eq_self rfl
  rw [htag]
  have hname : placeholder (partName x) 0 = "__x_0" := by
    simp only [x, Expr.const, partName]
    rfl
  refine ⟨rfl, fun oracle n => ?_, ?_, hname, fun _ _ => ?_, fun _ _ => ?_⟩
  · with_unfolding_all rfl
  · with_unfolding_all rfl
  · rfl
  · rfl

end Extract

end DeferredQuery
