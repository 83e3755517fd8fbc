import DeferredQuery.Proofs.Shape.Replacement

/-!
# Shapes keep the meaning of queries

A shape, evaluated with the values that were extracted from a query, gives what the query gives.
Replaced parts are computed without a source of rows and outside of all lambdas; where they stand
their value is still the same.
-/

namespace DeferredQuery.Extract

open Eval (Env EvalM Entails Follows FollowsOrder Oracle Scope)

/-! ## Values of replaced parts -/

/-- Conversion to its own type leaves the value of a closed expression as it is. -/
def KeepsType (oracle : Oracle) (e : Expr) : Prop :=
  ∀ v n k, Eval.evaluate (.closed oracle) e n = .ok (v, k) → v.convert e.ty = v

/-- The expression and the operands of all conversions in it that only make them optional keep
their values. -/
structure Stable (oracle : Oracle) (e : Expr) : Prop where
  whole : KeepsType oracle e
  lifted : ∀ operand t, .convert operand t ∈ e.nodes → lifts operand t = true →
    KeepsType oracle operand

theorem convert_nullable {v : Value} {t : Ty} (h : v.convert t = v) :
    v.convert (.nullable t) = v := by
  cases t with
  | nullable t => cases v <;> rfl
  | _ => exact h

/-- A closed expression gives the same value over every environment and in every scope. -/
theorem value_of_closed {oracle : Oracle} {e : Expr} (hdraw : e.DrawFree) {v : Value} {n k : Nat}
    (h : Eval.evaluate (.closed oracle) e n = .ok (v, k)) (env : Env) (a : Scope) (j : Nat) :
    Eval.value env a e j = .ok (v, j) := by
  have hitems : ∀ w vs, (Env.closed oracle).items w = .ok vs → env.items w = .ok vs := by
    intro w vs hw
    cases w with
    | list items => exact hw
    | _ => cases hw
  have hself := (Eval.follows_self_and_order hitems e hdraw).1
  refine hself.value [] a ?_ n v k h j
  intro name w hw
  cases hw

theorem member_of_storedMember {w u : Value} {name : String} (h : w.storedMember name = .ok u) :
    w.member name = .ok u := by
  unfold Value.member
  rw [h]

/-- A name for the value does not matter to it. -/
theorem evaluate_of_compute {oracle : Oracle} {e : Expr} (hdraw : e.DrawFree) {v : Value}
    {name name' : Option String} {n k : Nat}
    (h : (compute oracle e >>= fun w => pure (w, name')) n = .ok ((v, name), k)) (j : Nat) :
    Eval.evaluate (.closed oracle) e j = .ok (v, j) := by
  obtain ⟨w, i, hw, hpure⟩ := Eval.bind_eq_ok.mp h
  obtain ⟨hpair, -⟩ := Eval.pure_eq_ok.mp hpure
  cases hpair
  unfold compute at hw
  cases hv : Eval.evaluate (.closed oracle) e n with
  | error err => simp [hv] at hw
  | ok r =>
      obtain rfl : r = (v, i) := by simpa [hv] using hw
      exact value_of_closed hdraw hv _ _ j

/-- The value that is bound for an expression is the one it evaluates to, if the conversions that
are skipped on the way to it keep the values of their operands. -/
theorem evaluate_of_valueOf_of_keeps {oracle : Oracle} {P : Expr → Prop}
    (hmember : ∀ target name t, P (.member target name t) → P target)
    (hlift : ∀ operand t, P (.convert operand t) → lifts operand t = true →
      P operand ∧ KeepsType oracle operand) {e : Expr} (he : P e) (hdraw : e.DrawFree) {v : Value}
    {name : Option String} {n k : Nat} (h : valueOf oracle e n = .ok ((v, name), k)) (j : Nat) :
    Eval.evaluate (.closed oracle) e j = .ok (v, j) := by
  induction e generalizing v name n k with
  | constant w t =>
      obtain ⟨hpair, -⟩ := Eval.pure_eq_ok.mp h
      cases hpair
      rfl
  | member target field t ih =>
      obtain ⟨⟨w, path⟩, i, hw, hrest⟩ := Eval.bind_eq_ok.mp h
      have htarget := ih (hmember target field t he) (hdraw.child (by simp [Expr.children])) hw
      dsimp only at hrest
      cases hstored : w.storedMember field with
      | ok u =>
          rw [hstored] at hrest
          obtain ⟨hpair, -⟩ := Eval.pure_eq_ok.mp hrest
          cases hpair
          exact Eval.bind_eq_ok.mpr
            ⟨w, j, htarget, Eval.lift_eq_ok.mpr ⟨member_of_storedMember hstored, rfl⟩⟩
      | error err =>
          rw [hstored] at hrest
          exact evaluate_of_compute hdraw hrest j
  | convert operand t ih =>
      rw [valueOf] at h
      split at h
      · rename_i hl
        obtain ⟨hoperand, hkeeps⟩ := hlift operand t he hl
        have hvalue := ih hoperand (hdraw.child (by simp [Expr.children])) h
        obtain rfl : t = .nullable operand.ty := by simpa [lifts] using hl
        refine Eval.bind_eq_ok.mpr ⟨v, j, hvalue, ?_⟩
        rw [convert_nullable (hkeeps v j j hvalue)]
        rfl
      · exact evaluate_of_compute hdraw h j
  | _ => exact evaluate_of_compute hdraw h j

def KeepsLifted (oracle : Oracle) (e : Expr) : Prop :=
  ∀ operand t, .convert operand t ∈ e.nodes → lifts operand t = true → KeepsType oracle operand

theorem KeepsLifted.child {oracle : Oracle} {c e : Expr} (h : KeepsLifted oracle e)
    (hc : c ∈ e.children) : KeepsLifted oracle c :=
  fun operand t hconvert => h operand t (Expr.mem_nodes_of_child hc hconvert)

theorem evaluate_of_valueOf {oracle : Oracle} {e : Expr} (hdraw : e.DrawFree)
    (hlift : KeepsLifted oracle e) {v : Value} {name : Option String} {n k : Nat}
    (h : valueOf oracle e n = .ok ((v, name), k)) (j : Nat) :
    Eval.evaluate (.closed oracle) e j = .ok (v, j) := by
  exact evaluate_of_valueOf_of_keeps (P := KeepsLifted oracle)
    (fun target field t h => h.child (by simp [Expr.children]))
    (fun operand t h hl => ⟨h.child (by simp [Expr.children]),
      h operand t (Expr.self_mem_nodes _) hl⟩) hlift hdraw h j

/-! ## Scopes -/

def Plain (name : String) : Prop := ∀ base i, name ≠ placeholder base i

def Covers (bound : List String) (a b : Scope) : Prop :=
  a = b ∧ (∀ name ∈ bound, (Named.find? name a).isSome = true) ∧ ∀ x ∈ a, Plain x.name

theorem mem_map_zip {params : List Binder} {args : List Value} {x : Named Value}
    (hx : x ∈ (params.zip args).map fun y => (⟨y.1.name, y.2⟩ : Named Value)) :
    ∃ p ∈ params, x.name = p.name := by
  obtain ⟨⟨p, v⟩, hpv, rfl⟩ := List.mem_map.mp hx
  exact ⟨p, (List.of_mem_zip hpv).1, rfl⟩

/-- Arguments stand for parameters in both scopes, and hide no placeholder. -/
theorem Covers.bindArgs {bound : List String} {a b : Scope} (h : Covers bound a b)
    {params : List Binder} {args : List Value} (hplain : ∀ p ∈ params, Plain p.name)
    (hlength : params.length = args.length) :
    Covers (params.map Binder.name ++ bound) (Eval.bindArgs params args a)
      (Eval.bindArgs params args b) := by
  obtain ⟨rfl, hbound, hnames⟩ := h
  refine ⟨rfl, fun name hname => ?_, fun x hx => ?_⟩
  · rw [Named.find?_isSome_iff]
    rcases List.mem_append.mp hname with hname | hname
    · obtain ⟨p, hp, rfl⟩ := List.mem_map.mp hname
      obtain ⟨x, hx, hxname⟩ := Eval.exists_mem_bindArgs hlength hp
      exact ⟨x, List.mem_append_left _ hx, hxname⟩
    · obtain ⟨x, hx, hxname⟩ := Named.find?_isSome_iff.mp (hbound name hname)
      exact ⟨x, List.mem_append_right _ hx, hxname⟩
  · rcases List.mem_append.mp hx with hx | hx
    · obtain ⟨p, hp, hname⟩ := mem_map_zip (List.mem_reverse.mp hx)
      exact hname ▸ hplain p hp
    · exact hnames x hx

theorem Covers.lookup {bound : List String} {a b : Scope} (h : Covers bound a b) {name : String}
    (hname : name ∈ bound) {env env' : Env} {v : Value} (hv : env.lookup a name = .ok v) :
    env'.lookup b name = .ok v := by
  obtain ⟨rfl, hcovered, -⟩ := h
  obtain ⟨w, hw⟩ := Option.isSome_iff_exists.mp (hcovered name hname)
  simpa [Env.lookup, hw] using hv

/-! ## Meaning -/

section Meaning

variable (env₁ env₂ : Env)

/-- A query over the first environment and its shape over the second follow each other. -/
def Means (bound : List String) (e s : Expr) : Prop :=
  Follows env₁ env₂ (Covers bound) e s ∧ Follows env₂ env₁ (Covers bound) s e

def MeansOrder (bound : List String) (e s : Expr) : Prop :=
  FollowsOrder env₁ env₂ (Covers bound) e s ∧ FollowsOrder env₂ env₁ (Covers bound) s e

/-- The meaning of a visited expression; one that is kept also continues the same sorts. -/
structure VisitedAs (bound : List String) (tagged : Bool) (e s : Expr) : Prop where
  means : Means env₁ env₂ bound e s
  order : (!tagged && eligible e (.analyze e)) = false → MeansOrder env₁ env₂ bound e s

variable {env₁ env₂} {P : Bindings} (hP : env₂.params = some P) (hnumbered : Numbered P)

include hP hnumbered in
theorem lookup_placeholder {a b : Scope} {bound : List String} (hab : Covers bound a b)
    {name : Option String} {v : Value} {i : Nat} (hi : P[i]? = some ⟨placeholder name i, v⟩) :
    env₂.lookup b (placeholder name i) = .ok v := by
  obtain ⟨rfl, -, hnames⟩ := hab
  have hscope : Named.find? (placeholder name i) a = none := by
    rw [← Option.not_isSome_iff_eq_none, Named.find?_isSome_iff]
    rintro ⟨x, hx, hname⟩
    exact hnames x hx name i hname
  have hparams : Named.find? (placeholder name i) P = some v := hnumbered.find? hi
  unfold Env.lookup
  rw [hscope, hP, Option.none_or, Option.bind_some, hparams]

include hP hnumbered in
/-- The placeholder gives the value that was bound, converted to the type of the part. -/
theorem means_placeholder {oracle : Oracle} {r : Expr} (bound : List String) (hdraw : r.DrawFree)
    (hstable : Stable oracle r) (hlambda : r.isLambda = false) {v : Value} {name : Option String}
    {n k i : Nat} (hvalue : valueOf oracle r n = .ok ((v, name), k))
    (hi : P[i]? = some ⟨placeholder name i, v⟩) :
    Means env₁ env₂ bound r (placeholderNode (placeholder name i) v r.ty) := by
  have heval := evaluate_of_valueOf hdraw hstable.lifted hvalue
  have hkeeps : v.convert r.ty = v := hstable.whole v n n (heval n)
  have hpart : ∀ a j, Eval.value env₁ a r j = .ok (v, j) :=
    fun a j => value_of_closed hdraw (heval n) env₁ a j
  have hnode : ∀ a b, Covers bound a b → ∀ j,
      Eval.value env₂ b (placeholderNode (placeholder name i) v r.ty) j = .ok (v, j) := by
    intro a b hab j
    have hlookup := lookup_placeholder hP hnumbered hab hi
    unfold placeholderNode
    split
    · exact Eval.lift_eq_ok.mpr ⟨hlookup, rfl⟩
    · refine Eval.bind_eq_ok.mpr ⟨v, j, Eval.lift_eq_ok.mpr ⟨hlookup, rfl⟩, ?_⟩
      rw [hkeeps]
      rfl
  have hnodeLambda : (placeholderNode (placeholder name i) v r.ty).isLambda = false := by
    unfold placeholderNode
    split <;> rfl
  constructor
  · refine .of_value hlambda fun a b hab j w l hw j' => ?_
    obtain ⟨rfl, -⟩ : v = w ∧ j = l := by simpa [hpart a j] using hw
    exact hnode a b hab j'
  · refine .of_value hnodeLambda fun a b hab j w l hw j' => ?_
    obtain ⟨rfl, -⟩ : v = w ∧ j = l := by simpa [hnode a a ⟨rfl, hab.2⟩ j] using hw
    exact hpart b j'

end Meaning

/-! ## Shapes -/

structure Admissible (oracle : Oracle) (tagged : Bool) (e : Expr) : Prop where
  draws : e.DrawFree
  /-- Conversion does not change the values that are extracted. -/
  stable : ∀ r, .replaced r ∈ parts tagged e → Stable oracle r
  /-- No parameter of a lambda is spelled like a placeholder. -/
  plain : ∀ params body, .lambda params body ∈ e.nodes → ∀ p ∈ params, Plain p.name
  /-- No secondary sort key has a replaced source. -/
  sources : ∀ m receiver source rest t, .kept (.call m receiver (source :: rest) t) ∈
    parts tagged e → Eval.extendsOrder m = true → eligible source (.analyze source) = false

theorem Admissible.child {oracle : Oracle} {tagged : Bool} {c e : Expr}
    (h : Admissible oracle tagged e) (hkept : (!tagged && eligible e (.analyze e)) = false)
    (hc : c ∈ e.children) : Admissible oracle e.isTag c where
  draws := h.draws.child hc
  stable r hr := h.stable r ((mem_parts_of_kept hkept).mpr (.inr ⟨c, hc, hr⟩))
  plain params body hl := h.plain params body (Expr.mem_nodes_of_child hc hl)
  sources m receiver source rest t hk :=
    h.sources m receiver source rest t ((mem_parts_of_kept hkept).mpr (.inr ⟨c, hc, hk⟩))

section Shapes

theorem items_eq {env₁ env₂ : Env} (hrows : env₁.rows = env₂.rows) : env₁.items = env₂.items := by
  funext v
  cases v <;> simp [Env.items, hrows]

variable {env₁ env₂ : Env} {oracle : Oracle} {bound : List String} {tagged : Bool} {e s : Expr}

/-- A replaced source would end the sort that a secondary key continues. -/
theorem meansOrder_source {m : Method} {r r' : Option Expr} {es ss : List Expr} {t t' : Ty}
    (hadm : Admissible oracle tagged (.call m r es t))
    (hkept : (!tagged && eligible (.call m r es t) (.analyze (.call m r es t))) = false)
    (h : Expr.NodeRel (VisitedAs env₁ env₂ bound false) (.call m r es t) (.call m r' ss t'))
    (hextends : Eval.extendsOrder m = true) {source source' : Expr} (hsource : source ∈ es.head?)
    (hsource' : source' ∈ ss.head?) : MeansOrder env₁ env₂ bound source source' := by
  cases h with
  | call _ _ _ hss =>
      cases hss with
      | nil => cases hsource
      | cons hhead _ =>
          obtain rfl : _ = source := by simpa using hsource
          obtain rfl : _ = source' := by simpa using hsource'
          have hpart := (mem_parts_of_kept hkept).mpr (.inl rfl)
          exact hhead.order (by simpa using hadm.sources m r _ _ t hpart hextends)

/-- A kept node has the meaning of the query's if its children have. -/
theorem means_of_nodeRel (hrows : env₁.rows = env₂.rows) (hbound : e.boundIn bound = true)
    (hadm : Admissible oracle tagged e) (hkept : (!tagged && eligible e (.analyze e)) = false)
    (h : e.NodeRel (VisitedAs env₁ env₂ (e.binders ++ bound) e.isTag) s) :
    Means env₁ env₂ bound e s ∧ MeansOrder env₁ env₂ bound e s := by
  have hdraw := hadm.draws e (Expr.self_mem_nodes e)
  have hname := (Expr.boundIn_iff.mp hbound).1
  have hforth : Follows env₁ env₂ (Covers bound) e s ∧
      FollowsOrder env₁ env₂ (Covers bound) e s := by
    refine Eval.follows_of_nodeRel (fun v vs hv => items_eq hrows ▸ hv) bound hdraw
      (fun name t he a b hab v => hab.lookup (hname name t he)) ?_
      (h.imp fun c c' hc => hc.means.1) ?_
    · rintro params body rfl a b args hab hlength
      exact hab.bindArgs (hadm.plain params body (Expr.self_mem_nodes _)) hlength
    · rintro m r es t r' ss t' rfl rfl hextends source hsource source' hsource'
      exact (meansOrder_source hadm hkept h hextends hsource hsource').1
  have hback : Follows env₂ env₁ (Covers bound) s e ∧
      FollowsOrder env₂ env₁ (Covers bound) s e := by
    refine Eval.follows_of_nodeRel (fun v vs hv => (items_eq hrows).symm ▸ hv) bound
      (h.isDraw_eq.symm.trans hdraw) ?_ ?_
      (h.binders_eq ▸ h.flip.imp fun c c' hc => hc.means.2) ?_
    · rintro name t rfl a b hab v
      cases h
      exact hab.lookup (hname name t rfl)
    · rintro params body rfl a b args hab hlength
      cases h
      exact hab.bindArgs (hadm.plain params _ (Expr.self_mem_nodes _)) hlength
    · rintro m r es t r' ss t' rfl rfl hextends source hsource source' hsource'
      exact (meansOrder_source hadm hkept h hextends hsource' hsource).2
  exact ⟨⟨hforth.1, hback.1⟩, hforth.2, hback.2⟩

/-- A shape has the meaning of its query. -/
theorem means_shape {P : Bindings} (hP : env₂.params = some P) (hnumbered : Numbered P)
    (hrows : env₁.rows = env₂.rows)
    (h : ShapedBy (fun _ => Created oracle P) bound tagged e s) :
    e.boundIn bound = true → Admissible oracle tagged e →
      VisitedAs env₁ env₂ bound tagged e s := by
  refine h.nodeInduction (motive := fun bound tagged e s => e.boundIn bound = true →
    Admissible oracle tagged e → VisitedAs env₁ env₂ bound tagged e s)
    (fun bound tagged e s hpart hq _ hadm => ?_) fun bound tagged e s hkept hnode hbound hadm => ?_
  · have hstable := hadm.stable e (by simp [parts_of_replaced hpart])
    have hlambda : e.isLambda = false := by
      have heligible := ((Bool.and_eq_true _ _).mp hpart).2
      simp only [eligible, Bool.and_eq_true] at heligible
      simpa using heligible.1.1.2
    obtain ⟨v, i, n, k, hvalue, rfl, hi⟩ := hq.exists_getElem?
    refine ⟨means_placeholder hP hnumbered bound hadm.draws hstable hlambda hvalue hi,
      fun hkept => ?_⟩
    cases hpart.symm.trans hkept
  · have hchildren := (Expr.boundIn_iff.mp hbound).2
    have hmeans := means_of_nodeRel hrows hbound hadm hkept
      (hnode.imp_of_mem fun c hc c' hcc' => hcc' (hchildren c hc) (hadm.child hkept hc))
    exact ⟨hmeans.1, fun _ => hmeans.2⟩

end Shapes

/-- Extraction keeps the meaning of a query. Over every source of rows the shape, with the values
extracted, and the query itself both fail or give the same value. -/
theorem evaluate_shape_alike {oracle : Oracle} {e s : Expr} {params : Bindings} {n k : Nat}
    (hbound : e.boundIn [] = true) (hdraw : e.DrawFree)
    (hshape : (extract oracle e).run ⟨[], n⟩ = (.ok s, ⟨params, k⟩))
    (hstable : ∀ r, .replaced r ∈ parts false e → Stable oracle r)
    (hplain : ∀ ps body, .lambda ps body ∈ e.nodes → ∀ p ∈ ps, Plain p.name)
    (hsources : ∀ m receiver source rest t, .kept (.call m receiver (source :: rest) t) ∈
      parts false e → Eval.extendsOrder m = true → eligible source (.analyze source) = false)
    (outer : Option Bindings) (rows : Eval.RowSource) (clock : Oracle) :
    Eval.Alike (Eval.evaluate ⟨some params, some rows, clock⟩ s)
      (Eval.evaluate ⟨outer, some rows, clock⟩ e) := by
  have hadm : Admissible oracle false e := ⟨hdraw, hstable, hplain, hsources⟩
  have hnumbered : Numbered params := (grows_extract hshape).2 numbered_nil
  have hvisited :
      VisitedAs ⟨outer, some rows, clock⟩ ⟨some params, some rows, clock⟩ [] false e s :=
    means_shape rfl hnumbered rfl (shapedBy_created hshape List.prefix_rfl) hbound hadm
  obtain ⟨hforth, hback⟩ := hvisited.means
  have hcovers : Covers [] [] [] := ⟨rfl, by simp, by simp⟩
  exact (hback.value [] [] hcovers).alike (hforth.value [] [] hcovers)

/-- People above an age that the query captured. -/
theorem evaluate_shape_of_adults :
    let people : Expr := .constant (.query ⟨"Person", "people"⟩) (.queryable (.entity "Person"))
    let age : Expr := .member (.parameter "p" (.entity "Person")) "Age" .int
    let captured : Expr :=
      .member (.constant (.closure "Scope" [⟨"min", .int, .int 30⟩]) (.closure "Scope")) "min" .int
    let where_ (least : Expr) : Expr := .call (.operator "Where") none
      [people, .lambda [⟨"p", .entity "Person"⟩] (.binary .gt age least)]
      (.queryable (.entity "Person"))
    let clock : Oracle := ⟨fun _ => ⟨0⟩, fun _ => ⟨0, 0⟩⟩
    (extract clock (where_ captured)).run ⟨[], 0⟩ =
        (.ok (where_ (.parameter "__min_0" .int)), ⟨[⟨"__min_0", .int 30⟩], 0⟩) ∧
      ∀ rows, Eval.Alike
        (Eval.evaluate ⟨some [⟨"__min_0", .int 30⟩], some rows, clock⟩
          (where_ (.parameter "__min_0" .int)))
        (Eval.evaluate ⟨none, some rows, clock⟩ (where_ captured)) := by
  intro people age captured where_ clock
  have hshape : (extract clock (where_ captured)).run ⟨[], 0⟩ =
    (.ok (where_ (.parameter "__min_0" .int)), ⟨[⟨"__min_0", .int 30⟩], 0⟩) := rfl
  have hparts : parts false (where_ captured) = [.kept (where_ captured), .kept people,
    .kept (.lambda [⟨"p", .entity "Person"⟩] (.binary .gt age captured)),
    .kept (.binary .gt age captured), .kept age, .kept (.parameter "p" (.entity "Person")),
    .replaced captured] := rfl
  refine ⟨hshape, fun rows => evaluate_shape_alike rfl ?_ hshape ?_ ?_ ?_ none rows clock⟩
  · unfold Expr.DrawFree
    decide
  · intro r hr
    obtain rfl : r = captured := by simpa [hparts] using hr
    refine ⟨?_, ?_⟩
    · rintro v n k ⟨⟩
      rfl
    · intro operand t h
      simp [captured, Expr.nodes] at h
  · intro ps body hl p hp base i hname
    obtain ⟨rfl, -⟩ : ps = [⟨"p", .entity "Person"⟩] ∧ _ := by
      simpa [where_, people, age, captured, Expr.nodes, Expr.nodesOfList] using hl
    obtain rfl := List.mem_singleton.mp hp
    have hlist := congrArg String.toList hname
    simp [placeholder] at hlist
  · intro m receiver source rest t hk hextends
    rw [hparts] at hk
    obtain ⟨rfl, -⟩ : m = .operator "Where" ∧ _ := by
      simpa [where_, people, age] using hk
    exact absurd hextends (by decide)

end DeferredQuery.Extract
