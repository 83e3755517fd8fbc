import DeferredQuery.Proofs.Eval.Entails
import DeferredQuery.Proofs.Expr.Children

/-!
# Expressions that follow another

An expression over one environment follows an expression over another if its values and its results
as a lambda do, in all scopes that belong together. The lemmas here are one for each kind of node,
and then one for all kinds: nodes follow each other if their children do.
-/

namespace DeferredQuery

def Expr.isDraw : Expr → Bool
  | .call m none [] _ => m.isVolatile
  | _ => false

def Expr.DrawFree (e : Expr) : Prop := ∀ n ∈ e.nodes, n.isDraw = false

theorem Expr.DrawFree.child {c e : Expr} (h : e.DrawFree) (hc : c ∈ e.children) : c.DrawFree :=
  fun n hn => h n (mem_nodes_of_child hc hn)

theorem Expr.DrawFree.intro {e : Expr} (h : e.isDraw = false) (hc : ∀ c ∈ e.children, c.DrawFree) :
    e.DrawFree := by
  intro n hn
  rcases Expr.mem_nodes.mp hn with rfl | ⟨c, hmem, hn⟩
  · exact h
  · exact hc c hmem n hn

theorem Expr.NodeRel.isDraw_eq {R : Expr → Expr → Prop} {e s : Expr} (h : NodeRel R e s) :
    e.isDraw = s.isDraw := by
  cases h with
  | call m t hr hss =>
      cases hr with
      | none => cases hss <;> rfl
      | some => rfl
  | _ => rfl

theorem Expr.NodeRel.drawFree {e s : Expr} (h : NodeRel (fun c c' => c.DrawFree → c'.DrawFree) e s)
    (hdraw : e.DrawFree) : s.DrawFree := by
  refine .intro (h.isDraw_eq ▸ hdraw e (self_mem_nodes e)) fun c' hc' => ?_
  obtain ⟨c, hc, hchild⟩ := h.exists_child hc'
  exact hchild (hdraw.child hc)

namespace Eval

structure Follows (env₁ env₂ : Env) (S : Scope → Scope → Prop) (e s : Expr) : Prop where
  value : ∀ a b, S a b → Entails (value env₁ a e) (value env₂ b s)
  invoke : ∀ a b, S a b → ∀ args, Entails (invoke env₁ a args e) (invoke env₂ b args s)

def FollowsOrder (env₁ env₂ : Env) (S : Scope → Scope → Prop) (e s : Expr) : Prop :=
  ∀ a b, S a b → ∀ ks ls, (∀ items, Items.KeysEntail items ks ls) →
    Entails (ordered env₁ a ks e) (ordered env₂ b ls s)

section Nodes

variable {env₁ env₂ : Env} {S : Scope → Scope → Prop}

/-! ## Leaves and scalars -/

theorem fails_invoke {e : Expr} (he : e.isLambda = false) (env : Env) (a : Scope)
    (args : List Value) : Fails (invoke env a args e) := by
  cases e with
  | lambda params body => cases he
  | _ => exact fails_throw _

theorem Follows.of_value {e s : Expr} (he : e.isLambda = false)
    (h : ∀ a b, S a b → Entails (Eval.value env₁ a e) (Eval.value env₂ b s)) :
    Follows env₁ env₂ S e s where
  value := h
  invoke a _ _ args := .of_fails (fails_invoke he env₁ a args)

theorem follows_constant (v : Value) (t : Ty) :
    Follows env₁ env₂ S (.constant v t) (.constant v t) :=
  .of_value rfl fun _ _ _ => .pure v

theorem follows_parameter {name : String} {t : Ty}
    (h : ∀ a b, S a b → ∀ v, env₁.lookup a name = .ok v → env₂.lookup b name = .ok v) :
    Follows env₁ env₂ S (.parameter name t) (.parameter name t) :=
  .of_value rfl fun a b hab => .lift (h a b hab)

theorem follows_member {e s : Expr} (h : Follows env₁ env₂ S e s) (name : String) (t : Ty) :
    Follows env₁ env₂ S (.member e name t) (.member s name t) :=
  .of_value rfl fun a b hab => (h.value a b hab).bind fun _ => .lift_self _

theorem follows_convert {e s : Expr} (h : Follows env₁ env₂ S e s) (t : Ty) :
    Follows env₁ env₂ S (.convert e t) (.convert s t) :=
  .of_value rfl fun a b hab => (h.value a b hab).bind fun _ => .pure _

theorem follows_unary {e s : Expr} (h : Follows env₁ env₂ S e s) (op : UnOp) :
    Follows env₁ env₂ S (.unary op e) (.unary op s) :=
  .of_value rfl fun a b hab => (h.value a b hab).bind fun _ => .lift_self _

theorem entails_binary {a b : Scope} {e₁ e₂ s₁ s₂ : Expr}
    (h₁ : Entails (value env₁ a e₁) (value env₂ b s₁))
    (h₂ : Entails (value env₁ a e₂) (value env₂ b s₂)) (op : BinOp) :
    Entails (value env₁ a (.binary op e₁ e₂)) (value env₂ b (.binary op s₁ s₂)) := by
  rw [value, value]
  split
  · refine h₁.bind fun v => (Entails.lift_self _).bind fun w => ?_
    split
    · exact .pure _
    · exact h₂.bind fun v => (Entails.lift_self _).bind fun w => .pure _
  · exact h₁.bind fun v => h₂.bind fun w => .lift_self _

theorem follows_binary {e₁ e₂ s₁ s₂ : Expr} (h₁ : Follows env₁ env₂ S e₁ s₁)
    (h₂ : Follows env₁ env₂ S e₂ s₂) (op : BinOp) :
    Follows env₁ env₂ S (.binary op e₁ e₂) (.binary op s₁ s₂) :=
  .of_value rfl fun a b hab => entails_binary (h₁.value a b hab) (h₂.value a b hab) op

theorem follows_volatile {e s : Expr} (h : Follows env₁ env₂ S e s) :
    Follows env₁ env₂ S (.volatile e) (.volatile s) :=
  .of_value rfl h.value

theorem follows_lambda {S' : Scope → Scope → Prop} {params : List Binder} {e s : Expr}
    (hS : ∀ a b args, S a b → params.length = args.length →
      S' (bindArgs params args a) (bindArgs params args b))
    (h : Follows env₁ env₂ S' e s) :
    Follows env₁ env₂ S (.lambda params e) (.lambda params s) where
  value _ _ _ := .throw _
  invoke a b hab args := by
    rw [Eval.invoke, Eval.invoke]
    split
    · rename_i hlength
      exact h.value _ _ (hS a b args hab hlength)
    · exact .throw _

/-! ## Lists -/

abbrev FollowsList (env₁ env₂ : Env) (S : Scope → Scope → Prop) (es ss : List Expr) : Prop :=
  List.Forall₂ (Follows env₁ env₂ S) es ss

theorem entails_values {es ss : List Expr} (h : FollowsList env₁ env₂ S es ss) {a b : Scope}
    (hab : S a b) : Entails (values env₁ a es) (values env₂ b ss) := by
  induction h with
  | nil => exact .pure []
  | cons he _ ih => exact (he.value a b hab).bind fun v => ih.bind fun vs => .pure _

theorem length_values {env : Env} {a : Scope} {es : List Expr} {n k : Nat} {vs : List Value}
    (h : values env a es n = .ok (vs, k)) : vs.length = es.length := by
  induction es generalizing n k vs with
  | nil =>
      obtain ⟨rfl, -⟩ := pure_eq_ok.mp h
      rfl
  | cons e es ih =>
      obtain ⟨v, j, -, hrest⟩ := bind_eq_ok.mp h
      obtain ⟨ws, j', hws, hpure⟩ := bind_eq_ok.mp hrest
      obtain ⟨rfl, -⟩ := pure_eq_ok.mp hpure
      simp [ih hws]

/-- Fields follow each other in order, under the same names. -/
theorem follows_record {es ss : List (Named Expr)}
    (h : List.Forall₂ (fun x y => x.name = y.name ∧ Follows env₁ env₂ S x.value y.value) es ss) :
    Follows env₁ env₂ S (.record es) (.record ss) := by
  refine .of_value rfl fun a b hab => ?_
  have hfields : Entails (fieldValues env₁ a es) (fieldValues env₂ b ss) := by
    induction h with
    | nil => exact .pure []
    | @cons x y _ _ hxy _ ih =>
        obtain ⟨name, e⟩ := x
        obtain ⟨name', s⟩ := y
        obtain ⟨rfl, he⟩ := hxy
        exact (he.value a b hab).bind fun v => ih.bind fun vs => .pure _
  exact hfields.bind fun fs => .pure _

/-! ## Calls -/

variable (hitems : ∀ v vs, env₁.items v = .ok vs → env₂.items v = .ok vs)

include hitems in
theorem entails_items {m₁ m₂ : EvalM Value} {β : Type} {f g : List Value → EvalM β}
    (h : Entails m₁ m₂) (hf : ∀ vs, Entails (f vs) (g vs)) :
    Entails (m₁ >>= fun v => liftM (env₁.items v) >>= f)
      (m₂ >>= fun v => liftM (env₂.items v) >>= g) :=
  h.bind fun v => (Entails.lift (hitems v)).bind hf

include hitems in
/-- Operators on the same items follow each other where their arguments do. -/
theorem entails_apply {m : Method} (items : List Value) {es ss : List Expr}
    (h : FollowsList env₁ env₂ S es ss) {a b : Scope} (hab : S a b) :
    Entails (apply env₁ a m items es) (apply env₂ b m items ss) := by
  cases h with
  | nil => exact .lift_self _
  | @cons e s es ss he hrest =>
  cases hrest with
  | nil =>
      have hinvoke : ∀ v, Entails (invoke env₁ a [v] e) (invoke env₂ b [v] s) :=
        fun v => he.invoke a b hab [v]
      have hholds : ∀ v, Entails (invoke env₁ a [v] e >>= fun r => liftM r.holds)
          (invoke env₂ b [v] s >>= fun r => liftM r.holds) :=
        fun v => (hinvoke v).bind fun _ => .lift_self _
      rw [apply, apply]
      split
      · exact (Items.entails_keep fun v _ => hholds v).bind fun _ => .pure _
      split
      · exact (Items.entails_select fun v _ => hinvoke v).bind fun _ => .pure _
      split
      · refine (Items.entails_order ?_).bind fun _ => .pure _
        exact .cons ⟨fun v _ => hinvoke v, rfl⟩ .nil
      split
      · exact (he.value a b hab).bind fun v => (Entails.lift_self _).bind fun n => .pure _
      split
      · exact (he.value a b hab).bind fun v => (Entails.lift_self _).bind fun n => .pure _
      split
      · exact (Items.entails_keep fun v _ => hholds v).bind fun _ => .lift_self _
      split
      · exact .pure _
      · exact .throw _
  | @cons e₂ s₂ es ss he₂ hrest =>
  cases hrest with
  | nil => exact .throw _
  | @cons e₃ s₃ es ss he₃ hrest =>
  cases hrest with
  | nil => exact .throw _
  | @cons e₄ s₄ es ss he₄ hrest =>
  cases hrest with
  | nil =>
      rw [apply, apply]
      split
      · refine entails_items hitems (he.value a b hab) fun vs => ?_
        exact (Items.entails_join (fun v _ => he₂.invoke a b hab [v])
          (fun v _ => he₃.invoke a b hab [v]) fun v _ w _ => he₄.invoke a b hab [v, w]).bind
            fun _ => .pure _
      · exact .throw _
  | cons _ _ => exact .throw _

/-! ## Sorts -/

theorem fails_ordered {e : Expr} (he : ∀ m receiver source selector t,
    e ≠ .call m receiver [source, selector] t) (env : Env) (a : Scope)
    (ks : List (Items.Key EvalM)) : Fails (ordered env a ks e) := by
  unfold ordered
  split
  · exact (he _ _ _ _ _ rfl).elim
  · exact fails_throw _
  · exact fails_throw _

theorem FollowsOrder.of_no_sort {e s : Expr} (he : ∀ m receiver source selector t,
    e ≠ .call m receiver [source, selector] t) : FollowsOrder env₁ env₂ S e s :=
  fun a _ _ ks _ _ => .of_fails (fails_ordered he env₁ a ks)

include hitems in
/-- Sorts follow each other down to the one that starts them. -/
theorem FollowsOrder.call {m : Method} {r r' : Option Expr} {es ss : List Expr} {t t' : Ty}
    (h : FollowsList env₁ env₂ S es ss)
    (hsource : extendsOrder m = true → ∀ source ∈ es.head?, ∀ source' ∈ ss.head?,
      FollowsOrder env₁ env₂ S source source') :
    FollowsOrder env₁ env₂ S (.call m r es t) (.call m r' ss t') := by
  by_cases hpair : ∃ e selector, es = [e, selector]
  · obtain ⟨e, selector, rfl⟩ := hpair
    obtain ⟨s, selector', he, hselector, rfl⟩ :
        ∃ s selector', Follows env₁ env₂ S e s ∧ Follows env₁ env₂ S selector selector' ∧
          ss = [s, selector'] := by
      match ss, h with
      | [s, selector'], .cons he (.cons hselector .nil) => exact ⟨s, selector', he, hselector, rfl⟩
    intro a b hab ks ls hkeys
    have hkeys' : ∀ items, Items.KeysEntail items
        (⟨fun v => invoke env₁ a [v] selector, sortsDown m⟩ :: ks)
        (⟨fun v => invoke env₂ b [v] selector', sortsDown m⟩ :: ls) := fun items =>
      .cons ⟨fun v _ => hselector.invoke a b hab [v], rfl⟩ (hkeys items)
    rw [ordered, ordered]
    by_cases hextends : extendsOrder m = true
    · simp only [hextends, if_true]
      exact hsource hextends e rfl s rfl a b hab _ _ hkeys'
    · simp only [hextends]
      by_cases hstarts : startsOrder m = true
      · simp only [hstarts, if_true]
        exact entails_items hitems (he.value a b hab) fun vs =>
          Items.entails_order (hkeys' vs)
      · simp only [hstarts]
        exact .throw _
  · refine .of_no_sort ?_
    rintro m' r'' source selector u ⟨⟩
    exact hpair ⟨source, selector, rfl⟩

include hitems in
/-- An operator takes the items of its source, or of the sort that it refines. -/
theorem entails_operator {m : Method} {es ss : List Expr}
    (h : FollowsList env₁ env₂ S es ss)
    (hsource : extendsOrder m = true → ∀ source ∈ es.head?, ∀ source' ∈ ss.head?,
      FollowsOrder env₁ env₂ S source source') {a b : Scope} (hab : S a b) :
    Entails (operator env₁ a m es) (operator env₂ b m ss) := by
  cases h with
  | nil => exact .throw _
  | @cons e s es ss he hrest =>
  rw [operator.eq_def, operator.eq_def]
  by_cases hsort : (startsOrder m || extendsOrder m) = true
  · simp only [hsort, if_true]
    match es, ss, hrest with
    | [], _, _ => exact .throw _
    | [selector], [selector'], .cons hselector .nil =>
        have hkeys : ∀ items, Items.KeysEntail items
            [⟨fun v => invoke env₁ a [v] selector, sortsDown m⟩]
            [⟨fun v => invoke env₂ b [v] selector', sortsDown m⟩] := fun _ =>
          .cons ⟨fun v _ => hselector.invoke a b hab [v], rfl⟩ .nil
        by_cases hextends : extendsOrder m = true
        · simp only [hextends, if_true]
          exact (hsource hextends e rfl s rfl a b hab _ _ hkeys).bind fun _ => .pure _
        · simp only [hextends]
          exact entails_items hitems (he.value a b hab) fun vs =>
            (Items.entails_order (hkeys vs)).bind fun _ => .pure _
    | _ :: _ :: _, _, _ => exact .throw _
  · simp only [hsort]
    exact entails_items hitems (he.value a b hab) fun vs => entails_apply hitems vs hrest hab

/-! ## Method calls -/

theorem value_operator {m : Method} (hm : m.isOperator = true) (env : Env) (a : Scope)
    (r : Option Expr) (es : List Expr) (t : Ty) :
    value env a (.call m r es t) = operator env a m es := by
  cases r <;> rw [value, if_pos hm]

theorem call_eq_apply {env : Env} {m : Method} {receiver : Option Value} {args : List Value}
    (h : m.isVolatile = true → receiver.isNone = true → args ≠ []) :
    env.call m receiver args = liftM (m.apply receiver args) := by
  unfold Env.call
  split
  · rename_i hdraw
    simp only [Bool.and_eq_true, List.isEmpty_iff] at hdraw
    exact (h hdraw.1.1 hdraw.1.2 hdraw.2).elim
  · rfl

include hitems in
/-- Calls of one method follow each other where receivers and arguments do, unless they draw. -/
theorem follows_call {m : Method} {r r' : Option Expr} {es ss : List Expr} {t t' : Ty}
    (hdraw : (Expr.call m r es t).isDraw = false)
    (hr : Option.Rel (Follows env₁ env₂ S) r r') (h : FollowsList env₁ env₂ S es ss)
    (hsource : extendsOrder m = true → ∀ source ∈ es.head?, ∀ source' ∈ ss.head?,
      FollowsOrder env₁ env₂ S source source') :
    Follows env₁ env₂ S (.call m r es t) (.call m r' ss t') := by
  refine .of_value rfl fun a b hab => ?_
  by_cases hm : m.isOperator = true
  · rw [value_operator hm, value_operator hm]
    exact entails_operator hitems h hsource hab
  cases hr with
  | none =>
      rw [Eval.value, Eval.value, if_neg hm, if_neg hm]
      refine (entails_values h hab).bind_of_results fun n vs k hvs => ?_
      have hargs : m.isVolatile = true → (none : Option Value).isNone = true → vs ≠ [] := by
        rintro hm - rfl
        cases es with
        | nil => simp [Expr.isDraw, hm] at hdraw
        | cons e es => exact nomatch length_values hvs
      rw [call_eq_apply hargs, call_eq_apply hargs]
      exact .lift_self _
  | @some e s he =>
      rw [Eval.value, Eval.value, if_neg hm, if_neg hm]
      refine (he.value a b hab).bind fun v => (entails_values h hab).bind fun vs => ?_
      have hsome : m.isVolatile = true → (some v).isNone = true → vs ≠ [] := fun _ => nofun
      rw [call_eq_apply hsome, call_eq_apply hsome]
      exact .lift_self _

/-! ## Nodes of one kind -/

include hitems in
/-- A node that draws nothing is followed by a node of its kind whose children follow its own, over
scopes that know its name if it is a parameter. A lambda binds the same arguments on both sides; a
secondary sort key needs more of its source, whose sort it continues. -/
theorem follows_of_nodeRel {S : List String → Scope → Scope → Prop} (bound : List String)
    {e s : Expr} (hdraw : e.isDraw = false)
    (hparameter : ∀ name t, e = .parameter name t → ∀ a b, S bound a b → ∀ v,
      env₁.lookup a name = .ok v → env₂.lookup b name = .ok v)
    (hlambda : ∀ params body, e = .lambda params body → ∀ a b args, S bound a b →
      params.length = args.length →
        S (e.binders ++ bound) (bindArgs params args a) (bindArgs params args b))
    (h : e.NodeRel (Follows env₁ env₂ (S (e.binders ++ bound))) s)
    (hsource : ∀ m r es t r' ss t', e = .call m r es t → s = .call m r' ss t' →
      extendsOrder m = true → ∀ source ∈ es.head?, ∀ source' ∈ ss.head?,
        FollowsOrder env₁ env₂ (S bound) source source') :
    Follows env₁ env₂ (S bound) e s ∧ FollowsOrder env₁ env₂ (S bound) e s := by
  cases h with
  | constant v t => exact ⟨follows_constant v t, .of_no_sort (by simp)⟩
  | parameter name t => exact ⟨follows_parameter (hparameter name t rfl), .of_no_sort (by simp)⟩
  | member name t hs => exact ⟨follows_member hs name t, .of_no_sort (by simp)⟩
  | call m t hr hss =>
      have hsource' := hsource m _ _ t _ _ t rfl rfl
      exact ⟨follows_call hitems hdraw hr hss hsource', .call hitems hss hsource'⟩
  | lambda params hs => exact ⟨follows_lambda (hlambda params _ rfl) hs, .of_no_sort (by simp)⟩
  | convert t hs => exact ⟨follows_convert hs t, .of_no_sort (by simp)⟩
  | binary op hs hs' => exact ⟨follows_binary hs hs' op, .of_no_sort (by simp)⟩
  | unary op hs => exact ⟨follows_unary hs op, .of_no_sort (by simp)⟩
  | record hss => exact ⟨follows_record hss, .of_no_sort (by simp)⟩
  | volatile hs => exact ⟨follows_volatile hs, .of_no_sort (by simp)⟩

end Nodes

/-! ## An expression and itself -/

theorem lookup_append (env : Env) (xs scope : Scope) (name : String) :
    env.lookup (xs ++ scope) name =
      match Named.find? name xs with
      | some v => .ok v
      | none => env.lookup scope name := by
  unfold Env.lookup
  rw [Named.find?_append]
  cases Named.find? name xs <;> rfl

/-- Each parameter of a lambda is given an argument. -/
theorem exists_mem_bindArgs {params : List Binder} {args : List Value} {p : Binder}
    (hlength : params.length = args.length) (hp : p ∈ params) :
    ∃ x ∈ ((params.zip args).map fun x => (⟨x.1.name, x.2⟩ : Named Value)).reverse,
      x.name = p.name := by
  have hmem : p ∈ (params.zip args).map Prod.fst := by
    rwa [List.map_fst_zip (Nat.le_of_eq hlength)]
  obtain ⟨⟨p', v⟩, hpv, rfl⟩ := List.mem_map.mp hmem
  exact ⟨⟨p'.name, v⟩, List.mem_reverse.mpr (List.mem_map_of_mem hpv), rfl⟩

/-- Each name with a value in the first scope has it in the second. -/
def Lookups (env₁ env₂ : Env) (a b : Scope) : Prop :=
  ∀ name v, env₁.lookup a name = .ok v → env₂.lookup b name = .ok v

theorem Lookups.bindArgs {env₁ env₂ : Env} {a b : Scope} (h : Lookups env₁ env₂ a b)
    (params : List Binder) (args : List Value) :
    Lookups env₁ env₂ (bindArgs params args a) (bindArgs params args b) := by
  intro name v hv
  unfold Eval.bindArgs at hv ⊢
  rw [lookup_append] at hv ⊢
  split at hv
  · exact hv
  · exact h name v hv

/-- By induction on the expression, for its values and for the sorts that end in it at once. -/
theorem follows_self_and_order {env₁ env₂ : Env}
    (hitems : ∀ v vs, env₁.items v = .ok vs → env₂.items v = .ok vs) (e : Expr)
    (hdraw : e.DrawFree) :
    Follows env₁ env₂ (Lookups env₁ env₂) e e ∧
      FollowsOrder env₁ env₂ (Lookups env₁ env₂) e e := by
  induction e using Expr.induction_on_children with
  | step e ih =>
      have hchild := fun c hc => ih c hc (hdraw.child hc)
      refine follows_of_nodeRel (S := fun _ => Lookups env₁ env₂) hitems []
        (hdraw e (Expr.self_mem_nodes e)) (fun name _ _ _ _ h => h name)
        (fun params _ _ _ _ args h _ => h.bindArgs params args)
        (.same fun c hc => (hchild c hc).1) ?_
      rintro m r es t r' ss t' rfl ⟨⟩ - source hsource source' hsource'
      obtain rfl := Option.mem_unique hsource hsource'
      have hmem : source ∈ (Expr.call m r es t).children :=
        List.mem_append_right _ (List.mem_of_mem_head? hsource)
      exact (hchild source hmem).2

end Eval

end DeferredQuery
