import DeferredQuery.Proofs.Eval.Alike
import DeferredQuery.Proofs.Eval.Outcomes
import DeferredQuery.QueryText.Typing

/-!
# The expressions of query texts

How the nodes of a text's expression come about, and with which types: each one is written in the
text, apart from the reads that lead to captured variables and the conversions that bring two
operands to one type.
-/

namespace DeferredQuery

def Value.isBasic : Value → Bool
  | .null | .bool _ | .int _ | .float _ | .string _ => true
  | _ => false

namespace QueryText

/-- The expression reads its way from the captured scope to the value. -/
inductive Env.Path (env : Env) : Expr → Value → Prop
  | root {c : Closure} : env.captured = some c →
    Path env (.const (.closure c.className c.captures)) (.closure c.className c.captures)
  | read {target : Expr} {className : String} {captures : List (Capture Value)}
    {c : Capture Value} : Path env target (.closure className captures) → c ∈ captures →
    Path env (.member target c.name c.ty) c.value

/-- The expression is that of a part of a query text. -/
inductive Env.Built (env : Env) : Expr → Prop
  | literal {v : Value} : v.isBasic = true → Built env (.const v)
  | entitySet (root : SetRef) : Built env (.const (.query root))
  | captured {e : Expr} {v : Value} : env.Path e v → Built env e
  | parameter (name : String) (t : Ty) : Built env (.parameter name t)
  | lambda (params : List Binder) {body : Expr} : Built env body → Built env (.lambda params body)
  | combined {op : BinOp} {left right a b : Expr} : Built env left → Built env right →
    combine op left right = .binary op a b → Built env (.binary op a b)
  | unary (op : UnOp) {operand : Expr} : Built env operand → Built env (.unary op operand)
  | member {target : Expr} {name : String} {t : Ty} : Built env target →
    target.ty.member? env.names.property name = some t → Built env (.member target name t)
  | static {owner name : String} {args : List Expr} {m : Method} {t : Ty} :
    (∀ a ∈ args, Built env a) →
    Method.resolveStatic? owner name (args.map Expr.ty) = some (m, t) →
    Built env (.call m none args t)
  | scalar {receiver : Expr} {name : String} {args : List Expr} {m : Method} {t : Ty} :
    Built env receiver → (∀ a ∈ args, Built env a) →
    Method.resolveInstance? receiver.ty name (args.map Expr.ty) = some (m, t) →
    Built env (.call m (some receiver) args t)
  | operator {receiver : Expr} (name : String) {args : List Expr} {element : Ty} :
    Built env receiver → (∀ a ∈ args, Built env a) → receiver.ty.element? = some element →
    Built env (.call (.operator name) none (receiver :: args)
      (operatorTy name receiver.ty element args))
  | record {fields : List (Named Expr)} : (∀ field ∈ fields, Built env field.value) →
    Built env (.record fields)

section Names

variable {env : Env}

mutual

/-- By induction on the search for a name, with the path to the scope that is searched. -/
theorem path_of_capture? {name : String} {target e : Expr} : ∀ {v : Value}, env.Path target v →
    capture? name target v = some e → ∃ w, env.Path e w
  | .closure _ captures, htarget, h => by
    rw [capture?] at h
    split at h
    · rename_i c hfind
      cases h
      obtain rfl : c.name = name := (Capture.of_find? hfind).2
      exact ⟨_, htarget.read (Capture.of_find? hfind).1⟩
    · exact path_of_nestedCapture? htarget (fun _ hc => hc) h

theorem path_of_nestedCapture? {name : String} {target e : Expr} {className : String}
    {all : List (Capture Value)} : ∀ {captures : List (Capture Value)},
      env.Path target (.closure className all) → (∀ c ∈ captures, c ∈ all) →
        nestedCapture? name target captures = some e → ∃ w, env.Path e w
  | ⟨field, ty, v⟩ :: rest, htarget, hall, h => by
    obtain ⟨hfield, hrest⟩ := List.forall_mem_cons.mp hall
    rw [nestedCapture?] at h
    split at h
    · rcases Option.or_eq_some_iff.mp h with h | ⟨-, h⟩
      · exact path_of_capture? (htarget.read hfield) h
      · exact path_of_nestedCapture? htarget hrest h
    · exact path_of_nestedCapture? htarget hrest h

end

theorem built_resolve? {scope : List Binder} {name : String} {e : Expr}
    (h : env.resolve? scope name = some e) : env.Built e := by
  unfold Env.resolve? at h
  split at h
  · cases h
    exact .parameter _ _
  split at h
  · cases h
    exact .entitySet _
  · obtain ⟨c, hc, hcapture⟩ := Option.bind_eq_some_iff.mp h
    obtain ⟨v, hpath⟩ := path_of_capture? (.root hc) hcapture
    exact .captured hpath

end Names

theorem Literal.isBasic_value {l : Literal} {v : Value} (h : l.value = .ok v) :
    v.isBasic = true := by
  cases l with
  | int digits =>
      rw [Literal.value] at h
      split at h <;> cases h
      rfl
  | _ =>
      cases h
      rfl

/-- An operation on two operands stays one, around a conversion of one of them at most. -/
theorem combine_eq_binary (op : BinOp) (left right : Expr) :
    ∃ a b, combine op left right = .binary op a b := by
  unfold combine
  repeat' split
  all_goals exact ⟨_, _, rfl⟩

namespace Env.Built

variable {env : Env}

theorem combine {left right : Expr} (hl : env.Built left) (hr : env.Built right) (op : BinOp) :
    env.Built (combine op left right) := by
  obtain ⟨a, b, hcombine⟩ := combine_eq_binary op left right
  exact hcombine ▸ hl.combined hr hcombine

theorem negate {e : Expr} (h : env.Built e) : env.Built (negate e) := by
  unfold QueryText.negate
  split
  · rename_i n t
    cases h with
    | literal => exact .literal rfl
    | captured h => cases h
  · rename_i x t
    cases h with
    | literal => exact .literal rfl
    | captured h => cases h
  · exact h.unary .neg

theorem readMember {target e : Expr} {name : String} (h : env.Built target)
    (hread : readMember env.names target name = .ok e) : env.Built e := by
  unfold QueryText.readMember at hread
  split at hread <;> cases hread
  exact h.member ‹_›

theorem staticCall {args : List Expr} {e : Expr} {owner name : String}
    (h : ∀ a ∈ args, env.Built a) (hcall : staticCall owner name args = .ok e) : env.Built e := by
  unfold QueryText.staticCall at hcall
  split at hcall <;> cases hcall
  exact .static h ‹_›

theorem receiverCall {receiver e : Expr} {args : List Expr} {name : String}
    (hreceiver : env.Built receiver) (h : ∀ a ∈ args, env.Built a)
    (hcall : receiverCall receiver name args = .ok e) : env.Built e := by
  unfold QueryText.receiverCall at hcall
  split at hcall
  · cases hcall
    exact hreceiver.operator name h ‹_›
  · unfold scalarCall at hcall
    split at hcall <;> cases hcall
    exact hreceiver.scalar h ‹_›

end Env.Built

/-! ## Nodes -/

/-- An operand is brought to the type of the other one, which is optional or of wider numbers. -/
inductive Brings (operand : Expr) : Ty → Prop
  | lift : Brings operand (.nullable operand.ty)
  | widen : operand.ty = .int → Brings operand .float

inductive Env.Grown (env : Env) : Expr → Prop
  | built {e : Expr} : env.Built e → Grown env e
  | convert {operand : Expr} {t : Ty} : env.Built operand → Brings operand t →
    Grown env (.convert operand t)

section Nodes

variable {env : Env}

theorem Env.Built.target {target : Expr} {name : String} {t : Ty}
    (h : env.Built (.member target name t)) : env.Built target := by
  cases h with
  | captured hpath =>
      cases hpath with
      | read htarget _ => exact .captured htarget
  | member h _ => exact h

theorem Env.Built.ne_convert {operand : Expr} {t : Ty} : ¬ env.Built (.convert operand t) := by
  intro h
  cases h with
  | captured hpath => cases hpath

/-- Either operand is that of a query text, or is brought to the type of the other one. -/
theorem grown_of_combine {op : BinOp} {left right a b : Expr} (hl : env.Built left)
    (hr : env.Built right) (h : combine op left right = .binary op a b) :
    env.Grown a ∧ env.Grown b := by
  unfold combine at h
  split at h
  · cases h
    exact ⟨.built hl, .built hr⟩
  split at h
  · rename_i hty
    cases h
    exact ⟨.built hl, hty ▸ .convert hr .lift⟩
  split at h
  · rename_i hty
    cases h
    exact ⟨hty ▸ .convert hl .lift, .built hr⟩
  split at h
  · cases h
    exact ⟨.convert hl (.widen ‹_›), .built hr⟩
  · cases h
    exact ⟨.built hl, .convert hr (.widen ‹_›)⟩
  · cases h
    exact ⟨.built hl, .built hr⟩

/-- The children of a part of a query text are such parts, too. -/
theorem Env.Grown.child {c e : Expr} (h : env.Grown e) (hc : c ∈ e.children) : env.Grown c := by
  cases h with
  | convert h _ =>
      obtain rfl := List.mem_singleton.mp hc
      exact .built h
  | built h =>
      cases h with
      | literal | entitySet | parameter => cases hc
      | captured hpath =>
          cases hpath with
          | root => cases hc
          | read htarget _ =>
              obtain rfl := List.mem_singleton.mp hc
              exact .built (.captured htarget)
      | combined hl hr hcombine =>
          obtain ⟨ha, hb⟩ := grown_of_combine hl hr hcombine
          rcases List.mem_cons.mp hc with rfl | hc
          · exact ha
          · exact List.mem_singleton.mp hc ▸ hb
      | lambda _ h | unary _ h | member h _ =>
          obtain rfl := List.mem_singleton.mp hc
          exact .built h
      | static h _ => exact .built (h c hc)
      | scalar hreceiver h _ | operator _ hreceiver h _ =>
          rcases List.mem_cons.mp hc with rfl | hc
          · exact .built hreceiver
          · exact .built (h c hc)
      | record h =>
          obtain ⟨field, hfield, rfl⟩ := List.mem_map.mp hc
          exact .built (h field hfield)

theorem Env.Grown.node {n e : Expr} (h : env.Grown e) (hn : n ∈ e.nodes) : env.Grown n := by
  induction e using Expr.induction_on_children with
  | step e ih =>
      rcases Expr.mem_nodes.mp hn with rfl | ⟨c, hc, hn⟩
      · exact h
      · exact ih c hc (h.child hc) hn

end Nodes

/-! ## Texts -/

/-- A call is of a method on a type name, where the name means nothing else, or of one on what its
target stands for. -/
theorem build_call_eq_ok {env : Env} {scope : List Binder} {seeds : List Ty} {target : Tree}
    {name : String} {args : List Tree} {e : Expr}
    (h : build env scope seeds (.call target name args) = .ok e) :
    (∃ receiver built, build env scope [] target = .ok receiver ∧
      buildArgs env scope (argSeeds receiver name) [] args = .ok built ∧
        receiverCall receiver name built = .ok e) ∨
    ∃ owner built, buildArgs env scope (fun _ => []) [] args = .ok built ∧
      staticCall owner name built = .ok e := by
  cases target with
  | name id =>
      rw [build] at h
      split at h
      · rename_i receiver hresolve
        obtain ⟨built, hbuilt, hcall⟩ := bind_eq_ok.mp h
        exact .inl ⟨receiver, built, by rw [build, hresolve], hbuilt, hcall⟩
      · obtain ⟨built, hbuilt, hcall⟩ := bind_eq_ok.mp h
        exact .inr ⟨id, built, hbuilt, hcall⟩
  | _ =>
      rw [build] at h
      · obtain ⟨receiver, hreceiver, hrest⟩ := bind_eq_ok.mp h
        obtain ⟨built, hbuilt, hcall⟩ := bind_eq_ok.mp hrest
        exact .inl ⟨receiver, built, hreceiver, hbuilt, hcall⟩
      · exact nofun

/-- The property passes from the parts of a query text to the whole, at each step of building. -/
structure Env.Steps (env : Env) (P : Expr → Prop) : Prop where
  resolve : ∀ {scope : List Binder} {name : String} {e : Expr},
    env.resolve? scope name = some e → P e
  literal : ∀ {l : Literal} {v : Value}, l.value = .ok v → P (.const v)
  lambda : ∀ (params : List Binder) {body : Expr}, P body → P (.lambda params body)
  combine : ∀ (op : BinOp) {left right : Expr}, P left → P right → P (combine op left right)
  negate : ∀ {e : Expr}, P e → P (negate e)
  not : ∀ {e : Expr}, P e → P (.unary .not e)
  readMember : ∀ {target e : Expr} {name : String}, P target →
    readMember env.names target name = .ok e → P e
  staticCall : ∀ {args : List Expr} {e : Expr} {owner name : String}, (∀ a ∈ args, P a) →
    staticCall owner name args = .ok e → P e
  receiverCall : ∀ {receiver e : Expr} {args : List Expr} {name : String}, P receiver →
    (∀ a ∈ args, P a) → receiverCall receiver name args = .ok e → P e
  record : ∀ {fields : List (Named Expr)}, (∀ field ∈ fields, P field.value) → P (.record fields)

namespace Env.Steps

variable {env : Env} {P : Expr → Prop}

mutual

/-- By the recursion of `QueryText.build`. -/
theorem build (hP : env.Steps P) : ∀ {t : Tree} {scope : List Binder} {seeds : List Ty} {e : Expr},
    QueryText.build env scope seeds t = .ok e → P e
  | .name id, scope, _, e, h => by
    rw [QueryText.build] at h
    split at h <;> cases h
    exact hP.resolve ‹_›
  | .literal l, _, _, e, h => by
    rw [QueryText.build] at h
    obtain ⟨v, hv, hconst⟩ := bind_eq_ok.mp h
    cases hconst
    exact hP.literal hv
  | .paren inner, _, _, e, h => hP.build (t := inner) (by rwa [QueryText.build] at h)
  | .lambda params body, _, _, e, h => by
    rw [QueryText.build] at h
    obtain ⟨b, hb, hlambda⟩ := bind_eq_ok.mp h
    cases hlambda
    exact hP.lambda _ (hP.build hb)
  | .binary op left right, _, _, e, h => by
    rw [QueryText.build] at h
    obtain ⟨l, hl, hrest⟩ := bind_eq_ok.mp h
    obtain ⟨r, hr, hcombine⟩ := bind_eq_ok.mp hrest
    cases hcombine
    exact hP.combine op (hP.build hl) (hP.build hr)
  | .unary .neg operand, _, _, e, h => by
    rw [QueryText.build] at h
    obtain ⟨a, ha, hnegate⟩ := bind_eq_ok.mp h
    cases hnegate
    exact hP.negate (hP.build ha)
  | .unary .not operand, _, _, e, h => by
    rw [QueryText.build] at h
    obtain ⟨a, ha, hnot⟩ := bind_eq_ok.mp h
    cases hnot
    exact hP.not (hP.build ha)
  | .member target name, _, _, e, h => by
    rw [QueryText.build] at h
    obtain ⟨a, ha, hread⟩ := bind_eq_ok.mp h
    exact hP.readMember (hP.build ha) hread
  | .call target name args, _, _, e, h => by
    rcases build_call_eq_ok h with ⟨receiver, built, hreceiver, hbuilt, hcall⟩ |
      ⟨owner, built, hbuilt, hcall⟩
    · exact hP.receiverCall (hP.build hreceiver)
        (hP.buildArgs (List.forall_mem_nil _) hbuilt) hcall
    · exact hP.staticCall (hP.buildArgs (List.forall_mem_nil _) hbuilt) hcall
  | .record fields, _, _, e, h => by
    rw [QueryText.build] at h
    obtain ⟨built, hbuilt, hrecord⟩ := bind_eq_ok.mp h
    cases hrecord
    exact hP.record (hP.buildFields hbuilt)

theorem buildArgs (hP : env.Steps P) : ∀ {ts : List Tree} {scope : List Binder}
    {seeds : List Expr → List Ty} {done es : List Expr}, (∀ e ∈ done, P e) →
      QueryText.buildArgs env scope seeds done ts = .ok es → ∀ e ∈ es, P e
  | [], _, _, _, _, hdone, h => by
    rw [QueryText.buildArgs] at h
    cases h
    exact hdone
  | t :: rest, _, _, _, _, hdone, h => by
    rw [QueryText.buildArgs] at h
    obtain ⟨e, he, hrest⟩ := bind_eq_ok.mp h
    refine hP.buildArgs (List.forall_mem_append.mpr ⟨hdone, ?_⟩) hrest
    exact List.forall_mem_singleton.mpr (hP.build he)

theorem buildFields (hP : env.Steps P) : ∀ {ts : List (Init Tree)} {scope : List Binder}
    {fields : List (Named Expr)}, QueryText.buildFields env scope ts = .ok fields →
      ∀ field ∈ fields, P field.value
  | [], _, _, h => by
    rw [QueryText.buildFields] at h
    cases h
    exact nofun
  | ⟨label, source, t⟩ :: rest, _, _, h => by
    rw [QueryText.buildFields] at h
    obtain ⟨e, he, hrest⟩ := bind_eq_ok.mp h
    cases hname : label.or (fieldName? e) with
    | none =>
      rw [hname] at hrest
      cases hrest
    | some name =>
      rw [hname] at hrest
      obtain ⟨_, -, hbuilt⟩ := bind_eq_ok.mp hrest
      obtain ⟨fields, hfields, hcons⟩ := bind_eq_ok.mp hbuilt
      cases hcons
      exact List.forall_mem_cons.mpr ⟨hP.build he, hP.buildFields hfields⟩

end

theorem parse (hP : env.Steps P) {text : String} {e : Expr}
    (h : QueryText.parse env text = .ok e) : P e := by
  unfold QueryText.parse at h
  split at h
  · exact hP.build h
  · cases h

end Env.Steps

theorem Env.steps_built (env : Env) : env.Steps env.Built where
  resolve := built_resolve?
  literal h := .literal (Literal.isBasic_value h)
  lambda params _ h := .lambda params h
  combine op _ _ hl hr := hl.combine hr op
  negate h := h.negate
  not h := .unary .not h
  readMember h := h.readMember
  staticCall := .staticCall
  receiverCall h := h.receiverCall
  record := .record

theorem built_parse {env : Env} {text : String} {e : Expr} (h : parse env text = .ok e) :
    env.Built e :=
  env.steps_built.parse h

end QueryText

end DeferredQuery
