import DeferredQuery.Plan.Key
import DeferredQuery.Proofs.Eval.Alike
import DeferredQuery.Proofs.Shape.Parts

/-!
# Captured values do not reach the shape

Two queries that are the same but for the values captured in their closures are extracted in step:
the same parts are replaced, under the same names. A captured value shows in the shape by its type
alone, where it needs a conversion.
-/

namespace DeferredQuery

open Eval (Oracle)

/-! ## Blank queries -/

/-- The value with all that a closure captured blanked out. The names and the declared types of the
captured variables stay. -/
def Value.blank : Value → Value
  | .closure className captures =>
    .closure className (captures.map fun c => ⟨c.name, c.ty, .null⟩)
  | v => v

theorem Value.text_blank (v : Value) : v.blank.text = v.text := by
  cases v <;> simp [blank, text]

namespace Expr

mutual

def blank : Expr → Expr
  | .constant v t => .constant v.blank t
  | .parameter name t => .parameter name t
  | .member target name t => .member target.blank name t
  | .call m none args t => .call m none (blankList args) t
  | .call m (some receiver) args t => .call m (some receiver.blank) (blankList args) t
  | .lambda params body => .lambda params body.blank
  | .convert operand t => .convert operand.blank t
  | .binary op left right => .binary op left.blank right.blank
  | .unary op operand => .unary op operand.blank
  | .record fields => .record (blankFields fields)
  | .volatile inner => .volatile inner.blank

def blankList : List Expr → List Expr
  | [] => []
  | e :: rest => e.blank :: blankList rest

def blankFields : List (Named Expr) → List (Named Expr)
  | [] => []
  | ⟨name, e⟩ :: rest => ⟨name, e.blank⟩ :: blankFields rest

end

theorem blankList_eq_map (es : List Expr) : blankList es = es.map blank := by
  induction es with
  | nil => rfl
  | cons e es ih => simp [blankList, ih]

theorem blankFields_eq_map (fields : List (Named Expr)) :
    blankFields fields = fields.map fun field => ⟨field.name, field.value.blank⟩ := by
  induction fields with
  | nil => rfl
  | cons field fields ih => simp [blankFields, ih]

@[simp] theorem blank_call (m : Method) (r : Option Expr) (args : List Expr) (t : Ty) :
    (Expr.call m r args t).blank = .call m (r.map blank) (args.map blank) t := by
  cases r <;> simp [blank, blankList_eq_map]

theorem blank_of_not_isConstant {e : Expr} (h : Extract.isConstant e = false) :
    e.blank = e.withChildren (e.children.map blank) := by
  cases e with
  | constant v t => cases h
  | call m r args t => cases r <;> simp [children, withChildren]
  | record fields => rw [blank, blankFields_eq_map, children, withChildren, withValues_map]
  | _ => rfl

theorem withChildren_of_isConstant {e : Expr} (h : Extract.isConstant e = true)
    (ss : List Expr) : e.withChildren ss = e := by
  cases e with
  | constant v t => rfl
  | _ => cases h

theorem children_blank (e : Expr) : e.blank.children = e.children.map blank := by
  cases e with
  | constant v t => rfl
  | _ => rw [blank_of_not_isConstant rfl, children_withChildren (by simp)]

theorem lookalike_blank (e : Expr) : e.Lookalike e.blank := by
  induction e using induction_on_children with
  | step e ih =>
      cases e with
      | constant v t => exact ⟨rfl, v.text_blank.symm⟩
      | _ =>
          rw [blank_of_not_isConstant rfl]
          exact (nodeRel_map ih).lookalike

@[simp] theorem ty_blank (e : Expr) : e.blank.ty = e.ty := (lookalike_blank e).ty.symm

theorem isLambda_blank (e : Expr) : e.blank.isLambda = e.isLambda := by
  cases e with
  | call m r args t => rw [blank_call]; rfl
  | _ => rfl

/-- The expressions are the same but for what their closures captured. -/
def Twins (e e' : Expr) : Prop := e.blank = e'.blank

end Expr

/-! ## Which parts, and their names -/

namespace Extract

theorem isConstant_blank (e : Expr) : isConstant e.blank = isConstant e := by
  cases e with
  | call m r args t => rw [Expr.blank_call]; rfl
  | _ => rfl

theorem isTag_blank (e : Expr) : e.blank.isTag = e.isTag := by
  cases e with
  | call m r args t => rw [Expr.blank_call]; rfl
  | _ => rfl

theorem isOpen_blank (e : Expr) : e.blank.isOpen = e.isOpen := by
  cases e with
  | call m r args t => rw [Expr.blank_call]; rfl
  | _ => rfl

theorem analyze_blank (e : Expr) : Closedness.analyze e.blank = .analyze e := by
  induction e using Expr.induction_on_children with
  | step e ih =>
      have hchildren : e.blank.children.map (closedness e.blank.isTag) =
          e.children.map (closedness e.isTag) := by
        rw [Expr.children_blank, isTag_blank, List.map_map]
        refine List.map_congr_left fun c hc => ?_
        simp only [Function.comp_apply, closedness, ih c hc]
      rw [analyze_eq, analyze_eq e, isOpen_blank, hchildren]

theorem stripLift_blank (e : Expr) : stripLift e.blank = (stripLift e).blank := by
  cases e with
  | call m r args t =>
      rw [Expr.blank_call]
      exact (Expr.blank_call m r args t).symm
  | convert operand t =>
      simp only [Expr.blank, stripLift, lifts, Expr.ty_blank]
      exact (apply_ite Expr.blank _ operand (.convert operand t)).symm
  | _ => rfl

theorem eligible_blank (e : Expr) (c : Closedness) : eligible e.blank c = eligible e c := by
  rw [eligible, eligible, Expr.isLambda_blank, stripLift_blank, isConstant_blank, Expr.ty_blank]

def partName : Expr → Option String
  | .member target name _ =>
    match partName target with
    | some p => some (p ++ "_" ++ name)
    | none => some name
  | .constant .. => none
  | .call m .. => some m.name
  | .convert operand t => if lifts operand t then partName operand else some "p"
  | _ => some "p"

theorem partName_blank (e : Expr) : partName e.blank = partName e := by
  induction e with
  | member _ _ _ ih => simp [Expr.blank, partName, ih]
  | call m r args t =>
      rw [Expr.blank_call]
      rfl
  | convert operand t ih => simp [Expr.blank, partName, lifts, ih]
  | _ => rfl

end Extract

namespace Expr.Twins

variable {e e' : Expr}

theorem lookalike (h : e.Twins e') : e.Lookalike e' := by
  have hblank := lookalike_blank e'
  rw [← show e.blank = e'.blank from h] at hblank
  exact ⟨(lookalike_blank e).ty.trans hblank.ty.symm,
    (lookalike_blank e).text.trans hblank.text.symm⟩

theorem children (h : e.Twins e') : List.Forall₂ Twins e.children e'.children := by
  have hmap : e.children.map blank = e'.children.map blank := by
    rw [← children_blank, show e.blank = e'.blank from h, children_blank]
  rwa [← List.forall₂_eq_eq_eq, List.forall₂_map_left_iff, List.forall₂_map_right_iff] at hmap

/-- What does not look at captured values is the same of twins. -/
theorem eq_of_blank {α : Type} {f : Expr → α} (hf : ∀ e, f e.blank = f e) (h : e.Twins e') :
    f e = f e' := by
  rw [← hf e, show e.blank = e'.blank from h, hf]

/-- Twins that are no constants are one node with twins for children. -/
theorem eq_withChildren (h : e.Twins e') (he : Extract.isConstant e = false) :
    e' = e.withChildren e'.children := by
  have he' : Extract.isConstant e' = false := h.eq_of_blank Extract.isConstant_blank ▸ he
  calc
    e' = e'.withChildren e'.children := e'.withChildren_children.symm
    _ = e'.blank.withChildren e'.children := by
      rw [blank_of_not_isConstant he', withChildren_withChildren (by simp) (by simp)]
    _ = e.blank.withChildren e'.children := by rw [show e.blank = e'.blank from h]
    _ = e.withChildren e'.children := by
      rw [blank_of_not_isConstant he,
        withChildren_withChildren (by simp) (by simp [h.children.length_eq])]

/-- Twins stay alike with other children that are. -/
theorem lookalike_withChildren (h : e.Twins e') {ss ss' : List Expr}
    (hlength : e.children.length = ss.length) (hss : List.Forall₂ Lookalike ss ss') :
    (e.withChildren ss).Lookalike (e'.withChildren ss') := by
  cases he : Extract.isConstant e with
  | true =>
      have he' : Extract.isConstant e' = true := h.eq_of_blank Extract.isConstant_blank ▸ he
      rw [withChildren_of_isConstant he, withChildren_of_isConstant he']
      exact h.lookalike
  | false =>
      have hnode : (e.withChildren ss).NodeRel Lookalike
          ((e.withChildren ss).withChildren ss') := by
        refine nodeRel_withChildren ?_
        rwa [children_withChildren hlength]
      rw [withChildren_withChildren hlength hss.length_eq] at hnode
      rw [h.eq_withChildren he, withChildren_withChildren h.children.length_eq
        (h.children.length_eq.symm.trans (hlength.trans hss.length_eq))]
      exact hnode.lookalike

end Expr.Twins

namespace Extract

theorem name_of_compute {oracle : Oracle} {e : Expr} {v : Value} {name name' : Option String}
    {n k : Nat} (h : (compute oracle e >>= fun w => pure (w, name')) n = .ok ((v, name), k)) :
    name = name' := by
  obtain ⟨w, j, -, hpure⟩ := Eval.bind_eq_ok.mp h
  obtain ⟨hpair, -⟩ := Eval.pure_eq_ok.mp hpure
  exact (Prod.mk.inj hpair).2.symm

/-- The name of a part is the same whatever the value is. -/
theorem name_of_valueOf {oracle : Oracle} {e : Expr} {v : Value} {name : Option String} {n k : Nat}
    (h : valueOf oracle e n = .ok ((v, name), k)) : name = partName e := by
  induction e generalizing v name n k with
  | constant w t =>
      obtain ⟨hpair, -⟩ := Eval.pure_eq_ok.mp h
      exact (Prod.mk.inj hpair).2.symm
  | member target field t ih =>
      obtain ⟨⟨w, path⟩, j, htarget, hrest⟩ := Eval.bind_eq_ok.mp h
      obtain rfl := ih htarget
      have hname : some (match partName target with
          | some p => p ++ "_" ++ field
          | none => field) = partName (.member target field t) := by
        rw [partName]
        cases partName target <;> rfl
      dsimp only at hrest
      cases hstored : w.storedMember field with
      | ok u =>
          rw [hstored] at hrest
          obtain ⟨hpair, -⟩ := Eval.pure_eq_ok.mp hrest
          exact (Prod.mk.inj hpair).2.symm.trans hname
      | error err =>
          rw [hstored] at hrest
          exact (name_of_compute hrest).trans hname
  | convert operand t ih =>
      rw [valueOf] at h
      rw [partName]
      split at h
      · rename_i hl
        rw [if_pos hl]
        exact ih h
      · rename_i hl
        rw [if_neg hl]
        exact name_of_compute h
  | _ => exact name_of_compute h

/-! ## Two extractions in step -/

/-- The types of the values themselves, whatever types they are declared with. -/
def valueTys (b : Bindings) : List Ty := b.map fun x => x.value.ty

/-- From equally many values bound, the two computations bind the same names behind them. Where the
values bound have the same types too, the results are related. -/
def InStep {α : Type} (m m' : ExtractM α) (Q : α → α → Prop) : Prop :=
  ∀ s s' a a' u u', s.params.length = s'.params.length → m.run s = (.ok a, u) →
    m'.run s' = (.ok a', u') →
      ∃ added added' : Bindings, u.params = s.params ++ added ∧ u'.params = s'.params ++ added' ∧
        added.names = added'.names ∧ (valueTys added = valueTys added' → Q a a')

section InStep

variable {α β : Type} {m m' : ExtractM α} {f f' : α → ExtractM β} {Q : α → α → Prop}
  {R : β → β → Prop}

theorem InStep.pure {a a' : α} (h : Q a a') : InStep (Pure.pure a) (Pure.pure a') Q := by
  rintro s s' _ _ _ _ - ⟨⟩ ⟨⟩
  exact ⟨[], [], (List.append_nil _).symm, (List.append_nil _).symm, rfl, fun _ => h⟩

/-- What is bound by the second computation follows what the first one bound. -/
theorem InStep.bind (hm : InStep m m' Q)
    (hf : ∀ a a', InStep (f a) (f' a') fun b b' => Q a a' → R b b') :
    InStep (m >>= f) (m' >>= f') R := by
  intro s s' b b' w w' hlength hrun hrun'
  obtain ⟨a, u, hu, hw⟩ := run_bind_eq_ok.mp hrun
  obtain ⟨a', u', hu', hw'⟩ := run_bind_eq_ok.mp hrun'
  obtain ⟨xs, xs', hxs, hxs', hnames, hQ⟩ := hm s s' a a' u u' hlength hu hu'
  have hcount : xs.length = xs'.length := by
    simpa [Bindings.names] using congrArg List.length hnames
  obtain ⟨ys, ys', hys, hys', hnames', hR⟩ :=
    hf a a' u u' b b' w w' (by simp [hxs, hxs', hlength, hcount]) hw hw'
  refine ⟨xs ++ ys, xs' ++ ys', by simp [hys, hxs], by simp [hys', hxs'], ?_, fun htys => ?_⟩
  · simp only [Bindings.names, List.map_append] at hnames hnames' ⊢
    rw [hnames, hnames']
  · simp only [valueTys, List.map_append] at htys
    obtain ⟨hx, hy⟩ := List.append_inj htys (by simp [hcount])
    exact hR hy (hQ hx)

end InStep

theorem isNull_iff {v : Value} : v.isNull = true ↔ v.ty = .null := by
  cases v <;> simp [Value.isNull, Value.ty]

/-- A captured value shows in the node in its place by its type alone. -/
theorem placeholderNode_eq {name : String} {v v' : Value} {t : Ty} (h : v.ty = v'.ty) :
    placeholderNode name v t = placeholderNode name v' t := by
  have hnull : v.isNull = v'.isNull := by
    rw [Bool.eq_iff_iff, isNull_iff, isNull_iff, h]
  rw [placeholderNode, placeholderNode, hnull, h]

variable {oracle oracle' : Oracle}

/-- Twins are bound under one name, whatever their values. -/
theorem inStep_bind {e e' : Expr} (h : e.Twins e') :
    InStep (Extract.bind oracle e) (Extract.bind oracle' e') Expr.Lookalike := by
  intro s s' a a' u u' hlength hrun hrun'
  simp only [Extract.bind, ExceptT.run_mk] at hrun hrun'
  split at hrun
  · cases hrun
  split at hrun'
  · cases hrun'
  rename_i v name k hvalue _ v' name' k' hvalue'
  cases hrun
  cases hrun'
  have hname : name = name' := by
    rw [name_of_valueOf hvalue, name_of_valueOf hvalue', h.eq_of_blank partName_blank]
  refine ⟨_, _, rfl, rfl, by simp [Bindings.names, hname, hlength], fun htys => ?_⟩
  have hty : v.ty = v'.ty := by simpa [valueTys] using htys
  rw [hname, hlength, h.lookalike.ty, placeholderNode_eq hty]
  exact ⟨rfl, rfl⟩

theorem InStep.mapM {f f' : Expr → ExtractM Expr} {es es' : List Expr}
    (h : ∀ e ∈ es, ∀ e', e.Twins e' → InStep (f e) (f' e') Expr.Lookalike)
    (hes : List.Forall₂ Expr.Twins es es') :
    InStep (es.mapM f) (es'.mapM f') fun ss ss' =>
      es.length = ss.length ∧ List.Forall₂ Expr.Lookalike ss ss' := by
  induction hes with
  | nil => exact .pure ⟨rfl, .nil⟩
  | @cons e e' es es' he _ ih =>
      rw [List.mapM_cons, List.mapM_cons]
      refine (h e List.mem_cons_self e' he).bind fun s s' => ?_
      refine (ih fun e he => h e (List.mem_cons_of_mem _ he)).bind fun ss ss' => ?_
      exact .pure fun hss hs => ⟨congrArg (· + 1) hss.1, .cons hs hss.2⟩

/-- Twins are replaced together, or else have children that are visited in step. -/
theorem inStep_visit {e e' : Expr} (h : e.Twins e') (tagged : Bool) :
    InStep (visit oracle (closedness tagged e) e) (visit oracle' (closedness tagged e') e')
      Expr.Lookalike := by
  induction e using Expr.induction_on_children generalizing e' tagged with
  | step e ih =>
      have hpart : (!tagged && eligible e (.analyze e)) =
          (!tagged && eligible e' (.analyze e')) := by
        rw [h.eq_of_blank (f := (eligible · (.analyze e))) fun e' => eligible_blank e' _,
          h.eq_of_blank analyze_blank]
      cases hkept : (!tagged && eligible e (.analyze e)) with
      | true =>
          rw [visit_of_replaced _ hkept, visit_of_replaced _ (hpart.symm.trans hkept)]
          exact inStep_bind h
      | false =>
          rw [visit_of_kept _ hkept, visit_of_kept _ (hpart.symm.trans hkept),
            ← h.eq_of_blank isTag_blank]
          refine (InStep.mapM (fun c hc c' hcc' => ih c hc hcc' e.isTag) h.children).bind
            fun ss ss' => .pure fun hss => ?_
          exact h.lookalike_withChildren hss.1 hss.2

/-- The extractions of two queries that are the same but for what their closures captured bind the
same names in the same order. Where the values that they bind have the same types as well, the
shapes have one text, and so their plans one key. -/
theorem extract_twins {e e' : Expr} (h : e.Twins e') {s s' u u' : State} {shape shape' : Expr}
    (hlength : s.params.length = s'.params.length)
    (hrun : (extract oracle e).run s = (.ok shape, u))
    (hrun' : (extract oracle' e').run s' = (.ok shape', u')) :
    ∃ added added' : Bindings, u.params = s.params ++ added ∧ u'.params = s'.params ++ added' ∧
      added.names = added'.names ∧
      (valueTys added = valueTys added' → shape.text = shape'.text ∧
        ∀ schema mode, PlanKey.ofShape schema mode shape = PlanKey.ofShape schema mode shape') := by
  obtain ⟨added, added', hadded, hadded', hnames, hlook⟩ :=
    inStep_visit h false s s' shape shape' u u' hlength hrun hrun'
  refine ⟨added, added', hadded, hadded', hnames, fun htys => ?_⟩
  have htext := (hlook htys).text
  exact ⟨htext, fun schema mode => by rw [PlanKey.ofShape, PlanKey.ofShape, htext]⟩

/-- People above an age that the query captured, once 30 and once 41. -/
theorem extract_twins_of_ages :
    let people : Expr := .constant (.query ⟨"Person", "people"⟩) (.queryable (.entity "Person"))
    let age : Expr := .member (.parameter "p" (.entity "Person")) "Age" .int
    let captured (n : Int64) : Expr :=
      .member (.constant (.closure "Scope" [⟨"min", .int, .int n⟩]) (.closure "Scope")) "min" .int
    let where_ (n : Int64) : Expr := .call (.operator "Where") none
      [people, .lambda [⟨"p", .entity "Person"⟩] (.binary .gt age (captured n))]
      (.queryable (.entity "Person"))
    let clock : Oracle := ⟨fun _ => ⟨0⟩, fun _ => ⟨0, 0⟩⟩
    (where_ 30).Twins (where_ 41) ∧ ∃ shape shape' u u',
      (extract clock (where_ 30)).run ⟨[], 0⟩ = (.ok shape, u) ∧
      (extract clock (where_ 41)).run ⟨[], 0⟩ = (.ok shape', u') ∧
      u.params.names = u'.params.names ∧ shape.text = shape'.text := by
  intro people age captured where_ clock
  have htwins : (where_ 30).Twins (where_ 41) := rfl
  let shape : Expr := .call (.operator "Where") none
    [people, .lambda [⟨"p", .entity "Person"⟩] (.binary .gt age (.parameter "__min_0" .int))]
    (.queryable (.entity "Person"))
  have hrun : ∀ n, (extract clock (where_ n)).run ⟨[], 0⟩ =
      (.ok shape, ⟨[⟨"__min_0", .int n⟩], 0⟩) := fun n => rfl
  refine ⟨htwins, shape, shape, _, _, hrun 30, hrun 41, ?_⟩
  obtain ⟨added, added', hadded, hadded', hnames, hsame⟩ :=
    extract_twins htwins rfl (hrun 30) (hrun 41)
  rw [List.nil_append] at hadded hadded'
  refine ⟨by rw [hadded, hadded', hnames], (hsame ?_).1⟩
  rw [← hadded, ← hadded']
  rfl

end Extract

end DeferredQuery
