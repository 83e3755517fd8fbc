import DeferredQuery.Proofs.Sql.Ternary

/-!
# Guarded predicates

What a filter of a statement keeps, as a predicate in the logic of queries. A query takes a
comparison of size with null for false, a statement takes it for unknown. The guarded predicate asks
of each condition in a negation or in a comparison whether it is true, false or unknown.
-/

namespace DeferredQuery

open Sql (keepsValue)

/-! ## Truth values as values -/

namespace BinOp

theorem isLogical_of_isComparison {op : BinOp} (h : op.isComparison = true) :
    op.isLogical = false := by
  cases op <;> first | rfl | cases h

theorem compare_null {op : BinOp} (hop : op.isSize = true) {v u : Value}
    (h : (v.isNull || u.isNull) = true) : op.compare v u = .ok false := by
  cases op with
  | lt | le | gt | ge => simp only [compare, if_pos h]
  | _ => cases hop

theorem compare_size {op : BinOp} (hop : op.isSize = true) {v u : Value} {c : Bool}
    (hnull : (v.isNull || u.isNull) = false) (h : op.compare v u = .ok c) :
    ∃ order, v.compare? u = some order ∧ c = op.accepts order := by
  cases op with
  | lt | le | gt | ge =>
      simp only [compare, hnull] at h
      cases horder : v.compare? u with
      | none => simp [horder] at h
      | some order => exact ⟨order, rfl, by simpa [horder] using h.symm⟩
  | _ => cases hop

/-- The operator that says when a conjunction or a disjunction is true, or false, by its sides being
so. -/
def junction (op : BinOp) (b : Bool) : BinOp := if (op == and) == b then and else or

theorem isLogical_junction (op : BinOp) (b : Bool) : (op.junction b).isLogical = true := by
  unfold junction
  split <;> rfl

theorem junction_of_decided {op : BinOp} (hop : op.isLogical = true) {o : Option Bool} {r : Bool}
    (h : o.bind op.decided? = some r) (b : Bool) :
    (op.junction b).decided? (o == some b) = some (some r == some b) := by
  cases op with
  | and | or =>
      rcases o with _ | _ | _ <;> cases h
      cases b <;> rfl
  | _ => cases hop

theorem junction_of_open {op : BinOp} (hop : op.isLogical = true) {o : Option Bool}
    (h : o.bind op.decided? = none) (p : Option Bool) (b : Bool) :
    ((op.junction b).decided? (o == some b)).getD (p == some b) = (op.kleene o p == some b) := by
  cases op with
  | and | or =>
      rcases o with _ | _ | _ <;> cases h <;> rcases p with _ | _ | _ <;> cases b <;> rfl
  | _ => cases hop

/-- A comparison in three-valued logic and the one in the query: the same but for the unknown, which
the query takes for false. -/
theorem applyTernary_comparison {op : BinOp} (hop : op.isComparison = true) {v u w : Value}
    (hw : op.applyTernary v u = .ok w) :
    ∃ o c, w = .ofTernary o ∧ op.compare v u = .ok c ∧ (c = (o == some true)) ∧
      (op.isSize = false → (!c) = (o == some false)) ∧
      (op.isSize = true → (!v.isNull && !u.isNull && !c) = (o == some false)) := by
  unfold applyTernary at hw
  cases hnull : op.isSize && (v.isNull || u.isNull) with
  | true =>
      rw [hnull] at hw
      cases hw
      obtain ⟨hsize, hnull⟩ := (Bool.and_eq_true _ _).mp hnull
      refine ⟨none, false, rfl, compare_null hsize hnull, rfl, by simp [hsize], fun _ => ?_⟩
      cases hv : v.isNull with
      | true => rfl
      | false =>
          rw [hv, Bool.false_or] at hnull
          simp [hnull]
  | false =>
      rw [hnull, if_neg (by decide), apply, if_pos hop] at hw
      obtain ⟨c, hc, hpure⟩ := bind_eq_ok.mp hw
      cases hpure
      refine ⟨some c, c, rfl, hc, by simp, fun _ => by simp, fun hsize => ?_⟩
      rw [hsize, Bool.true_and, Bool.or_eq_false_iff] at hnull
      simp [hnull]

end BinOp

namespace Value

theorem looseEq_ofTernary (o p : Option Bool) :
    (ofTernary o).looseEq (ofTernary p) = (o == p) := by
  rcases o with _ | _ | _ <;> rcases p with _ | _ | _ <;> simp [ofTernary, looseEq, same]

theorem looseEq_comm_ofTernary (v : Value) (o : Option Bool) :
    v.looseEq (ofTernary o) = (ofTernary o).looseEq v := by
  rcases o with _ | b <;> cases v <;> simp [ofTernary, looseEq, same, Bool.beq_comm]

theorem looseEq_bool_iff {v : Value} {b : Bool} : v.looseEq (.bool b) = true ↔ v = .bool b := by
  cases v <;> simp [looseEq, same]

theorem looseEq_null_eq_isNull (v : Value) : v.looseEq (ofTernary none) = v.isNull := by
  cases v <;> simp [ofTernary, looseEq, same, isNull]

theorem ternary_eq_ok {v : Value} {o : Option Bool} : v.ternary = .ok o ↔ v = ofTernary o := by
  constructor
  · intro h
    cases v <;> cases h <;> rfl
  · rintro rfl
    cases o <;> rfl

theorem truth_ofTernary (o : Option Bool) : (ofTernary o).truth = .ok (o == some true) := by
  rcases o with _ | _ | _ <;> rfl

/-- Values that compare with a truth value by size are truth values. -/
theorem eq_bool_of_compare? {v w : Value} {o : Option Bool} {order : Ordering}
    (h : v.compare? w = some order) (hv : v.isNull = false) (hw : w.isNull = false)
    (htruth : v = ofTernary o ∨ w = ofTernary o) :
    ∃ a b, v = .bool a ∧ w = .bool b ∧ order = compare a b := by
  have hbool : ∀ {u : Value}, u.isNull = false → u = ofTernary o → ∃ a, u = .bool a := by
    rintro u hu rfl
    cases o with
    | none => cases hu
    | some a => exact ⟨a, rfl⟩
  rcases htruth with htruth | htruth
  · obtain ⟨a, rfl⟩ := hbool hv htruth
    cases w with
    | bool b => exact ⟨a, b, rfl, rfl, (Option.some.inj h).symm⟩
    | null => cases hw
    | _ => simp [compare?, asFloat?] at h
  · obtain ⟨b, rfl⟩ := hbool hw htruth
    cases v with
    | bool a => exact ⟨a, b, rfl, rfl, (Option.some.inj h).symm⟩
    | null => cases hv
    | _ => simp [compare?, asFloat?] at h

end Value

namespace Expr

/-! ## Conditions and their guards -/

/-- A predicate that is made of operands, comparisons and logical operators. -/
inductive Condition : Expr → Prop
  | operand {e : Expr} : e.isOperand = true → Condition e
  | comparison {op : BinOp} {left right : Expr} : op.isComparison = true → Condition left →
    Condition right → Condition (.binary op left right)
  | logical {op : BinOp} {left right : Expr} : op.isLogical = true → Condition left →
    Condition right → Condition (.binary op left right)
  | not {e : Expr} : Condition e → Condition (.unary .not e)
  | convert {e : Expr} {t : Ty} : keepsValue e t = true → Condition e → Condition (.convert e t)

def anyOf : List Expr → Expr
  | [] => .constant (.bool false) .bool
  | e :: rest => .binary .or e (anyOf rest)

def equals (e : Expr) (o : Option Bool) : Expr :=
  .binary .eq e (.constant (.ofTernary o) (Value.ofTernary o).ty)

def notTrue (e : Expr) : Expr := .binary .ne e (.constant (.bool true) .bool)

def operandGives (b : Bool) (e : Expr) : Expr := if b then e else .unary .not e

/-- The predicate that a comparison of operands is true, or that it is false; by size, it is neither
with null. -/
def comparisonGives (b : Bool) (op : BinOp) (left right : Expr) : Expr :=
  if b then .binary op left right
  else if op.isSize then
    .binary .and (.binary .and (notTrue (left.equals none)) (notTrue (right.equals none)))
      (.unary .not (.binary op left right))
  else .unary .not (.binary op left right)

def outcome (e yes no : Expr) (o : Option Bool) : Expr :=
  if e.isOperand then e.equals o
  else
    match o with
    | some true => yes
    | some false => no
    | none => .binary .and (notTrue yes) (notTrue no)

def outcomesGive (b : Bool) (op : BinOp) (left right : Option Bool → Expr) : Expr :=
  let same := anyOf ([some true, some false, none].map fun o => .binary .and (left o) (right o))
  match op with
  | .eq => if b then same else notTrue same
  | .ne => if b then notTrue same else same
  | op =>
    anyOf (([(false, false), (false, true), (true, false), (true, true)].filter
      fun x => op.accepts (compare x.1 x.2) == b).map
        fun x => .binary .and (left (some x.1)) (right (some x.2)))

/-- The predicate that a condition is true in three-valued logic, or that it is false. -/
def gives (b : Bool) : Expr → Expr
  | .unary .not e => gives (!b) e
  | .convert e t => if e.isOperand then operandGives b (.convert e t) else gives b e
  | .binary op left right =>
    if op.isLogical then
      .binary (op.junction b) (gives b left) (gives b right)
    else if op.isComparison then
      if left.isOperand && right.isOperand then comparisonGives b op left right
      else
        outcomesGive b op (outcome left (gives true left) (gives false left))
          (outcome right (gives true right) (gives false right))
    else operandGives b (.binary op left right)
  | e => operandGives b e

/-- The predicate that holds where a filter for the predicate keeps a row. -/
def guarded : Expr → Expr
  | .lambda params body => .lambda params (body.gives true)
  | e => e

/-! ## Predicates that decide -/

def Decides (env : Eval.Env) (scope : Eval.Scope) (e : Expr) (b : Bool) : Prop :=
  ∃ u, Eval.value env scope e = pure u ∧ u.truth = .ok b

section Decides

variable {env : Eval.Env} {scope : Eval.Scope} {l r e : Expr} {a b : Bool}

theorem Decides.of_bool (h : Eval.value env scope e = pure (.bool b)) : Decides env scope e b :=
  ⟨.bool b, h, rfl⟩

/-- The right side is asked for only where the left one does not decide. -/
theorem Decides.logical (op : BinOp) (hop : op.isLogical = true) (hl : Decides env scope l a)
    (hr : op.decided? a = none → Decides env scope r b) :
    Decides env scope (.binary op l r) ((op.decided? a).getD b) := by
  obtain ⟨u, hu, ha⟩ := hl
  refine .of_bool ?_
  rw [Eval.value, if_pos hop, hu, pure_bind, ha]
  cases hdecided : op.decided? a with
  | some c =>
      change (pure a >>= fun a => _) = _
      rw [pure_bind, hdecided]
      rfl
  | none =>
      obtain ⟨v, hv, hb⟩ := hr hdecided
      change (pure a >>= fun a => _) = _
      rw [pure_bind, hdecided]
      dsimp only
      rw [hv, pure_bind, hb]
      rfl

theorem Decides.and (hl : Decides env scope l a) (hr : a = true → Decides env scope r b) :
    Decides env scope (.binary .and l r) (a && b) := by
  have h := Decides.logical .and rfl hl fun hnone => hr (by cases a <;> trivial)
  cases a <;> exact h

theorem Decides.or (hl : Decides env scope l a) (hr : a = false → Decides env scope r b) :
    Decides env scope (.binary .or l r) (a || b) := by
  have h := Decides.logical .or rfl hl fun hnone => hr (by cases a <;> trivial)
  cases a <;> exact h

theorem decides_anyOf {α : Type} {xs : List α} {g : α → Expr} {d : α → Bool}
    (h : ∀ x ∈ xs, Decides env scope (g x) (d x)) :
    Decides env scope (anyOf (xs.map g)) (xs.any d) := by
  induction xs with
  | nil => exact .of_bool rfl
  | cons x xs ih =>
      exact (h x List.mem_cons_self).or fun _ => ih fun y hy => h y (List.mem_cons_of_mem _ hy)

/-- Not being true is decided where being true is. -/
theorem decides_notTrue (h : Decides env scope e b) : Decides env scope (notTrue e) (!b) := by
  obtain ⟨u, hu, hb⟩ := h
  have hsame : u.looseEq (.bool true) = b := by
    cases u with
    | bool c =>
        obtain rfl : c = b := by simpa [Value.truth] using hb
        simp [Value.looseEq, Value.same]
    | null =>
        obtain rfl : false = b := by simpa [Value.truth] using hb
        simp [Value.looseEq, Value.same]
    | _ => cases hb
  refine .of_bool ?_
  rw [notTrue, Eval.value, if_neg (by decide), hu, ← hsame]
  rfl

theorem decides_equals {v : Value} (h : Eval.value env scope e = pure v) (o : Option Bool) :
    Decides env scope (e.equals o) (v.looseEq (.ofTernary o)) := by
  refine .of_bool ?_
  rw [equals, Eval.value, if_neg (by decide), h]
  rfl

end Decides

/-! ## Conditions and their readings -/

/-- What is known of a condition that is read with a value: an operand has the value in the query
too, and of another condition the guards say which truth value it is. -/
structure Reads (env : Eval.Env) (scope : Eval.Scope) (e : Expr) (w : Value) : Prop where
  operand : e.isOperand = true → Eval.value env scope e = pure w
  test : e.isOperand = false →
    ∃ o, w = .ofTernary o ∧ ∀ b, Decides env scope (e.gives b) (o == some b)

section Reads

variable {env : Eval.Env} {scope : Eval.Scope} {e l r : Expr} {w : Value}

/-- The predicates of an operand are about its own value. -/
theorem gives_of_isOperand (h : e.isOperand = true) (b : Bool) : e.gives b = operandGives b e := by
  cases e with
  | convert e t =>
      rw [gives]
      exact if_pos h
  | binary op l r =>
      obtain ⟨⟨hcomparison, hlogical⟩, -⟩ := isOperand_binary h
      rw [gives, hcomparison, hlogical]
      rfl
  | unary op e =>
      obtain ⟨rfl, -⟩ := isOperand_unary h
      rfl
  | _ => rfl

theorem decides_operandGives {o : Option Bool} (h : Eval.value env scope e = pure (.ofTernary o))
    (b : Bool) : Decides env scope (operandGives b e) (o == some b) := by
  cases b with
  | true => exact ⟨_, h, Value.truth_ofTernary o⟩
  | false =>
      have hnot : Eval.value env scope (.unary .not e) = pure (.ofTernary (o.map not)) := by
        rw [Eval.value, h]
        rcases o with _ | _ <;> rfl
      refine ⟨_, hnot, ?_⟩
      rw [Value.truth_ofTernary]
      rcases o with _ | _ | _ <;> rfl

/-- A condition that is read with a truth value gives it. -/
theorem Reads.gives {o : Option Bool} (h : Reads env scope e (.ofTernary o)) (b : Bool) :
    Decides env scope (e.gives b) (o == some b) := by
  cases he : e.isOperand with
  | true =>
      rw [gives_of_isOperand he]
      exact decides_operandGives (h.operand he) b
  | false =>
      obtain ⟨p, hp, hgives⟩ := h.test he
      obtain rfl : o = p := by
        have hsame := Value.looseEq_ofTernary o p
        rw [← hp, Value.looseEq_ofTernary] at hsame
        simpa using hsame.symm
      exact hgives b

/-- The guards for truth and falsehood decide each of the three truth values. -/
theorem Reads.outcome (h : Reads env scope e w) (o : Option Bool) :
    Decides env scope (outcome e (e.gives true) (e.gives false) o) (w.looseEq (.ofTernary o)) := by
  cases he : e.isOperand with
  | true =>
      unfold Expr.outcome
      rw [if_pos he]
      exact decides_equals (h.operand he) o
  | false =>
      obtain ⟨p, rfl, hgives⟩ := h.test he
      unfold Expr.outcome
      rw [he, Value.looseEq_ofTernary]
      rcases o with _ | _ | _
      · have hneither := (decides_notTrue (hgives true)).and fun _ => decides_notTrue (hgives false)
        have hnone : (p == none) = (!(p == some true) && !(p == some false)) := by
          rcases p with _ | _ | _ <;> rfl
        rw [hnone]
        exact hneither
      · exact hgives false
      · exact hgives true

/-- A comparison of operands. -/
theorem decides_comparisonGives {op : BinOp} (hop : op.isComparison = true) {v u : Value}
    (hl : Eval.value env scope l = pure v) (hr : Eval.value env scope r = pure u)
    (hw : op.applyTernary v u = .ok w) :
    ∃ o, w = .ofTernary o ∧ ∀ b, Decides env scope (comparisonGives b op l r) (o == some b) := by
  obtain ⟨o, c, rfl, hcompare, htrue, hfalse, hguarded⟩ := BinOp.applyTernary_comparison hop hw
  have hvalue : Eval.value env scope (.binary op l r) = pure (.bool c) := by
    rw [Eval.value, if_neg (by simp [BinOp.isLogical_of_isComparison hop]), hl, pure_bind, hr,
      pure_bind, BinOp.apply, if_pos hop, hcompare]
    rfl
  have hnot : Decides env scope (.unary .not (.binary op l r)) (!c) := by
    refine .of_bool ?_
    rw [Eval.value, hvalue]
    rfl
  refine ⟨o, rfl, fun b => ?_⟩
  cases b with
  | true => exact htrue ▸ .of_bool hvalue
  | false =>
      rw [comparisonGives, if_neg (by decide)]
      split
      · rename_i hsize
        have hl' := decides_notTrue (decides_equals hl none)
        have hr' := decides_notTrue (decides_equals hr none)
        have hboth := (hl'.and fun _ => hr').and fun _ => hnot
        rw [Value.looseEq_null_eq_isNull, Value.looseEq_null_eq_isNull] at hboth
        exact hguarded hsize ▸ hboth
      · rename_i hsize
        exact hfalse (by simpa using hsize) ▸ hnot

theorem any_looseEq {v u : Value} (htruth : ∃ o, v = .ofTernary o ∨ u = .ofTernary o) :
    ([some true, some false, none].any fun o =>
      v.looseEq (.ofTernary o) && u.looseEq (.ofTernary o)) = v.looseEq u := by
  obtain ⟨o, rfl | rfl⟩ := htruth
  · rw [← Value.looseEq_comm_ofTernary u o]
    rcases o with _ | _ | _ <;> simp [Value.looseEq_ofTernary]
  · rcases o with _ | _ | _ <;> simp [Value.looseEq_ofTernary]

/-- Of the pairs of truth values with some property, one is the pair at hand. -/
theorem any_pair_looseEq (P : Bool × Bool → Bool) (v u : Value) :
    (([(false, false), (false, true), (true, false), (true, true)].filter P).any fun x =>
      v.looseEq (.ofTernary (some x.1)) && u.looseEq (.ofTernary (some x.2))) = true ↔
        ∃ a b, v.looseEq (.bool a) = true ∧ u.looseEq (.bool b) = true ∧ P (a, b) = true := by
  rw [List.any_filter, List.any_eq_true]
  constructor
  · rintro ⟨⟨a, b⟩, -, hx⟩
    simp only [Bool.and_eq_true] at hx
    exact ⟨a, b, hx.2.1, hx.2.2, hx.1⟩
  · rintro ⟨a, b, hv, hu, hP⟩
    refine ⟨(a, b), by cases a <;> cases b <;> simp, ?_⟩
    simp only [Bool.and_eq_true]
    exact ⟨hP, hv, hu⟩

/-- By size a comparison with the unknown is unknown, so both sides have to be known. -/
theorem decides_sizesGive {op : BinOp} (hsize : op.isSize = true) {v u : Value}
    {left right : Option Bool → Expr} (htruth : ∃ o, v = .ofTernary o ∨ u = .ofTernary o)
    (hboth : ∀ o p, Decides env scope (.binary .and (left o) (right p))
      (v.looseEq (.ofTernary o) && u.looseEq (.ofTernary p)))
    (hw : op.applyTernary v u = .ok w) :
    ∃ o, w = .ofTernary o ∧
      ∀ b, Decides env scope (outcomesGive b op left right) (o == some b) := by
  have hgives : ∀ b, ∃ d, Decides env scope (outcomesGive b op left right) d ∧ (d = true ↔
      ∃ p q, v.looseEq (.bool p) = true ∧ u.looseEq (.bool q) = true ∧
        (op.accepts (compare p q) == b) = true) := by
    intro b
    refine ⟨_, ?_, any_pair_looseEq (fun x => op.accepts (compare x.1 x.2) == b) v u⟩
    cases op with
    | lt | le | gt | ge => exact decides_anyOf fun x _ => hboth (some x.1) (some x.2)
    | _ => cases hsize
  unfold BinOp.applyTernary at hw
  rw [hsize, Bool.true_and] at hw
  cases hnull : v.isNull || u.isNull with
  | true =>
      rw [if_pos hnull] at hw
      refine ⟨none, (Except.ok.inj hw).symm, fun b => ?_⟩
      obtain ⟨d, hd, hiff⟩ := hgives b
      have hfalse : d = false := by
        refine Bool.eq_false_iff.mpr fun htrue => ?_
        obtain ⟨p, q, hp, hq, -⟩ := hiff.mp htrue
        rw [Value.looseEq_bool_iff.mp hp, Value.looseEq_bool_iff.mp hq] at hnull
        cases hnull
      rw [hfalse] at hd
      exact hd
  | false =>
      have hcomparison : op.isComparison = true := by cases op <;> first | rfl | cases hsize
      rw [if_neg (by simp [hnull]), BinOp.apply, if_pos hcomparison] at hw
      obtain ⟨c, hc, hpure⟩ := bind_eq_ok.mp hw
      obtain ⟨order, horder, rfl⟩ := BinOp.compare_size hsize hnull hc
      obtain ⟨hv, hu⟩ := Bool.or_eq_false_iff.mp hnull
      obtain ⟨o, ho⟩ := htruth
      obtain ⟨p, q, rfl, rfl, rfl⟩ := Value.eq_bool_of_compare? horder hv hu ho
      refine ⟨some (op.accepts (compare p q)), (Except.ok.inj hpure).symm, fun b => ?_⟩
      obtain ⟨d, hd, hiff⟩ := hgives b
      have hsame : d = (some (op.accepts (compare p q)) == some b) := by
        rw [Bool.eq_iff_iff, hiff, Option.some_beq_some]
        simp [Value.looseEq_bool_iff]
      exact hsame ▸ hd

/-- A comparison one side of which is no operand. -/
theorem decides_outcomesGive {op : BinOp} (hop : op.isComparison = true) {v u : Value}
    {left right : Option Bool → Expr} (htruth : ∃ o, v = .ofTernary o ∨ u = .ofTernary o)
    (hl : ∀ o, Decides env scope (left o) (v.looseEq (.ofTernary o)))
    (hr : ∀ o, Decides env scope (right o) (u.looseEq (.ofTernary o)))
    (hw : op.applyTernary v u = .ok w) :
    ∃ o, w = .ofTernary o ∧
      ∀ b, Decides env scope (outcomesGive b op left right) (o == some b) := by
  have hboth : ∀ o p, Decides env scope (.binary .and (left o) (right p))
      (v.looseEq (.ofTernary o) && u.looseEq (.ofTernary p)) :=
    fun o p => (hl o).and fun _ => hr p
  have hsame : Decides env scope
      (anyOf ([some true, some false, none].map fun o => .binary .and (left o) (right o)))
      (v.looseEq u) := by
    rw [← any_looseEq htruth]
    exact decides_anyOf fun o _ => hboth o o
  cases op with
  | eq =>
      obtain rfl : .bool (v.looseEq u) = w := Except.ok.inj hw
      refine ⟨some (v.looseEq u), rfl, fun b => ?_⟩
      rw [Option.some_beq_some]
      cases b with
      | true => exact (beq_true _).symm ▸ hsame
      | false => exact (beq_false _).symm ▸ decides_notTrue hsame
  | ne =>
      obtain rfl : .bool (!v.looseEq u) = w := Except.ok.inj hw
      refine ⟨some (!v.looseEq u), rfl, fun b => ?_⟩
      rw [Option.some_beq_some]
      cases b with
      | true => exact (beq_true _).symm ▸ decides_notTrue hsame
      | false => exact (beq_false _).trans (Bool.not_not _) ▸ hsame
  | lt | le | gt | ge => exact decides_sizesGive rfl htruth hboth hw
  | _ => cases hop

theorem isOperand_comparison {op : BinOp} (hop : op.isComparison = true) (l r : Expr) :
    (Expr.binary op l r).isOperand = false := by
  simp [isOperand, hop]

theorem isOperand_logical {op : BinOp} (hop : op.isLogical = true) (l r : Expr) :
    (Expr.binary op l r).isOperand = false := by
  simp [isOperand, hop]

/-- A comparison is known where equality decides, or where both sides are known. -/
theorem reads_comparison {op : BinOp} (hop : op.isComparison = true) {v u : Value}
    (hl : Reads env scope l v) (hr : Reads env scope r u) (hw : op.applyTernary v u = .ok w) :
    Reads env scope (.binary op l r) w where
  operand h := nomatch (isOperand_comparison hop l r).symm.trans h
  test _ := by
    simp only [Expr.gives, BinOp.isLogical_of_isComparison hop, hop]
    cases hsides : l.isOperand && r.isOperand with
    | true =>
        obtain ⟨hlo, hro⟩ := (Bool.and_eq_true _ _).mp hsides
        exact decides_comparisonGives hop (hl.operand hlo) (hr.operand hro) hw
    | false =>
        refine decides_outcomesGive hop ?_ hl.outcome hr.outcome hw
        rcases Bool.and_eq_false_iff.mp hsides with h | h
        · obtain ⟨o, ho, -⟩ := hl.test h
          exact ⟨o, .inl ho⟩
        · obtain ⟨o, ho, -⟩ := hr.test h
          exact ⟨o, .inr ho⟩

/-- Negation swaps the predicates for truth and falsehood. -/
theorem reads_not {v : Value} (h : Reads env scope e v) (hw : UnOp.not.apply v = .ok w) :
    Reads env scope (.unary .not e) w where
  operand h := by simp [isOperand] at h
  test _ := by
    obtain ⟨o, rfl, rfl⟩ : ∃ o, v = .ofTernary o ∧ w = .ofTernary (o.map not) := by
      cases v with
      | null => exact ⟨none, rfl, (Except.ok.inj hw).symm⟩
      | bool b => exact ⟨some b, rfl, (Except.ok.inj hw).symm⟩
      | _ => cases hw
    refine ⟨o.map not, rfl, fun b => ?_⟩
    have hsame : (o.map not == some b) = (o == some (!b)) := by
      rcases o with _ | _ | _ <;> cases b <;> rfl
    rw [hsame]
    exact h.gives (!b)

end Reads

section Lowered

open Sql (Term Row RowScope FunctionRule lower lower_binary_eq_ok lower_unary_eq_ok)
open Sql.Reading

variable {rd : Sql.Reading} {rules : List FunctionRule} {env : Eval.Env} {f : Sql.Frame}
  {bound : List String} {rs : RowScope} {scope : Eval.Scope}

/-- The guards of a condition say what the lowered condition is read with. -/
theorem reads_lowered (hscope : ScopeReads rd f bound rs scope)
    (hparams : env.params = some rd.params) (hrs : TableRows rs) {e : Expr} (he : e.Condition)
    (hkeeps : e.Keeps env scope bound) {term : Term} {t : Ty} {w : Value}
    (h : lower ⟨rd.schema, rules⟩ rs e = .ok (.scalar term t))
    (hw : rd.ternary f term = .ok w) : Reads env scope e w := by
  induction he generalizing term t w with
  | operand he =>
      have hvalue := value_operand hscope hparams hrs he hkeeps h
      rw [hw] at hvalue
      exact ⟨fun _ => hvalue, fun hne => absurd (he.symm.trans hne) (by decide)⟩
  | comparison hop _ _ ihl ihr =>
      obtain ⟨a, ta, b, tb, hl, hr, hterm⟩ := lower_binary_eq_ok h
      cases hterm
      rw [ternary, if_neg (by simp [BinOp.isLogical_of_isComparison hop])] at hw
      obtain ⟨v, hv, hw⟩ := bind_eq_ok.mp hw
      obtain ⟨u, hu, hw⟩ := bind_eq_ok.mp hw
      exact reads_comparison hop (ihl (hkeeps.child (by simp [children])) hl hv)
        (ihr (hkeeps.child (by simp [children])) hr hu) hw
  | @logical op l r hop _ _ ihl ihr =>
      obtain ⟨a, ta, b, tb, hl, hr, hterm⟩ := lower_binary_eq_ok h
      cases hterm
      rw [ternary, if_pos hop] at hw
      obtain ⟨v, hv, hw⟩ := bind_eq_ok.mp hw
      obtain ⟨o, ho, hw⟩ := bind_eq_ok.mp hw
      rw [Value.ternary_eq_ok.mp ho] at hv
      have hleft := ihl (hkeeps.child (by simp [children])) hl hv
      refine ⟨fun h => absurd ((isOperand_logical hop l r).symm.trans h) (by decide), fun _ => ?_⟩
      simp only [Expr.gives, hop]
      cases hdecided : o.bind op.decided? with
      -- where the left operand decides the value, its guard decides the guard
      | some c =>
          rw [hdecided] at hw
          refine ⟨some c, (Except.ok.inj hw).symm, fun b => ?_⟩
          have hjunction := BinOp.junction_of_decided hop hdecided b
          have hgives : Decides env scope (.binary (op.junction b) (l.gives b) (r.gives b))
              (((op.junction b).decided? (o == some b)).getD false) :=
            (hleft.gives b).logical _ (op.isLogical_junction b) fun hopen =>
              absurd (hjunction.symm.trans hopen) (by simp)
          rw [hjunction] at hgives
          exact hgives
      | none =>
          rw [hdecided] at hw
          obtain ⟨u, hu, hw⟩ := bind_eq_ok.mp hw
          obtain ⟨p, hp, hw⟩ := bind_eq_ok.mp hw
          rw [Value.ternary_eq_ok.mp hp] at hu
          have hright := ihr (hkeeps.child (by simp [children])) hr hu
          refine ⟨op.kleene o p, (Except.ok.inj hw).symm, fun b => ?_⟩
          rw [← BinOp.junction_of_open hop hdecided p b]
          exact (hleft.gives b).logical _ (op.isLogical_junction b) fun _ => hright.gives b
  | not _ ih =>
      obtain ⟨a, ta, ha, hterm⟩ := lower_unary_eq_ok h
      cases hterm
      rw [ternary] at hw
      obtain ⟨v, hv, hw⟩ := bind_eq_ok.mp hw
      exact reads_not (ih (hkeeps.child (by simp [children])) ha hv) hw
  | @convert e u hkept _ ih =>
      cases he : e.isOperand with
      | true =>
          have hoperand : (Expr.convert e u).isOperand = true := he
          have hvalue := value_operand hscope hparams hrs hoperand hkeeps h
          rw [hw] at hvalue
          exact ⟨fun _ => hvalue, fun hne => absurd (hoperand.symm.trans hne) (by decide)⟩
      | false =>
          rw [lower, if_pos hkept] at h
          have hreads := ih (hkeeps.child (by simp [children])) h hw
          refine ⟨fun hoperand => absurd (he.symm.trans hoperand) (by decide), fun _ => ?_⟩
          obtain ⟨o, ho, hgives⟩ := hreads.test he
          refine ⟨o, ho, fun b => ?_⟩
          rw [gives, if_neg (by simp [he])]
          exact hgives b

end Lowered

/-! ## Predicates without guards -/

def isEquality : Expr → Bool
  | .binary op left right =>
    op.isComparison && !op.isSize && left.isOperand && right.isOperand
  | _ => false

/-- Whether the predicate compares by size only outside of negations, and compares no conditions. -/
def isNullSafe : Expr → Bool
  | .binary op left right =>
    if op.isLogical then left.isNullSafe && right.isNullSafe
    else left.isOperand && right.isOperand
  | .unary .not e => e.isOperand || e.isEquality
  | e => e.isOperand

theorem gives_false_of_isEquality {e : Expr} (h : e.isEquality = true) :
    e.gives false = .unary .not e := by
  cases e with
  | binary op l r =>
      simp only [isEquality, Bool.and_eq_true, Bool.not_eq_true'] at h
      obtain ⟨⟨⟨hcomparison, hsize⟩, hl⟩, hr⟩ := h
      simp [gives, comparisonGives, BinOp.isLogical_of_isComparison hcomparison, hcomparison, hsize,
        hl, hr]
  | _ => cases h

/-- A condition in which the unknown counts as false throughout is its own guard. -/
theorem gives_true_of_isNullSafe {e : Expr} (h : e.isNullSafe = true) : e.gives true = e := by
  induction e with
  | binary op l r ihl ihr =>
      rw [isNullSafe] at h
      split at h
      · rename_i hop
        obtain ⟨hl, hr⟩ := (Bool.and_eq_true _ _).mp h
        have hjunction : op.junction true = op := by
          cases op with
          | and | or => rfl
          | _ => cases hop
        simp [gives, hop, ihl hl, ihr hr, hjunction]
      · rename_i hop
        simp [gives, hop, h, comparisonGives, operandGives]
  | unary op e ih =>
      cases op with
      | neg => exact gives_of_isOperand h true
      | not =>
          rw [isNullSafe, Bool.or_eq_true] at h
          rw [gives]
          rcases h with h | h
          · exact gives_of_isOperand h false
          · exact gives_false_of_isEquality h
  | _ => exact gives_of_isOperand h true

end Expr

/-! ## Filters of tables -/

namespace Sql.Reading

open Eval (Env)

variable {rd : Reading} {rules : List FunctionRule} {env : Env} {f : Frame} {table entity : String}
  {cells : Cells} {params : List Binder} {body : Expr} {term : Term} {o : Option Bool}

/-- A filter keeps the rows on which the guarded predicate is true. -/
theorem condition_eq_true_iff (hparams : env.params = some rd.params)
    (hcells : Named.find? table f = some cells) (hbody : body.Condition)
    (hkeeps : (Expr.lambda params body).KeepsOn env [rd.schema.record entity cells])
    (hterm : lowerLambdaTerm ⟨rd.schema, rules⟩ [.entity table entity] (.lambda params body) =
      .ok term) (ho : rd.condition f term = .ok o) :
    o = some true ↔
      Eval.invoke env [] [rd.schema.record entity cells] (Expr.lambda params body).guarded =
        pure (.bool true) := by
  obtain ⟨t, hrow⟩ := lowerLambdaTerm_eq_ok.mp hterm
  obtain ⟨_, _, hlambda, hlength, hrow⟩ := lowerLambda_eq_ok hrow
  cases hlambda
  obtain ⟨w, hw, hternary⟩ := bind_eq_ok.mp ho
  rw [Value.ternary_eq_ok.mp hternary] at hw
  obtain ⟨x, rfl⟩ := List.length_eq_one_iff.mp hlength
  have hargs : ArgsRead rd f [.entity table entity] [rd.schema.record entity cells] :=
    .cons (by rw [rowValue, hcells]) .nil
  have hscope := scopeReads_scopeOf hargs hlength
  have htables : TableRows [⟨x.name, .entity table entity⟩] := by
    intro name row hfind
    rw [Named.find?_cons] at hfind
    split at hfind <;> cases hfind
    exact ⟨table, entity, rfl⟩
  have hreads := Expr.reads_lowered hscope hparams htables hbody hkeeps hrow hw
  obtain ⟨u, hu, htruth⟩ := hreads.gives true
  have hinvoke : Eval.invoke env [] [rd.schema.record entity cells]
      (Expr.lambda [x] body).guarded = pure u := by
    rw [Expr.guarded, Eval.invoke, if_pos (by rfl)]
    exact hu
  have htrue : u = .bool true ↔ o = some true := by
    cases u with
    | bool b =>
        have hb : b = (o == some true) := by simpa [Value.truth] using htruth
        rw [Value.bool.injEq, hb, beq_iff_eq]
    | null =>
        have hb : false = (o == some true) := by simpa [Value.truth] using htruth
        simpa using beq_eq_false_iff_ne.mp hb.symm
    | _ => cases htruth
  rw [hinvoke, ← htrue]
  constructor
  · rintro rfl
    rfl
  · intro h
    exact (Eval.pure_eq_ok.mp (congrFun h 0)).1

/-- A filter keeps the rows on which the predicate is true if and only if the guards make no
difference on them. They make none where comparisons by size stand outside of negations and of
other comparisons. -/
theorem filter_agrees_iff (hparams : env.params = some rd.params)
    (hcells : Named.find? table f = some cells) (hbody : body.Condition)
    (hkeeps : (Expr.lambda params body).KeepsOn env [rd.schema.record entity cells])
    (hterm : lowerLambdaTerm ⟨rd.schema, rules⟩ [.entity table entity] (.lambda params body) =
      .ok term) (ho : rd.condition f term = .ok o) :
    ((o = some true ↔ Eval.invoke env [] [rd.schema.record entity cells] (.lambda params body) =
        pure (.bool true)) ↔
      (Eval.invoke env [] [rd.schema.record entity cells] (Expr.lambda params body).guarded =
          pure (.bool true) ↔
        Eval.invoke env [] [rd.schema.record entity cells] (.lambda params body) =
          pure (.bool true))) ∧
      (body.isNullSafe = true →
        (o = some true ↔ Eval.invoke env [] [rd.schema.record entity cells] (.lambda params body) =
          pure (.bool true))) := by
  have hguarded := condition_eq_true_iff hparams hcells hbody hkeeps hterm ho
  refine ⟨by rw [hguarded], fun hsafe => ?_⟩
  rw [hguarded, Expr.guarded, Expr.gives_true_of_isNullSafe hsafe]

/-- A row with an age and without a score: the score is not above 5 for the query, which keeps the
row, and unknown for the statement, which drops it. -/
theorem condition_of_no_score :
    let person : Ty := .entity "Person"
    let schema : Schema := Schema.empty.withEntity
      ⟨"Person", "people", [⟨"Age", "Age", .int⟩, ⟨"Score", "Score", .nullable .int⟩]⟩
    let rd : Reading := ⟨schema, fun _ => [], []⟩
    let cells : Cells := fun column => if column = "Age" then .int 36 else .null
    let five : Expr := .convert (.constant (.int 5) .int) (.nullable .int)
    let score : Expr := .member (.parameter "p" person) "Score" (.nullable .int)
    let predicate : Expr := .lambda [⟨"p", person⟩] (.unary .not (.binary .gt score five))
    let term : Term := .unary .not (.binary .gt (.column "t0" "Score") (.literal (.int 5)))
    let env : Env := ⟨some [], none, ⟨fun _ => ⟨0⟩, fun _ => ⟨0, 0⟩⟩⟩
    lowerLambdaTerm ⟨schema, FunctionRule.standard⟩ [.entity "t0" "Person"] predicate = .ok term ∧
      rd.condition [⟨"t0", cells⟩] term = .ok none ∧
      Eval.invoke env [] [schema.record "Person" cells] predicate = pure (.bool true) ∧
      ¬(rd.condition [⟨"t0", cells⟩] term = .ok (some true) ↔
        Eval.invoke env [] [schema.record "Person" cells] predicate = pure (.bool true)) := by
  intro person schema rd cells five score predicate term env
  have hunknown : rd.condition [⟨"t0", cells⟩] term = .ok none := rfl
  have hkept : Eval.invoke env [] [schema.record "Person" cells] predicate = pure (.bool true) :=
    rfl
  refine ⟨rfl, hunknown, hkept, fun h => ?_⟩
  have htrue := h.mpr hkept
  rw [hunknown] at htrue
  cases htrue

/-- A row with an age and without a score, which is not known to be above 5 in either logic. -/
theorem filter_agrees_of_no_score :
    let person : Ty := .entity "Person"
    let schema : Schema := Schema.empty.withEntity
      ⟨"Person", "people", [⟨"Age", "Age", .int⟩, ⟨"Score", "Score", .nullable .int⟩]⟩
    let rd : Reading := ⟨schema, fun _ => [], []⟩
    let cells : Cells := fun column => if column = "Age" then .int 36 else .null
    let five : Expr := .convert (.constant (.int 5) .int) (.nullable .int)
    let score : Expr := .member (.parameter "p" person) "Score" (.nullable .int)
    let age : Expr := .member (.parameter "p" person) "Age" .int
    let body : Expr := .binary .or (.binary .gt score five)
      (.binary .lt (.constant (.int 30) .int) age)
    let env : Env := ⟨some [], none, ⟨fun _ => ⟨0⟩, fun _ => ⟨0, 0⟩⟩⟩
    ∃ term, lowerLambdaTerm ⟨schema, FunctionRule.standard⟩ [.entity "t0" "Person"]
        (.lambda [⟨"p", person⟩] body) = .ok term ∧
      rd.condition [⟨"t0", cells⟩] term = .ok (some true) ∧
      Eval.invoke env [] [schema.record "Person" cells] (.lambda [⟨"p", person⟩] body) =
        pure (.bool true) := by
  intro person schema rd cells five score age body env
  have hcondition : rd.condition [⟨"t0", cells⟩] (.binary .or
      (.binary .gt (.column "t0" "Score") (.literal (.int 5)))
      (.binary .lt (.literal (.int 30)) (.column "t0" "Age"))) = .ok (some true) := rfl
  refine ⟨_, rfl, hcondition, ?_⟩
  have hbody : body.Condition :=
    .logical rfl (.comparison rfl (.operand rfl) (.operand rfl))
      (.comparison rfl (.operand rfl) (.operand rfl))
  have hkeeps : (Expr.lambda [⟨"p", person⟩] body).KeepsOn env [schema.record "Person" cells] := by
    constructor
    · intro operand t hn _ n v k hv
      obtain ⟨rfl, rfl⟩ : operand = .constant (.int 5) .int ∧ t = .nullable .int := by
        simpa [body, five, score, age, Expr.nodes] using hn
      obtain ⟨rfl, -⟩ := Eval.pure_eq_ok.mp hv
      rfl
    · intro name t hn hfree
      obtain ⟨rfl, -⟩ : name = "p" ∧ t = person := by
        simpa [body, five, score, age, Expr.nodes] using hn
      exact absurd List.mem_cons_self hfree
  have hterm : lowerLambdaTerm ⟨rd.schema, FunctionRule.standard⟩ [.entity "t0" "Person"]
      (.lambda [⟨"p", person⟩] body) = .ok (.binary .or
        (.binary .gt (.column "t0" "Score") (.literal (.int 5)))
        (.binary .lt (.literal (.int 30)) (.column "t0" "Age"))) := rfl
  exact ((filter_agrees_iff rfl rfl hbody hkeeps hterm hcondition).2 rfl).mp rfl

end Sql.Reading

end DeferredQuery
