import DeferredQuery.Proofs.Eval.Alike

/-!
# Arithmetic on whole numbers

Terms of whole numbers are evaluated as over the integers. Evaluation ends at the first node, in
the order of evaluation, that divides by zero or whose number does not fit into 64 bits. The
remainder of the least number by minus one, which is zero, counts as not fitting: it is refused
with its quotient.
-/

namespace DeferredQuery

namespace Checked

def Fits (n : Int) : Prop := least ≤ n ∧ n ≤ greatest

instance : DecidablePred Fits := fun n => inferInstanceAs (Decidable (least ≤ n ∧ n ≤ greatest))

theorem fits_toInt (a : Int64) : Fits a.toInt := by
  have hlow := a.le_toInt
  have hhigh := a.toInt_lt
  simp only [Fits, least, greatest]
  omega

theorem toInt_ofInt {n : Int} (hn : Fits n) : (Int64.ofInt n).toInt = n := by
  simp only [Fits, least, greatest] at hn
  exact Int64.toInt_ofInt_of_le hn.1 (by omega)

theorem ofInt_eq_zero_iff {n : Int} (hn : Fits n) : Int64.ofInt n = 0 ↔ n = 0 := by
  rw [← Int64.toInt_inj, toInt_ofInt hn]
  exact Iff.rfl

theorem fit?_eq (n : Int) : fit? n = if Fits n then some (Int64.ofInt n) else none := rfl

/-- The quotient of two 64-bit numbers is one, but for that of the least number by minus one. -/
theorem fits_tdiv_iff {a b : Int} (ha : Fits a) (hb : b ≠ 0) :
    Fits (a.tdiv b) ↔ ¬(a = least ∧ b = -1) := by
  simp only [Fits, least, greatest] at *
  have habs := Int.natAbs_tdiv a b
  rcases (by omega : b = 1 ∨ b = -1 ∨ 2 ≤ b.natAbs) with rfl | rfl | htwo
  · rw [Int.tdiv_one]
    omega
  · rw [Int.tdiv_neg, Int.tdiv_one]
    omega
  · have hhalf : a.natAbs / b.natAbs ≤ a.natAbs / 2 := Nat.div_le_div_left htwo (by decide)
    change _ = a.natAbs / b.natAbs at habs
    omega

/-- The remainder of two 64-bit numbers is one. -/
theorem fits_tmod {a : Int} (ha : Fits a) (b : Int) : Fits (a.tmod b) := by
  have hle : (a.tmod b).natAbs ≤ a.natAbs := by
    rw [Int.natAbs_tmod]
    exact Nat.mod_le _ _
  simp only [Fits, least, greatest] at *
  rcases Int.le_total 0 a with hsign | hsign
  · have hrest := Int.tmod_nonneg b hsign
    omega
  · have hrest := Int.tmod_nonneg b (Int.neg_nonneg_of_nonpos hsign)
    rw [Int.neg_tmod] at hrest
    omega

end Checked

open Checked (Fits least)

/-! ## Terms -/

inductive WholeOp where
  | add
  | sub
  | mul
  | div
  | mod
deriving DecidableEq

namespace WholeOp

def binOp : WholeOp → BinOp
  | add => .add
  | sub => .sub
  | mul => .mul
  | div => .div
  | mod => .mod

/-- The result over the integers. Division is toward zero, and a remainder has the sign of the
dividend. -/
def exact : WholeOp → Int → Int → Int
  | add => (· + ·)
  | sub => (· - ·)
  | mul => (· * ·)
  | div => Int.tdiv
  | mod => Int.tmod

def DividesByZero (op : WholeOp) (b : Int) : Prop := (op = div ∨ op = mod) ∧ b = 0

def IsLeastByMinusOne (op : WholeOp) (a b : Int) : Prop := op = mod ∧ a = least ∧ b = -1

instance (op : WholeOp) (b : Int) : Decidable (op.DividesByZero b) :=
  inferInstanceAs (Decidable (_ ∧ _))

instance (op : WholeOp) (a b : Int) : Decidable (op.IsLeastByMinusOne a b) :=
  inferInstanceAs (Decidable (_ ∧ _))

variable {op : WholeOp} {a b : Int}

/-- Checked arithmetic answers with the exact result, where that fits. -/
theorem onInts_eq (ha : Fits a) (hb : Fits b) (hzero : ¬op.DividesByZero b) :
    op.binOp.onInts (.ofInt a) (.ofInt b) =
      if Fits (op.exact a b) ∧ ¬op.IsLeastByMinusOne a b then some (.ofInt (op.exact a b))
      else none := by
  have hplain : op ≠ mod → ¬op.IsLeastByMinusOne a b := fun hop h => hop h.1
  cases op with
  | add | sub | mul | div =>
      simp only [binOp, BinOp.onInts, Checked.add, Checked.sub, Checked.mul, Checked.div,
        Checked.toInt_ofInt ha, Checked.toInt_ofInt hb, Checked.fit?_eq, exact, hplain nofun,
        not_false_eq_true, and_true]
  | mod =>
      have hb0 : b ≠ 0 := fun h => hzero ⟨.inr rfl, h⟩
      have hrest := Checked.fits_tmod ha b
      have hquotient := Checked.fits_tdiv_iff ha hb0
      have hends : mod.IsLeastByMinusOne a b ↔ ¬Fits (a.tdiv b) := by
        rw [hquotient, Decidable.not_not]
        exact ⟨And.right, fun h => ⟨rfl, h⟩⟩
      simp only [binOp, BinOp.onInts, Checked.rem, Checked.toInt_ofInt ha, Checked.toInt_ofInt hb,
        Checked.fit?_eq, exact, hends, Decidable.not_not, hrest, true_and, if_true]
      by_cases h : Fits (a.tdiv b)
      · simp only [if_pos h, Option.bind_some]
      · simp only [if_neg h, Option.bind_none]

end WholeOp

inductive WholeTerm where
  | const (n : Int64) (ty : Ty)
  | neg (operand : WholeTerm)
  | abs (operand : WholeTerm) (ty : Ty)
  | binary (op : WholeOp) (left right : WholeTerm)

namespace WholeTerm

def expr : WholeTerm → Expr
  | const n t => .constant (.int n) t
  | neg e => .unary .neg e.expr
  | abs e t => .call ⟨"Math", "Abs"⟩ none [e.expr] t
  | binary op l r => .binary op.binOp l.expr r.expr

def exact : WholeTerm → Int
  | const n _ => n.toInt
  | neg e => -e.exact
  | abs e _ => e.exact.natAbs
  | binary op l r => op.exact l.exact r.exact

/-- All subterms in the order of evaluation: operands from the left, then what is made of them. -/
def nodes : WholeTerm → List WholeTerm
  | const n t => [const n t]
  | neg e => e.nodes ++ [neg e]
  | abs e t => e.nodes ++ [abs e t]
  | binary op l r => l.nodes ++ r.nodes ++ [binary op l r]

def DividesByZero : WholeTerm → Prop
  | binary op _ r => op.DividesByZero r.exact
  | _ => False

def IsLeastByMinusOne : WholeTerm → Prop
  | binary op l r => op.IsLeastByMinusOne l.exact r.exact
  | _ => False

instance : DecidablePred DividesByZero
  | const .. | neg _ | abs .. => inferInstanceAs (Decidable False)
  | binary op _ r => inferInstanceAs (Decidable (op.DividesByZero r.exact))

instance : DecidablePred IsLeastByMinusOne
  | const .. | neg _ | abs .. => inferInstanceAs (Decidable False)
  | binary op l r => inferInstanceAs (Decidable (op.IsLeastByMinusOne l.exact r.exact))

def symbol : WholeTerm → String
  | const .. => ""
  | neg _ => BinOp.sub.symbol
  | abs .. => "Abs"
  | binary op _ _ => op.binOp.symbol

/-- The error of the last operation, if the operands have their numbers. -/
def fault (t : WholeTerm) : Option EvalError :=
  if t.DividesByZero then some .divisionByZero
  else if Fits t.exact ∧ ¬t.IsLeastByMinusOne then none
  else some (.overflow t.symbol)

def result (t : WholeTerm) : Except EvalError Value :=
  match t.fault with
  | none => .ok (.int (.ofInt t.exact))
  | some e => .error e

/-- The error of the first faulty node, or the number of the term. -/
def outcome (t : WholeTerm) : Except EvalError Value :=
  match t.nodes.findSome? fault with
  | none => .ok (.int (.ofInt t.exact))
  | some e => .error e

variable {t : WholeTerm}

theorem fits_of_fault (h : t.fault = none) : Fits t.exact := by
  unfold fault at h
  split at h
  · cases h
  · split at h
    · rename_i hfits
      exact hfits.1
    · cases h

theorem mem_nodes (t : WholeTerm) : t ∈ t.nodes := by
  cases t <;> simp [nodes]

/-- A term has the error of its operands, or else the result of its last operation. -/
theorem outcome_eq {before : List WholeTerm} (hnodes : t.nodes = before ++ [t]) :
    t.outcome = match before.findSome? fault with
      | none => t.result
      | some e => .error e := by
  rw [outcome, hnodes, List.findSome?_append]
  cases before.findSome? fault with
  | none => simp only [Option.none_or, List.findSome?_singleton, result]
  | some e => rfl

/-- A term has an error or a number that fits. -/
theorem outcome_cases (t : WholeTerm) :
    (∃ e, t.nodes.findSome? fault = some e ∧ t.outcome = .error e) ∨
      t.nodes.findSome? fault = none ∧ t.outcome = .ok (.int (.ofInt t.exact)) ∧
        Fits t.exact := by
  unfold outcome
  cases h : t.nodes.findSome? fault with
  | some e => exact .inl ⟨e, rfl, rfl⟩
  | none =>
      have hfault := List.findSome?_eq_none_iff.mp h t t.mem_nodes
      exact .inr ⟨rfl, rfl, fits_of_fault hfault⟩

/-! ## Evaluation -/

theorem result_of_zero (h : t.DividesByZero) : t.result = .error .divisionByZero := by
  rw [result, fault, if_pos h]

theorem result_of_fits (hzero : ¬t.DividesByZero)
    (hfits : Fits t.exact ∧ ¬t.IsLeastByMinusOne) : t.result = .ok (.int (.ofInt t.exact)) := by
  rw [result, fault, if_neg hzero, if_pos hfits]

theorem result_of_not_fits (hzero : ¬t.DividesByZero)
    (hfits : ¬(Fits t.exact ∧ ¬t.IsLeastByMinusOne)) :
    t.result = .error (.overflow t.symbol) := by
  rw [result, fault, if_neg hzero, if_neg hfits]

theorem apply_neg {e : WholeTerm} (he : Fits e.exact) :
    UnOp.neg.apply (.int (.ofInt e.exact)) = (neg e).result := by
  have hneg : Checked.neg (.ofInt e.exact) =
      if Fits (neg e).exact then some (.ofInt (neg e).exact) else none := by
    rw [Checked.neg, Checked.toInt_ofInt he, Checked.fit?_eq, exact]
  by_cases hfits : Fits (neg e).exact
  · rw [result_of_fits id ⟨hfits, id⟩, UnOp.apply, hneg, if_pos hfits]
  · rw [result_of_not_fits id fun h => hfits h.1, UnOp.apply, hneg, if_neg hfits]
    rfl

theorem apply_abs {e : WholeTerm} (ty : Ty) (he : Fits e.exact) :
    Method.apply ⟨"Math", "Abs"⟩ none [.int (.ofInt e.exact)] = (abs e ty).result := by
  have habs : Checked.abs (.ofInt e.exact) =
      if Fits (abs e ty).exact then some (.ofInt (abs e ty).exact) else none := by
    rw [Checked.abs, Checked.toInt_ofInt he, Checked.fit?_eq, exact]
  by_cases hfits : Fits (abs e ty).exact
  · rw [result_of_fits id ⟨hfits, id⟩]
    simp only [Method.apply, habs, if_pos hfits]
  · rw [result_of_not_fits id fun h => hfits h.1]
    simp only [Method.apply, habs, if_neg hfits]
    rfl

/-- On operands with numbers of 64 bits the operators give what is specified. -/
theorem apply_binary {op : WholeOp} {l r : WholeTerm} (hl : Fits l.exact) (hr : Fits r.exact) :
    op.binOp.apply (.int (.ofInt l.exact)) (.int (.ofInt r.exact)) = (binary op l r).result := by
  have harithmetic : op.binOp.apply (.int (.ofInt l.exact)) (.int (.ofInt r.exact)) =
      op.binOp.arithmetic (.int (.ofInt l.exact)) (.int (.ofInt r.exact)) := by
    cases op <;> rfl
  have hzero : (op.binOp = .div ∨ op.binOp = .mod) ∧ Int64.ofInt r.exact = 0 ↔
      (binary op l r).DividesByZero := by
    rw [Checked.ofInt_eq_zero_iff hr]
    cases op <;> simp [WholeOp.binOp, DividesByZero, WholeOp.DividesByZero]
  rw [harithmetic, BinOp.arithmetic]
  by_cases hdivides : (binary op l r).DividesByZero
  · rw [if_pos (hzero.mpr hdivides), result_of_zero hdivides]
  · rw [if_neg (mt hzero.mp hdivides), WholeOp.onInts_eq hl hr hdivides]
    by_cases hfits : Fits (op.exact l.exact r.exact) ∧ ¬op.IsLeastByMinusOne l.exact r.exact
    · rw [result_of_fits hdivides hfits, if_pos hfits]
      rfl
    · rw [result_of_not_fits hdivides hfits, if_neg hfits]
      rfl

/-- A term over one operand has the error of that operand, or else what is made of its number. -/
theorem outcome_of_operand {e : WholeTerm} {f : Value → Except EvalError Value}
    (hnodes : t.nodes = e.nodes ++ [t])
    (hf : Fits e.exact → f (.int (.ofInt e.exact)) = t.result) : t.outcome = e.outcome >>= f := by
  rw [outcome_eq hnodes]
  rcases e.outcome_cases with ⟨err, hfault, houtcome⟩ | ⟨hfault, houtcome, hfits⟩
  · rw [hfault, houtcome]
    rfl
  · rw [hfault, houtcome]
    exact (hf hfits).symm

/-- The left operand is evaluated first, then the right one, then the operator. -/
theorem outcome_binary (op : WholeOp) (l r : WholeTerm) :
    (binary op l r).outcome =
      l.outcome >>= fun a => r.outcome >>= fun b => op.binOp.apply a b := by
  have hnodes : (binary op l r).nodes = (l.nodes ++ r.nodes) ++ [binary op l r] := rfl
  rw [outcome_eq hnodes, List.findSome?_append]
  rcases l.outcome_cases with ⟨err, hfault, houtcome⟩ | ⟨hfault, houtcome, hfits⟩
  · rw [hfault, houtcome]
    rfl
  · rw [hfault, houtcome, Option.none_or]
    rcases r.outcome_cases with ⟨err, hfault', houtcome'⟩ | ⟨hfault', houtcome', hfits'⟩
    · rw [hfault', houtcome']
      rfl
    · rw [hfault', houtcome']
      exact (apply_binary hfits hfits').symm

/-- The value of a term, whatever it is evaluated over. -/
theorem value_expr (env : Eval.Env) (scope : Eval.Scope) (t : WholeTerm) :
    Eval.value env scope t.expr = liftM t.outcome := by
  induction t with
  | const n ty =>
      have hnodes : (const n ty).nodes = [] ++ [const n ty] := rfl
      have hresult : (const n ty).result = .ok (.int (.ofInt n.toInt)) :=
        result_of_fits id ⟨Checked.fits_toInt n, id⟩
      rw [outcome_eq hnodes, List.findSome?_nil, hresult, Int64.ofInt_toInt]
      rfl
  | neg e ih =>
      have houtcome : (neg e).outcome = e.outcome >>= UnOp.neg.apply :=
        outcome_of_operand rfl apply_neg
      rw [expr, Eval.value, ih, Eval.lift_bind_lift, houtcome]
  | abs e ty ih =>
      have houtcome : (abs e ty).outcome =
          e.outcome >>= fun v => Method.apply ⟨"Math", "Abs"⟩ none [v] :=
        outcome_of_operand rfl (apply_abs ty)
      have hcall : ∀ v, env.call ⟨"Math", "Abs"⟩ none [v] =
          liftM (Method.apply ⟨"Math", "Abs"⟩ none [v]) := fun _ => rfl
      rw [expr, Eval.value, if_neg (by decide)]
      simp only [Eval.values, bind_assoc, pure_bind, hcall]
      rw [ih, Eval.lift_bind_lift, houtcome]
  | binary op l r ihl ihr =>
      have hlogical : op.binOp.isLogical = false := by cases op <;> rfl
      have hright : ∀ a, (liftM r.outcome >>= fun b => liftM (op.binOp.apply a b) :
          Eval.EvalM Value) = liftM (r.outcome >>= fun b => op.binOp.apply a b) :=
        fun _ => Eval.lift_bind_lift _ _
      rw [expr, Eval.value, if_neg (by simp [hlogical]), ihl, ihr]
      simp only [hright]
      rw [Eval.lift_bind_lift, outcome_binary]

/-! ## Faults -/

/-- The last operation divides by zero, its number over the integers does not fit, or it is the
remainder of the least number by minus one. -/
def Fails (t : WholeTerm) : Prop := t.DividesByZero ∨ ¬Fits t.exact ∨ t.IsLeastByMinusOne

/-- Division by zero is noticed before a number that does not fit. -/
theorem fault_eq_some_iff {e : EvalError} :
    t.fault = some e ↔ t.DividesByZero ∧ e = .divisionByZero ∨
      ¬t.DividesByZero ∧ (¬Fits t.exact ∨ t.IsLeastByMinusOne) ∧ e = .overflow t.symbol := by
  have hfits : (Fits t.exact ∧ ¬t.IsLeastByMinusOne) ↔
      ¬(¬Fits t.exact ∨ t.IsLeastByMinusOne) := by
    rw [not_or, Decidable.not_not]
  unfold fault
  by_cases hzero : t.DividesByZero
  · simp only [hzero, if_true, Option.some.injEq, true_and, not_true_eq_false, false_and, or_false]
    exact eq_comm
  · by_cases hover : ¬Fits t.exact ∨ t.IsLeastByMinusOne
    · simp only [hzero, hfits, hover, not_true_eq_false, if_false, Option.some.injEq, false_and,
        not_false_eq_true, true_and, false_or]
      exact eq_comm
    · simp only [hzero, hfits, hover, not_false_eq_true, if_true, if_false, reduceCtorEq, false_and,
        and_false, or_false]

theorem fault_eq_none_iff : t.fault = none ↔ ¬t.Fails := by
  rw [Option.eq_none_iff_forall_ne_some]
  constructor
  · rintro h (hzero | hover)
    · exact h _ (fault_eq_some_iff.mpr (.inl ⟨hzero, rfl⟩))
    · by_cases hzero : t.DividesByZero
      · exact h _ (fault_eq_some_iff.mpr (.inl ⟨hzero, rfl⟩))
      · exact h _ (fault_eq_some_iff.mpr (.inr ⟨hzero, hover, rfl⟩))
  · intro h e he
    rcases fault_eq_some_iff.mp he with ⟨hzero, -⟩ | ⟨-, hover, -⟩
    · exact h (.inl hzero)
    · exact h (.inr hover)

/-- There is a result exactly if no node fails, and it is then the exact number. -/
theorem outcome_eq_ok_iff {v : Value} :
    t.outcome = .ok v ↔ (∀ x ∈ t.nodes, ¬x.Fails) ∧ ∃ n, v = .int n ∧ n.toInt = t.exact := by
  have hnone : t.nodes.findSome? fault = none ↔ ∀ x ∈ t.nodes, ¬x.Fails := by
    simp only [List.findSome?_eq_none_iff, fault_eq_none_iff]
  rw [← hnone]
  rcases t.outcome_cases with ⟨e, hfault, houtcome⟩ | ⟨hfault, houtcome, hfits⟩
  · simp [hfault, houtcome]
  · rw [houtcome, hfault]
    constructor
    · rintro ⟨⟩
      exact ⟨rfl, _, rfl, Checked.toInt_ofInt hfits⟩
    · rintro ⟨-, n, rfl, hn⟩
      rw [← hn, Int64.ofInt_toInt]

theorem outcome_eq_error_iff {e : EvalError} :
    t.outcome = .error e ↔
      ∃ before x after, t.nodes = before ++ x :: after ∧ (∀ y ∈ before, ¬y.Fails) ∧
        x.fault = some e := by
  have hfirst : t.outcome = .error e ↔ t.nodes.findSome? fault = some e := by
    rcases t.outcome_cases with ⟨e', hfault, houtcome⟩ | ⟨hfault, houtcome, -⟩
    · simp [hfault, houtcome]
    · simp [hfault, houtcome]
  rw [hfirst, List.findSome?_eq_some_iff]
  simp only [fault_eq_none_iff, and_comm (b := ∀ y ∈ _, ¬Fails y)]

/-- A term is evaluated to its number over the integers exactly if no node fails. Otherwise the
first node to fail, in the order of evaluation, decides the error: a division by zero if it is one,
and else an overflow. -/
theorem evaluate_whole (env : Eval.Env) (t : WholeTerm) (k : Nat) :
    (∀ v j, Eval.evaluate env t.expr k = .ok (v, j) ↔
      (∀ x ∈ t.nodes, ¬x.Fails) ∧ (∃ n, v = .int n ∧ n.toInt = t.exact) ∧ j = k) ∧
    ∀ e, Eval.evaluate env t.expr k = .error e ↔
      ∃ before x after, t.nodes = before ++ x :: after ∧ (∀ y ∈ before, ¬y.Fails) ∧
        (x.DividesByZero ∧ e = .divisionByZero ∨
          ¬x.DividesByZero ∧ (¬Fits x.exact ∨ x.IsLeastByMinusOne) ∧ e = .overflow x.symbol) := by
  have hvalue : Eval.evaluate env t.expr k = t.outcome.map fun v => (v, k) := by
    rw [Eval.evaluate, value_expr]
    cases t.outcome <;> rfl
  rw [hvalue]
  constructor
  · intro v j
    rw [← and_assoc, ← outcome_eq_ok_iff]
    cases t.outcome <;> simp [Except.map, eq_comm]
  · intro e
    simp only [← fault_eq_some_iff]
    rw [← outcome_eq_error_iff]
    cases t.outcome <;> simp [Except.map]

/-- The remainder of the least number by minus one is zero, and evaluation refuses it. -/
theorem remainder_of_least :
    let t := binary .mod (const Int64.minValue .int) (const (-1) .int)
    (∀ x ∈ t.nodes, ¬x.DividesByZero ∧ Fits x.exact) ∧ t.exact = 0 ∧
      Eval.evaluate (.closed ⟨fun _ => ⟨0⟩, fun _ => ⟨0, 0⟩⟩) t.expr 0 =
        .error (.overflow "%") := by
  refine ⟨by decide, by decide, rfl⟩

end WholeTerm

end DeferredQuery
