import DeferredQuery.Proofs.Sql.Conversions

/-!
# Conditions in three-valued logic

A condition of a statement is true, false or unknown. A comparison of size with null is unknown,
and so is what depends on it, by Kleene's tables; equality takes null for a value. A filter keeps
the rows on which its condition is true.
-/

namespace DeferredQuery

/-- The truth of a condition with this value; null stands for the unknown. -/
def Value.ternary : Value → Except EvalError (Option Bool)
  | .bool b => .ok (some b)
  | .null => .ok none
  | v => .error (.typeMismatch (.notBool v.ty))

def Value.ofTernary : Option Bool → Value
  | some b => .bool b
  | none => .null

namespace BinOp

def kleene (op : BinOp) (a b : Option Bool) : Option Bool :=
  (a.bind op.decided?).or ((b.bind op.decided?).or (a.bind fun _ => b))

def isSize : BinOp → Bool
  | lt | le | gt | ge => true
  | _ => false

/-- An operator that needs the values of both operands, unknown where it compares null by size. -/
def applyTernary (op : BinOp) (a b : Value) : Except EvalError Value :=
  if op.isSize && (a.isNull || b.isNull) then .ok .null else op.apply a b

end BinOp

namespace Sql

namespace Reading

mutual

/-- The value of a term in three-valued logic. A left operand that decides a conjunction or a
disjunction is enough. -/
def ternary (rd : Reading) (f : Frame) : Term → Except EvalError Value
  | .column table column => rd.value f (.column table column)
  | .parameter name => rd.value f (.parameter name)
  | .literal v => .ok v
  | .function name args _ => do
    let vs ← ternaries rd f args
    callValue name vs
  | .binary op left right =>
    if op.isLogical then do
      let a ← ternary rd f left
      let a ← a.ternary
      match a.bind op.decided? with
      | some r => return .bool r
      | none => do
        let b ← ternary rd f right
        let b ← b.ternary
        return .ofTernary (op.kleene a b)
    else do
      let a ← ternary rd f left
      let b ← ternary rd f right
      op.applyTernary a b
  | .unary op operand => do
    let v ← ternary rd f operand
    op.apply v
  | .cast operand t => do
    let v ← ternary rd f operand
    return v.convert t

def ternaries (rd : Reading) (f : Frame) : List Term → Except EvalError (List Value)
  | [] => .ok []
  | t :: rest => do
    let v ← ternary rd f t
    let vs ← ternaries rd f rest
    return v :: vs

end

def condition (rd : Reading) (f : Frame) (t : Term) : Except EvalError (Option Bool) := do
  let v ← rd.ternary f t
  v.ternary

end Reading

/-! ## Terms without conditions -/

def Term.isPlain : Term → Bool
  | .column .. | .parameter _ | .literal _ => true
  | .function .. => false
  | .binary op left right =>
    !op.isComparison && !op.isLogical && left.isPlain && right.isPlain
  | .unary op operand => op == .neg && operand.isPlain
  | .cast operand _ => operand.isPlain

/-- Null spreads through arithmetic in both logics alike. -/
theorem Reading.ternary_of_isPlain {rd : Reading} {f : Frame} {t : Term} (h : t.isPlain = true) :
    rd.ternary f t = rd.value f t := by
  induction t with
  | column | parameter => rw [ternary]
  | literal v => rfl
  | function name args t => cases h
  | binary op left right ihl ihr =>
      simp only [Term.isPlain, Bool.and_eq_true, Bool.not_eq_true'] at h
      obtain ⟨⟨⟨hcomparison, hlogical⟩, hl⟩, hr⟩ := h
      have hsize : op.isSize = false := by cases op <;> first | rfl | cases hcomparison
      simp [ternary, value, hlogical, ihl hl, ihr hr, BinOp.applyTernary, hsize]
  | unary op operand ih =>
      simp only [Term.isPlain, Bool.and_eq_true] at h
      rw [ternary, value, ih h.2]
  | cast operand t ih => rw [ternary, value, ih h]

end Sql

/-! ## Operands -/

namespace Expr

/-- Whether the expression is made of columns, placeholders, literals, conversions and arithmetic
alone. -/
def isOperand : Expr → Bool
  | .constant .. | .parameter .. | .member (.parameter ..) .. => true
  | .convert operand _ => operand.isOperand
  | .binary op left right =>
    !op.isComparison && !op.isLogical && left.isOperand && right.isOperand
  | .unary op operand => op == .neg && operand.isOperand
  | _ => false

theorem isOperand_binary {op : BinOp} {left right : Expr}
    (h : (Expr.binary op left right).isOperand = true) :
    (op.isComparison = false ∧ op.isLogical = false) ∧
      left.isOperand = true ∧ right.isOperand = true := by
  simpa [isOperand, and_assoc] using h

theorem isOperand_unary {op : UnOp} {operand : Expr}
    (h : (Expr.unary op operand).isOperand = true) : op = .neg ∧ operand.isOperand = true := by
  simpa [isOperand] using h

theorem callFree_of_isOperand {e : Expr} (h : e.isOperand = true) : e.CallFree := by
  induction e with
  | constant | parameter => intro m r args t hn; simp [nodes] at hn
  | member target name t ih =>
      cases target with
      | parameter => intro m r args t hn; simp [nodes] at hn
      | _ => cases h
  | convert operand t ih =>
      intro m r args u hn
      have hoperand : Expr.call m r args u ∈ operand.nodes := by simpa [nodes] using hn
      exact ih h m r args u hoperand
  | binary op left right ihl ihr =>
      obtain ⟨-, hl, hr⟩ := isOperand_binary h
      intro m r args u hn
      have hcases : Expr.call m r args u ∈ left.nodes ∨ Expr.call m r args u ∈ right.nodes := by
        simpa [nodes] using hn
      exact hcases.elim (ihl hl m r args u) (ihr hr m r args u)
  | unary op operand ih =>
      intro m r args u hn
      have hoperand : Expr.call m r args u ∈ operand.nodes := by simpa [nodes] using hn
      exact ih (isOperand_unary h).2 m r args u hoperand
  | _ => cases h

variable {env : Eval.Env} {scope : Eval.Scope} {bound : List String}

theorem value_convert_eq {e : Expr} {t : Ty}
    (h : ∀ n v k, Eval.value env scope e n = .ok (v, k) → v.convert t = v) :
    Eval.value env scope (.convert e t) = Eval.value env scope e := by
  funext n
  rw [Eval.value]
  change (Eval.value env scope e n >>= fun x => .ok (x.1.convert t, x.2)) = _
  cases hv : Eval.value env scope e n with
  | error err => rfl
  | ok x =>
      obtain ⟨v, k⟩ := x
      change Except.ok (v.convert t, k) = .ok (v, k)
      rw [h n v k hv]

theorem value_lowered_parameter {name : String} {t : Ty}
    (h : (Expr.parameter name t).Keeps env scope bound) :
    Eval.value env scope ((Expr.parameter name t).lowered bound) =
      Eval.value env scope (.parameter name t) := by
  rw [lowered]
  split
  · rfl
  · rename_i hname
    obtain ⟨hbound, htype⟩ := not_or.mp hname
    rw [Bool.not_eq_true, Option.isNone_eq_false_iff] at htype
    refine value_convert_eq fun n v k hv => ?_
    exact h.placeholder name t (self_mem_nodes _) hbound htype v (Eval.lift_eq_ok.mp hv).1

/-- An operand has the value of the expression that a statement holds for it. -/
theorem value_lowered {e : Expr} (h : e.isOperand = true) (hkeeps : e.Keeps env scope bound) :
    Eval.value env scope (e.lowered bound) = Eval.value env scope e := by
  induction e with
  | constant v t => rfl
  | parameter name t => exact value_lowered_parameter hkeeps
  | member target name t =>
      cases target with
      | parameter name' t' =>
          have htarget := value_lowered_parameter
            (hkeeps.child (c := .parameter name' t') (by simp [children]))
          have hmember : ((Expr.parameter name' t').lowered bound).memberOf name t =
              .member ((Expr.parameter name' t').lowered bound) name t := by
            rw [lowered]
            split <;> rfl
          rw [lowered, hmember, Eval.value, Eval.value, htarget]
      | _ => cases h
  | convert operand t ih =>
      have hoperand := ih h (hkeeps.child (by simp [children]))
      rw [lowered]
      split
      · rename_i hkept
        rw [hoperand, value_convert_eq (hkeeps.conversion operand t (self_mem_nodes _) hkept)]
      · rw [Eval.value, Eval.value, hoperand]
  | binary op left right ihl ihr =>
      obtain ⟨-, hl, hr⟩ := isOperand_binary h
      rw [lowered, Eval.value, Eval.value, ihl hl (hkeeps.child (by simp [children])),
        ihr hr (hkeeps.child (by simp [children]))]
  | unary op operand ih =>
      rw [lowered, Eval.value, Eval.value,
        ih (isOperand_unary h).2 (hkeeps.child (by simp [children]))]
  | _ => cases h

end Expr

namespace Sql.Reading

open Eval (Env)

def TableRows (rs : RowScope) : Prop :=
  ∀ name row, Named.find? name rs = some row → ∃ table entity, row = .entity table entity

inductive PlainRow : Row → Prop
  | entity (table entity : String) : PlainRow (.entity table entity)
  | scalar {term : Term} (t : Ty) : term.isPlain = true → PlainRow (.scalar term t)

theorem PlainRow.term {u : Term} {t : Ty} (h : PlainRow (.scalar u t)) : u.isPlain = true := by
  cases h with
  | scalar _ hplain => exact hplain

theorem isPlain_placeholder (name : String) (t : Ty) : (placeholder name t).isPlain = true := by
  unfold placeholder
  split <;> rfl

theorem plainRow_parameter {ctx : Context} {rs : RowScope} (hrs : TableRows rs) {name : String}
    {t : Ty} {row : Row} (h : lower ctx rs (.parameter name t) = .ok row) : PlainRow row := by
  rcases lower_parameter_eq_ok h with hfind | ⟨-, rfl⟩
  · obtain ⟨table, entity, rfl⟩ := hrs name row hfind
    exact .entity table entity
  · exact .scalar t (isPlain_placeholder name t)

/-- Over rows of tables, operands are lowered to terms without conditions. -/
theorem plainRow_of_lower {ctx : Context} {rs : RowScope} (hrs : TableRows rs) {e : Expr}
    (he : e.isOperand = true) {row : Row} (h : lower ctx rs e = .ok row) : PlainRow row := by
  induction e generalizing row with
  | constant v t =>
      rw [lower_constant_eq_ok h]
      exact .scalar t rfl
  | parameter name t => exact plainRow_parameter hrs h
  | member target name t =>
      cases target with
      | parameter name' t' =>
          obtain ⟨found, hfound, hmember⟩ := lower_member_eq_ok h
          cases plainRow_parameter hrs hfound with
          | entity table entity =>
              obtain ⟨p, -, hcolumn⟩ := bind_eq_ok.mp hmember
              cases hcolumn
              exact .scalar t rfl
          | scalar => cases hmember
      | _ => cases he
  | convert operand t ih =>
      rcases lower_convert_eq_ok h with ⟨-, h⟩ | ⟨-, u, tu, hu, rfl⟩
      · exact ih he h
      · exact .scalar t (ih he hu).term
  | binary op left right ihl ihr =>
      obtain ⟨⟨hcomparison, hlogical⟩, hl, hr⟩ := Expr.isOperand_binary he
      obtain ⟨u, tu, v, tv, hu, hv, rfl⟩ := lower_binary_eq_ok h
      refine .scalar _ ?_
      simp [Term.isPlain, hcomparison, hlogical, (ihl hl hu).term, (ihr hr hv).term]
  | unary op operand ih =>
      obtain ⟨rfl, hoperand⟩ := Expr.isOperand_unary he
      obtain ⟨u, tu, hu, rfl⟩ := lower_unary_eq_ok h
      exact .scalar _ (ih hoperand hu).term
  | _ => cases he

variable {rd : Reading} {rules : List FunctionRule} {env : Env} {f : Frame} {bound : List String}
  {rs : RowScope} {scope : Eval.Scope}

/-- An operand has one value in both logics, and it is the one of the query. -/
theorem value_operand (hscope : ScopeReads rd f bound rs scope)
    (hparams : env.params = some rd.params) (hrs : TableRows rs) {e : Expr}
    (he : e.isOperand = true) (hkeeps : e.Keeps env scope bound) {term : Term} {t : Ty}
    (h : lower ⟨rd.schema, rules⟩ rs e = .ok (.scalar term t)) :
    Eval.value env scope e = liftM (rd.ternary f term) := by
  have hplain : term.isPlain = true := (plainRow_of_lower hrs he h).term
  have hlowered := denotes_lowered hscope hparams (Expr.callFree_of_isOperand he) h
  rw [← Expr.value_lowered he hkeeps, hlowered.value_eq, rowValue, ternary_of_isPlain hplain]

end Sql.Reading

end DeferredQuery
