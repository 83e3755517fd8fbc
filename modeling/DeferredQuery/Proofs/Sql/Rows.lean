import DeferredQuery.Proofs.Eval.Alike
import DeferredQuery.Sql.Row
import Mathlib.Data.List.Forall2

/-!
# Lowering backwards

What the operands of an expression were lowered to, given the row that the expression was lowered
to. Operands that have to be single terms are said to be rows of one term.
-/

namespace DeferredQuery.Sql

variable {ctx : Context} {scope : RowScope} {row : Row} {e : Expr} {term : Term} {t : Ty}

theorem asScalar_eq_ok : row.asScalar = .ok term ↔ ∃ t, row = .scalar term t := by
  constructor
  · intro h
    cases row with
    | scalar u t =>
        cases h
        exact ⟨t, rfl⟩
    | entity | record => cases h
  · rintro ⟨t, rfl⟩
    rfl

theorem bind_asScalar_eq_ok {x : Except Error Row} :
    (x >>= Row.asScalar) = .ok term ↔ ∃ t, x = .ok (.scalar term t) := by
  simp only [bind_eq_ok, asScalar_eq_ok]
  constructor
  · rintro ⟨row, hrow, t, rfl⟩
    exact ⟨t, hrow⟩
  · rintro ⟨t, h⟩
    exact ⟨_, h, t, rfl⟩

theorem lowerTerm_eq_ok :
    lowerTerm ctx scope e = .ok term ↔ ∃ t, lower ctx scope e = .ok (.scalar term t) :=
  bind_asScalar_eq_ok

/-! ## Rules -/

namespace FunctionRule

/-- The rules for the scalar methods of query texts make functions of operands, with a cast where a
type is asked for. -/
theorem standard_eq_some {rule : FunctionRule} (hrule : rule ∈ standard) {c : ScalarCall}
    (h : rule c = some term) :
    ∃ name args ty, args ⊆ c.receiver.toList ++ c.args ∧
      (term = .function name args ty ∨ ∃ ty', term = .cast (.function name args ty) ty') := by
  simp only [standard, List.mem_cons, List.not_mem_nil, or_false] at hrule
  rcases hrule with rfl | rfl | rfl | rfl
  · unfold power at h
    split at h <;> cases h
    exact ⟨_, _, _, List.subset_append_right _ _, .inl rfl⟩
  · unfold absolute at h
    split at h <;> cases h
    exact ⟨_, _, _, List.subset_append_right _ _, .inl rfl⟩
  · unfold text at h
    split at h <;> cases h
    rename_i receiver name hreceiver hname
    exact ⟨_, _, _, by simp [hreceiver], .inl rfl⟩
  · unfold volatile at h
    split at h
    · cases h
      exact ⟨_, _, _, List.nil_subset _, .inl rfl⟩
    · split at h <;> cases h
      exact ⟨_, _, _, List.nil_subset _, .inr ⟨_, rfl⟩⟩

end FunctionRule

/-! ## Members -/

theorem property_eq_ok {entity name : String} {p : Property}
    (h : ctx.property entity name = .ok p) :
    ∃ e, ctx.schema.entities.get? entity = some e ∧ e.property? name = some p := by
  unfold Context.property at h
  split at h
  · rename_i q hq
    cases h
    exact Option.bind_eq_some_iff.mp hq
  · cases h

/-- A member is a column of a row of a table, or a part of a row built on the spot. -/
theorem member_eq_ok {name : String} {found : Row} (h : ctx.member row name t = .ok found) :
    (∃ table entity p, row = .entity table entity ∧ ctx.property entity name = .ok p ∧
      found = .scalar (.column table p.column) t) ∨
    ∃ rows, row = .record rows ∧ Named.find? name rows = some found := by
  cases row with
  | entity table entity =>
      obtain ⟨p, hp, h⟩ := bind_eq_ok.mp h
      cases h
      exact .inl ⟨table, entity, p, rfl, hp, rfl⟩
  | scalar => cases h
  | record rows =>
      rw [Context.member] at h
      split at h
      · rename_i found' hfind
        cases h
        exact .inr ⟨rows, rfl, hfind⟩
      · cases h

/-! ## One node -/

theorem lower_constant_eq_ok {v : Value} (h : lower ctx scope (.constant v t) = .ok row) :
    row = .scalar (.literal v) t := by
  cases v <;> cases h <;> rfl

/-- A parameter stands for the row in scope, or else it becomes a placeholder. -/
theorem lower_parameter_eq_ok {name : String}
    (h : lower ctx scope (.parameter name t) = .ok row) :
    Named.find? name scope = some row ∨
      Named.find? name scope = none ∧ row = .scalar (placeholder name t) t := by
  rw [lower] at h
  cases hfind : Named.find? name scope with
  | some found =>
      rw [hfind] at h
      cases h
      exact .inl rfl
  | none =>
      rw [hfind] at h
      cases h
      exact .inr ⟨rfl, rfl⟩

theorem lower_member_eq_ok {target : Expr} {name : String}
    (h : lower ctx scope (.member target name t) = .ok row) :
    ∃ found, lower ctx scope target = .ok found ∧ ctx.member found name t = .ok row :=
  bind_eq_ok.mp h

/-- A conversion is left out, or it is a cast. -/
theorem lower_convert_eq_ok {operand : Expr}
    (h : lower ctx scope (.convert operand t) = .ok row) :
    keepsValue operand t = true ∧ lower ctx scope operand = .ok row ∨
      keepsValue operand t = false ∧ ∃ u tu, lower ctx scope operand = .ok (.scalar u tu) ∧
        row = .scalar (.cast u t) t := by
  rw [lower] at h
  split at h
  · exact .inl ⟨‹_›, h⟩
  · obtain ⟨found, hfound, h⟩ := bind_eq_ok.mp h
    obtain ⟨u, hu, h⟩ := bind_eq_ok.mp h
    obtain ⟨tu, rfl⟩ := asScalar_eq_ok.mp hu
    cases h
    exact .inr ⟨Bool.eq_false_iff.mpr ‹_›, u, tu, hfound, rfl⟩

/-- Both operands of an operator are single terms. -/
theorem lower_binary_eq_ok {op : BinOp} {left right : Expr}
    (h : lower ctx scope (.binary op left right) = .ok row) :
    ∃ u tu v tv, lower ctx scope left = .ok (.scalar u tu) ∧
      lower ctx scope right = .ok (.scalar v tv) ∧
      row = .scalar (.binary op u v) (op.resultTy left.ty right.ty) := by
  rw [lower] at h
  split at h
  · cases h
  · obtain ⟨l, hl, h⟩ := bind_eq_ok.mp h
    obtain ⟨u, hu, h⟩ := bind_eq_ok.mp h
    obtain ⟨r, hr, h⟩ := bind_eq_ok.mp h
    obtain ⟨v, hv, h⟩ := bind_eq_ok.mp h
    obtain ⟨tu, rfl⟩ := asScalar_eq_ok.mp hu
    obtain ⟨tv, rfl⟩ := asScalar_eq_ok.mp hv
    cases h
    exact ⟨u, tu, v, tv, hl, hr, rfl⟩

theorem lower_unary_eq_ok {op : UnOp} {operand : Expr}
    (h : lower ctx scope (.unary op operand) = .ok row) :
    ∃ u tu, lower ctx scope operand = .ok (.scalar u tu) ∧
      row = .scalar (.unary op u) (Expr.unary op operand).ty := by
  obtain ⟨found, hfound, h⟩ := bind_eq_ok.mp h
  obtain ⟨u, hu, h⟩ := bind_eq_ok.mp h
  obtain ⟨tu, rfl⟩ := asScalar_eq_ok.mp hu
  cases h
  exact ⟨u, tu, hfound, rfl⟩

/-! ## Nodes with lists of operands -/

/-- Arguments are lowered in their order, each to a single term. -/
theorem lowerTerms_eq_ok {es : List Expr} {us : List Term}
    (h : lowerTerms ctx scope es = .ok us) :
    List.Forall₂ (fun e u => ∃ t, lower ctx scope e = .ok (.scalar u t)) es us := by
  induction es generalizing us with
  | nil =>
      cases h
      exact .nil
  | cons e es ih =>
      obtain ⟨found, hfound, h⟩ := bind_eq_ok.mp h
      obtain ⟨u, hu, h⟩ := bind_eq_ok.mp h
      obtain ⟨rest, hrest, h⟩ := bind_eq_ok.mp h
      cases h
      obtain ⟨tu, rfl⟩ := asScalar_eq_ok.mp hu
      exact .cons ⟨tu, hfound⟩ (ih hrest)

/-- A call is lowered by the rules, from the terms of its receiver and its arguments. -/
theorem lower_call_eq_ok {m : Method} {r : Option Expr} {args : List Expr}
    (h : lower ctx scope (.call m r args t) = .ok row) :
    ∃ receiver us term,
      Option.Rel (fun e u => ∃ t, lower ctx scope e = .ok (.scalar u t)) r receiver ∧
      List.Forall₂ (fun e u => ∃ t, lower ctx scope e = .ok (.scalar u t)) args us ∧
      FunctionRule.firstOf ctx.rules ⟨m, receiver, us, t⟩ = some term ∧
      row = .scalar term t := by
  cases r with
  | none =>
      obtain ⟨receiver, hreceiver, h⟩ := bind_eq_ok.mp h
      cases hreceiver
      obtain ⟨us, hus, h⟩ := bind_eq_ok.mp h
      split at h <;> cases h
      exact ⟨none, us, _, .none, lowerTerms_eq_ok hus, ‹_›, rfl⟩
  | some e =>
      obtain ⟨found, hfound, h⟩ := bind_eq_ok.mp h
      obtain ⟨u, hu, h⟩ := bind_eq_ok.mp h
      obtain ⟨receiver, hreceiver, h⟩ := bind_eq_ok.mp h
      cases hreceiver
      obtain ⟨us, hus, h⟩ := bind_eq_ok.mp h
      split at h <;> cases h
      obtain ⟨tu, rfl⟩ := asScalar_eq_ok.mp hu
      exact ⟨some u, us, _, .some ⟨tu, hfound⟩, lowerTerms_eq_ok hus, ‹_›, rfl⟩

theorem lowerFields_eq_ok {fields : List (Named Expr)} {rows : List (Named Row)}
    (h : lowerFields ctx scope fields = .ok rows) :
    List.Forall₂ (fun field row =>
      field.name = row.name ∧ lower ctx scope field.value = .ok row.value) fields rows := by
  induction fields generalizing rows with
  | nil =>
      cases h
      exact .nil
  | cons field fields ih =>
      obtain ⟨found, hfound, h⟩ := bind_eq_ok.mp h
      obtain ⟨rest, hrest, h⟩ := bind_eq_ok.mp h
      cases h
      exact .cons ⟨rfl, hfound⟩ (ih hrest)

theorem lower_record_eq_ok {fields : List (Named Expr)}
    (h : lower ctx scope (.record fields) = .ok row) :
    ∃ rows, row = .record rows ∧ List.Forall₂ (fun field row =>
      field.name = row.name ∧ lower ctx scope field.value = .ok row.value) fields rows := by
  obtain ⟨rows, hrows, h⟩ := bind_eq_ok.mp h
  cases h
  exact ⟨rows, rfl, lowerFields_eq_ok hrows⟩

/-! ## Lambdas -/

def scopeOf (params : List Binder) (args : List Row) : RowScope :=
  ((params.zip args).map fun x => (⟨x.1.name, x.2⟩ : Named Row)).reverse

theorem scopeOf_cons (p : Binder) (params : List Binder) (arg : Row) (args : List Row) :
    scopeOf (p :: params) (arg :: args) = scopeOf params args ++ [⟨p.name, arg⟩] := by
  simp [scopeOf]

theorem lowerLambda_eq_ok {args : List Row} (h : lowerLambda ctx args e = .ok row) :
    ∃ params body, e = .lambda params body ∧ params.length = args.length ∧
      lower ctx (scopeOf params args) body = .ok row := by
  cases e with
  | lambda params body =>
      rw [lowerLambda] at h
      split at h
      · exact ⟨params, body, rfl, ‹_›, h⟩
      · cases h
  | _ => cases h

theorem value_of_mem_scopeOf {params : List Binder} {args : List Row} {x : Named Row}
    (h : x ∈ scopeOf params args) : x.value ∈ args := by
  obtain ⟨⟨p, arg⟩, hmem, rfl⟩ := List.mem_map.mp (List.mem_reverse.mp h)
  exact (List.of_mem_zip hmem).2

theorem names_scopeOf {params : List Binder} {args : List Row}
    (h : params.length = args.length) :
    (scopeOf params args).map Named.name = (params.map Binder.name).reverse := by
  rw [scopeOf, List.map_reverse, List.map_map]
  congr 1
  conv_rhs => rw [← List.map_fst_zip (Nat.le_of_eq h), List.map_map]
  rfl

theorem lowerLambdaTerm_eq_ok {args : List Row} :
    lowerLambdaTerm ctx args e = .ok term ↔ ∃ t, lowerLambda ctx args e = .ok (.scalar term t) :=
  bind_asScalar_eq_ok

end DeferredQuery.Sql
