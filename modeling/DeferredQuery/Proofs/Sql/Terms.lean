import DeferredQuery.Proofs.Eval.Alike
import DeferredQuery.Proofs.Sql.Reading

/-!
# Values of terms

A term keeps its value when more rows are at hand, and over typed tables it is not a whole number
on one row and a float on another.
-/

namespace DeferredQuery.Sql

/-- Induction with one case for each kind of term. -/
@[induction_eliminator]
theorem Term.nodeInduction {motive : Term → Prop}
    (column : ∀ table column, motive (.column table column))
    (parameter : ∀ name, motive (.parameter name))
    (literal : ∀ v, motive (.literal v))
    (function : ∀ name args t, (∀ a ∈ args, motive a) → motive (.function name args t))
    (binary : ∀ op left right, motive left → motive right → motive (.binary op left right))
    (unary : ∀ op operand, motive operand → motive (.unary op operand))
    (cast : ∀ operand t, motive operand → motive (.cast operand t)) (t : Term) : motive t := by
  have ih : ∀ u : Term, sizeOf u < sizeOf t → motive u := fun u _ =>
    nodeInduction column parameter literal function binary unary cast u
  cases t with
  | column table c => exact column table c
  | parameter name => exact parameter name
  | literal v => exact literal v
  | function name args t =>
      refine function name args t fun a ha => ih a ?_
      have hlt := List.sizeOf_lt_of_mem ha
      simp only [Term.function.sizeOf_spec]
      omega
  | binary op left right =>
      refine binary op left right (ih left ?_) (ih right ?_) <;>
        simp only [Term.binary.sizeOf_spec] <;> omega
  | unary op operand =>
      refine unary op operand (ih operand ?_)
      simp only [Term.unary.sizeOf_spec]
      omega
  | cast operand t =>
      refine cast operand t (ih operand ?_)
      simp only [Term.cast.sizeOf_spec]
      omega
termination_by sizeOf t

namespace Reading

variable {rd : Reading}

/-! ## More rows at hand -/

def Extends (f g : Frame) : Prop :=
  ∀ name cells, Named.find? name f = some cells → Named.find? name g = some cells

theorem extends_append (f g : Frame) : Extends f (f ++ g) := by
  intro name cells h
  rw [Named.find?_append, h]
  rfl

theorem values_mono {f g : Frame} {ts : List Term} {vs : List Value}
    (ih : ∀ t ∈ ts, ∀ v, rd.value f t = .ok v → rd.value g t = .ok v)
    (h : rd.values f ts = .ok vs) : rd.values g ts = .ok vs := by
  induction ts generalizing vs with
  | nil => exact h
  | cons t ts ihts =>
      obtain ⟨v, hv, hrest⟩ := bind_eq_ok.mp h
      obtain ⟨ws, hws, hpure⟩ := bind_eq_ok.mp hrest
      have hts := ihts (fun t ht => ih t (List.mem_cons_of_mem _ ht)) hws
      exact bind_eq_ok.mpr ⟨v, ih t List.mem_cons_self v hv, bind_eq_ok.mpr ⟨ws, hts, hpure⟩⟩

/-- More rows at hand change no value. -/
theorem value_mono {f g : Frame} (hfg : Extends f g) {t : Term} {v : Value}
    (h : rd.value f t = .ok v) : rd.value g t = .ok v := by
  induction t generalizing v with
  | column table column =>
      rw [value] at h ⊢
      cases hf : Named.find? table f with
      | none => simp [hf] at h
      | some cells => simpa [hf, hfg table cells hf] using h
  | parameter name => exact h
  | literal w => exact h
  | function name args t ih =>
      rw [value] at h ⊢
      obtain ⟨vs, hvs, hcall⟩ := bind_eq_ok.mp h
      exact bind_eq_ok.mpr ⟨vs, values_mono (fun t ht v hv => ih t ht hv) hvs, hcall⟩
  | binary op left right ihl ihr =>
      rw [value] at h ⊢
      split
      · rename_i hop
        rw [if_pos hop] at h
        obtain ⟨a, ha, h⟩ := bind_eq_ok.mp h
        obtain ⟨b, hb, h⟩ := bind_eq_ok.mp h
        refine bind_eq_ok.mpr ⟨a, ihl ha, bind_eq_ok.mpr ⟨b, hb, ?_⟩⟩
        cases hdecided : op.decided? b with
        | some r => simpa [hdecided] using h
        | none =>
            simp only [hdecided] at h ⊢
            obtain ⟨c, hc, h⟩ := bind_eq_ok.mp h
            exact bind_eq_ok.mpr ⟨c, ihr hc, h⟩
      · rename_i hop
        rw [if_neg hop] at h
        obtain ⟨a, ha, h⟩ := bind_eq_ok.mp h
        obtain ⟨b, hb, h⟩ := bind_eq_ok.mp h
        exact bind_eq_ok.mpr ⟨a, ihl ha, bind_eq_ok.mpr ⟨b, ihr hb, h⟩⟩
  | unary op operand ih =>
      rw [value] at h ⊢
      obtain ⟨a, ha, h⟩ := bind_eq_ok.mp h
      exact bind_eq_ok.mpr ⟨a, ih ha, h⟩
  | cast operand t ih =>
      rw [value] at h ⊢
      obtain ⟨a, ha, h⟩ := bind_eq_ok.mp h
      exact bind_eq_ok.mpr ⟨a, ih ha, h⟩

mutual

theorem rowValue_mono {f g : Frame} (hfg : Extends f g) : ∀ {row : Row} {v : Value},
    rd.rowValue f row = .ok v → rd.rowValue g row = .ok v
  | .entity table entity, v, h => by
    rw [rowValue] at h ⊢
    cases hf : Named.find? table f with
    | none => simp [hf] at h
    | some cells => simpa [hf, hfg table cells hf] using h
  | .scalar t _, v, h => value_mono hfg h
  | .record fields, v, h => by
    rw [rowValue] at h ⊢
    obtain ⟨vs, hvs, h⟩ := bind_eq_ok.mp h
    exact bind_eq_ok.mpr ⟨vs, fieldValues_mono hfg hvs, h⟩

theorem fieldValues_mono {f g : Frame} (hfg : Extends f g) : ∀ {rows : List (Named Row)}
    {vs : List (Named Value)}, rd.fieldValues f rows = .ok vs → rd.fieldValues g rows = .ok vs
  | [], _, h => h
  | ⟨name, row⟩ :: rest, vs, h => by
    rw [fieldValues] at h ⊢
    obtain ⟨v, hv, h⟩ := bind_eq_ok.mp h
    obtain ⟨ws, hws, h⟩ := bind_eq_ok.mp h
    exact bind_eq_ok.mpr ⟨v, rowValue_mono hfg hv, bind_eq_ok.mpr ⟨ws, fieldValues_mono hfg hws, h⟩⟩

end

theorem get_mono {f g : Frame} (hfg : Extends f g) {t : Term} (h : ∃ v, rd.value f t = .ok v) :
    rd.get t g = rd.get t f := by
  obtain ⟨v, hv⟩ := h
  rw [get_eq hv, get_eq (value_mono hfg hv)]

/-! ## Whole numbers and floats -/

/-- A conversion decides the kind of a number, or keeps it. -/
theorem convert_unmixed {v w : Value} (h : v.ty = .int → w.ty ≠ .float) (t : Ty) :
    (v.convert t).ty = .int → (w.convert t).ty ≠ .float := by
  have hint : ∀ u : Value, (u.convert t).ty = .int →
      t.unwrap = .int ∨ u.ty = .int ∧ t.unwrap ≠ .float := by
    intro u
    cases u <;> unfold Value.convert <;> cases t.unwrap <;> simp [Value.ty]
  have hfloat : ∀ u : Value, (u.convert t).ty = .float →
      t.unwrap = .float ∨ u.ty = .float ∧ t.unwrap ≠ .int := by
    intro u
    cases u <;> unfold Value.convert <;> cases t.unwrap <;> simp [Value.ty]
  intro hv hw
  rcases hint v hv with ht | ⟨hv, ht⟩
  · rcases hfloat w hw with ht' | ⟨-, ht'⟩
    · rw [ht] at ht'
      cases ht'
    · exact ht' ht
  · rcases hfloat w hw with ht' | ⟨hw, -⟩
    · exact ht ht'
    · exact h hv hw

theorem unary_ty {op : UnOp} {v r : Value} (h : op.apply v = .ok r) : r.ty = v.ty := by
  unfold UnOp.apply at h
  split at h
  · cases h
    rfl
  · cases h
    rfl
  · split at h <;> cases h
    rfl
  · cases h
    rfl
  · cases h

/-- Arithmetic gives a whole number for two of them, and a float when one operand is a float. -/
theorem arithmetic_ty {op : BinOp} {a b r : Value} (h : op.arithmetic a b = .ok r) :
    (r.ty = .int → a.ty = .int ∧ b.ty = .int) ∧
      (r.ty = .float → a.ty = .float ∨ b.ty = .float) := by
  unfold BinOp.arithmetic at h
  split at h
  · cases h
    exact ⟨nofun, nofun⟩
  · cases h
    exact ⟨nofun, nofun⟩
  · split at h
    · cases h
    · split at h <;> cases h
      exact ⟨fun _ => ⟨rfl, rfl⟩, nofun⟩
  · rename_i hint
    split at h
    · cases h
      exact ⟨nofun, nofun⟩
    · split at h <;> cases h
      rename_i x y hx hy
      refine ⟨nofun, fun _ => ?_⟩
      cases a <;> cases b <;> simp_all [Value.asFloat?, Value.ty]

/-- Whole numbers and floats mix in results only if they do in operands. -/
theorem binary_unmixed {op : BinOp} {a b c d r q : Value} (hac : a.ty = .int → c.ty ≠ .float)
    (hbd : b.ty = .int → d.ty ≠ .float) (hr : op.apply a b = .ok r) (hq : op.apply c d = .ok q) :
    r.ty = .int → q.ty ≠ .float := by
  unfold BinOp.apply at hr hq
  split at hr <;> rename_i hop
  · obtain ⟨x, -, hx⟩ := bind_eq_ok.mp hr
    cases hx
    exact nofun
  · rw [if_neg hop] at hq
    intro hint hfloat
    obtain ⟨ha, hb⟩ := (arithmetic_ty hr).1 hint
    rcases (arithmetic_ty hq).2 hfloat with hc | hd
    · exact hac ha hc
    · exact hbd hb hd

/-- A logical operator gives a truth value. -/
theorem logical_ty {f : Frame} {op : BinOp} {left right : Term} {v : Value}
    (hop : op.isLogical = true) (h : rd.value f (.binary op left right) = .ok v) :
    v.ty = .bool := by
  rw [value, if_pos hop] at h
  obtain ⟨a, -, h⟩ := bind_eq_ok.mp h
  obtain ⟨b, -, h⟩ := bind_eq_ok.mp h
  split at h
  · cases h
    rfl
  · obtain ⟨c, -, h⟩ := bind_eq_ok.mp h
    obtain ⟨d, -, h⟩ := bind_eq_ok.mp h
    cases h
    rfl

theorem callValue_ty {name : String} {vs : List Value} {v : Value}
    (h : callValue name vs = .ok v) : v.ty = .int := by
  unfold callValue at h
  split at h
  · split at h <;> cases h
    rfl
  · cases h

/-- The rows under one name come from one table. -/
def Uniform (rd : Reading) (f g : Frame) : Prop :=
  ∀ name cells cells', Named.find? name f = some cells → Named.find? name g = some cells' →
    ∃ table, cells ∈ rd.tables table ∧ cells' ∈ rd.tables table

/-- A term is not a whole number on one row and a float on another. -/
theorem value_unmixed (htyped : rd.Typed) {f g : Frame} (hfg : rd.Uniform f g) {t : Term}
    {v w : Value} (hv : rd.value f t = .ok v) (hw : rd.value g t = .ok w) :
    v.ty = .int → w.ty ≠ .float := by
  have hself : ∀ u : Value, u.ty = .int → u.ty ≠ .float := by
    intro u hu
    rw [hu]
    exact nofun
  induction t generalizing v w with
  | column table column =>
      rw [value] at hv hw
      cases hf : Named.find? table f with
      | none => simp [hf] at hv
      | some cells =>
          cases hg : Named.find? table g with
          | none => simp [hg] at hw
          | some cells' =>
              obtain ⟨table', hmem, hmem'⟩ := hfg table cells cells' hf hg
              simp only [hf, hg, Except.ok.injEq] at hv hw
              subst hv hw
              exact htyped table' column _ (List.mem_map_of_mem hmem) _
                (List.mem_map_of_mem hmem')
  | parameter name =>
      obtain rfl : v = w := Except.ok.inj (hv.symm.trans hw)
      exact hself v
  | literal u =>
      obtain rfl : v = w := Except.ok.inj (hv.symm.trans hw)
      exact hself v
  | function name args t ih =>
      rw [value] at hw
      obtain ⟨ws, -, hw⟩ := bind_eq_ok.mp hw
      rw [callValue_ty hw]
      exact fun _ => nofun
  | binary op left right ihl ihr =>
      by_cases hop : op.isLogical = true
      · rw [logical_ty hop hv]
        exact nofun
      · rw [value, if_neg hop] at hv hw
        obtain ⟨a, ha, hv⟩ := bind_eq_ok.mp hv
        obtain ⟨b, hb, hv⟩ := bind_eq_ok.mp hv
        obtain ⟨c, hc, hw⟩ := bind_eq_ok.mp hw
        obtain ⟨d, hd, hw⟩ := bind_eq_ok.mp hw
        exact binary_unmixed (ihl ha hc) (ihr hb hd) hv hw
  | unary op operand ih =>
      rw [value] at hv hw
      obtain ⟨a, ha, hv⟩ := bind_eq_ok.mp hv
      obtain ⟨b, hb, hw⟩ := bind_eq_ok.mp hw
      rw [unary_ty hv, unary_ty hw]
      exact ih ha hb
  | cast operand t ih =>
      rw [value] at hv hw
      obtain ⟨a, ha, hv⟩ := bind_eq_ok.mp hv
      obtain ⟨b, hb, hw⟩ := bind_eq_ok.mp hw
      cases hv
      cases hw
      exact convert_unmixed (ih ha hb) t

end Reading

end DeferredQuery.Sql
