import DeferredQuery.Bindings
import DeferredQuery.Eval.Items
import DeferredQuery.Proofs.Order.Values
import DeferredQuery.Sql.Select

/-!
# Reading a statement by its clauses

The tables of a statement are joined, its filters keep rows, its sort orders them, and its
projection, duplicates, offset and limit make the result of them. Columns, placeholders, operators
and casts have the meaning that the evaluator gives to members, placeholders, operators and
conversions. A term without a value counts as null; statements whose terms all have values are
called readable.
-/

namespace DeferredQuery

abbrev Cells := String → Value

def Schema.record (schema : Schema) (entity : String) (cells : Cells) : Value :=
  .record ((((schema.entities.get? entity).map Entity.properties).getD []).map
    fun p => ⟨p.name, cells p.column⟩)

namespace Sql

/-- The rows at hand, under the names of their tables within the statement. -/
abbrev Frame := List (Named Cells)

/-- What a statement is read over. -/
structure Reading where
  schema : Schema
  tables : String → List Cells
  params : Bindings

namespace Reading

variable {rd : Reading}

/-! ## Terms and rows -/

/-- The least of two whole numbers is the one function with a reading. -/
def callValue (name : String) : List Value → Except EvalError Value
  | [.int a, .int b] =>
    if name = "LEAST" then .ok (.int (if a.toInt ≤ b.toInt then a else b))
    else .error (.unsupportedMethod (.operator name))
  | _ => .error (.unsupportedMethod (.operator name))

mutual

def value (rd : Reading) (f : Frame) : Term → Except EvalError Value
  | .column table column =>
    match Named.find? table f with
    | some cells => .ok (cells column)
    | none => .error (.unboundParameter table)
  | .parameter name =>
    match Named.find? name rd.params with
    | some v => .ok v
    | none => .error (.unboundParameter name)
  | .literal v => .ok v
  | .function name args _ => do
    let vs ← values rd f args
    callValue name vs
  | .binary op left right =>
    if op.isLogical then do
      let a ← value rd f left
      let a ← a.truth
      match op.decided? a with
      | some r => return .bool r
      | none => do
        let b ← value rd f right
        let b ← b.truth
        return .bool b
    else do
      let a ← value rd f left
      let b ← value rd f right
      op.apply a b
  | .unary op operand => do
    let v ← value rd f operand
    op.apply v
  | .cast operand t => do
    let v ← value rd f operand
    return v.convert t

def values (rd : Reading) (f : Frame) : List Term → Except EvalError (List Value)
  | [] => .ok []
  | t :: rest => do
    let v ← value rd f t
    let vs ← values rd f rest
    return v :: vs

end

mutual

def rowValue (rd : Reading) (f : Frame) : Row → Except EvalError Value
  | .entity table entity =>
    match Named.find? table f with
    | some cells => .ok (rd.schema.record entity cells)
    | none => .error (.unboundParameter table)
  | .scalar t _ => rd.value f t
  | .record fields => do
    let vs ← fieldValues rd f fields
    return .record vs

def fieldValues (rd : Reading) (f : Frame) :
    List (Named Row) → Except EvalError (List (Named Value))
  | [] => .ok []
  | ⟨name, row⟩ :: rest => do
    let v ← rowValue rd f row
    let vs ← fieldValues rd f rest
    return ⟨name, v⟩ :: vs

end

def get (rd : Reading) (t : Term) (f : Frame) : Value := (rd.value f t).toOption.getD .null

def getRow (rd : Reading) (row : Row) (f : Frame) : Value := (rd.rowValue f row).toOption.getD .null

theorem get_eq {t : Term} {f : Frame} {v : Value} (h : rd.value f t = .ok v) : rd.get t f = v := by
  simp [get, h, Except.toOption]

theorem getRow_eq {row : Row} {f : Frame} {v : Value} (h : rd.rowValue f row = .ok v) :
    rd.getRow row f = v := by
  simp [getRow, h, Except.toOption]

theorem value_eq_get {t : Term} {f : Frame} (h : ∃ v, rd.value f t = .ok v) :
    rd.value f t = .ok (rd.get t f) := by
  obtain ⟨v, hv⟩ := h
  rw [get_eq hv, hv]

theorem rowValue_eq_getRow {row : Row} {f : Frame} (h : ∃ v, rd.rowValue f row = .ok v) :
    rd.rowValue f row = .ok (rd.getRow row f) := by
  obtain ⟨v, hv⟩ := h
  rw [getRow_eq hv, hv]

/-! ## Clauses -/

def holds (rd : Reading) (t : Term) (f : Frame) : Bool := (rd.get t f).asBool?.getD false

def outer (rd : Reading) (s : Select) : List Frame :=
  (rd.tables s.table).map fun cells => [⟨Select.outerName, cells⟩]

def matching (rd : Reading) (j : Join) (f : Frame) : Bool :=
  !(rd.get j.outerKey f).isNull && !(rd.get j.innerKey f).isNull &&
    (rd.get j.outerKey f).looseEq (rd.get j.innerKey f)

def partners (rd : Reading) (j : Join) (f : Frame) : List Frame :=
  ((rd.tables j.table).map fun cells => f ++ [⟨j.name, cells⟩]).filter (rd.matching j)

def joined (rd : Reading) (s : Select) : List Frame :=
  match s.join with
  | none => rd.outer s
  | some j => (rd.outer s).flatMap (rd.partners j)

def keyOrder (rd : Reading) (keys : List SortKey) (f g : Frame) : Ordering :=
  Items.rowOrder (keys.map SortKey.descending) (keys.map fun k => rd.get k.term f)
    (keys.map fun k => rd.get k.term g)

/-- The rows behind the result, filtered and sorted. -/
def frames (rd : Reading) (s : Select) : List Frame :=
  Stable.sort (rd.keyOrder s.order)
    ((rd.joined s).filter fun f => s.filters.all fun t => rd.holds t f)

def count (rd : Reading) (t : Term) : Nat :=
  ((rd.get t []).asInt?.map fun n => n.toInt.toNat).getD 0

def cut {α : Type} (rd : Reading) (s : Select) (xs : List α) : List α :=
  let rest := xs.drop ((s.offset.map rd.count).getD 0)
  match s.limit with
  | some t => rest.take (rd.count t)
  | none => rest

def unique (s : Select) (vs : List Value) : List Value :=
  if s.distinct then Items.distinct vs else vs

def rows (rd : Reading) (s : Select) : List Value :=
  rd.cut s (unique s ((rd.frames s).map (rd.getRow s.current)))

/-- What a statement of the given cardinality makes of its rows. -/
def result (vs : List Value) : Cardinality → Except EvalError Value
  | .many => .ok (.list vs)
  | .count => .ok (.int (Int64.ofNat vs.length))
  | .exists => .ok (.bool (!vs.isEmpty))
  | .first true => .ok (vs.head?.getD .null)
  | .first false => Items.first vs

/-- The rows that a statement gives: its own, or the one that says what it makes of them. -/
def answer (rd : Reading) (s : Select) : Except EvalError (List Value) :=
  match s.cardinality with
  | .many => .ok (rd.rows s)
  | c => do
    let v ← result (rd.rows s) c
    return [v]

/-! ## Readable statements -/

/-- All terms of a statement have values on its rows, and its filters a truth value. -/
structure Readable (rd : Reading) (s : Select) : Prop where
  outerKey : ∀ j ∈ s.join, ∀ f ∈ rd.outer s, ∃ v, rd.value f j.outerKey = .ok v
  innerKey : ∀ j ∈ s.join, ∀ cells ∈ rd.tables j.table,
    ∃ v, rd.value [⟨j.name, cells⟩] j.innerKey = .ok v
  filter : ∀ f ∈ rd.joined s, ∀ t ∈ s.filters, ∃ v b, rd.value f t = .ok v ∧ v.holds = .ok b
  key : ∀ f ∈ rd.joined s, ∀ k ∈ s.order, ∃ v, rd.value f k.term = .ok v
  current : ∀ f ∈ rd.joined s, ∃ v, rd.rowValue f s.current = .ok v
  offset : ∀ t ∈ s.offset, ∃ v, rd.value [] t = .ok v

def Comparable (rd : Reading) (s : Select) : Prop :=
  ∀ k ∈ s.order, ∀ f ∈ rd.joined s, ∀ g ∈ rd.joined s,
    ((rd.get k.term f).compare? (rd.get k.term g)).isSome

/-- No column holds whole numbers and floats, as its declared type sees to. -/
def Typed (rd : Reading) : Prop :=
  ∀ table column, Value.Unmixed ((rd.tables table).map fun cells => cells column)

end Reading

end Sql

end DeferredQuery
