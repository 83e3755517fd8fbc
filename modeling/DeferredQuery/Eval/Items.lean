import DeferredQuery.Eval.Scalar

/-!
# Query operators on items in memory

What the operators make of a list of items, given what their lambdas compute. Lambdas are run in
the order of the items, and the first error ends the operator.
-/

namespace DeferredQuery.Items

variable {m : Type → Type} [Monad m]

def keep (p : Value → m Bool) : List Value → m (List Value)
  | [] => pure []
  | v :: rest => do
    let kept ← p v
    let rest ← keep p rest
    return if kept then v :: rest else rest

def select (f : Value → m Value) : List Value → m (List Value)
  | [] => pure []
  | v :: rest => do
    let w ← f v
    return w :: (← select f rest)

/-! ## Sorting -/

structure Key (m : Type → Type) where
  selector : Value → m Value
  descending : Bool

/-- The order of two values under one key; values without an order count as equal. -/
def keyOrder (descending : Bool) (a b : Value) : Ordering :=
  let o := (a.compare? b).getD .eq
  if descending then o.swap else o

def rowOrder : (descending : List Bool) → List Value → List Value → Ordering
  | d :: ds, a :: as, b :: bs => (keyOrder d a b).then (rowOrder ds as bs)
  | _, _, _ => .eq

structure Keyed where
  keys : List Value
  item : Value

def keyValues (keys : List (Key m)) (v : Value) : m (List Value) :=
  match keys with
  | [] => pure []
  | k :: rest => do
    let w ← k.selector v
    return w :: (← keyValues rest v)

def keyed (keys : List (Key m)) : List Value → m (List Keyed)
  | [] => pure []
  | v :: rest => do
    let ks ← keyValues keys v
    return ⟨ks, v⟩ :: (← keyed keys rest)

/-- Sorts items by the values of their keys; items with equal keys keep their order. -/
def sortKeyed (descending : List Bool) (xs : List Keyed) : List Value :=
  (xs.mergeSort fun a b => rowOrder descending a.keys b.keys != .gt).map Keyed.item

def order (keys : List (Key m)) (items : List Value) : m (List Value) := do
  return sortKeyed (keys.map Key.descending) (← keyed keys items)

/-! ## Operators without lambdas -/

/-- Keeps of equal items the first, after the items `kept` already. -/
def distinctFrom (kept : List Value) : List Value → List Value
  | [] => []
  | v :: rest =>
    if kept.any fun u => u.looseEq v then distinctFrom kept rest
    else v :: distinctFrom (kept ++ [v]) rest

def distinct (items : List Value) : List Value := distinctFrom [] items

def first : List Value → Except EvalError Value
  | [] => .error .emptySequence
  | v :: _ => .ok v

def single : List Value → Except EvalError Value
  | [] => .error .emptySequence
  | [v] => .ok v
  | _ :: _ :: _ => .error .multipleElements

def collapse (operator : Method) (items : List Value) : Except EvalError Value :=
  match operator.name with
  | "Distinct" => .ok (.list (distinct items))
  | "Count" => .ok (.int (Int64.ofNat items.length))
  | "Any" => .ok (.bool (!items.isEmpty))
  | "First" => first items
  | "FirstOrDefault" => .ok (items.head?.getD .null)
  | "Single" => single items
  | _ => .error (.unsupportedMethod operator)

/-- The operators that collapse a sequence and take a predicate for its items first. -/
def filtering : List String := ["Count", "Any", "First", "FirstOrDefault", "Single"]

def passing : List String := ["Include", "ThenInclude", "TagWith"]

/-! ## Joining -/

def joinRow (result : Value → Value → m Value) (outer key : Value) :
    List (Value × Value) → m (List Value)
  | [] => pure []
  | (inner, innerKey) :: rest =>
    if key.looseEq innerKey then do
      let v ← result outer inner
      return v :: (← joinRow result outer key rest)
    else joinRow result outer key rest

/-- The results for all pairs with equal keys; an outer item whose key is null has none. -/
def joinRows (outerKey : Value → m Value) (result : Value → Value → m Value)
    (inner : List (Value × Value)) : List Value → m (List Value)
  | [] => pure []
  | v :: rest => do
    let key ← outerKey v
    let row ← if key.isNull then pure [] else joinRow result v key inner
    return row ++ (← joinRows outerKey result inner rest)

/-- The join of two lists; the keys of the inner items are computed first. -/
def join (outerKey innerKey : Value → m Value) (result : Value → Value → m Value)
    (outer inner : List Value) : m (List Value) := do
  let keys ← select innerKey inner
  joinRows outerKey result (inner.zip keys) outer

end DeferredQuery.Items
