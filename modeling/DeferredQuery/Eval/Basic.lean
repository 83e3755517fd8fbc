import DeferredQuery.Bindings
import DeferredQuery.Eval.Items

/-!
# Evaluation

Expressions are evaluated over placeholder values, a source of rows for the entity sets, and an
oracle that answers the calls whose results differ from call to call. The state of an evaluation is
the number of answers drawn from the oracle so far.
-/

namespace DeferredQuery.Eval

/-- The answers to successive calls of volatile functions. -/
structure Oracle where
  uuid : Nat → Uuid
  clock : Nat → Instant

abbrev RowSource := SetRef → Except EvalError (List Value)

structure Env where
  params : Option Bindings
  rows : Option RowSource
  oracle : Oracle

/-- A computation that draws from the oracle and may fail. -/
abbrev EvalM := StateT Nat (Except EvalError)

/-- The values of lambda parameters, the innermost first. -/
abbrev Scope := List (Named Value)

def draw {α : Type} (answers : Nat → α) : EvalM α := fun n => .ok (answers n, n + 1)

namespace Env

def closed (oracle : Oracle) : Env := ⟨none, none, oracle⟩

def lookup (env : Env) (scope : Scope) (name : String) : Except EvalError Value :=
  match (Named.find? name scope).or (env.params.bind (Named.find? name)) with
  | some v => .ok v
  | none => .error (.unboundParameter name)

def items (env : Env) : Value → Except EvalError (List Value)
  | .list vs => .ok vs
  | .query root =>
    match env.rows with
    | some rows => rows root
    | none => .error (.noSource root.set)
  | .null => .error (.nullReference "sequence")
  | v => .error (.typeMismatch (.notSequence v.ty))

def call (env : Env) (m : Method) (receiver : Option Value) (args : List Value) : EvalM Value :=
  if m.isVolatile && receiver.isNone && args.isEmpty then
    if m == Method.newGuid then do return .uuid (← draw env.oracle.uuid)
    else do return .instant (← draw env.oracle.clock)
  else m.apply receiver args

end Env

/-! ## Lambdas and sort keys -/

/-- The scope of a lambda's body; of two parameters with one name the last counts. -/
def bindArgs (params : List Binder) (args : List Value) (scope : Scope) : Scope :=
  ((params.zip args).map fun x => ⟨x.1.name, x.2⟩).reverse ++ scope

def startsOrder (m : Method) : Bool := m.name == "OrderBy" || m.name == "OrderByDescending"

def extendsOrder (m : Method) : Bool := m.name == "ThenBy" || m.name == "ThenByDescending"

def sortsDown (m : Method) : Bool := m.name == "OrderByDescending" || m.name == "ThenByDescending"

/-! ## Expressions -/

mutual

/-- The value of an expression below lambdas. -/
def value (env : Env) (scope : Scope) : Expr → EvalM Value
  | .constant v _ => pure v
  | .parameter name _ => env.lookup scope name
  | .member target name _ => do
    let v ← value env scope target
    v.member name
  | .call m receiver args _ =>
    if m.isOperator then operator env scope m args
    else
      match receiver with
      | none => do
        let vs ← values env scope args
        env.call m none vs
      | some e => do
        let v ← value env scope e
        let vs ← values env scope args
        env.call m (some v) vs
  | .lambda .. => throw (.typeMismatch .lambdaValue)
  | .convert operand t => do
    let v ← value env scope operand
    return v.convert t
  | .binary op left right =>
    if op.isLogical then do
      let a ← value env scope left
      let a ← a.truth
      match op.decided? a with
      | some r => return .bool r
      | none => do
        let b ← value env scope right
        let b ← b.truth
        return .bool b
    else do
      let a ← value env scope left
      let b ← value env scope right
      op.apply a b
  | .unary op operand => do
    let v ← value env scope operand
    op.apply v
  | .record fields => do
    let fs ← fieldValues env scope fields
    return .record fs
  | .volatile inner => value env scope inner

def values (env : Env) (scope : Scope) : List Expr → EvalM (List Value)
  | [] => pure []
  | e :: rest => do
    let v ← value env scope e
    let vs ← values env scope rest
    return v :: vs

def fieldValues (env : Env) (scope : Scope) : List (Named Expr) → EvalM (List (Named Value))
  | [] => pure []
  | ⟨name, e⟩ :: rest => do
    let v ← value env scope e
    let vs ← fieldValues env scope rest
    return ⟨name, v⟩ :: vs

def invoke (env : Env) (scope : Scope) (args : List Value) : Expr → EvalM Value
  | .lambda params body =>
    if params.length = args.length then value env (bindArgs params args scope) body
    else throw (.typeMismatch (.lambdaArity params.length args.length))
  | e => throw (.typeMismatch (.notLambda e))

/-- The result of a query operator on its arguments, of which the first is its source. -/
def operator (env : Env) (scope : Scope) (m : Method) : List Expr → EvalM Value
  | [] => throw (.typeMismatch (.noSource m))
  | source :: args =>
    if startsOrder m || extendsOrder m then
      match args with
      | [selector] =>
        let key : Items.Key EvalM := ⟨fun v => invoke env scope [v] selector, sortsDown m⟩
        if extendsOrder m then do
          let vs ← ordered env scope [key] source
          return .list vs
        else do
          let v ← value env scope source
          let items ← env.items v
          let vs ← Items.order [key] items
          return .list vs
      | _ => throw (.typeMismatch (.noKeySelector m))
    else do
      let v ← value env scope source
      let items ← env.items v
      apply env scope m items args

/-- The items of a sort that secondary keys refine. -/
def ordered (env : Env) (scope : Scope) (keys : List (Items.Key EvalM)) :
    Expr → EvalM (List Value)
  | .call m _ [source, selector] _ =>
    let keys := ⟨fun v => invoke env scope [v] selector, sortsDown m⟩ :: keys
    if extendsOrder m then ordered env scope keys source
    else if startsOrder m then do
      let v ← value env scope source
      let items ← env.items v
      Items.order keys items
    else throw (.typeMismatch .notOrdered)
  | .call m _ _ _ => throw (.typeMismatch (.noKeySelector m))
  | _ => throw (.typeMismatch .notOrdered)

/-- The result of a query operator on items, given its arguments after the source. -/
def apply (env : Env) (scope : Scope) (m : Method) (items : List Value) :
    List Expr → EvalM Value
  | [] => Items.collapse m items
  | [e] =>
    let holds (v : Value) : EvalM Bool := do
      let r ← invoke env scope [v] e
      r.holds
    if m.name = "Where" then do
      let vs ← Items.keep holds items
      return .list vs
    else if m.name = "Select" then do
      let vs ← Items.select (fun v => invoke env scope [v] e) items
      return .list vs
    else if startsOrder m then do
      let vs ← Items.order [⟨fun v => invoke env scope [v] e, sortsDown m⟩] items
      return .list vs
    else if m.name = "Skip" then do
      let v ← value env scope e
      let n ← v.count
      return .list (items.drop n)
    else if m.name = "Take" then do
      let v ← value env scope e
      let n ← v.count
      return .list (items.take n)
    else if m.name ∈ Items.filtering then do
      let vs ← Items.keep holds items
      Items.collapse m vs
    else if m.name ∈ Items.passing then return .list items
    else throw (.unsupportedMethod m)
  | [inner, outerKey, innerKey, result] =>
    if m.name = "Join" then do
      let v ← value env scope inner
      let innerItems ← env.items v
      let vs ← Items.join (fun v => invoke env scope [v] outerKey)
        (fun v => invoke env scope [v] innerKey) (fun v w => invoke env scope [v, w] result)
        items innerItems
      return .list vs
    else throw (.unsupportedMethod m)
  | _ => throw (.unsupportedMethod m)

end

def evaluate (env : Env) (e : Expr) : EvalM Value := value env [] e

structure SortKey where
  selector : Expr
  descending : Bool

/-- Sorts items by several keys, the first of them the most significant. -/
def order (env : Env) (items : List Value) (keys : List SortKey) : EvalM (List Value) :=
  Items.order (keys.map fun k => ⟨fun v => invoke env [] [v] k.selector, k.descending⟩) items

end DeferredQuery.Eval
