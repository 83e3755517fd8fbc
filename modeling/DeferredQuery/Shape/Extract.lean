import DeferredQuery.Eval.Basic
import DeferredQuery.Shape.Closed

/-!
# Extraction of captured values

Each largest closed part of a query, a literal constant apart, is computed and replaced by a
placeholder. What is left is the query's shape, the same for all queries that differ in captured
values alone.
-/

namespace DeferredQuery

structure ExtractError where
  expression : Expr
  cause : EvalError

namespace ExtractError

def message (e : ExtractError) : String :=
  "Failed to evaluate '" ++ e.expression.text ++ "' while extracting query parameters: " ++
    e.cause.message

end ExtractError

namespace Extract

open Eval (Env Oracle)

/-! ## Which parts -/

/-- Whether a conversion only makes its operand optional. -/
def lifts (operand : Expr) (t : Ty) : Bool := t == .nullable operand.ty

def stripLift : Expr → Expr
  | .convert operand t => if lifts operand t || t == .object then operand else .convert operand t
  | e => e

def isConstant : Expr → Bool
  | .constant .. => true
  | _ => false

/-- Whether a part is replaced by a placeholder. -/
def eligible (e : Expr) (c : Closedness) : Bool :=
  c.closed && !e.isLambda && !isConstant (stripLift e) && !(stripLift e).ty.isQueryable

/-! ## Values and names -/

abbrev ValueM := StateT Nat (Except ExtractError)

def compute (oracle : Oracle) (e : Expr) : ValueM Value := fun n =>
  match Eval.evaluate (.closed oracle) e n with
  | .ok r => .ok r
  | .error cause => .error ⟨e, cause⟩

/-- The value of a closed expression and a name for it: the path of a captured member, or the name
of a method. Stored members are read without evaluation. -/
def valueOf (oracle : Oracle) : Expr → ValueM (Value × Option String)
  | .member target name t => do
    let (v, path) ← valueOf oracle target
    let path := match path with
      | some p => p ++ "_" ++ name
      | none => name
    match v.storedMember name with
    | .ok w => return (w, some path)
    | .error _ => return (← compute oracle (.member target name t), some path)
  | .constant v _ => return (v, none)
  | .call m receiver args t => return (← compute oracle (.call m receiver args t), some m.name)
  | .convert operand t =>
    if lifts operand t then valueOf oracle operand
    else return (← compute oracle (.convert operand t), some "p")
  | e => return (← compute oracle e, some "p")

/-- The part of a name after its last `>`. -/
def baseName (name : String) : String :=
  String.ofList (name.toList.reverse.takeWhile (· != '>')).reverse

/-- The placeholder for a part with the given name, when `count` values are bound already. -/
def placeholder (name : Option String) (count : Nat) : String :=
  "__" ++ baseName (name.getD "p") ++ "_" ++ toString count

/-- The node in place of an expression of type `t`; a value of another type is converted. -/
def placeholderNode (name : String) (v : Value) (t : Ty) : Expr :=
  if v.isNull || v.ty == t then .parameter name t else .convert (.parameter name v.ty) t

/-! ## The shape -/

/-- The values bound so far, and the answers drawn from the oracle. -/
structure State where
  params : Bindings
  draws : Nat

/-- A computation that keeps what it has bound when it fails. -/
abbrev ExtractM := ExceptT ExtractError (StateM State)

/-- Binds the value of a closed expression; the result is the node in its place. -/
def bind (oracle : Oracle) (e : Expr) : ExtractM Expr := ExceptT.mk fun s =>
  match valueOf oracle e s.draws with
  | .error err => (.error err, s)
  | .ok ((v, name), draws) =>
    let p := placeholder name s.params.length
    (.ok (placeholderNode p v e.ty), ⟨s.params.add p v, draws⟩)

mutual

def visit (oracle : Oracle) (c : Closedness) (e : Expr) : ExtractM Expr :=
  if eligible e c then bind oracle e
  else
    match e with
    | .constant v t => return .constant v t
    | .parameter name t => return .parameter name t
    | .member target name t => do
      let target ← visit oracle (.headOr target c.children) target
      return .member target name t
    | .call m none args t => do
      let args ← visitList oracle c.children args
      return .call m none args t
    | .call m (some receiver) args t => do
      let receiver ← visit oracle (.headOr receiver c.children) receiver
      let args ← visitList oracle c.children.tail args
      return .call m (some receiver) args t
    | .lambda params body => do
      let body ← visit oracle (.headOr body c.children) body
      return .lambda params body
    | .convert operand t => do
      let operand ← visit oracle (.headOr operand c.children) operand
      return .convert operand t
    | .binary op left right => do
      let left ← visit oracle (.headOr left c.children) left
      let right ← visit oracle (.headOr right c.children.tail) right
      return .binary op left right
    | .unary op operand => do
      let operand ← visit oracle (.headOr operand c.children) operand
      return .unary op operand
    | .record fields => do
      let fields ← visitFields oracle c.children fields
      return .record fields
    | .volatile inner => do
      let inner ← visit oracle (.headOr inner c.children) inner
      return .volatile inner

def visitList (oracle : Oracle) (cs : List Closedness) : List Expr → ExtractM (List Expr)
  | [] => return []
  | e :: rest => do
    let e ← visit oracle (.headOr e cs) e
    let rest ← visitList oracle cs.tail rest
    return e :: rest

def visitFields (oracle : Oracle) (cs : List Closedness) :
    List (Named Expr) → ExtractM (List (Named Expr))
  | [] => return []
  | ⟨name, e⟩ :: rest => do
    let e ← visit oracle (.headOr e cs) e
    let rest ← visitFields oracle cs.tail rest
    return ⟨name, e⟩ :: rest

end

end Extract

/-- The shape of a query, with the values of its parts bound behind those bound already. -/
def extract (oracle : Eval.Oracle) (e : Expr) : Extract.ExtractM Expr :=
  Extract.visit oracle (.analyze e) e

end DeferredQuery
