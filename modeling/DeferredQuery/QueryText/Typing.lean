import DeferredQuery.Expr.Basic
import DeferredQuery.QueryText.Error
import DeferredQuery.QueryText.Reader
import DeferredQuery.Schema.Basic

/-!
# Typing query texts

Names are looked up among the parameters of the lambdas around them, then among the entity sets,
then among the captured variables. A name that means nothing may still own a method, as in
`Math.Abs(x)`. Lambdas are typed by the operator that takes them.
-/

namespace DeferredQuery.QueryText

structure Names where
  /-- The type of a property of an entity type. -/
  property : (entity name : String) → Option Ty
  /-- The entity type of the rows of a set. -/
  entitySet : (set : String) → Option String

/-- What the names of a query text can stand for, its lambdas' parameters apart. -/
structure Env where
  names : Names
  captured : Option Closure

/-! ## Names -/

mutual

/-- The read of a captured variable from the closure that `target` evaluates to: one of its own,
else the first one in the closures nested in it. -/
def capture? (name : String) (target : Expr) : Value → Option Expr
  | .closure _ captures =>
    match Capture.find? name captures with
    | some c => some (.member target name c.ty)
    | none => nestedCapture? name target captures
  | _ => none

/-- Searches the closures that are held under names with a `>`, which no query can spell. -/
def nestedCapture? (name : String) (target : Expr) : List (Capture Value) → Option Expr
  | [] => none
  | ⟨field, ty, v⟩ :: rest =>
    if field.toList.contains '>' then
      (capture? name (.member target field ty) v).or (nestedCapture? name target rest)
    else nestedCapture? name target rest

end

/-- What a name stands for below lambdas with the parameters `scope`, the innermost first. -/
def Env.resolve? (env : Env) (scope : List Binder) (name : String) : Option Expr :=
  match scope.find? fun p => p.name == name with
  | some p => some (.parameter name p.ty)
  | none =>
    match env.names.entitySet name with
    | some entity => some (.const (.query ⟨entity, name⟩))
    | none =>
      env.captured.bind fun c =>
        let v := Value.closure c.className c.captures
        capture? name (.const v) v

/-! ## Literals -/

def unescape : List Char → List Char
  | [] => []
  | ['\\'] => ['\\']
  | '\\' :: c :: rest =>
    (if c = 'n' then '\n' else if c = 't' then '\t' else c) :: unescape rest
  | c :: rest => c :: unescape rest

def Literal.value : Literal → Except Error Value
  | .null => .ok .null
  | .bool b => .ok (.bool b)
  | .int digits =>
    match Checked.fit? (Decimal.ofDigits digits) with
    | some n => .ok (.int n)
    | none => .error (.integerTooLarge (String.ofList digits))
  | .float whole fraction => .ok (.float (Decimal.nearest whole fraction))
  | .string raw => .ok (.string (String.ofList (unescape raw)))

/-! ## Operators -/

/-- The negation of an operand; a number is negated in place. -/
def negate : Expr → Expr
  | .constant (.int n) t => .constant (.int (-n)) t
  | .constant (.float x) t => .constant (.float (-x)) t
  | e => .unary .neg e

/-- An operation on two operands, which are brought to one type where a whole number meets a
floating point one, or a value meets an optional value of its type. -/
def combine (op : BinOp) (left right : Expr) : Expr :=
  if op.isLogical then .binary op left right
  else if left.ty = .nullable right.ty then .binary op left (.convert right left.ty)
  else if right.ty = .nullable left.ty then .binary op (.convert left right.ty) right
  else
    match left.ty, right.ty with
    | .int, .float => .binary op (.convert left .float) right
    | .float, .int => .binary op left (.convert right .float)
    | _, _ => .binary op left right

/-- The element type of the sequence that a join takes first. -/
def innerElement (args : List Expr) : Ty :=
  (args.head?.bind fun inner => inner.ty.element?).getD .unknown

/-- The types for the parameters of a lambda that stands after the arguments `previous` of an
operator on a sequence. -/
def lambdaSeeds (operator : String) (element : Ty) (previous : List Expr) : List Ty :=
  match operator, previous.length with
  | "Join", 0 => []
  | "Join", 1 => [element]
  | "Join", 2 => [innerElement previous]
  | "Join", 3 => [element, innerElement previous]
  | "ThenInclude", _ => [.unknown]
  | _, _ => [element]

def producedTy : Expr → Ty
  | .lambda _ body => body.ty
  | e => e.ty

/-- The type of a sequence of the same kind with other items. -/
def sequenceLike (receiver element : Ty) : Ty :=
  match receiver with
  | .sequence _ => .sequence element
  | _ => .queryable element

def operatorTy (operator : String) (receiver element : Ty) (args : List Expr) : Ty :=
  match operator with
  | "Select" => sequenceLike receiver ((args[0]?.map producedTy).getD .unknown)
  | "Join" => sequenceLike receiver ((args[3]?.map producedTy).getD .unknown)
  | "Count" => .int
  | "Any" => .bool
  | "First" | "FirstOrDefault" | "Single" => element
  | _ => receiver

/-! ## Expressions -/

/-- The parameters of a lambda with the types given for the first of them. -/
def bindParams : (seeds : List Ty) → List String → List Binder
  | _, [] => []
  | [], name :: rest => ⟨name, .unknown⟩ :: bindParams [] rest
  | t :: seeds, name :: rest => ⟨name, t⟩ :: bindParams seeds rest

def fieldName? : Expr → Option String
  | .member _ name _ => some name
  | .parameter name _ => some name
  | _ => none

def readMember (names : Names) (target : Expr) (name : String) : Except Error Expr :=
  match target.ty.member? names.property name with
  | some t => .ok (.member target name t)
  | none => .error (.unknownMember target.ty name)

def staticCall (owner name : String) (args : List Expr) : Except Error Expr :=
  match Method.resolveStatic? owner name (args.map Expr.ty) with
  | some (method, t) => .ok (.call method none args t)
  | none => .error (.unknownMethod owner name)

def scalarCall (receiver : Expr) (name : String) (args : List Expr) : Except Error Expr :=
  match Method.resolveInstance? receiver.ty name (args.map Expr.ty) with
  | some (method, t) => .ok (.call method (some receiver) args t)
  | none => .error (.unknownMethod receiver.ty.text name)

def argSeeds (receiver : Expr) (name : String) : (previous : List Expr) → List Ty :=
  match receiver.ty.element? with
  | some element => lambdaSeeds name element
  | none => fun _ => []

def receiverCall (receiver : Expr) (name : String) (args : List Expr) : Except Error Expr :=
  match receiver.ty.element? with
  | some element =>
    .ok (.call (.operator name) none (receiver :: args)
      (operatorTy name receiver.ty element args))
  | none => scalarCall receiver name args

mutual

/-- The expression of a tree; `seeds` are the types for the parameters of a lambda. -/
def build (env : Env) (scope : List Binder) (seeds : List Ty) : Tree → Except Error Expr
  | .name id =>
    match env.resolve? scope id with
    | some e => .ok e
    | none => .error (.unknownName id)
  | .literal l => do return .const (← l.value)
  | .paren inner => build env scope [] inner
  | .lambda params body => do
    let params := bindParams seeds params
    return .lambda params (← build env (params.reverse ++ scope) [] body)
  | .binary op left right => do
    let left ← build env scope [] left
    return combine op left (← build env scope [] right)
  | .unary .neg operand => do return negate (← build env scope [] operand)
  | .unary .not operand => do return .unary .not (← build env scope [] operand)
  | .member target name => do
    let target ← build env scope [] target
    readMember env.names target name
  | .call (.name id) name args =>
    match env.resolve? scope id with
    | some receiver => do
      let args ← buildArgs env scope (argSeeds receiver name) [] args
      receiverCall receiver name args
    | none => do
      let args ← buildArgs env scope (fun _ => []) [] args
      staticCall id name args
  | .call target name args => do
    let receiver ← build env scope [] target
    let args ← buildArgs env scope (argSeeds receiver name) [] args
    receiverCall receiver name args
  | .record fields => do return .record (← buildFields env scope fields)

/-- The expressions of arguments; `seeds` gives the types for a lambda after the arguments
already built. -/
def buildArgs (env : Env) (scope : List Binder) (seeds : List Expr → List Ty)
    (done : List Expr) : List Tree → Except Error (List Expr)
  | [] => .ok done
  | t :: rest => do
    let e ← build env scope (seeds done) t
    buildArgs env scope seeds (done ++ [e]) rest

def buildFields (env : Env) (scope : List Binder) :
    List (Init Tree) → Except Error (List (Named Expr))
  | [] => .ok []
  | ⟨label, source, t⟩ :: rest => do
    let e ← build env scope [] t
    let name ← match label.or (fieldName? e) with
      | some name => .ok name
      | none => .error (.unnamedField source)
    return ⟨name, e⟩ :: (← buildFields env scope rest)

end

def parse (env : Env) (text : String) : Except Error Expr :=
  match read? text with
  | some t => build env [] [] t
  | none => .error .malformed

end DeferredQuery.QueryText

namespace DeferredQuery.Schema

def names (s : Schema) : QueryText.Names := ⟨s.propertyTy?, s.sets.get?⟩

end DeferredQuery.Schema
