import DeferredQuery.Eval.Error
import DeferredQuery.Text.Case

/-!
# Operations on values

Members, conversions, operators and functions, each on values that are already computed. Null
passes through arithmetic and negation and makes every comparison of size false.
-/

namespace DeferredQuery

namespace Value

def storedMember (target : Value) (name : String) : Except EvalError Value :=
  match target with
  | .record fields =>
    match Named.find? name fields with
    | some v => .ok v
    | none => .error (.missingMember name "record")
  | .closure className captures =>
    match Capture.find? name captures with
    | some c => .ok c.value
    | none => .error (.missingMember name className)
  | .null => .error (.nullReference name)
  | v => .error (.missingMember name v.ty.text)

def computedMember? (target : Value) (name : String) : Option Value :=
  match target with
  | .string s => if name = "Length" then some (.int (Int64.ofNat s.length)) else none
  | .list items => if name = "Count" then some (.int (Int64.ofNat items.length)) else none
  | .instant t =>
    match name with
    | "Year" => some (.int (Int64.ofInt t.date.year))
    | "Month" => some (.int (Int64.ofNat t.date.month))
    | "Day" => some (.int (Int64.ofNat t.date.day))
    | "Hour" => some (.int (Int64.ofNat t.hour))
    | "Minute" => some (.int (Int64.ofNat t.minute))
    | "Second" => some (.int (Int64.ofNat t.second))
    | _ => none
  | _ => none

/-- The member of a value, a stored one before a computed one. -/
def member (target : Value) (name : String) : Except EvalError Value :=
  match target.storedMember name with
  | .error (.missingMember m t) =>
    match target.computedMember? name with
    | some v => .ok v
    | none => .error (.missingMember m t)
  | r => r

/-- The value as one of a static type: numbers change their kind, all else stays. -/
def convert (v : Value) (t : Ty) : Value :=
  match v, t.unwrap with
  | .int n, .float => .float (Binary64.ofInt64 n)
  | .float x, .int => .int (Binary64.truncate x)
  | v, _ => v

/-- The operand of a logical operator; null counts as false. -/
def truth : Value → Except EvalError Bool
  | .bool b => .ok b
  | .null => .ok false
  | v => .error (.typeMismatch (.notBool v.ty))

def holds : Value → Except EvalError Bool
  | .bool b => .ok b
  | .null => .ok false
  | v => .error (.typeMismatch (.predicateResult v.ty))

/-- How many items a count stands for; a negative one for none. -/
def count : Value → Except EvalError Nat
  | .int n => .ok n.toInt.toNat
  | v => .error (.typeMismatch (.notCount v.ty))

end Value

namespace UnOp

def apply (op : UnOp) (v : Value) : Except EvalError Value :=
  match op, v with
  | _, .null => .ok .null
  | not, .bool b => .ok (.bool (!b))
  | neg, .int n =>
    match Checked.neg n with
    | some m => .ok (.int m)
    | none => .error (.overflow BinOp.sub.symbol)
  | neg, .float x => .ok (.float (-x))
  | op, v => .error (.typeMismatch (.unaryOperand op v.ty))

end UnOp

namespace BinOp

/-- What an operator of comparison makes of an order; equality has rules of its own. -/
def accepts (op : BinOp) (o : Ordering) : Bool :=
  match op with
  | lt => o == .lt
  | le => o != .gt
  | gt => o == .gt
  | _ => o != .lt

def compare (op : BinOp) (a b : Value) : Except EvalError Bool :=
  match op with
  | eq => .ok (a.looseEq b)
  | ne => .ok (!a.looseEq b)
  | _ =>
    if a.isNull || b.isNull then .ok false
    else
      match a.compare? b with
      | some o => .ok (op.accepts o)
      | none => .error (.typeMismatch (.incomparable a.ty b.ty))

/-- Arithmetic on whole numbers, where the divisor is not zero. -/
def onInts (op : BinOp) (a b : Int64) : Option Int64 :=
  match op with
  | add => Checked.add a b
  | sub => Checked.sub a b
  | mul => Checked.mul a b
  | div => Checked.div a b
  | mod => Checked.rem a b
  | _ => none

def onFloats (op : BinOp) (x y : Float) : Float :=
  match op with
  | add => x + y
  | sub => x - y
  | mul => x * y
  | div => x / y
  | _ => Binary64.remainder x y

/-- Arithmetic, and the joining of a text with any value. -/
def arithmetic (op : BinOp) (a b : Value) : Except EvalError Value :=
  match a, b with
  | .null, _ => .ok .null
  | _, .null => .ok .null
  | .int m, .int n =>
    if (op = div ∨ op = mod) ∧ n = 0 then .error .divisionByZero
    else
      match op.onInts m n with
      | some r => .ok (.int r)
      | none => .error (.overflow op.symbol)
  | a, b =>
    if op = add ∧ (a.asString?.isSome ∨ b.asString?.isSome) then
      .ok (.string (a.plainText ++ b.plainText))
    else
      match a.asFloat?, b.asFloat? with
      | some x, some y => .ok (.float (op.onFloats x y))
      | _, _ => .error (.typeMismatch (.operands op a.ty b.ty))

def apply (op : BinOp) (a b : Value) : Except EvalError Value :=
  if op.isComparison then do return .bool (← op.compare a b) else op.arithmetic a b

/-- The value of a logical operator where the left operand decides it. -/
def decided? (op : BinOp) (left : Bool) : Option Bool :=
  match op, left with
  | and, false => some false
  | or, true => some true
  | _, _ => none

end BinOp

namespace Method

/-- Whether each call of the method has a result of its own. -/
def isVolatile (m : Method) : Bool := m == newGuid || m == now || m == utcNow

def apply (m : Method) (receiver : Option Value) (args : List Value) : Except EvalError Value :=
  match m.owner, m.name, receiver, args with
  | "Math", "Pow", none, [x, y] =>
    match x.asFloat?, y.asFloat? with
    | some x, some y => .ok (.float (Float.pow x y))
    | _, _ => .ok .null
  | "Math", "Abs", none, [.int n] =>
    match Checked.abs n with
    | some r => .ok (.int r)
    | none => .error (.overflow "Abs")
  | "Math", "Abs", none, [.float x] => .ok (.float x.abs)
  | "String", name, some .null, _ => .error (.nullReference name)
  | "String", "ToUpper", some (.string s), [] => .ok (.string (Text.toUpper s))
  | "String", "ToLower", some (.string s), [] => .ok (.string (Text.toLower s))
  | "String", "Contains", some (.string s), [.string t] =>
    .ok (.bool (Text.hasInfix t.toList s.toList))
  | "String", "StartsWith", some (.string s), [.string t] =>
    .ok (.bool (t.toList.isPrefixOf s.toList))
  | _, _, _, _ => .error (.unsupportedMethod m)

end Method

end DeferredQuery
