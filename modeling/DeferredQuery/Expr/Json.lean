import DeferredQuery.Expr.Basic
import DeferredQuery.Value.Json

/-!
# Expressions as JSON

Each node is tagged with the name of its kind. The receiver of a call without one is `null`.
-/

namespace DeferredQuery

namespace BinOp

def toJson : BinOp → Json
  | add => .str "Add"
  | sub => .str "Sub"
  | mul => .str "Mul"
  | div => .str "Div"
  | mod => .str "Mod"
  | eq => .str "Eq"
  | ne => .str "Ne"
  | lt => .str "Lt"
  | le => .str "Le"
  | gt => .str "Gt"
  | ge => .str "Ge"
  | and => .str "And"
  | or => .str "Or"

def ofName? : String → Option BinOp
  | "Add" => some add
  | "Sub" => some sub
  | "Mul" => some mul
  | "Div" => some div
  | "Mod" => some mod
  | "Eq" => some eq
  | "Ne" => some ne
  | "Lt" => some lt
  | "Le" => some le
  | "Gt" => some gt
  | "Ge" => some ge
  | "And" => some and
  | "Or" => some or
  | _ => none

def ofJson? (j : Json) : Option BinOp := j.plainCase?.bind ofName?

end BinOp

namespace UnOp

def toJson (op : UnOp) : Json := .str op.label

def ofName? : String → Option UnOp
  | "Neg" => some neg
  | "Not" => some not
  | _ => none

def ofJson? (j : Json) : Option UnOp := j.plainCase?.bind ofName?

end UnOp

namespace Binder

def toJson (b : Binder) : Json := .object [("name", .str b.name), ("ty", b.ty.toJson)]

def ofJson? (j : Json) : Option Binder := do
  match ← j.slots? ["name", "ty"] with
  | [name, t] => some ⟨← name.required Json.string?, ← t.required Ty.ofJson?⟩
  | _ => none

end Binder

namespace Expr

mutual

def toJson : Expr → Json
  | .constant v t => .tagged "Constant" (.object [("value", v.toJson), ("ty", t.toJson)])
  | .parameter name t => .tagged "Parameter" (.object [("name", .str name), ("ty", t.toJson)])
  | .member target name t =>
    .tagged "Member"
      (.object [("target", target.toJson), ("member", .str name), ("ty", t.toJson)])
  | .call method none args t =>
    .tagged "Call" (.object [("method", method.toJson), ("instance", .null),
      ("args", .arr (listToJson args)), ("ty", t.toJson)])
  | .call method (some receiver) args t =>
    .tagged "Call" (.object [("method", method.toJson), ("instance", receiver.toJson),
      ("args", .arr (listToJson args)), ("ty", t.toJson)])
  | .lambda params body =>
    .tagged "Lambda"
      (.object [("params", .arr (params.map Binder.toJson)), ("body", body.toJson)])
  | .convert operand t =>
    .tagged "Convert" (.object [("operand", operand.toJson), ("ty", t.toJson)])
  | .binary op left right =>
    .tagged "Binary"
      (.object [("op", op.toJson), ("left", left.toJson), ("right", right.toJson)])
  | .unary op operand =>
    .tagged "Unary" (.object [("op", op.toJson), ("operand", operand.toJson)])
  | .record fields => .tagged "Record" (.object [("fields", .arr (fieldsToJson fields))])
  | .volatile inner => .tagged "NonDeterministic" inner.toJson

def listToJson : List Expr → List Json
  | [] => []
  | e :: rest => e.toJson :: listToJson rest

def fieldsToJson : List (Named Expr) → List Json
  | [] => []
  | ⟨name, e⟩ :: rest => .arr [.str name, e.toJson] :: fieldsToJson rest

end

/-- Reads the parts of a node of the named kind, given a reader of expressions. -/
def readNode? (read : Json → Option Expr) (kind : String) (j : Json) : Option Expr :=
  match kind with
  | "Constant" => do
    match ← j.slots? ["value", "ty"] with
    | [v, t] => some (.constant (← v.required Value.ofJson?) (← t.required Ty.ofJson?))
    | _ => none
  | "Parameter" => do
    match ← j.slots? ["name", "ty"] with
    | [name, t] => some (.parameter (← name.required Json.string?) (← t.required Ty.ofJson?))
    | _ => none
  | "Member" => do
    match ← j.slots? ["target", "member", "ty"] with
    | [target, name, t] =>
      some (.member (← target.required read) (← name.required Json.string?)
        (← t.required Ty.ofJson?))
    | _ => none
  | "Call" => do
    match ← j.slots? ["method", "instance", "args", "ty"] with
    | [method, receiver, args, t] =>
      some (.call (← method.required Method.ofJson?) (← receiver.optional read)
        (← args.required fun j => do (← j.items?).mapM read) (← t.required Ty.ofJson?))
    | _ => none
  | "Lambda" => do
    match ← j.slots? ["params", "body"] with
    | [params, body] =>
      some (.lambda (← params.required fun j => do (← j.items?).mapM Binder.ofJson?)
        (← body.required read))
    | _ => none
  | "Convert" => do
    match ← j.slots? ["operand", "ty"] with
    | [operand, t] => some (.convert (← operand.required read) (← t.required Ty.ofJson?))
    | _ => none
  | "Binary" => do
    match ← j.slots? ["op", "left", "right"] with
    | [op, left, right] =>
      some (.binary (← op.required BinOp.ofJson?) (← left.required read) (← right.required read))
    | _ => none
  | "Unary" => do
    match ← j.slots? ["op", "operand"] with
    | [op, operand] => some (.unary (← op.required UnOp.ofJson?) (← operand.required read))
    | _ => none
  | "Record" => do
    match ← j.slots? ["fields"] with
    | [fields] =>
      some (.record (← fields.required fun j => do (← j.items?).mapM (Value.readPair? read)))
    | _ => none
  | "NonDeterministic" => (read j).map .volatile
  | _ => none

/-- Reads an expression nested at most `fuel` containers deep. -/
def read? : (fuel : Nat) → Json → Option Expr
  | 0, _ => none
  | fuel + 1, j =>
    match j.case? with
    | some (kind, some parts) => readNode? (read? fuel) kind parts
    | _ => none

def ofJson? (j : Json) : Option Expr := read? j.depth j

end Expr

end DeferredQuery
