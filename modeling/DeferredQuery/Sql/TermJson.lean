import DeferredQuery.Expr.Json
import DeferredQuery.Sql.Term

/-!
# Terms as JSON

Each term is tagged with the name of its kind.
-/

namespace DeferredQuery.Sql.Term

mutual

def toJson : Term → Json
  | .column table name =>
    .tagged "Column" (.object [("table", .str table), ("column", .str name)])
  | .parameter name => .tagged "Parameter" (.object [("name", .str name)])
  | .literal v => .tagged "Literal" v.toJson
  | .function name args t =>
    .tagged "Function"
      (.object [("name", .str name), ("args", .arr (listToJson args)), ("ty", t.toJson)])
  | .binary op left right =>
    .tagged "Binary"
      (.object [("op", op.toJson), ("left", left.toJson), ("right", right.toJson)])
  | .unary op operand =>
    .tagged "Unary" (.object [("op", op.toJson), ("operand", operand.toJson)])
  | .cast operand t => .tagged "Cast" (.object [("operand", operand.toJson), ("ty", t.toJson)])

def listToJson : List Term → List Json
  | [] => []
  | t :: rest => t.toJson :: listToJson rest

end

def readNode? (read : Json → Option Term) (kind : String) (j : Json) : Option Term :=
  match kind with
  | "Column" => do
    match ← j.slots? ["table", "column"] with
    | [table, name] =>
      some (.column (← table.required Json.string?) (← name.required Json.string?))
    | _ => none
  | "Parameter" => do
    match ← j.slots? ["name"] with
    | [name] => some (.parameter (← name.required Json.string?))
    | _ => none
  | "Literal" => (Value.ofJson? j).map .literal
  | "Function" => do
    match ← j.slots? ["name", "args", "ty"] with
    | [name, args, t] =>
      some (.function (← name.required Json.string?)
        (← args.required fun j => do (← j.items?).mapM read) (← t.required Ty.ofJson?))
    | _ => none
  | "Binary" => do
    match ← j.slots? ["op", "left", "right"] with
    | [op, left, right] =>
      some (.binary (← op.required BinOp.ofJson?) (← left.required read) (← right.required read))
    | _ => none
  | "Unary" => do
    match ← j.slots? ["op", "operand"] with
    | [op, operand] => some (.unary (← op.required UnOp.ofJson?) (← operand.required read))
    | _ => none
  | "Cast" => do
    match ← j.slots? ["operand", "ty"] with
    | [operand, t] => some (.cast (← operand.required read) (← t.required Ty.ofJson?))
    | _ => none
  | _ => none

def read? : (fuel : Nat) → Json → Option Term
  | 0, _ => none
  | fuel + 1, j =>
    match j.case? with
    | some (kind, some parts) => readNode? (read? fuel) kind parts
    | _ => none

def ofJson? (j : Json) : Option Term := read? j.depth j

end DeferredQuery.Sql.Term
