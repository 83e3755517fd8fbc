import DeferredQuery.Digest.Sha256
import DeferredQuery.Expr.Json
import DeferredQuery.Json.Printer
import DeferredQuery.Pipeline.Basic

/-!
# Pipelines as JSON

An operation names its kind in a member beside its fields. Empty lists and absent predicates are
left out. The digest of the canonical text identifies a pipeline.
-/

namespace DeferredQuery

namespace Operation

def predicateMember (predicate : Option Expr) : List (String × Json) :=
  match predicate with
  | some e => [("predicate", e.toJson)]
  | none => []

def kind : Operation → String
  | filter _ => "Where"
  | select _ => "Select"
  | orderBy .. => "OrderBy"
  | thenBy .. => "ThenBy"
  | skip _ => "Skip"
  | take _ => "Take"
  | distinct => "Distinct"
  | join .. => "Join"
  | count _ => "Count"
  | any _ => "Any"
  | first .. => "First"
  | single _ => "Single"
  | custom .. => "Custom"

def fieldsToJson : Operation → List (String × Json)
  | filter predicate => [("predicate", predicate.toJson)]
  | select selector => [("selector", selector.toJson)]
  | orderBy key descending => [("key", key.toJson), ("descending", .bool descending)]
  | thenBy key descending => [("key", key.toJson), ("descending", .bool descending)]
  | skip n => [("count", n.toJson)]
  | take n => [("count", n.toJson)]
  | distinct => []
  | join inner outerKey innerKey result =>
    [("inner", inner.toJson), ("outer_key", outerKey.toJson), ("inner_key", innerKey.toJson),
      ("result", result.toJson)]
  | .count predicate => predicateMember predicate
  | .any predicate => predicateMember predicate
  | first predicate orDefault => predicateMember predicate ++ [("or_default", .bool orDefault)]
  | single predicate => predicateMember predicate
  | custom name arguments =>
    ("name", .str name) ::
      if arguments.isEmpty then [] else [("arguments", .arr (arguments.map Expr.toJson))]

def toJson (op : Operation) : Json := .object (("op", .str op.kind) :: op.fieldsToJson)

def readFields? (kind : String) (j : Json) : Option Operation :=
  match kind with
  | "Where" => do
    match ← j.slots? ["predicate"] with
    | [predicate] => some (filter (← predicate.required Expr.ofJson?))
    | _ => none
  | "Select" => do
    match ← j.slots? ["selector"] with
    | [selector] => some (select (← selector.required Expr.ofJson?))
    | _ => none
  | "OrderBy" => do
    match ← j.slots? ["key", "descending"] with
    | [key, descending] =>
      some (orderBy (← key.required Expr.ofJson?) (← descending.orElse Json.bool? false))
    | _ => none
  | "ThenBy" => do
    match ← j.slots? ["key", "descending"] with
    | [key, descending] =>
      some (thenBy (← key.required Expr.ofJson?) (← descending.orElse Json.bool? false))
    | _ => none
  | "Skip" => do
    match ← j.slots? ["count"] with
    | [n] => some (skip (← n.required Expr.ofJson?))
    | _ => none
  | "Take" => do
    match ← j.slots? ["count"] with
    | [n] => some (take (← n.required Expr.ofJson?))
    | _ => none
  | "Distinct" => (j.slots? []).map fun _ => distinct
  | "Join" => do
    match ← j.slots? ["inner", "outer_key", "inner_key", "result"] with
    | [inner, outerKey, innerKey, result] =>
      some (join (← inner.required SetRef.ofJson?) (← outerKey.required Expr.ofJson?)
        (← innerKey.required Expr.ofJson?) (← result.required Expr.ofJson?))
    | _ => none
  | "Count" => do
    match ← j.slots? ["predicate"] with
    | [predicate] => some (count (← predicate.optional Expr.ofJson?))
    | _ => none
  | "Any" => do
    match ← j.slots? ["predicate"] with
    | [predicate] => some (any (← predicate.optional Expr.ofJson?))
    | _ => none
  | "First" => do
    match ← j.slots? ["predicate", "or_default"] with
    | [predicate, orDefault] =>
      some (first (← predicate.optional Expr.ofJson?) (← orDefault.orElse Json.bool? false))
    | _ => none
  | "Single" => do
    match ← j.slots? ["predicate"] with
    | [predicate] => some (single (← predicate.optional Expr.ofJson?))
    | _ => none
  | "Custom" => do
    match ← j.slots? ["name", "arguments"] with
    | [name, arguments] =>
      some (custom (← name.required Json.string?)
        (← arguments.orElse (fun j => do (← j.items?).mapM Expr.ofJson?) []))
    | _ => none
  | _ => none

/-- Reads an operation from an object with its kind and its fields, or from an array that starts
with its kind. -/
def ofJson? (j : Json) : Option Operation :=
  match j with
  | .obj members => do
    match ← j.slots? ["op"] with
    | [kind] =>
      readFields? (← kind.required Json.string?) (.obj (members.filter fun m => m.name != "op"))
    | _ => none
  | .arr (kind :: fields) => do readFields? (← kind.string?) (.arr fields)
  | _ => none

end Operation

namespace ResultTy

def toJson : ResultTy → Json
  | sequence t => .tagged "Sequence" t.toJson
  | single t => .tagged "Single" t.toJson

def ofJson? (j : Json) : Option ResultTy :=
  match j.case? with
  | some ("Sequence", some t) => (Ty.ofJson? t).map sequence
  | some ("Single", some t) => (Ty.ofJson? t).map single
  | _ => none

end ResultTy

namespace Pipeline

def toJson (p : Pipeline) : Json :=
  .object <| ("source", p.source.toJson) ::
    (if p.operations.isEmpty then []
      else [("operations", .arr (p.operations.map Operation.toJson))]) ++
    [("result", p.result.toJson)]

def ofJson? (j : Json) : Option Pipeline := do
  match ← j.slots? ["source", "operations", "result"] with
  | [source, operations, result] =>
    some ⟨← source.required SetRef.ofJson?,
      ← operations.orElse (fun j => do (← j.items?).mapM Operation.ofJson?) [],
      ← result.required ResultTy.ofJson?⟩
  | _ => none

def fingerprint (p : Pipeline) : String := Sha256.hexOfText p.toJson.text

end Pipeline

end DeferredQuery
