import DeferredQuery.Pipeline.Basic

/-!
# Classification

A query expression is a chain of calls, each taking the sequence below it as its first argument,
down to an entity set. A classifier says which operation each call stands for.
-/

namespace DeferredQuery

inductive ClassifyError where
  | unclassified (method : Method)
  /-- The chain ends in an expression that is no entity set. -/
  | missingSource (found : Expr)
  | arity (method : Method) (expected actual : Nat)
  /-- A join with something other than an entity set. -/
  | joinSource (found : Expr)

namespace ClassifyError

def message : ClassifyError → String
  | unclassified method => "Unclassified query operation: " ++ method.text
  | missingSource found => "Query has no queryable source: " ++ found.text
  | arity method expected actual =>
    "Operation " ++ method.text ++ " expects " ++ toString expected ++ " arguments, got " ++
      toString actual
  | joinSource found => "Unsupported join source: " ++ found.text

end ClassifyError

abbrev OperationBuilder := List Expr → Except ClassifyError Operation

abbrev Classifier := Method → Option OperationBuilder

namespace Classifier

/-! ## Builders -/

def unary (m : Method) (make : Expr → Operation) : OperationBuilder
  | [e] => .ok (make e)
  | args => .error (.arity m 1 args.length)

def nullary (m : Method) (op : Operation) : OperationBuilder
  | [] => .ok op
  | args => .error (.arity m 0 args.length)

def optional (m : Method) (make : Option Expr → Operation) : OperationBuilder
  | [] => .ok (make none)
  | [e] => .ok (make (some e))
  | args => .error (.arity m 1 args.length)

def join (m : Method) : OperationBuilder
  | [.constant (.query root) _, outerKey, innerKey, result] =>
    .ok (.join root outerKey innerKey result)
  | [inner, _, _, _] => .error (.joinSource inner)
  | args => .error (.arity m 4 args.length)

/-! ## Classifiers -/

/-- The query operators with operations of their own. -/
def builtins : Classifier := fun m =>
  if m.isOperator then
    match m.name with
    | "Where" => some (unary m .filter)
    | "Select" => some (unary m .select)
    | "OrderBy" => some (unary m (.orderBy · false))
    | "OrderByDescending" => some (unary m (.orderBy · true))
    | "ThenBy" => some (unary m (.thenBy · false))
    | "ThenByDescending" => some (unary m (.thenBy · true))
    | "Skip" => some (unary m .skip)
    | "Take" => some (unary m .take)
    | "Distinct" => some (nullary m .distinct)
    | "Join" => some (join m)
    | "Count" => some (optional m .count)
    | "Any" => some (optional m .any)
    | "First" => some (optional m (.first · false))
    | "FirstOrDefault" => some (optional m (.first · true))
    | "Single" => some (optional m .single)
    | _ => none
  else none

/-- Methods of any owner that are kept by their names with all their arguments. -/
def named (names : List String) : Classifier := fun m =>
  if m.name ∈ names then some fun args => .ok (.custom m.name args) else none

def renamed (methods : List Method) (name : String) : Classifier := fun m =>
  if m ∈ methods then some fun _ => .ok (.custom name []) else none

def firstOf (cs : List Classifier) : Classifier := fun m => cs.findSome? fun c => c m

/-- The operators, then the hints that leave the rows as they are. -/
def standard : Classifier := firstOf [builtins, named ["Include", "ThenInclude", "TagWith"]]

end Classifier

namespace Pipeline

/-- A call on a sequence without the sequence. -/
structure Step where
  method : Method
  args : List Expr

/-- The source and the steps of a chain, in the order of their work; `later` are the steps above
the expression. -/
def spine (later : List Step) : Expr → Except ClassifyError (SetRef × List Step)
  | .constant (.query root) _ => .ok (root, later)
  | .call m none (receiver :: args) t =>
    if receiver.ty.isQueryable then spine (⟨m, args⟩ :: later) receiver
    else .error (.missingSource (.call m none (receiver :: args) t))
  | e => .error (.missingSource e)

def Step.classify (c : Classifier) (s : Step) : Except ClassifyError Operation :=
  match c s.method with
  | some build => build s.args
  | none => .error (.unclassified s.method)

def classifySteps (c : Classifier) : List Step → Except ClassifyError (List Operation)
  | [] => .ok []
  | s :: rest => do
    let op ← s.classify c
    return op :: (← classifySteps c rest)

def resultTy (operations : List Operation) (t : Ty) : ResultTy :=
  match operations.getLast? with
  | some op => if op.isTerminal then .single t else .sequence (t.element?.getD .unknown)
  | none => .sequence (t.element?.getD .unknown)

def classify (c : Classifier) (e : Expr) : Except ClassifyError Pipeline := do
  let (source, steps) ← spine [] e
  let operations ← classifySteps c steps
  return ⟨source, operations, resultTy operations e.ty⟩

end Pipeline

end DeferredQuery
