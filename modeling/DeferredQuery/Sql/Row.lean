import DeferredQuery.Schema.Basic
import DeferredQuery.Sql.Error
import DeferredQuery.Sql.Function

/-!
# Rows in terms of a statement

The rows that flow through a pipeline, each part of them a term over the tables of the statement.
A lambda's body is lowered with its parameters standing for such rows, so that an operation after
a projection is written over the projected terms.
-/

namespace DeferredQuery.Sql

inductive Row where
  /-- A row of an entity's table. -/
  | entity (table entity : String)
  | scalar (term : Term) (ty : Ty)
  | record (fields : List (Named Row))

/-- The rows that lambda parameters stand for, the innermost first. -/
abbrev RowScope := List (Named Row)

structure Context where
  schema : Schema
  rules : List FunctionRule

namespace Row

def asScalar : Row → Except Error Term
  | scalar t _ => .ok t
  | entity _ name => .error (.unsupported (.rowValue name))
  | record _ => .error (.unsupported .recordValue)

end Row

namespace Context

def property (ctx : Context) (entity name : String) : Except Error Property :=
  match (ctx.schema.entities.get? entity).bind fun e => e.property? name with
  | some p => .ok p
  | none => .error (.unknownProperty entity name)

/-- A member of a row, of type `t` where it is a column. -/
def member (ctx : Context) (row : Row) (name : String) (t : Ty) : Except Error Row :=
  match row with
  | .entity table entity => do
    let p ← ctx.property entity name
    return .scalar (.column table p.column) t
  | .record fields =>
    match Named.find? name fields with
    | some r => .ok r
    | none => .error (.unsupported (.missingField name))
  | .scalar .. => .error (.unsupported (.scalarMember name))

end Context

/-- Whether a conversion leaves the stored value as it is: it only makes the value optional, or
forgets its type. -/
def keepsValue (operand : Expr) (t : Ty) : Bool :=
  t == .object || t.unwrap == operand.ty.unwrap

/-- Whether an operator means something else in a statement than in a query: joining texts, and
the quotient of whole numbers. -/
def diverges (op : BinOp) (left right : Ty) : Bool :=
  match op with
  | .add => left.unwrap == .string || right.unwrap == .string
  | .div => left.unwrap == .int && right.unwrap == .int
  | _ => false

mutual

def lower (ctx : Context) (scope : RowScope) : Expr → Except Error Row
  | .constant (.query root) _ => .error (.unsupported (.nestedQuery root.set))
  | .constant v t => .ok (.scalar (.literal v) t)
  | .parameter name t =>
    match Named.find? name scope with
    | some row => .ok row
    | none => .ok (.scalar (placeholder name t) t)
  | .member target name t => do
    let row ← lower ctx scope target
    ctx.member row name t
  | .call m receiver args t => do
    let receiver ← match receiver with
      | none => pure none
      | some e => do
        let row ← lower ctx scope e
        let term ← row.asScalar
        pure (some term)
    let args ← lowerTerms ctx scope args
    match FunctionRule.firstOf ctx.rules ⟨m, receiver, args, t⟩ with
    | some term => return .scalar term t
    | none => throw (.noFunction m)
  | .lambda .. => .error (.unsupported .lambdaValue)
  | .convert operand t =>
    if keepsValue operand t then lower ctx scope operand
    else do
      let row ← lower ctx scope operand
      let term ← row.asScalar
      return .scalar (.cast term t) t
  | .binary op left right =>
    if diverges op left.ty right.ty then .error (.unsupported (.operands op left.ty right.ty))
    else do
      let l ← lower ctx scope left
      let l ← l.asScalar
      let r ← lower ctx scope right
      let r ← r.asScalar
      return .scalar (.binary op l r) (op.resultTy left.ty right.ty)
  | .unary op operand => do
    let row ← lower ctx scope operand
    let term ← row.asScalar
    return .scalar (.unary op term) (Expr.unary op operand).ty
  | .record fields => do
    let rows ← lowerFields ctx scope fields
    return .record rows
  | .volatile inner => lower ctx scope inner

def lowerTerms (ctx : Context) (scope : RowScope) : List Expr → Except Error (List Term)
  | [] => .ok []
  | e :: rest => do
    let row ← lower ctx scope e
    let term ← row.asScalar
    let terms ← lowerTerms ctx scope rest
    return term :: terms

def lowerFields (ctx : Context) (scope : RowScope) :
    List (Named Expr) → Except Error (List (Named Row))
  | [] => .ok []
  | ⟨name, e⟩ :: rest => do
    let row ← lower ctx scope e
    let rows ← lowerFields ctx scope rest
    return ⟨name, row⟩ :: rows

end

def lowerTerm (ctx : Context) (scope : RowScope) (e : Expr) : Except Error Term := do
  let row ← lower ctx scope e
  row.asScalar

/-- What a lambda makes of rows; of two parameters with one name the last counts. -/
def lowerLambda (ctx : Context) (args : List Row) : Expr → Except Error Row
  | .lambda params body =>
    if params.length = args.length then
      lower ctx ((params.zip args).map fun x => ⟨x.1.name, x.2⟩).reverse body
    else .error (.unsupported (.lambdaArity params.length args.length))
  | e => .error (.unsupported (.notLambda e))

def lowerLambdaTerm (ctx : Context) (args : List Row) (e : Expr) : Except Error Term := do
  let row ← lowerLambda ctx args e
  row.asScalar

end DeferredQuery.Sql
