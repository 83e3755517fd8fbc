import DeferredQuery.Expr.Basic

/-!
# Tagging volatile calls

A call whose result differs from call to call looks closed, but has to run on each execution.
Tagging puts a node around each such call, which keeps it out of the values that are computed
before the query runs; untagging takes the nodes away again.
-/

namespace DeferredQuery

abbrev VolatileMethods := List Method

namespace VolatileMethods

def standard : VolatileMethods := [Method.newGuid, Method.now, Method.utcNow]

/-- Whether an expression is a call to tag: one of a listed method with no part that a store
produces. -/
def marks (ms : VolatileMethods) : Expr → Bool
  | .call m receiver args _ =>
    ms.contains m && (receiver.toList ++ args).all fun e => !e.ty.isQueryable
  | _ => false

def mark (ms : VolatileMethods) (e : Expr) : Expr := if ms.marks e then .volatile e else e

mutual

/-- Tags the calls in an expression, the innermost first. -/
def tag (ms : VolatileMethods) : Expr → Expr
  | .constant v t => .constant v t
  | .parameter name t => .parameter name t
  | .member target name t => .member (tag ms target) name t
  | .call m none args t => mark ms (.call m none (tagList ms args) t)
  | .call m (some receiver) args t =>
    mark ms (.call m (some (tag ms receiver)) (tagList ms args) t)
  | .lambda params body => .lambda params (tag ms body)
  | .convert operand t => .convert (tag ms operand) t
  | .binary op left right => .binary op (tag ms left) (tag ms right)
  | .unary op operand => .unary op (tag ms operand)
  | .record fields => .record (tagFields ms fields)
  | .volatile inner => .volatile (tag ms inner)

def tagList (ms : VolatileMethods) : List Expr → List Expr
  | [] => []
  | e :: rest => tag ms e :: tagList ms rest

def tagFields (ms : VolatileMethods) : List (Named Expr) → List (Named Expr)
  | [] => []
  | ⟨name, e⟩ :: rest => ⟨name, tag ms e⟩ :: tagFields ms rest

end

end VolatileMethods

namespace Expr

def isTag : Expr → Bool
  | .volatile _ => true
  | _ => false

mutual

def untag : Expr → Expr
  | .constant v t => .constant v t
  | .parameter name t => .parameter name t
  | .member target name t => .member target.untag name t
  | .call m none args t => .call m none (untagList args) t
  | .call m (some receiver) args t => .call m (some receiver.untag) (untagList args) t
  | .lambda params body => .lambda params body.untag
  | .convert operand t => .convert operand.untag t
  | .binary op left right => .binary op left.untag right.untag
  | .unary op operand => .unary op operand.untag
  | .record fields => .record (untagFields fields)
  | .volatile inner => inner.untag

def untagList : List Expr → List Expr
  | [] => []
  | e :: rest => e.untag :: untagList rest

def untagFields : List (Named Expr) → List (Named Expr)
  | [] => []
  | ⟨name, e⟩ :: rest => ⟨name, e.untag⟩ :: untagFields rest

end

end Expr

end DeferredQuery
