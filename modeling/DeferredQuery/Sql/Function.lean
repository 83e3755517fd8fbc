import DeferredQuery.Sql.Term

/-!
# Functions of statements

Methods become functions by rules, of which the first that accepts a call counts.
-/

namespace DeferredQuery.Sql

structure ScalarCall where
  method : Method
  receiver : Option Term
  args : List Term
  /-- The type of the result. -/
  ty : Ty

abbrev FunctionRule := ScalarCall → Option Term

namespace FunctionRule

def power : FunctionRule := fun c =>
  if c.method = Method.mathPow ∧ c.args.length = 2 then some (.function "POWER" c.args c.ty)
  else none

def absolute : FunctionRule := fun c =>
  if c.method = Method.mathAbs then some (.function "abs" c.args c.ty) else none

def textFunction? (m : Method) : Option String :=
  if m = Method.toUpper then some "upper"
  else if m = Method.toLower then some "lower"
  else if m = Method.contains then some "contains"
  else if m = Method.startsWith then some "starts_with"
  else none

/-- Methods of texts, with the receiver as the first argument. -/
def text : FunctionRule := fun c =>
  match c.receiver, textFunction? c.method with
  | some receiver, some name => some (.function name (receiver :: c.args) c.ty)
  | _, _ => none

/-- Functions that the statement computes anew each time it runs. -/
def volatile : FunctionRule := fun c =>
  if c.method = Method.newGuid then some (.function "gen_random_uuid" [] .uuid)
  else if c.method = Method.now ∨ c.method = Method.utcNow then
    some (.cast (.function "now" [] .timestamp) .timestamp)
  else none

def method (m : Method) (function : String) : FunctionRule := fun c =>
  if c.method = m then some (.function function c.args c.ty) else none

def standard : List FunctionRule := [power, absolute, text, volatile]

def firstOf (rules : List FunctionRule) : FunctionRule := fun c => rules.findSome? fun r => r c

end FunctionRule

end DeferredQuery.Sql
