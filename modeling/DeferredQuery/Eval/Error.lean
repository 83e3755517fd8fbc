import DeferredQuery.Expr.Text

/-!
# Errors of evaluation
-/

namespace DeferredQuery

/-- A value or an expression of a kind that its place does not allow. -/
inductive Mismatch where
  /-- A logical operand that is not a truth value. -/
  | notBool (found : Ty)
  | unaryOperand (op : UnOp) (found : Ty)
  | incomparable (left right : Ty)
  | operands (op : BinOp) (left right : Ty)
  | lambdaValue
  | notLambda (found : Expr)
  | lambdaArity (params args : Nat)
  /-- A predicate's result that is not a truth value. -/
  | predicateResult (found : Ty)
  | notSequence (found : Ty)
  /-- A count that is not a whole number. -/
  | notCount (found : Ty)
  /-- An operator without the sequence that it works on. -/
  | noSource (operator : Method)
  | noKeySelector (operator : Method)
  /-- A secondary sort key that does not follow a sort key. -/
  | notOrdered
  /-- An operation after one that ends a query. -/
  | afterTerminal (operation : String)

namespace Mismatch

def message : Mismatch → String
  | notBool found => "expected bool, found " ++ found.text
  | unaryOperand op found => "cannot apply " ++ op.label ++ " to " ++ found.text
  | incomparable left right => "cannot compare " ++ left.text ++ " with " ++ right.text
  | operands op left right =>
    "cannot apply '" ++ op.symbol ++ "' to " ++ left.text ++ " and " ++ right.text
  | lambdaValue => "a lambda has no value outside a query operator"
  | notLambda found => "expected a lambda, found " ++ found.text
  | lambdaArity params args =>
    "lambda takes " ++ toString params ++ " arguments, " ++ toString args ++ " given"
  | predicateResult found => "predicate returned " ++ found.text
  | notSequence found => "expected a sequence, found " ++ found.text
  | notCount found => "expected an integer count, found " ++ found.text
  | noSource operator => operator.text ++ " needs a source sequence"
  | noKeySelector operator => operator.text ++ " takes a key selector"
  | notOrdered => "ThenBy requires an ordered sequence"
  | afterTerminal operation => operation ++ " cannot follow a terminal operation"

end Mismatch

inductive EvalError where
  | unboundParameter (name : String)
  | missingMember (member target : String)
  /-- A member, a method or the items of `null`. -/
  | nullReference (reading : String)
  | typeMismatch (cause : Mismatch)
  | divisionByZero
  /-- A result that is no 64-bit number. -/
  | overflow (operation : String)
  | unsupportedMethod (method : Method)
  /-- An entity set without a source of rows. -/
  | noSource (set : String)
  | emptySequence
  | multipleElements

namespace EvalError

instance : Inhabited EvalError := ⟨.emptySequence⟩

def message : EvalError → String
  | unboundParameter name => "Unbound parameter: " ++ name
  | missingMember member target => "Member '" ++ member ++ "' not found on " ++ target
  | nullReference reading => "Null reference while reading '" ++ reading ++ "'"
  | typeMismatch cause => "Type mismatch: " ++ cause.message
  | divisionByZero => "Division by zero"
  | overflow operation => "Integer overflow in '" ++ operation ++ "'"
  | unsupportedMethod method => "Unsupported method: " ++ method.text
  | noSource set => "No data source available for entity set '" ++ set ++ "'"
  | emptySequence => "Sequence contains no elements"
  | multipleElements => "Sequence contains more than one element"

end EvalError

end DeferredQuery
