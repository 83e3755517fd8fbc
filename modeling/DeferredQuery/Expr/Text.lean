import DeferredQuery.Expr.Basic
import DeferredQuery.Value.Text

/-!
# Text of expressions

The text that identifies a query's shape. Tags do not show in it, and of a constant only the value
shows, not the static type.
-/

namespace DeferredQuery.Expr

/-- The parameters of a lambda; one of them alone stands without parentheses. -/
def paramsText : List Binder → String
  | [p] => p.name
  | params => "(" ++ Text.commaSep (params.map Binder.name) ++ ")"

mutual

def text : Expr → String
  | .constant v _ => v.text
  | .parameter name _ => name
  | .member target name _ => target.text ++ "." ++ name
  | .call method none args _ => method.text ++ "(" ++ Text.commaSep (texts args) ++ ")"
  | .call method (some receiver) args _ =>
    receiver.text ++ "." ++ method.name ++ "(" ++ Text.commaSep (texts args) ++ ")"
  | .lambda params body => paramsText params ++ " => " ++ body.text
  | .convert operand t =>
    "Convert<" ++ operand.ty.text ++ ", " ++ t.text ++ ">(" ++ operand.text ++ ")"
  | .binary op left right => "(" ++ left.text ++ " " ++ op.symbol ++ " " ++ right.text ++ ")"
  | .unary .not operand => "!" ++ operand.text
  | .unary .neg operand => "-" ++ operand.text
  | .record fields => "new \x7b " ++ Text.commaSep (fieldTexts fields) ++ " \x7d"
  | .volatile inner => inner.text

def texts : List Expr → List String
  | [] => []
  | e :: rest => e.text :: texts rest

def fieldTexts : List (Named Expr) → List String
  | [] => []
  | ⟨name, e⟩ :: rest => (name ++ " = " ++ e.text) :: fieldTexts rest

end

end DeferredQuery.Expr
