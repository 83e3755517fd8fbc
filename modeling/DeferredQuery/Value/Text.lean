import DeferredQuery.Text.Quoted
import DeferredQuery.Value.Basic

/-!
# Text of values

Strings are quoted, and a closure shows its class alone, so that captured data never enters the
text of a query.
-/

namespace DeferredQuery.Value

/-- Positional from 0.0001 up to 16 digits before the point, whole numbers ending in `.0`. -/
def floatLayout : Decimal.Layout := ⟨some (-4, 15), true, false, .up⟩

mutual

def text : Value → String
  | .null => "null"
  | .bool b => if b then "true" else "false"
  | .int n => toString n.toInt
  | .float x => floatLayout.text x
  | .string s => Text.quoted s
  | .uuid u => "uuid(" ++ u.text ++ ")"
  | .instant t => "timestamp(" ++ t.text "+00:00" ++ ")"
  | .list items => "[" ++ Text.commaSep (itemTexts items) ++ "]"
  | .record fields => "\x7b " ++ Text.commaSep (fieldTexts fields) ++ " \x7d"
  | .closure className _ => "value(" ++ className ++ ")"
  | .query root => "Query<" ++ root.entity ++ ">"

def itemTexts : List Value → List String
  | [] => []
  | v :: rest => v.text :: itemTexts rest

def fieldTexts : List (Named Value) → List String
  | [] => []
  | ⟨name, v⟩ :: rest => (name ++ " = " ++ v.text) :: fieldTexts rest

end

def plainText : Value → String
  | .string s => s
  | v => v.text

end DeferredQuery.Value
