import DeferredQuery.Json.Basic
import DeferredQuery.Number.Decimal
import DeferredQuery.Text.Join
import DeferredQuery.Text.Quoted

/-!
# Canonical JSON text

No blanks, members in order, and each string with the fewest escapes. A number that is infinite
or undefined has no JSON text and is written as `null`.
-/

namespace DeferredQuery.Json

/-- Positional from 0.00001 up to 16 digits before the point, whole numbers ending in `.0`, and
otherwise an exponent with its sign. -/
def floatLayout : Decimal.Layout := ⟨some (-5, 15), true, true, .even⟩

/-- The characters that stand for `c` in a string: the quote, the backslash and the control
characters are escaped. -/
def escapeChar (c : Char) : List Char :=
  if c = '"' then ['\\', '"']
  else if c = '\\' then ['\\', '\\']
  else if c = '\x08' then ['\\', 'b']
  else if c = '\x0c' then ['\\', 'f']
  else if c = '\n' then ['\\', 'n']
  else if c = '\r' then ['\\', 'r']
  else if c = '\t' then ['\\', 't']
  else if c.toNat < 0x20 then
    ['\\', 'u', '0', '0', Text.hexDigit (c.toNat / 16), Text.hexDigit (c.toNat % 16)]
  else [c]

def stringText (s : String) : String :=
  String.ofList ('"' :: s.toList.flatMap escapeChar ++ ['"'])

def floatText (x : Float) : String :=
  match Binary64.parts x with
  | .finite .. => floatLayout.text x
  | _ => "null"

mutual

def text : Json → String
  | .null => "null"
  | .bool b => if b then "true" else "false"
  | .int n => toString n
  | .float x => floatText x
  | .str s => stringText s
  | .arr items => "[" ++ Text.joinWith "," (itemTexts items) ++ "]"
  | .obj members => "\x7b" ++ Text.joinWith "," (memberTexts members) ++ "\x7d"

def itemTexts : List Json → List String
  | [] => []
  | j :: rest => j.text :: itemTexts rest

def memberTexts : List (Named Json) → List String
  | [] => []
  | ⟨name, j⟩ :: rest => (stringText name ++ ":" ++ j.text) :: memberTexts rest

end

end DeferredQuery.Json
