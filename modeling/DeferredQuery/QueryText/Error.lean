import DeferredQuery.Ty.Basic

/-!
# Errors in query texts

Why a text is no query: the grammar rejects it, or one of its names, members, methods or literals
means nothing.
-/

namespace DeferredQuery.QueryText

inductive Error where
  | malformed
  /-- A literal above the greatest 64-bit number. -/
  | integerTooLarge (digits : String)
  /-- A field of a row that has no label and is not named by a member or a parameter. -/
  | unnamedField (source : String)
  | unknownName (name : String)
  | unknownMember (ty : Ty) (member : String)
  | unknownMethod (receiver method : String)
deriving DecidableEq

def Error.message : Error → String
  | malformed => ""
  | integerTooLarge digits =>
    "Syntax error: Invalid integer '" ++ digits ++ "': number too large to fit in target type"
  | unnamedField source => "Syntax error: Anonymous field needs a name: " ++ source
  | unknownName name => "Unknown identifier: " ++ name
  | unknownMember ty member => "Type " ++ ty.text ++ " has no member '" ++ member ++ "'"
  | unknownMethod receiver method => "No method '" ++ method ++ "' on " ++ receiver

end DeferredQuery.QueryText
