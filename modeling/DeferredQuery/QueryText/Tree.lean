import DeferredQuery.Expr.Basic

/-!
# Syntax trees of query texts

What a query text says before its names are resolved: operators, lambdas, member and call chains,
anonymous rows and literals.
-/

namespace DeferredQuery.QueryText

inductive Literal where
  | null
  | bool (b : Bool)
  /-- A whole number by its digits. -/
  | int (digits : List Char)
  /-- A number by its digits before and after the point. -/
  | float (whole fraction : List Char)
  /-- The characters between the quotes, escapes included. -/
  | string (raw : List Char)
deriving DecidableEq, Repr

structure Init (α : Type) where
  label : Option String
  source : String
  value : α

inductive Tree where
  | name (id : String)
  | literal (l : Literal)
  | paren (inner : Tree)
  | lambda (params : List String) (body : Tree)
  | binary (op : BinOp) (left right : Tree)
  | unary (op : UnOp) (operand : Tree)
  | member (target : Tree) (name : String)
  | call (target : Tree) (name : String) (args : List Tree)
  | record (fields : List (Init Tree))

end DeferredQuery.QueryText
