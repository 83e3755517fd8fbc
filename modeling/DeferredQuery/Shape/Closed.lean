import DeferredQuery.Expr.Basic

/-!
# Closed parts of a query

For each node of an expression, whether its value is known before the query runs: it depends on no
parameter, no volatile call and nothing that a store produces.
-/

namespace DeferredQuery

/-- A tree of the same form as an expression, with children in the order of `Expr.children`. -/
inductive Closedness where
  | node (closed : Bool) (children : List Closedness)

namespace Closedness

def closed : Closedness → Bool
  | node b _ => b

def children : Closedness → List Closedness
  | node _ cs => cs

def ofChildren (cs : List Closedness) : Closedness := node (cs.all closed) cs

/-- The node with the same children, but not closed itself. -/
def opened : Closedness → Closedness
  | node _ cs => node false cs

mutual

/-- The closedness of each node of an expression. A tag and the call in it are not closed, though
the call's arguments may be. -/
def analyze : Expr → Closedness
  | .constant _ t => node (!t.isQueryable) []
  | .parameter .. => node false []
  | .member target _ _ => ofChildren [analyze target]
  | .call _ none args _ => ofChildren (analyzeList args)
  | .call _ (some receiver) args _ => ofChildren (analyze receiver :: analyzeList args)
  | .lambda _ body => ofChildren [analyze body]
  | .convert operand _ => ofChildren [analyze operand]
  | .binary _ left right => ofChildren [analyze left, analyze right]
  | .unary _ operand => ofChildren [analyze operand]
  | .record fields => ofChildren (analyzeFields fields)
  | .volatile inner => node false [(analyze inner).opened]

def analyzeList : List Expr → List Closedness
  | [] => []
  | e :: rest => analyze e :: analyzeList rest

def analyzeFields : List (Named Expr) → List Closedness
  | [] => []
  | ⟨_, e⟩ :: rest => analyze e :: analyzeFields rest

end

/-- The closedness at the head of the list that belongs to an expression, or else a fresh one. -/
def headOr (e : Expr) (cs : List Closedness) : Closedness :=
  match cs with
  | c :: _ => c
  | [] => analyze e

end Closedness

end DeferredQuery
