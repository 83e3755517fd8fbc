import DeferredQuery.Method
import DeferredQuery.Value.Order

/-!
# Query expressions

Typed expression trees. A node is never changed in place: passes over expressions build new
trees, most of them by mapping over the children of each node in a fixed order.
-/

namespace DeferredQuery

inductive BinOp where
  | add | sub | mul | div | mod
  | eq | ne | lt | le | gt | ge
  | and | or
deriving DecidableEq, Repr

inductive UnOp where
  | neg
  | not
deriving DecidableEq, Repr

namespace BinOp

def isComparison : BinOp → Bool
  | eq | ne | lt | le | gt | ge => true
  | _ => false

def isLogical : BinOp → Bool
  | and | or => true
  | _ => false

def symbol : BinOp → String
  | add => "+"
  | sub => "-"
  | mul => "*"
  | div => "/"
  | mod => "%"
  | eq => "=="
  | ne => "!="
  | lt => "<"
  | le => "<="
  | gt => ">"
  | ge => ">="
  | and => "&&"
  | or => "||"

/-- The type of the result. Arithmetic with a floating point operand gives floating point, and
with a text gives a text. -/
def resultTy (op : BinOp) (left right : Ty) : Ty :=
  if op.isComparison || op.isLogical then .bool
  else
    match left.unwrap, right.unwrap with
    | .float, _ => .float
    | _, .float => .float
    | .string, _ => .string
    | _, .string => .string
    | t, _ => t

end BinOp

def UnOp.label : UnOp → String
  | .neg => "Neg"
  | .not => "Not"

structure Binder where
  name : String
  ty : Ty
deriving DecidableEq

inductive Expr where
  | constant (value : Value) (ty : Ty)
  /-- A parameter of a lambda around it, or a placeholder for an extracted value. -/
  | parameter (name : String) (ty : Ty)
  | member (target : Expr) (name : String) (ty : Ty)
  | call (method : Method) (receiver : Option Expr) (args : List Expr) (ty : Ty)
  | lambda (params : List Binder) (body : Expr)
  | convert (operand : Expr) (ty : Ty)
  | binary (op : BinOp) (left right : Expr)
  | unary (op : UnOp) (operand : Expr)
  /-- An anonymous row. -/
  | record (fields : List (Named Expr))
  /-- A tag around a call that has to run anew on each execution. -/
  | volatile (inner : Expr)

namespace Expr

instance : Inhabited Expr := ⟨.constant .null .null⟩

def const (v : Value) : Expr := .constant v v.ty

mutual

def ty : Expr → Ty
  | .constant _ t => t
  | .parameter _ t => t
  | .member _ _ t => t
  | .call _ _ _ t => t
  | .lambda params body => .function (params.map Binder.ty) body.ty
  | .convert _ t => t
  | .binary op left right => op.resultTy left.ty right.ty
  | .unary .not _ => .bool
  | .unary .neg operand => operand.ty
  | .record fields => .struct (fieldTys fields)
  | .volatile inner => inner.ty

def fieldTys : List (Named Expr) → List (Named Ty)
  | [] => []
  | ⟨name, e⟩ :: rest => ⟨name, e.ty⟩ :: fieldTys rest

end

def isLambda : Expr → Bool
  | .lambda .. => true
  | _ => false

def children : Expr → List Expr
  | .constant .. => []
  | .parameter .. => []
  | .member target _ _ => [target]
  | .call _ receiver args _ => receiver.toList ++ args
  | .lambda _ body => [body]
  | .convert operand _ => [operand]
  | .binary _ left right => [left, right]
  | .unary _ operand => [operand]
  | .record fields => fields.map Named.value
  | .volatile inner => [inner]

/-- The node with each child replaced, in the order of `children`. -/
def mapChildrenM {m : Type → Type} [Monad m] (f : Expr → m Expr) : Expr → m Expr
  | .constant v t => pure (.constant v t)
  | .parameter name t => pure (.parameter name t)
  | .member target name t => do return .member (← f target) name t
  | .call method none args t => do return .call method none (← args.mapM f) t
  | .call method (some receiver) args t => do
    let receiver ← f receiver
    return .call method (some receiver) (← args.mapM f) t
  | .lambda params body => do return .lambda params (← f body)
  | .convert operand t => do return .convert (← f operand) t
  | .binary op left right => do
    let left ← f left
    return .binary op left (← f right)
  | .unary op operand => do return .unary op (← f operand)
  | .record fields => do
    return .record (← fields.mapM fun field => do return ⟨field.name, ← f field.value⟩)
  | .volatile inner => do return .volatile (← f inner)

mutual

def any (p : Expr → Bool) (e : Expr) : Bool :=
  p e ||
    match e with
    | .constant .. => false
    | .parameter .. => false
    | .member target _ _ => any p target
    | .call _ none args _ => anyList p args
    | .call _ (some receiver) args _ => any p receiver || anyList p args
    | .lambda _ body => any p body
    | .convert operand _ => any p operand
    | .binary _ left right => any p left || any p right
    | .unary _ operand => any p operand
    | .record fields => anyField p fields
    | .volatile inner => any p inner

def anyList (p : Expr → Bool) : List Expr → Bool
  | [] => false
  | e :: rest => any p e || anyList p rest

def anyField (p : Expr → Bool) : List (Named Expr) → Bool
  | [] => false
  | ⟨_, e⟩ :: rest => any p e || anyField p rest

end

mutual

def depth : Expr → Nat
  | .constant .. => 1
  | .parameter .. => 1
  | .member target _ _ => target.depth + 1
  | .call _ none args _ => depthList args + 1
  | .call _ (some receiver) args _ => max receiver.depth (depthList args) + 1
  | .lambda _ body => body.depth + 1
  | .convert operand _ => operand.depth + 1
  | .binary _ left right => max left.depth right.depth + 1
  | .unary _ operand => operand.depth + 1
  | .record fields => depthFields fields + 1
  | .volatile inner => inner.depth + 1

def depthList : List Expr → Nat
  | [] => 0
  | e :: rest => max e.depth (depthList rest)

def depthFields : List (Named Expr) → Nat
  | [] => 0
  | ⟨_, e⟩ :: rest => max e.depth (depthFields rest)

end

mutual

def count (p : Expr → Bool) (e : Expr) : Nat :=
  (if p e then 1 else 0) +
    match e with
    | .constant .. => 0
    | .parameter .. => 0
    | .member target _ _ => count p target
    | .call _ none args _ => countList p args
    | .call _ (some receiver) args _ => count p receiver + countList p args
    | .lambda _ body => count p body
    | .convert operand _ => count p operand
    | .binary _ left right => count p left + count p right
    | .unary _ operand => count p operand
    | .record fields => countFields p fields
    | .volatile inner => count p inner

def countList (p : Expr → Bool) : List Expr → Nat
  | [] => 0
  | e :: rest => count p e + countList p rest

def countFields (p : Expr → Bool) : List (Named Expr) → Nat
  | [] => 0
  | ⟨_, e⟩ :: rest => count p e + countFields p rest

end

mutual

/-- Structural equality, with constants compared as values. -/
def same : Expr → Expr → Bool
  | .constant a s, .constant b t => a.same b && s == t
  | .parameter m s, .parameter n t => m == n && s == t
  | .member a m s, .member b n t => same a b && m == n && s == t
  | .call f none as s, .call g none bs t => f == g && sameList as bs && s == t
  | .call f (some a) as s, .call g (some b) bs t =>
    f == g && same a b && sameList as bs && s == t
  | .lambda ps a, .lambda qs b => ps == qs && same a b
  | .convert a s, .convert b t => same a b && s == t
  | .binary f a b, .binary g c d => f == g && same a c && same b d
  | .unary f a, .unary g b => f == g && same a b
  | .record as, .record bs => sameFields as bs
  | .volatile a, .volatile b => same a b
  | _, _ => false

def sameList : List Expr → List Expr → Bool
  | [], [] => true
  | a :: as, b :: bs => same a b && sameList as bs
  | _, _ => false

def sameFields : List (Named Expr) → List (Named Expr) → Bool
  | [], [] => true
  | ⟨m, a⟩ :: as, ⟨n, b⟩ :: bs => m == n && same a b && sameFields as bs
  | _, _ => false

end

end Expr

end DeferredQuery
