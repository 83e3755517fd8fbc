import DeferredQuery.Value.Basic

/-!
# Equality and order of values

Structural equality compares floating point numbers as numbers, so an undefined number differs
from itself. The equality of predicates widens a whole number to floating point at the top of the
value only. The order puts null first and compares numbers of both kinds.
-/

namespace DeferredQuery.Value

mutual

def same : Value → Value → Bool
  | .null, .null => true
  | .bool a, .bool b => a == b
  | .int a, .int b => a == b
  | .float a, .float b => a == b
  | .string a, .string b => a == b
  | .uuid a, .uuid b => a == b
  | .instant a, .instant b => a == b
  | .list a, .list b => sameItems a b
  | .record a, .record b => sameFields a b
  | .closure m a, .closure n b => m == n && sameCaptures a b
  | .query a, .query b => a == b
  | _, _ => false

def sameItems : List Value → List Value → Bool
  | [], [] => true
  | a :: as, b :: bs => same a b && sameItems as bs
  | _, _ => false

def sameFields : List (Named Value) → List (Named Value) → Bool
  | [], [] => true
  | ⟨m, a⟩ :: as, ⟨n, b⟩ :: bs => m == n && same a b && sameFields as bs
  | _, _ => false

def sameCaptures : List (Capture Value) → List (Capture Value) → Bool
  | [], [] => true
  | ⟨m, s, a⟩ :: as, ⟨n, t, b⟩ :: bs => m == n && s == t && same a b && sameCaptures as bs
  | _, _ => false

end

def looseEq : Value → Value → Bool
  | .int a, .float b => Binary64.ofInt64 a == b
  | .float a, .int b => a == Binary64.ofInt64 b
  | a, b => same a b

/-- The order of predicates and of sorting, where there is one. -/
def compare? : Value → Value → Option Ordering
  | .null, .null => some .eq
  | .null, _ => some .lt
  | _, .null => some .gt
  | .int a, .int b => some (compare a.toInt b.toInt)
  | .bool a, .bool b => some (compare a b)
  | .string a, .string b => some (compare a b)
  | .uuid a, .uuid b => some (Uuid.compare a b)
  | .instant a, .instant b => some (Instant.compare a b)
  | a, b =>
    match a.asFloat?, b.asFloat? with
    | some x, some y => Binary64.compare? x y
    | _, _ => none

end DeferredQuery.Value
