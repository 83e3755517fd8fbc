/-!
# Checked 64-bit arithmetic

Each operation computes over the integers and answers only when the result is a signed 64-bit
number. The remainder by minus one of the least number is refused with the quotient it belongs to.
-/

namespace DeferredQuery.Checked

def least : Int := -0x8000000000000000

def greatest : Int := 0x7fffffffffffffff

def unsignedCount : Nat := 0x10000000000000000

/-- The 64-bit number with the value `n`, if there is one. -/
def fit? (n : Int) : Option Int64 :=
  if least ≤ n ∧ n ≤ greatest then some (Int64.ofInt n) else none

def add (a b : Int64) : Option Int64 := fit? (a.toInt + b.toInt)

def sub (a b : Int64) : Option Int64 := fit? (a.toInt - b.toInt)

def mul (a b : Int64) : Option Int64 := fit? (a.toInt * b.toInt)

def div (a b : Int64) : Option Int64 := fit? (a.toInt.tdiv b.toInt)

/-- The remainder with the sign of the dividend, where the quotient fits; the divisor is not
zero. -/
def rem (a b : Int64) : Option Int64 :=
  (fit? (a.toInt.tdiv b.toInt)).bind fun _ => fit? (a.toInt.tmod b.toInt)

def neg (a : Int64) : Option Int64 := fit? (-a.toInt)

def abs (a : Int64) : Option Int64 := fit? a.toInt.natAbs

def clamp (n : Int) : Int64 :=
  if n < least then Int64.ofInt least
  else if greatest < n then Int64.ofInt greatest
  else Int64.ofInt n

/-- The number is the only one with its value. -/
theorem fit?_eq_some_iff {n : Int} {a : Int64} : fit? n = some a ↔ a.toInt = n := by
  unfold fit? least greatest
  constructor
  · intro h
    split at h
    · rename_i hn
      cases h
      exact Int64.toInt_ofInt_of_le (by omega) (by omega)
    · cases h
  · intro h
    have h1 := a.le_toInt
    have h2 := a.toInt_lt
    subst h
    rw [if_pos (by omega), Int64.ofInt_toInt]

theorem fit?_eq_none_iff {n : Int} : fit? n = none ↔ n < least ∨ greatest < n := by
  unfold fit?
  split <;> rename_i h
  · simp only [reduceCtorEq, false_iff]
    omega
  · simp only [true_iff]
    omega

end DeferredQuery.Checked
