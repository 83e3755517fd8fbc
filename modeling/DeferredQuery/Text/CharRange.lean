/-!
# Sets of characters as code point ranges

A property of characters is given by the inclusive ranges of code points that have it.
-/

namespace DeferredQuery.Text

def inRanges (ranges : List (Nat × Nat)) (c : Char) : Bool :=
  ranges.any fun r => r.1 ≤ c.toNat && c.toNat ≤ r.2

@[simp] theorem inRanges_nil (c : Char) : inRanges [] c = false := rfl

@[simp] theorem inRanges_cons (r : Nat × Nat) (rs : List (Nat × Nat)) (c : Char) :
    inRanges (r :: rs) c = ((r.1 ≤ c.toNat && c.toNat ≤ r.2) || inRanges rs c) := rfl

end DeferredQuery.Text
