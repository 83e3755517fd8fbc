import DeferredQuery.Number.Checked

/-!
# Binary floating point numbers by their parts

A finite double is a sign, a natural significand and a power of two. Truncation and remainder are
computed on these parts and so are exact.
-/

namespace DeferredQuery.Binary64

/-- What a double denotes: `(-1) ^ negative * significand * 2 ^ exponent` when it is finite. -/
inductive Parts where
  | nan
  | infinite (negative : Bool)
  | finite (negative : Bool) (significand : Nat) (exponent : Int)
deriving DecidableEq, Repr

def leastFull : Nat := 0x10000000000000

/-- The parts of a double. The significand of a finite one has at most fifty-three bits, and no
fewer unless the exponent is the least. -/
def parts (x : Float) : Parts :=
  let bits := x.toBits.toNat
  let negative := bits >>> 63 == 1
  let biased : Nat := (bits >>> 52) % 2048
  let fraction : Nat := bits % leastFull
  if biased = 2047 then
    if fraction = 0 then .infinite negative else .nan
  else if biased = 0 then .finite negative fraction (-1074)
  else .finite negative (leastFull + fraction) ((biased : Int) - 1075)

/-- The double with the given sign and the value `significand * 2 ^ exponent`, where that value
has a double: no bit of the significand is lost. -/
def ofParts (negative : Bool) (significand : Nat) (exponent : Int) : Float :=
  let sign : Nat := if negative then 0x8000000000000000 else 0
  if significand = 0 then Float.ofBits (UInt64.ofNat sign)
  else
    let wanted : Int := max (-1074) (exponent + significand.log2 - 52)
    let shifted :=
      if exponent ≤ wanted then significand >>> (wanted - exponent).toNat
      else significand <<< (exponent - wanted).toNat
    let magnitude :=
      if shifted < leastFull then shifted
      else ((wanted + 1075).toNat <<< 52) + (shifted - leastFull)
    Float.ofBits (UInt64.ofNat (sign + magnitude))

/-- The remainder of the division toward zero, with the sign of the dividend. -/
def remainder (x y : Float) : Float :=
  match parts x, parts y with
  | .finite negative m p, .finite _ n q =>
    if n = 0 then 0.0 / 0.0
    else
      let low := min p q
      let a := m <<< (p - low).toNat
      let b := n <<< (q - low).toNat
      ofParts negative (a % b) low
  | .finite .., .infinite _ => x
  | _, _ => 0.0 / 0.0

/-- The integer part, brought into the 64-bit range; what is not a number counts as zero. -/
def truncate (x : Float) : Int64 :=
  match parts x with
  | .nan => 0
  | .infinite negative => Checked.clamp (if negative then Checked.least else Checked.greatest)
  | .finite negative m q =>
    let whole : Nat := if 0 ≤ q then m <<< q.toNat else m >>> (-q).toNat
    Checked.clamp (if negative then -whole else whole)

def ofInt64 (n : Int64) : Float := Float.ofInt n.toInt

/-- Comparison as reals; what is not a number compares with nothing. -/
def compare? (x y : Float) : Option Ordering :=
  if x < y then some .lt else if x == y then some .eq else if y < x then some .gt else none

end DeferredQuery.Binary64
