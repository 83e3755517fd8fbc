import DeferredQuery.Number.Binary64

/-!
# Decimal text of floating point numbers

A finite double is written with the fewest decimal digits that no other double is nearer to, and
among those with the digits nearest to its value. A `Layout` says where positional notation ends
and how whole numbers, exponents and ties are written.
-/

namespace DeferredQuery

/-- The number `digits * 10 ^ exponent`. -/
structure Decimal where
  digits : Nat
  exponent : Int
deriving DecidableEq, Repr

namespace Decimal

/-- Which of two equally near decimals is taken. -/
inductive Tie where
  | up
  | even
deriving DecidableEq, Repr

def tenPow (k : Nat) : Nat := Nat.pow 10 k

/-- The number of decimal digits, with one digit for zero. -/
def digitCount (n : Nat) : Nat := (Nat.toDigits 10 n).length

/-- The decimal exponent of the leading digit of the positive rational `num / den`. -/
def leadingExponent (num den : Nat) : Int :=
  if den ≤ num then (digitCount (num / den) : Int) - 1 else below 400 1 (num * 10)
where
  below : Nat → Nat → Nat → Int
    | 0, k, _ => -k
    | fuel + 1, k, scaled => if den ≤ scaled then -k else below fuel (k + 1) (scaled * 10)

/-- A double and the decimals that read back as it, in quarters of its last place: all those
between `low` and `high`, ends included when the significand is even. -/
structure Interval where
  value : Nat
  low : Nat
  high : Nat
  closed : Bool

/-- The decimals that read back as the double with the given significand and exponent. The gap
below a power of two is half as wide, except at the least exponent. -/
def Interval.of (m : Nat) (q : Int) : Interval :=
  { value := 4 * m
    low := 4 * m - (if m = Binary64.leastFull ∧ -1074 < q then 1 else 2)
    high := 4 * m + 2
    closed := m % 2 == 0 }

def Interval.holds (i : Interval) (num den k : Nat) : Bool :=
  if i.closed then i.low * num ≤ k * den && k * den ≤ i.high * num
  else i.low * num < k * den && k * den < i.high * num

/-- The point of the grid of `10 ^ exponent` in the interval that is nearest to the value, if
any; `quarter` is the exponent of two of a quarter of the last place. -/
def onGrid (tie : Tie) (i : Interval) (quarter exponent : Int) : Option Nat :=
  let num := tenPow (-exponent).toNat <<< quarter.toNat
  let den := tenPow exponent.toNat <<< (-quarter).toNat
  let k := i.value * num / den
  match i.holds num den k, i.holds num den (k + 1) with
  | true, true =>
    let under := 2 * (i.value * num)
    let middle := (2 * k + 1) * den
    if under < middle then some k
    else if middle < under then some (k + 1)
    else if tie = .even ∧ k % 2 = 0 then some k else some (k + 1)
  | true, false => some k
  | false, true => some (k + 1)
  | false, false => none

/-- Trailing zeros moved into the exponent. -/
def normalize : (fuel : Nat) → Decimal → Decimal
  | 0, d => d
  | fuel + 1, d =>
    if d.digits ≠ 0 ∧ d.digits % 10 = 0 then normalize fuel ⟨d.digits / 10, d.exponent + 1⟩ else d

/-- The shortest decimal that reads back as `m * 2 ^ q`, for a positive `m`; seventeen digits
always suffice. -/
def shortest (tie : Tie) (m : Nat) (q : Int) : Decimal :=
  let top := leadingExponent (m <<< q.toNat) (1 <<< (-q).toNat)
  let i := Interval.of m q
  let found := (List.range 17).findSome? fun (n : Nat) =>
    (onGrid tie i (q - 2) (top - n)).map fun k => (⟨k, top - n⟩ : Decimal)
  normalize 20 (found.getD ⟨0, 0⟩)

structure Layout where
  /-- Exponents of the leading digit, first and last, that are written positionally; all of them
  if there is no bound. -/
  positional : Option (Int × Int)
  /-- Whether a whole number ends in `.0` when written positionally. -/
  fraction : Bool
  /-- Whether a positive exponent has a sign. -/
  plus : Bool
  tie : Tie

def positionalText (l : Layout) (d : Decimal) : String :=
  let ds := Nat.toDigits 10 d.digits
  if 0 ≤ d.exponent then
    String.ofList (ds ++ List.replicate d.exponent.toNat '0') ++ (if l.fraction then ".0" else "")
  else
    let places := (-d.exponent).toNat
    if ds.length ≤ places then
      "0." ++ String.ofList (List.replicate (places - ds.length) '0' ++ ds)
    else
      String.ofList (ds.take (ds.length - places)) ++ "." ++
        String.ofList (ds.drop (ds.length - places))

/-- The digits with a point after the first, then the exponent of the first. -/
def exponentText (l : Layout) (d : Decimal) : String :=
  let ds := Nat.toDigits 10 d.digits
  let top := d.exponent + ds.length - 1
  let point := if ds.length = 1 then "" else "." ++ String.ofList (ds.drop 1)
  let sign := if l.plus && 0 < top then "+" else ""
  String.ofList (ds.take 1) ++ point ++ "e" ++ sign ++ toString top

def Layout.magnitude (l : Layout) (d : Decimal) : String :=
  let top := d.exponent + digitCount d.digits - 1
  match l.positional with
  | none => positionalText l d
  | some (first, last) =>
    if first ≤ top ∧ top ≤ last then positionalText l d else exponentText l d

def Layout.text (l : Layout) (x : Float) : String :=
  match Binary64.parts x with
  | .nan => "NaN"
  | .infinite negative => if negative then "-inf" else "inf"
  | .finite negative m q =>
    (if negative then "-" else "") ++
      if m = 0 then positionalText l ⟨0, 0⟩ else l.magnitude (shortest l.tie m q)

/-! ## Reading -/

def ofDigits (cs : List Char) : Nat := cs.foldl (fun n c => 10 * n + (c.toNat - 0x30)) 0

/-- The nearest double to the number with these digits before and after the point. -/
def nearest (whole fraction : List Char) : Float :=
  Float.ofScientific (ofDigits (whole ++ fraction)) true fraction.length

/-- A number as it is written, without its sign. -/
inductive Numeral where
  | nan
  | infinite
  | finite (significand : Nat) (exponent : Int)
deriving DecidableEq, Repr

def readExponent? : List Char → Option Int
  | [] => some 0
  | e :: cs =>
    let (negative, ds) := match cs with
      | '-' :: rest => (true, rest)
      | '+' :: rest => (false, rest)
      | rest => (false, rest)
    if (e = 'e' ∨ e = 'E') ∧ ds ≠ [] ∧ ds.all Char.isDigit then
      some (if negative then -(ofDigits ds : Int) else ofDigits ds)
    else none

/-- Reads an unsigned number: `inf`, `NaN`, or digits with an optional point and exponent. -/
def readNumeral? (cs : List Char) : Option Numeral :=
  match String.ofList (cs.map Char.toLower) with
  | "inf" | "infinity" => some .infinite
  | "nan" => some .nan
  | _ =>
    let whole := cs.takeWhile Char.isDigit
    let rest := cs.dropWhile Char.isDigit
    let (fraction, rest) := match rest with
      | '.' :: more => (more.takeWhile Char.isDigit, more.dropWhile Char.isDigit)
      | more => ([], more)
    if whole = [] ∧ fraction = [] then none
    else (readExponent? rest).map fun e =>
      .finite (ofDigits (whole ++ fraction)) (e - fraction.length)

def readSigned? (s : String) : Option (Bool × Numeral) :=
  match s.toList with
  | '-' :: cs => (readNumeral? cs).map fun n => (true, n)
  | '+' :: cs => (readNumeral? cs).map fun n => (false, n)
  | cs => (readNumeral? cs).map fun n => (false, n)

/-- The exponent, or one nearer to zero with which the significand is as far out of the range of
floating point numbers. -/
def boundedExponent (significand : Nat) (exponent : Int) : Int :=
  max (min exponent 400) (-400 - digitCount significand)

def scaled (significand : Nat) (exponent : Int) : Float :=
  let e := boundedExponent significand exponent
  Float.ofScientific significand (e < 0) e.natAbs

def scaledSingle (significand : Nat) (exponent : Int) : Float32 :=
  let e := boundedExponent significand exponent
  Float32.ofScientific significand (e < 0) e.natAbs

def read? (s : String) : Option Float :=
  (readSigned? s).map fun (negative, n) =>
    let x := match n with
      | .nan => 0.0 / 0.0
      | .infinite => 1.0 / 0.0
      | .finite significand exponent => scaled significand exponent
    if negative then -x else x

def readSingle? (s : String) : Option Float32 :=
  (readSigned? s).map fun (negative, n) =>
    let x := match n with
      | .nan => 0.0 / 0.0
      | .infinite => 1.0 / 0.0
      | .finite significand exponent => scaledSingle significand exponent
    if negative then -x else x

end Decimal

end DeferredQuery
