import DeferredQuery.Json.Basic
import DeferredQuery.Number.Decimal
import DeferredQuery.Uuid

/-!
# Reading JSON text

Each reader takes the text at its start and gives back what is left after it. A whole number
beyond the 64-bit ranges, and minus zero, are read as floating point numbers. Containers may nest
up to a given depth.
-/

namespace DeferredQuery.Json

def isBlank (c : Char) : Bool := c == ' ' || c == '\n' || c == '\t' || c == '\r'

def skipBlanks (cs : List Char) : List Char := cs.dropWhile isBlank

/-! ## Strings -/

def readHex4? : List Char → Option (Nat × List Char)
  | a :: b :: c :: d :: rest => (Uuid.ofHex? [a, b, c, d]).map (·, rest)
  | _ => none

/-- Reads what follows `\u`: a code point outside the surrogates, or a pair of surrogates. -/
def readUnicode? (cs : List Char) : Option (Char × List Char) := do
  let (n, rest) ← readHex4? cs
  if 0xDC00 ≤ n ∧ n ≤ 0xDFFF then none
  else if 0xD800 ≤ n ∧ n ≤ 0xDBFF then
    match rest with
    | '\\' :: 'u' :: more =>
      let (m, rest) ← readHex4? more
      if 0xDC00 ≤ m ∧ m ≤ 0xDFFF then
        some (Char.ofNat (0x10000 + (n - 0xD800) * 0x400 + (m - 0xDC00)), rest)
      else none
    | _ => none
  else some (Char.ofNat n, rest)

def readEscape? : List Char → Option (Char × List Char)
  | '"' :: rest => some ('"', rest)
  | '\\' :: rest => some ('\\', rest)
  | '/' :: rest => some ('/', rest)
  | 'b' :: rest => some ('\x08', rest)
  | 'f' :: rest => some ('\x0c', rest)
  | 'n' :: rest => some ('\n', rest)
  | 'r' :: rest => some ('\r', rest)
  | 't' :: rest => some ('\t', rest)
  | 'u' :: rest => readUnicode? rest
  | _ => none

def readChars? : (fuel : Nat) → List Char → Option (List Char × List Char)
  | 0, _ => none
  | fuel + 1, cs =>
    match cs with
    | '"' :: rest => some ([], rest)
    | '\\' :: rest => do
      let (c, rest) ← readEscape? rest
      let (tail, rest) ← readChars? fuel rest
      some (c :: tail, rest)
    | c :: rest =>
      if c.toNat < 0x20 then none
      else do
        let (tail, rest) ← readChars? fuel rest
        some (c :: tail, rest)
    | [] => none

def readString? (cs : List Char) : Option (String × List Char) :=
  (readChars? (cs.length + 1) cs).map fun (s, rest) => (String.ofList s, rest)

/-! ## Numbers -/

/-- The significand scaled by a power of ten, in floating point steps of at most `10 ^ 308`; none
if it is too large. -/
def scale? : (fuel : Nat) → Float → Int → Option Float
  | 0, x, _ => some x
  | fuel + 1, x, e =>
    if 308 < e then if x == 0 then some x else none
    else if 0 ≤ e then
      let y := x * Decimal.scaled 1 e
      match Binary64.parts y with
      | .finite .. => some y
      | _ => none
    else if -308 ≤ e then some (x / Decimal.scaled 1 (-e))
    else if x == 0 then some x
    else scale? fuel (x / Decimal.scaled 1 308) (e + 308)

/-- Digits are taken into the significand until it would pass 64 bits. -/
def takeDigits : Nat → List Char → Nat × List Char
  | n, [] => (n, [])
  | n, c :: cs =>
    let next := 10 * n + (c.toNat - 0x30)
    if next < Checked.unsignedCount then takeDigits next cs else (n, c :: cs)

def ofDecimal? (negative : Bool) (whole fraction : List Char) (e : Int) : Option Float :=
  let (n, restWhole) := takeDigits 0 whole
  let (n, restFraction) := takeDigits n fraction
  let e := e + restWhole.length - (fraction.length - restFraction.length : Nat)
  (scale? 8 (Float.ofInt n) e).map fun x => if negative then -x else x

def readExponent? (cs : List Char) : Option (Int × List Char) :=
  let (negative, cs) := match cs with
    | '-' :: rest => (true, rest)
    | '+' :: rest => (false, rest)
    | rest => (false, rest)
  let ds := cs.takeWhile Char.isDigit
  if ds = [] then none
  else
    let n : Int := min (Decimal.ofDigits ds) 2000000000
    some (if negative then -n else n, cs.dropWhile Char.isDigit)

def readMagnitude? (negative : Bool) (cs : List Char) : Option (Json × List Char) := do
  let whole := cs.takeWhile Char.isDigit
  let rest := cs.dropWhile Char.isDigit
  if whole = [] ∨ (whole.length ≠ 1 ∧ whole.head? = some '0') then none
  let (fraction, rest) ← match rest with
    | '.' :: more =>
      let ds := more.takeWhile Char.isDigit
      if ds = [] then none else some (some ds, more.dropWhile Char.isDigit)
    | _ => some (none, rest)
  let (e, rest) ← match rest with
    | 'e' :: more => (readExponent? more).map fun (n, rest) => (some n, rest)
    | 'E' :: more => (readExponent? more).map fun (n, rest) => (some n, rest)
    | _ => some (none, rest)
  let n := Decimal.ofDigits whole
  if fraction.isNone ∧ e.isNone ∧ n < Checked.unsignedCount ∧
      (negative → 0 < n ∧ Checked.least ≤ -n) then
    some (.int (if negative then -n else n), rest)
  else do
    let x ← ofDecimal? negative whole (fraction.getD []) (e.getD 0)
    some (.float x, rest)

/-! ## Values -/

mutual

/-- Reads a value after blanks, with at most `depth` containers around its innermost part. -/
def readValue? : (fuel depth : Nat) → List Char → Option (Json × List Char)
  | 0, _, _ => none
  | fuel + 1, depth, cs =>
    match skipBlanks cs with
    | '"' :: rest => (readString? rest).map fun (s, rest) => (.str s, rest)
    | '[' :: rest =>
      if depth = 0 then none
      else
        match skipBlanks rest with
        | ']' :: rest => some (.arr [], rest)
        | rest => (readItems? fuel (depth - 1) rest).map fun (items, rest) => (.arr items, rest)
    | '\x7b' :: rest =>
      if depth = 0 then none
      else
        match skipBlanks rest with
        | '\x7d' :: rest => some (.obj [], rest)
        | rest => (readMembers? fuel (depth - 1) rest).map fun (ms, rest) => (.obj ms, rest)
    | '-' :: rest => readMagnitude? true rest
    | 'n' :: 'u' :: 'l' :: 'l' :: rest => some (.null, rest)
    | 't' :: 'r' :: 'u' :: 'e' :: rest => some (.bool true, rest)
    | 'f' :: 'a' :: 'l' :: 's' :: 'e' :: rest => some (.bool false, rest)
    | rest => readMagnitude? false rest

def readItems? : (fuel depth : Nat) → List Char → Option (List Json × List Char)
  | 0, _, _ => none
  | fuel + 1, depth, cs => do
    let (j, rest) ← readValue? fuel depth cs
    match skipBlanks rest with
    | ',' :: rest => do
      let (items, rest) ← readItems? fuel depth rest
      some (j :: items, rest)
    | ']' :: rest => some ([j], rest)
    | _ => none

def readMembers? : (fuel depth : Nat) → List Char → Option (List (Named Json) × List Char)
  | 0, _, _ => none
  | fuel + 1, depth, cs =>
    match skipBlanks cs with
    | '"' :: rest => do
      let (name, rest) ← readString? rest
      match skipBlanks rest with
      | ':' :: rest => do
        let (j, rest) ← readValue? fuel depth rest
        match skipBlanks rest with
        | ',' :: rest => do
          let (ms, rest) ← readMembers? fuel depth rest
          some (⟨name, j⟩ :: ms, rest)
        | '\x7d' :: rest => some ([⟨name, j⟩], rest)
        | _ => none
      | _ => none
    | _ => none

end

/-- Reads a whole text that holds one value and blanks around it. -/
def ofText? (depth : Nat) (s : String) : Option Json :=
  let cs := s.toList
  match readValue? (2 * cs.length + 2) depth cs with
  | some (j, rest) => if skipBlanks rest = [] then some j else none
  | none => none

def nestingLimit : Nat := 127

end DeferredQuery.Json
