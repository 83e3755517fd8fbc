import DeferredQuery.Number.Decimal
import DeferredQuery.Text.Blank

/-!
# Instants

A moment in universal time as seconds from the start of 1970 with a fraction in nanoseconds, its
calendar date and time of day, and its texts. A fraction of a whole second or more belongs to a
leap second, which the calendar shows as second sixty.
-/

namespace DeferredQuery

structure Instant where
  seconds : Int
  nanos : Nat
deriving DecidableEq, Repr

/-- A date of the Gregorian calendar, extended to all years. -/
structure Date where
  year : Int
  month : Nat
  day : Nat
deriving DecidableEq, Repr

namespace Date

/-- The number of days from the first of March of the year 0 to the start of 1970. -/
def epochOffset : Int := 719468

/-- The days from the start of 1970 to a date; years are counted from March. -/
def toDays (d : Date) : Int :=
  let year := if d.month ≤ 2 then d.year - 1 else d.year
  let month : Nat := if d.month ≤ 2 then d.month + 9 else d.month - 3
  let dayOfYear : Int := (153 * month + 2) / 5 + d.day - 1
  365 * year + year.fdiv 4 - year.fdiv 100 + year.fdiv 400 + dayOfYear - epochOffset

def ofDays (days : Int) : Date :=
  let shifted := days + epochOffset
  let era := shifted.fdiv 146097
  let dayOfEra := (shifted - era * 146097).toNat
  let yearOfEra := (dayOfEra - dayOfEra / 1460 + dayOfEra / 36524 - dayOfEra / 146096) / 365
  let dayOfYear := dayOfEra - (365 * yearOfEra + yearOfEra / 4 - yearOfEra / 100)
  let month := (5 * dayOfYear + 2) / 153
  { year := yearOfEra + era * 400 + (if month < 10 then 0 else 1)
    month := if month < 10 then month + 3 else month - 9
    day := dayOfYear - (153 * month + 2) / 5 + 1 }

def valid (d : Date) : Bool := 1 ≤ d.month && d.month ≤ 12 && 1 ≤ d.day && ofDays d.toDays == d

end Date

namespace Instant

/-- The first second of the year -262143. -/
def firstSecond : Int := -8334601228800

/-- The last second of the year 262142. -/
def lastSecond : Int := 8210266876799

def date (t : Instant) : Date := Date.ofDays (t.seconds.fdiv 86400)

def secondOfDay (t : Instant) : Nat := (t.seconds.fmod 86400).toNat

def hour (t : Instant) : Nat := t.secondOfDay / 3600

def minute (t : Instant) : Nat := t.secondOfDay / 60 % 60

def second (t : Instant) : Nat := t.secondOfDay % 60

def compare (a b : Instant) : Ordering :=
  (Ord.compare a.seconds b.seconds).then (Ord.compare a.nanos b.nanos)

/-- The instant a whole number of microseconds after the start of 1970, if its year is in
range. -/
def ofMicros? (micros : Int) : Option Instant :=
  let seconds := micros.fdiv 1000000
  if firstSecond ≤ seconds ∧ seconds ≤ lastSecond then
    some ⟨seconds, (micros.fmod 1000000).toNat * 1000⟩
  else none

/-! ## Writing -/

def padded (width n : Nat) : String :=
  let ds := Nat.toDigits 10 n
  String.ofList (List.replicate (width - ds.length) '0' ++ ds)

/-- A year of four digits; outside these, with its sign. -/
def yearText (year : Int) : String :=
  if 0 ≤ year ∧ year ≤ 9999 then padded 4 year.toNat
  else (if year < 0 then "-" else "+") ++ padded 4 year.natAbs

def dateText (t : Instant) : String :=
  let d := t.date
  yearText d.year ++ "-" ++ padded 2 d.month ++ "-" ++ padded 2 d.day

def clockText (t : Instant) : String :=
  padded 2 t.hour ++ ":" ++ padded 2 t.minute ++ ":" ++
    padded 2 (t.second + t.nanos / 1000000000)

/-- No fraction, or three, six or nine digits of it, whichever are the fewest that are exact. -/
def fractionText (t : Instant) : String :=
  let n := t.nanos % 1000000000
  if n = 0 then ""
  else if n % 1000000 = 0 then "." ++ padded 3 (n / 1000000)
  else if n % 1000 = 0 then "." ++ padded 6 (n / 1000)
  else "." ++ padded 9 n

def text (zone : String) (t : Instant) : String :=
  t.dateText ++ "T" ++ t.clockText ++ t.fractionText ++ zone

/-- Date and time with a blank between them and six digits of the fraction. -/
def microText (t : Instant) : String :=
  t.dateText ++ " " ++ t.clockText ++ "." ++ padded 6 (t.nanos % 1000000000 / 1000)

/-! ## Reading -/

def skipBlanks (cs : List Char) : List Char := cs.dropWhile Text.isBlank

def readNumber? (width : Nat) (cs : List Char) : Option (Nat × List Char) :=
  let cs := skipBlanks cs
  let ds := (cs.take width).takeWhile Char.isDigit
  if ds = [] then none else some (Decimal.ofDigits ds, cs.drop ds.length)

/-- Reads a year: up to four digits, or any number of them after a sign. -/
def readYear? (cs : List Char) : Option (Int × List Char) :=
  match skipBlanks cs with
  | '-' :: rest => (signed rest).map fun (n, rest) => (-(n : Int), rest)
  | '+' :: rest => (signed rest).map fun (n, rest) => ((n : Int), rest)
  | cs => (readNumber? 4 cs).map fun (n, rest) => ((n : Int), rest)
where
  signed (cs : List Char) : Option (Nat × List Char) :=
    let ds := cs.takeWhile Char.isDigit
    if ds = [] then none else some (Decimal.ofDigits ds, cs.drop ds.length)

def readMark? (mark : Char) (cs : List Char) : Option (List Char) :=
  match skipBlanks cs with
  | c :: rest => if c = mark then some rest else none
  | [] => none

/-- Reads the fraction, if there is one, in nanoseconds; digits after the ninth are dropped. -/
def readFraction? : List Char → Option (Nat × List Char)
  | '.' :: rest =>
    let ds := rest.takeWhile Char.isDigit
    let kept := ds.take 9
    if ds = [] then none
    else some (Decimal.ofDigits kept * Decimal.tenPow (9 - kept.length), rest.drop ds.length)
  | cs => some (0, cs)

/-- Reads the zone as the seconds by which its clock is ahead of universal time. -/
def readZone? (cs : List Char) : Option (Int × List Char) :=
  match cs with
  | 'Z' :: rest => some (0, rest)
  | 'z' :: rest => some (0, rest)
  | '+' :: rest => hours rest
  | '-' :: rest => (hours rest).map fun (n, rest) => (-n, rest)
  | '−' :: rest => (hours rest).map fun (n, rest) => (-n, rest)
  | u :: t :: c :: rest =>
    if u.toLower = 'u' ∧ t.toLower = 't' ∧ c.toLower = 'c' then some (0, rest) else none
  | _ => none
where
  hours : List Char → Option (Int × List Char)
    | h1 :: h2 :: rest =>
      if h1.isDigit && h2.isDigit then
        match rest.dropWhile fun c => c == ':' || Text.isBlank c with
        | m1 :: m2 :: rest =>
          if m1.isDigit && m2.isDigit && m1.toNat < 0x36 then
            some ((Decimal.ofDigits [h1, h2] * 3600 + Decimal.ofDigits [m1, m2] * 60 : Nat), rest)
          else none
        | _ => none
      else none
    | _ => none

/-- The instant shown by a clock that is ahead of universal time; second sixty is a leap
second. -/
def ofClock? (d : Date) (hour minute second nanos : Nat) (ahead : Int) : Option Instant :=
  if d.valid ∧ hour < 24 ∧ minute < 60 ∧ second ≤ 60 ∧ -86400 < ahead ∧ ahead < 86400 then
    let leap := second = 60
    let shown : Int := d.toDays * 86400 + hour * 3600 + minute * 60 + (if leap then 59 else second)
    let seconds := shown - ahead
    if firstSecond ≤ shown ∧ shown ≤ lastSecond ∧ firstSecond ≤ seconds ∧ seconds ≤ lastSecond then
      some ⟨seconds, nanos + (if leap then 1000000000 else 0)⟩
    else none
  else none

/-- Reads date, time and zone; a `T` of either case or a blank stands between date and time. -/
def read? (s : String) : Option Instant := do
  let (year, cs) ← readYear? s.toList
  let cs ← readMark? '-' cs
  let (month, cs) ← readNumber? 2 cs
  let cs ← readMark? '-' cs
  let (day, cs) ← readNumber? 2 cs
  let cs ← match cs with
    | c :: rest => if c = 'T' ∨ c = 't' ∨ c = ' ' then some rest else none
    | [] => none
  let (hour, cs) ← readNumber? 2 cs
  let cs ← readMark? ':' cs
  let (minute, cs) ← readNumber? 2 cs
  let cs ← readMark? ':' cs
  let (second, cs) ← readNumber? 2 cs
  let (nanos, cs) ← readFraction? cs
  let (ahead, cs) ← readZone? (skipBlanks cs)
  if skipBlanks cs = [] then ofClock? ⟨year, month, day⟩ hour minute second nanos ahead else none

end Instant

end DeferredQuery
