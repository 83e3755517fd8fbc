import DeferredQuery.Value.Basic

/-!
# Cells of results and values to bind

Values cross to a database as cells of a few kinds. Whole numbers come back in words of several
widths, identifiers cross as text, and instants come back in several units.
-/

namespace DeferredQuery.Sql

/-! ## Binding -/

/-- A value as it is bound to a marker. -/
inductive Bound where
  | null
  | boolean (b : Bool)
  | bigInt (n : Int64)
  | double (x : Float)
  | text (s : String)

structure BindError where
  ty : Ty

def BindError.message (e : BindError) : String := "Cannot bind a value of type " ++ e.ty.text

def bind : Value → Except BindError Bound
  | .null => .ok .null
  | .bool b => .ok (.boolean b)
  | .int n => .ok (.bigInt n)
  | .float x => .ok (.double x)
  | .string s => .ok (.text s)
  | .uuid u => .ok (.text u.text)
  | .instant t => .ok (.text t.microText)
  | v => .error ⟨v.ty⟩

/-! ## Decoding -/

inductive TimeUnit where
  | second
  | milli
  | micro
  | nano
deriving DecidableEq, Repr

inductive Cell where
  | null
  | boolean (b : Bool)
  | tinyInt (n : Int8)
  | smallInt (n : Int16)
  | int (n : Int32)
  | bigInt (n : Int64)
  | uTinyInt (n : UInt8)
  | uSmallInt (n : UInt16)
  | uInt (n : UInt32)
  | uBigInt (n : UInt64)
  /-- A signed word of 128 bits. -/
  | hugeInt (n : BitVec 128)
  | single (x : Float32)
  | double (x : Float)
  /-- A text in UTF-8. -/
  | text (bytes : ByteArray)
  | timestamp (unit : TimeUnit) (raw : Int64)
  /-- A cell of a kind without values. -/
  | other (kind : String)

inductive CellError where
  | overflow (n : Int)
  | invalidText
  | invalidUuid (text : String)
  | timestampRange (micros : Int64)
  | undecodable (kind : String) (expected : Ty)

namespace CellError

def reason : CellError → String
  | overflow n => toString n ++ " overflows int"
  | invalidText => "invalid UTF-8 text"
  | invalidUuid text => "invalid uuid '" ++ text ++ "'"
  | timestampRange micros => "timestamp " ++ toString micros.toInt ++ " out of range"
  | undecodable kind expected => kind ++ " for " ++ expected.text

def message (e : CellError) : String := "Cannot decode column: " ++ e.reason

end CellError

/-- The microseconds of a count of units, brought into the 64-bit range; parts of a microsecond
are dropped toward zero. -/
def TimeUnit.micros (unit : TimeUnit) (raw : Int64) : Int64 :=
  match unit with
  | second => Checked.clamp (raw.toInt * 1000000)
  | milli => Checked.clamp (raw.toInt * 1000)
  | micro => raw
  | nano => Checked.clamp (raw.toInt.tdiv 1000)

def decodeText (bytes : ByteArray) (expected : Ty) : Except CellError Value :=
  match String.fromUTF8? bytes with
  | none => .error .invalidText
  | some s =>
    match expected with
    | .uuid =>
      match Uuid.read? s with
      | some u => .ok (.uuid u)
      | none => .error (.invalidUuid s)
    | _ => .ok (.string s)

def narrow (n : Int) : Except CellError Value :=
  match Checked.fit? n with
  | some m => .ok (.int m)
  | none => .error (.overflow n)

/-- The value of a cell where a value of type `t` is expected. The calendar says which counts of
microseconds from the start of 1970 are instants. -/
def decode (ofMicros : Int64 → Option Instant) (cell : Cell) (t : Ty) : Except CellError Value :=
  match cell with
  | .null => .ok .null
  | .boolean b => .ok (.bool b)
  | .tinyInt n => .ok (.int n.toInt64)
  | .smallInt n => .ok (.int n.toInt64)
  | .int n => .ok (.int n.toInt64)
  | .bigInt n => .ok (.int n)
  | .uTinyInt n => .ok (.int n.toUInt64.toInt64)
  | .uSmallInt n => .ok (.int n.toUInt64.toInt64)
  | .uInt n => .ok (.int n.toUInt64.toInt64)
  | .uBigInt n => narrow n.toNat
  | .hugeInt n => narrow n.toInt
  | .single x => .ok (.float x.toFloat)
  | .double x => .ok (.float x)
  | .text bytes => decodeText bytes t.unwrap
  | .timestamp unit raw =>
    match ofMicros (unit.micros raw) with
    | some i => .ok (.instant i)
    | none => .error (.timestampRange (unit.micros raw))
  | .other kind => .error (.undecodable kind t.unwrap)

end DeferredQuery.Sql
