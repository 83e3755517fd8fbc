import DeferredQuery.Text.Quoted

/-!
# Unique identifiers

A UUID is a 128-bit number, written as hexadecimal digits in groups of 8, 4, 4, 4 and 12.
-/

namespace DeferredQuery

structure Uuid where
  bits : BitVec 128
deriving DecidableEq, Repr

namespace Uuid

def digits (u : Uuid) : List Char :=
  (List.range 32).map fun i => Text.hexDigit ((u.bits.toNat >>> (4 * (31 - i))) % 16)

def text (u : Uuid) : String :=
  let ds := u.digits
  let group (start size : Nat) := (ds.drop start).take size
  String.ofList (group 0 8 ++ '-' :: group 8 4 ++ '-' :: group 12 4 ++ '-' :: group 16 4 ++
    '-' :: group 20 12)

def hexValue? (c : Char) : Option Nat :=
  if c.isDigit then some (c.toNat - 0x30)
  else if 'a' ≤ c ∧ c ≤ 'f' then some (c.toNat - 0x57)
  else if 'A' ≤ c ∧ c ≤ 'F' then some (c.toNat - 0x37)
  else none

def ofHex? (cs : List Char) : Option Nat :=
  cs.foldlM (fun n c => (hexValue? c).map (16 * n + ·)) 0

def ofDigits? (cs : List Char) : Option Uuid :=
  if cs.length = 32 then (ofHex? cs).map fun n => ⟨BitVec.ofNat 128 n⟩ else none

/-- The UUID with hyphens after the digits 8, 12, 16 and 20. -/
def ofHyphenated? (cs : List Char) : Option Uuid :=
  if cs.length = 36 ∧ cs[8]? = some '-' ∧ cs[13]? = some '-' ∧ cs[18]? = some '-' ∧
      cs[23]? = some '-' then
    ofDigits? (cs.take 8 ++ (cs.drop 9).take 4 ++ (cs.drop 14).take 4 ++ (cs.drop 19).take 4 ++
      cs.drop 24)
  else none

/-- Reads the plain digits, the hyphenated form, or the latter in braces or as a URN. -/
def read? (s : String) : Option Uuid :=
  let cs := s.toList
  if cs.length = 32 then ofDigits? cs
  else if cs.length = 38 ∧ cs.head? = some '\x7b' ∧ cs.getLast? = some '\x7d' then
    ofHyphenated? ((cs.drop 1).take 36)
  else if cs.take 9 = "urn:uuid:".toList then ofHyphenated? (cs.drop 9)
  else ofHyphenated? cs

def compare (a b : Uuid) : Ordering := Ord.compare a.bits.toNat b.bits.toNat

end Uuid

end DeferredQuery
