import Mathlib.Algebra.Ring.Nat
import DeferredQuery.Text.Quoted

/-!
# Quoted texts read back

The characters between quotes determine the text: each character of it can be taken off the front
again. No quote stands between the quotes but behind a backslash.
-/

namespace DeferredQuery.Text

/-! ## Hexadecimal digits -/

def hexValue (c : Char) : Nat := if c.isDigit then c.toNat - 0x30 else c.toNat - 0x57

theorem hexValue_hexDigit : ∀ n, n < 16 → hexValue (hexDigit n) = n := by decide

theorem hexDigit_plain : ∀ n, n < 16 → hexDigit n ≠ '\x7d' ∧ hexDigit n ≠ '"' ∧
    hexDigit n ≠ '\\' := by decide

theorem hexDigits_plain {places n : Nat} {c : Char} (hc : c ∈ hexDigits places n) :
    c ≠ '\x7d' ∧ c ≠ '"' ∧ c ≠ '\\' := by
  induction places generalizing n with
  | zero => cases hc
  | succ places ih =>
      rw [hexDigits] at hc
      rcases List.mem_append.mp hc with hc | hc
      · split at hc
        · cases hc
        · exact ih hc
      · rw [List.mem_singleton.mp hc]
        exact hexDigit_plain _ (Nat.mod_lt _ (by decide))

def ofHex (cs : List Char) : Nat := cs.foldl (fun n c => 16 * n + hexValue c) 0

theorem ofHex_append_singleton (cs : List Char) (c : Char) :
    ofHex (cs ++ [c]) = 16 * ofHex cs + hexValue c := by simp [ofHex]

/-- The digits of a number that is not too large for them denote it. -/
theorem ofHex_hexDigits {places n : Nat} (hn : n < 16 ^ places) :
    ofHex (hexDigits places n) = n := by
  induction places generalizing n with
  | zero =>
      obtain rfl : n = 0 := by simpa using hn
      rfl
  | succ places ih =>
      rw [hexDigits, ofHex_append_singleton, hexValue_hexDigit _ (Nat.mod_lt _ (by decide))]
      split
      · next hlt =>
          have : ofHex [] = 0 := rfl
          omega
      · rw [Nat.pow_succ] at hn
        rw [ih (by omega)]
        omega

/-! ## Characters between quotes -/

def unquote? : List Char → Option (Char × List Char)
  | '\\' :: 'u' :: '\x7b' :: rest =>
    some (Char.ofNat (ofHex (rest.takeWhile (· != '\x7d'))), (rest.dropWhile (· != '\x7d')).drop 1)
  | '\\' :: c :: rest =>
    some (if c = 'n' then '\n' else if c = 't' then '\t' else if c = 'r' then '\r'
      else if c = '0' then '\x00' else c, rest)
  | c :: rest => some (c, rest)
  | [] => none

/-- A code point is written by six digits at most, between braces. -/
theorem unquote?_hexDigits (c : Char) (rest : List Char) :
    unquote? (['\\', 'u', '\x7b'] ++ hexDigits 6 c.toNat ++ ['\x7d'] ++ rest) =
      some (c, rest) := by
  have hplain : ∀ d ∈ hexDigits 6 c.toNat, (d != '\x7d') = true := fun d hd => by
    simpa using (hexDigits_plain hd).1
  have hvalue : ofHex (hexDigits 6 c.toNat) = c.toNat := by
    have hlt : c.toNat < 0x110000 := by
      rcases c.valid with h | h
      · exact Nat.lt_trans h (by decide)
      · exact h.2
    exact ofHex_hexDigits (Nat.lt_trans hlt (by decide))
  simp only [List.append_assoc, List.cons_append, List.nil_append, unquote?]
  rw [List.takeWhile_append_of_pos hplain, List.dropWhile_append_of_pos hplain]
  simp [hvalue]

/-- Each character is read back alone, whatever follows it. -/
theorem unquote?_quoteChar (c : Char) (rest : List Char) :
    unquote? (quoteChar c ++ rest) = some (c, rest) := by
  unfold quoteChar
  split
  · subst_vars; rfl
  split
  · subst_vars; rfl
  split
  · subst_vars; rfl
  split
  · subst_vars; rfl
  split
  · subst_vars; rfl
  split
  · subst_vars; rfl
  split
  · next hslash _ _ _ _ _ =>
      rw [List.singleton_append]
      unfold unquote?
      split <;> simp_all
  · exact unquote?_hexDigits c rest

theorem quoteChar_injective {c d : Char} {cs ds : List Char}
    (h : quoteChar c ++ cs = quoteChar d ++ ds) : c = d ∧ cs = ds := by
  have hread := unquote?_quoteChar c cs
  rw [h, unquote?_quoteChar] at hread
  cases hread
  exact ⟨rfl, rfl⟩

/-- Texts that are quoted alike are the same. -/
theorem quoted_injective {s t : List Char} (h : s.flatMap quoteChar = t.flatMap quoteChar) :
    s = t := by
  induction s generalizing t with
  | nil =>
      cases t with
      | nil => rfl
      | cons d t =>
          have hread := unquote?_quoteChar d (t.flatMap quoteChar)
          rw [← List.flatMap_cons, ← h] at hread
          cases hread
  | cons c s ih =>
      cases t with
      | nil =>
          have hread := unquote?_quoteChar c (s.flatMap quoteChar)
          rw [← List.flatMap_cons, h] at hread
          cases hread
      | cons d t =>
          obtain ⟨rfl, hrest⟩ := quoteChar_injective (by simpa only [List.flatMap_cons] using h)
          rw [ih hrest]

end DeferredQuery.Text
