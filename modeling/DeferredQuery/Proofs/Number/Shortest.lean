import Mathlib.Algebra.Order.Field.Power
import Mathlib.Algebra.Order.Field.Rat
import Mathlib.Data.List.Induction
import Mathlib.Tactic.FieldSimp
import Mathlib.Tactic.LinearCombination
import Mathlib.Tactic.Linarith
import Mathlib.Tactic.NormNum
import Mathlib.Tactic.Positivity
import Mathlib.Tactic.Ring
import DeferredQuery.Number.Decimal

/-!
# Shortest decimals

The shortest decimal of a double has no trailing zero, and its text reads back as the same number.
So two doubles that are written alike in one notation have the same decimal, and are written alike
in every notation that breaks ties the same way.
-/

namespace DeferredQuery.Decimal

def value (d : Decimal) : ℚ := d.digits * 10 ^ d.exponent

/-! ## Trailing zeros -/

/-- The decimal has no trailing zero, or it is the plain zero. -/
def Trimmed (d : Decimal) : Prop := d = ⟨0, 0⟩ ∨ d.digits % 10 ≠ 0

theorem digits_eq_mul_of_value {d d' : Decimal} (h : d.value = d'.value)
    (hle : d.exponent ≤ d'.exponent) :
    d.digits = d'.digits * 10 ^ (d'.exponent - d.exponent).toNat := by
  have hsplit : (10 : ℚ) ^ d'.exponent =
      10 ^ (d'.exponent - d.exponent).toNat * 10 ^ d.exponent := by
    rw [← zpow_natCast, ← zpow_add₀ (by norm_num)]
    congr 1
    omega
  have hpos : (10 : ℚ) ^ d.exponent ≠ 0 := zpow_ne_zero _ (by norm_num)
  unfold value at h
  rw [hsplit, ← mul_assoc] at h
  exact_mod_cast mul_right_cancel₀ hpos h

theorem Trimmed.digits_ne_zero {d : Decimal} (h : d.digits % 10 ≠ 0) : d.value ≠ 0 := by
  have hdigits : (d.digits : ℚ) ≠ 0 := by
    norm_cast
    rintro h0
    simp [h0] at h
  exact mul_ne_zero hdigits (zpow_ne_zero _ (by norm_num))

/-- A decimal without a trailing zero has the greatest exponent for its value. -/
theorem Trimmed.eq_of_value_of_le {d d' : Decimal} (hd : d.digits % 10 ≠ 0)
    (h : d.value = d'.value) (hle : d.exponent ≤ d'.exponent) : d = d' := by
  have hdigits := digits_eq_mul_of_value h hle
  have hexp : (d'.exponent - d.exponent).toNat = 0 := by
    by_contra hne
    obtain ⟨k, hk⟩ := Nat.exists_eq_succ_of_ne_zero hne
    rw [hk, pow_succ, ← mul_assoc] at hdigits
    omega
  rw [hexp, pow_zero, mul_one] at hdigits
  have : d.exponent = d'.exponent := by omega
  cases d
  cases d'
  simp_all

/-- A number has one decimal without trailing zeros. -/
theorem Trimmed.eq_of_value {d d' : Decimal} (hd : d.Trimmed) (hd' : d'.Trimmed)
    (h : d.value = d'.value) : d = d' := by
  have hzero : (⟨0, 0⟩ : Decimal).value = 0 := by simp [value]
  rcases hd with rfl | hd <;> rcases hd' with rfl | hd'
  · rfl
  · exact absurd (h.symm.trans hzero) (digits_ne_zero hd')
  · exact absurd (h.trans hzero) (digits_ne_zero hd)
  · rcases Int.le_total d.exponent d'.exponent with hle | hle
    · exact eq_of_value_of_le hd h hle
    · exact (eq_of_value_of_le hd' h.symm hle).symm

theorem normalize_mod_ne_zero {fuel : Nat} {d : Decimal} (hpos : 0 < d.digits)
    (hlt : d.digits < 10 ^ fuel) : (normalize fuel d).digits % 10 ≠ 0 := by
  induction fuel generalizing d with
  | zero => simp at hlt; omega
  | succ fuel ih =>
      rw [normalize]
      split
      · rw [pow_succ] at hlt
        exact ih (by simp only; omega) (by simp only; omega)
      · omega

/-! ## The digits of the shortest decimal -/

/-- The exponent that is found is not below that of the leading digit. -/
theorem lt_below {den num fuel k scaled : Nat} (hscaled : scaled = num * 10 ^ k)
    (hlt : (num : ℚ) < den * 10 ^ (1 - k : ℤ)) :
    (num : ℚ) < den * 10 ^ (leadingExponent.below den fuel k scaled + 1) := by
  induction fuel generalizing k scaled with
  | zero =>
      rw [leadingExponent.below, neg_add_eq_sub]
      exact hlt
  | succ fuel ih =>
      rw [leadingExponent.below]
      split
      · rw [neg_add_eq_sub]
        exact hlt
      · next hscale =>
          refine ih (by rw [hscaled, pow_succ, mul_assoc]) ?_
          have hnum : (num : ℚ) * 10 ^ k < den := by exact_mod_cast hscaled ▸ not_le.mp hscale
          have hexp : (1 - ((k + 1 : ℕ) : ℤ)) = -(k : ℤ) := by push_cast; ring
          rw [hexp, zpow_neg, zpow_natCast, ← div_eq_mul_inv, lt_div_iff₀ (by positivity)]
          exact hnum

/-- The leading exponent is no lower than that of the number. -/
theorem lt_leadingExponent (num : Nat) {den : Nat} (hden : 0 < den) :
    (num : ℚ) < den * 10 ^ (leadingExponent num den + 1) := by
  rw [leadingExponent]
  split
  · have hcount : num / den < 10 ^ digitCount (num / den) :=
      (Nat.length_toDigits_le_iff (by norm_num)
        (List.length_pos_iff.mpr Nat.toDigits_ne_nil)).mp le_rfl
    have hnum : num < den * 10 ^ digitCount (num / den) :=
      calc
        num < den * (num / den + 1) := Nat.lt_mul_div_succ num hden
        _ ≤ den * 10 ^ digitCount (num / den) := Nat.mul_le_mul_left _ hcount
    rw [sub_add_cancel, zpow_natCast]
    exact_mod_cast hnum
  · next hlt =>
      refine lt_below (by rw [pow_one]) ?_
      simpa using hlt

/-- A power of two on the side of the numerator, where it is not negative, and of the denominator
else. -/
theorem shift_ratio (a b : Nat) (q : ℤ) :
    ((a <<< q.toNat : ℕ) : ℚ) * b = ((b <<< (-q).toNat : ℕ) : ℚ) * (a * 2 ^ q) := by
  rw [Nat.shiftLeft_eq, Nat.shiftLeft_eq]
  push_cast
  rcases Int.le_total 0 q with hq | hq
  · obtain ⟨k, rfl⟩ := Int.eq_ofNat_of_zero_le hq
    simp
    ring
  · obtain ⟨k, hk⟩ := Int.eq_ofNat_of_zero_le (Int.neg_nonneg.mpr hq)
    obtain rfl : q = -k := by omega
    simp
    field_simp

theorem tenPow_pos (k : Nat) : 0 < tenPow k := Nat.pow_pos (by norm_num)

/-- The grid and the quarters of the last place in one unit. -/
theorem grid_ratio (quarter exponent : ℤ) :
    ((tenPow (-exponent).toNat <<< quarter.toNat : ℕ) : ℚ) * 10 ^ exponent =
      ((tenPow exponent.toNat <<< (-quarter).toNat : ℕ) : ℚ) * 2 ^ quarter := by
  have hshift := shift_ratio (tenPow (-exponent).toNat) (tenPow exponent.toNat) quarter
  have hten : ((tenPow exponent.toNat : ℕ) : ℚ) =
      (tenPow (-exponent).toNat : ℕ) * 10 ^ exponent := by
    rw [tenPow, tenPow, Nat.pow_eq, Nat.pow_eq]
    push_cast
    rcases Int.le_total 0 exponent with he | he
    · obtain ⟨k, rfl⟩ := Int.eq_ofNat_of_zero_le he
      simp
    · obtain ⟨k, hk⟩ := Int.eq_ofNat_of_zero_le (Int.neg_nonneg.mpr he)
      obtain rfl : exponent = -k := by omega
      simp
  have hpos : ((tenPow (-exponent).toNat : ℕ) : ℚ) ≠ 0 := by
    exact_mod_cast (tenPow_pos _).ne'
  rw [hten] at hshift
  refine mul_left_cancel₀ hpos ?_
  linear_combination hshift

/-- What is chosen from the grid lies in the interval. -/
theorem onGrid_holds {tie : Tie} {i : Interval} {quarter exponent : ℤ} {k : Nat}
    (h : onGrid tie i quarter exponent = some k) :
    i.holds (tenPow (-exponent).toNat <<< quarter.toNat)
      (tenPow exponent.toNat <<< (-quarter).toNat) k = true := by
  unfold onGrid at h
  dsimp only at h
  split at h
  · split at h
    · cases h
      assumption
    · split at h
      · cases h
        assumption
      · split at h <;> (cases h; assumption)
  · cases h
    assumption
  · cases h
    assumption
  · cases h

theorem Interval.holds_le {i : Interval} {num den k : Nat} (h : i.holds num den k = true) :
    i.low * num ≤ k * den ∧ k * den ≤ i.high * num := by
  unfold Interval.holds at h
  split at h <;> simp only [Bool.and_eq_true, decide_eq_true_eq] at h <;> omega

/-- A point of the grid next to a double is positive, and by a few powers of ten at most above the
double. -/
theorem onGrid_bounds {tie : Tie} {m k : Nat} {q exponent : ℤ} (hm : 0 < m)
    (h : onGrid tie (.of m q) (q - 2) exponent = some k) :
    0 < k ∧ (k : ℚ) * 10 ^ exponent ≤ 2 * (m * 2 ^ q) := by
  obtain ⟨hlow, hhigh⟩ := Interval.holds_le (onGrid_holds h)
  have hratio := grid_ratio (q - 2) exponent
  set num := tenPow (-exponent).toNat <<< (q - 2).toNat with hnum
  set den := tenPow exponent.toNat <<< (-(q - 2)).toNat with hden
  have hnumpos : 0 < num := by
    rw [hnum, Nat.shiftLeft_eq]
    exact Nat.mul_pos (tenPow_pos _) (Nat.pow_pos (by norm_num))
  have hdenpos : 0 < den := by
    rw [hden, Nat.shiftLeft_eq]
    exact Nat.mul_pos (tenPow_pos _) (Nat.pow_pos (by norm_num))
  have hlowpos : 0 < (Interval.of m q).low := by
    simp only [Interval.of]
    split <;> omega
  refine ⟨?_, ?_⟩
  · have : 0 < k * den := lt_of_lt_of_le (Nat.mul_pos hlowpos hnumpos) hlow
    exact Nat.pos_of_mul_pos_right this
  · have hhigh' : (k : ℚ) * den ≤ (4 * m + 2) * num := by exact_mod_cast hhigh
    have hquarter : (2 : ℚ) ^ (q - 2) = 2 ^ q / 4 := by
      rw [zpow_sub₀ (by norm_num)]
      norm_num
    have hten : (0 : ℚ) < 10 ^ exponent := by positivity
    have htwo : (0 : ℚ) < 2 ^ q := by positivity
    have hdenpos' : (0 : ℚ) < den := by exact_mod_cast hdenpos
    have hm' : (1 : ℚ) ≤ m := by exact_mod_cast hm
    have hscaled : (k : ℚ) * 10 ^ exponent * den ≤ 2 * (m * 2 ^ q) * den :=
      calc
        (k : ℚ) * 10 ^ exponent * den = k * den * 10 ^ exponent := by ring
        _ ≤ (4 * m + 2) * num * 10 ^ exponent := mul_le_mul_of_nonneg_right hhigh' hten.le
        _ = (4 * m + 2) * (num * 10 ^ exponent) := by ring
        _ = (4 * m + 2) * (den * (2 ^ q / 4)) := by rw [hratio, hquarter]
        _ ≤ (8 * m) * (den * (2 ^ q / 4)) := by
          refine mul_le_mul_of_nonneg_right (by linarith) (by positivity)
        _ = 2 * (m * 2 ^ q) * den := by ring
    exact le_of_mul_le_mul_right hscaled hdenpos'

/-- The shortest decimal of a double has no trailing zero. -/
theorem shortest_trimmed (tie : Tie) {m : Nat} (q : ℤ) (hm : 0 < m) :
    (shortest tie m q).Trimmed := by
  unfold shortest
  dsimp only
  set top := leadingExponent (m <<< q.toNat) (1 <<< (-q).toNat) with htop
  cases hfound : (List.range 17).findSome? fun (n : Nat) =>
      (onGrid tie (.of m q) (q - 2) (top - n)).map fun k => (⟨k, top - n⟩ : Decimal) with
  | none => exact .inl (by simp [normalize])
  | some d =>
      obtain ⟨n, hn, hd⟩ := List.exists_of_findSome?_eq_some hfound
      obtain ⟨k, hk, rfl⟩ := Option.map_eq_some_iff.mp hd
      obtain ⟨hpos, hle⟩ := onGrid_bounds hm hk
      refine .inr (normalize_mod_ne_zero hpos ?_)
      have hlead : (m : ℚ) * 2 ^ q < 10 ^ (top + 1) := by
        have hden : 0 < 1 <<< (-q).toNat := by
          rw [Nat.shiftLeft_eq]
          positivity
        have hlt := lt_leadingExponent (m <<< q.toNat) hden
        have hratio := shift_ratio m 1 q
        rw [Nat.cast_one, mul_one] at hratio
        rw [hratio, ← htop] at hlt
        exact lt_of_mul_lt_mul_left hlt (by positivity)
      have hgrid : (k : ℚ) * 10 ^ (top - n) < 10 ^ 20 * 10 ^ (top - n) :=
        calc
          (k : ℚ) * 10 ^ (top - n) ≤ 2 * (m * 2 ^ q) := hle
          _ < 2 * 10 ^ (top + 1) := by linarith
          _ = 20 * 10 ^ n * 10 ^ (top - n) := by
            rw [zpow_sub₀ (by norm_num), zpow_add₀ (by norm_num), zpow_natCast, zpow_one]
            field_simp
            norm_num
          _ ≤ 10 ^ 20 * 10 ^ (top - n) := by
            have hn' : n ≤ 16 := by
              have := List.mem_range.mp hn
              omega
            have hpow : (10 : ℚ) ^ n ≤ 10 ^ 16 := pow_le_pow_right₀ (by norm_num) hn'
            refine mul_le_mul_of_nonneg_right ?_ (by positivity)
            calc
              (20 : ℚ) * 10 ^ n ≤ 20 * 10 ^ 16 := by linarith
              _ ≤ 10 ^ 20 := by norm_num
      exact_mod_cast lt_of_mul_lt_mul_right hgrid (by positivity)

/-! ## Reading back -/

theorem ofDigits_append (cs ds : List Char) :
    ofDigits (cs ++ ds) = ofDigits cs * 10 ^ ds.length + ofDigits ds := by
  induction ds using List.reverseRecOn with
  | nil => simp [ofDigits]
  | append_singleton ds d ih =>
      have hsnoc : ∀ es : List Char,
          ofDigits (es ++ [d]) = 10 * ofDigits es + (d.toNat - 0x30) := fun es => by
        simp [ofDigits]
      rw [← List.append_assoc, hsnoc, hsnoc, ih, List.length_append, List.length_singleton,
        pow_succ]
      ring

@[simp] theorem ofDigits_toDigits (n : Nat) : ofDigits (Nat.toDigits 10 n) = n :=
  Nat.ofDigitChars_ten_toDigits

@[simp] theorem ofDigits_zeros (k : Nat) : ofDigits (List.replicate k '0') = 0 := by
  induction k with
  | zero => rfl
  | succ k ih =>
      rw [List.replicate_succ', ofDigits_append, ih]
      rfl

structure Digits (cs : List Char) : Prop where
  ne_nil : cs ≠ []
  all : ∀ c ∈ cs, c.isDigit = true

theorem digits_toDigits (n : Nat) : Digits (Nat.toDigits 10 n) :=
  ⟨Nat.toDigits_ne_nil, fun _ hc => Nat.isDigit_of_mem_toDigits (by norm_num) (by norm_num) hc⟩

theorem isDigit_of_mem_zeros {k : Nat} {c : Char} (hc : c ∈ List.replicate k '0') :
    c.isDigit = true := by
  rw [List.eq_of_mem_replicate hc]
  rfl

theorem Digits.append {cs ds : List Char} (hc : Digits cs) (hd : ∀ c ∈ ds, c.isDigit = true) :
    Digits (cs ++ ds) :=
  ⟨by simp [hc.ne_nil], fun c h => (List.mem_append.mp h).elim (hc.all c) (hd c)⟩

theorem takeWhile_isDigit {cs : List Char} (rest : List Char) (hc : ∀ c ∈ cs, c.isDigit = true)
    (hrest : ∀ c ∈ rest.head?, c.isDigit = false) :
    (cs ++ rest).takeWhile Char.isDigit = cs ∧ (cs ++ rest).dropWhile Char.isDigit = rest := by
  rw [List.takeWhile_append_of_pos hc, List.dropWhile_append_of_pos hc]
  cases rest with
  | nil => simp
  | cons d rest => simp [hrest d (by simp)]

theorem toLower_of_isDigit {c : Char} (hc : c.isDigit = true) : c.toLower = c := by
  have hle : c.val.toNat ≤ 57 := (Char.isDigit_iff_toNat.mp hc).2
  refine dif_neg fun h => ?_
  have hge : 65 ≤ c.val.toNat := UInt32.le_iff_toNat_le.mp h.1
  omega

/-- A text that begins with a digit is not one of the words for special values. -/
theorem ne_special {cs : List Char} (hcs : Digits cs) (rest : List Char) {d : Char}
    (ds : List Char) (hd : d.isDigit = false) :
    String.ofList ((cs ++ rest).map Char.toLower) ≠ String.ofList (d :: ds) := by
  obtain ⟨c, cs, rfl⟩ := List.exists_cons_of_ne_nil hcs.ne_nil
  intro heq
  have hc := hcs.all c (by simp)
  have hhead := (List.cons.inj (String.ofList_injective heq)).1
  rw [toLower_of_isDigit hc] at hhead
  rw [hhead, hd] at hc
  cases hc

/-- Digits without a point are a whole number. -/
theorem readNumeral?_whole {whole rest : List Char} (hwhole : Digits whole)
    (hrest : ∀ c ∈ rest.head?, c.isDigit = false ∧ c ≠ '.') :
    readNumeral? (whole ++ rest) =
      (readExponent? rest).map fun e => .finite (ofDigits whole) e := by
  obtain ⟨htake, hdrop⟩ := takeWhile_isDigit rest hwhole.all fun c hc => (hrest c hc).1
  unfold readNumeral?
  split
  · next h => exact absurd h (ne_special hwhole rest ['n', 'f'] rfl)
  · next h => exact absurd h (ne_special hwhole rest ['n', 'f', 'i', 'n', 'i', 't', 'y'] rfl)
  · next h => exact absurd h (ne_special hwhole rest ['a', 'n'] rfl)
  · rw [htake, hdrop]
    cases rest with
    | nil => simp [hwhole.ne_nil]
    | cons c rest =>
        have hc := (hrest c rfl).2
        simp [hwhole.ne_nil, hc]

/-- Each digit after the point takes one from the exponent. -/
theorem readNumeral?_point {whole fraction rest : List Char} (hwhole : Digits whole)
    (hfraction : ∀ c ∈ fraction, c.isDigit = true)
    (hrest : ∀ c ∈ rest.head?, c.isDigit = false) :
    readNumeral? (whole ++ '.' :: (fraction ++ rest)) =
      (readExponent? rest).map fun e =>
        .finite (ofDigits (whole ++ fraction)) (e - fraction.length) := by
  obtain ⟨htake, hdrop⟩ := takeWhile_isDigit ('.' :: (fraction ++ rest)) hwhole.all
    fun c hc => by cases hc; rfl
  obtain ⟨htake', hdrop'⟩ := takeWhile_isDigit rest hfraction hrest
  unfold readNumeral?
  split
  · next h => exact absurd h (ne_special hwhole _ ['n', 'f'] rfl)
  · next h => exact absurd h (ne_special hwhole _ ['n', 'f', 'i', 'n', 'i', 't', 'y'] rfl)
  · next h => exact absurd h (ne_special hwhole _ ['a', 'n'] rfl)
  · rw [htake, hdrop]
    simp [hwhole.ne_nil, htake', hdrop']

theorem toList_toString_nat (n : Nat) : (toString n).toList = Nat.toDigits 10 n := by
  rw [Nat.toString_eq_repr, Nat.repr, String.toList_ofList]

theorem toList_toString_negSucc (n : Nat) :
    (toString (Int.negSucc n)).toList = '-' :: Nat.toDigits 10 (n + 1) := by
  show ("-" ++ Nat.repr (n + 1)).toList = _
  simp [Nat.repr]

/-- An exponent reads back, with or without a sign before positive ones. -/
theorem readExponent?_toString (plus : Bool) (top : ℤ) :
    readExponent?
      ('e' :: ((if plus && 0 < top then "+" else "") ++ toString top : String).toList) =
      some top := by
  cases top with
  | ofNat n =>
      have hdigits := digits_toDigits n
      obtain ⟨c, cs, hcs⟩ := List.exists_cons_of_ne_nil hdigits.ne_nil
      have hall : (c :: cs).all Char.isDigit = true := by
        rw [← hcs]
        exact List.all_eq_true.mpr hdigits.all
      have hvalue : ofDigits (c :: cs) = n := by rw [← hcs, ofDigits_toDigits]
      have hc : c ≠ '-' ∧ c ≠ '+' := by
        have := hdigits.all c (by simp [hcs])
        constructor <;> (rintro rfl; revert this; decide)
      have htext : (toString (Int.ofNat n)).toList = c :: cs := by
        rw [← hcs]
        exact toList_toString_nat n
      rw [String.toList_append, htext]
      split
      · simp [readExponent?, hall, hvalue]
      · simp [readExponent?, hall, hvalue, hc.1, hc.2]
  | negSucc n =>
      have hdigits := digits_toDigits (n + 1)
      have hall : (Nat.toDigits 10 (n + 1)).all Char.isDigit = true :=
        List.all_eq_true.mpr hdigits.all
      have hsign : (plus && decide (0 < Int.negSucc n)) = false := by
        rw [Bool.and_eq_false_iff]
        exact .inr (by simp)
      rw [hsign, String.toList_append, toList_toString_negSucc]
      simp [readExponent?, hall, hdigits.ne_nil]
      omega

/-- A text reads back as the number of a decimal. -/
def ReadsAs (cs : List Char) (d : Decimal) : Prop :=
  ∃ significand exponent, readNumeral? cs = some (.finite significand exponent) ∧
    (significand : ℚ) * 10 ^ exponent = d.value

theorem readsAs_whole {whole : List Char} (rest : List Char) {e : ℤ} {d : Decimal}
    (hwhole : Digits whole)
    (hrest : ∀ c ∈ rest.head?, c.isDigit = false ∧ c ≠ '.') (he : readExponent? rest = some e)
    (hvalue : (ofDigits whole : ℚ) * 10 ^ e = d.value) : ReadsAs (whole ++ rest) d :=
  ⟨ofDigits whole, e, by rw [readNumeral?_whole hwhole hrest, he, Option.map_some], hvalue⟩

theorem readsAs_point {whole fraction : List Char} (rest : List Char) {e : ℤ} {d : Decimal}
    (hwhole : Digits whole) (hfraction : ∀ c ∈ fraction, c.isDigit = true)
    (hrest : ∀ c ∈ rest.head?, c.isDigit = false) (he : readExponent? rest = some e)
    (hvalue : (ofDigits (whole ++ fraction) : ℚ) * 10 ^ (e - fraction.length) = d.value) :
    ReadsAs (whole ++ '.' :: (fraction ++ rest)) d :=
  ⟨ofDigits (whole ++ fraction), e - fraction.length,
    by rw [readNumeral?_point hwhole hfraction hrest, he, Option.map_some], hvalue⟩

theorem readsAs_fraction {whole : List Char} (fraction : List Char) {d : Decimal}
    (hwhole : Digits whole) (hfraction : ∀ c ∈ fraction, c.isDigit = true)
    (hvalue : (ofDigits (whole ++ fraction) : ℚ) * 10 ^ (-fraction.length : ℤ) = d.value) :
    ReadsAs (whole ++ '.' :: fraction) d := by
  have h := readsAs_point [] hwhole hfraction (by simp) rfl (by rwa [zero_sub])
  rwa [List.append_nil] at h

/-- The point stands before all digits, after zeros, or between two of them. -/
theorem positionalText_readsAs (l : Layout) (d : Decimal) :
    ReadsAs (positionalText l d).toList d := by
  have hds := digits_toDigits d.digits
  unfold positionalText
  dsimp only
  split
  · next hexp =>
      have hwhole := hds.append fun c hc => isDigit_of_mem_zeros (k := d.exponent.toNat) hc
      have hvalue : ((ofDigits (Nat.toDigits 10 d.digits ++
          List.replicate d.exponent.toNat '0') : ℕ) : ℚ) = d.value := by
        rw [ofDigits_append, ofDigits_toDigits, ofDigits_zeros, List.length_replicate, value]
        push_cast
        rw [add_zero, ← zpow_natCast, Int.toNat_of_nonneg hexp]
      rw [String.toList_append, String.toList_ofList]
      split
      · refine readsAs_fraction ['0'] hwhole (by simp) ?_
        have hlast : ofDigits ['0'] = 0 := rfl
        rw [ofDigits_append, hlast]
        push_cast
        rw [hvalue]
        simp
      · exact readsAs_whole [] hwhole (by simp) rfl (by simpa using hvalue)
  · next hexp =>
      have hplaces : d.exponent = -((-d.exponent).toNat : ℤ) := by omega
      have hzero : "0.".toList = ['0', '.'] := rfl
      have hpoint : ".".toList = ['.'] := rfl
      set places := (-d.exponent).toNat with hdef
      have hvalue : (d.digits : ℚ) * 10 ^ (-places : ℤ) = d.value := by rw [value, ← hplaces]
      split
      · next hlen =>
          simp only [String.toList_append, String.toList_ofList, hzero, List.cons_append,
            List.nil_append]
          have hcount : (List.replicate (places - (Nat.toDigits 10 d.digits).length) '0' ++
              Nat.toDigits 10 d.digits).length = places := by
            rw [List.length_append, List.length_replicate]
            omega
          have hfraction : ∀ c ∈ List.replicate (places - (Nat.toDigits 10 d.digits).length) '0' ++
              Nat.toDigits 10 d.digits, c.isDigit = true := fun c hc =>
            (List.mem_append.mp hc).elim isDigit_of_mem_zeros (hds.all c)
          have hwhole : Digits ['0'] := ⟨by simp, by simp⟩
          refine readsAs_fraction _ hwhole hfraction ?_
          rw [hcount, ofDigits_append, ofDigits_append, ofDigits_zeros, ofDigits_toDigits]
          simpa [ofDigits] using hvalue
      · next hlen =>
          set n := (Nat.toDigits 10 d.digits).length - places with hn
          have hne : (Nat.toDigits 10 d.digits).take n ≠ [] := by
            rw [Ne, List.take_eq_nil_iff]
            rintro (h | h)
            · omega
            · exact hds.ne_nil h
          have hcount : ((Nat.toDigits 10 d.digits).drop n).length = places := by
            rw [List.length_drop]
            omega
          simp only [String.toList_append, String.toList_ofList, List.append_assoc, hpoint,
            List.singleton_append]
          refine readsAs_fraction _ ⟨hne, fun c hc => hds.all c (List.mem_of_mem_take hc)⟩
            (fun c hc => hds.all c (List.mem_of_mem_drop hc)) ?_
          rw [hcount, List.take_append_drop, ofDigits_toDigits]
          exact hvalue

/-- The exponent is that of the first digit. -/
theorem exponentText_readsAs (l : Layout) (d : Decimal) :
    ReadsAs (exponentText l d).toList d := by
  have hds := digits_toDigits d.digits
  have hread := readExponent?_toString l.plus
    (d.exponent + (Nat.toDigits 10 d.digits).length - 1)
  obtain ⟨c, cs, hcs⟩ := List.exists_cons_of_ne_nil hds.ne_nil
  have hc : c.isDigit = true := hds.all c (by simp [hcs])
  have hcount : ofDigits (c :: cs) = d.digits := by rw [← hcs, ofDigits_toDigits]
  unfold exponentText
  dsimp only
  rw [hcs] at hread ⊢
  cases cs with
  | nil =>
      simp only [List.length_singleton, if_true, List.take_succ_cons, List.take_zero,
        String.append_empty, String.append_assoc, String.toList_append, String.toList_ofList]
        at hread ⊢
      have hwhole : Digits [c] := ⟨by simp, by simpa using hc⟩
      refine readsAs_whole ('e' :: _) hwhole (by simp) hread ?_
      rw [hcount, value]
      norm_num
  | cons c' cs =>
      have hne : ¬(c :: c' :: cs).length = 1 := by simp
      simp only [hne, if_false, List.take_succ_cons, List.take_zero, List.drop_succ_cons,
        List.drop_zero, String.append_assoc, String.toList_append, String.toList_ofList]
        at hread ⊢
      have hwhole : Digits [c] := ⟨by simp, by simpa using hc⟩
      have hfraction : ∀ x ∈ c' :: cs, x.isDigit = true := fun x hx => hds.all x (by simp [hcs, hx])
      refine readsAs_point ('e' :: _) hwhole hfraction (by simp) hread ?_
      rw [List.singleton_append, hcount, value]
      congr 2
      simp only [List.length_cons]
      push_cast
      ring

/-- A decimal in any notation reads back as its number. -/
theorem magnitude_readsAs (l : Layout) (d : Decimal) : ReadsAs (l.magnitude d).toList d := by
  unfold Layout.magnitude
  dsimp only
  split
  · exact positionalText_readsAs l d
  · split
    · exact positionalText_readsAs l d
    · exact exponentText_readsAs l d

/-- Decimals without trailing zeros that are written alike are the same. -/
theorem Trimmed.eq_of_magnitude {l : Layout} {d d' : Decimal} (hd : d.Trimmed) (hd' : d'.Trimmed)
    (h : l.magnitude d = l.magnitude d') : d = d' := by
  obtain ⟨s, e, hread, hvalue⟩ := magnitude_readsAs l d
  obtain ⟨s', e', hread', hvalue'⟩ := magnitude_readsAs l d'
  rw [h, hread'] at hread
  cases hread
  exact hd.eq_of_value hd' (hvalue.symm.trans hvalue')

/-! ## Doubles -/

def ofParts (tie : Tie) (m : Nat) (q : ℤ) : Decimal := if m = 0 then ⟨0, 0⟩ else shortest tie m q

theorem ofParts_trimmed (tie : Tie) (m : Nat) (q : ℤ) : (ofParts tie m q).Trimmed := by
  unfold ofParts
  split
  · exact .inl rfl
  · exact shortest_trimmed tie q (by omega)

def Layout.plain (l : Layout) : Prop := ∀ bounds ∈ l.positional, bounds.1 ≤ 0 ∧ 0 ≤ bounds.2

/-- A finite double is written as its sign and the shortest decimal that reads back. -/
theorem Layout.text_finite {l : Layout} (hl : l.plain) {x : Float} {negative : Bool} {m : Nat}
    {q : ℤ} (hx : Binary64.parts x = .finite negative m q) :
    l.text x = (if negative then "-" else "") ++ l.magnitude (ofParts l.tie m q) := by
  rw [text, hx]
  dsimp only
  congr 1
  unfold ofParts
  split
  · unfold Layout.magnitude
    dsimp only
    split
    · rfl
    · next first last hbounds =>
        have h := hl _ hbounds
        rw [if_pos (by simpa [digitCount] using h)]
  · rfl

/-! ## Characters -/

def isNumberChar (c : Char) : Bool :=
  c.isDigit || c == '.' || c == 'e' || c == '-' || c == '+'

theorem isNumberChar_of_isDigit {c : Char} (hc : c.isDigit = true) : isNumberChar c = true := by
  simp [isNumberChar, hc]

structure Spelled (cs : List Char) : Prop where
  head : ∃ c rest, cs = c :: rest ∧ c.isDigit = true
  all : ∀ c ∈ cs, isNumberChar c = true

theorem Digits.spelled {cs : List Char} (h : Digits cs) : Spelled cs := by
  obtain ⟨c, rest, rfl⟩ := List.exists_cons_of_ne_nil h.ne_nil
  exact ⟨⟨c, rest, rfl, h.all c (by simp)⟩, fun d hd => isNumberChar_of_isDigit (h.all d hd)⟩

theorem Spelled.append {cs ds : List Char} (h : Spelled cs)
    (hd : ∀ c ∈ ds, isNumberChar c = true) : Spelled (cs ++ ds) := by
  obtain ⟨c, rest, rfl, hc⟩ := h.head
  exact ⟨⟨c, rest ++ ds, rfl, hc⟩, fun x hx => (List.mem_append.mp hx).elim (h.all x) (hd x)⟩

theorem isNumberChar_of_mem_toString {n : ℤ} {c : Char} (hc : c ∈ (toString n).toList) :
    isNumberChar c = true := by
  cases n with
  | ofNat n =>
      have htext : (toString (Int.ofNat n)).toList = Nat.toDigits 10 n := toList_toString_nat n
      rw [htext] at hc
      exact isNumberChar_of_isDigit ((digits_toDigits n).all c hc)
  | negSucc n =>
      rw [toList_toString_negSucc] at hc
      rcases List.mem_cons.mp hc with rfl | hc
      · rfl
      · exact isNumberChar_of_isDigit ((digits_toDigits (n + 1)).all c hc)

/-- A positional text is made of digits and at most a point. -/
theorem positionalText_spelled (l : Layout) (d : Decimal) :
    Spelled (positionalText l d).toList := by
  have hds := digits_toDigits d.digits
  have hzeros : ∀ {k : Nat} {c : Char}, c ∈ List.replicate k '0' → isNumberChar c = true :=
    fun hc => isNumberChar_of_isDigit (isDigit_of_mem_zeros hc)
  have hmem : ∀ {c : Char}, c ∈ Nat.toDigits 10 d.digits → isNumberChar c = true :=
    fun hc => isNumberChar_of_isDigit (hds.all _ hc)
  unfold positionalText
  dsimp only
  split
  · rw [String.toList_append, String.toList_ofList]
    refine (hds.spelled.append fun c hc => hzeros hc).append fun c hc => ?_
    split at hc
    · have hpoint : ".0".toList = ['.', '0'] := rfl
      rw [hpoint] at hc
      rcases List.mem_cons.mp hc with rfl | hc
      · rfl
      · rw [List.mem_singleton.mp hc]
        rfl
    · simp at hc
  · split
    · simp only [String.toList_append, String.toList_ofList]
      have hzero : Spelled "0.".toList := ⟨⟨'0', ['.'], rfl, rfl⟩, by simp [isNumberChar]⟩
      exact hzero.append fun c hc => (List.mem_append.mp hc).elim hzeros hmem
    · next hlen =>
        simp only [String.toList_append, String.toList_ofList, List.append_assoc]
        refine Spelled.append (Digits.spelled ⟨?_, fun c hc => hds.all c (List.mem_of_mem_take hc)⟩)
          fun c hc => ?_
        · rw [Ne, List.take_eq_nil_iff]
          rintro (h | h)
          · omega
          · exact hds.ne_nil h
        · rcases List.mem_cons.mp hc with rfl | hc
          · rfl
          · exact hmem (List.mem_of_mem_drop hc)

theorem exponentText_spelled (l : Layout) (d : Decimal) : Spelled (exponentText l d).toList := by
  have hds := digits_toDigits d.digits
  have hmem : ∀ {c : Char}, c ∈ Nat.toDigits 10 d.digits → isNumberChar c = true :=
    fun hc => isNumberChar_of_isDigit (hds.all _ hc)
  unfold exponentText
  dsimp only
  simp only [String.toList_append, String.toList_ofList, List.append_assoc]
  refine Spelled.append (Digits.spelled ⟨?_, fun c hc => hds.all c (List.mem_of_mem_take hc)⟩)
    fun c hc => ?_
  · rw [Ne, List.take_eq_nil_iff]
    rintro (h | h)
    · omega
    · exact hds.ne_nil h
  · have hpoint : ".".toList = ['.'] := rfl
    have he : "e".toList = ['e'] := rfl
    have hplus : "+".toList = ['+'] := rfl
    rcases List.mem_append.mp hc with hc | hc
    · split at hc
      · simp at hc
      · simp only [String.toList_append, String.toList_ofList, hpoint] at hc
        rcases List.mem_cons.mp hc with rfl | hc
        · rfl
        · exact hmem (List.mem_of_mem_drop hc)
    · rw [he, List.singleton_append] at hc
      rcases List.mem_cons.mp hc with rfl | hc
      · rfl
      · rcases List.mem_append.mp hc with hc | hc
        · split at hc
          · rw [hplus] at hc
            rw [List.mem_singleton.mp hc]
            rfl
          · simp at hc
        · exact isNumberChar_of_mem_toString hc

theorem magnitude_spelled (l : Layout) (d : Decimal) : Spelled (l.magnitude d).toList := by
  unfold Layout.magnitude
  dsimp only
  split
  · exact positionalText_spelled l d
  · split
    · exact positionalText_spelled l d
    · exact exponentText_spelled l d

/-- With fractions asked for, a number is never written in digits alone. -/
theorem magnitude_not_digits {l : Layout} (hl : l.fraction = true) (d : Decimal) :
    ¬∀ c ∈ (l.magnitude d).toList, c.isDigit = true := by
  have hpositional : '.' ∈ (positionalText l d).toList := by
    unfold positionalText
    dsimp only
    split
    · simp
    · split <;> simp
  have hexponent : 'e' ∈ (exponentText l d).toList := by
    unfold exponentText
    simp
  intro hall
  unfold Layout.magnitude at hall
  dsimp only at hall
  split at hall
  · exact absurd (hall '.' hpositional) (by decide)
  · split at hall
    · exact absurd (hall '.' hpositional) (by decide)
    · exact absurd (hall 'e' hexponent) (by decide)

def Signed (cs : List Char) : Prop := Spelled cs ∨ ∃ ds, Spelled ds ∧ cs = '-' :: ds

theorem toString_eq_sign (n : ℤ) :
    toString n =
      (if decide (n < 0) then "-" else "") ++ String.ofList (Nat.toDigits 10 n.natAbs) := by
  cases n with
  | ofNat n =>
      rw [if_neg (by simp), String.empty_append]
      rfl
  | negSucc n =>
      rw [if_pos (by simp)]
      rfl

theorem signed_of_sign {s : String} (hs : Spelled s.toList) (negative : Bool) :
    Signed ((if negative then "-" else "") ++ s).toList := by
  rw [String.toList_append]
  cases negative with
  | false => exact .inl hs
  | true => exact .inr ⟨_, hs, rfl⟩

theorem spelled_toDigits (n : Nat) : Spelled (String.ofList (Nat.toDigits 10 n)).toList := by
  rw [String.toList_ofList]
  exact (digits_toDigits n).spelled

theorem toString_signed (n : ℤ) : Signed (toString n).toList := by
  rw [toString_eq_sign]
  exact signed_of_sign (spelled_toDigits _) _

theorem Layout.text_signed {l : Layout} (hl : l.plain) {x : Float} {negative : Bool} {m : Nat}
    {q : ℤ} (hx : Binary64.parts x = .finite negative m q) : Signed (l.text x).toList := by
  rw [text_finite hl hx]
  exact signed_of_sign (magnitude_spelled l _) negative

/-! ## Notations -/

/-- The sign can be told from the first character. -/
theorem sign_eq {negative negative' : Bool} {a a' : String} (ha : Spelled a.toList)
    (ha' : Spelled a'.toList)
    (h : (if negative then "-" else "") ++ a = (if negative' then "-" else "") ++ a') :
    negative = negative' ∧ a = a' := by
  obtain ⟨c, rest, hc, hdigit⟩ := ha.head
  obtain ⟨c', rest', hc', hdigit'⟩ := ha'.head
  have hne : c ≠ '-' := by rintro rfl; revert hdigit; decide
  have hne' : c' ≠ '-' := by rintro rfl; revert hdigit'; decide
  have hlist := congrArg String.toList h
  rw [String.toList_append, String.toList_append] at hlist
  cases negative <;> cases negative' <;> simp [hc, hc'] at hlist
  · refine ⟨rfl, String.toList_injective ?_⟩
    rw [hc, hc', hlist.1, hlist.2]
  · exact absurd hlist.1 hne
  · exact absurd hlist.1.symm hne'
  · refine ⟨rfl, String.toList_injective ?_⟩
    rw [hc, hc', hlist.1, hlist.2]

theorem toString_injective {n n' : ℤ} (h : toString n = toString n') : n = n' := by
  rw [toString_eq_sign, toString_eq_sign] at h
  obtain ⟨hsign, hdigits⟩ := sign_eq (spelled_toDigits _) (spelled_toDigits _) h
  have hnat := congrArg ofDigits (String.ofList_injective hdigits)
  rw [ofDigits_toDigits, ofDigits_toDigits] at hnat
  have hneg : n < 0 ↔ n' < 0 := by simpa using hsign
  omega

/-- No whole number is written as a floating point one is. -/
theorem Layout.text_ne_toString {l : Layout} (hl : l.plain) (hfraction : l.fraction = true)
    {x : Float} {negative : Bool} {m : Nat} {q : ℤ}
    (hx : Binary64.parts x = .finite negative m q) (n : ℤ) : toString n ≠ l.text x := by
  rw [text_finite hl hx, toString_eq_sign]
  intro h
  obtain ⟨-, hdigits⟩ := sign_eq (spelled_toDigits _) (magnitude_spelled l _) h
  refine magnitude_not_digits hfraction (ofParts l.tie m q) ?_
  rw [← hdigits, String.toList_ofList]
  exact (digits_toDigits _).all

/-- Finite doubles that are written alike in one layout are written alike in every other one that
breaks ties the same way. -/
theorem Layout.text_eq_of_text {l k : Layout} (hl : l.plain) (hk : k.plain) (htie : l.tie = k.tie)
    {x x' : Float} {negative negative' : Bool} {m m' : Nat} {q q' : ℤ}
    (hx : Binary64.parts x = .finite negative m q)
    (hx' : Binary64.parts x' = .finite negative' m' q') (h : l.text x = l.text x') :
    k.text x = k.text x' := by
  rw [text_finite hl hx, text_finite hl hx'] at h
  obtain ⟨rfl, hmagnitude⟩ := sign_eq (magnitude_spelled l _) (magnitude_spelled l _) h
  have hdecimal := (ofParts_trimmed l.tie m q).eq_of_magnitude (ofParts_trimmed l.tie m' q')
    hmagnitude
  rw [text_finite hk hx, text_finite hk hx', ← htie, hdecimal]

end DeferredQuery.Decimal
