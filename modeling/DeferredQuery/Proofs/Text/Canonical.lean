import DeferredQuery.Proofs.Number.Shortest
import DeferredQuery.Instant
import DeferredQuery.Uuid

/-!
# Identifiers and instants read back

A UUID is read from its text, and so is every instant of the years 0 to 9999, leap seconds
included.
-/

namespace DeferredQuery

/-! ## Identifiers -/

namespace Uuid

theorem hexValue?_hexDigit : ∀ n, n < 16 → hexValue? (Text.hexDigit n) = some n := by decide

/-- The first digits of a number, as many as there are at most. -/
theorem ofHex?_digits (n : Nat) {count : Nat} (hcount : count ≤ 32) (hn : n < 2 ^ 128) :
    ofHex? ((List.range count).map fun i => Text.hexDigit ((n >>> (4 * (31 - i))) % 16)) =
      some (n >>> (4 * (32 - count))) := by
  induction count with
  | zero =>
      refine congrArg some ?_
      rw [Nat.shiftRight_eq_div_pow, Nat.div_eq_of_lt hn]
  | succ count ih =>
      have hshift : n >>> (4 * (32 - count)) = n >>> (4 * (31 - count)) / 16 := by
        rw [show 4 * (32 - count) = 4 * (31 - count) + 4 by omega, Nat.shiftRight_add,
          Nat.shiftRight_eq_div_pow _ 4]
      rw [List.range_succ, List.map_append, ofHex?, List.foldlM_append]
      rw [ofHex?] at ih
      rw [ih (by omega), Option.bind_eq_bind, Option.bind_some]
      simp only [List.map_cons, List.map_nil, List.foldlM_cons, List.foldlM_nil,
        hexValue?_hexDigit _ (Nat.mod_lt _ (by decide)), Option.map_some, Option.bind_eq_bind,
        Option.bind_some, Option.pure_def, Option.some.injEq, hshift]
      rw [show 32 - (count + 1) = 31 - count by omega]
      omega

theorem hexDigit_ne_u : ∀ n, n < 16 → Text.hexDigit n ≠ 'u' := by decide

theorem ofHyphenated?_text (u : Uuid) : ofHyphenated? u.text.toList = ofDigits? u.digits := by
  rw [text, digits, String.toList_ofList]
  generalize (fun i => Text.hexDigit ((u.bits.toNat >>> (4 * (31 - i))) % 16)) = f
  rw [ofHyphenated?, if_pos ⟨rfl, rfl, rfl, rfl, rfl⟩]
  rfl

/-- An identifier is read from its text. -/
theorem read?_text (u : Uuid) : read? u.text = some u := by
  have hdigits : ofDigits? u.digits = some u := by
    rw [ofDigits?, if_pos (by simp [digits]), digits, ofHex?_digits _ (Nat.le_refl 32) u.bits.isLt]
    simp
  have hlength : u.text.toList.length = 36 := by simp [text, digits]
  have hurn : u.text.toList.take 9 ≠ "urn:uuid:".toList := by
    rw [text, digits, String.toList_ofList]
    intro heq
    exact hexDigit_ne_u _ (Nat.mod_lt _ (by decide)) (List.cons.inj heq).1
  rw [read?, if_neg (by omega), if_neg (by omega), if_neg hurn, ofHyphenated?_text, hdigits]

end Uuid

/-! ## Days -/

namespace Date

/-- A day of an era lies in the year that is computed for it. -/
theorem dayOfYear_bounds {n : Nat} (hn : n < 146097) :
    let year := (n - n / 1460 + n / 36524 - n / 146096) / 365
    year < 400 ∧ 365 * year + year / 4 - year / 100 ≤ n ∧
      n - (365 * year + year / 4 - year / 100) ≤ 365 := by
  intro year
  have hquad : year / 4 ≤ n / 1460 ∧ n / 1460 ≤ year / 4 + 1 := by omega
  have hcentury : n / 36524 = year / 100 + n / 146096 := by
    rcases Nat.lt_or_ge n 36524 with h | h
    · omega
    rcases Nat.lt_or_ge n (2 * 36524) with h | h
    · omega
    rcases Nat.lt_or_ge n (3 * 36524) with h | h
    · omega
    rcases Nat.lt_or_ge n (4 * 36524) with h | h
    · omega
    · omega
  exact ⟨by omega, by omega, by omega⟩

/-- A day by its year and day of the year, both counted from March. -/
theorem exists_ofDays_eq (days : Int) :
    ∃ (year : Int) (dayOfYear : Nat), dayOfYear ≤ 365 ∧
      days + epochOffset = 365 * year + year / 4 - year / 100 + year / 400 + dayOfYear ∧
      ofDays days =
        let month := (5 * dayOfYear + 2) / 153
        ⟨year + (if month < 10 then 0 else 1), if month < 10 then month + 3 else month - 9,
          dayOfYear - (153 * month + 2) / 5 + 1⟩ := by
  obtain ⟨era, n, hn, hera⟩ : ∃ (era : Int) (n : Nat), n < 146097 ∧
      days + epochOffset = era * 146097 + n :=
    ⟨(days + epochOffset) / 146097, ((days + epochOffset) % 146097).toNat, by omega, by omega⟩
  have hfdiv : (days + epochOffset).fdiv 146097 = era := by
    rw [Int.fdiv_eq_ediv_of_nonneg _ (by omega)]
    omega
  have hsub : (days + epochOffset - era * 146097).toNat = n := by omega
  obtain ⟨hyear, hstart, hday⟩ := dayOfYear_bounds hn
  generalize hyears : (n - n / 1460 + n / 36524 - n / 146096) / 365 = year at hyear hstart hday
  have hfour : ((year : Int) + era * 400) / 4 = (year / 4 : Nat) + era * 100 := by omega
  have hhundred : ((year : Int) + era * 400) / 100 = (year / 100 : Nat) + era * 4 := by omega
  have hall : ((year : Int) + era * 400) / 400 = era := by omega
  refine ⟨year + era * 400, n - (365 * year + year / 4 - year / 100), hday, ?_, ?_⟩
  · rw [hera, hfour, hhundred, hall]
    omega
  · simp only [ofDays, hfdiv, hsub, hyears]

/-- Years are counted from March, so that the leap day is the last one of a year. -/
theorem toDays_ofDays (days : Int) : (ofDays days).toDays = days := by
  obtain ⟨year, dayOfYear, hday, hdays, hof⟩ := exists_ofDays_eq days
  have hmonth : (5 * dayOfYear + 2) / 153 ≤ 11 := by omega
  have hstart : (153 * ((5 * dayOfYear + 2) / 153) + 2) / 5 ≤ dayOfYear := by omega
  generalize (5 * dayOfYear + 2) / 153 = month at hof hmonth hstart
  rw [hof, toDays]
  simp only [Int.fdiv_eq_ediv_of_nonneg _ (show (0 : Int) ≤ 4 by decide),
    Int.fdiv_eq_ediv_of_nonneg _ (show (0 : Int) ≤ 100 by decide),
    Int.fdiv_eq_ediv_of_nonneg _ (show (0 : Int) ≤ 400 by decide)]
  rcases Nat.lt_or_ge month 10 with hlt | hge
  · simp only [if_pos hlt, if_neg (show ¬month + 3 ≤ 2 by omega), Int.add_zero,
      Nat.add_sub_cancel]
    omega
  · simp only [if_neg (Nat.not_lt.mpr hge), if_pos (show month - 9 ≤ 2 by omega),
      Int.add_sub_cancel, Nat.sub_add_cancel (show 9 ≤ month by omega)]
    omega

theorem ofDays_bounds (days : Int) :
    1 ≤ (ofDays days).month ∧ (ofDays days).month ≤ 12 ∧ 1 ≤ (ofDays days).day ∧
      (ofDays days).day ≤ 31 := by
  obtain ⟨year, dayOfYear, hday, -, hof⟩ := exists_ofDays_eq days
  have hmonth : (5 * dayOfYear + 2) / 153 ≤ 11 := by omega
  rw [hof]
  dsimp only
  refine ⟨?_, ?_, by omega, by omega⟩
  · split <;> omega
  · split <;> omega

theorem ofDays_valid (days : Int) : (ofDays days).valid = true := by
  obtain ⟨hmonth, hmonth', hday, -⟩ := ofDays_bounds days
  simp [valid, toDays_ofDays, hmonth, hmonth', hday]

/-- The days of the years 0 to 9999. -/
theorem days_bounds {days : Int} (h : 0 ≤ (ofDays days).year) (h' : (ofDays days).year ≤ 9999) :
    -719529 ≤ days ∧ days ≤ 2932897 := by
  obtain ⟨year, dayOfYear, hday, hdays, hof⟩ := exists_ofDays_eq days
  rw [hof] at h h'
  dsimp only at h h'
  simp only [epochOffset] at hdays
  have hyear : -1 ≤ year ∧ year ≤ 9999 := by
    split at h
    · omega
    · omega
  omega

end Date

/-! ## Fields of fixed width -/

namespace Instant

variable {width n : Nat} {cs : List Char}

structure Field (width n : Nat) (cs : List Char) : Prop where
  length : cs.length = width
  digits : Decimal.Digits cs
  value : Decimal.ofDigits cs = n

/-- A number that is less than the width allows is padded to the width. -/
theorem padded_field (hwidth : 0 < width) (hn : n < 10 ^ width) :
    Field width n (padded width n).toList := by
  have hlength : (Nat.toDigits 10 n).length ≤ width :=
    (Nat.length_toDigits_le_iff (by norm_num) hwidth).mpr hn
  rw [padded, String.toList_ofList]
  constructor
  · rw [List.length_append, List.length_replicate]
    omega
  · exact ⟨by simp [Nat.toDigits_ne_nil], fun c hc =>
      (List.mem_append.mp hc).elim Decimal.isDigit_of_mem_zeros
        ((Decimal.digits_toDigits n).all c)⟩
  · rw [Decimal.ofDigits_append, Decimal.ofDigits_zeros, Decimal.ofDigits_toDigits, Nat.zero_mul,
      Nat.zero_add]

theorem isBlank_of_isDigit {c : Char} (hc : c.isDigit = true) : Text.isBlank c = false := by
  have hrange : 48 ≤ c.toNat ∧ c.toNat ≤ 57 := Char.isDigit_iff_toNat.mp hc
  simp [Text.isBlank, Text.blankRanges]
  omega

theorem skipBlanks_digits (hcs : Decimal.Digits cs) (rest : List Char) :
    skipBlanks (cs ++ rest) = cs ++ rest := by
  obtain ⟨c, ds, rfl⟩ := List.exists_cons_of_ne_nil hcs.ne_nil
  exact List.dropWhile_cons_of_neg (by simp [isBlank_of_isDigit (hcs.all c (by simp))])

theorem readNumber?_field (hcs : Field width n cs) (rest : List Char) :
    readNumber? width (cs ++ rest) = some (n, rest) := by
  obtain ⟨rfl, hdigits, rfl⟩ := hcs
  have htake := (Decimal.takeWhile_isDigit [] hdigits.all (by simp)).1
  rw [List.append_nil] at htake
  rw [readNumber?, skipBlanks_digits hdigits]
  simp [htake, hdigits.ne_nil]

/-- Four digits are a year, whatever follows them. -/
theorem readYear?_field (hcs : Field 4 n cs) (rest : List Char) :
    readYear? (cs ++ rest) = some ((n : Int), rest) := by
  have hread := readNumber?_field hcs rest
  obtain ⟨c, ds, rfl⟩ := List.exists_cons_of_ne_nil hcs.digits.ne_nil
  have hc := hcs.digits.all c (by simp)
  rw [readYear?, skipBlanks_digits hcs.digits]
  split
  · next heq =>
      cases heq
      exact absurd hc (by decide)
  · next heq =>
      cases heq
      exact absurd hc (by decide)
  · rw [hread]
    rfl

theorem readFraction?_field {rest : List Char} (hcs : Field width n cs) (hwidth : width ≤ 9)
    (hrest : ∀ c ∈ rest.head?, c.isDigit = false) :
    readFraction? ('.' :: (cs ++ rest)) = some (n * 10 ^ (9 - width), rest) := by
  obtain ⟨rfl, hdigits, rfl⟩ := hcs
  obtain ⟨htake, -⟩ := Decimal.takeWhile_isDigit rest hdigits.all hrest
  simp only [readFraction?, htake, List.take_of_length_le hwidth, hdigits.ne_nil, if_false,
    List.drop_left]
  rfl

/-- No fraction, or three, six or nine digits of it, read back as nanoseconds. -/
theorem readFraction?_text (t : Instant) :
    readFraction? (t.fractionText.toList ++ ['Z']) = some (t.nanos % 1000000000, ['Z']) := by
  have hlt : t.nanos % 1000000000 < 1000000000 := Nat.mod_lt _ (by decide)
  have hpoint : ∀ {width n : Nat}, 0 < width → width ≤ 9 → n < 10 ^ width →
      readFraction? (("." ++ padded width n).toList ++ ['Z']) =
        some (n * 10 ^ (9 - width), ['Z']) := fun {width n} hpos hwidth hn => by
    rw [String.toList_append]
    exact readFraction?_field (padded_field hpos hn) hwidth (by simp)
  unfold fractionText
  dsimp only
  generalize t.nanos % 1000000000 = n at hlt
  split
  · subst_vars
    rfl
  split
  · rw [hpoint (by decide) (by decide) (by omega)]
    congr 2
    omega
  split
  · rw [hpoint (by decide) (by decide) (by omega)]
    congr 2
    omega
  · rw [hpoint (by decide) (by decide) (by omega)]
    simp

/-! ## Texts -/

/-- An instant of the years 0 to 9999. Its fraction is less than a second, or than two in a leap
second. -/
structure Standard (t : Instant) : Prop where
  fraction : t.nanos < 1000000000 ∨ t.second = 59 ∧ t.nanos < 2000000000
  year : 0 ≤ t.date.year ∧ t.date.year ≤ 9999

/-- The clock shows the seconds of the instant. -/
theorem seconds_eq (t : Instant) :
    t.seconds = t.date.toDays * 86400 + t.hour * 3600 + t.minute * 60 + t.second ∧
      t.hour < 24 ∧ t.minute < 60 ∧ t.second < 60 := by
  have hday : 0 ≤ t.seconds.fmod 86400 ∧ t.seconds.fmod 86400 < 86400 :=
    ⟨Int.fmod_nonneg_of_pos _ (by decide), Int.fmod_lt_of_pos _ (by decide)⟩
  have hsum := Int.mul_fdiv_add_fmod t.seconds 86400
  rw [date, Date.toDays_ofDays]
  simp only [hour, minute, second, secondOfDay]
  omega

/-- Second sixty is counted as second fifty-nine, and the whole second is in the fraction. -/
theorem Standard.ofClock?_eq {t : Instant} (ht : t.Standard) :
    ofClock? t.date t.hour t.minute (t.second + t.nanos / 1000000000) (t.nanos % 1000000000) 0 =
      some t := by
  obtain ⟨hseconds, hhour, hminute, hsecond⟩ := t.seconds_eq
  have hdays := Date.days_bounds ht.year.1 ht.year.2
  have hvalid : t.date.valid = true := Date.ofDays_valid _
  have hto : t.date.toDays = t.seconds.fdiv 86400 := Date.toDays_ofDays _
  have hbounds : firstSecond ≤ t.seconds ∧ t.seconds ≤ lastSecond := by
    simp only [firstSecond, lastSecond]
    omega
  have hsixty : t.second + t.nanos / 1000000000 ≤ 60 := by
    rcases ht.fraction with h | ⟨-, h⟩ <;> omega
  have hnanos : t.nanos % 1000000000 +
      (if t.second + t.nanos / 1000000000 = 60 then 1000000000 else 0) = t.nanos := by
    rcases ht.fraction with h | ⟨h59, h⟩ <;> split <;> omega
  have hshown : t.date.toDays * 86400 + t.hour * 3600 + t.minute * 60 +
      ((if t.second + t.nanos / 1000000000 = 60 then 59
        else t.second + t.nanos / 1000000000 : Nat) : Int) = t.seconds := by
    rcases ht.fraction with h | ⟨h59, h⟩ <;> split <;> omega
  rw [ofClock?, if_pos ⟨hvalid, hhour, hminute, hsixty, by decide, by decide⟩]
  simp only [hshown, hnanos, Int.sub_zero]
  rw [if_pos ⟨hbounds.1, hbounds.2, hbounds⟩]

/-- An instant is read from its text in universal time. -/
theorem Standard.read?_text {t : Instant} (ht : t.Standard) : read? (t.text "Z") = some t := by
  obtain ⟨hyear, hyear'⟩ := ht.year
  obtain ⟨year, hcast⟩ := Int.eq_ofNat_of_zero_le hyear
  obtain ⟨-, hmonth, -, hday⟩ := Date.ofDays_bounds (t.seconds.fdiv 86400)
  have hsecond : t.second + t.nanos / 1000000000 < 10 ^ 2 := by
    have hlt : t.second < 60 := Nat.mod_lt _ (by decide)
    rcases ht.fraction with h | ⟨-, h⟩ <;> omega
  have hclock := ht.ofClock?_eq
  obtain ⟨-, hhour, hminute, -⟩ := t.seconds_eq
  have hYear : Field 4 year (yearText t.date.year).toList := by
    rw [yearText, if_pos ht.year, hcast]
    exact padded_field (by decide) (by omega)
  have hMonth : Field 2 t.date.month (padded 2 t.date.month).toList :=
    padded_field (by decide) (by rw [date]; omega)
  have hDay : Field 2 t.date.day (padded 2 t.date.day).toList :=
    padded_field (by decide) (by rw [date]; omega)
  have hHour : Field 2 t.hour (padded 2 t.hour).toList := padded_field (by decide) (by omega)
  have hMinute : Field 2 t.minute (padded 2 t.minute).toList :=
    padded_field (by decide) (by omega)
  have hSecond := padded_field (show 0 < 2 by decide) hsecond
  have hdash (rest : List Char) : readMark? '-' ('-' :: rest) = some rest := rfl
  have hcolon (rest : List Char) : readMark? ':' (':' :: rest) = some rest := rfl
  have htext : (t.text "Z").toList = (yearText t.date.year).toList ++ '-' ::
      ((padded 2 t.date.month).toList ++ '-' :: ((padded 2 t.date.day).toList ++ 'T' ::
        ((padded 2 t.hour).toList ++ ':' :: ((padded 2 t.minute).toList ++ ':' ::
          ((padded 2 (t.second + t.nanos / 1000000000)).toList ++
            (t.fractionText.toList ++ ['Z'])))))) := by
    simp [text, dateText, clockText]
  rw [read?, htext]
  refine Option.bind_eq_some_iff.mpr ⟨_, readYear?_field hYear _, ?_⟩
  refine Option.bind_eq_some_iff.mpr ⟨_, hdash _, ?_⟩
  refine Option.bind_eq_some_iff.mpr ⟨_, readNumber?_field hMonth _, ?_⟩
  refine Option.bind_eq_some_iff.mpr ⟨_, hdash _, ?_⟩
  refine Option.bind_eq_some_iff.mpr ⟨_, readNumber?_field hDay _, ?_⟩
  dsimp only
  rw [if_pos (Or.inl rfl)]
  refine Option.bind_eq_some_iff.mpr ⟨_, rfl, ?_⟩
  refine Option.bind_eq_some_iff.mpr ⟨_, readNumber?_field hHour _, ?_⟩
  refine Option.bind_eq_some_iff.mpr ⟨_, hcolon _, ?_⟩
  refine Option.bind_eq_some_iff.mpr ⟨_, readNumber?_field hMinute _, ?_⟩
  refine Option.bind_eq_some_iff.mpr ⟨_, hcolon _, ?_⟩
  refine Option.bind_eq_some_iff.mpr ⟨_, readNumber?_field hSecond _, ?_⟩
  refine Option.bind_eq_some_iff.mpr ⟨_, t.readFraction?_text, ?_⟩
  refine Option.bind_eq_some_iff.mpr ⟨(0, []), rfl, ?_⟩
  rw [← hcast]
  exact hclock

end Instant

end DeferredQuery
