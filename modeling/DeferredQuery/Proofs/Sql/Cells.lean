import DeferredQuery.Proofs.Text.Canonical
import DeferredQuery.Sql.Cell

/-!
# Numbers and instants in cells

A whole number comes back from a cell of any width as itself or not at all, and an instant in any
unit as itself, up to a part of a microsecond, or not at all. A count of units that had to be
brought into the 64-bit range lies outside every calendar, so saturation never moves an instant.
-/

namespace DeferredQuery

namespace Checked

/-- Bringing a number into the 64-bit range takes it to the nearest end. -/
theorem toInt_clamp (n : Int) : (clamp n).toInt = max least (min n greatest) := by
  unfold clamp
  split
  · rw [Int64.toInt_ofInt_of_le (by decide) (by decide)]
    simp only [least, greatest] at *
    omega
  · split
    · rw [Int64.toInt_ofInt_of_le (by decide) (by decide)]
      simp only [least, greatest] at *
      omega
    · simp only [least, greatest] at *
      rw [Int64.toInt_ofInt_of_le (by omega) (by omega)]
      omega

end Checked

/-! ## The calendar -/

/-- The days of the years -262143 to 262142. -/
theorem Date.year_iff (days : Int) :
    -262143 ≤ (ofDays days).year ∧ (ofDays days).year ≤ 262142 ↔
      -96465292 ≤ days ∧ days ≤ 95026236 := by
  obtain ⟨year, dayOfYear, hday, hdays, hof⟩ := exists_ofDays_eq days
  simp only [epochOffset] at hdays
  rw [hof]
  dsimp only
  -- Years are counted from March here, so the first and the last one lie in two of them.
  rcases Int.lt_trichotomy year (-262144) with hyear | rfl | hyear
  · split <;> omega
  · split <;> omega
  · rcases Int.lt_trichotomy year 262142 with hyear' | rfl | hyear'
    · split <;> omega
    · split <;> omega
    · split <;> omega

namespace Instant

/-- The nanoseconds from the start of 1970 to an instant. -/
def sinceEpoch (t : Instant) : Int := t.seconds * 1000000000 + t.nanos

def ofNanos (n : Int) : Instant := ⟨n.fdiv 1000000000, (n.fmod 1000000000).toNat⟩

theorem sinceEpoch_ofNanos (n : Int) : (ofNanos n).sinceEpoch = n := by
  have hrest : 0 ≤ n.fmod 1000000000 := Int.fmod_nonneg_of_pos _ (by decide)
  have hsum := Int.mul_fdiv_add_fmod n 1000000000
  simp only [ofNanos, sinceEpoch]
  omega

end Instant

/-- A range of instants in nanoseconds from the start of 1970. All 64-bit counts of nanoseconds are
in it, and the least and the greatest 64-bit counts of microseconds are not. -/
structure Calendar where
  first : Int
  last : Int
  first_le : first ≤ Checked.least
  le_last : Checked.greatest ≤ last
  lt_first : Checked.least * 1000 < first
  last_lt : last < Checked.greatest * 1000

namespace Calendar

theorem bounds (c : Calendar) :
    c.first ≤ -9223372036854775808 ∧ 9223372036854775807 ≤ c.last ∧
      -9223372036854775808000 < c.first ∧ c.last < 9223372036854775807000 :=
  ⟨c.first_le, c.le_last, c.lt_first, c.last_lt⟩

def Has (c : Calendar) (n : Int) : Prop := c.first ≤ n ∧ n ≤ c.last

/-- The counts of microseconds that a function takes are those in the calendar, each for its
instant. -/
structure Reads (c : Calendar) (ofMicros : Int64 → Option Instant) : Prop where
  inside : ∀ n, c.Has (n.toInt * 1000) → ∃ i, ofMicros n = some i ∧ i.sinceEpoch = n.toInt * 1000
  outside : ∀ n, ¬c.Has (n.toInt * 1000) → ofMicros n = none

/-- The days of the years -262143 to 262142. -/
def gregorian : Calendar where
  first := Instant.firstSecond * 1000000000
  last := Instant.lastSecond * 1000000000 + 999999999
  first_le := by decide
  le_last := by decide
  lt_first := by decide
  last_lt := by decide

theorem gregorian_has_iff (n : Int) :
    gregorian.Has n ↔ -262143 ≤ (Instant.ofNanos n).date.year ∧
      (Instant.ofNanos n).date.year ≤ 262142 := by
  rw [Instant.date, Date.year_iff]
  simp only [Has, gregorian, Instant.ofNanos, Instant.firstSecond, Instant.lastSecond,
    Int.fdiv_eq_ediv_of_nonneg _ (show (0 : Int) ≤ 86400 by decide),
    Int.fdiv_eq_ediv_of_nonneg _ (show (0 : Int) ≤ 1000000000 by decide)]
  omega

/-- The bounds of the calendar are those of whole seconds. -/
theorem ofMicros?_eq (n : Int) :
    Instant.ofMicros? n =
      if Instant.firstSecond ≤ n.fdiv 1000000 ∧ n.fdiv 1000000 ≤ Instant.lastSecond then
        some (.ofNanos (n * 1000)) else none := by
  have hinstant : (⟨n.fdiv 1000000, (n.fmod 1000000).toNat * 1000⟩ : Instant) =
      .ofNanos (n * 1000) := by
    simp only [Instant.ofNanos, Instant.mk.injEq,
      Int.fdiv_eq_ediv_of_nonneg _ (show (0 : Int) ≤ 1000000 by decide),
      Int.fdiv_eq_ediv_of_nonneg _ (show (0 : Int) ≤ 1000000000 by decide),
      Int.fmod_eq_emod_of_nonneg _ (show (0 : Int) ≤ 1000000 by decide),
      Int.fmod_eq_emod_of_nonneg _ (show (0 : Int) ≤ 1000000000 by decide)]
    omega
  rw [Instant.ofMicros?, hinstant]

theorem gregorian_reads : gregorian.Reads fun n => Instant.ofMicros? n.toInt := by
  have hrange (n : Int) : gregorian.Has (n * 1000) ↔
      Instant.firstSecond ≤ n.fdiv 1000000 ∧ n.fdiv 1000000 ≤ Instant.lastSecond := by
    rw [Int.fdiv_eq_ediv_of_nonneg _ (by decide)]
    simp only [Has, gregorian, Instant.firstSecond, Instant.lastSecond]
    omega
  constructor
  case inside =>
    intro n h
    exact ⟨_, by rw [ofMicros?_eq, if_pos ((hrange _).mp h)], Instant.sinceEpoch_ofNanos _⟩
  case outside =>
    intro n h
    rw [ofMicros?_eq, if_neg (mt (hrange _).mpr h)]

end Calendar

namespace Sql

/-! ## Cells -/

def Cell.number? : Cell → Option Int
  | .tinyInt n => some n.toInt
  | .smallInt n => some n.toInt
  | .int n => some n.toInt
  | .bigInt n => some n.toInt
  | .uTinyInt n => some n.toNat
  | .uSmallInt n => some n.toNat
  | .uInt n => some n.toNat
  | .uBigInt n => some n.toNat
  | .hugeInt n => some n.toInt
  | _ => none

theorem toInt_toInt64 {n : UInt64} (h : n.toNat < 2 ^ 63) : n.toInt64.toInt = n.toNat := by
  rw [← Int64.toInt_toBitVec, UInt64.toBitVec_toInt64, BitVec.toInt_eq_toNat_of_lt,
    UInt64.toNat_toBitVec]
  rw [UInt64.toNat_toBitVec]
  omega

theorem narrow_eq_ok {n : Int} {m : Int64} (h : m.toInt = n) : narrow n = .ok (.int m) := by
  rw [narrow, Checked.fit?_eq_some_iff.mpr h]

theorem narrow_eq_error {n : Int} (h : ∀ m : Int64, m.toInt ≠ n) :
    narrow n = .error (.overflow n) := by
  have hfit : Checked.fit? n = none := by
    cases hfit : Checked.fit? n with
    | none => rfl
    | some m => exact absurd (Checked.fit?_eq_some_iff.mp hfit) (h m)
  rw [narrow, hfit]

section Decoding

variable (ofMicros : Int64 → Option Instant) (t : Ty)

/-- A word of 64 bits or fewer is widened to its number, and the other words are narrowed. -/
theorem decode_word {cell : Cell} {n : Int} (h : cell.number? = some n) :
    (∃ m : Int64, m.toInt = n ∧ decode ofMicros cell t = .ok (.int m)) ∨
      (((∃ w, cell = .uBigInt w) ∨ ∃ w, cell = .hugeInt w) ∧
        decode ofMicros cell t = narrow n) := by
  cases cell <;> cases h
  case tinyInt w => exact .inl ⟨_, w.toInt_toInt64, rfl⟩
  case smallInt w => exact .inl ⟨_, w.toInt_toInt64, rfl⟩
  case int w => exact .inl ⟨_, w.toInt_toInt64, rfl⟩
  case bigInt w => exact .inl ⟨w, rfl, rfl⟩
  case uTinyInt w =>
    have hw := w.toNat_lt
    exact .inl ⟨_, toInt_toInt64 (by rw [w.toNat_toUInt64]; omega), rfl⟩
  case uSmallInt w =>
    have hw := w.toNat_lt
    exact .inl ⟨_, toInt_toInt64 (by rw [w.toNat_toUInt64]; omega), rfl⟩
  case uInt w =>
    have hw := w.toNat_lt
    exact .inl ⟨_, toInt_toInt64 (by rw [w.toNat_toUInt64]; omega), rfl⟩
  case uBigInt w => exact .inr ⟨.inl ⟨w, rfl⟩, rfl⟩
  case hugeInt w => exact .inr ⟨.inr ⟨w, rfl⟩, rfl⟩

theorem decode_number {cell : Cell} {n : Int} (h : cell.number? = some n) :
    (∀ m : Int64, m.toInt = n → decode ofMicros cell t = .ok (.int m)) ∧
      ((∀ m : Int64, m.toInt ≠ n) → decode ofMicros cell t = .error (.overflow n) ∧
        ((∃ w, cell = .uBigInt w) ∨ ∃ w, cell = .hugeInt w)) := by
  rcases decode_word ofMicros t h with ⟨m, hm, hdecode⟩ | ⟨hcell, hdecode⟩
  · refine ⟨fun m' hm' => ?_, fun hnone => absurd hm (hnone m)⟩
    rw [hdecode, Int64.toInt_inj.mp (hm.trans hm'.symm)]
  · exact ⟨fun m hm => hdecode.trans (narrow_eq_ok hm),
      fun hnone => ⟨hdecode.trans (narrow_eq_error hnone), hcell⟩⟩

end Decoding

/-! ## Counts of time units -/

namespace TimeUnit

def nanos : TimeUnit → Int
  | second => 1000000000
  | milli => 1000000
  | micro => 1000
  | nano => 1

/-- The quotient toward zero by quotients of what is not negative. -/
theorem tdiv_thousand (n : Int) :
    0 ≤ n ∧ n.tdiv 1000 = n / 1000 ∨ n ≤ 0 ∧ n.tdiv 1000 = -(-n / 1000) := by
  rcases Int.le_total 0 n with hn | hn
  · exact .inl ⟨hn, Int.tdiv_eq_ediv_of_nonneg hn⟩
  · refine .inr ⟨hn, ?_⟩
    rw [← Int.tdiv_eq_ediv_of_nonneg (Int.neg_nonneg_of_nonpos hn), Int.neg_tdiv, Int.neg_neg]

variable (c : Calendar) (unit : TimeUnit) (raw : Int64)

/-- The microseconds of a count are exact in the calendar, but for parts of a microsecond. -/
theorem micros_of_has (h : c.Has (raw.toInt * unit.nanos)) :
    c.Has ((unit.micros raw).toInt * 1000) ∧
      ((unit.micros raw).toInt * 1000 - raw.toInt * unit.nanos).natAbs < 1000 ∧
      (unit ≠ .nano → (unit.micros raw).toInt * 1000 = raw.toInt * unit.nanos) := by
  have hbounds := c.bounds
  have hraw := raw.le_toInt
  have hraw' := raw.toInt_lt
  simp only [Calendar.Has] at h ⊢
  cases unit with
  | second | milli =>
      simp only [micros, nanos, Checked.toInt_clamp, Checked.least, Checked.greatest] at h ⊢
      exact ⟨by omega, by omega, fun _ => by omega⟩
  | micro =>
      simp only [micros, nanos] at h ⊢
      exact ⟨h, by omega, fun _ => trivial⟩
  | nano =>
      have hdiv := tdiv_thousand raw.toInt
      simp only [micros, nanos, Checked.toInt_clamp, Checked.least, Checked.greatest] at h ⊢
      exact ⟨by omega, by omega, fun hunit => absurd rfl hunit⟩

/-- No count of an instant outside the calendar is brought into it. -/
theorem micros_of_not_has (h : ¬c.Has (raw.toInt * unit.nanos)) :
    ¬c.Has ((unit.micros raw).toInt * 1000) := by
  have hbounds := c.bounds
  have hraw := raw.le_toInt
  have hraw' := raw.toInt_lt
  simp only [Calendar.Has] at h ⊢
  cases unit with
  | second | milli =>
      simp only [micros, nanos, Checked.toInt_clamp, Checked.least, Checked.greatest] at h ⊢
      omega
  | micro =>
      simp only [micros, nanos] at h ⊢
      omega
  | nano =>
      simp only [nanos] at h
      omega

end TimeUnit

section Decoding

variable {c : Calendar} {ofMicros : Int64 → Option Instant} (hreads : c.Reads ofMicros) (t : Ty)
  {unit : TimeUnit} {raw : Int64}
include hreads

theorem decode_timestamp (h : c.Has (raw.toInt * unit.nanos)) :
    ∃ i, decode ofMicros (.timestamp unit raw) t = .ok (.instant i) ∧
      (i.sinceEpoch - raw.toInt * unit.nanos).natAbs < 1000 ∧
      (unit ≠ .nano → i.sinceEpoch = raw.toInt * unit.nanos) := by
  obtain ⟨hmicros, hnear, hexact⟩ := unit.micros_of_has c raw h
  obtain ⟨i, hi, hsince⟩ := hreads.inside _ hmicros
  rw [← hsince] at hnear hexact
  refine ⟨i, ?_, hnear, hexact⟩
  rw [decode, hi]

theorem decode_timestamp_of_not_has (h : ¬c.Has (raw.toInt * unit.nanos)) :
    decode ofMicros (.timestamp unit raw) t = .error (.timestampRange (unit.micros raw)) := by
  rw [decode, hreads.outside _ (unit.micros_of_not_has c raw h)]

end Decoding

/-- A whole number of any width is decoded as itself if it is a 64-bit number, and refused
otherwise, which happens with two widths only. A count of time units is decoded as the instant that
it denotes, but for a part of a microsecond if the units are nanoseconds, and refused if the
calendar does not have that instant. -/
theorem decode_exact {c : Calendar} {ofMicros : Int64 → Option Instant}
    (hreads : c.Reads ofMicros) (t : Ty) :
    (∀ (cell : Cell) (n : Int), cell.number? = some n →
      (∀ m : Int64, m.toInt = n → decode ofMicros cell t = .ok (.int m)) ∧
      ((∀ m : Int64, m.toInt ≠ n) → decode ofMicros cell t = .error (.overflow n) ∧
        ((∃ w, cell = .uBigInt w) ∨ ∃ w, cell = .hugeInt w))) ∧
    (∀ (unit : TimeUnit) (raw : Int64),
      (c.Has (raw.toInt * unit.nanos) →
        ∃ i, decode ofMicros (.timestamp unit raw) t = .ok (.instant i) ∧
          (i.sinceEpoch - raw.toInt * unit.nanos).natAbs < 1000 ∧
          (unit ≠ .nano → i.sinceEpoch = raw.toInt * unit.nanos)) ∧
      (¬c.Has (raw.toInt * unit.nanos) →
        decode ofMicros (.timestamp unit raw) t = .error (.timestampRange (unit.micros raw)))) :=
  ⟨fun _ _ => decode_number ofMicros t,
    fun _ _ => ⟨decode_timestamp hreads t, decode_timestamp_of_not_has hreads t⟩⟩

/-- The least 128-bit number is refused. The last second of the calendar is decoded, and the
greatest count of seconds is refused, though the microseconds are cut to 64 bits. -/
theorem decode_at_ends :
    let ofMicros (n : Int64) := Instant.ofMicros? n.toInt
    Calendar.gregorian.Reads ofMicros ∧
      decode ofMicros (.hugeInt (BitVec.intMin 128)) .int =
        .error (.overflow (-170141183460469231731687303715884105728)) ∧
      decode ofMicros (.uTinyInt 255) .int = .ok (.int 255) ∧
      Calendar.gregorian.Has 8210266876799000000000 ∧
      (∃ i, decode ofMicros (.timestamp .second 8210266876799) .timestamp = .ok (.instant i) ∧
        i.sinceEpoch = 8210266876799000000000) ∧
      ¬Calendar.gregorian.Has 9223372036854775807000000000 ∧
      decode ofMicros (.timestamp .second 9223372036854775807) .timestamp =
        .error (.timestampRange 9223372036854775807) := by
  intro ofMicros
  have hreads : Calendar.gregorian.Reads ofMicros := Calendar.gregorian_reads
  obtain ⟨hint, -⟩ := decode_exact hreads .int
  obtain ⟨-, htime⟩ := decode_exact hreads .timestamp
  have hlast : Calendar.gregorian.Has 8210266876799000000000 := by
    unfold Calendar.Has Calendar.gregorian
    decide
  have hafter : ¬Calendar.gregorian.Has 9223372036854775807000000000 := by
    unfold Calendar.Has Calendar.gregorian
    decide
  have hleast : ∀ m : Int64, m.toInt ≠ -170141183460469231731687303715884105728 := by
    intro m
    have hm := m.le_toInt
    omega
  obtain ⟨i, hi, -, hexact⟩ := (htime .second 8210266876799).1 hlast
  exact ⟨hreads, ((hint (.hugeInt (BitVec.intMin 128)) _ (by decide)).2 hleast).1,
    (hint (.uTinyInt 255) 255 rfl).1 255 rfl, hlast, ⟨i, hi, hexact (by decide)⟩, hafter,
    (htime .second 9223372036854775807).2 hafter⟩

end Sql

end DeferredQuery
