import DeferredQuery.Json.Printer
import DeferredQuery.Json.Reader
import DeferredQuery.Proofs.Number.Shortest
import DeferredQuery.Proofs.Text.Canonical

/-!
# JSON strings and numbers read back

The text of a string is read as the string. A number is read from its own characters alone, with
whatever may follow a value left over, and the text of a whole number is read as that number.
-/

namespace DeferredQuery.Json

variable {n depth : Nat} {cs rest : List Char}

/-! ## Strings -/

/-- A control character reads back by its code point. -/
theorem readUnicode?_control {c : Char} (hc : c.toNat < 0x20) (rest : List Char) :
    readUnicode? ('0' :: '0' :: Text.hexDigit (c.toNat / 16) :: Text.hexDigit (c.toNat % 16) ::
      rest) = some (c, rest) := by
  have hhex : Uuid.ofHex? ['0', '0', Text.hexDigit (c.toNat / 16), Text.hexDigit (c.toNat % 16)] =
      some c.toNat := by
    have hzero : Uuid.hexValue? '0' = some 0 := by decide
    simp only [Uuid.ofHex?, List.foldlM_cons, List.foldlM_nil, hzero,
      Uuid.hexValue?_hexDigit _ (show c.toNat / 16 < 16 by omega),
      Uuid.hexValue?_hexDigit _ (show c.toNat % 16 < 16 by omega), Option.map_some,
      Option.bind_eq_bind, Option.bind_some, Option.pure_def, Option.some.injEq]
    omega
  have hlow : ¬(0xDC00 ≤ c.toNat ∧ c.toNat ≤ 0xDFFF) := by omega
  have hhigh : ¬(0xD800 ≤ c.toNat ∧ c.toNat ≤ 0xDBFF) := by omega
  simp [readUnicode?, readHex4?, hhex, hlow, hhigh]

/-- A character stands for itself, or behind a backslash for what is read there as the
character. -/
theorem escapeChar_cases (c : Char) :
    (escapeChar c = [c] ∧ c ≠ '"' ∧ c ≠ '\\' ∧ ¬c.toNat < 0x20) ∨
      ∃ e, escapeChar c = '\\' :: e ∧ ∀ cs, readEscape? (e ++ cs) = some (c, cs) := by
  unfold escapeChar
  split_ifs with hquote hslash _ _ _ _ _ hlow
  rotate_left 7
  · exact .inr ⟨_, rfl, readUnicode?_control hlow⟩
  · exact .inl ⟨rfl, hquote, hslash, hlow⟩
  all_goals
    subst_vars
    exact .inr ⟨_, rfl, fun _ => rfl⟩

theorem readChars?_escapeChar (c : Char) (n : Nat) (cs : List Char) :
    readChars? (n + 1) (escapeChar c ++ cs) =
      (readChars? n cs).map fun r => (c :: r.1, r.2) := by
  rcases escapeChar_cases c with ⟨hself, hquote, hslash, hlow⟩ | ⟨e, hescape, hread⟩
  · rw [hself, List.singleton_append, readChars?]
    · rw [if_neg hlow]
      cases readChars? n cs <;> rfl
    · simpa using hquote
    · simpa using hslash
  · rw [hescape, List.cons_append, readChars?, hread]
    simp only [Option.bind_eq_bind, Option.bind_some]
    cases readChars? n cs <;> rfl

theorem readChars?_escaped {s : List Char} (hn : s.length < n) (rest : List Char) :
    readChars? n (s.flatMap escapeChar ++ '"' :: rest) = some (s, rest) := by
  induction s generalizing n with
  | nil =>
      obtain ⟨n, rfl⟩ := Nat.exists_eq_add_of_le' hn
      rfl
  | cons c s ih =>
      obtain ⟨n, rfl⟩ := Nat.exists_eq_add_of_le' (show 1 ≤ n by omega)
      rw [List.flatMap_cons, List.append_assoc, readChars?_escapeChar,
        ih (by simp at hn; omega)]
      rfl

theorem escapeChar_ne_nil (c : Char) : escapeChar c ≠ [] := by
  rcases escapeChar_cases c with ⟨hself, -⟩ | ⟨e, hescape, -⟩
  · simp [hself]
  · simp [hescape]

/-- A string reads back character by character, up to the quote that ends it. -/
theorem readString?_text (s : String) (rest : List Char) :
    readString? (s.toList.flatMap escapeChar ++ '"' :: rest) = some (s, rest) := by
  have hlength : s.toList.length ≤ (s.toList.flatMap escapeChar).length := by
    induction s.toList with
    | nil => simp
    | cons c cs ih =>
        have hc := List.length_pos_iff.mpr (escapeChar_ne_nil c)
        simp only [List.flatMap_cons, List.length_append, List.length_cons]
        omega
  rw [readString?, readChars?_escaped (by
    rw [List.length_append, List.length_cons]
    omega)]
  simp

theorem toList_stringText (s : String) :
    (stringText s).toList = '"' :: (s.toList.flatMap escapeChar ++ ['"']) := by
  simp [stringText]

/-! ## Numbers -/

def Ends (rest : List Char) : Prop := ∀ c ∈ rest.head?, c = ',' ∨ c = ']' ∨ c = '\x7d'

theorem Ends.isDigit (h : Ends rest) : ∀ c ∈ rest.head?, c.isDigit = false := by
  intro c hc
  rcases h c hc with rfl | rfl | rfl <;> rfl

theorem span_append {p : Char → Bool} (hrest : ∀ c ∈ rest.head?, p c = false) (cs : List Char) :
    (cs ++ rest).takeWhile p = cs.takeWhile p ∧
      (cs ++ rest).dropWhile p = cs.dropWhile p ++ rest := by
  induction cs with
  | nil =>
      cases rest with
      | nil => exact ⟨rfl, rfl⟩
      | cons c rest => simp [hrest c rfl]
  | cons c cs ih => cases hc : p c <;> simp [hc, ih]

def fraction? : List Char → Option (Option (List Char) × List Char)
  | '.' :: more =>
    let ds := more.takeWhile Char.isDigit
    if ds = [] then none else some (some ds, more.dropWhile Char.isDigit)
  | rest => some (none, rest)

def exponent? : List Char → Option (Option Int × List Char)
  | 'e' :: more => (readExponent? more).map fun (n, rest) => (some n, rest)
  | 'E' :: more => (readExponent? more).map fun (n, rest) => (some n, rest)
  | rest => some (none, rest)

def unsigned? (negative : Bool) (cs : List Char) : Option (Int × List Char) :=
  let ds := cs.takeWhile Char.isDigit
  if ds = [] then none
  else
    let n : Int := min (Decimal.ofDigits ds) 2000000000
    some (if negative then -n else n, cs.dropWhile Char.isDigit)

def ofDigits? (negative : Bool) (whole : List Char) (fraction : Option (List Char))
    (e : Option Int) : Option Json :=
  let n := Decimal.ofDigits whole
  if fraction.isNone ∧ e.isNone ∧ n < Checked.unsignedCount ∧
      (negative → 0 < n ∧ Checked.least ≤ -n) then
    some (.int (if negative then -n else n))
  else (ofDecimal? negative whole (fraction.getD []) (e.getD 0)).map .float

theorem fraction?_of_ne (h : ∀ more, rest ≠ '.' :: more) : fraction? rest = some (none, rest) := by
  unfold fraction?
  split
  · exact absurd rfl (h _)
  · rfl

theorem exponent?_of_ne (h : ∀ more, rest ≠ 'e' :: more) (h' : ∀ more, rest ≠ 'E' :: more) :
    exponent? rest = some (none, rest) := by
  unfold exponent?
  split
  · exact absurd rfl (h _)
  · exact absurd rfl (h' _)
  · rfl

theorem readExponent?_of_ne (h : ∀ more, cs ≠ '-' :: more) (h' : ∀ more, cs ≠ '+' :: more) :
    readExponent? cs = unsigned? false cs := by
  unfold readExponent?
  split
  next heq =>
    split at heq
    · exact absurd rfl (h _)
    · exact absurd rfl (h' _)
    · cases heq
      rfl

/-- The reader of numbers in one equation: digits, then a fraction, then an exponent. -/
theorem readMagnitude?_eq (negative : Bool) (cs : List Char) :
    readMagnitude? negative cs =
      if cs.takeWhile Char.isDigit = [] ∨ ((cs.takeWhile Char.isDigit).length ≠ 1 ∧
          (cs.takeWhile Char.isDigit).head? = some '0') then none
      else (fraction? (cs.dropWhile Char.isDigit)).bind fun f => (exponent? f.2).bind fun e =>
        (ofDigits? negative (cs.takeWhile Char.isDigit) f.1 e.1).map (·, e.2) := by
  have hnumber : ∀ f e (rest : List Char),
      (if f.isNone = true ∧ e.isNone = true ∧
            Decimal.ofDigits (cs.takeWhile Char.isDigit) < Checked.unsignedCount ∧
            (negative = true → 0 < Decimal.ofDigits (cs.takeWhile Char.isDigit) ∧
              Checked.least ≤ -Decimal.ofDigits (cs.takeWhile Char.isDigit)) then
          some (Json.int (if negative = true then -Decimal.ofDigits (cs.takeWhile Char.isDigit)
            else Decimal.ofDigits (cs.takeWhile Char.isDigit)), rest)
        else (ofDecimal? negative (cs.takeWhile Char.isDigit) (f.getD []) (e.getD 0)).bind fun x =>
          some (Json.float x, rest)) =
        (ofDigits? negative (cs.takeWhile Char.isDigit) f e).map (·, rest) := by
    intro f e rest
    rw [ofDigits?]
    split
    · rfl
    · rw [Option.map_map, Option.map_eq_bind]
      rfl
  have hexponent : ∀ f (rest : List Char), (exponent? rest).bind (fun e =>
      (ofDigits? negative (cs.takeWhile Char.isDigit) f e.1).map (·, e.2)) =
        match rest with
        | 'e' :: more => (readExponent? more).bind fun e =>
          (ofDigits? negative (cs.takeWhile Char.isDigit) f (some e.1)).map (·, e.2)
        | 'E' :: more => (readExponent? more).bind fun e =>
          (ofDigits? negative (cs.takeWhile Char.isDigit) f (some e.1)).map (·, e.2)
        | _ => (ofDigits? negative (cs.takeWhile Char.isDigit) f none).map (·, rest) := by
    intro f rest
    split
    · rw [exponent?, Option.bind_map]
      rfl
    · rw [exponent?, Option.bind_map]
      rfl
    · rw [exponent?_of_ne ‹_› ‹_›]
      rfl
  rw [readMagnitude?]
  split
  · rfl
  dsimp only
  split
  · next more heq =>
      rw [heq, fraction?]
      split
      · rfl
      · simp only [Option.bind_eq_bind, Option.bind_some, hnumber, hexponent, Option.bind_map,
          Function.comp_def]
        try rfl
  · next hne =>
      rw [fraction?_of_ne hne]
      simp only [Option.bind_eq_bind, Option.bind_some, hnumber, hexponent, Option.bind_map,
        Function.comp_def]
      try rfl

/-- A fraction ends where the number does. -/
theorem fraction?_append (hrest : Ends rest) (cs : List Char) :
    fraction? (cs ++ rest) = (fraction? cs).map fun r => (r.1, r.2 ++ rest) := by
  cases cs with
  | nil =>
      refine fraction?_of_ne ?_
      rintro more rfl
      exact absurd (hrest '.' rfl) (by decide)
  | cons c cs =>
      by_cases hc : c = '.'
      · subst hc
        obtain ⟨htake, hdrop⟩ := span_append hrest.isDigit cs
        rw [List.cons_append, fraction?, fraction?, htake, hdrop]
        split <;> rfl
      · rw [fraction?_of_ne (by simp [hc]), fraction?_of_ne (by simp [hc])]
        rfl

theorem unsigned?_append (hrest : Ends rest) (negative : Bool) (cs : List Char) :
    unsigned? negative (cs ++ rest) = (unsigned? negative cs).map fun r => (r.1, r.2 ++ rest) := by
  obtain ⟨htake, hdrop⟩ := span_append hrest.isDigit cs
  rw [unsigned?, unsigned?, htake, hdrop]
  split <;> rfl

theorem readExponent?_append (hrest : Ends rest) (cs : List Char) :
    readExponent? (cs ++ rest) = (readExponent? cs).map fun r => (r.1, r.2 ++ rest) := by
  cases cs with
  | nil =>
      cases rest with
      | nil => rfl
      | cons c rest =>
          rcases hrest c rfl with rfl | rfl | rfl <;> exact unsigned?_append hrest false []
  | cons c cs =>
      by_cases hminus : c = '-'
      · subst hminus
        exact unsigned?_append hrest true cs
      by_cases hplus : c = '+'
      · subst hplus
        exact unsigned?_append hrest false cs
      · rw [List.cons_append, readExponent?_of_ne (by simp [hminus]) (by simp [hplus]),
          readExponent?_of_ne (by simp [hminus]) (by simp [hplus]), ← List.cons_append,
          unsigned?_append hrest]

theorem exponent?_append (hrest : Ends rest) (cs : List Char) :
    exponent? (cs ++ rest) = (exponent? cs).map fun r => (r.1, r.2 ++ rest) := by
  cases cs with
  | nil =>
      refine exponent?_of_ne ?_ ?_
      · rintro more rfl
        exact absurd (hrest 'e' rfl) (by decide)
      · rintro more rfl
        exact absurd (hrest 'E' rfl) (by decide)
  | cons c cs =>
      by_cases hc : c = 'e'
      · subst hc
        rw [List.cons_append, exponent?, exponent?, readExponent?_append hrest, Option.map_map,
          Option.map_map]
        rfl
      by_cases hc' : c = 'E'
      · subst hc'
        rw [List.cons_append, exponent?, exponent?, readExponent?_append hrest, Option.map_map,
          Option.map_map]
        rfl
      · rw [exponent?_of_ne (by simp [hc]) (by simp [hc']),
          exponent?_of_ne (by simp [hc]) (by simp [hc'])]
        rfl

/-- A number is read alike whatever follows it. -/
theorem readMagnitude?_append (hrest : Ends rest) (negative : Bool) (cs : List Char) :
    readMagnitude? negative (cs ++ rest) =
      (readMagnitude? negative cs).map fun r => (r.1, r.2 ++ rest) := by
  obtain ⟨htake, hdrop⟩ := span_append hrest.isDigit cs
  rw [readMagnitude?_eq, readMagnitude?_eq, htake, hdrop]
  split
  · rfl
  · simp only [fraction?_append hrest, exponent?_append hrest, Option.bind_map, Option.map_bind,
      Function.comp_def, Option.map_map]

/-! ### What is left -/

theorem suffix_of_unsigned? {negative : Bool} {e : Int}
    (h : unsigned? negative cs = some (e, rest)) : rest <:+ cs := by
  unfold unsigned? at h
  dsimp only at h
  split at h
  · cases h
  · cases h
    exact List.dropWhile_suffix _

theorem suffix_of_readExponent? {e : Int} (h : readExponent? cs = some (e, rest)) :
    rest <:+ cs := by
  rcases em (∃ more, cs = '-' :: more) with ⟨more, rfl⟩ | hminus
  · have hmore : rest <:+ more := suffix_of_unsigned? (show unsigned? true more = _ from h)
    exact hmore.trans (List.suffix_cons _ _)
  rcases em (∃ more, cs = '+' :: more) with ⟨more, rfl⟩ | hplus
  · have hmore : rest <:+ more := suffix_of_unsigned? (show unsigned? false more = _ from h)
    exact hmore.trans (List.suffix_cons _ _)
  · rw [readExponent?_of_ne (by simpa using hminus) (by simpa using hplus)] at h
    exact suffix_of_unsigned? h

theorem suffix_of_fraction? {f : Option (List Char)} (h : fraction? cs = some (f, rest)) :
    rest <:+ cs := by
  unfold fraction? at h
  dsimp only at h
  split at h
  · split at h
    · cases h
    · cases h
      exact (List.dropWhile_suffix _).trans (List.suffix_cons _ _)
  · cases h
    exact List.suffix_rfl

theorem suffix_of_exponent? {e : Option Int} (h : exponent? cs = some (e, rest)) :
    rest <:+ cs := by
  unfold exponent? at h
  split at h
  · obtain ⟨r, hr, hrest⟩ := Option.map_eq_some_iff.mp h
    cases hrest
    exact (suffix_of_readExponent? hr).trans (List.suffix_cons _ _)
  · obtain ⟨r, hr, hrest⟩ := Option.map_eq_some_iff.mp h
    cases hrest
    exact (suffix_of_readExponent? hr).trans (List.suffix_cons _ _)
  · cases h
    exact List.suffix_rfl

theorem suffix_of_readMagnitude? {negative : Bool} {j : Json}
    (h : readMagnitude? negative cs = some (j, rest)) : rest <:+ cs := by
  rw [readMagnitude?_eq] at h
  split at h
  · cases h
  obtain ⟨⟨f, rest₁⟩, hf, h⟩ := Option.bind_eq_some_iff.mp h
  obtain ⟨⟨e, rest₂⟩, he, h⟩ := Option.bind_eq_some_iff.mp h
  obtain ⟨j, -, h⟩ := Option.map_eq_some_iff.mp h
  cases h
  exact (suffix_of_exponent? he).trans ((suffix_of_fraction? hf).trans (List.dropWhile_suffix _))

/-! ### Whole numbers -/

theorem head?_toDigits_ne_zero {n : Nat} (hn : 0 < n) :
    (Nat.toDigits 10 n).head? ≠ some '0' := by
  induction n using Nat.strongRecOn with
  | _ n ih =>
      rcases Nat.lt_or_ge n 10 with hlt | hge
      · have hchar : ∀ d < 10, 0 < d → [Nat.digitChar d].head? ≠ some '0' := by decide
        rw [Nat.toDigits_of_lt_base hlt]
        exact hchar n hlt hn
      · rw [Nat.toDigits_of_base_le (by norm_num) hge,
          List.head?_append_of_ne_nil _ Nat.toDigits_ne_nil]
        exact ih (n / 10) (by omega) (by omega)

/-- A whole number reads back as one if it is in the range of either 64-bit type. -/
theorem readMagnitude?_toDigits {n : Nat} {negative : Bool} (hn : n < Checked.unsignedCount)
    (hneg : negative = true → 0 < n ∧ Checked.least ≤ -n) :
    readMagnitude? negative (Nat.toDigits 10 n) =
      some (.int (if negative then -n else n), []) := by
  obtain ⟨htake, hdrop⟩ :=
    Decimal.takeWhile_isDigit [] (Decimal.digits_toDigits n).all (by simp)
  rw [List.append_nil] at htake hdrop
  have hzero : ¬((Nat.toDigits 10 n).length ≠ 1 ∧ (Nat.toDigits 10 n).head? = some '0') := by
    rintro ⟨hlength, hhead⟩
    rcases Nat.eq_zero_or_pos n with rfl | hpos
    · exact hlength rfl
    · exact head?_toDigits_ne_zero hpos hhead
  rw [readMagnitude?_eq, htake, hdrop, if_neg (by simp [Nat.toDigits_ne_nil, hzero])]
  simp only [fraction?, exponent?, Option.bind_some, ofDigits?, Decimal.ofDigits_toDigits]
  rw [if_pos ⟨rfl, rfl, hn, hneg⟩]
  rfl

end DeferredQuery.Json
