import DeferredQuery.Proofs.Json.Scalars

/-!
# JSON texts read back

The canonical text of a JSON value is read as the value, where its whole numbers have 64 bits and
its floating point numbers read back on their own. Containers may nest as deep as the reader is
told.
-/

namespace DeferredQuery.Json

variable {n depth : Nat} {cs rest : List Char} {j : Json}

/-- A whole number that a reader keeps as one. -/
def Fits (n : Int) : Prop := Checked.least ≤ n ∧ n < Checked.unsignedCount

structure Exact (x : Float) : Prop where
  finite : ∃ negative m q, Binary64.parts x = .finite negative m q
  reads : ofText? 0 (floatText x) = some (.float x)

inductive Legible : Json → Prop where
  | null : Legible .null
  | bool (b : Bool) : Legible (.bool b)
  | int {n : Int} (h : Fits n) : Legible (.int n)
  | float {x : Float} (h : Exact x) : Legible (.float x)
  | str (s : String) : Legible (.str s)
  | arr {items : List Json} (h : ∀ j ∈ items, Legible j) : Legible (.arr items)
  | obj {members : List (Named Json)} (h : ∀ m ∈ members, Legible m.value) :
    Legible (.obj members)

/-! ## First characters -/

theorem skipBlanks_cons {c : Char} (hc : isBlank c = false) (cs : List Char) :
    skipBlanks (c :: cs) = c :: cs := by
  rw [skipBlanks, List.dropWhile_cons_of_neg (by simp [hc])]

theorem isBlank_of_isNumberChar {c : Char} (hc : Decimal.isNumberChar c = true) :
    isBlank c = false := by
  cases hblank : isBlank c
  · rfl
  · simp only [isBlank, Bool.or_eq_true, beq_iff_eq] at hblank
    rcases hblank with ((rfl | rfl) | rfl) | rfl <;> exact absurd hc (by decide)

theorem floatText_signed {x : Float} {negative : Bool} {m : Nat} {q : Int}
    (hx : Binary64.parts x = .finite negative m q) : Decimal.Signed (floatText x).toList := by
  rw [floatText, hx]
  exact Decimal.Layout.text_signed (by rintro _ ⟨⟩; decide) hx

def Begins (cs : List Char) : Prop := ∃ c ∈ cs.head?, isBlank c = false ∧ c ≠ ']'

theorem begins_of_signed (h : Decimal.Signed cs) : Begins cs := by
  rcases h with ⟨⟨c, ds, rfl, hc⟩, hall⟩ | ⟨ds, -, rfl⟩
  · refine ⟨c, rfl, isBlank_of_isNumberChar (hall c (by simp)), ?_⟩
    rintro rfl
    exact absurd hc (by decide)
  · exact ⟨'-', rfl, by decide⟩

/-- No text of a value begins with a blank, or with what ends an array. -/
theorem text_begins (j : Json) : Begins j.text.toList := by
  cases j with
  | null => exact ⟨'n', rfl, by decide⟩
  | bool b =>
      cases b with
      | true => exact ⟨'t', rfl, by decide⟩
      | false => exact ⟨'f', rfl, by decide⟩
  | int n => exact begins_of_signed (Decimal.toString_signed n)
  | float x =>
      cases hx : Binary64.parts x with
      | finite negative m q => exact begins_of_signed (floatText_signed hx)
      | _ =>
          have hnull : floatText x = "null" := by rw [floatText, hx]
          rw [text, hnull]
          exact ⟨'n', rfl, by decide⟩
  | str s =>
      rw [text, toList_stringText]
      exact ⟨'"', rfl, by decide⟩
  | arr items =>
      rw [text, String.toList_append, String.toList_append]
      exact ⟨'[', rfl, by decide⟩
  | obj members =>
      rw [text, String.toList_append, String.toList_append]
      exact ⟨'\x7b', rfl, by decide⟩

/-! ## Numbers -/

def readSigned? : List Char → Option (Json × List Char)
  | '-' :: cs => readMagnitude? true cs
  | cs => readMagnitude? false cs

theorem readSigned?_cons {c : Char} (hc : c ≠ '-') (cs : List Char) :
    readSigned? (c :: cs) = readMagnitude? false (c :: cs) := by
  unfold readSigned?
  split
  · next heq => exact absurd (List.cons.inj heq).1 hc
  · rfl

theorem readValue?_digit {c : Char} (hc : c.isDigit = true) (cs : List Char) :
    readValue? (n + 1) depth (c :: cs) = readMagnitude? false (c :: cs) := by
  rw [readValue?, skipBlanks_cons (isBlank_of_isNumberChar (Decimal.isNumberChar_of_isDigit hc))]
  split
  case h_8 => rfl
  all_goals
    next heq =>
      cases heq
      exact absurd hc (by decide)

/-- A number is read from its own characters, whatever follows. -/
theorem readValue?_signed (hcs : Decimal.Signed cs) (hrest : Ends rest) :
    readValue? (n + 1) depth (cs ++ rest) = (readSigned? cs).map fun r => (r.1, r.2 ++ rest) := by
  rcases hcs with ⟨⟨c, ds, rfl, hc⟩, -⟩ | ⟨ds, -, rfl⟩
  · have hminus : c ≠ '-' := by
      rintro rfl
      exact absurd hc (by decide)
    rw [List.cons_append, readValue?_digit hc, readSigned?_cons hminus, ← List.cons_append,
      readMagnitude?_append hrest]
  · exact readMagnitude?_append hrest true ds

theorem readSigned?_digits (hcs : Decimal.Digits cs) :
    readSigned? cs = readMagnitude? false cs := by
  obtain ⟨c, ds, rfl⟩ := List.exists_cons_of_ne_nil hcs.ne_nil
  refine readSigned?_cons ?_ ds
  rintro rfl
  exact absurd (hcs.all '-' (by simp)) (by decide)

theorem readSigned?_toString {n : Int} (hn : Fits n) :
    readSigned? (toString n).toList = some (.int n, []) := by
  obtain ⟨hleast, hgreatest⟩ := hn
  cases n with
  | ofNat n =>
      rw [show toString (Int.ofNat n) = toString n from rfl, Decimal.toList_toString_nat,
        readSigned?_digits (Decimal.digits_toDigits n),
        readMagnitude?_toDigits (by simpa using hgreatest) (by simp)]
      rfl
  | negSucc n =>
      have hn : n + 1 < Checked.unsignedCount := by
        simp only [Checked.least, Checked.unsignedCount] at hleast ⊢
        omega
      rw [Decimal.toList_toString_negSucc]
      show readMagnitude? true (Nat.toDigits 10 (n + 1)) = _
      rw [readMagnitude?_toDigits hn fun _ => ⟨by omega, by omega⟩]
      rfl

theorem suffix_of_readSigned? (h : readSigned? cs = some (j, rest)) : rest <:+ cs := by
  unfold readSigned? at h
  split at h
  · exact (suffix_of_readMagnitude? h).trans (List.suffix_cons _ _)
  · exact suffix_of_readMagnitude? h

theorem isBlank_of_mem_signed (h : Decimal.Signed cs) : ∀ c ∈ cs, isBlank c = false := by
  intro c hc
  rcases h with ⟨-, hall⟩ | ⟨ds, ⟨-, hall⟩, rfl⟩
  · exact isBlank_of_isNumberChar (hall c hc)
  · rcases List.mem_cons.mp hc with rfl | hc
    · rfl
    · exact isBlank_of_isNumberChar (hall c hc)

/-- An exact number has a text, which is read to its end. -/
theorem Exact.readSigned? {x : Float} (hx : Exact x) :
    Decimal.Signed (floatText x).toList ∧
      readSigned? (floatText x).toList = some (.float x, []) := by
  obtain ⟨⟨negative, m, q, hfinite⟩, hx⟩ := hx
  have hsigned := floatText_signed hfinite
  refine ⟨hsigned, ?_⟩
  have hread (n : Nat) : readValue? (n + 1) 0 ((floatText x).toList ++ []) = _ :=
    readValue?_signed hsigned (by simp [Ends])
  simp only [List.append_nil] at hread
  rw [ofText?, hread] at hx
  cases hr : Json.readSigned? (floatText x).toList with
  | none => simp [hr] at hx
  | some r =>
      obtain ⟨j, rest⟩ := r
      have hrest : skipBlanks rest = rest := by
        cases rest with
        | nil => rfl
        | cons c rest =>
            refine skipBlanks_cons (isBlank_of_mem_signed hsigned c ?_) rest
            exact (suffix_of_readSigned? hr).mem List.mem_cons_self
      simp only [hr, Option.map_some, hrest] at hx
      split at hx
      · next hnil =>
          cases hx
          rw [hnil]
      · cases hx

/-! ## Containers -/

/-- The text is read as the value with two steps for each character, whatever may follow it. -/
def Reads (j : Json) : Prop :=
  ∀ {n depth : Nat} {rest : List Char}, 2 * j.text.toList.length ≤ n → j.depth ≤ depth →
    Ends rest → readValue? n depth (j.text.toList ++ rest) = some (j, rest)

/-- Items read back in their order; two steps for each character are enough. -/
theorem readItems?_texts {items : List Json} (hne : items ≠ []) (hitems : ∀ j ∈ items, Reads j)
    (hn : 2 * (Text.joinWith "," (itemTexts items)).toList.length < n)
    (hdepth : depthItems items ≤ depth) :
    readItems? n depth ((Text.joinWith "," (itemTexts items)).toList ++ ']' :: rest) =
      some (items, rest) := by
  induction items generalizing n with
  | nil => exact absurd rfl hne
  | cons j items ih =>
      -- The step for this item is paid by the comma or bracket after it.
      obtain ⟨hj, hitems⟩ := List.forall_mem_cons.mp hitems
      obtain ⟨n, rfl⟩ := Nat.exists_eq_add_of_le' (show 1 ≤ n by omega)
      rw [depthItems] at hdepth
      cases items with
      | nil =>
          simp only [itemTexts, Text.joinWith_singleton] at hn ⊢
          rw [readItems?, hj (by omega) (by omega) (by simp [Ends])]
          rfl
      | cons k items =>
          have htext : (Text.joinWith "," (itemTexts (j :: k :: items))).toList =
              j.text.toList ++ ',' :: (Text.joinWith "," (itemTexts (k :: items))).toList := by
            simp [itemTexts, Text.joinWith_cons_cons]
          rw [htext, List.length_append, List.length_cons] at hn
          have hitems := ih (n := n) (by simp) hitems (by omega) (by omega)
          rw [htext, List.append_assoc, List.cons_append, readItems?,
            hj (by omega) (by omega) (by simp [Ends])]
          simp only [Option.bind_eq_bind, Option.bind_some,
            skipBlanks_cons (show isBlank ',' = false from rfl), hitems]

/-- A member is read up to what follows it. -/
theorem readMembers?_text {m : Named Json} (hm : Reads m.value)
    (hn : 2 * (stringText m.name ++ ":" ++ m.value.text).toList.length ≤ n)
    (hdepth : m.value.depth ≤ depth) (rest : List Char) :
    readMembers? (n + 1) depth ((stringText m.name ++ ":" ++ m.value.text).toList ++ ',' :: rest) =
        (readMembers? n depth rest).map (fun r => (m :: r.1, r.2)) ∧
      readMembers? (n + 1) depth
          ((stringText m.name ++ ":" ++ m.value.text).toList ++ '\x7d' :: rest) =
        some ([m], rest) := by
  have hcolon : ":".toList = [':'] := rfl
  rw [String.toList_append, String.toList_append, List.length_append] at hn
  have hvalue {more : List Char} (hmore : Ends more) :=
    hm (show 2 * m.value.text.toList.length ≤ n by omega) hdepth hmore
  simp only [String.toList_append, toList_stringText, hcolon, readMembers?, List.cons_append,
    List.nil_append, List.append_assoc, skipBlanks_cons (show isBlank '"' = false from rfl),
    skipBlanks_cons (show isBlank ':' = false from rfl), readString?_text, Option.bind_eq_bind,
    Option.bind_some]
  rw [hvalue (by simp [Ends]), hvalue (by simp [Ends])]
  exact ⟨(Option.map_eq_bind (f := fun r : List (Named Json) × List Char => (m :: r.1, r.2))).symm,
    rfl⟩

/-- Members read back in their order, each name before its value. -/
theorem readMembers?_texts {members : List (Named Json)} (hne : members ≠ [])
    (hmembers : ∀ m ∈ members, Reads m.value)
    (hn : 2 * (Text.joinWith "," (memberTexts members)).toList.length < n)
    (hdepth : depthMembers members ≤ depth) :
    readMembers? n depth ((Text.joinWith "," (memberTexts members)).toList ++ '\x7d' :: rest) =
      some (members, rest) := by
  induction members generalizing n with
  | nil => exact absurd rfl hne
  | cons m members ih =>
      obtain ⟨hm, hmembers⟩ := List.forall_mem_cons.mp hmembers
      obtain ⟨n, rfl⟩ := Nat.exists_eq_add_of_le' (show 1 ≤ n by omega)
      rw [depthMembers] at hdepth
      cases members with
      | nil =>
          simp only [memberTexts, Text.joinWith_singleton] at hn ⊢
          exact (readMembers?_text hm (by omega) (by omega) rest).2
      | cons k members =>
          have htext : (Text.joinWith "," (memberTexts (m :: k :: members))).toList =
              (stringText m.name ++ ":" ++ m.value.text).toList ++
                ',' :: (Text.joinWith "," (memberTexts (k :: members))).toList := by
            simp [memberTexts, Text.joinWith_cons_cons]
          rw [htext, List.length_append, List.length_cons] at hn
          have hmembers := ih (n := n) (by simp) hmembers (by omega) (by omega)
          rw [htext, List.append_assoc, List.cons_append,
            (readMembers?_text hm (by omega) (by omega) _).1, hmembers]
          rfl

theorem reads_of_succ (h : ∀ {n depth rest}, 2 * j.text.toList.length ≤ n + 1 → j.depth ≤ depth →
    Ends rest → readValue? (n + 1) depth (j.text.toList ++ rest) = some (j, rest)) : Reads j := by
  intro n depth rest hn hdepth hrest
  have hpos : 0 < j.text.toList.length := by
    obtain ⟨c, hc, -⟩ := text_begins j
    exact List.length_pos_of_mem (List.mem_of_mem_head? hc)
  obtain ⟨n, rfl⟩ := Nat.exists_eq_add_of_le' (show 1 ≤ n by omega)
  exact h hn hdepth hrest

theorem readValue?_items (hcs : Begins cs) :
    readValue? (n + 1) (depth + 1) ('[' :: cs) =
      (readItems? n depth cs).map fun r => (.arr r.1, r.2) := by
  obtain ⟨c, hc, hblank, hclose⟩ := hcs
  obtain ⟨ds, rfl⟩ := List.head?_eq_some_iff.mp hc
  rw [readValue?, skipBlanks_cons rfl]
  simp only [Nat.add_one_ne_zero, if_false, skipBlanks_cons hblank, Nat.add_sub_cancel]
  split
  · next heq => exact absurd (List.cons.inj heq).1 hclose
  · rfl

theorem reads_arr {items : List Json} (hitems : ∀ j ∈ items, Reads j) : Reads (.arr items) := by
  refine reads_of_succ fun {n depth rest} hn hdepth _ => ?_
  rw [Json.depth] at hdepth
  obtain ⟨depth, rfl⟩ := Nat.exists_eq_add_of_le' (show 1 ≤ depth by omega)
  have htext : (Json.arr items).text.toList =
      '[' :: ((Text.joinWith "," (itemTexts items)).toList ++ [']']) := by
    rw [text, String.toList_append, String.toList_append]
    rfl
  rw [htext, List.length_cons, List.length_append, List.length_singleton] at hn
  rw [htext, List.cons_append, List.append_assoc]
  cases items with
  | nil => rfl
  | cons j items =>
      have hbegins :
          Begins ((Text.joinWith "," (itemTexts (j :: items))).toList ++ ']' :: rest) := by
        obtain ⟨c, hc, hbegins⟩ := text_begins j
        refine ⟨c, ?_, hbegins⟩
        obtain ⟨ds, hds⟩ := List.head?_eq_some_iff.mp hc
        cases items with
        | nil => simp [itemTexts, hds]
        | cons k items => simp [itemTexts, Text.joinWith_cons_cons, hds]
      rw [List.singleton_append, readValue?_items hbegins,
        readItems?_texts (by simp) hitems (by omega) (by omega)]
      rfl

theorem readValue?_members (cs : List Char) :
    readValue? (n + 1) (depth + 1) ('\x7b' :: '"' :: cs) =
      (readMembers? n depth ('"' :: cs)).map fun r => (.obj r.1, r.2) := by
  rw [readValue?, skipBlanks_cons rfl]
  simp only [Nat.add_one_ne_zero, if_false, skipBlanks_cons (show isBlank '"' = false from rfl),
    Nat.add_sub_cancel]
  rfl

theorem reads_obj {members : List (Named Json)} (hmembers : ∀ m ∈ members, Reads m.value) :
    Reads (.obj members) := by
  refine reads_of_succ fun {n depth rest} hn hdepth _ => ?_
  rw [Json.depth] at hdepth
  obtain ⟨depth, rfl⟩ := Nat.exists_eq_add_of_le' (show 1 ≤ depth by omega)
  have htext : (Json.obj members).text.toList =
      '\x7b' :: ((Text.joinWith "," (memberTexts members)).toList ++ ['\x7d']) := by
    rw [text, String.toList_append, String.toList_append]
    rfl
  rw [htext, List.length_cons, List.length_append, List.length_singleton] at hn
  rw [htext, List.cons_append, List.append_assoc]
  cases members with
  | nil => rfl
  | cons m members =>
      have hquote :
          (Text.joinWith "," (memberTexts (m :: members))).toList.head? = some '"' := by
        cases members with
        | nil => simp [memberTexts, toList_stringText]
        | cons k members => simp [memberTexts, Text.joinWith_cons_cons, toList_stringText]
      obtain ⟨cs, hcs⟩ := List.head?_eq_some_iff.mp hquote
      have hread : readMembers? n depth
          ((Text.joinWith "," (memberTexts (m :: members))).toList ++ '\x7d' :: rest) = _ :=
        readMembers?_texts (by simp) hmembers (by omega) (by omega)
      rw [hcs, List.cons_append] at hread
      rw [List.singleton_append, hcs, List.cons_append, readValue?_members, hread]
      rfl

/-! ## Texts -/

/-- A legible value is read from its text. -/
theorem Legible.reads (hj : Legible j) : Reads j := by
  induction hj with
  | null => exact reads_of_succ fun _ _ _ => rfl
  | bool b => cases b <;> exact reads_of_succ fun _ _ _ => rfl
  | int h =>
      refine reads_of_succ fun _ _ hrest => ?_
      rw [text, readValue?_signed (Decimal.toString_signed _) hrest, readSigned?_toString h]
      rfl
  | float h =>
      refine reads_of_succ fun _ _ hrest => ?_
      obtain ⟨hsigned, hread⟩ := h.readSigned?
      rw [text, readValue?_signed hsigned hrest, hread]
      rfl
  | str s =>
      refine reads_of_succ fun _ _ _ => ?_
      rw [text, toList_stringText]
      simp only [readValue?, List.cons_append, List.append_assoc, List.nil_append,
        skipBlanks_cons (show isBlank '"' = false from rfl), readString?_text, Option.map_some]
  | arr h ih => exact reads_arr ih
  | obj h ih => exact reads_obj ih

/-- A legible value that nests no deeper than the reader goes is read from its text. -/
theorem Legible.ofText?_text (hj : Legible j) (hdepth : j.depth ≤ depth) :
    ofText? depth j.text = some j := by
  have hread : readValue? (2 * j.text.toList.length + 2) depth (j.text.toList ++ []) = _ :=
    hj.reads (by omega) hdepth (by simp [Ends])
  rw [List.append_nil] at hread
  rw [ofText?, hread]
  rfl

end DeferredQuery.Json
