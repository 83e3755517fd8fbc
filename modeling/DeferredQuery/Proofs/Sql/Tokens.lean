import DeferredQuery.Proofs.Number.Shortest
import DeferredQuery.Proofs.Sql.Keyed
import DeferredQuery.Proofs.Sql.Lexical
import DeferredQuery.Proofs.Text.Quoting
import DeferredQuery.QueryText.Reader

/-!
# Terms as tokens

The text of a term is read as the tokens that its parts stand for: a quoted identifier for a
column, a quoted text for a literal, a marker for a placeholder. There is one exception. A minus
sign is written right before its operand, so that one before a negative number begins a comment.
-/

namespace DeferredQuery.Sql

namespace Lexical

/-! ## Texts and their tokens -/

def Silent (cs : List Char) : Prop := ∀ rest, lex .plain (cs ++ rest) = lex .plain rest

/-- The text is read as the given tokens, whatever follows it. -/
def Spells (cs : List Char) (ts : List Token) : Prop :=
  ∀ rest, Ends rest → lex .plain (cs ++ rest) = (lex .plain rest).map (ts ++ ·)

def Comments (cs : List Char) : Prop :=
  ∀ rest ts, lex .plain (cs ++ rest) = some ts → .comment ∈ ts

variable {cs ds : List Char} {ts us : List Token}

theorem silent_of_isSilent (h : ∀ c ∈ cs, isSilent c = true) : Silent cs := lex_plain_append h

theorem Ends.append {rest : List Char} (h : Ends cs) (hrest : Ends rest) : Ends (cs ++ rest) := by
  cases cs with
  | nil => exact hrest
  | cons c cs => exact h

namespace Spells

theorem of_silent (h : Silent cs) : Spells cs [] := by
  intro rest _
  rw [h]
  exact Option.map_id_apply.symm

theorem append (h : Spells cs ts) (k : Spells ds us) (hds : Ends ds) :
    Spells (cs ++ ds) (ts ++ us) := by
  intro rest hrest
  rw [List.append_assoc, h _ (hds.append hrest), k rest hrest, Option.map_map]
  exact congrArg (Option.map · _) (funext fun vs => (List.append_assoc ts us vs).symm)

theorem before (h : Silent cs) (k : Spells ds us) : Spells (cs ++ ds) us := by
  intro rest hrest
  rw [List.append_assoc, h, k rest hrest]

theorem after (h : Spells cs ts) (k : Silent ds) (hds : Ends ds) : Spells (cs ++ ds) ts := by
  have happend := h.append (of_silent k) hds
  rwa [List.append_nil] at happend

theorem quoted {q : Char} (hq : isQuote q = true) (s : List Char) :
    Spells (q :: twice q s ++ [q]) [.quoted q s] := by
  intro rest hrest
  rw [List.append_assoc]
  exact lex_quoted hq s hrest

theorem lex_eq (h : Spells cs ts) : lex .plain cs = some ts := by
  have hnil := h [] ends_nil
  rw [List.append_nil] at hnil
  rw [hnil]
  exact congrArg some (List.append_nil ts)

end Spells

namespace Comments

theorem append (h : Comments cs) (ds : List Char) : Comments (cs ++ ds) := by
  intro rest ts hts
  rw [List.append_assoc] at hts
  exact h _ ts hts

theorem before (h : Silent cs) (k : Comments ds) : Comments (cs ++ ds) := by
  intro rest ts hts
  rw [List.append_assoc, h] at hts
  exact k rest ts hts

theorem behind (h : Spells cs ts) {c : Char} (hc : isQuote c = false) (k : Comments (c :: ds)) :
    Comments (cs ++ c :: ds) := by
  intro rest us hus
  rw [List.append_assoc, List.cons_append, h _ (ends_cons hc _)] at hus
  obtain ⟨vs, hvs, rfl⟩ := Option.map_eq_some_iff.mp hus
  exact List.mem_append_right _ (k rest vs hvs)

end Comments

/-! ## Characters of numbers and names -/

theorem eq_of_not_isSilent {c : Char} (h : ¬isSilent c = true) :
    c = '\'' ∨ c = '"' ∨ c = '?' ∨ c = '/' ∨ c = '-' := by
  simp [isSilent, isQuote] at h
  tauto

theorem isSilent_of_isNumberChar {c : Char} (h : Decimal.isNumberChar c = true) (hc : c ≠ '-') :
    isSilent c = true := by
  by_contra hnot
  rcases eq_of_not_isSilent hnot with rfl | rfl | rfl | rfl | rfl
  on_goal 5 => exact hc rfl
  all_goals exact absurd h (by decide)

theorem isSilent_of_isDigit {c : Char} (h : c.isDigit = true) : isSilent c = true := by
  apply isSilent_of_isNumberChar (Decimal.isNumberChar_of_isDigit h)
  rintro rfl
  cases h

theorem isSilent_of_isNameChar {c : Char} (h : QueryText.isNameChar c = true) :
    isSilent c = true := by
  by_contra hnot
  rcases eq_of_not_isSilent hnot with rfl | rfl | rfl | rfl | rfl <;> exact absurd h (by decide)

theorem twice_of_not_mem {q : Char} {s : List Char} (h : q ∉ s) : twice q s = s := by
  induction s with
  | nil => rfl
  | cons c s ih =>
      rw [List.mem_cons, not_or] at h
      rw [twice, List.flatMap_cons, if_neg (Ne.symm h.1)]
      exact congrArg (List.cons c) (ih h.2)

end Lexical

open Lexical

/-! ## Literals -/

abbrev Unquoted (s : String) : Prop := '\'' ∉ s.toList

theorem unquoted_append {s t : String} (hs : Unquoted s) (ht : Unquoted t) : Unquoted (s ++ t) := by
  rw [Unquoted, String.toList_append, List.mem_append, not_or]
  exact ⟨hs, ht⟩

theorem unquoted_padded (width n : Nat) : Unquoted (Instant.padded width n) := by
  rw [Unquoted, Instant.padded, String.toList_ofList, List.mem_append, not_or]
  refine ⟨fun h => ?_, fun h => ?_⟩
  · cases Decimal.isDigit_of_mem_zeros h
  · cases (Decimal.digits_toDigits n).all _ h

/-- Dates and times contain no quotes. -/
theorem unquoted_microText (t : Instant) : Unquoted t.microText := by
  have hyear (year : Int) : Unquoted (Instant.yearText year) := by
    unfold Instant.yearText
    split
    · exact unquoted_padded _ _
    · refine unquoted_append ?_ (unquoted_padded _ _)
      split <;> exact (by decide)
  have hdate : Unquoted t.dateText :=
    unquoted_append (unquoted_append (unquoted_append (unquoted_append (hyear _) (by decide))
      (unquoted_padded _ _)) (by decide)) (unquoted_padded _ _)
  have hclock : Unquoted t.clockText :=
    unquoted_append (unquoted_append (unquoted_append (unquoted_append (unquoted_padded _ _)
      (by decide)) (unquoted_padded _ _)) (by decide)) (unquoted_padded _ _)
  exact unquoted_append (unquoted_append (unquoted_append (unquoted_append hdate (by decide))
    hclock) (by decide)) (unquoted_padded _ _)

theorem unquoted_uuid (u : Uuid) : Unquoted u.text := by
  have hdigits : '\'' ∉ u.digits := by
    intro h
    obtain ⟨i, -, hi⟩ := List.mem_map.mp h
    have hplain : ∀ n, n < 16 → Text.hexDigit n ≠ '\'' := by decide
    exact hplain _ (Nat.mod_lt _ (by decide)) hi
  have hgroup (start size : Nat) : '\'' ∉ (u.digits.drop start).take size := fun h =>
    hdigits (List.mem_of_mem_drop (List.mem_of_mem_take h))
  have hfirst : '\'' ∉ u.digits.take 8 := hgroup 0 8
  simp [Unquoted, Uuid.text, hgroup, hfirst]

/-- Numbers contain no quotes. -/
theorem unquoted_float (x : Float) : Unquoted (floatLayout.text x) := by
  cases hx : Binary64.parts x with
  | nan =>
      rw [Decimal.Layout.text, hx]
      decide
  | infinite negative =>
      rw [Decimal.Layout.text, hx]
      cases negative <;> decide
  | finite negative m q =>
      have hplain : floatLayout.plain := by
        intro x hx
        cases hx
      have hchar : ∀ cs, Decimal.Spelled cs → '\'' ∉ cs := fun cs hcs h =>
        absurd (hcs.all _ h) (by decide)
      rcases Decimal.Layout.text_signed hplain hx with h | ⟨ds, hds, h⟩
      · exact hchar _ h
      · rw [Unquoted, h, List.mem_cons, not_or]
        exact ⟨by decide, hchar ds hds⟩

def literalTokens : Value → List Token
  | .string s => [.quoted '\'' s.toList]
  | .float x => [.quoted '\'' (floatLayout.text x).toList]
  | .uuid u => [.quoted '\'' u.text.toList]
  | .instant t => [.quoted '\'' t.microText.toList]
  | _ => []

theorem spells_cast {s : String} (hs : Unquoted s) {tail : String} (rest : String)
    (htail : tail = "' " ++ rest) (hrest : ∀ c ∈ rest.toList, isSilent c = true) :
    Spells ("CAST('" ++ s ++ tail).toList [.quoted '\'' s.toList] := by
  have hquoted := Spells.quoted (q := '\'') rfl s.toList
  rw [twice_of_not_mem hs] at hquoted
  have hhead : Silent "CAST(".toList := silent_of_isSilent (by simp [isSilent, isQuote])
  have hblank : Silent (' ' :: rest.toList) :=
    silent_of_isSilent (List.forall_mem_cons.mpr ⟨rfl, hrest⟩)
  have hall := (hquoted.before hhead).after hblank (ends_cons rfl _)
  simpa [String.toList_append, htail] using hall

theorem silent_digits (n : Nat) : Silent (Nat.toDigits 10 n) :=
  silent_of_isSilent fun c hc => isSilent_of_isDigit ((Decimal.digits_toDigits n).all c hc)

/-- The text of a number is no token. -/
theorem silent_int (n : ℤ) : Silent (toString n).toList := by
  cases n with
  | ofNat n =>
      have htext : (toString (Int.ofNat n)).toList = Nat.toDigits 10 n :=
        Decimal.toList_toString_nat n
      rw [htext]
      exact silent_digits n
  | negSucc n =>
      intro rest
      obtain ⟨d, ds, hdigits⟩ := List.exists_cons_of_ne_nil (Decimal.digits_toDigits (n + 1)).ne_nil
      have hd : d ≠ '-' := by
        rintro rfl
        cases (Decimal.digits_toDigits (n + 1)).all '-' (hdigits ▸ List.mem_cons_self)
      have hhead : (Nat.toDigits 10 (n + 1) ++ rest).head? ≠ some '-' := by
        simpa [hdigits] using hd
      rw [Decimal.toList_toString_negSucc, List.cons_append, lex_minus hhead]
      exact silent_digits (n + 1) rest

/-- A literal is a quoted text, or adds no token. -/
theorem spells_literal {v : Value} {s : String} (h : literalText v = .ok s) :
    Spells s.toList (literalTokens v) := by
  cases v with
  | null =>
      cases h
      exact .of_silent (silent_of_isSilent (by simp [isSilent, isQuote]))
  | bool b =>
      cases h
      refine .of_silent (silent_of_isSilent ?_)
      cases b <;> simp [isSilent, isQuote]
  | int n =>
      cases h
      exact .of_silent (silent_int n.toInt)
  | float x =>
      cases h
      exact spells_cast (unquoted_float x) "AS DOUBLE)" (by decide) (by simp [isSilent, isQuote])
  | string s =>
      cases h
      have hquoted := Spells.quoted (q := '\'') rfl s.toList
      simpa [literalTokens, quoteText, Text.doubled, twice] using hquoted
  | uuid u =>
      cases h
      exact spells_cast (unquoted_uuid u) "AS UUID)" (by decide) (by simp [isSilent, isQuote])
  | instant t =>
      cases h
      exact spells_cast (unquoted_microText t) "AS TIMESTAMP)" (by decide)
        (by simp [isSilent, isQuote])
  | _ => cases h

/-! ## Terms -/

namespace Term

def operands : Term → List Term
  | .function _ args _ => args
  | .binary _ left right => [left, right]
  | .unary _ operand => [operand]
  | .cast operand _ => [operand]
  | _ => []

inductive Within : Term → Term → Prop
  | self (t : Term) : Within t t
  | operand {n u t : Term} : u ∈ t.operands → Within n u → Within n t

theorem forall_within_iff {P : Term → Prop} {t : Term} :
    (∀ n, Within n t → P n) ↔ P t ∧ ∀ u ∈ t.operands, ∀ n, Within n u → P n := by
  constructor
  · exact fun h => ⟨h t (.self t), fun u hu n hn => h n (.operand hu hn)⟩
  · rintro ⟨hself, hoperands⟩ n hn
    cases hn with
    | self => exact hself
    | operand hu hn => exact hoperands _ hu n hn

def bareNames : Term → List String
  | .column table _ => [table]
  | .function name _ _ => [name]
  | _ => []

def PlainNames (t : Term) : Prop :=
  ∀ n, Within n t → ∀ name ∈ n.bareNames, ∀ c ∈ name.toList, QueryText.isNameChar c = true

def isNegative : Term → Bool
  | .literal (.int n) => n.toInt < 0
  | _ => false

def doublesMinus : Term → Bool
  | .unary .neg operand => operand.isNegative
  | _ => false

/-- No minus sign stands before a negative number. -/
def SingleMinus (t : Term) : Prop := ∀ n, Within n t → n.doublesMinus = false

mutual

/-- The tokens of a term: the identifiers of its columns, the texts of its literals and the markers
of its placeholders, in their order. -/
def tokens : Term → List Token
  | .column _ name => [.quoted '"' name.toList]
  | .parameter _ => [.marker]
  | .literal v => literalTokens v
  | .function _ args _ => tokensOfList args
  | .binary _ left right => left.tokens ++ right.tokens
  | .unary _ operand => operand.tokens
  | .cast operand _ => operand.tokens

def tokensOfList : List Term → List Token
  | [] => []
  | t :: rest => t.tokens ++ tokensOfList rest

end

theorem tokensOfList_eq (ts : List Term) : tokensOfList ts = ts.flatMap tokens := by
  induction ts with
  | nil => rfl
  | cons t ts ih => rw [tokensOfList, ih, List.flatMap_cons]

end Term

theorem chars_cons_text (s : String) (ps : List Piece) :
    chars (.text s :: ps) = s.toList ++ chars ps := String.toList_append

@[simp] theorem chars_nil : chars [] = [] := rfl

@[simp] theorem chars_marker (name : String) : chars [.marker name] = ['?'] := by
  simp [chars, Piece.textOf]

namespace Term

variable {ps : List Piece}

theorem chars_function {name : String} {args : List Term} {t : Ty}
    (h : (function name args t).pieces = .ok ps) : ∃ pss, piecesList args = .ok pss ∧
      chars ps = name.toList ++ '(' :: (chars (Piece.joinWith ", " pss) ++ [')']) := by
  obtain ⟨pss, hpss, h⟩ := bind_eq_ok.mp h
  cases h
  exact ⟨pss, hpss, by simp [chars_cons_text, chars_append]⟩

theorem chars_binary {op : BinOp} {left right : Term}
    (h : (binary op left right).pieces = .ok ps) :
    ∃ ls rs, left.pieces = .ok ls ∧ right.pieces = .ok rs ∧ chars ps =
      '(' :: (chars ls ++ ((" " ++ operatorText op ++ " ").toList ++ (chars rs ++ [')']))) := by
  obtain ⟨ls, hls, h⟩ := bind_eq_ok.mp h
  obtain ⟨rs, hrs, h⟩ := bind_eq_ok.mp h
  cases h
  exact ⟨ls, rs, hls, hrs, by simp [chars_cons_text, chars_append]⟩

theorem chars_unary {op : UnOp} {operand : Term} (h : (unary op operand).pieces = .ok ps) :
    ∃ us, operand.pieces = .ok us ∧
      chars ps = (unaryText op).toList ++ (chars us ++ [')']) := by
  obtain ⟨us, hus, h⟩ := bind_eq_ok.mp h
  cases h
  exact ⟨us, hus, by simp [chars_cons_text, chars_append]⟩

theorem chars_cast {operand : Term} {t : Ty} (h : (cast operand t).pieces = .ok ps) :
    ∃ us type, operand.pieces = .ok us ∧ typeName? t = some type ∧
      chars ps = "CAST(".toList ++ (chars us ++ (" AS " ++ type ++ ")").toList) := by
  rw [pieces] at h
  split at h
  · cases h
  · rename_i type htype
    obtain ⟨us, hus, h⟩ := bind_eq_ok.mp h
    cases h
    exact ⟨us, type, hus, htype, by simp [chars_cons_text, chars_append]⟩

end Term

/-- What becomes of a text: it is read as its tokens if a condition holds, and has a comment
otherwise. -/
structure Outcome (P : Prop) (cs : List Char) (ts : List Token) : Prop where
  spells : P → Spells cs ts
  comments : ¬ P → Comments cs

namespace Outcome

variable {P Q : Prop} {cs ds : List Char} {ts us : List Token}

theorem of_spells (h : Spells cs ts) (hP : P) : Outcome P cs ts :=
  ⟨fun _ => h, fun hnot => absurd hP hnot⟩

theorem congr (h : Outcome P cs ts) (hPQ : P ↔ Q) : Outcome Q cs ts := by
  rwa [← propext hPQ]

theorem before (h : Silent cs) (k : Outcome P ds us) : Outcome P (cs ++ ds) us :=
  ⟨fun hP => (k.spells hP).before h, fun hP => (k.comments hP).before h⟩

theorem after (h : Outcome P cs ts) (k : Silent ds) (hds : Ends ds) : Outcome P (cs ++ ds) ts :=
  ⟨fun hP => (h.spells hP).after k hds, fun hP => (h.comments hP).append ds⟩

theorem append (h : Outcome P cs ts) {c : Char} (hc : isQuote c = false)
    (k : Outcome Q (c :: ds) us) : Outcome (P ∧ Q) (cs ++ c :: ds) (ts ++ us) where
  spells hPQ := (h.spells hPQ.1).append (k.spells hPQ.2) (ends_cons hc ds)
  comments hnot := by
    by_cases hP : P
    · exact (k.comments fun hQ => hnot ⟨hP, hQ⟩).behind (h.spells hP) hc
    · exact (h.comments hP).append _

theorem minus {c : Char} (hc : c ≠ '-') (h : Outcome P (c :: cs) ts) :
    Outcome P ('-' :: c :: cs) ts := by
  have hlex : ∀ rest, lex .plain ('-' :: c :: cs ++ rest) = lex .plain (c :: cs ++ rest) :=
    fun rest => lex_minus (by simpa using hc)
  exact ⟨fun hP rest hrest => (hlex rest).trans (h.spells hP rest hrest),
    fun hP rest us hus => h.comments hP rest us ((hlex rest).symm.trans hus)⟩

end Outcome

theorem silent_open : Silent ['('] := silent_of_isSilent (by simp [isSilent, isQuote])

theorem silent_close : Silent [')'] := silent_of_isSilent (by simp [isSilent, isQuote])

theorem silent_operator (op : BinOp) : Silent (" " ++ operatorText op ++ " ").toList := by
  have hblank : ∀ rest, lex .plain (' ' :: rest) = lex .plain rest := lex_plain_cons rfl
  cases op with
  | sub =>
      intro rest
      change lex .plain (' ' :: '-' :: ' ' :: rest) = _
      rw [hblank, lex_minus (by simp), hblank]
  | div =>
      intro rest
      change lex .plain (' ' :: '/' :: ' ' :: rest) = _
      rw [hblank, lex_slash (by simp), hblank]
  | _ => exact silent_of_isSilent (by simp [operatorText, BinOp.symbol, isSilent, isQuote])

theorem isSilent_of_typeName : ∀ {t : Ty} {name : String}, typeName? t = some name →
    ∀ c ∈ name.toList, isSilent c = true
  | .nullable t, _, h => isSilent_of_typeName (t := t) h
  | .bool, _, rfl | .int, _, rfl | .float, _, rfl | .string, _, rfl | .uuid, _, rfl
  | .timestamp, _, rfl => by simp [isSilent, isQuote]

theorem silent_type {t : Ty} {name : String} (h : typeName? t = some name) :
    Silent (" AS " ++ name ++ ")").toList := by
  refine silent_of_isSilent fun c hc => ?_
  simp only [String.toList_append, List.mem_append] at hc
  rcases hc with (hc | hc) | hc
  · exact (by simp [isSilent, isQuote] : ∀ c ∈ " AS ".toList, isSilent c = true) c hc
  · exact isSilent_of_typeName h c hc
  · exact (by simp [isSilent, isQuote] : ∀ c ∈ ")".toList, isSilent c = true) c hc

/-! ## Terms and their tokens -/

theorem silent_name {name : String} (h : ∀ c ∈ name.toList, QueryText.isNameChar c = true) :
    Silent name.toList := silent_of_isSilent fun c hc => isSilent_of_isNameChar (h c hc)

theorem head_of_name {name : String} (h : ∀ c ∈ name.toList, QueryText.isNameChar c = true)
    {d : Char} (hd : d ≠ '-') (rest : List Char) :
    ∃ c cs, name.toList ++ d :: rest = c :: cs ∧ c ≠ '-' := by
  cases hname : name.toList with
  | nil => exact ⟨d, rest, rfl, hd⟩
  | cons c cs =>
      refine ⟨c, cs ++ d :: rest, rfl, ?_⟩
      rintro rfl
      exact absurd (h '-' (hname ▸ List.mem_cons_self)) (by decide)

/-- Only a negative number begins with a minus sign. -/
theorem head_of_literal {v : Value} {s : String} (h : literalText v = .ok s)
    (hv : (Term.literal v).isNegative = false) : ∃ c cs, s.toList = c :: cs ∧ c ≠ '-' := by
  cases v with
  | null =>
      cases h
      exact ⟨'N', "ULL".toList, rfl, by decide⟩
  | bool b =>
      cases h
      cases b
      · exact ⟨'F', "ALSE".toList, rfl, by decide⟩
      · exact ⟨'T', "RUE".toList, rfl, by decide⟩
  | int n =>
      cases h
      obtain ⟨k, hk⟩ := Int.eq_ofNat_of_zero_le (a := n.toInt) (by simpa [Term.isNegative] using hv)
      obtain ⟨d, ds, hdigits⟩ := List.exists_cons_of_ne_nil (Decimal.digits_toDigits k).ne_nil
      have htext : (toString n.toInt).toList = Nat.toDigits 10 k := by
        rw [hk]
        exact Decimal.toList_toString_nat k
      refine ⟨d, ds, htext.trans hdigits, ?_⟩
      rintro rfl
      cases (Decimal.digits_toDigits k).all '-' (hdigits ▸ List.mem_cons_self)
  | float | uuid | instant =>
      cases h
      simp only [String.toList_append]
      exact ⟨'C', _, rfl, by decide⟩
  | string s =>
      cases h
      simp only [quoteText, String.toList_append]
      exact ⟨'\'', _, rfl, by decide⟩
  | _ => cases h

namespace Term

/-- Only a negative number begins with a minus sign. -/
theorem head_pieces {t : Term} {ps : List Piece} (hnames : t.PlainNames) (h : t.pieces = .ok ps)
    (ht : t.isNegative = false) : ∃ c cs, chars ps = c :: cs ∧ c ≠ '-' := by
  have hself := hnames t (.self t)
  cases t with
  | column table name =>
      cases h
      rw [chars_text, String.toList_append, String.toList_append, List.append_assoc]
      exact head_of_name (hself table (by simp [bareNames])) (by decide) _
  | parameter name =>
      cases h
      exact ⟨'?', [], chars_marker name, by decide⟩
  | literal v =>
      obtain ⟨s, hs, h⟩ := bind_eq_ok.mp h
      cases h
      rw [chars_text]
      exact head_of_literal hs ht
  | function name args t =>
      obtain ⟨pss, -, hps⟩ := chars_function h
      rw [hps]
      exact head_of_name (hself name (by simp [bareNames])) (by decide) _
  | binary op left right =>
      obtain ⟨ls, rs, -, -, hps⟩ := chars_binary h
      exact ⟨'(', _, hps, by decide⟩
  | unary op operand =>
      obtain ⟨us, -, hps⟩ := chars_unary h
      cases op <;> exact ⟨'(', _, hps, by decide⟩
  | cast operand t =>
      obtain ⟨us, type, -, -, hps⟩ := chars_cast h
      exact ⟨'C', _, hps, by decide⟩

theorem head_of_isNegative {t : Term} {ps : List Piece} (h : t.pieces = .ok ps)
    (ht : t.isNegative = true) : ∃ cs, chars ps = '-' :: cs := by
  match t, ht with
  | literal (.int n), ht =>
      cases h
      obtain ⟨k, hk⟩ := Int.eq_negSucc_of_lt_zero (of_decide_eq_true ht)
      have htext : (toString n.toInt).toList = '-' :: Nat.toDigits 10 (k + 1) := by
        rw [hk]
        exact Decimal.toList_toString_negSucc k
      exact ⟨_, (chars_text _).trans htext⟩

theorem plainNames_iff {t : Term} : t.PlainNames ↔
    (∀ name ∈ t.bareNames, ∀ c ∈ name.toList, QueryText.isNameChar c = true) ∧
      ∀ u ∈ t.operands, u.PlainNames := forall_within_iff

theorem singleMinus_iff {t : Term} : t.SingleMinus ↔
    t.doublesMinus = false ∧ ∀ u ∈ t.operands, u.SingleMinus := forall_within_iff

theorem singleMinus_of_leaf {t : Term} (h : t.operands = []) : t.SingleMinus := by
  refine singleMinus_iff.mpr ⟨?_, by simp [h]⟩
  cases t with
  | unary op operand => cases h
  | _ => rfl

/-- Commas between terms are no tokens, and begin no comment. -/
theorem outcome_joinWith {ts : List Term} {pss : List (List Piece)}
    (h : ∀ t ∈ ts, ∀ ps, t.pieces = .ok ps → Outcome t.SingleMinus (chars ps) t.tokens)
    (hpss : piecesList ts = .ok pss) :
    Outcome (∀ t ∈ ts, t.SingleMinus) (chars (Piece.joinWith ", " pss)) (ts.flatMap tokens) := by
  induction ts generalizing pss with
  | nil =>
      cases hpss
      exact .of_spells (.of_silent fun _ => rfl) (by simp)
  | cons t ts ih =>
      obtain ⟨ps, hps, hpss⟩ := bind_eq_ok.mp hpss
      obtain ⟨qss, hqss, hpss⟩ := bind_eq_ok.mp hpss
      cases hpss
      have hfirst := h t List.mem_cons_self ps hps
      have hrest := ih (fun u hu => h u (List.mem_cons_of_mem _ hu)) hqss
      rw [List.flatMap_cons]
      cases ts with
      | nil =>
          cases hqss
          exact (List.append_nil t.tokens).symm ▸ hfirst.congr (by simp)
      | cons u ts =>
          obtain ⟨qs, -, hqss⟩ := bind_eq_ok.mp hqss
          obtain ⟨rss, -, hqss⟩ := bind_eq_ok.mp hqss
          cases hqss
          have hsep : Silent [',', ' '] := silent_of_isSilent (by simp [isSilent, isQuote])
          have hall := (hfirst.append rfl (hrest.before hsep)).congr
            (List.forall_mem_cons (p := Term.SingleMinus)).symm
          rw [Piece.joinWith, chars_append, chars_cons_text]
          exact hall

/-- A minus sign begins a comment exactly if the operand begins with another one. -/
theorem outcome_negation {t : Term} {ps : List Piece} {cs : List Char} (hnames : t.PlainNames)
    (h : t.pieces = .ok ps) (hout : Outcome t.SingleMinus (chars ps ++ cs) t.tokens) :
    Outcome (unary .neg t).SingleMinus ('(' :: '-' :: (chars ps ++ cs)) t.tokens := by
  have hiff := singleMinus_iff (t := unary .neg t)
  cases hneg : t.isNegative with
  | false =>
      obtain ⟨c, ds, hds, hc⟩ := head_pieces hnames h hneg
      rw [hds] at hout ⊢
      refine ((hout.minus hc).before silent_open).congr ?_
      simp [hiff, doublesMinus, hneg, operands]
  | true =>
      obtain ⟨ds, hds⟩ := head_of_isNegative h hneg
      refine ⟨fun hsingle => ?_, fun _ => ?_⟩
      · have hdouble := (hiff.mp hsingle).1
        rw [doublesMinus, hneg] at hdouble
        cases hdouble
      · rw [hds]
        exact Comments.before silent_open fun rest ts => comment_mem_of_lex

/-- The text of a term is read as its tokens, unless it has a minus sign before a negative number.
That begins a comment. -/
theorem outcome_pieces {t : Term} {ps : List Piece} (hnames : t.PlainNames)
    (h : t.pieces = .ok ps) : Outcome t.SingleMinus (chars ps) t.tokens := by
  induction t generalizing ps with
  | column table name =>
      cases h
      have htable := silent_name ((plainNames_iff.mp hnames).1 table (by simp [bareNames]))
      have hdot : Silent ['.'] := silent_of_isSilent (by simp [isSilent, isQuote])
      have hquoted := ((Spells.quoted (q := '"') rfl name.toList).before hdot).before htable
      refine .of_spells ?_ (singleMinus_of_leaf rfl)
      simpa [quoteName, Text.doubled, twice, tokens] using hquoted
  | parameter name =>
      cases h
      rw [chars_marker]
      exact .of_spells (fun rest _ => lex_marker rest) (singleMinus_of_leaf rfl)
  | literal v =>
      obtain ⟨s, hs, h⟩ := bind_eq_ok.mp h
      cases h
      rw [chars_text]
      exact .of_spells (spells_literal hs) (singleMinus_of_leaf rfl)
  | function name args t ih =>
      obtain ⟨hself, hargs⟩ := plainNames_iff.mp hnames
      obtain ⟨pss, hpss, hps⟩ := chars_function h
      have hjoin := outcome_joinWith (fun a ha ps hps => ih a ha (hargs a ha) hps) hpss
      have hall := ((hjoin.after silent_close (ends_cons rfl _)).before silent_open).before
        (silent_name (hself name (by simp [bareNames])))
      rw [hps, tokens, tokensOfList_eq]
      refine hall.congr ?_
      simp [singleMinus_iff (t := function name args t), doublesMinus, operands]
  | binary op left right ihl ihr =>
      obtain ⟨-, hoperands⟩ := plainNames_iff.mp hnames
      obtain ⟨ls, rs, hls, hrs, hps⟩ := chars_binary h
      have hl := ihl (hoperands left (by simp [operands])) hls
      have hr := ihr (hoperands right (by simp [operands])) hrs
      have hright := (hr.after silent_close (ends_cons rfl _)).before (silent_operator op)
      simp only [String.toList_append, List.append_assoc] at hright hps
      have hall := (hl.append (c := ' ') rfl hright).before silent_open
      rw [hps]
      refine hall.congr ?_
      simp [singleMinus_iff (t := binary op left right), doublesMinus, operands]
  | unary op operand ih =>
      obtain ⟨-, hoperands⟩ := plainNames_iff.mp hnames
      obtain ⟨us, hus, hps⟩ := chars_unary h
      have hoperand : operand.PlainNames := hoperands operand (by simp [operands])
      have hu := (ih hoperand hus).after silent_close (ends_cons rfl _)
      rw [hps, tokens]
      cases op with
      | not =>
          have hnot : Silent "(NOT ".toList := silent_of_isSilent (by simp [isSilent, isQuote])
          refine (hu.before hnot).congr ?_
          simp [singleMinus_iff (t := unary .not operand), doublesMinus, operands]
      | neg =>
          change Outcome _ ('(' :: '-' :: (chars us ++ [')'])) _
          exact outcome_negation hoperand hus hu
  | cast operand t ih =>
      obtain ⟨-, hoperands⟩ := plainNames_iff.mp hnames
      obtain ⟨us, type, hus, htype, hps⟩ := chars_cast h
      have hu := ih (hoperands operand (by simp [operands])) hus
      have hhead : Silent "CAST(".toList := silent_of_isSilent (by simp [isSilent, isQuote])
      have hends : Ends (" AS " ++ type ++ ")").toList := by
        rw [String.toList_append, String.toList_append, List.append_assoc]
        exact ends_cons (c := ' ') rfl _
      rw [hps, tokens]
      refine ((hu.after (silent_type htype) hends).before hhead).congr ?_
      simp [singleMinus_iff (t := cast operand t), doublesMinus, operands]

theorem not_comment_mem_tokens (t : Term) : .comment ∉ t.tokens := by
  induction t with
  | literal v => cases v <;> simp [tokens, literalTokens]
  | function name args t ih =>
      rw [tokens, tokensOfList_eq, List.mem_flatMap]
      rintro ⟨a, ha, hcomment⟩
      exact ih a ha hcomment
  | binary op left right ihl ihr =>
      rw [tokens, List.mem_append, not_or]
      exact ⟨ihl, ihr⟩
  | unary op operand ih => exact ih
  | cast operand t ih => exact ih
  | _ => simp [tokens]

theorem count_marker_tokens (t : Term) : t.tokens.count .marker = t.names.length := by
  induction t with
  | literal v => cases v <;> rfl
  | function name args t ih =>
      rw [tokens, tokensOfList_eq, names_function, List.count_flatMap, List.length_flatMap]
      exact congrArg List.sum (List.map_congr_left ih)
  | binary op left right ihl ihr =>
      rw [tokens, names, List.count_append, List.length_append, ihl, ihr]
  | unary op operand ih => exact ih
  | cast operand t ih => exact ih
  | _ => rfl

/-- The text of a term has its own tokens exactly if no minus sign stands before a negative number:
no comment, all quoted texts closed, and a marker for each name that was recorded. -/
theorem lex_render_iff {t : Term} {given recorded : List String} {text : String}
    (hnames : t.PlainNames) (h : t.render.run given = .ok (text, recorded)) :
    ((∃ ts, lex .plain text.toList = some ts ∧ .comment ∉ ts ∧
        given.length + ts.count .marker = recorded.length) ↔ t.SingleMinus) ∧
      (t.SingleMinus → lex .plain text.toList = some t.tokens) := by
  obtain ⟨ps, hps, rfl, rfl⟩ := eq_ok_of_run (t.run_render given) h
  have houtcome := outcome_pieces hnames hps
  have hlex (hsingle : t.SingleMinus) : lex .plain (Piece.textOf ps).toList = some t.tokens :=
    (houtcome.spells hsingle).lex_eq
  refine ⟨⟨?_, fun hsingle => ?_⟩, hlex⟩
  · rintro ⟨ts, hts, hclear, -⟩
    by_contra hdouble
    refine hclear (houtcome.comments hdouble [] ts ?_)
    rwa [List.append_nil]
  · refine ⟨t.tokens, hlex hsingle, t.not_comment_mem_tokens, ?_⟩
    rw [count_marker_tokens, List.length_append, namesOf_pieces hps]

/-- A placeholder with two signs, next to a text that is made of quotes, signs and markers. -/
def guarded : Term :=
  .binary .sub (.unary .neg (.unary .neg (.parameter "__x_0")))
    (.function "LENGTH" [.literal (.string "'--?/*")] .int)

/-- The markers and comment signs within the quoted text are not taken for tokens. -/
theorem lex_guarded : guarded.PlainNames ∧ guarded.SingleMinus ∧
    ∃ text recorded, guarded.render.run [] = .ok (text, recorded) ∧
      text = "((-(-?)) - LENGTH('''--?/*'))" ∧ recorded = ["__x_0"] ∧
      lex .plain text.toList =
        some [.marker, .quoted '\'' ['\'', '-', '-', '?', '/', '*']] := by
  have hnames : guarded.PlainNames := by
    have hmarker : (parameter "__x_0").PlainNames := plainNames_iff.mpr ⟨nofun, nofun⟩
    have hneg {t : Term} (ht : t.PlainNames) : (unary .neg t).PlainNames :=
      plainNames_iff.mpr ⟨nofun, by simpa [operands] using ht⟩
    have htext : (literal (.string "'--?/*")).PlainNames := plainNames_iff.mpr ⟨nofun, nofun⟩
    have hlength : (function "LENGTH" [literal (.string "'--?/*")] .int).PlainNames :=
      plainNames_iff.mpr ⟨by simp [bareNames]; decide, by simpa [operands] using htext⟩
    exact plainNames_iff.mpr
      ⟨nofun, by simpa [guarded, operands] using And.intro (hneg (hneg hmarker)) hlength⟩
  have hsingle : guarded.SingleMinus := by
    have hinner : (unary .neg (parameter "__x_0")).SingleMinus :=
      singleMinus_iff.mpr ⟨rfl, by simpa [operands] using singleMinus_of_leaf rfl⟩
    have houter : (unary .neg (unary .neg (parameter "__x_0"))).SingleMinus :=
      singleMinus_iff.mpr ⟨rfl, by simpa [operands] using hinner⟩
    have hlength : (function "LENGTH" [literal (.string "'--?/*")] .int).SingleMinus :=
      singleMinus_iff.mpr ⟨rfl, by simpa [operands] using singleMinus_of_leaf rfl⟩
    exact singleMinus_iff.mpr
      ⟨rfl, by simpa [guarded, operands] using And.intro houter hlength⟩
  have hrun : guarded.render.run [] = .ok ("((-(-?)) - LENGTH('''--?/*'))", ["__x_0"]) := rfl
  exact ⟨hnames, hsingle, _, _, hrun, rfl, rfl, (lex_render_iff hnames hrun).2 hsingle⟩

def negated : Expr :=
  .call (.operator "Select") none
    [Statement.onPeople "Select" (.constant (.int (-5)) .int) .int,
      .lambda [⟨"x", .int⟩] (.unary .neg (.parameter "x" .int))] (.queryable .int)

/-- The two signs of a negated negative number begin a comment, in the term's text and in that of a
statement. -/
theorem comment_of_negated :
    (∃ text, (Term.unary .neg (.literal (.int (-5)))).render.run [] = .ok (text, []) ∧
      text = "(--5)" ∧ lex .plain text.toList = some [.comment]) ∧
    ∃ p q, Pipeline.classify .standard negated = .ok p ∧
      Statement.ofPipeline ⟨Statement.census, FunctionRule.standard⟩ p = .ok q ∧
      q.text = "SELECT (--5) AS \"value\" FROM \"people\" AS t0" ∧
      lex .plain q.text.toList = some [.comment] := by
  have hterm : lex .plain "(--5)".toList = some [.comment] := by decide +kernel
  have hstatement : lex .plain "SELECT (--5) AS \"value\" FROM \"people\" AS t0".toList =
      some [.comment] := by decide +kernel
  refine ⟨⟨_, rfl, rfl, ?_⟩, _, _, rfl, rfl, rfl, ?_⟩
  · exact hterm
  · exact hstatement

end Term

end DeferredQuery.Sql
