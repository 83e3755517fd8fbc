import Mathlib
import DeferredQuery.Expr.Text
import DeferredQuery.Proofs.Number.Shortest
import DeferredQuery.Proofs.Text.Quoting
import DeferredQuery.QueryText.Reader

/-!
# Forms of shape texts

What the text of a shape shows: its nodes without their static types, and of each constant the
text alone. The reader takes a form off the start of a text and gives back what is left; it never
looks back, so that a text has one form at most.
-/

namespace DeferredQuery

inductive Form where
  /-- A parameter, a keyword or the owner of a method. -/
  | word (name : String)
  | number (digits : List Char)
  /-- A text with its escapes. -/
  | quoted (body : List Char)
  /-- An entity set, of which only the entity type shows. -/
  | set (entity : String)
  | member (target : Form) (name : String)
  | call (target : Form) (name : String) (args : List Form)
  /-- A lambda with the text of its parameters. -/
  | lambda (params : String) (body : Form)
  /-- A conversion with the texts of both types. -/
  | convert (source target : String) (operand : Form)
  | binary (symbol : String) (left right : Form)
  | unary (op : UnOp) (operand : Form)
  | record (fields : List (Named Form))

/-! ## Forms of expressions -/

/-- The form of a constant. Values that no query text spells count as words. -/
def Value.form : Value → Form
  | .int n => .number (toString n.toInt).toList
  | .float x => .number (floatLayout.text x).toList
  | .string s => .quoted (s.toList.flatMap Text.quoteChar)
  | .query root => .set root.entity
  | v => .word v.text

namespace Expr

mutual

def form : Expr → Form
  | .constant v _ => v.form
  | .parameter name _ => .word name
  | .member target name _ => .member target.form name
  | .call m none args _ => .call (.word m.owner) m.name (forms args)
  | .call m (some receiver) args _ => .call receiver.form m.name (forms args)
  | .lambda params body => .lambda (paramsText params) body.form
  | .convert operand t => .convert operand.ty.text t.text operand.form
  | .binary op left right => .binary op.symbol left.form right.form
  | .unary op operand => .unary op operand.form
  | .record fields => .record (fieldForms fields)
  | .volatile inner => inner.form

def forms : List Expr → List Form
  | [] => []
  | e :: rest => e.form :: forms rest

def fieldForms : List (Named Expr) → List (Named Form)
  | [] => []
  | ⟨name, e⟩ :: rest => ⟨name, e.form⟩ :: fieldForms rest

end

theorem forms_eq_map (es : List Expr) : forms es = es.map form := by
  induction es with
  | nil => rfl
  | cons e es ih => simp [forms, ih]

theorem fieldForms_eq_map (fields : List (Named Expr)) :
    fieldForms fields = fields.map fun field => ⟨field.name, field.value.form⟩ := by
  induction fields with
  | nil => rfl
  | cons field fields ih => simp [fieldForms, ih]

end Expr

/-! ## Reading -/

namespace Form

open Decimal (isNumberChar Spelled)
open QueryText (isNameChar isNameStart readToken?)

def afterName (cs : List Char) : List Char := cs.dropWhile isNameChar

def upTo (stop : Char) (cs : List Char) : String := String.ofList (cs.takeWhile (· != stop))

def fromOn (stop : Char) (cs : List Char) : List Char := cs.dropWhile (· != stop)

def readNumber (first rest : List Char) : Form × List Char :=
  (.number (first ++ rest.takeWhile isNumberChar), rest.dropWhile isNumberChar)

/-- Reads up to the quote that ends a text; a backslash keeps the character after it. -/
def readQuoted? : List Char → Option (List Char × List Char)
  | [] => none
  | '"' :: rest => some ([], rest)
  | '\\' :: c :: rest => (readQuoted? rest).map fun r => ('\\' :: c :: r.1, r.2)
  | c :: rest => (readQuoted? rest).map fun r => (c :: r.1, r.2)

def readSymbol? (cs : List Char) : Option (String × List Char) := do
  let rest ← readToken? [' '] cs
  let more ← readToken? [' '] (fromOn ' ' rest)
  some (upTo ' ' rest, more)

def readTypes? (cs : List Char) : Option (String × String × List Char) := do
  let rest ← readToken? [',', ' '] (fromOn ',' cs)
  let more ← readToken? ['>', '('] (fromOn '>' rest)
  some (upTo ',' cs, upTo '>' rest, more)

/-- Whether a parenthesis opens the parameters of a lambda: it is followed by at most one name and
then a comma or the closing parenthesis. -/
def opensParams (cs : List Char) : Bool :=
  (afterName cs).head?.any fun c => c == ')' || c == ','

mutual

/-- Reads the form of an expression; each reader spends one unit of fuel and gives up without. -/
def read? : Nat → List Char → Option (Form × List Char)
  | 0, _ | _ + 1, [] => none
  | n + 1, c :: rest =>
    if c = '!' then do
      let (f, rest) ← read? n rest
      some (.unary .not f, rest)
    else if c = '-' then
      if rest.head?.any Char.isDigit then some (readNumber ['-'] rest)
      else do
        let (f, rest) ← read? n rest
        some (.unary .neg f, rest)
    else if c = '"' then do
      let (body, rest) ← readQuoted? rest
      readSuffixes? n (.quoted body) rest
    else if c = '(' then
      if opensParams rest then do
        let more ← readToken? [')', ' ', '=', '>', ' '] (fromOn ')' rest)
        let (f, more) ← read? n more
        some (.lambda ("(" ++ upTo ')' rest ++ ")") f, more)
      else do
        let (left, rest) ← read? n rest
        let (symbol, rest) ← readSymbol? rest
        let (right, rest) ← read? n rest
        let rest ← readToken? [')'] rest
        readSuffixes? n (.binary symbol left right) rest
    else if c.isDigit then some (readNumber [c] rest)
    else readNamed? n (QueryText.word (c :: rest)) (afterName (c :: rest))

def readNamed? : Nat → String → List Char → Option (Form × List Char)
  | 0, _, _ => none
  | n + 1, name, cs =>
    match readToken? ['<'] cs with
    | some rest =>
      if name = "Convert" then do
        let (source, target, rest) ← readTypes? rest
        let (f, rest) ← read? n rest
        let rest ← readToken? [')'] rest
        readSuffixes? n (.convert source target f) rest
      else do
        let more ← readToken? ['>'] (fromOn '>' rest)
        readSuffixes? n (.set (upTo '>' rest)) more
    | none =>
      match readToken? [' ', '=', '>', ' '] cs with
      | some rest => do
        let (f, rest) ← read? n rest
        some (.lambda name f, rest)
      | none =>
        match readToken? [' ', '\x7b', ' '] cs with
        | some rest => do
          let (fields, rest) ← readFields? n rest
          readSuffixes? n (.record fields) rest
        | none => readSuffixes? n (.word name) cs

def readSuffixes? : Nat → Form → List Char → Option (Form × List Char)
  | 0, _, _ => none
  | n + 1, target, cs =>
    match readToken? ['.'] cs with
    | none => some (target, cs)
    | some rest =>
      match readToken? ['('] (afterName rest) with
      | none => readSuffixes? n (.member target (QueryText.word rest)) (afterName rest)
      | some more => do
        let (args, more) ← readArgs? n more
        readSuffixes? n (.call target (QueryText.word rest) args) more

def readArgs? : Nat → List Char → Option (List Form × List Char)
  | 0, _ => none
  | n + 1, cs =>
    match readToken? [')'] cs with
    | some rest => some ([], rest)
    | none => do
      let (f, rest) ← read? n cs
      match readToken? [',', ' '] rest with
      | some rest => do
        let (fs, rest) ← readArgs? n rest
        some (f :: fs, rest)
      | none => do
        let rest ← readToken? [')'] rest
        some ([f], rest)

def readFields? : Nat → List Char → Option (List (Named Form) × List Char)
  | 0, _ => none
  | n + 1, cs =>
    match readToken? [' ', '\x7d'] cs with
    | some rest => some ([], rest)
    | none => do
      let rest ← readToken? [' ', '=', ' '] (afterName cs)
      let (f, rest) ← read? n rest
      match readToken? [',', ' '] rest with
      | some rest => do
        let (fields, rest) ← readFields? n rest
        some (⟨QueryText.word cs, f⟩ :: fields, rest)
      | none => do
        let rest ← readToken? [' ', '\x7d'] rest
        some ([⟨QueryText.word cs, f⟩], rest)

end

/-- What holds one step before enough fuel holds for enough fuel. -/
theorem eventually_of_succ {p : Nat → Prop} (h : ∀ᶠ n in Filter.atTop, p (n + 1)) :
    ∀ᶠ n in Filter.atTop, p n := by
  rw [← Filter.map_add_atTop_eq_nat 1]
  exact h

/-! ## What follows a text -/

def isWord (s : String) : Bool :=
  match s.toList with
  | [] => false
  | c :: cs => isNameStart c && cs.all isNameChar

def owners : List String := ["Queryable", "Math", "Guid", "DateTime"]

/-- A word that is neither a keyword nor the owner of methods. -/
def isName (s : String) : Bool :=
  isWord s && !QueryText.keywords.contains s && !owners.contains s

theorem isNameChar_of_isNameStart {c : Char} (hc : isNameStart c = true) : isNameChar c = true := by
  simp only [isNameStart, isNameChar, Bool.or_eq_true, Char.isAlphanum] at hc ⊢
  tauto

theorem isWord_cons {s : String} (hs : isWord s = true) :
    ∃ c cs, s.toList = c :: cs ∧ isNameStart c = true ∧ ∀ d ∈ c :: cs, isNameChar d = true := by
  unfold isWord at hs
  split at hs
  · cases hs
  · next c cs h =>
      simp only [Bool.and_eq_true, List.all_eq_true] at hs
      refine ⟨c, cs, h, hs.1, fun d hd => ?_⟩
      rcases List.mem_cons.mp hd with rfl | hd
      · exact isNameChar_of_isNameStart hs.1
      · exact hs.2 d hd

/-- What may follow a word, so that it ends there and is no more than a word. -/
structure Follows (rest : List Char) : Prop where
  name : ∀ c ∈ rest.head?, isNameChar c = false
  angle : readToken? ['<'] rest = none
  paren : readToken? ['('] rest = none
  arrow : readToken? [' ', '=', '>', ' '] rest = none
  brace : readToken? [' ', '\x7b', ' '] rest = none

structure Ends (rest : List Char) : Prop extends Follows rest where
  number : ∀ c ∈ rest.head?, isNumberChar c = false

theorem Ends.dot {rest : List Char} (h : Ends rest) : readToken? ['.'] rest = none := by
  cases rest with
  | nil => rfl
  | cons c rest =>
      have hc : c ≠ '.' := by
        rintro rfl
        exact absurd (h.number '.' rfl) (by decide)
      simp [readToken?, hc.symm]

theorem follows_dot (rest : List Char) : Follows ('.' :: rest) := by
  constructor <;> simp [readToken?, isNameChar]

theorem ends_nil : Ends [] := by
  refine ⟨⟨?_, rfl, rfl, rfl, rfl⟩, ?_⟩ <;> simp

theorem ends_paren (rest : List Char) : Ends (')' :: rest) := by
  refine ⟨⟨?_, ?_, ?_, ?_, ?_⟩, ?_⟩ <;> simp [readToken?, isNameChar, isNumberChar]

theorem ends_comma (rest : List Char) : Ends (',' :: rest) := by
  refine ⟨⟨?_, ?_, ?_, ?_, ?_⟩, ?_⟩ <;> simp [readToken?, isNameChar, isNumberChar]

theorem ends_brace (rest : List Char) : Ends (' ' :: '\x7d' :: rest) := by
  refine ⟨⟨?_, ?_, ?_, ?_, ?_⟩, ?_⟩ <;> simp [readToken?, isNameChar, isNumberChar]

theorem ends_symbol (op : BinOp) (rest : List Char) :
    Ends (' ' :: (op.symbol.toList ++ ' ' :: rest)) := by
  refine ⟨⟨?_, ?_, ?_, ?_, ?_⟩, ?_⟩ <;> cases op <;>
    simp [readToken?, isNameChar, isNumberChar, BinOp.symbol]

/-! ## Reading words, numbers and quoted texts -/

theorem word_append {s : String} (hs : isWord s = true) {rest : List Char}
    (hrest : ∀ c ∈ rest.head?, isNameChar c = false) :
    QueryText.word (s.toList ++ rest) = s ∧ afterName (s.toList ++ rest) = rest := by
  obtain ⟨c, cs, hcs, -, hall⟩ := isWord_cons hs
  have hall' : ∀ d ∈ s.toList, isNameChar d = true := by rwa [hcs]
  rw [QueryText.word, afterName, List.takeWhile_append_of_pos hall',
    List.dropWhile_append_of_pos hall']
  cases rest with
  | nil => simp
  | cons d rest => simp [hrest d rfl]

theorem isDigit_of_isNameStart {c : Char} (hc : isNameStart c = true) : c.isDigit = false := by
  rw [Bool.eq_false_iff]
  intro hdigit
  have hhigh : c.val.toNat ≤ 57 := (Char.isDigit_iff_toNat.mp hdigit).2
  have hletter : ∀ d : Char, 57 < d.val.toNat → ¬d.val ≤ c.val := fun d hd hle => by
    have := UInt32.le_iff_toNat_le.mp hle
    omega
  simp only [isNameStart, Char.isAlpha, Char.isUpper, Char.isLower, Bool.or_eq_true,
    Bool.and_eq_true, decide_eq_true_eq, beq_iff_eq, ge_iff_le] at hc
  rcases hc with (⟨h, -⟩ | ⟨h, -⟩) | rfl
  · exact hletter 'A' (by decide) h
  · exact hletter 'a' (by decide) h
  · exact absurd hdigit (by decide)

theorem read?_start {c : Char} (hc : isNameStart c = true) (cs : List Char) (n : Nat) :
    read? (n + 1) (c :: cs) = readNamed? n (QueryText.word (c :: cs)) (afterName (c :: cs)) := by
  have hne : ∀ d, isNameStart d = false → c ≠ d := by
    rintro d hd rfl
    exact absurd hc (by simp [hd])
  rw [read?, if_neg (hne _ rfl), if_neg (hne _ rfl), if_neg (hne _ rfl), if_neg (hne _ rfl),
    if_neg (by simp [isDigit_of_isNameStart hc])]

theorem read?_word {s : String} (hs : isWord s = true) {rest : List Char}
    (hrest : ∀ c ∈ rest.head?, isNameChar c = false) (n : Nat) :
    read? (n + 1) (s.toList ++ rest) = readNamed? n s rest := by
  obtain ⟨hword, hafter⟩ := word_append hs hrest
  obtain ⟨c, cs, hcs, hstart, -⟩ := isWord_cons hs
  rw [hcs, List.cons_append] at hword hafter ⊢
  rw [read?_start hstart, hword, hafter]

theorem readNamed?_plain {s : String} {rest : List Char} (h : Follows rest) (n : Nat) :
    readNamed? (n + 1) s rest = readSuffixes? n (.word s) rest := by
  rw [readNamed?, h.angle, h.arrow, h.brace]

theorem readSuffixes?_ends {f : Form} {rest : List Char} (h : Ends rest) (n : Nat) :
    readSuffixes? (n + 1) f rest = some (f, rest) := by
  rw [readSuffixes?, h.dot]

theorem readNumber_append {first cs rest : List Char} (hcs : ∀ c ∈ cs, isNumberChar c = true)
    (hrest : ∀ c ∈ rest.head?, isNumberChar c = false) :
    readNumber first (cs ++ rest) = (.number (first ++ cs), rest) := by
  rw [readNumber, List.takeWhile_append_of_pos hcs, List.dropWhile_append_of_pos hcs]
  cases rest with
  | nil => simp
  | cons d rest => simp [hrest d rfl]

theorem ne_of_isDigit {c d : Char} (hc : c.isDigit = true) (hd : d.isDigit = false) : c ≠ d := by
  rintro rfl
  exact absurd hc (by simp [hd])

theorem read?_number {cs rest : List Char} (hcs : Spelled cs)
    (hrest : ∀ c ∈ rest.head?, isNumberChar c = false) (n : Nat) :
    read? (n + 1) (cs ++ rest) = some (.number cs, rest) := by
  obtain ⟨c, more, rfl, hc⟩ := hcs.head
  have hmore : ∀ d ∈ more, isNumberChar d = true := fun d hd => hcs.all d (by simp [hd])
  rw [List.cons_append, read?, if_neg (ne_of_isDigit hc rfl), if_neg (ne_of_isDigit hc rfl),
    if_neg (ne_of_isDigit hc rfl), if_neg (ne_of_isDigit hc rfl), if_pos hc,
    readNumber_append hmore hrest]
  rfl

theorem read?_negative {cs rest : List Char} (hcs : Spelled cs)
    (hrest : ∀ c ∈ rest.head?, isNumberChar c = false) (n : Nat) :
    read? (n + 1) ('-' :: (cs ++ rest)) = some (.number ('-' :: cs), rest) := by
  obtain ⟨c, more, hmore, hc⟩ := hcs.head
  have hhead : ((cs ++ rest).head?.any Char.isDigit) = true := by simp [hmore, hc]
  rw [read?, if_neg (by decide), if_pos rfl, if_pos hhead, readNumber_append hcs.all hrest]
  rfl

theorem readQuoted?_plain {cs : List Char} (hcs : ∀ c ∈ cs, c ≠ '"' ∧ c ≠ '\\')
    (rest : List Char) :
    readQuoted? (cs ++ rest) = (readQuoted? rest).map fun r => (cs ++ r.1, r.2) := by
  induction cs with
  | nil => simp
  | cons c cs ih =>
      obtain ⟨hquote, hslash⟩ := hcs c (by simp)
      rw [List.cons_append, readQuoted?, ih fun d hd => hcs d (by simp [hd]), Option.map_map]
      · rfl
      · simpa using hquote
      · exact fun d ds h => absurd h hslash

/-- What one quoted character stands for is read back alone, whatever follows it. -/
theorem readQuoted?_quoteChar (c : Char) (rest : List Char) :
    readQuoted? (Text.quoteChar c ++ rest) =
      (readQuoted? rest).map fun r => (Text.quoteChar c ++ r.1, r.2) := by
  unfold Text.quoteChar
  split
  · rfl
  split
  · rfl
  split
  · rfl
  split
  · rfl
  split
  · rfl
  split
  · rfl
  split
  · next hquote hslash _ _ _ _ _ => exact readQuoted?_plain (by simpa using ⟨hquote, hslash⟩) rest
  · have hplain : ∀ d ∈ '\x7b' :: (Text.hexDigits 6 c.toNat ++ ['\x7d']), d ≠ '"' ∧ d ≠ '\\' := by
      intro d hd
      rcases List.mem_cons.mp hd with rfl | hd
      · decide
      rcases List.mem_append.mp hd with hd | hd
      · exact (Text.hexDigits_plain hd).2
      · rw [List.mem_singleton.mp hd]
        decide
    have h := readQuoted?_plain hplain rest
    simp only [List.cons_append, List.nil_append, List.append_assoc] at h ⊢
    rw [readQuoted?, h, Option.map_map]
    · rfl

theorem readQuoted?_body (cs rest : List Char) :
    readQuoted? (cs.flatMap Text.quoteChar ++ '"' :: rest) =
      some (cs.flatMap Text.quoteChar, rest) := by
  induction cs with
  | nil => rfl
  | cons c cs ih =>
      rw [List.flatMap_cons, List.append_assoc, readQuoted?_quoteChar, ih]
      rfl

theorem read?_signed {cs rest : List Char} (hcs : Decimal.Signed cs)
    (hrest : ∀ c ∈ rest.head?, isNumberChar c = false) (n : Nat) :
    read? (n + 1) (cs ++ rest) = some (.number cs, rest) := by
  rcases hcs with hcs | ⟨ds, hds, rfl⟩
  · exact read?_number hcs hrest n
  · exact read?_negative hds hrest n

/-! ## Reading delimited parts -/

theorem readToken?_append (token rest : List Char) :
    readToken? token (token ++ rest) = some rest := by simp [readToken?]

theorem readToken?_of_ne {c d : Char} (h : d ≠ c) (token rest : List Char) :
    readToken? (c :: token) (d :: rest) = none := by simp [readToken?, h.symm]

theorem upTo_append {stop : Char} {cs rest : List Char} (h : stop ∉ cs) :
    upTo stop (cs ++ stop :: rest) = String.ofList cs ∧
      fromOn stop (cs ++ stop :: rest) = stop :: rest := by
  have hall : ∀ c ∈ cs, (c != stop) = true := fun c hc => by
    simpa using fun heq : c = stop => h (heq ▸ hc)
  rw [upTo, fromOn, List.takeWhile_append_of_pos hall, List.dropWhile_append_of_pos hall]
  simp

theorem readSymbol?_symbol (op : BinOp) (rest : List Char) :
    readSymbol? (' ' :: (op.symbol.toList ++ ' ' :: rest)) = some (op.symbol, rest) := by
  have hsymbol : ' ' ∉ op.symbol.toList := by cases op <;> decide
  obtain ⟨hup, hfrom⟩ := @upTo_append ' ' op.symbol.toList rest hsymbol
  simp [readSymbol?, readToken?, hup, hfrom]

theorem readTypes?_types {source target : String}
    (hsource : ',' ∉ source.toList) (htarget : '>' ∉ target.toList) (rest : List Char) :
    readTypes? (source.toList ++ ',' :: ' ' :: (target.toList ++ '>' :: '(' :: rest)) =
      some (source, target, rest) := by
  obtain ⟨hup, hfrom⟩ := @upTo_append ',' source.toList
    (' ' :: (target.toList ++ '>' :: '(' :: rest)) hsource
  obtain ⟨hup', hfrom'⟩ := @upTo_append '>' target.toList ('(' :: rest) htarget
  simp [readTypes?, readToken?, hup, hfrom, hup', hfrom']

/-! ## Steps of the readers

One step of a reader for each way a text goes on, from the steps of its parts. -/

section Steps

variable {n : Nat} {cs more rest : List Char} {f g : Form} {name : String}

theorem readSuffixes?_member (hname : isWord name = true) (hrest : Follows rest) :
    readSuffixes? (n + 1) f ('.' :: (name.toList ++ rest)) =
      readSuffixes? n (.member f name) rest := by
  obtain ⟨hword, hafter⟩ := word_append hname hrest.name
  have hdot : readToken? ['.'] ('.' :: (name.toList ++ rest)) = some (name.toList ++ rest) :=
    readToken?_append ['.'] _
  rw [readSuffixes?, hdot]
  dsimp only
  rw [hword, hafter, hrest.paren]

theorem readSuffixes?_call {args : List Form} (hname : isWord name = true)
    (hargs : readArgs? n cs = some (args, rest)) :
    readSuffixes? (n + 1) f ('.' :: (name.toList ++ '(' :: cs)) =
      readSuffixes? n (.call f name args) rest := by
  have hparen : ∀ c ∈ ('(' :: cs).head?, isNameChar c = false := by
    rintro _ ⟨⟩
    decide
  obtain ⟨hword, hafter⟩ := word_append hname hparen
  have hdot : readToken? ['.'] ('.' :: (name.toList ++ '(' :: cs)) =
      some (name.toList ++ '(' :: cs) := readToken?_append ['.'] _
  have hopen : readToken? ['('] ('(' :: cs) = some cs := readToken?_append ['('] cs
  rw [readSuffixes?, hdot]
  dsimp only
  rw [hword, hafter, hopen]
  simp [hargs]

theorem read?_not (h : read? n cs = some (f, rest)) :
    read? (n + 1) ('!' :: cs) = some (.unary .not f, rest) := by
  rw [read?, if_pos rfl]
  simp [h]

theorem read?_neg (hcs : cs.head?.any Char.isDigit = false) (h : read? n cs = some (f, rest)) :
    read? (n + 1) ('-' :: cs) = some (.unary .neg f, rest) := by
  rw [read?, if_neg (by decide), if_pos rfl, hcs]
  simp [h]

theorem read?_quoted (body rest : List Char) :
    read? (n + 1) ('"' :: (body.flatMap Text.quoteChar ++ '"' :: rest)) =
      readSuffixes? n (.quoted (body.flatMap Text.quoteChar)) rest := by
  rw [read?, if_neg (by decide), if_neg (by decide), if_pos rfl, readQuoted?_body]
  rfl

theorem read?_lambda (hopen : opensParams (cs ++ ')' :: ' ' :: '=' :: '>' :: ' ' :: more) = true)
    (hcs : ')' ∉ cs) (h : read? n more = some (f, rest)) :
    read? (n + 1) ('(' :: (cs ++ ')' :: ' ' :: '=' :: '>' :: ' ' :: more)) =
      some (.lambda ("(" ++ String.ofList cs ++ ")") f, rest) := by
  obtain ⟨hup, hfrom⟩ := @upTo_append ')' cs (' ' :: '=' :: '>' :: ' ' :: more) hcs
  rw [read?, if_neg (by decide), if_neg (by decide), if_neg (by decide), if_pos rfl, if_pos hopen,
    hup, hfrom]
  simp [readToken?, h]

theorem read?_binary (op : BinOp) (hopen : opensParams cs = false)
    (hleft : read? n cs = some (f, ' ' :: (op.symbol.toList ++ ' ' :: more)))
    (hright : read? n more = some (g, ')' :: rest)) :
    read? (n + 1) ('(' :: cs) = readSuffixes? n (.binary op.symbol f g) rest := by
  rw [read?, if_neg (by decide), if_neg (by decide), if_neg (by decide), if_pos rfl, hopen,
    if_neg (by decide), hleft]
  simp only [Option.bind_eq_bind, Option.bind_some, readSymbol?_symbol, hright]
  simp [readToken?]

theorem readNamed?_arrow (h : read? n cs = some (f, rest)) :
    readNamed? (n + 1) name (' ' :: '=' :: '>' :: ' ' :: cs) = some (.lambda name f, rest) := by
  have harrow : readToken? [' ', '=', '>', ' '] (' ' :: '=' :: '>' :: ' ' :: cs) = some cs :=
    readToken?_append [' ', '=', '>', ' '] cs
  rw [readNamed?, readToken?_of_ne (by decide), harrow]
  simp [h]

theorem readNamed?_record {fields : List (Named Form)}
    (h : readFields? n cs = some (fields, rest)) :
    readNamed? (n + 1) name (' ' :: '\x7b' :: ' ' :: cs) =
      readSuffixes? n (.record fields) rest := by
  have harrow : readToken? [' ', '=', '>', ' '] (' ' :: '\x7b' :: ' ' :: cs) = none := by
    simp [readToken?]
  have hbrace : readToken? [' ', '\x7b', ' '] (' ' :: '\x7b' :: ' ' :: cs) = some cs :=
    readToken?_append [' ', '\x7b', ' '] cs
  rw [readNamed?, readToken?_of_ne (by decide), harrow, hbrace]
  simp [h]

theorem readNamed?_set {entity : String} (hname : name ≠ "Convert") (h : '>' ∉ entity.toList) :
    readNamed? (n + 1) name ('<' :: (entity.toList ++ '>' :: rest)) =
      readSuffixes? n (.set entity) rest := by
  obtain ⟨hup, hfrom⟩ := @upTo_append '>' entity.toList rest h
  have hangle : readToken? ['<'] ('<' :: (entity.toList ++ '>' :: rest)) =
      some (entity.toList ++ '>' :: rest) := readToken?_append ['<'] _
  rw [readNamed?, hangle]
  dsimp only
  rw [if_neg hname, hup, hfrom]
  simp [readToken?]

theorem readNamed?_convert {source target : String} (hsource : ',' ∉ source.toList)
    (htarget : '>' ∉ target.toList) (h : read? n cs = some (f, ')' :: rest)) :
    readNamed? (n + 1) "Convert"
        ('<' :: (source.toList ++ ',' :: ' ' :: (target.toList ++ '>' :: '(' :: cs))) =
      readSuffixes? n (.convert source target f) rest := by
  have hangle : readToken? ['<'] ('<' :: (source.toList ++ ',' :: ' ' ::
      (target.toList ++ '>' :: '(' :: cs))) = some (source.toList ++ ',' :: ' ' ::
        (target.toList ++ '>' :: '(' :: cs)) := readToken?_append ['<'] _
  rw [readNamed?, hangle]
  dsimp only
  rw [if_pos rfl, readTypes?_types hsource htarget]
  simp [h, readToken?]

theorem readArgs?_nil (rest : List Char) : readArgs? (n + 1) (')' :: rest) = some ([], rest) := by
  rw [readArgs?]
  simp [readToken?]

theorem readArgs?_singleton (hopen : readToken? [')'] cs = none)
    (h : read? n cs = some (f, ')' :: rest)) :
    readArgs? (n + 1) cs = some ([f], rest) := by
  rw [readArgs?, hopen]
  simp [h, readToken?]

theorem readArgs?_cons {fs : List Form} (hopen : readToken? [')'] cs = none)
    (h : read? n cs = some (f, ',' :: ' ' :: more)) (hmore : readArgs? n more = some (fs, rest)) :
    readArgs? (n + 1) cs = some (f :: fs, rest) := by
  rw [readArgs?, hopen]
  simp [h, hmore, readToken?]

theorem readFields?_nil (rest : List Char) :
    readFields? (n + 1) (' ' :: '\x7d' :: rest) = some ([], rest) := by
  rw [readFields?]
  simp [readToken?]

/-- What the reader of fields sees of a field's name. -/
theorem readFields?_name (hname : isWord name = true) (cs : List Char) :
    readToken? [' ', '\x7d'] (name.toList ++ ' ' :: '=' :: ' ' :: cs) = none ∧
      QueryText.word (name.toList ++ ' ' :: '=' :: ' ' :: cs) = name ∧
      readToken? [' ', '=', ' '] (afterName (name.toList ++ ' ' :: '=' :: ' ' :: cs)) =
        some cs := by
  obtain ⟨hword, hafter⟩ := @word_append name hname (' ' :: '=' :: ' ' :: cs) (by
    rintro _ ⟨⟩
    decide)
  refine ⟨?_, hword, ?_⟩
  · obtain ⟨c, ds, hds, hstart, -⟩ := isWord_cons hname
    rw [hds]
    refine readToken?_of_ne ?_ _ _
    rintro rfl
    exact absurd hstart (by decide)
  · rw [hafter]
    exact readToken?_append [' ', '=', ' '] cs

theorem readFields?_singleton (hname : isWord name = true)
    (h : read? n cs = some (f, ' ' :: '\x7d' :: rest)) :
    readFields? (n + 1) (name.toList ++ ' ' :: '=' :: ' ' :: cs) = some ([⟨name, f⟩], rest) := by
  obtain ⟨hopen, hword, hassign⟩ := readFields?_name hname cs
  rw [readFields?, hopen]
  simp only [hassign, hword, h, Option.bind_eq_bind, Option.bind_some]
  simp [readToken?]

theorem readFields?_cons {fields : List (Named Form)} (hname : isWord name = true)
    (h : read? n cs = some (f, ',' :: ' ' :: more))
    (hmore : readFields? n more = some (fields, rest)) :
    readFields? (n + 1) (name.toList ++ ' ' :: '=' :: ' ' :: cs) =
      some (⟨name, f⟩ :: fields, rest) := by
  obtain ⟨hopen, hword, hassign⟩ := readFields?_name hname cs
  rw [readFields?, hopen]
  simp only [hassign, hword, h, Option.bind_eq_bind, Option.bind_some]
  simp [readToken?, hmore]

end Steps

end Form

end DeferredQuery
