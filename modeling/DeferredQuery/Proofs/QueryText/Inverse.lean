import DeferredQuery.Proofs.QueryText.Plain

/-!
# Texts of plain expressions

The text of a plain expression without free parameters parses back to the expression, whatever
the names of the schema and the captured variables mean. So no two such expressions share a text.
-/

namespace DeferredQuery

open QueryText

attribute [local simp] Expr.text

namespace Expr

variable {bound : List String} {e : Expr} {n : Nat} {rest : List Char}

abbrev chars (e : Expr) : List Char := e.text.toList

/-- The expression is read as an operand. -/
def ReadsAsOperand (bound : List String) (e : Expr) : Prop :=
  ∀ n rest, 4 * e.chars.length ≤ n → Follows rest →
    ∃ t, Reads (readUnary? n) (e.chars ++ rest) t rest ∧ Denotes bound t e

def ReadsAsExpr (bound : List String) (e : Expr) : Prop :=
  ∀ n rest, 4 * e.chars.length + 1 ≤ n → Ends rest →
    ∃ t, Reads (readExpr? n) (e.chars ++ rest) t rest ∧ Denotes bound t e

theorem ne_of_isOpening {c d : Char} (hc : isOpening c = true) (hd : isOpening d = false) :
    c ≠ d := by
  rintro rfl
  exact absurd hc (by simp [hd])

theorem Plain.skipBlanks_chars (h : Plain bound e) (rest : List Char) :
    skipBlanks (e.chars ++ rest) = e.chars ++ rest := by
  obtain ⟨c, cs, hcs, hc, -⟩ := h.text_cons
  have hblank : isBlank c = false := by
    rw [Bool.eq_false_iff]
    intro hblank
    simp only [isBlank, Bool.or_eq_true, beq_iff_eq] at hblank
    rcases hblank with ((rfl | rfl) | rfl) | rfl <;> exact absurd hc (by decide)
  rw [chars, hcs, List.cons_append]
  exact skipBlanks_cons hblank _

theorem chars_string (s : String) :
    (const (.string s)).chars = '"' :: (s.toList.flatMap Text.quoteChar ++ ['"']) := by
  simp [chars, const, Value.text, Text.quoted]

theorem chars_binary (op : BinOp) (left right : Expr) :
    (Expr.binary op left right).chars =
      '(' :: (left.chars ++ ' ' :: (op.symbol.toList ++ ' ' :: (right.chars ++ [')']))) := by
  simp [chars]

theorem chars_unary (op : UnOp) (operand : Expr) :
    (Expr.unary op operand).chars = (if op = .not then '!' else '-') :: operand.chars := by
  cases op <;> simp [chars]

theorem chars_record (fields : List (Named Expr)) :
    (Expr.record fields).chars = 'n' :: 'e' :: 'w' :: ' ' :: '\x7b' :: ' ' ::
      ((Text.commaSep (fieldTexts fields)).toList ++ [' ', '\x7d']) := by
  simp [chars]

/-! ## Names -/

/-- The name that the text of an operand begins with is a parameter, with all or a first part of
its members left. -/
theorem Plain.readName?_chars (h : Plain bound e) (hoperand : e.isLambda = false)
    (hrest : WordEnds rest) {name : String} {more : List Char}
    (hread : readName? (e.chars ++ rest) = some (name, more)) :
    more = rest ∨ more.head? = some '.' := by
  induction h generalizing rest with
  | parameter hname _ =>
      rw [chars, text, readName?_ident hname hrest] at hread
      cases hread
      exact .inl rfl
  | @member _ target name' htarget hpath hname ih =>
      have htext : (Expr.member target name' .unknown).chars ++ rest =
          target.chars ++ '.' :: (name'.toList ++ rest) := by simp [chars]
      have htarget : target.isLambda = false := by cases target <;> first | rfl | cases hpath
      rw [htext] at hread
      rcases ih htarget (wordEnds_dot _) hread with rfl | hmore
      · exact .inr rfl
      · exact .inr hmore
  | null =>
      have hnone : readName? ("null".toList ++ rest) = none :=
        readName?_keyword (by decide) hrest
      cases hread.symm.trans hnone
  | bool b =>
      have hnone : readName? ((if b then "true" else "false").toList ++ rest) = none :=
        readName?_keyword (by cases b <;> decide) hrest
      cases hread.symm.trans hnone
  | int n hn =>
      obtain ⟨hne, hdigits⟩ := Decimal.digits_toDigits n.toInt.toNat
      obtain ⟨c, cs, hcs⟩ := List.exists_cons_of_ne_nil hne
      have hstart : isNameStart c = false := by
        rw [Bool.eq_false_iff]
        intro hstart
        have hdigit := hdigits c (by rw [hcs]; exact List.mem_cons_self)
        exact absurd hdigit (by simp [Form.isDigit_of_isNameStart hstart])
      rw [chars, toList_text_int hn, hcs, List.cons_append, readName?_of_not_start hstart] at hread
      cases hread
  | string s _ =>
      rw [chars_string, List.cons_append, readName?_of_not_start rfl] at hread
      cases hread
  | binary op _ _ _ _ _ _ =>
      rw [chars_binary, List.cons_append, readName?_of_not_start rfl] at hread
      cases hread
  | unary op _ _ _ _ =>
      rw [chars_unary, List.cons_append, readName?_of_not_start (by cases op <;> rfl)] at hread
      cases hread
  | @record _ fields _ _ _ =>
      have hnone : readName? ((Expr.record fields).chars ++ rest) = none := by
        rw [chars_record]
        exact readName?_keyword (s := "new") (by decide) (wordEnds_blank _)
      cases hread.symm.trans hnone
  | lambda _ _ _ => cases hoperand

/-- The parenthesis of an operator opens no parameters, as its left operand is not a list of
names. -/
theorem Plain.readParams?_binary {op : BinOp} {left right : Expr}
    (h : Plain bound (.binary op left right)) (rest : List Char) :
    readParams? ((Expr.binary op left right).chars ++ rest) = none := by
  cases h with
  | binary _ hleft _ hoperand _ =>
      rw [chars_binary, List.cons_append, List.append_assoc]
      have hsymbol : ∀ cs, ∀ c ∈ (skipBlanks (' ' :: (op.symbol.toList ++ cs))).head?,
          c ≠ ',' ∧ c ≠ ')' := by
        intro cs
        cases op <;> (rintro _ ⟨⟩; decide)
      refine readParams?_open_eq_none (hleft.skipBlanks_chars _) ?_ fun name more hname => ?_
      · obtain ⟨c, cs, hcs, hc, -⟩ := hleft.text_cons
        rw [chars, hcs]
        simpa using ne_of_isOpening hc rfl
      · rcases hleft.readName?_chars hoperand (wordEnds_blank _) hname with rfl | hmore
        · simpa using hsymbol _
        · obtain ⟨cs, rfl⟩ := List.head?_eq_some_iff.mp hmore
          rintro _ ⟨⟩
          decide

/-- An operand is no lambda, as no arrow follows its first name. -/
theorem Plain.readLambda?_chars (h : Plain bound e) (hoperand : e.isLambda = false)
    (hrest : Follows rest) (n : Nat) : readLambda? n (e.chars ++ rest) = none := by
  refine readLambda?_eq_none (fun params more hparams => ?_) n
  cases hname : readName? (e.chars ++ rest) with
  | some r =>
      rw [readParams?, hname] at hparams
      cases hparams
      rcases h.readName?_chars hoperand hrest.name hname with hmore | hmore
      · rw [hmore]
        exact hrest.arrow
      · obtain ⟨cs, hcs⟩ := List.head?_eq_some_iff.mp hmore
        rw [hcs]
        rfl
  | none =>
      obtain ⟨c, cs, hcs, hc, hopen⟩ := h.text_cons
      by_cases hparen : c = '('
      · obtain ⟨op, left, right, rfl⟩ : ∃ op left right, e = .binary op left right := by
          rcases hopen hparen with hlambda | hbinary
          · exact absurd hlambda (by simp [hoperand])
          · cases e <;> cases hbinary
            exact ⟨_, _, _, rfl⟩
        rw [h.readParams?_binary] at hparams
        cases hparams
      · rw [chars, hcs, List.cons_append] at hparams hname
        rw [readParams?, hname, Form.readToken?_of_ne hparen] at hparams
        cases hparams

/-! ## Operands -/

/-- A parameter with its members is read by the loop over members, one step for each of them. -/
theorem Plain.readUnary?_path (h : Plain bound e) (hpath : e.isPath = true)
    (hn : 4 * e.chars.length ≤ n) (hrest : WordEnds rest)
    (hopen : ∀ c ∈ (skipBlanks rest).head?, c ≠ '(') :
    ∃ k t more, readUnary? n (e.chars ++ rest) = some (readSuffixes k t more) ∧
      n ≤ k + 4 * e.chars.length ∧ skipBlanks more = skipBlanks rest ∧ Denotes bound t e := by
  induction h generalizing rest with
  | @parameter _ name hname hbound =>
      obtain ⟨c, cs, hcs, hstart⟩ := isIdent_cons hname
      have hlength : 1 ≤ name.toList.length := by rw [hcs]; simp
      obtain ⟨n, rfl⟩ := Nat.exists_eq_add_of_le' (show 2 ≤ n by simp [chars] at hn; omega)
      have hne : ∀ d, isNameStart d = false → c ≠ d := by
        rintro d hd rfl
        exact absurd hstart (by simp [hd])
      have hread := readPrimary?_name hname hrest n
      rw [hcs, List.cons_append] at hread
      refine ⟨n + 1, .name name, skipBlanks rest, ?_, ?_, skipBlanks_idem rest, denotes_name hbound⟩
      · rw [chars, text, hcs, List.cons_append]
        exact readUnary?_of_ne (hne _ rfl) (hne _ rfl) hread
      · simp only [chars, text]
        omega
  | @member _ target name htarget htargetPath hname ih =>
      have hchars : (Expr.member target name .unknown).chars =
          target.chars ++ '.' :: name.toList := by simp [chars]
      have htype : target.ty = .unknown := by cases htarget <;> first | rfl | cases htargetPath
      rw [hchars] at hn ⊢
      rw [List.length_append, List.length_cons] at hn ⊢
      obtain ⟨k, t, more, hread, hk, hmore, ht⟩ := @ih ('.' :: (name.toList ++ rest)) htargetPath
        (by omega) (wordEnds_dot _) (by rintro _ ⟨⟩; decide)
      rw [skipBlanks_cons (c := '.') rfl] at hmore
      obtain ⟨k, rfl⟩ := Nat.exists_eq_add_of_le' (show 1 ≤ k by omega)
      refine ⟨k, .member t name, rest, ?_, by omega, rfl, ht.member htype name⟩
      rw [List.append_assoc, List.cons_append, hread,
        readSuffixes_member hname hrest hopen hmore]
  | _ => cases hpath

theorem Plain.readsAsOperand_path (h : Plain bound e) (hpath : e.isPath = true) :
    e.ReadsAsOperand bound := by
  intro n rest hn hrest
  obtain ⟨k, t, more, hread, -, hmore, ht⟩ := h.readUnary?_path hpath hn hrest.name
    fun c hc => (hrest.next c hc).2
  refine ⟨t, ⟨more, ?_, hmore⟩, ht⟩
  rw [hread, readSuffixes_of_ne]
  rw [hmore]
  exact fun c hc => (hrest.next c hc).1

/-- A literal is read as its value. -/
theorem readsAsOperand_literal {l : Literal} {v : Value} {c : Char} {cs : List Char}
    (hchars : (const v).chars = c :: cs) (hnot : c ≠ '!') (hneg : c ≠ '-')
    (hvalue : l.value = .ok v)
    (hrecord : ∀ n rest, readRecord? n ((const v).chars ++ rest) = none)
    (hread : ∀ rest, Follows rest → readLiteral? ((const v).chars ++ rest) = some (l, rest)) :
    (const v).ReadsAsOperand bound := by
  intro n rest hn hrest
  rw [hchars, List.length_cons] at hn
  obtain ⟨n, rfl⟩ := Nat.exists_eq_add_of_le' (show 2 ≤ n by omega)
  have hprimary := readPrimary?_literal (hrecord n rest) (hread rest hrest)
  rw [hchars, List.cons_append] at hprimary ⊢
  exact ⟨_, reads_primary hnot hneg hrest hprimary, denotes_literal hvalue⟩

theorem readsAsOperand_null : (const .null).ReadsAsOperand bound := by
  have hchars : (const .null).chars = "null".toList := rfl
  refine readsAsOperand_literal (l := .null) hchars (by decide) (by decide) rfl ?_ ?_
  · intro n rest
    cases n <;> rfl
  · exact fun rest hrest => readLiteral?_null hrest.name

/-- The words for truth values are names that end where an operand does. -/
theorem readsAsOperand_bool (b : Bool) : (const (.bool b)).ReadsAsOperand bound := by
  have hchars : (const (.bool b)).chars = (if b then "true" else "false").toList := by
    cases b <;> rfl
  obtain ⟨c, cs, hcs, hc⟩ : ∃ c cs, (const (.bool b)).chars = c :: cs ∧ c ∈ ['t', 'f'] := by
    cases b with
    | false => exact ⟨'f', ['a', 'l', 's', 'e'], rfl, by decide⟩
    | true => exact ⟨'t', ['r', 'u', 'e'], rfl, by decide⟩
  have hne : ∀ d, d ∉ ['t', 'f'] → c ≠ d := by
    rintro d hd rfl
    exact hd hc
  refine readsAsOperand_literal (l := .bool b) hcs (hne _ (by decide)) (hne _ (by decide)) rfl ?_ ?_
  · intro n rest
    rw [hcs, List.cons_append]
    exact readRecord?_of_ne (hne _ (by decide)) n _
  · intro rest hrest
    rw [hchars]
    exact readLiteral?_bool b hrest.name

/-- Only a number without a sign is an operand; a sign stands before it. -/
theorem readsAsOperand_int {m : Int64} (hm : 0 ≤ m.toInt) :
    (const (.int m)).ReadsAsOperand bound := by
  obtain ⟨hne, hdigits⟩ := Decimal.digits_toDigits m.toInt.toNat
  obtain ⟨c, cs, hcs⟩ := List.exists_cons_of_ne_nil hne
  have hc : c.isDigit = true := hdigits c (by rw [hcs]; exact List.mem_cons_self)
  have hchars : (const (.int m)).chars = c :: cs := (toList_text_int hm).trans hcs
  have hvalue : (Literal.int (c :: cs)).value = .ok (.int m) := by
    have hfit : Checked.fit? (Decimal.ofDigits (c :: cs)) = some m := by
      rw [Checked.fit?_eq_some_iff, ← hcs, Decimal.ofDigits_toDigits, Int.toNat_of_nonneg hm]
    rw [Literal.value, hfit]
  refine readsAsOperand_literal hchars (Form.ne_of_isDigit hc rfl) (Form.ne_of_isDigit hc rfl)
    hvalue ?_ ?_
  · intro n rest
    rw [hchars, List.cons_append]
    exact readRecord?_of_ne (Form.ne_of_isDigit hc rfl) n _
  · intro rest hrest
    rw [hchars]
    refine readLiteral?_number (by simp) (by rwa [← hcs]) fun d hd => ⟨?_, ?_⟩
    · rw [Bool.eq_false_iff]
      intro hdigit
      have hname : isNameChar d = true := by simp [isNameChar, Char.isAlphanum, hdigit]
      exact absurd (hrest.name d hd) (by simp [hname])
    · rintro rfl
      obtain ⟨cs, rfl⟩ := List.head?_eq_some_iff.mp hd
      exact (hrest.next '.' rfl).1 rfl

/-- What is escaped for the text of an expression is read without the escape. -/
theorem unescape_quoteChar {c : Char} (hc : ['"', '\\', '\n', '\t'].contains c ∨
    Text.quoteChar c = [c]) (cs : List Char) :
    unescape (Text.quoteChar c ++ cs) = c :: unescape cs := by
  by_cases hescape : ['"', '\\', '\n', '\t'].contains c = true
  · simp only [List.contains_cons, List.contains_nil, Bool.or_false, Bool.or_eq_true,
      beq_iff_eq] at hescape
    rcases hescape with rfl | rfl | rfl | rfl <;> rfl
  · have hslash : c ≠ '\\' := by
      rintro rfl
      exact hescape rfl
    rw [hc.resolve_left hescape, List.singleton_append, unescape]
    · simp [hslash]
    · simp [hslash]

theorem unescape_quoted {cs : List Char}
    (hcs : ∀ c ∈ cs, ['"', '\\', '\n', '\t'].contains c ∨ Text.quoteChar c = [c]) :
    unescape (cs.flatMap Text.quoteChar) = cs := by
  induction cs with
  | nil => rfl
  | cons c cs ih =>
      rw [List.flatMap_cons, unescape_quoteChar (hcs c List.mem_cons_self),
        ih fun d hd => hcs d (List.mem_cons_of_mem _ hd)]

/-- The escapes of a text that can be spelled are undone one by one. -/
theorem readsAsOperand_string {s : String} (hs : Text.isSpelled s = true) :
    (const (.string s)).ReadsAsOperand bound := by
  have hvalue : (Literal.string (s.toList.flatMap Text.quoteChar)).value = .ok (.string s) := by
    rw [Literal.value, unescape_quoted, String.ofList_toList]
    simpa [Text.isSpelled] using hs
  refine readsAsOperand_literal (chars_string s) (by decide) (by decide) hvalue ?_ ?_
  · intro n rest
    rw [chars_string]
    exact readRecord?_of_ne (by decide) n _
  · intro rest _
    rw [chars_string, List.cons_append, List.append_assoc]
    refine readLiteral?_string ?_
    rw [readRaw?_eq_readQuoted?]
    exact Form.readQuoted?_body s.toList rest

theorem readsAsOperand_unary {op : UnOp} (hplain : Plain bound e) (h : e.ReadsAsOperand bound)
    (hneg : op = .neg → e.isNumber = false) : (Expr.unary op e).ReadsAsOperand bound := by
  intro n rest hn hrest
  rw [chars_unary] at hn ⊢
  rw [List.length_cons] at hn
  obtain ⟨n, rfl⟩ := Nat.exists_eq_add_of_le' (show 1 ≤ n by omega)
  obtain ⟨t, hread, ht⟩ := h n rest (by omega) hrest
  exact ⟨_, reads_unary op (hplain.skipBlanks_chars rest) hread, ht.unary hplain hneg⟩

/-- Each operand is read up to the operator or the parenthesis behind it. -/
theorem readsAsOperand_binary {left right : Expr} (hleft : Plain bound left)
    (hright : Plain bound right) (hoperand : left.isLambda = false)
    (hl : left.ReadsAsOperand bound) (hr : right.ReadsAsOperand bound) (op : BinOp) :
    (Expr.binary op left right).ReadsAsOperand bound := by
  intro n rest hn hrest
  rw [chars_binary] at hn ⊢
  simp only [List.length_cons, List.length_append] at hn
  obtain ⟨n, rfl⟩ := Nat.exists_eq_add_of_le' (show 3 ≤ n by omega)
  have hsymbol := follows_symbol op (right.chars ++ ')' :: rest)
  obtain ⟨t, hread, ht⟩ := hl n _ (by omega) hsymbol
  obtain ⟨u, hread', hu⟩ := hr n (')' :: rest) (by omega) (ends_paren rest).follows
  have hblank : skipBlanks (' ' :: (right.chars ++ ')' :: rest)) = right.chars ++ ')' :: rest :=
    hright.skipBlanks_chars _
  have hlambda := hleft.readLambda?_chars hoperand hsymbol n
  have hexpr := reads_binary hlambda hread (by rwa [hblank]) (ends_paren rest)
  have hprimary := readPrimary?_paren (hleft.skipBlanks_chars _) hexpr
  refine ⟨_, ?_, (ht.binary hu hleft hright op).paren⟩
  simpa using reads_primary (by decide) (by decide) hrest hprimary

/-! ## Rows -/

theorem Plain.head?_chars_ne (h : Plain bound e) {c : Char} (hc : isOpening c = false)
    (rest : List Char) : (e.chars ++ rest).head? ≠ some c := by
  obtain ⟨d, ds, hds, hd, -⟩ := h.text_cons
  rw [chars, hds]
  simpa using ne_of_isOpening hd hc

theorem skipBlanks_fields {field : Named Expr} (hname : isIdent field.name = true)
    (fields : List (Named Expr)) (rest : List Char) :
    skipBlanks (' ' :: ((Text.commaSep (fieldTexts (field :: fields))).toList ++ rest)) =
      (Text.commaSep (fieldTexts (field :: fields))).toList ++ rest := by
  obtain ⟨tail, htail⟩ :=
    commaSep_cons (field.name ++ " = " ++ field.value.text) (fieldTexts fields)
  rw [fieldTexts, htail]
  simp only [String.toList_append, List.append_assoc]
  exact skipBlanks_ident hname _

/-- The fields of a row are read up to the closing brace. -/
theorem readInits?_fields {fields : List (Named Expr)} (hne : fields ≠ [])
    (hnames : ∀ field ∈ fields, isIdent field.name = true)
    (hplain : ∀ field ∈ fields, Plain bound field.value)
    (hreads : ∀ field ∈ fields, field.value.ReadsAsExpr bound)
    (hn : 4 * (Text.commaSep (fieldTexts fields)).toList.length ≤ n) :
    ∃ inits more, readInits? n ((Text.commaSep (fieldTexts fields)).toList ++
        ' ' :: '\x7d' :: rest) = some (inits, more) ∧ skipBlanks more = '\x7d' :: rest ∧
      DenotesFields bound inits fields := by
  induction fields generalizing n with
  | nil => exact absurd rfl hne
  | cons field fields ih =>
      obtain ⟨name, e⟩ := field
      have hname : isIdent name = true := hnames ⟨name, e⟩ List.mem_cons_self
      have he : Plain bound e := hplain ⟨name, e⟩ List.mem_cons_self
      have hread : e.ReadsAsExpr bound := hreads ⟨name, e⟩ List.mem_cons_self
      cases fields with
      | nil =>
          have htext : (Text.commaSep (fieldTexts [⟨name, e⟩])).toList =
              name.toList ++ ' ' :: '=' :: ' ' :: e.chars := by
            simp [fieldTexts, Text.commaSep, chars]
          rw [htext] at hn ⊢
          simp only [List.length_append, List.length_cons] at hn
          obtain ⟨n, rfl⟩ := Nat.exists_eq_add_of_le' (show 1 ≤ n by omega)
          obtain ⟨t, ht, hdenotes⟩ := hread n (' ' :: '\x7d' :: rest) (by omega) (ends_brace rest)
          obtain ⟨source, more, hinits, hmore⟩ := readInits?_singleton hname
            (he.skipBlanks_chars _) (he.head?_chars_ne rfl _) ht (by rintro _ ⟨⟩; decide)
          exact ⟨_, more, by simpa using hinits, hmore, .cons ⟨rfl, hdenotes⟩ .nil⟩
      | cons field' fields =>
          have htext : (Text.commaSep (fieldTexts (⟨name, e⟩ :: field' :: fields))).toList =
              name.toList ++ ' ' :: '=' :: ' ' :: (e.chars ++ ',' :: ' ' ::
                (Text.commaSep (fieldTexts (field' :: fields))).toList) := by
            simp [fieldTexts, Text.commaSep, Text.joinWith_cons_cons, chars]
          rw [htext] at hn ⊢
          simp only [List.length_append, List.length_cons] at hn
          obtain ⟨n, rfl⟩ := Nat.exists_eq_add_of_le' (show 1 ≤ n by omega)
          obtain ⟨t, ht, hdenotes⟩ := hread n (',' :: ' ' :: ((Text.commaSep
            (fieldTexts (field' :: fields))).toList ++ ' ' :: '\x7d' :: rest)) (by omega)
            (ends_comma _)
          obtain ⟨inits, more, hinits, hmore, hfields⟩ := ih (n := n) (by simp)
            (fun x hx => hnames x (List.mem_cons_of_mem _ hx))
            (fun x hx => hplain x (List.mem_cons_of_mem _ hx))
            (fun x hx => hreads x (List.mem_cons_of_mem _ hx)) (by omega)
          rw [← skipBlanks_fields (hnames field' (by simp))] at hinits
          obtain ⟨source, hinits⟩ := readInits?_cons hname (he.skipBlanks_chars _)
            (he.head?_chars_ne rfl _) ht hinits
          exact ⟨_, more, by simpa using hinits, hmore, .cons ⟨rfl, hdenotes⟩ hfields⟩

/-- The fields of a row read back in their order, each behind its name. -/
theorem readsAsOperand_record {fields : List (Named Expr)}
    (hnames : ∀ field ∈ fields, isIdent field.name = true)
    (hplain : ∀ field ∈ fields, Plain bound field.value)
    (hreads : ∀ field ∈ fields, field.value.ReadsAsExpr bound) :
    (Expr.record fields).ReadsAsOperand bound := by
  intro n rest hn hrest
  rw [chars_record] at hn ⊢
  simp only [List.length_cons, List.length_append] at hn
  obtain ⟨n, rfl⟩ := Nat.exists_eq_add_of_le' (show 3 ≤ n by omega)
  obtain ⟨inits, hread, hfields⟩ : ∃ inits,
      readRecord? (n + 1) ('n' :: 'e' :: 'w' :: ' ' :: '\x7b' :: ' ' ::
        ((Text.commaSep (fieldTexts fields)).toList ++ ' ' :: '\x7d' :: rest)) =
          some (.record inits, rest) ∧ DenotesFields bound inits fields := by
    cases fields with
    | nil => exact ⟨[], readRecord?_nil n rest, .nil⟩
    | cons field fields =>
        obtain ⟨inits, more, hinits, hmore, hfields⟩ := readInits?_fields (n := n) (by simp)
          hnames hplain hreads (by omega)
        exact ⟨inits, readRecord?_fields (skipBlanks_fields (hnames field List.mem_cons_self) _ _)
          hinits hmore, hfields⟩
  refine ⟨_, ?_, hfields.record⟩
  simpa using reads_primary (by decide) (by decide) hrest (readPrimary?_record hread)

/-! ## Lambdas -/

/-- Parameters without types read back by their names. -/
theorem readParams?_paramsText {names : List String} (hnames : ∀ name ∈ names, isIdent name = true)
    (cs : List Char) :
    readParams? ((paramsText (names.map fun name => ⟨name, .unknown⟩)).toList ++ ' ' :: cs) =
      some (names, ' ' :: cs) := by
  by_cases hsingle : ∃ p, (names.map fun name => (⟨name, .unknown⟩ : Binder)) = [p]
  · obtain ⟨p, hp⟩ := hsingle
    obtain ⟨name, rfl, rfl⟩ := List.map_eq_singleton_iff.mp hp
    exact readParams?_name (hnames name (by simp)) (wordEnds_blank cs)
  · have htext : (paramsText (names.map fun name => ⟨name, .unknown⟩)).toList ++ ' ' :: cs =
        '(' :: ((Text.commaSep names).toList ++ ')' :: ' ' :: cs) := by
      have hmap : (names.map fun name => (⟨name, .unknown⟩ : Binder)).map Binder.name = names := by
        simp [Function.comp_def]
      simp [paramsText_of_ne hsingle, hmap]
    rw [htext]
    exact readParams?_names hnames (' ' :: cs)

/-- The body is read where any expression can stand. -/
theorem readsAsExpr_lambda {names : List String} (hnames : ∀ name ∈ names, isIdent name = true)
    (hplain : Plain (names ++ bound) e) (h : e.ReadsAsExpr (names ++ bound)) :
    (Expr.lambda (names.map fun name => ⟨name, .unknown⟩) e).ReadsAsExpr bound := by
  intro n rest hn hrest
  have htext : (Expr.lambda (names.map fun name => ⟨name, .unknown⟩) e).chars ++ rest =
      (paramsText (names.map fun name => ⟨name, .unknown⟩)).toList ++
        ' ' :: '=' :: '>' :: ' ' :: (e.chars ++ rest) := by simp [chars]
  have hlength := congrArg List.length htext
  simp only [List.length_append, List.length_cons] at hlength
  obtain ⟨n, rfl⟩ := Nat.exists_eq_add_of_le' (show 2 ≤ n by omega)
  obtain ⟨t, hread, ht⟩ := h n rest (by omega) hrest
  have harrow : readToken? ['=', '>'] (skipBlanks (' ' :: '=' :: '>' :: ' ' :: (e.chars ++ rest))) =
      some (' ' :: (e.chars ++ rest)) := Form.readToken?_append ['=', '>'] _
  have hblank : skipBlanks (' ' :: (e.chars ++ rest)) = e.chars ++ rest :=
    hplain.skipBlanks_chars rest
  rw [htext]
  exact ⟨_, reads_lambda (readParams?_paramsText hnames _) harrow (by rwa [hblank]), ht.lambda⟩

theorem Plain.readsAsExpr (h : Plain bound e) (hoperand : e.isLambda = false)
    (hreads : e.ReadsAsOperand bound) : e.ReadsAsExpr bound := by
  intro n rest hn hrest
  obtain ⟨n, rfl⟩ := Nat.exists_eq_add_of_le' (show 1 ≤ n by omega)
  obtain ⟨t, hread, ht⟩ := hreads n rest (by omega) hrest.follows
  exact ⟨t, reads_operand (h.readLambda?_chars hoperand hrest.follows n) hread hrest, ht⟩

/-- Every plain expression is read where it can stand: all but lambdas as operands. -/
theorem Plain.reads (h : Plain bound e) :
    (e.isLambda = false → e.ReadsAsOperand bound) ∧ e.ReadsAsExpr bound := by
  have hoperand : ∀ {bound e}, Plain bound e → e.isLambda = false → e.ReadsAsOperand bound →
      (e.isLambda = false → e.ReadsAsOperand bound) ∧ e.ReadsAsExpr bound :=
    fun h hlambda hreads => ⟨fun _ => hreads, h.readsAsExpr hlambda hreads⟩
  induction h with
  | parameter hname hbound =>
      have h := Plain.parameter hname hbound
      exact hoperand h rfl (h.readsAsOperand_path rfl)
  | member htarget hpath hname _ =>
      have h := Plain.member htarget hpath hname
      exact hoperand h rfl (h.readsAsOperand_path rfl)
  | null => exact hoperand .null rfl readsAsOperand_null
  | bool b => exact hoperand (.bool b) rfl (readsAsOperand_bool b)
  | int n hn => exact hoperand (.int n hn) rfl (readsAsOperand_int hn)
  | string s hs => exact hoperand (.string s hs) rfl (readsAsOperand_string hs)
  | binary op hleft hright hl hr ihl ihr =>
      exact hoperand (.binary op hleft hright hl hr) rfl
        (readsAsOperand_binary hleft hright hl (ihl.1 hl) (ihr.1 hr) op)
  | unary op h hlambda hneg ih =>
      exact hoperand (.unary op h hlambda hneg) rfl (readsAsOperand_unary h (ih.1 hlambda) hneg)
  | record hnames hfields ih =>
      exact hoperand (.record hnames hfields) rfl
        (readsAsOperand_record hnames hfields fun field hfield => (ih field hfield).2)
  | lambda hnames hbody ih => exact ⟨nofun, readsAsExpr_lambda hnames hbody ih.2⟩

theorem Plain.parse_text (h : Plain [] e) (env : Env) : parse env e.text = .ok e := by
  obtain ⟨t, ⟨more, hread, hmore⟩, ht⟩ := h.reads.2 (8 * e.chars.length + 8) [] (by omega) ends_nil
  have hblank := h.skipBlanks_chars []
  rw [List.append_nil] at hread hblank
  have htree : QueryText.read? e.text = some t := by
    simp only [QueryText.read?]
    rw [hblank, hread]
    exact if_pos hmore
  rw [parse, htree]
  exact ht env [] nofun

/-- Parsing inverts the text of plain expressions. So different ones have different texts. -/
theorem parse_text_of_plain (h : Plain [] e) :
    (∀ env, parse env e.text = .ok e) ∧
      ∀ e', Plain [] e' → e'.text = e.text → e' = e := by
  refine ⟨h.parse_text, fun e' h' htext => ?_⟩
  have hparse := h'.parse_text ⟨⟨fun _ _ => none, fun _ => none⟩, none⟩
  rw [htext, h.parse_text] at hparse
  exact (Except.ok.inj hparse).symm

/-- A lambda in a row, a string with escapes and a negated member. -/
theorem parse_text_of_row :
    let p : Expr := .parameter "p" .unknown
    let adult : Expr := .binary .ge (.member p "Age" .unknown) (.const (.int 18))
    let later : Expr :=
      .binary .sub (.unary .neg (.member p "Age" .unknown)) (.parameter "n" .unknown)
    let e : Expr := .lambda [⟨"p", .unknown⟩] (.record [⟨"Minor", .unary .not adult⟩,
      ⟨"Later", .lambda [⟨"n", .unknown⟩, ⟨"m", .unknown⟩] later⟩,
      ⟨"Label", .const (.string "a \"b\"")⟩])
    Plain [] e ∧
      e.text = "p => new \x7b Minor = !(p.Age >= 18), Later = (n, m) => (-p.Age - n), " ++
        "Label = \"a \\\"b\\\"\" \x7d" ∧
      (∀ env, parse env e.text = .ok e) ∧ ∀ e', Plain [] e' → e'.text = e.text → e' = e := by
  intro p adult later e
  have hage : ∀ {bound}, "p" ∈ bound → Plain bound (.member p "Age" .unknown) := fun hp =>
    .member (.parameter (by decide) hp) rfl (by decide)
  have hadult : Plain ["p"] adult := .binary .ge (hage (by simp)) (.int 18 (by decide)) rfl rfl
  have hlater : Plain ["n", "m", "p"] later :=
    .binary .sub (.unary .neg (hage (by simp)) rfl fun _ => rfl)
      (.parameter (by decide) (by simp)) rfl rfl
  have hlabel : Plain ["p"] (.const (.string "a \"b\"")) := .string _ (by decide)
  have h : Plain [] e := by
    refine @Plain.lambda [] ["p"] _ (by decide) (.record (by decide) ?_)
    intro field hfield
    simp only [List.mem_cons, List.not_mem_nil, or_false] at hfield
    rcases hfield with rfl | rfl | rfl
    · exact .unary .not hadult rfl nofun
    · exact @Plain.lambda ["p"] ["n", "m"] _ (by decide) hlater
    · exact hlabel
  exact ⟨h, rfl, parse_text_of_plain h⟩

end Expr

end DeferredQuery
