import DeferredQuery.Proofs.Expr.Form

/-!
# Steps of the query text reader

What each reader does at a text that begins with what it looks for, whatever follows. Blanks
behind an operand may be taken or left, so results are compared up to them.
-/

namespace DeferredQuery.QueryText

open Form (isWord isWord_cons readToken?_append readToken?_of_ne word_append)

variable {n : Nat} {cs more tail rest : List Char} {t u : Tree}

/-! ## Blanks -/

theorem skipBlanks_cons {c : Char} (hc : isBlank c = false) (cs : List Char) :
    skipBlanks (c :: cs) = c :: cs := by simp [skipBlanks, hc]

@[simp] theorem skipBlanks_idem (cs : List Char) : skipBlanks (skipBlanks cs) = skipBlanks cs :=
  List.dropWhile_idempotent isBlank cs

theorem isBlank_of_isNameChar {c : Char} (hc : isNameChar c = true) : isBlank c = false := by
  rw [Bool.eq_false_iff]
  intro hblank
  simp only [isBlank, Bool.or_eq_true, beq_iff_eq] at hblank
  rcases hblank with ((rfl | rfl) | rfl) | rfl <;> exact absurd hc (by decide)

/-- A text is read as a tree, and what is left is `rest` up to blanks. -/
def Reads (reader : TreeReader) (cs : List Char) (t : Tree) (rest : List Char) : Prop :=
  ∃ more, reader cs = some (t, more) ∧ skipBlanks more = skipBlanks rest

/-! ## Operators -/

section Operators

variable {ops : List (List Char × BinOp)} {fuel : List Char → Nat} {operand : TreeReader}
  {op : BinOp}

def readLevel? (ops : List (List Char × BinOp)) (fuel : List Char → Nat) (operand : TreeReader) :
    TreeReader := fun cs =>
  (operand cs).map fun (left, rest) =>
    readChainRest ops operand (fuel rest) left (skipBlanks rest)

theorem readOperators?_eq (operand : TreeReader) :
    readOperators? operand = readLevel? orOps List.length (readLevel? andOps List.length
      (readLevel? comparisonOps (fun _ => 1) (readLevel? additiveOps List.length
        (readLevel? multiplicativeOps List.length operand)))) := rfl

theorem readChainRest_of_none (h : readOp? ops (skipBlanks rest) = none) (n : Nat) :
    readChainRest ops operand n t rest = (t, rest) := by
  cases n with
  | zero => rfl
  | succ n => rw [readChainRest, h]

/-- A level of the grammar passes on an operand that none of its operators follows. -/
theorem Reads.level (h : Reads operand cs t rest) (hrest : readOp? ops (skipBlanks rest) = none) :
    Reads (readLevel? ops fuel operand) cs t rest := by
  obtain ⟨more, hread, hmore⟩ := h
  refine ⟨skipBlanks more, ?_, by rw [skipBlanks_idem, hmore]⟩
  rw [readLevel?, hread]
  exact congrArg some (readChainRest_of_none (by rwa [skipBlanks_idem, hmore]) _)

/-- A level of the grammar joins two operands with one of its operators between them. -/
theorem Reads.level_binary (hfuel : ∀ c cs, fuel (c :: cs) ≠ 0)
    (h : Reads operand cs t rest) (hop : readOp? ops (skipBlanks rest) = some (op, more))
    (hnil : readOp? ops [] = none) (hright : Reads operand (skipBlanks more) u tail)
    (htail : readOp? ops (skipBlanks tail) = none) :
    Reads (readLevel? ops fuel operand) cs (.binary op t u) tail := by
  obtain ⟨left, hread, hleft⟩ := h
  obtain ⟨right, hread', hright⟩ := hright
  refine ⟨right, ?_, hright⟩
  have hne : fuel left ≠ 0 := by
    cases left with
    | nil =>
        rw [← hleft] at hop
        cases hnil.symm.trans hop
    | cons c cs => exact hfuel c cs
  obtain ⟨k, hk⟩ := Nat.exists_eq_succ_of_ne_zero hne
  rw [readLevel?, hread]
  simp only [Option.map_some, hk, readChainRest, skipBlanks_idem, hleft, hop, hread']
  rw [readChainRest_of_none (by rwa [hright])]

structure Ends (rest : List Char) : Prop where
  name : ∀ c ∈ rest.head?, isNameChar c = false
  next : ∀ c ∈ (skipBlanks rest).head?, c = ')' ∨ c = ',' ∨ c = '\x7d'

theorem Ends.readToken? (h : Ends rest) {c : Char} (hc : ¬(c = ')' ∨ c = ',' ∨ c = '\x7d'))
    (token : List Char) : readToken? (c :: token) (skipBlanks rest) = none := by
  have hnext := h.next
  cases hrest : skipBlanks rest with
  | nil => rfl
  | cons d ds =>
      rw [hrest] at hnext
      refine readToken?_of_ne ?_ _ _
      rintro rfl
      exact hc (hnext d rfl)

theorem Ends.readOp? (h : Ends rest)
    (hops : ∀ op ∈ ops, ∃ c token, op.1 = c :: token ∧ ¬(c = ')' ∨ c = ',' ∨ c = '\x7d')) :
    readOp? ops (skipBlanks rest) = none := by
  refine List.findSome?_eq_none_iff.mpr fun op hop => ?_
  obtain ⟨c, token, hc, hclose⟩ := hops op hop
  rw [hc, h.readToken? hclose]
  rfl

theorem Ends.operators (h : Ends rest) :
    (QueryText.readOp? orOps (skipBlanks rest) = none ∧
      QueryText.readOp? andOps (skipBlanks rest) = none) ∧
    QueryText.readOp? comparisonOps (skipBlanks rest) = none ∧
    QueryText.readOp? additiveOps (skipBlanks rest) = none ∧
    QueryText.readOp? multiplicativeOps (skipBlanks rest) = none := by
  refine ⟨⟨?_, ?_⟩, ?_, ?_, ?_⟩ <;> refine h.readOp? ?_ <;>
    simp [orOps, andOps, comparisonOps, additiveOps, multiplicativeOps]

theorem Reads.operators (h : Reads operand cs t rest) (hrest : Ends rest) :
    Reads (readOperators? operand) cs t rest := by
  obtain ⟨⟨hor, hand⟩, hcomparison, hadditive, hmultiplicative⟩ := hrest.operators
  rw [readOperators?_eq]
  exact ((((h.level hmultiplicative).level hadditive).level hcomparison).level hand).level hor

/-- Two operands with an operator between them are read at the level of the operator. -/
theorem Reads.operators_binary
    (h : Reads operand cs t (' ' :: (op.symbol.toList ++ ' ' :: more)))
    (hright : Reads operand (skipBlanks (' ' :: more)) u rest) (hrest : Ends rest) :
    Reads (readOperators? operand) cs (.binary op t u) rest := by
  obtain ⟨⟨hor, hand⟩, hcomparison, hadditive, hmultiplicative⟩ := hrest.operators
  have hlength : ∀ c (cs : List Char), (c :: cs).length ≠ 0 := by simp
  have hone : ∀ c (cs : List Char), (fun _ : List Char => 1) (c :: cs) ≠ 0 := by simp
  rw [readOperators?_eq]
  cases op with
  | mul | div | mod =>
      exact ((((h.level_binary hlength rfl rfl hright hmultiplicative).level hadditive).level
        hcomparison).level hand).level hor
  | add | sub =>
      exact ((((h.level rfl).level_binary hlength rfl rfl (hright.level hmultiplicative)
        hadditive).level hcomparison).level hand).level hor
  | eq | ne | lt | le | gt | ge =>
      exact ((((h.level rfl).level rfl).level_binary hone rfl rfl
        ((hright.level hmultiplicative).level hadditive) hcomparison).level hand).level hor
  | and =>
      exact ((((h.level rfl).level rfl).level rfl).level_binary hlength rfl rfl
        (((hright.level hmultiplicative).level hadditive).level hcomparison) hand).level hor
  | or =>
      exact ((((h.level rfl).level rfl).level rfl).level rfl).level_binary hlength rfl rfl
        ((((hright.level hmultiplicative).level hadditive).level hcomparison).level hand) hor

end Operators

/-! ## Names and literals -/

def isIdent (s : String) : Bool := isWord s && !keywords.contains s

def WordEnds (rest : List Char) : Prop := ∀ c ∈ rest.head?, isNameChar c = false

theorem wordEnds_of_cons {c : Char} (hc : isNameChar c = false) (cs : List Char) :
    WordEnds (c :: cs) := by
  rintro _ ⟨⟩
  exact hc

theorem wordEnds_dot (cs : List Char) : WordEnds ('.' :: cs) := wordEnds_of_cons rfl cs

theorem wordEnds_blank (cs : List Char) : WordEnds (' ' :: cs) := wordEnds_of_cons rfl cs

theorem wordEnds_comma (cs : List Char) : WordEnds (',' :: cs) := wordEnds_of_cons rfl cs

theorem wordEnds_paren (cs : List Char) : WordEnds (')' :: cs) := wordEnds_of_cons rfl cs

theorem isIdent_cons {s : String} (hs : isIdent s = true) :
    ∃ c cs, s.toList = c :: cs ∧ isNameStart c = true := by
  obtain ⟨c, cs, hcs, hstart, -⟩ := isWord_cons ((Bool.and_eq_true _ _).mp hs).1
  exact ⟨c, cs, hcs, hstart⟩

theorem skipBlanks_ident {s : String} (hs : isIdent s = true) (cs : List Char) :
    skipBlanks (s.toList ++ cs) = s.toList ++ cs := by
  obtain ⟨c, ds, hds, hstart⟩ := isIdent_cons hs
  rw [hds, List.cons_append]
  exact skipBlanks_cons (isBlank_of_isNameChar (Form.isNameChar_of_isNameStart hstart)) _

theorem readName?_ident {s : String} (hs : isIdent s = true) (hrest : WordEnds rest) :
    readName? (s.toList ++ rest) = some (s, rest) := by
  obtain ⟨hword, hkey⟩ := (Bool.and_eq_true _ _).mp hs
  obtain ⟨hs', hafter⟩ := word_append hword hrest
  rw [Form.afterName] at hafter
  obtain ⟨c, cs, hcs, hstart⟩ := isIdent_cons hs
  rw [hcs, List.cons_append] at hs' hafter ⊢
  rw [readName?, hs', hafter, hstart, hkey]
  rfl

theorem readName?_of_not_start {c : Char} (hc : isNameStart c = false) (cs : List Char) :
    readName? (c :: cs) = none := by rw [readName?, hc]; rfl

theorem readName?_keyword {s : String} (hs : s ∈ keywords) (hrest : WordEnds rest) :
    readName? (s.toList ++ rest) = none := by
  have hword : isWord s = true := by
    simp only [keywords, List.mem_cons, List.not_mem_nil, or_false] at hs
    rcases hs with rfl | rfl | rfl | rfl <;> decide
  obtain ⟨hs', -⟩ := word_append hword hrest
  obtain ⟨c, cs, hcs, -, -⟩ := isWord_cons hword
  rw [hcs, List.cons_append] at hs' ⊢
  simp [readName?, hs', hs]

/-- Words begin as the text does. -/
theorem word_ne {c : Char} {s : String} (hs : ∀ d ∈ s.toList.head?, d ≠ c) (hne : s ≠ "")
    (cs : List Char) : word (c :: cs) ≠ s := by
  rintro rfl
  cases hc : isNameChar c with
  | true => exact hs c (by simp [word, hc]) rfl
  | false => exact hne (by simp [word, hc])

theorem readLiteral?_null (hrest : WordEnds rest) :
    readLiteral? ("null".toList ++ rest) = some (.null, rest) := by
  obtain ⟨hword, hafter⟩ := @word_append "null" (by decide) rest hrest
  rw [Form.afterName] at hafter
  unfold readLiteral?
  rw [hword, hafter]
  rfl

theorem readLiteral?_bool (b : Bool) (hrest : WordEnds rest) :
    readLiteral? ((if b then "true" else "false").toList ++ rest) = some (.bool b, rest) := by
  have hs : isWord (if b then "true" else "false") = true := by cases b <;> decide
  obtain ⟨hword, hafter⟩ := word_append hs hrest
  rw [Form.afterName] at hafter
  unfold readLiteral?
  rw [hword, hafter]
  cases b <;> rfl

def IsLiteralWord (s : String) : Prop := s = "null" ∨ s = "true" ∨ s = "false"

theorem not_isLiteralWord {c : Char} (hc : c ∉ ['n', 't', 'f']) (cs : List Char) :
    ¬IsLiteralWord (word (c :: cs)) := by
  have hne : ∀ s : String, s.toList.head?.any (['n', 't', 'f'].contains ·) = true → s ≠ "" →
      word (c :: cs) ≠ s := by
    intro s hs hempty
    refine word_ne (fun d hd => ?_) hempty cs
    rintro rfl
    rw [Option.mem_def] at hd
    simp only [hd, Option.any_some, List.contains_iff_mem] at hs
    exact hc hs
  rintro (h | h | h) <;> exact hne _ (by decide) (by decide) h

/-- Digits without a point after them are a whole number. -/
theorem readLiteral?_number {ds : List Char} (hne : ds ≠ []) (hds : ∀ d ∈ ds, d.isDigit = true)
    (hrest : ∀ c ∈ rest.head?, c.isDigit = false ∧ c ≠ '.') :
    readLiteral? (ds ++ rest) = some (.int ds, rest) := by
  obtain ⟨c, cs, rfl⟩ := List.exists_cons_of_ne_nil hne
  have hword : ¬IsLiteralWord (word (c :: (cs ++ rest))) := by
    refine not_isLiteralWord (fun hc => ?_) _
    have hdigit := hds c (by simp)
    simp only [List.mem_cons, List.not_mem_nil, or_false] at hc
    rcases hc with rfl | rfl | rfl <;> exact absurd hdigit (by decide)
  have htake : (c :: cs ++ rest).takeWhile Char.isDigit = c :: cs := by
    rw [List.takeWhile_append_of_pos hds]
    cases rest with
    | nil => simp
    | cons d rest => simp [(hrest d rfl).1]
  have hdrop : (c :: cs ++ rest).dropWhile Char.isDigit = rest := by
    rw [List.dropWhile_append_of_pos hds]
    cases rest with
    | nil => simp
    | cons d rest => simp [(hrest d rfl).1]
  unfold readLiteral?
  split
  · exact absurd (.inl ‹_›) hword
  · exact absurd (.inr (.inl ‹_›)) hword
  · exact absurd (.inr (.inr ‹_›)) hword
  · dsimp only
    rw [htake, hdrop, if_pos hne]
    split
    · exact absurd rfl (hrest '.' rfl).2
    · rfl

theorem readLiteral?_string {raw : List Char} (h : readRaw? cs = some (raw, rest)) :
    readLiteral? ('"' :: cs) = some (.string raw, rest) := by
  have hword : ¬IsLiteralWord (word ('"' :: cs)) := not_isLiteralWord (by decide) _
  unfold readLiteral?
  split
  · exact absurd (.inl ‹_›) hword
  · exact absurd (.inr (.inl ‹_›)) hword
  · exact absurd (.inr (.inr ‹_›)) hword
  · dsimp only
    rw [if_neg (by simp)]
    exact congrArg (Option.map fun r => (Literal.string r.1, r.2)) h

theorem readLiteral?_eq_none {c : Char} (hword : ¬IsLiteralWord (word (c :: cs)))
    (hdigit : c.isDigit = false) (hquote : c ≠ '"') : readLiteral? (c :: cs) = none := by
  unfold readLiteral?
  split
  · exact absurd (.inl ‹_›) hword
  · exact absurd (.inr (.inl ‹_›)) hword
  · exact absurd (.inr (.inr ‹_›)) hword
  · dsimp only
    rw [if_neg (by simp [hdigit])]
    split
    · next heq => exact absurd (List.cons.inj heq).1 hquote
    · rfl

theorem readLiteral?_ident {s : String} (hs : isIdent s = true) (hrest : WordEnds rest) :
    readLiteral? (s.toList ++ rest) = none := by
  obtain ⟨hword, hkey⟩ := (Bool.and_eq_true _ _).mp hs
  obtain ⟨hs', -⟩ := word_append hword hrest
  obtain ⟨c, cs, hcs, hstart⟩ := isIdent_cons hs
  rw [hcs, List.cons_append] at hs' ⊢
  refine readLiteral?_eq_none ?_ (Form.isDigit_of_isNameStart hstart) ?_
  · rw [hs']
    rintro (rfl | rfl | rfl) <;> exact absurd hkey (by decide)
  · rintro rfl
    exact absurd hstart (by decide)

/-- A backslash keeps the character after it, here as in forms. -/
theorem readRaw?_eq_readQuoted? (cs : List Char) : readRaw? cs = Form.readQuoted? cs := by
  fun_induction readRaw? cs <;> simp_all [Form.readQuoted?]

/-! ## Operands -/

theorem readRecord?_of_ne {c : Char} (hc : c ≠ 'n') (n : Nat) (cs : List Char) :
    readRecord? n (c :: cs) = none := by
  cases n with
  | zero => rfl
  | succ n => rw [readRecord?, readToken?_of_ne hc]; rfl

theorem eq_append_of_readToken? {token : List Char} (h : readToken? token cs = some rest) :
    cs = token ++ rest := by
  rw [readToken?] at h
  split at h
  · next hprefix =>
      cases h
      exact (List.prefix_iff_eq_append.mp (List.isPrefixOf_iff_prefix.mp hprefix)).symm
  · cases h

/-- A name does not begin a row. -/
theorem readRecord?_ident {s : String} (hs : isIdent s = true) (hrest : WordEnds rest) (n : Nat) :
    readRecord? n (s.toList ++ rest) = none := by
  cases n with
  | zero => rfl
  | succ n =>
      rw [readRecord?]
      cases hnew : readToken? ['n', 'e', 'w'] (s.toList ++ rest) with
      | none => rfl
      | some more =>
          obtain ⟨hword, hkey⟩ := (Bool.and_eq_true _ _).mp hs
          have hs' := (word_append hword hrest).1
          rw [eq_append_of_readToken? hnew] at hs'
          cases more with
          | nil => rfl
          | cons d more =>
              have hd : isNameChar d = true := by
                by_contra hd
                obtain rfl : s = "new" := by
                  have hletters : ∀ d ∈ ['n', 'e', 'w'], isNameChar d = true := by
                    simp [isNameChar]
                  rw [← hs', word, List.takeWhile_append_of_pos hletters,
                    List.takeWhile_cons_of_neg hd]
                  rfl
                exact absurd hkey (by decide)
              have hbrace : d ≠ '\x7b' := by
                rintro rfl
                exact absurd hd (by decide)
              simp [skipBlanks_cons (isBlank_of_isNameChar hd), readToken?_of_ne hbrace]

/-- What may follow a name or a literal, so that it ends there. -/
structure Follows (rest : List Char) : Prop where
  name : WordEnds rest
  next : ∀ c ∈ (skipBlanks rest).head?, c ≠ '.' ∧ c ≠ '('
  arrow : readToken? ['=', '>'] (skipBlanks rest) = none

theorem Ends.follows (h : Ends rest) : Follows rest := by
  refine ⟨h.name, fun c hc => ?_, h.readToken? (by decide) _⟩
  rcases h.next c hc with rfl | rfl | rfl <;> decide

theorem ends_nil : Ends [] := ⟨nofun, nofun⟩

theorem ends_paren (rest : List Char) : Ends (')' :: rest) := by
  refine ⟨wordEnds_paren rest, ?_⟩
  rintro _ ⟨⟩
  exact .inl rfl

theorem ends_comma (rest : List Char) : Ends (',' :: rest) := by
  refine ⟨wordEnds_comma rest, ?_⟩
  rintro _ ⟨⟩
  exact .inr (.inl rfl)

theorem ends_brace (rest : List Char) : Ends (' ' :: '\x7d' :: rest) := by
  refine ⟨wordEnds_blank _, ?_⟩
  rintro _ ⟨⟩
  exact .inr (.inr rfl)

theorem follows_symbol (op : BinOp) (rest : List Char) :
    Follows (' ' :: (op.symbol.toList ++ ' ' :: rest)) := by
  refine ⟨wordEnds_blank _, ?_, ?_⟩
  · cases op <;> (rintro _ ⟨⟩; decide)
  · cases op <;> rfl

theorem readToken?_of_head? {d : Char} (h : ∀ c ∈ cs.head?, c ≠ d) : readToken? [d] cs = none := by
  cases cs with
  | nil => rfl
  | cons c cs => exact readToken?_of_ne (h c rfl) _ _

theorem readSuffixes_of_ne (h : ∀ c ∈ (skipBlanks rest).head?, c ≠ '.') (n : Nat) :
    readSuffixes n t rest = (t, rest) := by
  cases n with
  | zero => rfl
  | succ n => rw [readSuffixes, readToken?_of_head? h]

theorem readArgs?_of_ne (h : ∀ c ∈ (skipBlanks rest).head?, c ≠ '(') (n : Nat) :
    readArgs? n rest = none := by
  cases n with
  | zero => rfl
  | succ n => rw [readArgs?, readToken?_of_head? h]; rfl

/-- A member of what is already read. -/
theorem readSuffixes_member {name : String} (hname : isIdent name = true) (hrest : WordEnds rest)
    (hopen : ∀ c ∈ (skipBlanks rest).head?, c ≠ '(')
    (hcs : skipBlanks cs = '.' :: (name.toList ++ rest)) (n : Nat) :
    readSuffixes (n + 1) t cs = readSuffixes n (.member t name) rest := by
  have hdot : readToken? ['.'] (skipBlanks cs) = some (name.toList ++ rest) := by
    rw [hcs]
    exact readToken?_append ['.'] _
  rw [readSuffixes, hdot]
  dsimp only
  rw [skipBlanks_ident hname, readName?_ident hname hrest]
  dsimp only
  rw [readArgs?_of_ne hopen]

theorem readUnary?_of_ne {c : Char} (hnot : c ≠ '!') (hneg : c ≠ '-')
    (h : readPrimary? n (c :: cs) = some (t, rest)) :
    readUnary? (n + 1) (c :: cs) = some (readSuffixes n t (skipBlanks rest)) := by
  unfold readUnary?
  split
  · next heq => exact absurd (List.cons.inj heq).1 hnot
  · next heq => exact absurd (List.cons.inj heq).1 hneg
  · simp [h]

theorem reads_unary (op : UnOp) (hcs : skipBlanks cs = cs) (h : Reads (readUnary? n) cs t rest) :
    Reads (readUnary? (n + 1)) ((if op = .not then '!' else '-') :: cs) (.unary op t) rest := by
  obtain ⟨more, hread, hmore⟩ := h
  refine ⟨more, ?_, hmore⟩
  cases op <;> simp [readUnary?, hcs, hread]

/-- A primary expression that no member follows is an operand. -/
theorem reads_primary {c : Char} (hnot : c ≠ '!') (hneg : c ≠ '-') (hrest : Follows rest)
    (h : readPrimary? n (c :: cs) = some (t, rest)) :
    Reads (readUnary? (n + 1)) (c :: cs) t rest := by
  refine ⟨skipBlanks rest, ?_, skipBlanks_idem rest⟩
  rw [readUnary?_of_ne hnot hneg h, readSuffixes_of_ne]
  simpa using fun c hc => (hrest.next c hc).1

theorem readPrimary?_literal {l : Literal} (hrecord : readRecord? n cs = none)
    (h : readLiteral? cs = some (l, rest)) : readPrimary? (n + 1) cs = some (.literal l, rest) := by
  rw [readPrimary?, hrecord, h]

theorem readPrimary?_name {name : String} (hname : isIdent name = true) (hrest : WordEnds rest)
    (n : Nat) : readPrimary? (n + 1) (name.toList ++ rest) = some (.name name, rest) := by
  rw [readPrimary?, readRecord?_ident hname hrest, readLiteral?_ident hname hrest,
    readName?_ident hname hrest]

theorem readPrimary?_record (h : readRecord? n cs = some (t, rest)) :
    readPrimary? (n + 1) cs = some (t, rest) := by rw [readPrimary?, h]

/-- A parenthesis is the start of no other primary expression. -/
theorem readPrimary?_open (n : Nat) (cs : List Char) :
    readPrimary? (n + 1) ('(' :: cs) = (readExpr? n (skipBlanks cs)).bind fun r =>
      (readToken? [')'] (skipBlanks r.2)).bind fun rest => some (.paren r.1, rest) := by
  have hliteral : readLiteral? ('(' :: cs) = none :=
    readLiteral?_eq_none (not_isLiteralWord (by decide) cs) rfl (by decide)
  rw [readPrimary?, readRecord?_of_ne (by decide), hliteral, readName?_of_not_start rfl]
  rfl

theorem readPrimary?_paren (hcs : skipBlanks cs = cs)
    (h : Reads (readExpr? n) cs t (')' :: rest)) :
    readPrimary? (n + 1) ('(' :: cs) = some (.paren t, rest) := by
  obtain ⟨more, hread, hmore⟩ := h
  have hclose : readToken? [')'] (skipBlanks more) = some rest := by
    rw [hmore]
    exact readToken?_append [')'] rest
  rw [readPrimary?_open, hcs, hread, Option.bind_some, hclose]
  rfl

/-! ## Lambdas -/

theorem commaSep_cons_cons (s t : String) (ss : List String) :
    (Text.commaSep (s :: t :: ss)).toList =
      s.toList ++ ',' :: ' ' :: (Text.commaSep (t :: ss)).toList := by
  simp [Text.commaSep, Text.joinWith_cons_cons]

theorem commaSep_cons (s : String) (ss : List String) :
    ∃ tail, (Text.commaSep (s :: ss)).toList = s.toList ++ tail := by
  cases ss with
  | nil => exact ⟨[], by simp [Text.commaSep]⟩
  | cons t ss => exact ⟨_, commaSep_cons_cons s t ss⟩

theorem length_le_commaSep (ss : List String) :
    ss.length ≤ (Text.commaSep ss).toList.length + 1 := by
  induction ss with
  | nil => simp
  | cons s ss ih =>
      cases ss with
      | nil => simp
      | cons t ss =>
          simp only [commaSep_cons_cons, List.length_append, List.length_cons] at ih ⊢
          omega

/-- Names read back in their order, with fuel for each of them. -/
theorem readNames?_names {names : List String} (hne : names ≠ [])
    (hnames : ∀ name ∈ names, isIdent name = true) (rest : List Char) (hn : names.length ≤ n) :
    readNames? n ((Text.commaSep names).toList ++ ')' :: rest) = some (names, ')' :: rest) := by
  induction names generalizing n with
  | nil => exact absurd rfl hne
  | cons name names ih =>
      obtain ⟨n, rfl⟩ := Nat.exists_eq_add_one_of_ne_zero (show n ≠ 0 by simp at hn; omega)
      have hname := hnames name List.mem_cons_self
      cases names with
      | nil =>
          rw [readNames?, Text.commaSep, Text.joinWith_singleton,
            readName?_ident hname (wordEnds_paren rest)]
          rfl
      | cons name' names =>
          have hmore := ih (n := n) (by simp) (fun x hx => hnames x (List.mem_cons_of_mem _ hx))
            (by simpa using hn)
          obtain ⟨tail, htail⟩ := commaSep_cons name' names
          have hblank : skipBlanks
              (' ' :: ((Text.commaSep (name' :: names)).toList ++ ')' :: rest)) =
              (Text.commaSep (name' :: names)).toList ++ ')' :: rest := by
            rw [htail, List.append_assoc]
            exact skipBlanks_ident (hnames name' (by simp)) _
          rw [commaSep_cons_cons, List.append_assoc, List.cons_append, List.cons_append, readNames?,
            readName?_ident hname (wordEnds_comma _)]
          simp only [Option.bind_eq_bind, Option.bind_some, skipBlanks_cons (c := ',') rfl, hblank,
            hmore]

theorem readParams?_name {name : String} (hname : isIdent name = true) (hrest : WordEnds rest) :
    readParams? (name.toList ++ rest) = some ([name], rest) := by
  rw [readParams?, readName?_ident hname hrest]

/-- Parameters in parentheses, of any number. -/
theorem readParams?_names {names : List String} (hnames : ∀ name ∈ names, isIdent name = true)
    (rest : List Char) :
    readParams? ('(' :: ((Text.commaSep names).toList ++ ')' :: rest)) = some (names, rest) := by
  have hopen : readToken? ['('] ('(' :: ((Text.commaSep names).toList ++ ')' :: rest)) =
      some ((Text.commaSep names).toList ++ ')' :: rest) := readToken?_append ['('] _
  have hclose : readToken? [')'] (skipBlanks (')' :: rest)) = some rest :=
    readToken?_append [')'] rest
  rw [readParams?, readName?_of_not_start rfl, hopen]
  simp only [Option.bind_eq_bind, Option.bind_some]
  cases names with
  | nil =>
      have hnone : readNames? ((skipBlanks (')' :: rest)).length + 1) (skipBlanks (')' :: rest)) =
          none := by rw [readNames?]; rfl
      simp only [Text.commaSep, Text.joinWith_nil, String.toList_empty, List.nil_append]
      rw [hnone]
      simp [hclose]
  | cons name names =>
      obtain ⟨tail, htail⟩ := commaSep_cons name names
      have hblank : skipBlanks ((Text.commaSep (name :: names)).toList ++ ')' :: rest) =
          (Text.commaSep (name :: names)).toList ++ ')' :: rest := by
        rw [htail, List.append_assoc]
        exact skipBlanks_ident (hnames name List.mem_cons_self) _
      have hlength := length_le_commaSep (name :: names)
      rw [hblank, readNames?_names (by simp) hnames rest (by
        rw [List.length_append]
        omega)]
      simp [hclose]

theorem reads_lambda {params : List String} (hparams : readParams? cs = some (params, more))
    (harrow : readToken? ['=', '>'] (skipBlanks more) = some (' ' :: tail))
    (h : Reads (readExpr? n) (skipBlanks (' ' :: tail)) t rest) :
    Reads (readExpr? (n + 2)) cs (.lambda params t) rest := by
  obtain ⟨left, hread, hleft⟩ := h
  refine ⟨left, ?_, hleft⟩
  rw [readExpr?, readLambda?, hparams]
  simp only [Option.bind_eq_bind, Option.bind_some, harrow, hread]

/-- A parenthesis opens parameters only if a name that follows it ends in a comma or the closing
parenthesis. -/
theorem readParams?_open_eq_none (hcs : skipBlanks cs = cs) (hclose : cs.head? ≠ some ')')
    (hname : ∀ name more, readName? cs = some (name, more) →
      ∀ c ∈ (skipBlanks more).head?, c ≠ ',' ∧ c ≠ ')') : readParams? ('(' :: cs) = none := by
  have hopen : readToken? ['('] ('(' :: cs) = some cs := readToken?_append ['('] cs
  have hnone : ∀ cs : List Char, (∀ c ∈ cs.head?, c ≠ ')') → readToken? [')'] cs = none := by
    intro cs h
    cases cs with
    | nil => rfl
    | cons c cs => exact readToken?_of_ne (h c rfl) _ _
  rw [readParams?, readName?_of_not_start rfl, hopen]
  simp only [Option.bind_eq_bind, Option.bind_some, hcs]
  rw [readNames?]
  cases hread : readName? cs with
  | none =>
      have hcs' : readToken? [')'] cs = none := hnone cs fun c hc heq => hclose (heq ▸ hc)
      simp [hcs, hcs']
  | some r =>
      have hmore := hname r.1 r.2 hread
      have hrest := hnone _ fun c hc => (hmore c hc).2
      simp only [Option.bind_eq_bind, Option.bind_some]
      split
      · next heq => exact absurd rfl (hmore ',' (by simp [heq])).1
      · simp [hrest]

/-- A text that begins with no parameters before an arrow is no lambda. -/
theorem readLambda?_eq_none (h : ∀ params more, readParams? cs = some (params, more) →
    readToken? ['=', '>'] (skipBlanks more) = none) (n : Nat) : readLambda? n cs = none := by
  cases n with
  | zero => rfl
  | succ n =>
      rw [readLambda?]
      cases hparams : readParams? cs with
      | none => rfl
      | some r => simp [h r.1 r.2 hparams]

theorem reads_operand (hlambda : readLambda? n cs = none) (h : Reads (readUnary? n) cs t rest)
    (hrest : Ends rest) : Reads (readExpr? (n + 1)) cs t rest := by
  obtain ⟨left, hread, hleft⟩ := h.operators hrest
  exact ⟨left, by rw [readExpr?, hlambda, hread], hleft⟩

theorem reads_binary {op : BinOp} (hlambda : readLambda? n cs = none)
    (h : Reads (readUnary? n) cs t (' ' :: (op.symbol.toList ++ ' ' :: more)))
    (hright : Reads (readUnary? n) (skipBlanks (' ' :: more)) u rest) (hrest : Ends rest) :
    Reads (readExpr? (n + 1)) cs (.binary op t u) rest := by
  obtain ⟨left, hread, hleft⟩ := h.operators_binary hright hrest
  exact ⟨left, by rw [readExpr?, hlambda, hread], hleft⟩

/-! ## Rows -/

theorem readLabel?_name {name : String} (hname : isIdent name = true)
    (hcs : skipBlanks cs = cs) (heq : cs.head? ≠ some '=') :
    readLabel? (name.toList ++ ' ' :: '=' :: ' ' :: cs) = some (name, cs) := by
  have hassign : readToken? ['='] (skipBlanks (' ' :: '=' :: ' ' :: cs)) = some (' ' :: cs) :=
    readToken?_append ['='] _
  have hblank : skipBlanks (' ' :: cs) = cs := hcs
  rw [readLabel?, readName?_ident hname (wordEnds_blank _)]
  simp [hassign, hblank, heq]

theorem readInits?_singleton {name : String} (hname : isIdent name = true)
    (hcs : skipBlanks cs = cs) (heq : cs.head? ≠ some '=') (h : Reads (readExpr? n) cs t rest)
    (hcomma : ∀ c ∈ (skipBlanks rest).head?, c ≠ ',') :
    ∃ source more, readInits? (n + 1) (name.toList ++ ' ' :: '=' :: ' ' :: cs) =
      some ([⟨some name, source, t⟩], more) ∧ skipBlanks more = skipBlanks rest := by
  obtain ⟨more, hread, hmore⟩ := h
  refine ⟨String.ofList (cs.take (cs.length - more.length)), more, ?_, hmore⟩
  rw [readInits?, readLabel?_name hname hcs heq]
  simp only [Option.bind_eq_bind, Option.bind_some, hread]
  split
  · next heq' => exact absurd rfl (hcomma ',' (by simp [← hmore, heq']))
  · rfl

theorem readInits?_cons {name : String} {fields : List (Init Tree)} (hname : isIdent name = true)
    (hcs : skipBlanks cs = cs) (heq : cs.head? ≠ some '=')
    (h : Reads (readExpr? n) cs t (',' :: ' ' :: rest))
    (hrest : readInits? n (skipBlanks (' ' :: rest)) = some (fields, more)) :
    ∃ source, readInits? (n + 1) (name.toList ++ ' ' :: '=' :: ' ' :: cs) =
      some (⟨some name, source, t⟩ :: fields, more) := by
  obtain ⟨left, hread, hleft⟩ := h
  rw [skipBlanks_cons (c := ',') rfl] at hleft
  refine ⟨String.ofList (cs.take (cs.length - left.length)), ?_⟩
  rw [readInits?, readLabel?_name hname hcs heq]
  simp only [Option.bind_eq_bind, Option.bind_some, hread, hleft, hrest]

theorem readRecord?_fields {fields : List (Init Tree)} (hcs : skipBlanks (' ' :: cs) = cs)
    (h : readInits? n cs = some (fields, more)) (hmore : skipBlanks more = '\x7d' :: rest) :
    readRecord? (n + 1) ('n' :: 'e' :: 'w' :: ' ' :: '\x7b' :: ' ' :: cs) =
      some (.record fields, rest) := by
  have hnew : readToken? ['n', 'e', 'w'] ('n' :: 'e' :: 'w' :: ' ' :: '\x7b' :: ' ' :: cs) =
      some (' ' :: '\x7b' :: ' ' :: cs) := readToken?_append ['n', 'e', 'w'] _
  have hopen : readToken? ['\x7b'] (skipBlanks (' ' :: '\x7b' :: ' ' :: cs)) = some (' ' :: cs) :=
    readToken?_append ['\x7b'] _
  have hclose : readToken? ['\x7d'] ('\x7d' :: rest) = some rest := readToken?_append ['\x7d'] _
  rw [readRecord?, hnew]
  simp only [Option.bind_eq_bind, Option.bind_some, hopen, hcs, h, Option.getD_some, hmore, hclose]

theorem readExpr?_brace (n : Nat) (cs : List Char) : readExpr? n ('\x7d' :: cs) = none := by
  have hlambda : ∀ n, readLambda? n ('\x7d' :: cs) = none := readLambda?_eq_none (by
    rw [readParams?, readName?_of_not_start rfl, readToken?_of_ne (by decide)]
    nofun)
  have hprimary : ∀ n, readPrimary? n ('\x7d' :: cs) = none := fun n => by
    cases n with
    | zero => rfl
    | succ n =>
        rw [readPrimary?, readRecord?_of_ne (by decide),
          readLiteral?_eq_none (not_isLiteralWord (by decide) cs) rfl (by decide),
          readName?_of_not_start rfl, readToken?_of_ne (by decide)]
        rfl
  have hunary : ∀ n, readUnary? n ('\x7d' :: cs) = none := fun n => by
    cases n with
    | zero => rfl
    | succ n => simp [readUnary?, hprimary]
  cases n with
  | zero => rfl
  | succ n =>
      rw [readExpr?, hlambda]
      simp [readOperators?, readChain?, readComparison?, hunary]

theorem readRecord?_nil (n : Nat) (rest : List Char) :
    readRecord? (n + 1) ('n' :: 'e' :: 'w' :: ' ' :: '\x7b' :: ' ' :: ' ' :: '\x7d' :: rest) =
      some (.record [], rest) := by
  have hnone : readInits? n ('\x7d' :: rest) = none := by
    cases n with
    | zero => rfl
    | succ n =>
        rw [readInits?, readLabel?, readName?_of_not_start rfl]
        simp [readExpr?_brace]
  have hnew : readToken? ['n', 'e', 'w']
      ('n' :: 'e' :: 'w' :: ' ' :: '\x7b' :: ' ' :: ' ' :: '\x7d' :: rest) =
      some (' ' :: '\x7b' :: ' ' :: ' ' :: '\x7d' :: rest) := readToken?_append ['n', 'e', 'w'] _
  have hopen : readToken? ['\x7b'] (skipBlanks (' ' :: '\x7b' :: ' ' :: ' ' :: '\x7d' :: rest)) =
      some (' ' :: ' ' :: '\x7d' :: rest) := readToken?_append ['\x7b'] _
  have hblank : skipBlanks (' ' :: ' ' :: '\x7d' :: rest) = '\x7d' :: rest := rfl
  have hclose : readToken? ['\x7d'] (skipBlanks ('\x7d' :: rest)) = some rest :=
    readToken?_append ['\x7d'] _
  rw [readRecord?, hnew]
  simp only [Option.bind_eq_bind, Option.bind_some, hopen, hblank, hnone, Option.getD_none, hclose]

end DeferredQuery.QueryText
