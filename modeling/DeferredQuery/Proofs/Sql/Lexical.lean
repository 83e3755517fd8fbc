import Mathlib.Data.List.Basic
import DeferredQuery.Sql.Statement

/-!
# The tokens of a statement's text

A text is read character by character. What matters are the tokens that hide others: quoted texts
and identifiers, which end at the first quote that is not doubled, and comments, from `--` to the
end of the line or from `/*` to `*/`. Outside of these a question mark is a marker.
-/

namespace DeferredQuery.Sql

namespace Lexical

inductive Token where
  /-- A text or an identifier, by its quote and by what it spells. -/
  | quoted (quote : Char) (content : List Char)
  | marker
  | comment
deriving DecidableEq

/-- Where a reader is: between tokens, behind a character that begins a comment if another one
follows, or within a token, with what has been read of it. -/
inductive Mode where
  | plain
  | minus
  | slash
  | quoted (quote : Char) (content : List Char)
  /-- Behind a quote in a quoted text, which ends the text unless it is doubled. -/
  | closing (quote : Char) (content : List Char)
  | line
  | block (star : Bool)

def isQuote (c : Char) : Bool := c == '\'' || c == '"'

namespace Mode

def start (c : Char) : List Token × Mode :=
  if isQuote c then ([], quoted c [])
  else if c = '?' then ([.marker], plain)
  else if c = '-' then ([], minus)
  else if c = '/' then ([], slash)
  else ([], plain)

/-- The tokens that a character completes or announces, and where the reader is behind it. -/
def step : Mode → Char → List Token × Mode
  | plain, c => start c
  | minus, c => if c = '-' then ([.comment], line) else start c
  | slash, c => if c = '*' then ([.comment], block false) else start c
  | quoted q s, c => if c = q then ([], closing q s) else ([], quoted q (s ++ [c]))
  | closing q s, c =>
    if c = q then ([], quoted q (s ++ [c])) else (.quoted q s :: (start c).1, (start c).2)
  | line, c => ([], if c = '\n' then plain else line)
  | block star, c => ([], if star && c == '/' then plain else block (c == '*'))

/-- The tokens that the end of a text completes; a quoted text and a comment between marks must
have been closed. -/
def finish : Mode → Option (List Token)
  | plain | minus | slash | line => some []
  | closing q s => some [.quoted q s]
  | quoted .. | block _ => none

end Mode

def lex : Mode → List Char → Option (List Token)
  | m, [] => m.finish
  | m, c :: rest => (lex (m.step c).2 rest).map ((m.step c).1 ++ ·)

/-! ## Characters -/

theorem lex_cons_of_silent {m m' : Mode} {c : Char} (h : m.step c = ([], m'))
    (rest : List Char) : lex m (c :: rest) = lex m' rest := by
  rw [lex, h]
  exact Option.map_id_apply

def isSilent (c : Char) : Bool := !isQuote c && c != '?' && c != '-' && c != '/'

theorem lex_plain_cons {c : Char} (h : isSilent c = true) (rest : List Char) :
    lex .plain (c :: rest) = lex .plain rest := by
  simp only [isSilent, Bool.and_eq_true, bne_iff_ne, Bool.not_eq_true'] at h
  obtain ⟨⟨⟨hquote, hmarker⟩, hminus⟩, hslash⟩ := h
  apply lex_cons_of_silent
  simp [Mode.step, Mode.start, hquote, hmarker, hminus, hslash]

theorem lex_plain_append {cs : List Char} (h : ∀ c ∈ cs, isSilent c = true) (rest : List Char) :
    lex .plain (cs ++ rest) = lex .plain rest := by
  induction cs with
  | nil => rfl
  | cons c cs ih =>
      rw [List.cons_append, lex_plain_cons (h c List.mem_cons_self),
        ih fun d hd => h d (List.mem_cons_of_mem _ hd)]

theorem lex_marker (rest : List Char) :
    lex .plain ('?' :: rest) = (lex .plain rest).map (.marker :: ·) := rfl

/-- A character that might begin a comment is no token if the next one does not complete it. -/
theorem lex_undecided {c : Char} {m : Mode} {cs : List Char} (h : Mode.plain.step c = ([], m))
    (hend : m.finish = some []) (hnext : ∀ d ∈ cs.head?, m.step d = Mode.plain.step d) :
    lex .plain (c :: cs) = lex .plain cs := by
  rw [lex_cons_of_silent h]
  cases cs with
  | nil => exact hend
  | cons d cs => rw [lex, lex, hnext d rfl]

theorem lex_minus {cs : List Char} (h : cs.head? ≠ some '-') :
    lex .plain ('-' :: cs) = lex .plain cs := by
  refine lex_undecided (m := .minus) rfl rfl fun d hd => if_neg ?_
  rintro rfl
  exact h hd

theorem lex_slash {cs : List Char} (h : cs.head? ≠ some '*') :
    lex .plain ('/' :: cs) = lex .plain cs := by
  refine lex_undecided (m := .slash) rfl rfl fun d hd => if_neg ?_
  rintro rfl
  exact h hd

theorem comment_mem_of_lex {rest : List Char} {ts : List Token}
    (h : lex .plain ('-' :: '-' :: rest) = some ts) : .comment ∈ ts := by
  have hminus : Mode.plain.step '-' = ([], .minus) := rfl
  rw [lex_cons_of_silent hminus, lex] at h
  obtain ⟨us, -, rfl⟩ := Option.map_eq_some_iff.mp h
  exact List.mem_cons_self

/-! ## Quoted texts -/

/-- What follows a quoted text must not begin with a quote, which would double the last one. -/
def Ends (rest : List Char) : Prop := ∀ c ∈ rest.head?, isQuote c = false

theorem ends_nil : Ends [] := nofun

theorem ends_cons {c : Char} (h : isQuote c = false) (rest : List Char) : Ends (c :: rest) := by
  rintro _ ⟨⟩
  exact h

def twice (q : Char) (s : List Char) : List Char := s.flatMap fun c => if c = q then [c, c] else [c]

/-- Doubled quotes are read as single ones and end nothing. -/
theorem lex_twice (q : Char) (read s rest : List Char) :
    lex (.quoted q read) (twice q s ++ rest) = lex (.quoted q (read ++ s)) rest := by
  induction s generalizing read with
  | nil => simp [twice]
  | cons c s ih =>
      have hread : read ++ c :: s = (read ++ [c]) ++ s := by simp
      rw [hread, ← ih, twice, List.flatMap_cons, List.append_assoc]
      by_cases hc : c = q
      · subst hc
        rw [if_pos rfl]
        have hopen : (Mode.quoted c read).step c = ([], .closing c read) := if_pos rfl
        have hdouble : (Mode.closing c read).step c = ([], .quoted c (read ++ [c])) := if_pos rfl
        rw [List.cons_append, lex_cons_of_silent hopen, List.cons_append,
          lex_cons_of_silent hdouble]
        rfl
      · rw [if_neg hc]
        have hstep : (Mode.quoted q read).step c = ([], .quoted q (read ++ [c])) := if_neg hc
        rw [List.cons_append, lex_cons_of_silent hstep]
        rfl

/-- A quoted text ends at a quote that no other one follows. -/
theorem lex_closing {q : Char} (hq : isQuote q = true) (s : List Char) {rest : List Char}
    (hrest : Ends rest) :
    lex (.closing q s) rest = (lex .plain rest).map (.quoted q s :: ·) := by
  cases rest with
  | nil => rfl
  | cons c rest =>
      have hc : c ≠ q := by
        rintro rfl
        rw [hrest c rfl] at hq
        cases hq
      have hstep : (Mode.closing q s).step c =
          (.quoted q s :: (Mode.start c).1, (Mode.start c).2) := if_neg hc
      rw [lex, hstep, lex, Option.map_map]
      rfl

/-- A text between quotes, with quotes inside it doubled, is read as one token. -/
theorem lex_quoted {q : Char} (hq : isQuote q = true) (s : List Char) {rest : List Char}
    (hrest : Ends rest) :
    lex .plain (q :: twice q s ++ q :: rest) = (lex .plain rest).map (.quoted q s :: ·) := by
  have hstart : Mode.plain.step q = ([], .quoted q []) := if_pos hq
  have hclose : (Mode.quoted q s).step q = ([], .closing q s) := if_pos rfl
  rw [List.cons_append, lex_cons_of_silent hstart, lex_twice, List.nil_append,
    lex_cons_of_silent hclose, lex_closing hq s hrest]

end Lexical

end DeferredQuery.Sql
