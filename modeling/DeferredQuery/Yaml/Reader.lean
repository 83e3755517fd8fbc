import DeferredQuery.Yaml.Basic

/-!
# Reading settings files

A file is read by lines. Indentation alone decides what belongs to a mapping: its entries start in
one column, and what is further right belongs to the entry before it.
-/

namespace DeferredQuery.Yaml

/-- A line that is neither empty nor a comment, without its indentation. -/
structure Line where
  indent : Nat
  text : List Char

def isBlank (c : Char) : Bool := c == ' ' || c == '\t'

def skipBlanks (cs : List Char) : List Char := cs.dropWhile isBlank

def trimEnd (cs : List Char) : List Char := (cs.reverse.dropWhile isBlank).reverse

def splitLines (cs : List Char) : List (List Char) :=
  match cs with
  | [] => [[]]
  | '\n' :: rest => [] :: splitLines rest
  | c :: rest =>
    match splitLines rest with
    | line :: lines => (c :: line) :: lines
    | [] => [[c]]

def isBare (cs : List Char) : Bool :=
  match skipBlanks cs with
  | [] => true
  | c :: _ => c == '#'

def lines (s : String) : List Line :=
  (splitLines (s.toList.filter (· != '\r'))).filterMap fun cs =>
    if isBare cs then none
    else
      let text := cs.dropWhile (· == ' ')
      some ⟨cs.length - text.length, text⟩

/-! ## Scalars -/

def escape? (c : Char) : Option Char :=
  match c with
  | '"' | '\\' | '/' | ' ' => some c
  | '0' => some '\x00'
  | 'a' => some '\x07'
  | 'b' => some '\x08'
  | 't' | '\t' => some '\t'
  | 'n' => some '\n'
  | 'v' => some '\x0b'
  | 'f' => some '\x0c'
  | 'r' => some '\r'
  | 'e' => some '\x1b'
  | 'N' => some '\u0085'
  | '_' => some '\u00a0'
  | 'L' => some '\u2028'
  | 'P' => some '\u2029'
  | _ => none

def codeDigits? (c : Char) : Option Nat :=
  match c with
  | 'x' => some 2
  | 'u' => some 4
  | 'U' => some 8
  | _ => none

def ofCode? (n : Nat) : Option Char := if n.isValidChar then some (Char.ofNat n) else none

def readQuoted? : (fuel : Nat) → List Char → Option (List Char × List Char)
  | 0, _ => none
  | _, [] => none
  | _ + 1, '"' :: rest => some ([], rest)
  | fuel + 1, '\\' :: c :: rest => do
    let (d, rest) ← match codeDigits? c with
      | some k => do
        if rest.length < k then none
        else
          let d ← (ofDigits? 16 (rest.take k)).bind ofCode?
          some (d, rest.drop k)
      | none => do
        let d ← escape? c
        some (d, rest)
    let (s, rest) ← readQuoted? fuel rest
    some (d :: s, rest)
  | fuel + 1, c :: rest => do
    let (s, rest) ← readQuoted? fuel rest
    some (c :: s, rest)

def endsKey (cs : List Char) : Bool :=
  match cs with
  | [':'] => true
  | ':' :: c :: _ => isBlank c
  | _ => false

/-- The characters of a plain scalar, up to a comment, and whether a key ends among them. -/
def takePlain : List Char → List Char × List Char
  | [] => ([], [])
  | c :: rest =>
    if endsKey (c :: rest) then ([], c :: rest)
    else if isBlank c ∧ rest.head? = some '#' then ([], [])
    else
      let (s, rest) := takePlain rest
      (c :: s, rest)

/-- Characters that start no plain scalar. -/
def indicators : List Char :=
  ['\t', '[', ']', '\x7b', '\x7d', ',', '#', '&', '*', '!', '|', '>', '\'', '"', '%', '@', '\x60']

def startsPlain (cs : List Char) : Bool :=
  match cs with
  | [] => false
  | [c] => !indicators.contains c && c != '-' && c != '?'
  | c :: d :: _ => !indicators.contains c && !((c == '-' || c == '?') && isBlank d)

/-- Reads a scalar with the comment after it: its style, its text and what is left. -/
def readScalar? (cs : List Char) : Option (Bool × List Char × List Char) :=
  match cs with
  | '"' :: rest => do
    let (s, rest) ← readQuoted? (rest.length + 1) rest
    some (false, s, if isBare rest then [] else skipBlanks rest)
  | cs =>
    if startsPlain cs then
      let (s, rest) := takePlain cs
      some (true, trimEnd s, rest)
    else none

def readKey? (cs : List Char) : Option (String × List Char) := do
  let (_, s, rest) ← readScalar? cs
  if endsKey rest then some (String.ofList s, skipBlanks (rest.drop 1)) else none

/-! ## Blocks -/

def continueScalar (indent : Nat) (s : List Char) : List Line → Option (List Char × List Line)
  | [] => some (s, [])
  | line :: rest =>
    if line.indent ≤ indent then some (s, line :: rest)
    else
      let (more, left) := takePlain line.text
      if left = [] then continueScalar indent (s ++ ' ' :: trimEnd more) rest else none

/-- Reads a scalar that starts in the text and may go on in lines right of `indent`. -/
def readScalarNode? (indent : Nat) (text : List Char) (rest : List Line) :
    Option (Yaml × List Line) := do
  let (plain, s, left) ← readScalar? text
  if left ≠ [] then none
  else if plain then
    let (s, rest) ← continueScalar indent s rest
    some (.scalar true (String.ofList s), rest)
  else
    match rest with
    | line :: more =>
      if indent < line.indent then none
      else some (.scalar false (String.ofList s), line :: more)
    | [] => some (.scalar false (String.ofList s), [])

mutual

def readEntries? :
    (fuel : Nat) → (indent : Nat) → List Line → Option (List (Named Yaml) × List Line)
  | 0, _, _ => none
  | _ + 1, _, [] => some ([], [])
  | fuel + 1, indent, line :: rest =>
    if line.indent < indent then some ([], line :: rest)
    else if indent < line.indent then none
    else do
      let (key, text) ← readKey? line.text
      let (v, rest) ←
        if isBare text then readNested? fuel indent rest else readScalarNode? indent text rest
      let (more, rest) ← readEntries? fuel indent rest
      some (⟨key, v⟩ :: more, rest)

def readNested? : (fuel : Nat) → (indent : Nat) → List Line → Option (Yaml × List Line)
  | 0, _, _ => none
  | _ + 1, _, [] => some (missing, [])
  | fuel + 1, indent, line :: rest =>
    if line.indent ≤ indent then some (missing, line :: rest)
    else if (readKey? line.text).isSome then do
      let (members, rest) ← readEntries? fuel line.indent (line :: rest)
      some (.mapping members, rest)
    else readScalarNode? indent line.text rest

end

/-- Reads a whole file; an empty one is a value that is left out. -/
def ofText? (s : String) : Option Yaml :=
  match lines s with
  | [] => some missing
  | line :: rest =>
    match readEntries? (2 * rest.length + 4) line.indent (line :: rest) with
    | some (members, []) => some (.mapping members)
    | _ => none

end DeferredQuery.Yaml
