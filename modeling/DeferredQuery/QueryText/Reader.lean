import DeferredQuery.QueryText.Tree

/-!
# Reading query texts

The grammar is read by ordered choice, from the loosest operator to the tightest, with blanks
allowed between tokens. Each reader takes the text at its start and gives back what is left; where
a repetition may follow an item, the blanks after the item belong to it, unless the repetition
took something.
-/

namespace DeferredQuery.QueryText

/-! ## Tokens -/

def isBlank (c : Char) : Bool := c == ' ' || c == '\t' || c == '\r' || c == '\n'

def skipBlanks (cs : List Char) : List Char := cs.dropWhile isBlank

def isNameStart (c : Char) : Bool := c.isAlpha || c == '_'

def isNameChar (c : Char) : Bool := c.isAlphanum || c == '_'

/-- Words that are not names. -/
def keywords : List String := ["new", "null", "true", "false"]

def word (cs : List Char) : String := String.ofList (cs.takeWhile isNameChar)

def readName? (cs : List Char) : Option (String × List Char) :=
  match cs with
  | [] => none
  | c :: _ =>
    if isNameStart c && !keywords.contains (word cs) then some (word cs, cs.dropWhile isNameChar)
    else none

def readToken? (token : List Char) (cs : List Char) : Option (List Char) :=
  if token.isPrefixOf cs then some (cs.drop token.length) else none

def readOp? {α : Type} (ops : List (List Char × α)) (cs : List Char) : Option (α × List Char) :=
  ops.findSome? fun op => (readToken? op.1 cs).map fun rest => (op.2, rest)

/-- The characters of a string up to the quote that ends it; a backslash keeps the character
after it. -/
def readRaw? : List Char → Option (List Char × List Char)
  | [] => none
  | '"' :: rest => some ([], rest)
  | '\\' :: c :: rest => (readRaw? rest).map fun (s, rest) => ('\\' :: c :: s, rest)
  | '\\' :: [] => none
  | c :: rest => (readRaw? rest).map fun (s, rest) => (c :: s, rest)

def readLiteral? (cs : List Char) : Option (Literal × List Char) :=
  match word cs with
  | "null" => some (.null, cs.dropWhile isNameChar)
  | "true" => some (.bool true, cs.dropWhile isNameChar)
  | "false" => some (.bool false, cs.dropWhile isNameChar)
  | _ =>
    let whole := cs.takeWhile Char.isDigit
    let rest := cs.dropWhile Char.isDigit
    if whole ≠ [] then
      match rest with
      | '.' :: more =>
        let fraction := more.takeWhile Char.isDigit
        if fraction = [] then some (.int whole, rest)
        else some (.float whole fraction, more.dropWhile Char.isDigit)
      | _ => some (.int whole, rest)
    else
      match cs with
      | '"' :: rest => (readRaw? rest).map fun (s, rest) => (.string s, rest)
      | _ => none

/-! ## Operators -/

def orOps : List (List Char × BinOp) := [(['|', '|'], .or)]

def andOps : List (List Char × BinOp) := [(['&', '&'], .and)]

def comparisonOps : List (List Char × BinOp) :=
  [(['=', '='], .eq), (['!', '='], .ne), (['<', '='], .le), (['>', '='], .ge), (['<'], .lt),
   (['>'], .gt)]

def additiveOps : List (List Char × BinOp) := [(['+'], .add), (['-'], .sub)]

def multiplicativeOps : List (List Char × BinOp) := [(['*'], .mul), (['/'], .div), (['%'], .mod)]

abbrev TreeReader := List Char → Option (Tree × List Char)

/-- Reads further operands after `left`, grouping to the left. -/
def readChainRest (ops : List (List Char × BinOp)) (operand : TreeReader) :
    (fuel : Nat) → Tree → List Char → Tree × List Char
  | 0, left, rest => (left, rest)
  | fuel + 1, left, rest =>
    match readOp? ops (skipBlanks rest) with
    | none => (left, rest)
    | some (op, more) =>
      match operand (skipBlanks more) with
      | none => (left, rest)
      | some (right, more) => readChainRest ops operand fuel (.binary op left right) more

def readChain? (ops : List (List Char × BinOp)) (operand : TreeReader) : TreeReader := fun cs =>
  (operand cs).map fun (left, rest) =>
    readChainRest ops operand rest.length left (skipBlanks rest)

/-- Reads an operand, or two of them with a comparison between them. -/
def readComparison? (operand : TreeReader) : TreeReader := fun cs =>
  (operand cs).map fun (left, rest) =>
    readChainRest comparisonOps operand 1 left (skipBlanks rest)

def readOperators? (operand : TreeReader) : TreeReader :=
  readChain? orOps <| readChain? andOps <| readComparison? <| readChain? additiveOps <|
    readChain? multiplicativeOps operand

/-! ## Expressions -/

def readNames? : (fuel : Nat) → List Char → Option (List String × List Char)
  | 0, _ => none
  | fuel + 1, cs => do
    let (name, rest) ← readName? cs
    match skipBlanks rest with
    | ',' :: more =>
      match readNames? fuel (skipBlanks more) with
      | some (names, more) => some (name :: names, more)
      | none => some ([name], rest)
    | _ => some ([name], rest)

/-- Reads a lambda's parameters: one name, or any number of them in parentheses. -/
def readParams? (cs : List Char) : Option (List String × List Char) :=
  match readName? cs with
  | some (name, rest) => some ([name], rest)
  | none => do
    let rest ← readToken? ['('] cs
    let start := skipBlanks rest
    let (names, rest) := (readNames? (start.length + 1) start).getD ([], start)
    let rest ← readToken? [')'] (skipBlanks rest)
    some (names, rest)

/-- Reads the label of a field, which a single equals sign follows. -/
def readLabel? (cs : List Char) : Option (String × List Char) := do
  let (name, rest) ← readName? cs
  let rest ← readToken? ['='] (skipBlanks rest)
  let rest := skipBlanks rest
  if rest.head? = some '=' then none else some (name, rest)

mutual

/-- Reads an expression: a lambda, or else operators over operands. -/
def readExpr? : (fuel : Nat) → List Char → Option (Tree × List Char)
  | 0, _ => none
  | fuel + 1, cs =>
    match readLambda? fuel cs with
    | some r => some r
    | none => readOperators? (readUnary? fuel) cs

def readLambda? : (fuel : Nat) → List Char → Option (Tree × List Char)
  | 0, _ => none
  | fuel + 1, cs => do
    let (params, rest) ← readParams? cs
    let rest ← readToken? ['=', '>'] (skipBlanks rest)
    let (body, rest) ← readExpr? fuel (skipBlanks rest)
    some (.lambda params body, rest)

def readUnary? : (fuel : Nat) → List Char → Option (Tree × List Char)
  | 0, _ => none
  | fuel + 1, cs =>
    match cs with
    | '!' :: rest => (readUnary? fuel (skipBlanks rest)).map fun (t, rest) => (.unary .not t, rest)
    | '-' :: rest => (readUnary? fuel (skipBlanks rest)).map fun (t, rest) => (.unary .neg t, rest)
    | _ => do
      let (t, rest) ← readPrimary? fuel cs
      some (readSuffixes fuel t (skipBlanks rest))

def readSuffixes : (fuel : Nat) → Tree → List Char → Tree × List Char
  | 0, target, rest => (target, rest)
  | fuel + 1, target, rest =>
    match readToken? ['.'] (skipBlanks rest) with
    | none => (target, rest)
    | some more =>
      match readName? (skipBlanks more) with
      | none => (target, rest)
      | some (name, more) =>
        match readArgs? fuel more with
        | some (args, more) => readSuffixes fuel (.call target name args) more
        | none => readSuffixes fuel (.member target name) more

def readArgs? : (fuel : Nat) → List Char → Option (List Tree × List Char)
  | 0, _ => none
  | fuel + 1, cs => do
    let rest ← readToken? ['('] (skipBlanks cs)
    let start := skipBlanks rest
    let (args, rest) := (readExprs? fuel start).getD ([], start)
    let rest ← readToken? [')'] (skipBlanks rest)
    some (args, rest)

def readExprs? : (fuel : Nat) → List Char → Option (List Tree × List Char)
  | 0, _ => none
  | fuel + 1, cs => do
    let (t, rest) ← readExpr? fuel cs
    match skipBlanks rest with
    | ',' :: more =>
      match readExprs? fuel (skipBlanks more) with
      | some (ts, more) => some (t :: ts, more)
      | none => some ([t], rest)
    | _ => some ([t], rest)

/-- Reads an anonymous row, a literal, a name or an expression in parentheses. -/
def readPrimary? : (fuel : Nat) → List Char → Option (Tree × List Char)
  | 0, _ => none
  | fuel + 1, cs =>
    match readRecord? fuel cs with
    | some r => some r
    | none =>
      match readLiteral? cs with
      | some (l, rest) => some (.literal l, rest)
      | none =>
        match readName? cs with
        | some (name, rest) => some (.name name, rest)
        | none => do
          let rest ← readToken? ['('] cs
          let (t, rest) ← readExpr? fuel (skipBlanks rest)
          let rest ← readToken? [')'] (skipBlanks rest)
          some (.paren t, rest)

def readRecord? : (fuel : Nat) → List Char → Option (Tree × List Char)
  | 0, _ => none
  | fuel + 1, cs => do
    let rest ← readToken? ['n', 'e', 'w'] cs
    let rest ← readToken? ['\x7b'] (skipBlanks rest)
    let start := skipBlanks rest
    let (fields, rest) := (readInits? fuel start).getD ([], start)
    let rest ← readToken? ['\x7d'] (skipBlanks rest)
    some (.record fields, rest)

def readInits? : (fuel : Nat) → List Char → Option (List (Init Tree) × List Char)
  | 0, _ => none
  | fuel + 1, cs => do
    let (label, start) := match readLabel? cs with
      | some (label, rest) => (some label, rest)
      | none => (none, cs)
    let (t, rest) ← readExpr? fuel start
    let source := String.ofList (start.take (start.length - rest.length))
    match skipBlanks rest with
    | ',' :: more =>
      match readInits? fuel (skipBlanks more) with
      | some (fields, more) => some (⟨label, source, t⟩ :: fields, more)
      | none => some ([⟨label, source, t⟩], rest)
    | _ => some ([⟨label, source, t⟩], rest)

end

def read? (s : String) : Option Tree :=
  let cs := s.toList
  match readExpr? (8 * cs.length + 8) (skipBlanks cs) with
  | some (t, rest) => if skipBlanks rest = [] then some t else none
  | none => none

end DeferredQuery.QueryText
