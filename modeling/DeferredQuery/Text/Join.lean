/-!
# Assembling texts

Joining with separators, and replacing characters and fixed pieces.
-/

namespace DeferredQuery.Text

def joinWith (sep : String) : List String → String
  | [] => ""
  | [s] => s
  | s :: t :: rest => s ++ sep ++ joinWith sep (t :: rest)

def commaSep (ss : List String) : String := joinWith ", " ss

@[simp] theorem joinWith_nil (sep : String) : joinWith sep [] = "" := rfl

@[simp] theorem joinWith_singleton (sep s : String) : joinWith sep [s] = s := rfl

theorem joinWith_cons_cons (sep s t : String) (rest : List String) :
    joinWith sep (s :: t :: rest) = s ++ sep ++ joinWith sep (t :: rest) := rfl

/-- The text with every occurrence of one character written twice. -/
def doubled (q : Char) (s : String) : String :=
  String.ofList (s.toList.flatMap fun c => if c = q then [c, c] else [c])

/-- The characters with a blank put between each `*` and a `/` right after it. -/
def partCommentEnd : List Char → List Char
  | [] => []
  | [c] => [c]
  | c :: d :: rest =>
    if c = '*' ∧ d = '/' then '*' :: ' ' :: '/' :: partCommentEnd rest
    else c :: partCommentEnd (d :: rest)

def hasInfix (needle : List Char) : (text : List Char) → Bool
  | [] => needle.isEmpty
  | c :: rest => needle.isPrefixOf (c :: rest) || hasInfix needle rest

end DeferredQuery.Text
