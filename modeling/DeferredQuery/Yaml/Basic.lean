import DeferredQuery.Named
import DeferredQuery.Number.Decimal
import DeferredQuery.Uuid

/-!
# Settings files

The part of YAML that settings are written in: block mappings of plain and double-quoted scalars,
with comments. A plain scalar may be a truth value or a number; a quoted one is always a text.
-/

namespace DeferredQuery

inductive Yaml where
  | scalar (plain : Bool) (text : String)
  | mapping (members : List (Named Yaml))

namespace Yaml

def missing : Yaml := .scalar true ""

/-! ## Fields -/

def members? : Yaml → Option (List (Named Yaml))
  | .mapping members => some members
  | .scalar true "" => some []
  | _ => none

/-- The member of a name, if there is one; there may be no two of them. -/
def member? (members : List (Named Yaml)) (name : String) : Option (Option Yaml) :=
  match members.filter fun m => m.name == name with
  | [] => some none
  | [m] => some (some m.value)
  | _ => none

/-! ## Scalars -/

def text? : Yaml → Option String
  | .scalar _ s => some s
  | _ => none

def bool? : Yaml → Option Bool
  | .scalar true s =>
    if s ∈ ["true", "True", "TRUE"] then some true
    else if s ∈ ["false", "False", "FALSE"] then some false
    else none
  | _ => none

def ofDigits? (base : Nat) (cs : List Char) : Option Nat :=
  if cs = [] then none
  else cs.foldlM
    (fun n c => (Uuid.hexValue? c).bind fun d => if d < base then some (base * n + d) else none) 0

/-- Reads digits after a prefix that names their base; without one they are decimal, and start
with a zero only if they are alone. -/
def readNat? : List Char → Option Nat
  | '0' :: 'x' :: cs => ofDigits? 16 cs
  | '0' :: 'o' :: cs => ofDigits? 8 cs
  | '0' :: 'b' :: cs => ofDigits? 2 cs
  | cs => if 1 < cs.length ∧ cs.head? = some '0' then none else ofDigits? 10 cs

def nat64? : Yaml → Option Nat
  | .scalar true s =>
    let cs := match s.toList with
      | '+' :: cs => cs
      | cs => cs
    (readNat? cs).filter (· < Checked.unsignedCount)
  | _ => none

end Yaml

end DeferredQuery
