import DeferredQuery.Proofs.Expr.Legible
import DeferredQuery.Proofs.QueryText.Reading
import DeferredQuery.QueryText.Typing

/-!
# Plain expressions

The expressions whose texts are query texts: untyped parameters and their members, literals,
operators, rows and lambdas. A query text is typed from its names, so a plain expression is what
the tree of its text denotes: no name brings a type in, and without types nothing is converted.
-/

namespace DeferredQuery

open QueryText (isIdent)

/-- Whether the quoted text needs no escapes but those that a query text has. -/
def Text.isSpelled (s : String) : Bool :=
  s.toList.all fun c => ['"', '\\', '\n', '\t'].contains c || quoteChar c == [c]

namespace Expr

def isPath : Expr → Bool
  | .parameter .. | .member .. => true
  | _ => false

/-- Expressions with parameters of given names, or of the lambdas around them. -/
inductive Plain : (bound : List String) → Expr → Prop
  | parameter {bound name} (hname : isIdent name = true) (hbound : name ∈ bound) :
      Plain bound (.parameter name .unknown)
  | member {bound target name} (htarget : Plain bound target) (hpath : target.isPath = true)
      (hname : isIdent name = true) : Plain bound (.member target name .unknown)
  | null {bound} : Plain bound (.const .null)
  | bool {bound} (b : Bool) : Plain bound (.const (.bool b))
  | int {bound} (n : Int64) (hn : 0 ≤ n.toInt) : Plain bound (.const (.int n))
  | string {bound} (s : String) (hs : Text.isSpelled s = true) : Plain bound (.const (.string s))
  | binary {bound} (op : BinOp) {left right} (hleft : Plain bound left)
      (hright : Plain bound right) (hoperand : left.isLambda = false)
      (hoperand' : right.isLambda = false) : Plain bound (.binary op left right)
  | unary {bound} (op : UnOp) {operand} (h : Plain bound operand)
      (hoperand : operand.isLambda = false) (hneg : op = .neg → operand.isNumber = false) :
      Plain bound (.unary op operand)
  | record {bound fields} (hnames : ∀ field ∈ fields, isIdent field.name = true)
      (hfields : ∀ field ∈ fields, Plain bound field.value) : Plain bound (.record fields)
  | lambda {bound names body} (hnames : ∀ name ∈ names, isIdent name = true)
      (hbody : Plain (names ++ bound) body) :
      Plain bound (.lambda (names.map fun name => ⟨name, .unknown⟩) body)

variable {bound : List String} {e : Expr}

/-- No plain expression is optional or a floating point number. -/
theorem Plain.ty (h : Plain bound e) : (∀ t, e.ty ≠ .nullable t) ∧ e.ty ≠ .float := by
  induction h with
  | binary op _ _ _ _ ihl ihr =>
      rw [Expr.ty]
      unfold BinOp.resultTy
      split
      · exact ⟨nofun, nofun⟩
      · have hunwrap : ∀ {t : Ty}, (∀ u, t ≠ .nullable u) → t.unwrap = t := by
          intro t ht
          cases t <;> first | rfl | exact absurd rfl (ht _)
        rw [hunwrap ihl.1, hunwrap ihr.1]
        split
        · exact absurd ‹_› ihl.2
        · exact absurd ‹_› ihr.2
        · exact ⟨nofun, nofun⟩
        · exact ⟨nofun, nofun⟩
        · exact ihl
  | unary op _ _ _ ih =>
      cases op with
      | neg => exact ih
      | not => exact ⟨nofun, nofun⟩
  | _ => exact ⟨nofun, nofun⟩

/-! ## First characters -/

def isOpening (c : Char) : Bool :=
  QueryText.isNameStart c || c.isDigit || ['"', '(', '!', '-'].contains c

theorem isOpening_of_isIdent {name : String} (hname : isIdent name = true) :
    ∃ c cs, name.toList = c :: cs ∧ isOpening c = true ∧ c ≠ '(' := by
  obtain ⟨c, cs, hcs, hstart⟩ := QueryText.isIdent_cons hname
  refine ⟨c, cs, hcs, by simp [isOpening, hstart], ?_⟩
  rintro rfl
  exact absurd hstart (by decide)

theorem toList_toString_of_nonneg {n : ℤ} (hn : 0 ≤ n) :
    (toString n).toList = Nat.toDigits 10 n.toNat := by
  obtain ⟨k, rfl⟩ := Int.eq_ofNat_of_zero_le hn
  exact Decimal.toList_toString_nat k

theorem toList_text_int {n : Int64} (hn : 0 ≤ n.toInt) :
    (const (.int n)).text.toList = Nat.toDigits 10 n.toInt.toNat := toList_toString_of_nonneg hn

def isBinary : Expr → Bool
  | .binary .. => true
  | _ => false

attribute [local simp] text Value.text in
/-- Only operators and lambdas have texts that begin with a parenthesis. -/
theorem Plain.text_cons (h : Plain bound e) :
    ∃ c cs, e.text.toList = c :: cs ∧ isOpening c = true ∧
      (c = '(' → e.isLambda = true ∨ e.isBinary = true) := by
  induction h with
  | parameter hname _ =>
      obtain ⟨c, cs, hcs, hc, hopen⟩ := isOpening_of_isIdent hname
      exact ⟨c, cs, hcs, hc, fun h => absurd h hopen⟩
  | @member _ target _ _ hpath _ ih =>
      obtain ⟨c, cs, hcs, hc, hopen⟩ := ih
      have hpath : target.isLambda = false ∧ target.isBinary = false := by
        cases target <;> cases hpath <;> exact ⟨rfl, rfl⟩
      refine ⟨c, _, by simp [hcs]; rfl, hc, fun h => ?_⟩
      exact absurd (hopen h) (by simp [hpath])
  | null => exact ⟨'n', ['u', 'l', 'l'], by simp [const], by decide, by simp⟩
  | bool b =>
      cases b with
      | false => exact ⟨'f', ['a', 'l', 's', 'e'], by simp [const], by decide, by simp⟩
      | true => exact ⟨'t', ['r', 'u', 'e'], by simp [const], by decide, by simp⟩
  | int n hn =>
      obtain ⟨hne, hdigits⟩ := Decimal.digits_toDigits n.toInt.toNat
      obtain ⟨c, cs, hcs⟩ := List.exists_cons_of_ne_nil hne
      have hc : c.isDigit = true := hdigits c (by rw [hcs]; exact List.mem_cons_self)
      refine ⟨c, cs, by rw [toList_text_int hn, hcs], by simp [isOpening, hc], ?_⟩
      rintro rfl
      exact absurd hc (by decide)
  | string s _ => exact ⟨'"', _, by simp [const, Text.quoted]; rfl, by decide, by simp⟩
  | binary op _ _ _ _ _ _ => exact ⟨'(', _, by simp; rfl, by decide, fun _ => .inr rfl⟩
  | unary op _ _ _ _ =>
      cases op with
      | neg => exact ⟨'-', _, by simp; rfl, by decide, by simp⟩
      | not => exact ⟨'!', _, by simp; rfl, by decide, by simp⟩
  | record _ _ _ => exact ⟨'n', _, by simp; rfl, by decide, by simp⟩
  | @lambda _ names _ hnames _ _ =>
      by_cases hsingle : ∃ p, (names.map fun name => (⟨name, .unknown⟩ : Binder)) = [p]
      · obtain ⟨p, hp⟩ := hsingle
        obtain ⟨name, rfl, rfl⟩ := List.map_eq_singleton_iff.mp hp
        obtain ⟨c, cs, hcs, hc, -⟩ := isOpening_of_isIdent (hnames name (by simp))
        exact ⟨c, _, by simp [paramsText, hcs]; rfl, hc, fun _ => .inl rfl⟩
      · exact ⟨'(', _, by simp [paramsText_of_ne hsingle]; rfl, by decide, fun _ => .inl rfl⟩

end Expr

/-! ## What trees denote -/

namespace QueryText

open DeferredQuery.Expr (Plain)

def Untyped (bound : List String) (scope : List Binder) : Prop :=
  ∀ name ∈ bound, scope.find? (·.name == name) = some ⟨name, .unknown⟩

/-- A tree denotes an expression wherever these names are bound. -/
def Denotes (bound : List String) (t : Tree) (e : Expr) : Prop :=
  ∀ env scope, Untyped bound scope → build env scope [] t = .ok e

variable {bound : List String} {t u : Tree} {e e' : Expr}

/-- Parameters hide outer ones of their names, and none of them has a type. -/
theorem Untyped.lambda {scope : List Binder} (h : Untyped bound scope) (names : List String) :
    Untyped (names ++ bound) ((names.map fun name => ⟨name, .unknown⟩).reverse ++ scope) := by
  intro name hname
  rw [List.find?_append]
  cases hfind : (names.map fun name => (⟨name, .unknown⟩ : Binder)).reverse.find?
      (·.name == name) with
  | some p =>
      have hmem := List.mem_of_find?_eq_some hfind
      have hp := List.find?_some hfind
      simp only [List.mem_reverse, List.mem_map] at hmem
      obtain ⟨name', -, rfl⟩ := hmem
      obtain rfl : name' = name := by simpa using hp
      rfl
  | none =>
      have hnone := List.find?_eq_none.mp hfind
      refine h name ((List.mem_append.mp hname).resolve_left fun hmem => ?_)
      exact hnone ⟨name, .unknown⟩ (by simpa using hmem) (by simp)

theorem denotes_name {name : String} (hname : name ∈ bound) :
    Denotes bound (.name name) (.parameter name .unknown) := by
  intro env scope hscope
  rw [build, Env.resolve?, hscope name hname]

theorem denotes_literal {l : Literal} {v : Value} (h : l.value = .ok v) :
    Denotes bound (.literal l) (.const v) := by
  intro env scope _
  rw [build, h]
  rfl

theorem Denotes.paren (h : Denotes bound t e) : Denotes bound (.paren t) e := by
  intro env scope hscope
  rw [build, h env scope hscope]

theorem Denotes.member (h : Denotes bound t e) (hty : e.ty = .unknown) (name : String) :
    Denotes bound (.member t name) (.member e name .unknown) := by
  intro env scope hscope
  rw [build, h env scope hscope]
  simp [bind, Except.bind, readMember, hty, Ty.member?, Ty.unwrap]

theorem negate_of_plain (h : Plain bound e) (hneg : e.isNumber = false) :
    negate e = .unary .neg e := by
  cases h with
  | int => cases hneg
  | _ => rfl

theorem Denotes.unary (h : Denotes bound t e) (hplain : Plain bound e) {op : UnOp}
    (hneg : op = .neg → e.isNumber = false) : Denotes bound (.unary op t) (.unary op e) := by
  intro env scope hscope
  cases op with
  | neg =>
      rw [build, h env scope hscope]
      exact congrArg Except.ok (negate_of_plain hplain (hneg rfl))
  | not =>
      rw [build, h env scope hscope]
      rfl

/-- Nothing is converted between operands that are plain. -/
theorem combine_of_plain (hleft : Plain bound e) (hright : Plain bound e') (op : BinOp) :
    combine op e e' = .binary op e e' := by
  unfold combine
  rw [if_neg (hleft.ty.1 _), if_neg (hright.ty.1 _), ite_eq_left_iff]
  intro _
  split
  · exact absurd ‹_› hright.ty.2
  · exact absurd ‹_› hleft.ty.2
  · rfl

theorem Denotes.binary (h : Denotes bound t e) (h' : Denotes bound u e') (hleft : Plain bound e)
    (hright : Plain bound e') (op : BinOp) :
    Denotes bound (.binary op t u) (.binary op e e') := by
  intro env scope hscope
  rw [build, h env scope hscope, h' env scope hscope]
  exact congrArg Except.ok (combine_of_plain hleft hright op)

theorem bindParams_nil (names : List String) :
    bindParams [] names = names.map fun name => ⟨name, .unknown⟩ := by
  induction names with
  | nil => rfl
  | cons name names ih => rw [bindParams, ih, List.map_cons]

theorem Denotes.lambda {names : List String} (h : Denotes (names ++ bound) t e) :
    Denotes bound (.lambda names t) (.lambda (names.map fun name => ⟨name, .unknown⟩) e) := by
  intro env scope hscope
  rw [build, bindParams_nil, h env _ (hscope.lambda names)]
  rfl

def DenotesFields (bound : List String) (inits : List (Init Tree)) (fields : List (Named Expr)) :
    Prop :=
  List.Forall₂ (fun init field => init.label = some field.name ∧
    Denotes bound init.value field.value) inits fields

/-- A row is built field by field. -/
theorem DenotesFields.record {inits : List (Init Tree)} {fields : List (Named Expr)}
    (h : DenotesFields bound inits fields) : Denotes bound (.record inits) (.record fields) := by
  intro env scope hscope
  have hfields : buildFields env scope inits = .ok fields := by
    induction h with
    | nil => rfl
    | @cons init field inits fields hfield _ ih =>
        obtain ⟨label, source, value⟩ := init
        obtain ⟨rfl, hvalue⟩ := hfield
        rw [buildFields, hvalue env scope hscope, ih]
        rfl
  rw [build, hfields]
  rfl

end QueryText

end DeferredQuery
