import DeferredQuery.Proofs.Expr.Form
import DeferredQuery.Proofs.Expr.Nodes

/-!
# Shapes that read back

Where the names in a shape are names, its constants are literals and its conversions are between
scalar types, the reader finds the shape's form in its text. So shapes with one text have one form.
-/

namespace DeferredQuery

/-! ## Legible nodes -/

namespace Ty

def isScalar : Ty → Bool
  | .bool | .int | .float | .string | .uuid | .timestamp | .object | .null | .unknown => true
  | .nullable t => t.isScalar
  | _ => false

theorem text_plain : ∀ {t : Ty}, t.isScalar = true →
    ',' ∉ t.text.toList ∧ '>' ∉ t.text.toList
  | .nullable t, h => by
    obtain ⟨hcomma, hangle⟩ := text_plain (t := t) h
    simp [text, hcomma, hangle]
  | .bool, _ | .int, _ | .float, _ | .string, _ | .uuid, _ | .timestamp, _ | .object, _ | .null, _
  | .unknown, _ => by simp [text]

/-- The scalar type with a text, which is read from its end. -/
def ofReversed? : List Char → Option Ty
  | ['?'] => some .unknown
  | '?' :: rest => (ofReversed? rest).map .nullable
  | cs => [Ty.bool, .int, .float, .string, .uuid, .timestamp, .object, .null].find? fun t =>
    t.text.toList.reverse == cs

theorem ofReversed?_text : ∀ {t : Ty}, t.isScalar = true →
    t.text.toList ≠ [] ∧ ofReversed? t.text.toList.reverse = some t
  | .nullable t, h => by
    obtain ⟨hne, hread⟩ := ofReversed?_text (t := t) h
    obtain ⟨c, cs, hcs⟩ := List.exists_cons_of_ne_nil (List.reverse_ne_nil_iff.mpr hne)
    have htext : (nullable t).text.toList = t.text.toList ++ ['?'] := by simp [text]
    rw [htext, List.reverse_append, List.reverse_singleton, List.singleton_append, hcs, ofReversed?,
      ← hcs, hread]
    · exact ⟨by simp, rfl⟩
    · simp
  | .bool, _ | .int, _ | .float, _ | .string, _ | .uuid, _ | .timestamp, _ | .object, _ | .null, _
  | .unknown, _ => ⟨by simp [text], by decide⟩

theorem eq_of_text {t t' : Ty} (h : t.isScalar = true) (h' : t'.isScalar = true)
    (htext : t.text = t'.text) : t = t' := by
  have hread := (ofReversed?_text h).2
  rw [htext, (ofReversed?_text h').2] at hread
  exact (Option.some.inj hread).symm

end Ty

/-- The values that a query text spells, and entity sets. -/
def Value.isLiteral : Value → Bool
  | .null | .bool _ | .int _ | .string _ => true
  | .float x =>
    match Binary64.parts x with
    | .finite .. => true
    | _ => false
  | .query root => root.entity.toList.all (· != '>')
  | _ => false

theorem floatLayout_plain : Value.floatLayout.plain := by
  rintro _ ⟨⟩
  decide

theorem Value.float_signed {x : Float} (h : (Value.float x).isLiteral = true) :
    Decimal.Signed (floatLayout.text x).toList := by
  rw [isLiteral] at h
  split at h
  · exact Decimal.Layout.text_signed floatLayout_plain ‹_›
  · cases h

namespace Expr

def isNumber : Expr → Bool
  | .constant (.int _) _ | .constant (.float _) _ => true
  | _ => false

def isHead : Expr → Bool
  | .lambda .. | .unary .. => false
  | e => !e.isNumber

/-- Whether a node's own part of the text shows what it is. -/
def isClear : Expr → Bool
  | .constant v t => v.isLiteral && t == v.ty
  | .parameter name _ => Form.isName name
  | .member target name _ => Form.isWord name && target.isHead
  | .call m none _ _ => Form.owners.contains m.owner && Form.isWord m.name
  | .call m (some receiver) _ _ => m.owner == "String" && Form.isWord m.name && receiver.isHead
  | .lambda params _ => params.all fun p => Form.isName p.name
  | .convert operand t => operand.ty.isScalar && t.isScalar
  | .binary .. => true
  | .unary _ operand => !operand.isNumber
  | .record fields => fields.all fun field => Form.isWord field.name
  | .volatile _ => false

def Legible (e : Expr) : Prop := ∀ n ∈ e.nodes, n.isClear = true

instance (e : Expr) : Decidable e.Legible := inferInstanceAs (Decidable (∀ n ∈ e.nodes, _))

theorem Legible.node {e : Expr} (h : e.Legible) : e.isClear = true := h e (self_mem_nodes e)

theorem Legible.child {e c : Expr} (h : e.Legible) (hc : c ∈ e.children) : c.Legible :=
  fun n hn => h n (mem_nodes_of_child hc hn)

/-! ## Reading back -/

open Filter (atTop)
open Form (Ends Follows eventually_of_succ readSuffixes? readNamed? readArgs? readFields? isWord)
open QueryText (readToken?)

attribute [local simp] text

/-- The text of an expression reads back as its form, with enough fuel. -/
def ReadsBack (e : Expr) : Prop :=
  ∀ rest, Ends rest → ∀ᶠ n in atTop, Form.read? n (e.text.toList ++ rest) = some (e.form, rest)

def ReadsBackOn (e : Expr) : Prop :=
  ∀ rest, Follows rest → ∀ r, (∀ᶠ n in atTop, readSuffixes? n e.form rest = r) →
    ∀ᶠ n in atTop, Form.read? n (e.text.toList ++ rest) = r

theorem ReadsBackOn.readsBack {e : Expr} (h : e.ReadsBackOn) : e.ReadsBack := fun rest hrest =>
  h rest hrest.toFollows _ (eventually_of_succ (.of_forall (Form.readSuffixes?_ends hrest)))

/-- What starts with a word reads as the rest decides. -/
theorem eventually_named {name : String} (hname : isWord name = true) {rest : List Char}
    (hrest : ∀ c ∈ rest.head?, QueryText.isNameChar c = false) {r : Option (Form × List Char)}
    (h : ∀ᶠ n in atTop, readNamed? (n + 1) name rest = r) :
    ∀ᶠ n in atTop, Form.read? n (name.toList ++ rest) = r := by
  refine eventually_of_succ (eventually_of_succ ?_)
  filter_upwards [h] with n hn
  rw [Form.read?_word hname hrest, hn]

theorem eventually_word {name : String} (hname : isWord name = true) {rest : List Char}
    (hrest : Follows rest) {r : Option (Form × List Char)}
    (h : ∀ᶠ n in atTop, readSuffixes? n (.word name) rest = r) :
    ∀ᶠ n in atTop, Form.read? n (name.toList ++ rest) = r := by
  refine eventually_named hname hrest.name ?_
  filter_upwards [h] with n hn
  rw [Form.readNamed?_plain hrest, hn]

theorem readsBackOn_member {target : Expr} {name : String} {t : Ty} (h : target.ReadsBackOn)
    (hname : isWord name = true) : (Expr.member target name t).ReadsBackOn := by
  intro rest hrest r hr
  have htext : (Expr.member target name t).text.toList ++ rest =
      target.text.toList ++ '.' :: (name.toList ++ rest) := by simp
  rw [htext]
  refine h _ (Form.follows_dot _) r (eventually_of_succ ?_)
  filter_upwards [hr] with n hn
  rw [Form.readSuffixes?_member hname hrest]
  exact hn

/-! ### First characters -/

theorem head_of_word {name : String} (hname : isWord name = true) :
    ∃ c cs, name.toList = c :: cs ∧ c ≠ ')' ∧ c.isDigit = false := by
  obtain ⟨c, cs, hcs, hstart, -⟩ := Form.isWord_cons hname
  refine ⟨c, cs, hcs, ?_, Form.isDigit_of_isNameStart hstart⟩
  rintro rfl
  exact absurd hstart (by decide)

theorem isWord_of_owner {owner : String} (h : Form.owners.contains owner = true) :
    isWord owner = true := by
  simp only [Form.owners, List.contains_cons, List.contains_nil, Bool.or_false, Bool.or_eq_true,
    beq_iff_eq] at h
  rcases h with rfl | rfl | rfl | rfl <;> decide

theorem head_of_signed {cs : List Char} (h : Decimal.Signed cs) :
    ∃ c rest, cs = c :: rest ∧ c ≠ ')' := by
  rcases h with h | ⟨ds, -, rfl⟩
  · obtain ⟨c, rest, rfl, hc⟩ := h.head
    exact ⟨c, rest, rfl, Form.ne_of_isDigit hc rfl⟩
  · exact ⟨'-', ds, rfl, by decide⟩

/-- A literal's text begins with a digit only if it is a number, and never closes a parenthesis. -/
theorem head_of_constant {v : Value} {t : Ty} (h : v.isLiteral = true) :
    ∃ c cs, (Expr.constant v t).text.toList = c :: cs ∧ c ≠ ')' ∧
      ((Expr.constant v t).isNumber = false → c.isDigit = false) := by
  cases v with
  | int n =>
      obtain ⟨c, cs, hcs, hc⟩ := head_of_signed (Decimal.toString_signed n.toInt)
      exact ⟨c, cs, hcs, hc, nofun⟩
  | float x =>
      obtain ⟨c, cs, hcs, hc⟩ := head_of_signed (Value.float_signed h)
      exact ⟨c, cs, hcs, hc, nofun⟩
  | string s =>
      exact ⟨'"', _, by simp [Value.text, Text.quoted]; rfl, by decide, fun _ => rfl⟩
  | null => exact ⟨'n', ['u', 'l', 'l'], by simp [Value.text], by decide, fun _ => rfl⟩
  | bool b =>
      cases b with
      | false =>
          exact ⟨'f', ['a', 'l', 's', 'e'], by simp [Value.text], by decide, fun _ => rfl⟩
      | true => exact ⟨'t', ['r', 'u', 'e'], by simp [Value.text], by decide, fun _ => rfl⟩
  | query root =>
      exact ⟨'Q', _, by simp [Value.text]; rfl, by decide, fun _ => rfl⟩
  | _ => cases h

theorem isNumber_of_isHead {e : Expr} (h : e.isHead = true) : e.isNumber = false := by
  cases e with
  | constant v t => simpa [isHead] using h
  | _ => rfl

theorem isWord_of_isName {name : String} (h : Form.isName name = true) : isWord name = true := by
  rw [Form.isName, Bool.and_eq_true, Bool.and_eq_true] at h
  exact h.1.1

theorem paramsText_of_ne {params : List Binder} (h : ¬∃ p, params = [p]) :
    paramsText params = "(" ++ Text.commaSep (params.map Binder.name) ++ ")" := by
  unfold paramsText
  split
  · exact absurd ⟨_, rfl⟩ h
  · rfl

/-- What a text begins with: a digit only if it is a number. -/
theorem text_head {e : Expr} (h : e.Legible) :
    ∃ c cs, e.text.toList = c :: cs ∧ c ≠ ')' ∧ (e.isNumber = false → c.isDigit = false) := by
  induction e with
  | constant v t =>
      have hnode := h.node
      rw [isClear, Bool.and_eq_true] at hnode
      exact head_of_constant hnode.1
  | parameter name t =>
      have hnode := h.node
      rw [isClear, Form.isName, Bool.and_eq_true, Bool.and_eq_true] at hnode
      obtain ⟨c, cs, hcs, hc, hdigit⟩ := head_of_word hnode.1.1
      exact ⟨c, cs, hcs, hc, fun _ => hdigit⟩
  | member target name t ih =>
      have hnode := h.node
      rw [isClear, Bool.and_eq_true] at hnode
      obtain ⟨c, cs, hcs, hc, hdigit⟩ := ih (h.child (by simp [children]))
      exact ⟨c, _, by simp [hcs]; rfl, hc, fun _ => hdigit (isNumber_of_isHead hnode.2)⟩
  | call m r args t ihr _ =>
      have hnode := h.node
      cases r with
      | none =>
          rw [isClear, Bool.and_eq_true] at hnode
          obtain ⟨c, cs, hcs, hc, hdigit⟩ := head_of_word (isWord_of_owner hnode.1)
          exact ⟨c, _, by simp [Method.text, hcs]; rfl, hc, fun _ => hdigit⟩
      | some receiver =>
          rw [isClear, Bool.and_eq_true] at hnode
          obtain ⟨c, cs, hcs, hc, hdigit⟩ := ihr receiver rfl (h.child (by simp [children]))
          exact ⟨c, _, by simp [hcs]; rfl, hc, fun _ => hdigit (isNumber_of_isHead hnode.2)⟩
  | lambda params body ih =>
      have hnode := h.node
      rw [isClear, List.all_eq_true] at hnode
      by_cases hsingle : ∃ p, params = [p]
      · obtain ⟨p, rfl⟩ := hsingle
        obtain ⟨c, cs, hcs, hc, hdigit⟩ := head_of_word (isWord_of_isName (hnode p (by simp)))
        exact ⟨c, _, by simp [paramsText, hcs]; rfl, hc, fun _ => hdigit⟩
      · exact ⟨'(', _, by simp [paramsText_of_ne hsingle]; rfl, by decide, fun _ => rfl⟩
  | convert operand t ih => exact ⟨'C', _, by simp; rfl, by decide, fun _ => rfl⟩
  | binary op l r => exact ⟨'(', _, by simp; rfl, by decide, fun _ => rfl⟩
  | unary op operand ih =>
      cases op with
      | neg => exact ⟨'-', _, by simp; rfl, by decide, fun _ => rfl⟩
      | not => exact ⟨'!', _, by simp; rfl, by decide, fun _ => rfl⟩
  | record fields => exact ⟨'n', _, by simp; rfl, by decide, fun _ => rfl⟩
  | volatile inner => exact absurd h.node (by simp [isClear])

/-! ### Arguments and fields -/

/-- Arguments read back in their order, and the fuel for each of them is enough in the end. -/
theorem eventually_readArgs {es : List Expr} (hlegible : ∀ e ∈ es, e.Legible)
    (hreads : ∀ e ∈ es, e.ReadsBack) (rest : List Char) :
    ∀ᶠ n in atTop, readArgs? n ((Text.commaSep (texts es)).toList ++ ')' :: rest) =
      some (forms es, rest) := by
  induction es with
  | nil => exact eventually_of_succ (.of_forall fun n => Form.readArgs?_nil rest)
  | cons e es ih =>
      obtain ⟨c, cs, hcs, hc, -⟩ := text_head (hlegible e List.mem_cons_self)
      have hopen : ∀ more, readToken? [')'] (e.text.toList ++ more) = none := fun more => by
        rw [hcs]
        exact Form.readToken?_of_ne hc [] _
      refine eventually_of_succ ?_
      cases es with
      | nil =>
          filter_upwards [hreads e List.mem_cons_self _ (Form.ends_paren rest)] with n hn
          exact Form.readArgs?_singleton (hopen _) hn
      | cons e' es =>
          have htext : (Text.commaSep (texts (e :: e' :: es))).toList ++ ')' :: rest =
              e.text.toList ++ ',' :: ' ' :: ((Text.commaSep (texts (e' :: es))).toList ++
                ')' :: rest) := by
            simp [texts, Text.commaSep, Text.joinWith_cons_cons]
          have hmore := ih (fun x hx => hlegible x (List.mem_cons_of_mem _ hx))
            fun x hx => hreads x (List.mem_cons_of_mem _ hx)
          filter_upwards [hreads e List.mem_cons_self _ (Form.ends_comma _), hmore] with n hn hmore
          rw [htext]
          exact Form.readArgs?_cons (hopen _) hn hmore

theorem eventually_readFields {fields : List (Named Expr)}
    (hnames : ∀ field ∈ fields, isWord field.name = true)
    (hreads : ∀ field ∈ fields, field.value.ReadsBack) (rest : List Char) :
    ∀ᶠ n in atTop,
      readFields? n ((Text.commaSep (fieldTexts fields)).toList ++ ' ' :: '\x7d' :: rest) =
        some (fieldForms fields, rest) := by
  induction fields with
  | nil => exact eventually_of_succ (.of_forall fun n => Form.readFields?_nil rest)
  | cons field fields ih =>
      obtain ⟨name, e⟩ := field
      have hname : isWord name = true := hnames ⟨name, e⟩ List.mem_cons_self
      have he : e.ReadsBack := hreads ⟨name, e⟩ List.mem_cons_self
      refine eventually_of_succ ?_
      cases fields with
      | nil =>
          have htext : (Text.commaSep (fieldTexts [⟨name, e⟩])).toList ++ ' ' :: '\x7d' :: rest =
              name.toList ++ ' ' :: '=' :: ' ' :: (e.text.toList ++ ' ' :: '\x7d' :: rest) := by
            simp [fieldTexts, Text.commaSep]
          filter_upwards [he _ (Form.ends_brace rest)] with n hn
          rw [htext]
          exact Form.readFields?_singleton hname hn
      | cons field' fields =>
          have htext : (Text.commaSep (fieldTexts (⟨name, e⟩ :: field' :: fields))).toList ++
              ' ' :: '\x7d' :: rest = name.toList ++ ' ' :: '=' :: ' ' :: (e.text.toList ++
                ',' :: ' ' :: ((Text.commaSep (fieldTexts (field' :: fields))).toList ++
                  ' ' :: '\x7d' :: rest)) := by
            simp [fieldTexts, Text.commaSep, Text.joinWith_cons_cons]
          have hmore := ih (fun x hx => hnames x (List.mem_cons_of_mem _ hx))
            fun x hx => hreads x (List.mem_cons_of_mem _ hx)
          filter_upwards [he _ (Form.ends_comma _), hmore] with n hn hmore
          rw [htext]
          exact Form.readFields?_cons hname hn hmore

/-! ### Nodes -/

/-- A call reads back behind its receiver, or behind the owner of its method. -/
theorem readsBackOn_call {m : Method} {r : Option Expr} {args : List Expr} {t : Ty}
    (hnode : (Expr.call m r args t).isClear = true) (hr : ∀ e, r = some e → e.ReadsBackOn)
    (hlegible : ∀ e ∈ args, e.Legible) (hargs : ∀ e ∈ args, e.ReadsBack) :
    (Expr.call m r args t).ReadsBackOn := by
  intro rest hrest r' hr'
  have hlist := eventually_readArgs hlegible hargs rest
  have hcall : ∀ {f : Form}, isWord m.name = true → (Expr.call m r args t).form =
      .call f m.name (forms args) → ∀ᶠ n in atTop, readSuffixes? n f ('.' :: (m.name.toList ++
        '(' :: ((Text.commaSep (texts args)).toList ++ ')' :: rest))) = r' := by
    intro f hname hform
    refine eventually_of_succ ?_
    filter_upwards [hlist, hr'] with n hlist hn
    rw [Form.readSuffixes?_call hname hlist, ← hform, hn]
  cases r with
  | none =>
      rw [isClear, Bool.and_eq_true] at hnode
      have htext : (Expr.call m none args t).text.toList ++ rest = m.owner.toList ++ '.' ::
          (m.name.toList ++ '(' :: ((Text.commaSep (texts args)).toList ++ ')' :: rest)) := by
        simp [Method.text]
      rw [htext]
      exact eventually_word (isWord_of_owner hnode.1) (Form.follows_dot _) (hcall hnode.2 rfl)
  | some e =>
      rw [isClear, Bool.and_eq_true, Bool.and_eq_true] at hnode
      have htext : (Expr.call m (some e) args t).text.toList ++ rest = e.text.toList ++ '.' ::
          (m.name.toList ++ '(' :: ((Text.commaSep (texts args)).toList ++ ')' :: rest)) := by
        simp
      rw [htext]
      exact hr e rfl _ (Form.follows_dot _) r' (hcall hnode.1.2 rfl)

theorem readsBackOn_convert {operand : Expr} {t : Ty}
    (hnode : (Expr.convert operand t).isClear = true)
    (h : operand.ReadsBack) : (Expr.convert operand t).ReadsBackOn := by
  intro rest hrest r hr
  rw [isClear, Bool.and_eq_true] at hnode
  have htext : (Expr.convert operand t).text.toList ++ rest = "Convert".toList ++
      '<' :: (operand.ty.text.toList ++ ',' :: ' ' :: (t.text.toList ++
        '>' :: '(' :: (operand.text.toList ++ ')' :: rest))) := by
    simp
  rw [htext]
  refine eventually_named (by decide) (by rintro _ ⟨⟩; decide) ?_
  filter_upwards [h _ (Form.ends_paren rest), hr] with n hn hr
  rw [Form.readNamed?_convert (Ty.text_plain hnode.1).1 (Ty.text_plain hnode.2).2 hn, ← hr, form]

theorem readsBackOn_record {fields : List (Named Expr)}
    (hnode : (Expr.record fields).isClear = true) (h : ∀ field ∈ fields, field.value.ReadsBack) :
    (Expr.record fields).ReadsBackOn := by
  intro rest hrest r hr
  rw [isClear, List.all_eq_true] at hnode
  have htext : (Expr.record fields).text.toList ++ rest = "new".toList ++
      ' ' :: '\x7b' :: ' ' :: ((Text.commaSep (fieldTexts fields)).toList ++
        ' ' :: '\x7d' :: rest) := by
    simp
  rw [htext]
  refine eventually_named (by decide) (by rintro _ ⟨⟩; decide) ?_
  filter_upwards [eventually_readFields hnode h rest, hr] with n hfields hr
  rw [Form.readNamed?_record hfields, ← hr, form]

/-- A list of names is made of the characters of names, commas and blanks. -/
theorem commaSep_names {names : List String} (h : ∀ name ∈ names, isWord name = true) {c : Char}
    (hc : c ∈ (Text.commaSep names).toList) :
    QueryText.isNameChar c = true ∨ c = ',' ∨ c = ' ' := by
  induction names with
  | nil => simp [Text.commaSep] at hc
  | cons name names ih =>
      obtain ⟨_, _, hname, -, hall⟩ := Form.isWord_cons (h name List.mem_cons_self)
      rw [← hname] at hall
      cases names with
      | nil => exact .inl (hall c hc)
      | cons name' names =>
          rw [Text.commaSep, Text.joinWith_cons_cons, String.toList_append, String.toList_append,
            List.mem_append, List.mem_append] at hc
          rcases hc with (hc | hc) | hc
          · exact .inl (hall c hc)
          · have hsep : ", ".toList = [',', ' '] := rfl
            rw [hsep] at hc
            simp only [List.mem_cons, List.not_mem_nil, or_false] at hc
            exact .inr hc
          · exact ih (fun x hx => h x (List.mem_cons_of_mem _ hx)) hc

/-- None or several names in parentheses are the parameters of a lambda; a single one is not. -/
theorem opensParams_names {names : List String} (h : ∀ name ∈ names, isWord name = true)
    (hne : ∀ name, names ≠ [name]) (rest : List Char) :
    Form.opensParams ((Text.commaSep names).toList ++ ')' :: rest) = true := by
  match names, hne with
  | [], _ => rfl
  | [name], hne => exact absurd rfl (hne name)
  | name :: name' :: names, _ =>
      have htext : (Text.commaSep (name :: name' :: names)).toList ++ ')' :: rest = name.toList ++
          ',' :: ' ' :: ((Text.commaSep (name' :: names)).toList ++ ')' :: rest) := by
        simp [Text.commaSep, Text.joinWith_cons_cons]
      have hcomma : ∀ more, ∀ c ∈ (',' :: more).head?, QueryText.isNameChar c = false := by
        rintro more _ ⟨⟩
        decide
      rw [htext, Form.opensParams,
        (Form.word_append (h name List.mem_cons_self) (hcomma _)).2]
      rfl

/-- A single parameter stands alone, and several of them in parentheses. -/
theorem readsBack_lambda {params : List Binder} {body : Expr}
    (hnode : (Expr.lambda params body).isClear = true) (h : body.ReadsBack) :
    (Expr.lambda params body).ReadsBack := by
  intro rest hrest
  rw [isClear, List.all_eq_true] at hnode
  have hwords : ∀ name ∈ params.map Binder.name, isWord name = true := fun name hname => by
    obtain ⟨p, hp, rfl⟩ := List.mem_map.mp hname
    exact isWord_of_isName (hnode p hp)
  by_cases hsingle : ∃ p, params = [p]
  · obtain ⟨p, rfl⟩ := hsingle
    have htext : (Expr.lambda [p] body).text.toList ++ rest =
        p.name.toList ++ ' ' :: '=' :: '>' :: ' ' :: (body.text.toList ++ rest) := by
      simp [paramsText]
    rw [htext]
    refine eventually_named (hwords _ (by simp)) (by rintro _ ⟨⟩; decide) ?_
    filter_upwards [h rest hrest] with n hn
    rw [Form.readNamed?_arrow hn, form, paramsText]
  · have hne : ∀ name, params.map Binder.name ≠ [name] := fun name hname => by
      obtain ⟨p, rfl, -⟩ := List.map_eq_singleton_iff.mp hname
      exact hsingle ⟨p, rfl⟩
    have hparams := paramsText_of_ne hsingle
    have htext : (Expr.lambda params body).text.toList ++ rest =
        '(' :: ((Text.commaSep (params.map Binder.name)).toList ++
          ')' :: ' ' :: '=' :: '>' :: ' ' :: (body.text.toList ++ rest)) := by
      simp [hparams]
    have hclose : ')' ∉ (Text.commaSep (params.map Binder.name)).toList := fun hmem => by
      have := commaSep_names hwords hmem
      revert this
      decide
    rw [htext]
    refine eventually_of_succ ?_
    filter_upwards [h rest hrest] with n hn
    rw [Form.read?_lambda (opensParams_names hwords hne _) hclose hn, form, hparams,
      String.ofList_toList]

theorem readsBack_unary {op : UnOp} {operand : Expr}
    (hnode : (Expr.unary op operand).isClear = true)
    (hoperand : operand.Legible) (h : operand.ReadsBack) : (Expr.unary op operand).ReadsBack := by
  intro rest hrest
  rw [isClear, Bool.not_eq_true'] at hnode
  obtain ⟨c, cs, hcs, -, hdigit⟩ := text_head hoperand
  refine eventually_of_succ ?_
  filter_upwards [h rest hrest] with n hn
  cases op with
  | not =>
      have htext : (Expr.unary .not operand).text.toList ++ rest =
          '!' :: (operand.text.toList ++ rest) := by simp
      rw [htext, Form.read?_not hn, form]
  | neg =>
      have htext : (Expr.unary .neg operand).text.toList ++ rest =
          '-' :: (operand.text.toList ++ rest) := by simp
      have hhead : ((operand.text.toList ++ rest).head?.any Char.isDigit) = false := by
        simp [hcs, hdigit hnode]
      rw [htext, Form.read?_neg hhead hn, form]

/-- A parenthesis before an operation does not open the parameters of a lambda. -/
theorem readsBackOn_binary {op : BinOp} {left right : Expr} (hleft : left.ReadsBack)
    (hright : right.ReadsBack)
    (hopen : ∀ more, Form.opensParams (left.text.toList ++ ' ' :: more) = false) :
    (Expr.binary op left right).ReadsBackOn := by
  intro rest hrest r hr
  have htext : (Expr.binary op left right).text.toList ++ rest =
      '(' :: (left.text.toList ++ ' ' :: (op.symbol.toList ++ ' ' ::
        (right.text.toList ++ ')' :: rest))) := by simp
  rw [htext]
  refine eventually_of_succ ?_
  filter_upwards [hleft _ (Form.ends_symbol op _), hright _ (Form.ends_paren rest), hr]
    with n hleft hright hr
  rw [Form.read?_binary op (hopen _) hleft hright, ← hr, form]

theorem readsBackOn_parameter {name : String} {t : Ty} (h : isWord name = true) :
    (Expr.parameter name t).ReadsBackOn :=
  fun _ hrest _ hr => eventually_word h hrest hr

theorem readsBack_constant {v : Value} {t : Ty} (h : v.isLiteral = true) :
    (Expr.constant v t).ReadsBack ∧
      ((Expr.constant v t).isHead = true → (Expr.constant v t).ReadsBackOn) := by
  have hhead : (Expr.constant v t).ReadsBackOn → (Expr.constant v t).ReadsBack ∧
      ((Expr.constant v t).isHead = true → (Expr.constant v t).ReadsBackOn) :=
    fun h => ⟨h.readsBack, fun _ => h⟩
  cases v with
  | int n =>
      refine ⟨fun rest hrest => eventually_of_succ (.of_forall fun n => ?_), nofun⟩
      rw [text, Value.text, Form.read?_signed (Decimal.toString_signed _) hrest.number, form,
        Value.form]
  | float x =>
      refine ⟨fun rest hrest => eventually_of_succ (.of_forall fun n => ?_), nofun⟩
      rw [text, Value.text, Form.read?_signed (Value.float_signed h) hrest.number, form, Value.form]
  | string s =>
      refine hhead fun rest hrest r hr => ?_
      have htext : (Expr.constant (.string s) t).text.toList ++ rest =
          '"' :: (s.toList.flatMap Text.quoteChar ++ '"' :: rest) := by
        simp [Value.text, Text.quoted]
      rw [htext]
      refine eventually_of_succ ?_
      filter_upwards [hr] with n hn
      rw [Form.read?_quoted, ← hn, form, Value.form]
  | null =>
      refine hhead fun rest hrest r hr => ?_
      rw [text, Value.text]
      rw [form, Value.form, Value.text] at hr
      · exact eventually_word (by decide) hrest hr
      all_goals simp
  | bool b =>
      refine hhead fun rest hrest r hr => ?_
      rw [text, Value.text]
      rw [form, Value.form, Value.text] at hr
      · exact eventually_word (by cases b <;> decide) hrest hr
      all_goals simp
  | query root =>
      refine hhead fun rest hrest r hr => ?_
      have hangle : '>' ∉ root.entity.toList := fun hmem => by
        simpa using List.all_eq_true.mp h _ hmem
      have htext : (Expr.constant (.query root) t).text.toList ++ rest =
          "Query".toList ++ '<' :: (root.entity.toList ++ '>' :: rest) := by
        simp [Value.text]
      rw [htext]
      refine eventually_named (by decide) (by rintro _ ⟨⟩; decide) ?_
      filter_upwards [hr] with n hn
      rw [Form.readNamed?_set (by decide) hangle, ← hn, form, Value.form]
  | _ => cases h

/-! ### Whole shapes -/

theorem opensParams_append {cs rest : List Char} (hcs : ∀ c ∈ cs, c ≠ ')' ∧ c ≠ ',')
    (hrest : Form.opensParams rest = false) : Form.opensParams (cs ++ rest) = false := by
  induction cs with
  | nil => exact hrest
  | cons c cs ih =>
      rw [Form.opensParams, Form.afterName, List.cons_append, List.dropWhile_cons]
      split
      · exact ih fun d hd => hcs d (List.mem_cons_of_mem _ hd)
      · have := hcs c List.mem_cons_self
        simp [this]

theorem opensParams_word {name : String} (hname : isWord name = true) {rest : List Char}
    (hrest : Form.opensParams rest = false) :
    Form.opensParams (name.toList ++ rest) = false := by
  obtain ⟨_, _, hcs, -, hall⟩ := Form.isWord_cons hname
  rw [← hcs] at hall
  refine opensParams_append (fun c hc => ⟨?_, ?_⟩) hrest <;>
    · rintro rfl
      exact absurd (hall _ hc) (by decide)

theorem opensParams_number {cs rest : List Char} (hcs : Decimal.Signed cs)
    (hrest : Form.opensParams rest = false) : Form.opensParams (cs ++ rest) = false := by
  have hall : ∀ c ∈ cs, Decimal.isNumberChar c = true := by
    rcases hcs with hcs | ⟨ds, hds, rfl⟩
    · exact hcs.all
    · exact List.forall_mem_cons.mpr ⟨rfl, hds.all⟩
  refine opensParams_append (fun c hc => ⟨?_, ?_⟩) hrest <;>
    · rintro rfl
      exact absurd (hall _ hc) (by decide)

/-- No literal is taken for the parameters of a lambda. -/
theorem opensParams_constant {v : Value} {t : Ty} (h : v.isLiteral = true) {rest : List Char}
    (hrest : Form.opensParams rest = false) :
    Form.opensParams ((Expr.constant v t).text.toList ++ rest) = false := by
  rw [text]
  cases v with
  | int n =>
      rw [Value.text]
      exact opensParams_number (Decimal.toString_signed _) hrest
  | float x =>
      rw [Value.text]
      exact opensParams_number (Value.float_signed h) hrest
  | null =>
      rw [Value.text]
      exact opensParams_word (by decide) hrest
  | bool b =>
      rw [Value.text]
      exact opensParams_word (by cases b <;> decide) hrest
  | string s =>
      have htext : (Value.string s).text.toList ++ rest =
          '"' :: (s.toList.flatMap Text.quoteChar ++ '"' :: rest) := by
        simp [Value.text, Text.quoted]
      rw [htext]
      rfl
  | query root =>
      have htext : (Value.query root).text.toList ++ rest =
          "Query".toList ++ '<' :: (root.entity.toList ++ '>' :: rest) := by
        simp [Value.text]
      rw [htext]
      exact opensParams_word (by decide) rfl
  | _ => cases h

/-- A left operand does not look like the parameters of a lambda. -/
theorem opensParams_text {e : Expr} (h : e.Legible) {rest : List Char}
    (hrest : Form.opensParams rest = false) :
    Form.opensParams (e.text.toList ++ rest) = false := by
  have hnode := h.node
  induction e generalizing rest with
  | constant v t =>
      rw [isClear, Bool.and_eq_true] at hnode
      exact opensParams_constant hnode.1 hrest
  | parameter name t =>
      rw [text]
      exact opensParams_word (isWord_of_isName hnode) hrest
  | member target name t ih =>
      have htarget : target.Legible := h.child (by simp [children])
      have htext : (Expr.member target name t).text.toList ++ rest =
          target.text.toList ++ '.' :: (name.toList ++ rest) := by simp
      rw [htext]
      exact ih htarget rfl htarget.node
  | call m r args t ihr _ =>
      cases r with
      | none =>
          rw [isClear, Bool.and_eq_true] at hnode
          have htext : (Expr.call m none args t).text.toList ++ rest = m.owner.toList ++
              '.' :: ((m.name ++ "(" ++ Text.commaSep (texts args) ++ ")").toList ++ rest) := by
            simp [Method.text]
          rw [htext]
          exact opensParams_word (isWord_of_owner hnode.1) rfl
      | some receiver =>
          have hreceiver : receiver.Legible := h.child (by simp [children])
          have htext : (Expr.call m (some receiver) args t).text.toList ++ rest =
              receiver.text.toList ++
                '.' :: ((m.name ++ "(" ++ Text.commaSep (texts args) ++ ")").toList ++ rest) := by
            simp
          rw [htext]
          exact ihr receiver rfl hreceiver rfl hreceiver.node
  | lambda params body ih =>
      rw [isClear, List.all_eq_true] at hnode
      by_cases hsingle : ∃ p, params = [p]
      · obtain ⟨p, rfl⟩ := hsingle
        have htext : (Expr.lambda [p] body).text.toList ++ rest =
            p.name.toList ++ ' ' :: ("=> ".toList ++ (body.text.toList ++ rest)) := by
          simp [paramsText]
        rw [htext]
        exact opensParams_word (isWord_of_isName (hnode p (by simp))) rfl
      · simp only [text, paramsText_of_ne hsingle, String.toList_append, List.append_assoc]
        rfl
  | convert operand t ih =>
      have htext : (Expr.convert operand t).text.toList ++ rest = "Convert".toList ++ '<' ::
          ((operand.ty.text ++ ", " ++ t.text ++ ">(" ++ operand.text ++ ")").toList ++ rest) := by
        simp
      rw [htext]
      exact opensParams_word (by decide) rfl
  | binary op l r =>
      simp only [text, String.toList_append, List.append_assoc]
      rfl
  | unary op operand ih =>
      cases op <;>
        · simp only [text, String.toList_append, List.append_assoc]
          rfl
  | record fields =>
      have htext : (Expr.record fields).text.toList ++ rest = "new".toList ++ ' ' ::
          (("\x7b " ++ Text.commaSep (fieldTexts fields) ++ " \x7d").toList ++ rest) := by
        simp
      rw [htext]
      exact opensParams_word (by decide) rfl
  | volatile inner => exact absurd hnode (by simp [isClear])

/-- The text of a legible expression reads back as its form. -/
theorem readsBack_of_legible {e : Expr} (h : e.Legible) :
    e.ReadsBack ∧ (e.isHead = true → e.ReadsBackOn) := by
  have hon : ∀ {e : Expr}, e.ReadsBackOn → e.ReadsBack ∧ (e.isHead = true → e.ReadsBackOn) :=
    fun h => ⟨h.readsBack, fun _ => h⟩
  induction e with
  | constant v t =>
      have hnode := h.node
      rw [isClear, Bool.and_eq_true] at hnode
      exact readsBack_constant hnode.1
  | parameter name t => exact hon (readsBackOn_parameter (isWord_of_isName h.node))
  | member target name t ih =>
      have hnode := h.node
      rw [isClear, Bool.and_eq_true] at hnode
      exact hon (readsBackOn_member ((ih (h.child (by simp [children]))).2 hnode.2) hnode.1)
  | call m r args t ihr ihargs =>
      refine hon (readsBackOn_call h.node ?_ (fun e he => h.child (by simp [children, he]))
        fun e he => (ihargs e he (h.child (by simp [children, he]))).1)
      rintro e rfl
      have hnode := h.node
      rw [isClear, Bool.and_eq_true] at hnode
      exact (ihr e rfl (h.child (by simp [children]))).2 hnode.2
  | lambda params body ih =>
      exact ⟨readsBack_lambda h.node (ih (h.child (by simp [children]))).1,
        fun hhead => absurd hhead (by simp [isHead])⟩
  | convert operand t ih =>
      exact hon (readsBackOn_convert h.node (ih (h.child (by simp [children]))).1)
  | binary op l r ihl ihr =>
      have hl : l.Legible := h.child (by simp [children])
      exact hon (readsBackOn_binary (ihl hl).1 (ihr (h.child (by simp [children]))).1 fun more =>
        opensParams_text hl rfl)
  | unary op operand ih =>
      have hoperand : operand.Legible := h.child (by simp [children])
      exact ⟨readsBack_unary h.node hoperand (ih hoperand).1,
        fun hhead => absurd hhead (by simp [isHead])⟩
  | record fields ih =>
      exact hon (readsBackOn_record h.node fun field hfield =>
        (ih field hfield (h.child (List.mem_map_of_mem hfield))).1)
  | volatile inner => exact absurd h.node (by simp [isClear])

/-- Legible expressions with one text have one form. -/
theorem form_eq_of_text {e e' : Expr} (h : e.Legible) (h' : e'.Legible) (htext : e.text = e'.text) :
    e.form = e'.form := by
  have hread := (readsBack_of_legible h).1 [] Form.ends_nil
  have hread' := (readsBack_of_legible h').1 [] Form.ends_nil
  obtain ⟨n, hn, hn'⟩ := (hread.and hread').exists
  rw [htext, hn'] at hn
  exact (congrArg Prod.fst (Option.some.inj hn)).symm

end Expr

end DeferredQuery
