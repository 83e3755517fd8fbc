import DeferredQuery.Proofs.Expr.Children
import DeferredQuery.Proofs.Expr.Legible
import DeferredQuery.Sql.Statement

/-!
# Shapes of one form

Two legible shapes with one text have the same nodes: they differ in the static types of leaves and
calls, in the names of their entity sets, and in floating point literals that are written alike.
-/

namespace DeferredQuery

/-! ## Constants -/

namespace Value

/-- The values are the same but for what their texts leave out: the name of an entity set, and the
last bits of a floating point number if two of them are written alike. -/
inductive Alike : Value → Value → Prop where
  | same (v : Value) : Alike v v
  | float {x y : Float} (h : Sql.floatLayout.text x = Sql.floatLayout.text y) :
    Alike (.float x) (.float y)
  | query {root root' : SetRef} (h : root.entity = root'.entity) :
    Alike (.query root) (.query root')

theorem parts_of_isLiteral {x : Float} (h : (Value.float x).isLiteral = true) :
    ∃ negative m q, Binary64.parts x = .finite negative m q := by
  rw [isLiteral] at h
  split at h
  · exact ⟨_, _, _, ‹_›⟩
  · cases h

theorem alike_of_float {x y : Float} (hx : (Value.float x).isLiteral = true)
    (hy : (Value.float y).isLiteral = true) (h : floatLayout.text x = floatLayout.text y) :
    Alike (.float x) (.float y) := by
  obtain ⟨_, _, _, hparts⟩ := parts_of_isLiteral hx
  obtain ⟨_, _, _, hparts'⟩ := parts_of_isLiteral hy
  have hplain : Sql.floatLayout.plain := nofun
  exact .float (Decimal.Layout.text_eq_of_text floatLayout_plain hplain rfl hparts hparts' h)

theorem int_ne_float {n : Int64} {x : Float} (hx : (Value.float x).isLiteral = true) :
    (toString n.toInt).toList ≠ (floatLayout.text x).toList := by
  obtain ⟨_, _, _, hparts⟩ := parts_of_isLiteral hx
  exact fun h => Decimal.Layout.text_ne_toString floatLayout_plain rfl hparts n.toInt
    (String.toList_injective h)

/-- Literals of one form are alike. -/
theorem alike_of_form {v v' : Value} (h : v.isLiteral = true) (h' : v'.isLiteral = true)
    (hform : v.form = v'.form) : v.Alike v' := by
  cases v <;> cases v' <;> first | (cases h; done) | (cases h'; done) | skip
  all_goals simp only [form, text, Form.number.injEq, Form.quoted.injEq, Form.set.injEq,
    Form.word.injEq, reduceCtorEq] at hform
  case null.null => exact .same _
  case null.bool b => cases b <;> simp at hform
  case bool.null b => cases b <;> simp at hform
  case bool.bool b b' =>
    cases b <;> cases b' <;> first | exact .same _ | simp at hform
  case int.int n n' =>
    have := Decimal.toString_injective (String.toList_injective hform)
    rw [Int64.toInt_inj.mp this]
    exact .same _
  case int.float n x => exact absurd hform (int_ne_float h')
  case float.int x n => exact absurd hform.symm (int_ne_float h)
  case float.float x y => exact alike_of_float h h' (String.toList_injective hform)
  case string.string s s' =>
    rw [String.toList_injective (Text.quoted_injective hform)]
    exact .same _
  case query.query root root' => exact .query hform

end Value

/-! ## Nodes -/

namespace Expr

open Form (isName isWord)

def ShownBy : Form → Expr → Prop
  | .number _, e | .quoted _, e | .set _, e => ∃ v, e = .constant v v.ty ∧ v.isLiteral = true
  | .word w, e =>
    (∃ v, e = .constant v v.ty ∧ v.isLiteral = true ∧ w ∈ ["null", "true", "false"]) ∨
      ∃ t, e = .parameter w t ∧ isName w = true
  | .member f name, e => ∃ target t, e = .member target name t ∧ target.form = f
  | .call f name fs, e =>
    (∃ m args t, e = .call m none args t ∧ Form.owners.contains m.owner = true ∧
      f = .word m.owner ∧ m.name = name ∧ args.map form = fs) ∨
    ∃ m r args t, e = .call m (some r) args t ∧ m.owner = "String" ∧ r.form = f ∧
      m.name = name ∧ args.map form = fs
  | .lambda s f, e => ∃ params body, e = .lambda params body ∧ paramsText params = s ∧ body.form = f
  | .convert source target f, e => ∃ operand t, e = .convert operand t ∧
      operand.ty.isScalar = true ∧ t.isScalar = true ∧ operand.ty.text = source ∧
      t.text = target ∧ operand.form = f
  | .binary symbol f g, e => ∃ op left right, e = .binary op left right ∧ op.symbol = symbol ∧
      left.form = f ∧ right.form = g
  | .unary op f, e => ∃ operand, e = .unary op operand ∧ operand.form = f
  | .record fs, e => ∃ fields, e = .record fields ∧
      fields.map (fun field => ⟨field.name, field.value.form⟩) = fs

theorem shownBy_constant {v : Value} (h : v.isLiteral = true) :
    ShownBy v.form (.constant v v.ty) := by
  cases v with
  | null => exact .inl ⟨.null, rfl, h, by simp [Value.text]⟩
  | bool b => exact .inl ⟨.bool b, rfl, h, by cases b <;> simp [Value.text]⟩
  | int n => exact ⟨.int n, rfl, h⟩
  | float x => exact ⟨.float x, rfl, h⟩
  | string s => exact ⟨.string s, rfl, h⟩
  | query root => exact ⟨.query root, rfl, h⟩
  | _ => cases h

/-- By cases on the expression: a clear node is the only one of its form. -/
theorem shownBy_form {e : Expr} (h : e.Legible) : ShownBy e.form e := by
  have hnode := h.node
  cases e with
  | constant v t =>
      rw [isClear, Bool.and_eq_true, beq_iff_eq] at hnode
      obtain ⟨hv, rfl⟩ := hnode
      exact shownBy_constant hv
  | parameter name t => exact .inr ⟨t, rfl, hnode⟩
  | member target name t => exact ⟨target, t, rfl, rfl⟩
  | call m r args t =>
      cases r with
      | none =>
          rw [isClear, Bool.and_eq_true] at hnode
          exact .inl ⟨m, args, t, rfl, hnode.1, rfl, rfl, (forms_eq_map args).symm⟩
      | some r =>
          rw [isClear, Bool.and_eq_true, Bool.and_eq_true, beq_iff_eq] at hnode
          exact .inr ⟨m, r, args, t, rfl, hnode.1.1, rfl, rfl, (forms_eq_map args).symm⟩
  | lambda params body => exact ⟨params, body, rfl, rfl, rfl⟩
  | convert operand t =>
      rw [isClear, Bool.and_eq_true] at hnode
      exact ⟨operand, t, rfl, hnode.1, hnode.2, rfl, rfl, rfl⟩
  | binary op left right => exact ⟨op, left, right, rfl, rfl, rfl, rfl⟩
  | unary op operand => exact ⟨operand, rfl, rfl⟩
  | record fields => exact ⟨fields, rfl, (fieldForms_eq_map fields).symm⟩
  | volatile inner => exact absurd hnode (by simp [isClear])

structure Matches (e e' : Expr) : Prop where
  left : e.Legible
  right : e'.Legible
  form : e.form = e'.form

theorem Matches.of_text {e e' : Expr} (h : e.Legible) (h' : e'.Legible)
    (htext : e.text = e'.text) : e.Matches e' := ⟨h, h', form_eq_of_text h h' htext⟩

theorem Matches.shownBy {e e' : Expr} (h : e.Matches e') : ShownBy e.form e' := by
  rw [h.form]
  exact shownBy_form h.right

theorem isName_plain {name : String} (h : isName name = true) :
    name ∉ ["null", "true", "false"] ∧ Form.owners.contains name = false := by
  rw [isName, Bool.and_eq_true, Bool.and_eq_true] at h
  refine ⟨fun hmem => ?_, by simpa using h.2⟩
  simp only [List.mem_cons, List.not_mem_nil, or_false] at hmem
  rcases hmem with rfl | rfl | rfl <;> exact absurd h.1.2 (by decide)

/-! ### Parameters of lambdas -/

def namesTail : List String → List Char
  | [] => []
  | names => ',' :: ' ' :: (Text.commaSep names).toList

theorem commaSep_cons (name : String) (names : List String) :
    (Text.commaSep (name :: names)).toList = name.toList ++ namesTail names := by
  cases names with
  | nil => simp [Text.commaSep, namesTail]
  | cons name' names => simp [Text.commaSep, Text.joinWith_cons_cons, namesTail]

theorem word_commaSep {name : String} (hname : isWord name = true) (names : List String) :
    QueryText.word (Text.commaSep (name :: names)).toList = name ∧
      Form.afterName (Text.commaSep (name :: names)).toList = namesTail names := by
  rw [commaSep_cons]
  refine Form.word_append hname fun c hc => ?_
  cases names with
  | nil => cases hc
  | cons name' names =>
      cases hc
      decide

/-- A list of names is read off the text, since names have neither commas nor blanks. -/
theorem commaSep_injective {names names' : List String} (h : ∀ name ∈ names, isWord name = true)
    (h' : ∀ name ∈ names', isWord name = true) (heq : Text.commaSep names = Text.commaSep names') :
    names = names' := by
  have hne : ∀ {name : String} (names : List String), isWord name = true →
      Text.commaSep [] ≠ Text.commaSep (name :: names) := by
    intro name names hname heq
    obtain ⟨c, cs, hcs, -, -⟩ := Form.isWord_cons hname
    have hlist := congrArg String.toList heq
    rw [commaSep_cons, hcs] at hlist
    cases hlist
  induction names generalizing names' with
  | nil =>
      cases names' with
      | nil => rfl
      | cons name' names' => exact absurd heq (hne names' (h' name' List.mem_cons_self))
  | cons name names ih =>
      cases names' with
      | nil => exact absurd heq.symm (hne names (h name List.mem_cons_self))
      | cons name' names' =>
          obtain ⟨hword, htail⟩ := word_commaSep (h name List.mem_cons_self) names
          obtain ⟨hword', htail'⟩ := word_commaSep (h' name' List.mem_cons_self) names'
          rw [heq] at hword htail
          obtain rfl : name' = name := hword'.symm.trans hword
          have hrest : namesTail names = namesTail names' := htail.symm.trans htail'
          have hnames : names = names' := by
            cases names <;> cases names' <;> simp only [namesTail, reduceCtorEq, List.cons.injEq,
              true_and] at hrest
            · rfl
            · exact ih (fun x hx => h x (List.mem_cons_of_mem _ hx))
                (fun x hx => h' x (List.mem_cons_of_mem _ hx)) (String.toList_injective hrest)
          rw [hnames]

theorem name_ne_paramsText {name : String} (hname : isWord name = true) {params : List Binder}
    (h : ¬∃ p, params = [p]) : name ≠ paramsText params := by
  obtain ⟨c, cs, hcs, hstart, -⟩ := Form.isWord_cons hname
  intro heq
  have hlist := congrArg String.toList heq
  rw [paramsText_of_ne h, hcs, String.toList_append, String.toList_append] at hlist
  obtain ⟨rfl, -⟩ := List.cons.inj hlist
  exact absurd hstart (by decide)

/-- The names of a lambda's parameters are read off their text. -/
theorem names_of_paramsText {params params' : List Binder}
    (h : ∀ name ∈ params.map Binder.name, isWord name = true)
    (h' : ∀ name ∈ params'.map Binder.name, isWord name = true)
    (heq : paramsText params = paramsText params') :
    params.map Binder.name = params'.map Binder.name := by
  by_cases hsingle : ∃ p, params = [p]
  · obtain ⟨p, rfl⟩ := hsingle
    by_cases hsingle' : ∃ p, params' = [p]
    · obtain ⟨p', rfl⟩ := hsingle'
      exact congrArg (fun name => [name]) heq
    · exact absurd heq (name_ne_paramsText (h p.name (by simp)) hsingle')
  · by_cases hsingle' : ∃ p, params' = [p]
    · obtain ⟨p', rfl⟩ := hsingle'
      exact absurd heq.symm (name_ne_paramsText (h' p'.name (by simp)) hsingle)
    · rw [paramsText_of_ne hsingle, paramsText_of_ne hsingle'] at heq
      have hlist := congrArg String.toList heq
      simp only [String.toList_append] at hlist
      refine commaSep_injective h h' (String.toList_injective ?_)
      exact List.append_cancel_left (List.append_cancel_right hlist)

theorem form_ne_owner {e : Expr} (h : e.Legible) {owner : String}
    (howner : Form.owners.contains owner = true) : e.form ≠ .word owner := by
  intro hform
  have hshown := shownBy_form h
  rw [hform] at hshown
  rcases hshown with ⟨v, -, -, hmem⟩ | ⟨t, -, hname⟩
  · simp only [List.mem_cons, List.not_mem_nil, or_false] at hmem
    rcases hmem with rfl | rfl | rfl <;> exact absurd howner (by decide)
  · exact Bool.false_ne_true ((isName_plain hname).2.symm.trans howner)

namespace Matches

variable {e' : Expr}

/-! One lemma for each kind of node: a match is of the same kind. -/

/-- A literal matches literals only, of the same text. -/
theorem constant {v : Value} {t : Ty} (h : (Expr.constant v t).Matches e') :
    ∃ v', e' = .constant v' v'.ty ∧ v.Alike v' := by
  have hv := h.left.node
  rw [isClear, Bool.and_eq_true] at hv
  have hshown : ∃ v', e' = .constant v' v'.ty ∧ v'.isLiteral = true := by
    have hself := shownBy_constant hv.1
    have hshown := h.shownBy
    rw [Expr.form] at hshown
    cases hform : v.form <;> rw [hform] at hself hshown
    case number | quoted | set => exact hshown
    case word w =>
      rcases hself with ⟨_, _, _, hmem⟩ | ⟨_, hself, -⟩
      · rcases hshown with ⟨v', he', hv', -⟩ | ⟨_, -, hname⟩
        · exact ⟨v', he', hv'⟩
        · exact absurd hmem (isName_plain hname).1
      · cases hself
    case call => rcases hself with ⟨_, _, _, hself, -⟩ | ⟨_, _, _, _, hself, -⟩ <;> cases hself
    case member | lambda | convert => obtain ⟨_, _, hself, -⟩ := hself; cases hself
    case binary => obtain ⟨_, _, _, hself, -⟩ := hself; cases hself
    case unary | record => obtain ⟨_, hself, -⟩ := hself; cases hself
  obtain ⟨v', rfl, hv'⟩ := hshown
  exact ⟨v', rfl, Value.alike_of_form hv.1 hv' h.form⟩

theorem parameter {name : String} {t : Ty} (h : (Expr.parameter name t).Matches e') :
    ∃ t', e' = .parameter name t' := by
  rcases h.shownBy with ⟨v, -, -, hmem⟩ | ⟨t', rfl, -⟩
  · exact absurd hmem (isName_plain h.left.node).1
  · exact ⟨t', rfl⟩

theorem member {target : Expr} {name : String} {t : Ty}
    (h : (Expr.member target name t).Matches e') :
    ∃ target' t', e' = .member target' name t' ∧ target.Matches target' := by
  obtain ⟨target', t', rfl, hform⟩ := h.shownBy
  exact ⟨target', t', rfl, h.left.child (by simp [children]), h.right.child (by simp [children]),
    hform.symm⟩

theorem convert {operand : Expr} {t : Ty} (h : (Expr.convert operand t).Matches e') :
    ∃ operand', e' = .convert operand' t ∧ operand.ty = operand'.ty ∧ operand.Matches operand' := by
  have hnode := h.left.node
  rw [isClear, Bool.and_eq_true] at hnode
  obtain ⟨operand', t', rfl, hscalar, hscalar', hsource, htarget, hform⟩ := h.shownBy
  obtain rfl := Ty.eq_of_text hscalar' hnode.2 htarget
  exact ⟨operand', rfl, (Ty.eq_of_text hscalar hnode.1 hsource).symm,
    h.left.child (by simp [children]), h.right.child (by simp [children]), hform.symm⟩

theorem binary {op : BinOp} {left right : Expr} (h : (Expr.binary op left right).Matches e') :
    ∃ left' right', e' = .binary op left' right' ∧ left.Matches left' ∧ right.Matches right' := by
  obtain ⟨op', left', right', rfl, hop, hl, hr⟩ := h.shownBy
  obtain rfl : op' = op := by cases op <;> cases op' <;> first | rfl | exact absurd hop (by decide)
  exact ⟨left', right', rfl,
    ⟨h.left.child (by simp [children]), h.right.child (by simp [children]), hl.symm⟩,
    ⟨h.left.child (by simp [children]), h.right.child (by simp [children]), hr.symm⟩⟩

theorem unary {op : UnOp} {operand : Expr} (h : (Expr.unary op operand).Matches e') :
    ∃ operand', e' = .unary op operand' ∧ operand.Matches operand' := by
  obtain ⟨operand', rfl, hform⟩ := h.shownBy
  exact ⟨operand', rfl, h.left.child (by simp [children]), h.right.child (by simp [children]),
    hform.symm⟩

/-- Lists of expressions match item by item. -/
theorem list {es es' : List Expr} (h : ∀ e ∈ es, e.Legible) (h' : ∀ e ∈ es', e.Legible)
    (hforms : es.map Expr.form = es'.map Expr.form) : List.Forall₂ Matches es es' := by
  induction es generalizing es' with
  | nil =>
      cases es' with
      | nil => exact .nil
      | cons e' es' => cases hforms
  | cons e es ih =>
      cases es' with
      | nil => cases hforms
      | cons e' es' =>
          obtain ⟨he, hes⟩ := List.cons.inj hforms
          exact .cons ⟨h e List.mem_cons_self, h' e' List.mem_cons_self, he⟩
            (ih (fun x hx => h x (List.mem_cons_of_mem _ hx))
              (fun x hx => h' x (List.mem_cons_of_mem _ hx)) hes)

theorem record {fields : List (Named Expr)} (h : (Expr.record fields).Matches e') :
    ∃ fields', e' = .record fields' ∧ fields.map Named.name = fields'.map Named.name ∧
      List.Forall₂ Matches (fields.map Named.value) (fields'.map Named.value) := by
  obtain ⟨fields', rfl, hform⟩ := h.shownBy
  rw [fieldForms_eq_map] at hform
  have hnames := congrArg (List.map Named.name) hform
  have hvalues := congrArg (List.map Named.value) hform
  simp only [List.map_map] at hnames hvalues
  refine ⟨fields', rfl, hnames.symm, list (fun e he => h.left.child he)
    (fun e he => h.right.child he) ?_⟩
  rw [List.map_map, List.map_map]
  exact hvalues.symm

/-- Everything of a call is in its text but the type of its result. -/
theorem call {m : Method} {r : Option Expr} {args : List Expr} {t : Ty}
    (h : (Expr.call m r args t).Matches e') :
    ∃ r' args' t', e' = .call m r' args' t' ∧ Option.Rel Matches r r' ∧
      List.Forall₂ Matches args args' := by
  have hnode := h.left.node
  have hshown := h.shownBy
  cases r with
  | none =>
      rw [isClear, Bool.and_eq_true] at hnode
      rw [Expr.form, forms_eq_map] at hshown
      rcases hshown with ⟨m', args', t', rfl, -, howner, hname, hargs⟩ |
        ⟨m', r', args', t', rfl, -, hr', -⟩
      · obtain rfl : m' = m := by
          cases m
          cases m'
          simp_all
        refine ⟨none, args', t', rfl, .none, list (fun e he => h.left.child ?_)
          (fun e he => h.right.child ?_) hargs.symm⟩ <;> simpa [children] using he
      · exact absurd hr' (form_ne_owner (h.right.child (by simp [children])) hnode.1)
  | some r =>
      rw [isClear, Bool.and_eq_true, Bool.and_eq_true, beq_iff_eq] at hnode
      rw [Expr.form, forms_eq_map] at hshown
      have hr : r.Legible := h.left.child (by simp [children])
      rcases hshown with ⟨m', args', t', rfl, howner, hr', -⟩ |
        ⟨m', r', args', t', rfl, howner, hr', hname, hargs⟩
      · exact absurd hr' (form_ne_owner hr howner)
      · obtain rfl : m' = m := by
          cases m
          cases m'
          simp_all
        refine ⟨some r', args', t', rfl, .some ⟨hr, h.right.child (by simp [children]), hr'.symm⟩,
          list (fun e he => h.left.child ?_) (fun e he => h.right.child ?_) hargs.symm⟩ <;>
          simp [children, he]

/-- Everything of a lambda is in its text but the types of its parameters. -/
theorem lambda {params : List Binder} {body : Expr} (h : (Expr.lambda params body).Matches e') :
    ∃ params' body', e' = .lambda params' body' ∧
      params.map Binder.name = params'.map Binder.name ∧ body.Matches body' := by
  have hwords : ∀ {params : List Binder} {body : Expr}, (Expr.lambda params body).Legible →
      ∀ name ∈ params.map Binder.name, isWord name = true := by
    intro params body hlegible name hname
    have hnode := hlegible.node
    rw [isClear, List.all_eq_true] at hnode
    obtain ⟨p, hp, rfl⟩ := List.mem_map.mp hname
    exact isWord_of_isName (hnode p hp)
  obtain ⟨params', body', rfl, hparams, hform⟩ := h.shownBy
  exact ⟨params', body', rfl, names_of_paramsText (hwords h.left) (hwords h.right) hparams.symm,
    h.left.child (by simp [children]), h.right.child (by simp [children]), hform.symm⟩

end Matches

end Expr

end DeferredQuery
