import DeferredQuery.Proofs.Sql.Alignment

/-!
# Rows of shapes of one form

Shapes of one form are lowered to rows of the same parts, whose terms differ in casts alone. A
column is cast to text if its type says so; a cast of that kind is never mistaken for one that the
other shape has in the same place.
-/

namespace DeferredQuery.Sql

/-! ## Columns -/

def castStart : List Char := "CAST(".toList

/-- A term of a type that is sent as text cannot be mistaken, cast to text, for another term. -/
def Term.Apart (u v : Term) : Prop :=
  ∀ ps qs, u.pieces = .ok ps → v.pieces = .ok qs →
    ∀ rest rest', castStart ++ (chars ps ++ rest) ≠ chars qs ++ rest'

def Term.Bare (u : Term) : Prop :=
  ∀ ps, u.pieces = .ok ps → ∀ rest rest', castStart ++ rest ≠ chars ps ++ rest'

theorem Term.Bare.apart {v : Term} (h : v.Bare) (u : Term) : u.Apart v :=
  fun _ _ _ hqs _ _ => h _ hqs _ _

/-- The casts at the places of a column: that of the column itself, then those around markers. -/
def Column.casts (c : Column) : List Casts :=
  (if c.ty.unwrap = .uuid then ["VARCHAR"] else []) :: c.term.casts

/-- The terms differ in casts alone, also where they are columns of the given types. -/
structure Term.AlikeAs (u : Term) (t : Ty) (v : Term) (t' : Ty) : Prop where
  alike : u.Alike v
  left : t.unwrap = .uuid → t'.unwrap ≠ .uuid → u.Apart v
  right : t'.unwrap = .uuid → t.unwrap ≠ .uuid → v.Apart u

namespace Term.AlikeAs

variable {u v : Term} {t t' : Ty}

theorem of_ty (h : u.Alike v) (ht : t = t') : u.AlikeAs t v t' := by
  subst ht
  exact ⟨h, fun h hne => absurd h hne, fun h hne => absurd h hne⟩

theorem of_bare (h : u.Alike v) (hu : u.Bare) (hv : v.Bare) : u.AlikeAs t v t' :=
  ⟨h, fun _ _ => hv.apart u, fun _ _ => hu.apart v⟩

/-- A column that is cast to text, and one that is not. -/
theorem aligned_cast {us vs : List Piece} {cs ds : List Casts} (h : Aligned us vs cs ds)
    (hapart : ∀ rest rest', castStart ++ (chars us ++ rest) ≠ chars vs ++ rest') :
    Aligned (.text "CAST(" :: us ++ [.text " AS VARCHAR)"]) vs (["VARCHAR"] :: cs) ([] :: ds) where
  length := by rw [List.length_cons, List.length_cons, h.length]
  names := by
    rw [Piece.namesOf_append, ← h.names]
    simp [Piece.namesOf]
  text heq := by cases heq
  casts rest rest' heq := by
    refine absurd ?_ (hapart (" AS VARCHAR)".toList ++ rest) rest')
    rw [← heq, List.cons_append, ← List.singleton_append, chars_append, chars_append, chars_text,
      chars_text, List.append_assoc, List.append_assoc]
    rfl

/-- A column of computed values is cast if it is sent as text. -/
theorem column (h : u.AlikeAs t v t') (name : String) {ps qs : List Piece}
    (hps : Column.pieces ⟨name, t, u⟩ = .ok ps) (hqs : Column.pieces ⟨name, t', v⟩ = .ok qs) :
    Aligned ps qs (Column.casts ⟨name, t, u⟩) (Column.casts ⟨name, t', v⟩) := by
  obtain ⟨us, hus, hps⟩ := bind_eq_ok.mp hps
  obtain ⟨vs, hvs, hqs⟩ := bind_eq_ok.mp hqs
  cases hps
  cases hqs
  have hterm := h.alike us vs hus hvs
  refine Aligned.concat ?_ _
  unfold Column.casts
  dsimp only
  by_cases ht : t.unwrap = .uuid <;> by_cases ht' : t'.unwrap = .uuid <;>
    simp only [ht, ht', if_true, if_false]
  · exact ((hterm.cons _).concat _).place _
  · exact aligned_cast hterm (h.left ht ht' us vs hus hvs)
  · exact (aligned_cast hterm.symm (h.right ht' ht vs us hvs hus)).symm
  · exact hterm.place _

/-- A placeholder is cast to its type, and nothing else about it depends on the type. -/
theorem placeholder (name : String) (t t' : Ty) :
    (Sql.placeholder name t).AlikeAs t (Sql.placeholder name t') t' := by
  have hapart : ∀ {t t' : Ty}, t.unwrap = .uuid →
      (Sql.placeholder name t).Apart (Sql.placeholder name t') := by
    intro t t' ht ps qs hps hqs rest rest' heq
    have htype : typeName? t = some "UUID" := by
      cases t <;> simp only [Ty.unwrap, reduceCtorEq] at ht
      · rfl
      · subst ht
        rfl
    rw [(Alike.pieces_placeholder name t).1, htype] at hps
    rw [(Alike.pieces_placeholder name t').1] at hqs
    cases hps
    cases hqs
    rw [Alike.chars_markerPieces] at heq
    cases htype' : typeName? t' with
    | none =>
        rw [htype'] at heq
        simp [chars, Alike.markerPieces, Piece.textOf, castStart] at heq
    | some type =>
        rw [htype', Alike.chars_markerPieces] at heq
        simp [castStart] at heq
  exact ⟨.placeholder name t t', fun ht _ => hapart ht, fun ht' _ => hapart ht'⟩

end Term.AlikeAs

/-! ## Terms that do not begin with a cast -/

namespace Term

theorem bare_of_head {u : Term} {c : Char} (hc : c ≠ 'C')
    (h : ∀ ps, u.pieces = .ok ps → ∃ cs, chars ps = c :: cs) : u.Bare := by
  intro ps hps rest rest' heq
  obtain ⟨cs, hcs⟩ := h ps hps
  rw [hcs] at heq
  exact hc (List.cons.inj heq).1.symm

theorem bare_column {table : String} (h : table = Select.outerName ∨ table = Select.innerName)
    (column : String) : (Term.column table column).Bare := by
  refine bare_of_head (show 't' ≠ 'C' by decide) fun ps hps => ?_
  rw [pieces] at hps
  cases hps
  rcases h with rfl | rfl
  · exact ⟨_, by simp [Select.outerName]; rfl⟩
  · exact ⟨_, by simp [Select.innerName]; rfl⟩

theorem bare_binary (op : BinOp) (l r : Term) : (Term.binary op l r).Bare := by
  refine bare_of_head (show '(' ≠ 'C' by decide) fun ps hps => ?_
  rw [pieces] at hps
  obtain ⟨ls, -, hps⟩ := bind_eq_ok.mp hps
  obtain ⟨rs, -, hps⟩ := bind_eq_ok.mp hps
  cases hps
  exact ⟨_, by simp [chars, Piece.textOf]; rfl⟩

theorem bare_unary (op : UnOp) (u : Term) : (Term.unary op u).Bare := by
  refine bare_of_head (show '(' ≠ 'C' by decide) fun ps hps => ?_
  rw [pieces] at hps
  obtain ⟨us, -, hps⟩ := bind_eq_ok.mp hps
  cases hps
  cases op <;> exact ⟨_, by simp [chars, Piece.textOf, unaryText]; rfl⟩

theorem bare_function {name : String} {c : Char} {cs : List Char} (hname : name.toList = c :: cs)
    (hc : c ≠ 'C') (args : List Term) (t : Ty) : (Term.function name args t).Bare := by
  refine bare_of_head hc fun ps hps => ?_
  rw [pieces] at hps
  obtain ⟨pss, -, hps⟩ := bind_eq_ok.mp hps
  cases hps
  exact ⟨_, by simp [chars, Piece.textOf, hname]; rfl⟩

end Term

/-! ## Functions -/

/-- A rule that makes terms alike of calls that are alike. -/
def FunctionRule.Uniform (rule : FunctionRule) : Prop :=
  ∀ (m : Method) {r r' : Option Term} {args args' : List Term} (t t' : Ty),
    Option.Rel Term.Alike r r' → List.Forall₂ Term.Alike args args' →
    Option.Rel (fun u v => u.AlikeAs t v t') (rule ⟨m, r, args, t⟩) (rule ⟨m, r', args', t'⟩)

namespace FunctionRule

theorem alikeAs_function {name : String} {c : Char} {cs : List Char}
    (hname : name.toList = c :: cs) (hc : c ≠ 'C') {args args' : List Term}
    (h : List.Forall₂ Term.Alike args args') (t t' : Ty) :
    (Term.function name args t).AlikeAs t (.function name args' t') t' :=
  .of_bare (.function name h t t') (Term.bare_function hname hc args t)
    (Term.bare_function hname hc args' t')

theorem uniform_power : power.Uniform := by
  intro m r r' args args' t t' hr hargs
  simp only [power, hargs.length_eq]
  split
  · exact .some (alikeAs_function rfl (by decide) hargs t t')
  · exact .none

theorem uniform_absolute : absolute.Uniform := by
  intro m r r' args args' t t' hr hargs
  simp only [absolute]
  split
  · exact .some (alikeAs_function rfl (by decide) hargs t t')
  · exact .none

theorem head_textFunction {m : Method} {name : String} (h : textFunction? m = some name) :
    ∃ c cs, name.toList = c :: cs ∧ c ≠ 'C' := by
  unfold textFunction? at h
  split at h
  · cases h
    exact ⟨_, _, rfl, by decide⟩
  split at h
  · cases h
    exact ⟨_, _, rfl, by decide⟩
  split at h
  · cases h
    exact ⟨_, _, rfl, by decide⟩
  split at h
  · cases h
    exact ⟨_, _, rfl, by decide⟩
  · cases h

theorem uniform_text : text.Uniform := by
  intro m r r' args args' t t' hr hargs
  simp only [text]
  cases hr with
  | none => exact .none
  | some h =>
      cases hname : textFunction? m with
      | none => exact .none
      | some name =>
          obtain ⟨c, cs, hcs, hc⟩ := head_textFunction hname
          exact .some (alikeAs_function hcs hc (.cons h hargs) t t')

/-- A function that is computed anew has no operands. -/
theorem uniform_volatile : volatile.Uniform := by
  intro m r r' args args' t t' hr hargs
  simp only [volatile]
  split
  · exact .some (.of_bare (.refl _) (Term.bare_function rfl (by decide) _ _)
      (Term.bare_function rfl (by decide) _ _))
  · split
    · have hapart : (Term.cast (.function "now" [] .timestamp) .timestamp).Apart
          (.cast (.function "now" [] .timestamp) .timestamp) := by
        intro ps qs hps hqs rest rest' heq
        have hchars : chars ps = "CAST(now() AS TIMESTAMP)".toList := by
          cases hps
          rfl
        have hchars' : chars qs = "CAST(now() AS TIMESTAMP)".toList := by
          cases hqs
          rfl
        rw [hchars, hchars'] at heq
        simp [castStart] at heq
      exact .some ⟨.refl _, fun _ _ => hapart, fun _ _ => hapart⟩
    · exact .none

/-- Rules that are tried one after the other are uniform if each of them is. -/
theorem uniform_firstOf {rules : List FunctionRule} (h : ∀ rule ∈ rules, rule.Uniform) :
    (firstOf rules).Uniform := by
  intro m r r' args args' t t' hr hargs
  simp only [firstOf]
  induction rules with
  | nil => exact .none
  | cons rule rules ih =>
      have hrule := h rule List.mem_cons_self m t t' hr hargs
      rw [List.findSome?_cons, List.findSome?_cons]
      cases hfirst : rule ⟨m, r, args, t⟩ <;> cases hfirst' : rule ⟨m, r', args', t'⟩ <;>
        rw [hfirst, hfirst'] at hrule
      · exact ih fun rule hmem => h rule (List.mem_cons_of_mem _ hmem)
      · cases hrule
      · cases hrule
      · exact hrule

theorem uniform_standard : ∀ rule ∈ standard, rule.Uniform := by
  simp only [standard, List.forall_mem_cons, List.not_mem_nil, false_implies, implies_true,
    and_true]
  exact ⟨uniform_power, uniform_absolute, uniform_text, uniform_volatile⟩

end FunctionRule

/-! ## Rows -/

mutual

inductive Row.Alike : Row → Row → Prop where
  | entity {table : String} (h : table = Select.outerName ∨ table = Select.innerName)
      (entity : String) : Row.Alike (.entity table entity) (.entity table entity)
  | scalar {u v : Term} {t t' : Ty} (h : u.AlikeAs t v t') :
      Row.Alike (.scalar u t) (.scalar v t')
  | record {fields fields' : List (Named Row)} (h : FieldsAlike fields fields') :
      Row.Alike (.record fields) (.record fields')

inductive FieldsAlike : List (Named Row) → List (Named Row) → Prop where
  | nil : FieldsAlike [] []
  | cons (name : String) {row row' : Row} {fields fields' : List (Named Row)}
      (h : Row.Alike row row') (k : FieldsAlike fields fields') :
      FieldsAlike (⟨name, row⟩ :: fields) (⟨name, row'⟩ :: fields')

end

theorem FieldsAlike.find? {fields fields' : List (Named Row)} (h : FieldsAlike fields fields')
    (name : String) :
    Option.Rel Row.Alike (Named.find? name fields) (Named.find? name fields') := by
  match h with
  | .nil => exact .none
  | .cons name' hrow k =>
      rw [Named.find?_cons, Named.find?_cons]
      split
      · exact .some hrow
      · exact k.find? name

theorem FieldsAlike.append {xs xs' ys ys' : List (Named Row)} (h : FieldsAlike xs xs')
    (k : FieldsAlike ys ys') : FieldsAlike (xs ++ ys) (xs' ++ ys') := by
  match h with
  | .nil => exact k
  | .cons name hrow h => exact .cons name hrow (h.append k)

theorem FieldsAlike.reverse {xs xs' : List (Named Row)} (h : FieldsAlike xs xs') :
    FieldsAlike xs.reverse xs'.reverse := by
  match h with
  | .nil => exact .nil
  | .cons name hrow h =>
      rw [List.reverse_cons, List.reverse_cons]
      exact h.reverse.append (.cons name hrow .nil)

/-- The parameters of two lambdas, of the same names, for rows that are alike. -/
theorem fieldsAlike_zip {params params' : List Binder} {rows rows' : List Row}
    (hnames : params.map Binder.name = params'.map Binder.name)
    (h : List.Forall₂ Row.Alike rows rows') :
    FieldsAlike ((params.zip rows).map fun x => ⟨x.1.name, x.2⟩)
      ((params'.zip rows').map fun x => ⟨x.1.name, x.2⟩) := by
  induction h generalizing params params' with
  | nil => simpa using FieldsAlike.nil
  | cons hrow _ ih =>
      cases params <;> cases params' <;> simp only [List.map_nil, List.map_cons, reduceCtorEq,
        List.cons.injEq] at hnames
      · exact .nil
      · rename_i p ps p' ps'
        rw [List.zip_cons_cons, List.zip_cons_cons, List.map_cons, List.map_cons, hnames.1]
        exact .cons _ hrow (ih hnames.2)

theorem Row.Alike.term {u v : Term} {t t' : Ty} (h : (Row.scalar u t).Alike (.scalar v t')) :
    u.Alike v := by
  cases h with
  | scalar h => exact h.alike

/-! ## Lowering -/

section Lowering

variable {ctx : Context} {scope scope' : RowScope}

def LowersAlike (ctx : Context) (scope scope' : RowScope) (e e' : Expr) : Prop :=
  ∀ row row', lower ctx scope e = .ok row → lower ctx scope' e' = .ok row' → row.Alike row'

theorem LowersAlike.term {e e' : Expr} (h : LowersAlike ctx scope scope' e e') {u v : Term}
    {t t' : Ty} (hu : lower ctx scope e = .ok (.scalar u t))
    (hv : lower ctx scope' e' = .ok (.scalar v t')) : u.Alike v :=
  (h _ _ hu hv).term

/-- A member of a row is one of its parts, or a column of its table. -/
theorem alike_member {row row' : Row} (h : row.Alike row') {name : String} {t t' : Ty}
    {r r' : Row} (hr : ctx.member row name t = .ok r) (hr' : ctx.member row' name t' = .ok r') :
    r.Alike r' := by
  cases h with
  | entity htable entity =>
      obtain ⟨p, hp, hr⟩ := bind_eq_ok.mp hr
      obtain ⟨p', hp', hr'⟩ := bind_eq_ok.mp hr'
      obtain rfl := Except.ok.inj (hp.symm.trans hp')
      cases hr
      cases hr'
      exact .scalar (.of_bare (.refl _) (Term.bare_column htable _) (Term.bare_column htable _))
  | scalar => cases hr
  | record h =>
      have hfind := h.find? name
      rcases member_eq_ok hr with ⟨_, _, _, hrow, -, -⟩ | ⟨rows, hrow, hfound⟩ <;> cases hrow
      rcases member_eq_ok hr' with ⟨_, _, _, hrow, -, -⟩ | ⟨rows', hrow, hfound'⟩ <;> cases hrow
      rw [hfound, hfound'] at hfind
      cases hfind with
      | some halike => exact halike

theorem alike_terms {es es' : List Expr} {us vs : List Term}
    (h : List.Forall₂ (LowersAlike ctx scope scope') es es')
    (hus : List.Forall₂ (fun e u => ∃ t, lower ctx scope e = .ok (.scalar u t)) es us)
    (hvs : List.Forall₂ (fun e u => ∃ t, lower ctx scope' e = .ok (.scalar u t)) es' vs) :
    List.Forall₂ Term.Alike us vs := by
  induction h generalizing us vs with
  | nil =>
      cases hus
      cases hvs
      exact .nil
  | cons h _ ih =>
      cases hus with
      | cons hu hus =>
          cases hvs with
          | cons hv hvs =>
              obtain ⟨t, hu⟩ := hu
              obtain ⟨t', hv⟩ := hv
              exact .cons (h.term hu hv) (ih hus hvs)

theorem alike_fields {fields fields' : List (Named Expr)} {rows rows' : List (Named Row)}
    (hnames : fields.map Named.name = fields'.map Named.name)
    (h : List.Forall₂ (LowersAlike ctx scope scope') (fields.map Named.value)
      (fields'.map Named.value))
    (hrows : List.Forall₂ (fun field row =>
      field.name = row.name ∧ lower ctx scope field.value = .ok row.value) fields rows)
    (hrows' : List.Forall₂ (fun field row =>
      field.name = row.name ∧ lower ctx scope' field.value = .ok row.value) fields' rows') :
    FieldsAlike rows rows' := by
  induction hrows generalizing fields' rows' with
  | nil =>
      cases hrows' with
      | nil => exact .nil
      | cons => cases hnames
  | @cons field row fields rows hrow _ ih =>
      cases hrows' with
      | nil => cases hnames
      | @cons field' row' fields' rows' hrow' hrows' =>
          obtain ⟨name, row⟩ := row
          obtain ⟨name', row'⟩ := row'
          obtain ⟨hname, htail⟩ := List.cons.inj hnames
          obtain rfl : name = name' := hrow.1.symm.trans (hname.trans hrow'.1)
          obtain ⟨he, hrest⟩ := List.forall₂_cons.mp h
          exact .cons name (he _ _ hrow.2 hrow'.2) (ih htail hrest hrows')

theorem ty_of_alike {v v' : Value} (h : v.Alike v') : v.ty = v'.ty := by
  cases h with
  | same => rfl
  | float => rfl
  | query h => simp [Value.ty, h]

theorem lowersAlike_constant {v v' : Value} (h : v.Alike v') :
    LowersAlike ctx scope scope' (.constant v v.ty) (.constant v' v'.ty) := by
  intro row row' hrow hrow'
  rw [lower_constant_eq_ok hrow, lower_constant_eq_ok hrow']
  exact .scalar (.of_ty (.literal h) (ty_of_alike h))

theorem lowersAlike_parameter (hscope : FieldsAlike scope scope') (name : String) (t t' : Ty) :
    LowersAlike ctx scope scope' (.parameter name t) (.parameter name t') := by
  intro row row' hrow hrow'
  have hfind := hscope.find? name
  rcases lower_parameter_eq_ok hrow with h | ⟨h, rfl⟩ <;>
    rcases lower_parameter_eq_ok hrow' with h' | ⟨h', rfl⟩ <;> rw [h, h'] at hfind
  · cases hfind with
    | some hfound => exact hfound
  · cases hfind
  · cases hfind
  · exact .scalar (.placeholder name t t')

/-- Uniform rules make terms alike of calls on operands that are alike. -/
theorem lowersAlike_call (hrules : ∀ rule ∈ ctx.rules, rule.Uniform) (m : Method)
    {r r' : Option Expr} {args args' : List Expr} (t t' : Ty)
    (hr : Option.Rel (LowersAlike ctx scope scope') r r')
    (hargs : List.Forall₂ (LowersAlike ctx scope scope') args args') :
    LowersAlike ctx scope scope' (.call m r args t) (.call m r' args' t') := by
  intro row row' hrow hrow'
  obtain ⟨receiver, us, term, hreceiver, hus, hterm, rfl⟩ := lower_call_eq_ok hrow
  obtain ⟨receiver', vs, term', hreceiver', hvs, hterm', rfl⟩ := lower_call_eq_ok hrow'
  have hreceivers : Option.Rel Term.Alike receiver receiver' := by
    cases hr with
    | none =>
        cases hreceiver
        cases hreceiver'
        exact .none
    | some h =>
        cases hreceiver with
        | some hu =>
            cases hreceiver' with
            | some hv =>
                obtain ⟨t, hu⟩ := hu
                obtain ⟨t', hv⟩ := hv
                exact .some (h.term hu hv)
  have halike := FunctionRule.uniform_firstOf hrules m t t' hreceivers (alike_terms hargs hus hvs)
  rw [hterm, hterm'] at halike
  cases halike with
  | some h => exact .scalar h

/-- Whether a conversion is left out depends on types that both operands share. -/
theorem lowersAlike_convert {operand operand' : Expr} (hty : operand.ty = operand'.ty)
    (h : LowersAlike ctx scope scope' operand operand') (t : Ty) :
    LowersAlike ctx scope scope' (.convert operand t) (.convert operand' t) := by
  intro row row' hrow hrow'
  have hkeeps : keepsValue operand t = keepsValue operand' t := by
    rw [keepsValue, keepsValue, hty]
  rcases lower_convert_eq_ok hrow with ⟨hkeep, hrow⟩ | ⟨hkeep, u, tu, hu, rfl⟩ <;>
    rcases lower_convert_eq_ok hrow' with ⟨hkeep', hrow'⟩ | ⟨hkeep', v, tv, hv, rfl⟩ <;>
    rw [hkeep, hkeep'] at hkeeps
  · exact h row row' hrow hrow'
  · cases hkeeps
  · cases hkeeps
  · exact .scalar (.of_ty (.cast (h.term hu hv) t) rfl)

theorem lowersAlike_binary (op : BinOp) {left left' right right' : Expr}
    (hleft : LowersAlike ctx scope scope' left left')
    (hright : LowersAlike ctx scope scope' right right') :
    LowersAlike ctx scope scope' (.binary op left right) (.binary op left' right') := by
  intro row row' hrow hrow'
  obtain ⟨u, tu, w, tw, hu, hw, rfl⟩ := lower_binary_eq_ok hrow
  obtain ⟨u', tu', w', tw', hu', hw', rfl⟩ := lower_binary_eq_ok hrow'
  have halike := Term.Alike.binary op (hleft.term hu hu') (hright.term hw hw')
  exact .scalar (.of_bare halike (Term.bare_binary op _ _) (Term.bare_binary op _ _))

theorem lowersAlike_unary (op : UnOp) {operand operand' : Expr}
    (h : LowersAlike ctx scope scope' operand operand') :
    LowersAlike ctx scope scope' (.unary op operand) (.unary op operand') := by
  intro row row' hrow hrow'
  obtain ⟨u, tu, hu, rfl⟩ := lower_unary_eq_ok hrow
  obtain ⟨u', tu', hu', rfl⟩ := lower_unary_eq_ok hrow'
  have halike := Term.Alike.unary op (h.term hu hu')
  exact .scalar (.of_bare halike (Term.bare_unary op _) (Term.bare_unary op _))

/-- Matching expressions are lowered to rows that are alike. -/
theorem lowersAlike_of_matches (hrules : ∀ rule ∈ ctx.rules, rule.Uniform) {e e' : Expr}
    (h : e.Matches e') (hscope : FieldsAlike scope scope') :
    LowersAlike ctx scope scope' e e' := by
  induction e generalizing e' with
  | constant v t =>
      have hnode := h.left.node
      rw [Expr.isClear, Bool.and_eq_true, beq_iff_eq] at hnode
      obtain ⟨v', rfl, hv⟩ := h.constant
      rw [hnode.2]
      exact lowersAlike_constant hv
  | parameter name t =>
      obtain ⟨t', rfl⟩ := h.parameter
      exact lowersAlike_parameter hscope name t t'
  | member target name t ih =>
      obtain ⟨target', t', rfl, htarget⟩ := h.member
      intro row row' hrow hrow'
      obtain ⟨r, hr, hrow⟩ := lower_member_eq_ok hrow
      obtain ⟨r', hr', hrow'⟩ := lower_member_eq_ok hrow'
      exact alike_member (ih htarget r r' hr hr') hrow hrow'
  | call m r args t ihr ihargs =>
      obtain ⟨r', args', t', rfl, hr, hargs⟩ := h.call
      refine lowersAlike_call hrules m t t' ?_
        (forall₂_of_mem hargs fun e he e' _ hmatch => ihargs e he hmatch)
      cases hr with
      | none => exact .none
      | some hmatch => exact .some (ihr _ rfl hmatch)
  | lambda params body ih =>
      intro row row' hrow
      cases hrow
  | convert operand t ih =>
      obtain ⟨operand', rfl, hty, hoperand⟩ := h.convert
      exact lowersAlike_convert hty (ih hoperand) t
  | binary op left right ihl ihr =>
      obtain ⟨left', right', rfl, hleft, hright⟩ := h.binary
      exact lowersAlike_binary op (ihl hleft) (ihr hright)
  | unary op operand ih =>
      obtain ⟨operand', rfl, hoperand⟩ := h.unary
      exact lowersAlike_unary op (ih hoperand)
  | record fields ih =>
      obtain ⟨fields', rfl, hnames, hvalues⟩ := h.record
      intro row row' hrow hrow'
      obtain ⟨rows, rfl, hrows⟩ := lower_record_eq_ok hrow
      obtain ⟨rows', rfl, hrows'⟩ := lower_record_eq_ok hrow'
      refine .record (alike_fields hnames (forall₂_of_mem hvalues fun e he e' _ hmatch => ?_) hrows
        hrows')
      obtain ⟨field, hfield, rfl⟩ := List.mem_map.mp he
      exact ih field hfield hmatch
  | volatile inner => exact absurd h.left.node (by simp [Expr.isClear])

theorem alike_lambda (hrules : ∀ rule ∈ ctx.rules, rule.Uniform) {e e' : Expr} (h : e.Matches e')
    {rows rows' : List Row} (hrows : List.Forall₂ Row.Alike rows rows') {row row' : Row}
    (hrow : lowerLambda ctx rows e = .ok row) (hrow' : lowerLambda ctx rows' e' = .ok row') :
    row.Alike row' := by
  obtain ⟨params, body, rfl, -, hrow⟩ := lowerLambda_eq_ok hrow
  obtain ⟨params', body', rfl, hnames, hbody⟩ := h.lambda
  obtain ⟨_, _, hlambda, -, hrow'⟩ := lowerLambda_eq_ok hrow'
  cases hlambda
  have hscope : FieldsAlike (scopeOf params rows) (scopeOf params' rows') :=
    (fieldsAlike_zip hnames hrows).reverse
  exact lowersAlike_of_matches hrules hbody hscope row row' hrow hrow'

theorem alike_lambdaTerm (hrules : ∀ rule ∈ ctx.rules, rule.Uniform) {e e' : Expr}
    (h : e.Matches e') {rows rows' : List Row} (hrows : List.Forall₂ Row.Alike rows rows')
    {u v : Term} (hu : lowerLambdaTerm ctx rows e = .ok u)
    (hv : lowerLambdaTerm ctx rows' e' = .ok v) : u.Alike v := by
  obtain ⟨t, hu⟩ := lowerLambdaTerm_eq_ok.mp hu
  obtain ⟨t', hv⟩ := lowerLambdaTerm_eq_ok.mp hv
  exact (alike_lambda hrules h hrows hu hv).term

theorem alike_term (hrules : ∀ rule ∈ ctx.rules, rule.Uniform) {e e' : Expr} (h : e.Matches e')
    {u v : Term} (hu : lowerTerm ctx [] e = .ok u) (hv : lowerTerm ctx [] e' = .ok v) :
    u.Alike v := by
  obtain ⟨t, hu⟩ := lowerTerm_eq_ok.mp hu
  obtain ⟨t', hv⟩ := lowerTerm_eq_ok.mp hv
  exact (lowersAlike_of_matches hrules h .nil).term hu hv

end Lowering

end DeferredQuery.Sql
