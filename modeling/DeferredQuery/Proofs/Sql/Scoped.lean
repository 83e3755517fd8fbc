import DeferredQuery.Proofs.Sql.Tokens
import DeferredQuery.Proofs.Sql.Written

/-!
# Columns in scope

Lowering takes the columns of its terms from rows of tables alone: a member of such a row is a
column that the schema stores a property of the entity in, and all other terms pass on the columns
of their parts. The only rows of tables are those of the source and, from a join on, those of the
joined set. So each column in a statement is one of a table that the statement names.
-/

namespace DeferredQuery

/-! ## Schemas -/

namespace Entity

def Stores (e : Entity) (column : String) : Prop := ∃ p ∈ e.properties, p.column = column

end Entity

namespace Schema

inductive Built : Schema → Prop
  | empty : Built .empty
  | withEntity {s : Schema} : Built s → ∀ e, Built (s.withEntity e)
  | withSet {s : Schema} : Built s → ∀ set entity, Built (s.withSet set entity)

theorem Built.name_eq {s : Schema} (h : s.Built) :
    ∀ x ∈ s.entities.entries, x.value.name = x.name := by
  induction h with
  | empty => exact nofun
  | withEntity _ e ih =>
      intro x hx
      rcases KeyMap.mem_insertEntry hx with rfl | hx
      · rfl
      · exact ih x hx
  | withSet _ set entity ih => exact ih

/-- Entity types are found under their own names. -/
theorem Built.get?_name {s : Schema} (h : s.Built) {name : String} {e : Entity}
    (he : s.entities.get? name = some e) : s.entities.get? e.name = some e := by
  obtain rfl : e.name = name := h.name_eq ⟨name, e⟩ (Named.mem_of_find? he)
  exact he

end Schema

namespace Sql

/-! ## Columns of terms and rows -/

namespace Term

variable {cols : String → String → Prop} {t : Term}

def Refers (t : Term) (table column : String) : Prop := Within (.column table column) t

def RefersTo (cols : String → String → Prop) (t : Term) : Prop :=
  ∀ table column, t.Refers table column → cols table column

theorem RefersTo.mono {cols' : String → String → Prop} (h : t.RefersTo cols)
    (hcols : ∀ table column, cols table column → cols' table column) : t.RefersTo cols' :=
  fun table column hin => hcols table column (h table column hin)

theorem refersTo_column {table column : String} (h : cols table column) :
    (Term.column table column).RefersTo cols := by
  intro table' column' hin
  cases hin with
  | self => exact h
  | operand hu _ => cases hu

/-- A term that is no column itself has the columns of its operands. -/
theorem refersTo_of_operands (hself : ∀ table column, t ≠ .column table column)
    (h : ∀ u ∈ t.operands, u.RefersTo cols) : t.RefersTo cols := by
  intro table column hin
  cases hin with
  | self => exact absurd rfl (hself table column)
  | operand hu hin => exact h _ hu table column hin

theorem refersTo_literal (v : Value) : (Term.literal v).RefersTo cols :=
  refersTo_of_operands nofun nofun

theorem refersTo_parameter (name : String) : (Term.parameter name).RefersTo cols :=
  refersTo_of_operands nofun nofun

theorem refersTo_function {name : String} {args : List Term} {ty : Ty}
    (h : ∀ u ∈ args, u.RefersTo cols) : (Term.function name args ty).RefersTo cols :=
  refersTo_of_operands nofun h

theorem refersTo_cast (h : t.RefersTo cols) (ty : Ty) : (Term.cast t ty).RefersTo cols :=
  refersTo_of_operands nofun (by simpa [operands] using h)

theorem refersTo_unary (op : UnOp) (h : t.RefersTo cols) : (Term.unary op t).RefersTo cols :=
  refersTo_of_operands nofun (by simpa [operands] using h)

theorem refersTo_binary (op : BinOp) {u : Term} (ht : t.RefersTo cols) (hu : u.RefersTo cols) :
    (Term.binary op t u).RefersTo cols :=
  refersTo_of_operands nofun (by simp [operands, ht, hu])

theorem refersTo_placeholder (name : String) (ty : Ty) :
    (placeholder name ty).RefersTo cols := by
  unfold placeholder
  split
  · exact refersTo_cast (refersTo_parameter name) _
  · exact refersTo_parameter name

end Term

/-- All terms of the row have columns among the given ones, and so do those that the row of a table
can be read by. -/
inductive Row.RefersTo (schema : Schema) (cols : String → String → Prop) : Row → Prop
  | entity {table name : String} :
    (∀ e, schema.entities.get? name = some e → ∀ column, e.Stores column → cols table column) →
      RefersTo schema cols (.entity table name)
  | scalar {term : Term} {t : Ty} : term.RefersTo cols → RefersTo schema cols (.scalar term t)
  | record {fields : List (Named Row)} : (∀ field ∈ fields, RefersTo schema cols field.value) →
    RefersTo schema cols (.record fields)

namespace Row.RefersTo

variable {schema : Schema} {cols cols' : String → String → Prop} {row : Row}

theorem mono (h : row.RefersTo schema cols)
    (hcols : ∀ table column, cols table column → cols' table column) :
    row.RefersTo schema cols' := by
  induction h with
  | entity h => exact .entity fun e he column hcolumn => hcols _ _ (h e he column hcolumn)
  | scalar h => exact .scalar (h.mono hcols)
  | record _ ih => exact .record ih

/-- The row of an entity's own table. -/
theorem of_entity {e : Entity} (he : schema.entities.get? e.name = some e) {table : String}
    (hcols : ∀ column, e.Stores column → cols table column) :
    (Row.entity table e.name).RefersTo schema cols := by
  refine .entity fun e' he' => ?_
  obtain rfl := Option.some.inj (he.symm.trans he')
  exact hcols

theorem term {u : Term} {t : Ty} (h : (Row.scalar u t).RefersTo schema cols) : u.RefersTo cols := by
  cases h with
  | scalar h => exact h

theorem member {ctx : Context} (h : row.RefersTo ctx.schema cols) {name : String} {t : Ty}
    {found : Row} (hfound : ctx.member row name t = .ok found) :
    found.RefersTo ctx.schema cols := by
  rcases member_eq_ok hfound with ⟨table, entity, p, rfl, hp, rfl⟩ | ⟨rows, rfl, hfind⟩
  · obtain ⟨e, he, hproperty⟩ := property_eq_ok hp
    have hstores : e.Stores p.column := ⟨p, List.mem_of_find?_eq_some hproperty, rfl⟩
    cases h with
    | entity h => exact .scalar (Term.refersTo_column (h e he _ hstores))
  · cases h with
    | record h => exact h _ (Named.mem_of_find? hfind)

/-- The columns of a select list. -/
theorem selected (h : row.RefersTo schema cols) {columns : List Column}
    (hcolumns : row.selected schema = .ok columns) : ∀ c ∈ columns, c.term.RefersTo cols := by
  cases h with
  | entity h =>
      rw [Row.selected] at hcolumns
      split at hcolumns
      · cases hcolumns
      · rename_i e he
        cases hcolumns
        exact List.forall_mem_map.mpr fun p hp => Term.refersTo_column (h e he _ ⟨p, hp, rfl⟩)
  | scalar h =>
      cases hcolumns
      simpa using h
  | @record fields h =>
      rw [Row.selected] at hcolumns
      induction fields generalizing columns with
      | nil =>
          cases hcolumns
          exact List.forall_mem_nil _
      | cons field fields ih =>
          obtain ⟨hfield, hfields⟩ := List.forall_mem_cons.mp h
          obtain ⟨name, row⟩ := field
          cases hfield with
          | scalar hterm =>
              obtain ⟨rest, hrest, hcolumns⟩ := bind_eq_ok.mp hcolumns
              cases hcolumns
              exact List.forall_mem_cons.mpr ⟨hterm, ih hfields hrest⟩
          | entity | record => cases hcolumns

end Row.RefersTo

/-! ## Lowered expressions -/

/-- The rule puts no columns into a term but those of the call's operands. -/
def FunctionRule.AddsNoColumn (rule : FunctionRule) : Prop :=
  ∀ c term, rule c = some term →
    term.RefersTo fun table column => ∃ u ∈ c.receiver.toList ++ c.args, u.Refers table column

namespace FunctionRule

theorem addsNoColumn_firstOf {rules : List FunctionRule}
    (h : ∀ rule ∈ rules, rule.AddsNoColumn) : (firstOf rules).AddsNoColumn := by
  intro c term hterm
  obtain ⟨rule, hrule, hterm⟩ := List.exists_of_findSome?_eq_some hterm
  exact h rule hrule c term hterm

theorem AddsNoColumn.refersTo {rule : FunctionRule} (h : rule.AddsNoColumn) {c : ScalarCall}
    {term : Term} (hterm : rule c = some term) {cols : String → String → Prop}
    (hoperands : ∀ u ∈ c.receiver.toList ++ c.args, u.RefersTo cols) : term.RefersTo cols :=
  (h c term hterm).mono fun table column ⟨u, hu, hin⟩ => hoperands u hu table column hin

/-- The rules for the scalar methods of query texts use the operands alone. -/
theorem addsNoColumn_standard : ∀ rule ∈ standard, rule.AddsNoColumn := by
  intro rule hrule c term hterm
  obtain ⟨name, args, ty, hargs, hterm⟩ := standard_eq_some hrule hterm
  have hfunction : (Term.function name args ty).RefersTo fun table column =>
      ∃ u ∈ c.receiver.toList ++ c.args, u.Refers table column :=
    Term.refersTo_function fun u hu table column hin => ⟨u, hargs hu, hin⟩
  rcases hterm with rfl | ⟨ty', rfl⟩
  · exact hfunction
  · exact Term.refersTo_cast hfunction ty'

end FunctionRule

section Lower

variable {ctx : Context} {scope : RowScope} {cols : String → String → Prop}

variable (hrules : ∀ rule ∈ ctx.rules, rule.AddsNoColumn)

include hrules

/-- The columns of a lowered expression are among those of the rows in scope. -/
theorem refersTo_lower (hscope : ∀ x ∈ scope, x.value.RefersTo ctx.schema cols) {e : Expr}
    {row : Row} (h : lower ctx scope e = .ok row) : row.RefersTo ctx.schema cols := by
  induction e generalizing row with
  | constant v t =>
      rw [lower_constant_eq_ok h]
      exact .scalar (Term.refersTo_literal _)
  | parameter name t =>
      rcases lower_parameter_eq_ok h with hfind | ⟨-, rfl⟩
      · exact hscope _ (Named.mem_of_find? hfind)
      · exact .scalar (Term.refersTo_placeholder name t)
  | member target name t ih =>
      obtain ⟨found, hfound, h⟩ := lower_member_eq_ok h
      exact (ih hfound).member h
  | call m receiver args t ihr ihargs =>
      obtain ⟨r, us, term, hr, hus, hterm, rfl⟩ := lower_call_eq_ok h
      refine .scalar ((FunctionRule.addsNoColumn_firstOf hrules).refersTo hterm fun u hu => ?_)
      rcases List.mem_append.mp hu with hu | hu
      · cases hr with
        | none => cases hu
        | some hfound =>
            obtain ⟨tu, hfound⟩ := hfound
            obtain rfl := List.mem_singleton.mp hu
            exact (ihr _ rfl hfound).term
      · obtain ⟨e, he, tu, hfound⟩ := exists_of_forall₂ hus hu
        exact (ihargs e he hfound).term
  | lambda params body => cases h
  | convert operand t ih =>
      rcases lower_convert_eq_ok h with ⟨-, h⟩ | ⟨-, u, tu, hu, rfl⟩
      · exact ih h
      · exact .scalar (Term.refersTo_cast (ih hu).term _)
  | binary op left right ihl ihr =>
      obtain ⟨u, tu, v, tv, hu, hv, rfl⟩ := lower_binary_eq_ok h
      exact .scalar (Term.refersTo_binary _ (ihl hu).term (ihr hv).term)
  | unary op operand ih =>
      obtain ⟨u, tu, hu, rfl⟩ := lower_unary_eq_ok h
      exact .scalar (Term.refersTo_unary op (ih hu).term)
  | record fields ih =>
      obtain ⟨rows, rfl, hrows⟩ := lower_record_eq_ok h
      refine .record fun row hrow => ?_
      obtain ⟨field, hfield, -, hlower⟩ := exists_of_forall₂ hrows hrow
      exact ih field hfield hlower
  | volatile inner ih => exact ih h

theorem refersTo_lowerLambda {args : List Row}
    (hargs : ∀ row ∈ args, row.RefersTo ctx.schema cols) {e : Expr} {row : Row}
    (h : lowerLambda ctx args e = .ok row) : row.RefersTo ctx.schema cols := by
  obtain ⟨params, body, rfl, -, h⟩ := lowerLambda_eq_ok h
  exact refersTo_lower hrules (fun x hx => hargs _ (value_of_mem_scopeOf hx)) h

theorem refersTo_lowerLambdaTerm {args : List Row}
    (hargs : ∀ row ∈ args, row.RefersTo ctx.schema cols) {e : Expr} {term : Term}
    (h : lowerLambdaTerm ctx args e = .ok term) : term.RefersTo cols := by
  obtain ⟨t, h⟩ := lowerLambdaTerm_eq_ok.mp h
  exact (refersTo_lowerLambda hrules hargs h).term

theorem refersTo_lowerTerm {e : Expr} {term : Term} (h : lowerTerm ctx [] e = .ok term) :
    term.RefersTo cols := by
  obtain ⟨t, h⟩ := lowerTerm_eq_ok.mp h
  exact (refersTo_lower hrules (List.forall_mem_nil _) h).term

end Lower

/-! ## Clauses -/

namespace Select

/-- The columns of the tables of a statement: the one of the source, and the joined one if there is
one. -/
def Tables (outer : Entity) (inner : Option Entity) (table column : String) : Prop :=
  (table = outerName ∧ outer.Stores column) ∨ ∃ e ∈ inner, table = innerName ∧ e.Stores column

variable {ctx : Context} {s s' : Select} {outer : Entity} {inner : Option Entity}

/-- The clauses refer to the tables of a source and of a joined set, which the statement names. -/
structure Scoped (schema : Schema) (outer : Entity) (inner : Option Entity) (s : Select) :
    Prop where
  table : s.table = outer.table
  join : s.join.map (fun j => (j.table, j.name)) = inner.map fun e => (e.table, innerName)
  outerKey : ∀ j, s.join = some j → j.outerKey.RefersTo (Tables outer none)
  innerKey : ∀ j, s.join = some j → j.innerKey.RefersTo fun table column =>
    ∃ e ∈ inner, table = innerName ∧ e.Stores column
  current : s.current.RefersTo schema (Tables outer inner)
  filters : ∀ t ∈ s.filters, t.RefersTo (Tables outer inner)
  order : ∀ k ∈ s.order, k.term.RefersTo (Tables outer inner)
  limit : ∀ t, s.limit = some t → t.RefersTo (Tables outer inner)
  offset : ∀ t, s.offset = some t → t.RefersTo (Tables outer inner)

theorem resolve_eq_ok {schema : Schema} {root : SetRef} {e : Entity} (hschema : schema.Built)
    (h : resolve schema root = .ok e) : schema.entities.get? e.name = some e := by
  unfold resolve at h
  split at h
  · rename_i found hfound
    cases h
    obtain ⟨name, -, he⟩ := Option.bind_eq_some_iff.mp hfound
    exact hschema.get?_name he
  · cases h

theorem scoped_ofSource (hschema : ctx.schema.Built) {root : SetRef}
    (hroot : resolve ctx.schema root = .ok outer) (h : ofSource ctx.schema root = .ok s) :
    s.Scoped ctx.schema outer none := by
  obtain ⟨e, he, h⟩ := bind_eq_ok.mp h
  obtain rfl := Except.ok.inj (he.symm.trans hroot)
  cases h
  have hcurrent : (Row.entity outerName e.name).RefersTo ctx.schema (Tables e none) :=
    .of_entity (resolve_eq_ok hschema hroot) fun column hcolumn => .inl ⟨rfl, hcolumn⟩
  exact ⟨rfl, rfl, nofun, nofun, hcurrent, nofun, nofun, nofun, nofun⟩

theorem Scoped.take (h : s.Scoped ctx.schema outer inner) {count : Term}
    (hcount : count.RefersTo (Tables outer inner)) :
    (s.take count).Scoped ctx.schema outer inner := by
  refine { h with limit := fun t ht => ?_ }
  cases ht
  cases hlimit : s.limit with
  | none => exact hcount
  | some earlier =>
      exact Term.refersTo_function (by simpa using ⟨h.limit earlier hlimit, hcount⟩)

theorem Scoped.skip (h : s.Scoped ctx.schema outer inner) {count : Term}
    (hcount : count.RefersTo (Tables outer inner)) :
    (s.skip count).Scoped ctx.schema outer inner := by
  refine { h with offset := fun t ht => ?_ }
  cases ht
  cases hoffset : s.offset with
  | none => exact hcount
  | some earlier => exact Term.refersTo_binary _ (h.offset earlier hoffset) hcount

section Steps

variable (hrules : ∀ rule ∈ ctx.rules, rule.AddsNoColumn)

include hrules

theorem Scoped.filter (h : s.Scoped ctx.schema outer inner) {name : String} {e : Expr}
    (hs' : s.filter ctx name e = .ok s') : s'.Scoped ctx.schema outer inner := by
  obtain ⟨-, term, hterm, rfl⟩ := filter_eq_ok hs'
  have hcols := refersTo_lowerLambdaTerm hrules (by simpa using h.current) hterm
  refine { h with filters := fun t ht => ?_ }
  rcases List.mem_append.mp ht with ht | ht
  · exact h.filters t ht
  · exact List.mem_singleton.mp ht ▸ hcols

theorem Scoped.filterBy (h : s.Scoped ctx.schema outer inner) {name : String}
    {predicate : Option Expr} (hs' : s.filterBy ctx name predicate = .ok s') :
    s'.Scoped ctx.schema outer inner := by
  cases predicate with
  | none =>
      cases hs'
      exact h
  | some e => exact h.filter hrules hs'

/-- A join brings the columns of its table in, which its result and all later operations may use,
beside the ones that the statement refers to already. -/
theorem Scoped.joinWith (hschema : ctx.schema.Built) (h : s.Scoped ctx.schema outer inner)
    {root : SetRef} {outerKey innerKey result : Expr}
    (hs' : s.extend ctx (.join root outerKey innerKey result) = .ok s') :
    ∃ e, resolve ctx.schema root = .ok e ∧ s'.Scoped ctx.schema outer (some e) := by
  obtain ⟨hwhole, hnone, e, outerTerm, innerTerm, row, he, houter, hinner, hrow, rfl⟩ :=
    join_eq_ok hs'
  obtain ⟨hlimit, hoffset, -⟩ := isCut_eq_false.mp hwhole
  obtain rfl : inner = none := by
    have hjoin := h.join
    rw [hnone] at hjoin
    exact Option.map_eq_none_iff.mp hjoin.symm
  have hmore : ∀ table column, Tables outer none table column →
      Tables outer (some e) table column := by
    rintro table column (hcolumn | ⟨e', he', -⟩)
    · exact .inl hcolumn
    · cases he'
  have hentity : (Row.entity innerName e.name).RefersTo ctx.schema fun table column =>
      ∃ e' ∈ some e, table = innerName ∧ e'.Stores column :=
    .of_entity (resolve_eq_ok hschema he) fun column hcolumn => ⟨e, rfl, rfl, hcolumn⟩
  have houter' := refersTo_lowerLambdaTerm hrules (by simpa using h.current) houter
  have hinner' := refersTo_lowerLambdaTerm hrules
    (fun row hmem => List.mem_singleton.mp hmem ▸ hentity) hinner
  have hentity' : (Row.entity innerName e.name).RefersTo ctx.schema (Tables outer (some e)) :=
    hentity.mono fun _ _ hcolumn => .inr hcolumn
  have hrow' := refersTo_lowerLambda hrules
    (by simpa using ⟨h.current.mono hmore, hentity'⟩) hrow
  refine ⟨e, he, h.table, rfl, ?_, ?_, hrow', fun t ht => (h.filters t ht).mono hmore,
    fun k hk => (h.order k hk).mono hmore, by simp [hlimit], by simp [hoffset]⟩
  · rintro j ⟨⟩
    exact houter'
  · rintro j ⟨⟩
    exact hinner'

/-- An operation other than a join refers to the columns of the rows that it finds. -/
theorem Scoped.apply (hschema : ctx.schema.Built) (h : s.Scoped ctx.schema outer inner)
    {op : Operation} (hs' : s.apply ctx op = .ok s') :
    s'.Scoped ctx.schema outer inner ∨
      ∃ root outerKey innerKey result e, op = .join root outerKey innerKey result ∧
        resolve ctx.schema root = .ok e ∧ s'.Scoped ctx.schema outer (some e) := by
  obtain ⟨-, hs'⟩ := apply_eq_ok hs'
  have hcurrent : ∀ row ∈ [s.current], row.RefersTo ctx.schema (Tables outer inner) := by
    simpa using h.current
  cases op with
  | join root outerKey innerKey result =>
      obtain ⟨e, he, hscoped⟩ := h.joinWith hrules hschema hs'
      exact .inr ⟨root, outerKey, innerKey, result, e, rfl, he, hscoped⟩
  | filter e => exact .inl (h.filter hrules hs')
  | select e =>
      obtain ⟨-, row, hrow, rfl⟩ := select_eq_ok hs'
      exact .inl { h with current := refersTo_lowerLambda hrules hcurrent hrow }
  | orderBy e descending =>
      obtain ⟨-, term, hterm, rfl⟩ := orderBy_eq_ok hs'
      have hcols := refersTo_lowerLambdaTerm hrules hcurrent hterm
      exact .inl { h with order := List.forall_mem_cons.mpr ⟨hcols, h.order⟩ }
  | thenBy e descending =>
      obtain ⟨term, hterm, rfl⟩ := thenBy_eq_ok hs'
      have hcols := refersTo_lowerLambdaTerm hrules hcurrent hterm
      refine .inl { h with order := fun k hk => ?_ }
      rcases List.eq_or_mem_of_mem_insertIdx hk with rfl | hk
      · exact hcols
      · exact h.order k hk
  | skip e =>
      obtain ⟨-, term, hterm, rfl⟩ := skip_eq_ok hs'
      exact .inl (h.skip (refersTo_lowerTerm hrules hterm))
  | take e =>
      obtain ⟨term, hterm, rfl⟩ := take_eq_ok hs'
      exact .inl (h.take (refersTo_lowerTerm hrules hterm))
  | distinct =>
      obtain ⟨-, -, rfl⟩ := distinct_eq_ok hs'
      exact .inl { h with }
  | count predicate =>
      obtain ⟨t, ht, rfl⟩ := count_eq_ok hs'
      exact .inl { h.filterBy hrules ht with }
  | any predicate =>
      obtain ⟨t, ht, rfl⟩ := any_eq_ok hs'
      exact .inl { h.filterBy hrules ht with }
  | first predicate orDefault =>
      obtain ⟨t, ht, rfl⟩ := first_eq_ok hs'
      exact .inl { (h.filterBy hrules ht).take (Term.refersTo_literal _) with }
  | single predicate => cases hs'
  | custom name arguments =>
      obtain ⟨-, -, comments, rfl⟩ := custom_eq_ok hs'
      exact .inl { h with }

/-- A joined table stems from a join of the pipeline. -/
theorem Scoped.foldlM (hschema : ctx.schema.Built) (h : s.Scoped ctx.schema outer inner)
    {ops : List Operation} (hs' : ops.foldlM (Select.apply ctx) s = .ok s') :
    ∃ inner', s'.Scoped ctx.schema outer inner' ∧ ∀ e ∈ inner', e ∈ inner ∨
      ∃ root outerKey innerKey result, .join root outerKey innerKey result ∈ ops ∧
        resolve ctx.schema root = .ok e := by
  induction ops generalizing s inner with
  | nil =>
      cases hs'
      exact ⟨inner, h, fun e he => .inl he⟩
  | cons op ops ih =>
      obtain ⟨t, ht, hrest⟩ := bind_eq_ok.mp hs'
      rcases h.apply hrules hschema ht with
        hnext | ⟨root, outerKey, innerKey, result, e, rfl, he, hnext⟩
      · obtain ⟨inner', hscoped, hinner'⟩ := ih hnext hrest
        refine ⟨inner', hscoped, fun e he => (hinner' e he).imp_right ?_⟩
        rintro ⟨root, outerKey, innerKey, result, hmem, hresolve⟩
        exact ⟨root, outerKey, innerKey, result, List.mem_cons_of_mem _ hmem, hresolve⟩
      · obtain ⟨inner', hscoped, hinner'⟩ := ih hnext hrest
        refine ⟨inner', hscoped, fun e' he' => ?_⟩
        rcases hinner' e' he' with he' | ⟨root', o, i, r, hmem, hresolve⟩
        · cases he'
          exact .inr ⟨root, outerKey, innerKey, result, List.mem_cons_self, he⟩
        · exact .inr ⟨root', o, i, r, List.mem_cons_of_mem _ hmem, hresolve⟩

end Steps

inductive Holds (schema : Schema) (s : Select) : Term → Prop
  | selected {columns : List Column} {c : Column} : s.current.selected schema = .ok columns →
    c ∈ columns → Holds schema s c.term
  | outerKey {j : Join} : s.join = some j → Holds schema s j.outerKey
  | innerKey {j : Join} : s.join = some j → Holds schema s j.innerKey
  | filter {t : Term} : t ∈ s.filters → Holds schema s t
  | order {k : SortKey} : k ∈ s.order → Holds schema s k.term
  | limit {t : Term} : s.limit = some t → Holds schema s t
  | offset {t : Term} : s.offset = some t → Holds schema s t

theorem Scoped.refersTo {schema : Schema} (h : s.Scoped schema outer inner) {t : Term}
    (ht : Holds schema s t) : t.RefersTo (Tables outer inner) := by
  cases ht with
  | selected hcolumns hc => exact h.current.selected hcolumns _ hc
  | outerKey hj =>
      refine (h.outerKey _ hj).mono fun table column hcolumn => ?_
      exact hcolumn.imp_right fun ⟨e, he, _⟩ => by cases he
  | innerKey hj => exact (h.innerKey _ hj).mono fun _ _ hcolumn => .inr hcolumn
  | filter ht => exact h.filters _ ht
  | order hk => exact h.order _ hk
  | limit ht => exact h.limit _ ht
  | offset ht => exact h.offset _ ht

end Select

/-! ## Statements -/

theorem infix_wrapPieces (cardinality : Cardinality) (ps : List Piece) (columns : Columns) :
    ps <:+: (cardinality.wrapPieces ps columns).1 := by
  cases cardinality with
  | count => exact (List.prefix_append ps _).isInfix.trans (List.suffix_cons _ _).isInfix
  | «exists» => exact (List.prefix_append ps _).isInfix.trans (List.suffix_cons _ _).isInfix
  | many | first => exact List.infix_rfl

/-- The clause of a join stands in the statement as a whole. -/
theorem infix_of_join {schema : Schema} {s : Select} {whole : List Piece} {columns : Columns}
    (h : s.pieces schema = .ok (whole, columns)) {j : Join} (hj : s.join = some j) :
    ∃ ps, j.pieces = .ok ps ∧ ps <:+: whole := by
  obtain ⟨⟨items, listed⟩, -, h⟩ := bind_eq_ok.mp h
  obtain ⟨join, hjoin, h⟩ := bind_eq_ok.mp h
  obtain ⟨filters, -, h⟩ := bind_eq_ok.mp h
  obtain ⟨order, -, h⟩ := bind_eq_ok.mp h
  obtain ⟨limit, -, h⟩ := bind_eq_ok.mp h
  obtain ⟨offset, -, h⟩ := bind_eq_ok.mp h
  obtain rfl := congrArg Prod.fst (Except.ok.inj h)
  rw [hj] at hjoin
  obtain ⟨ps, hps, hjoin⟩ := bind_eq_ok.mp hjoin
  cases hjoin
  have hbefore {qs rs : List Piece} (hin : ps <:+: qs) : ps <:+: qs ++ rs :=
    hin.trans (List.prefix_append qs rs).isInfix
  have hclause {qs : List Piece} {from' : Piece} : ps <:+: qs ++ from' :: ps :=
    (List.suffix_cons from' ps).isInfix.trans (List.suffix_append qs _).isInfix
  refine ⟨ps, hps, List.IsInfix.trans ?_ (infix_wrapPieces _ _ _)⟩
  rw [List.flatten_singleton]
  exact hbefore (hbefore (hbefore (hbefore hclause)))

namespace Statement

/-- A clause stands in the text of a statement, and its names at its place of the parameters. -/
def Contains (q : Statement) (clause : Rendering String) : Prop :=
  ∃ given names text before after rest, clause.run given = .ok (text, given ++ names) ∧
    q.text = before ++ text ++ after ∧ q.parameters = given ++ names ++ rest

theorem contains_join {schema : Schema} {s : Select} {q : Statement}
    (h : ofSelect schema s = .ok q) {j : Join} (hj : s.join = some j) : q.Contains j.render := by
  obtain ⟨whole, columns, hwhole, rfl⟩ := ofSelect_eq_ok_iff.mp h
  obtain ⟨ps, hps, before, after, rfl⟩ := infix_of_join hwhole hj
  refine ⟨Piece.namesOf before, Piece.namesOf ps, Piece.textOf ps, Piece.textOf before,
    Piece.textOf after, Piece.namesOf after, ?_, by simp [String.append_assoc], by simp⟩
  rw [j.run_render, hps]
  rfl

/-- Each column in a clause of a statement is one of the source's table or one of the joined table,
which a clause of the statement names then. The keys of the join belong to one of them each. -/
theorem scoped_of_ofPipeline {ctx : Context} (hschema : ctx.schema.Built)
    (hrules : ∀ rule ∈ ctx.rules, rule.AddsNoColumn) {p : Pipeline} {q : Statement}
    (h : ofPipeline ctx p = .ok q) :
    ∃ s outer inner, Select.ofPipeline ctx p = .ok s ∧ ofSelect ctx.schema s = .ok q ∧
      Select.resolve ctx.schema p.source = .ok outer ∧
      (∀ e ∈ inner, ∃ root outerKey innerKey result,
        .join root outerKey innerKey result ∈ p.operations ∧
          Select.resolve ctx.schema root = .ok e) ∧
      s.table = outer.table ∧
      s.join.map (fun j => (j.table, j.name)) = inner.map (fun e => (e.table, Select.innerName)) ∧
      (∀ t, s.Holds ctx.schema t → t.RefersTo (Select.Tables outer inner)) ∧
      ∀ j, s.join = some j → q.Contains j.render ∧
        j.outerKey.RefersTo (fun table column =>
          table = Select.outerName ∧ outer.Stores column) ∧
        j.innerKey.RefersTo (fun table column =>
          ∃ e ∈ inner, table = Select.innerName ∧ e.Stores column) := by
  obtain ⟨s, hs, hq⟩ := bind_eq_ok.mp h
  obtain ⟨start, hstart, hsteps⟩ := bind_eq_ok.mp hs
  obtain ⟨outer, houter, -⟩ := bind_eq_ok.mp hstart
  have hscoped := Select.scoped_ofSource hschema houter hstart
  obtain ⟨inner, hscoped, hinner⟩ := hscoped.foldlM hrules hschema hsteps
  refine ⟨s, outer, inner, hs, hq, houter, fun e he => ?_, hscoped.table, hscoped.join,
    fun t ht => hscoped.refersTo ht, fun j hj => ⟨contains_join hq hj, ?_, hscoped.innerKey j hj⟩⟩
  · exact (hinner e he).resolve_left nofun
  · refine (hscoped.outerKey j hj).mono fun table column hcolumn => ?_
    exact hcolumn.resolve_right fun ⟨e, he, _⟩ => by cases he

def sales : Schema :=
  (((Schema.empty.withEntity ⟨"Person", "person",
    [⟨"Id", "person_id", .int⟩, ⟨"Name", "name", .string⟩]⟩).withEntity
    ⟨"Order", "orders", [⟨"PersonId", "buyer", .int⟩, ⟨"Total", "total", .float⟩]⟩).withSet
    "people" "Person").withSet "orders" "Order"

theorem sales_built : sales.Built :=
  .withSet (.withSet (.withEntity (.withEntity .empty _) _) _ _) _ _

/-- The names of people beside the totals of their orders that are above a captured value. -/
def purchases : Pipeline :=
  let person : Expr := .parameter "p" (.entity "Person")
  let order : Expr := .parameter "o" (.entity "Order")
  let pair : Expr := .record [⟨"Name", .member person "Name" .string⟩,
    ⟨"Total", .member order "Total" .float⟩]
  { source := ⟨"Person", "people"⟩
    operations := [
      .join ⟨"Order", "orders"⟩ (.lambda [⟨"p", .entity "Person"⟩] (.member person "Id" .int))
        (.lambda [⟨"o", .entity "Order"⟩] (.member order "PersonId" .int))
        (.lambda [⟨"p", .entity "Person"⟩, ⟨"o", .entity "Order"⟩] pair),
      .filter (.lambda [⟨"r", .object⟩] (.binary .gt
        (.member (.parameter "r" .object) "Total" .float) (.parameter "__least_0" .float)))]
    result := .sequence .object }

/-- The names of people beside their orders, of which only the larger ones are asked for. -/
theorem scoped_purchases :
    sales.Built ∧ (∀ rule ∈ FunctionRule.standard, rule.AddsNoColumn) ∧
      ∃ q, ofPipeline ⟨sales, FunctionRule.standard⟩ purchases = .ok q ∧
        q.text = "SELECT t0.\"name\" AS \"Name\", t1.\"total\" AS \"Total\" " ++
          "FROM \"person\" AS t0 JOIN \"orders\" AS t1 ON t0.\"person_id\" = t1.\"buyer\" " ++
          "WHERE (t1.\"total\" > CAST(? AS DOUBLE))" ∧
        ∃ s outer inner, ofSelect sales s = .ok q ∧
          Select.resolve sales ⟨"Person", "people"⟩ = .ok outer ∧ s.join.isSome = true ∧
          ∀ t, s.Holds sales t → t.RefersTo (Select.Tables outer inner) := by
  refine ⟨sales_built, FunctionRule.addsNoColumn_standard, _, rfl, ?_, ?_⟩
  · decide +kernel
  · obtain ⟨s, outer, inner, hs, hq, houter, -, -, -, hholds, -⟩ :=
      @scoped_of_ofPipeline ⟨sales, FunctionRule.standard⟩ sales_built
        FunctionRule.addsNoColumn_standard purchases _ rfl
    refine ⟨s, outer, inner, hq, houter, ?_, hholds⟩
    cases hs
    rfl

end Statement

end Sql

end DeferredQuery
