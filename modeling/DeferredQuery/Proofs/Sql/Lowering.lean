import DeferredQuery.Proofs.Expr.Children
import DeferredQuery.Proofs.Sql.Rows
import DeferredQuery.Proofs.Sql.Terms

/-!
# Lowered expressions

A statement holds an expression without the conversions that lowering leaves out, with each
placeholder cast to its type, and with a field in place of a member of a row that is built on the
spot. Written as an expression again, this has the value that the lowered row is read with.
-/

namespace DeferredQuery

open Sql (keepsValue typeName?)

namespace Expr

def CallFree (e : Expr) : Prop := ∀ m receiver args t, .call m receiver args t ∉ e.nodes

theorem CallFree.child {c e : Expr} (h : e.CallFree) (hc : c ∈ e.children) : c.CallFree :=
  fun m receiver args t hn => h m receiver args t (mem_nodes_of_child hc hn)

/-- The member of an expression, which of a row built on the spot is its field. -/
def memberOf (name : String) (t : Ty) : Expr → Expr
  | .record fields => (Named.find? name fields).getD (.member (.record fields) name t)
  | e => .member e name t

mutual

/-- The expression as a statement holds it, below lambdas with parameters of the given names. -/
def lowered (bound : List String) : Expr → Expr
  | .constant v t => .constant v t
  | .parameter name t =>
    if name ∈ bound ∨ (typeName? t).isNone then .parameter name t
    else .convert (.parameter name t) t
  | .member target name t => memberOf name t (lowered bound target)
  | .call m receiver args t => .call m receiver args t
  | .lambda params body => .lambda params (lowered (params.map Binder.name ++ bound) body)
  | .convert operand t =>
    if keepsValue operand t then lowered bound operand else .convert (lowered bound operand) t
  | .binary op left right => .binary op (lowered bound left) (lowered bound right)
  | .unary op operand => .unary op (lowered bound operand)
  | .record fields => .record (loweredFields bound fields)
  | .volatile inner => lowered bound inner

def loweredFields (bound : List String) : List (Named Expr) → List (Named Expr)
  | [] => []
  | ⟨name, e⟩ :: rest => ⟨name, lowered bound e⟩ :: loweredFields bound rest

end

end Expr

namespace Sql

open Eval (Env EvalM lift_bind_lift lift_bind_pure)

namespace Reading

variable {rd : Reading} {rules : List FunctionRule} {env : Env} {f : Frame}

/-! ## Expressions and the rows they denote -/

mutual

/-- The expression has the value that the row is read with. A row built on the spot has the values
of its fields one by one, since a member of it needs no other field. -/
inductive Denotes (env : Env) (vs : Eval.Scope) (rd : Reading) (f : Frame) : Expr → Row → Prop
  | plain {e : Expr} {row : Row} (hrecord : ∀ fields, e ≠ .record fields)
      (hrow : ∀ rows, row = .record rows → ∃ v, rd.rowValue f row = .ok v)
      (hvalue : Eval.value env vs e = liftM (rd.rowValue f row)) : Denotes env vs rd f e row
  | record {fields : List (Named Expr)} {rows : List (Named Row)}
      (hfields : DenotesFields env vs rd f fields rows) :
      Denotes env vs rd f (.record fields) (.record rows)

inductive DenotesFields (env : Env) (vs : Eval.Scope) (rd : Reading) (f : Frame) :
    List (Named Expr) → List (Named Row) → Prop
  | nil : DenotesFields env vs rd f [] []
  | cons (name : String) {e : Expr} {row : Row} {fields : List (Named Expr)}
      {rows : List (Named Row)} (he : Denotes env vs rd f e row)
      (hrest : DenotesFields env vs rd f fields rows) :
      DenotesFields env vs rd f (⟨name, e⟩ :: fields) (⟨name, row⟩ :: rows)

end

variable {vs : Eval.Scope}

theorem Denotes.scalar {e : Expr} {term : Term} {t : Ty} (hrecord : ∀ fields, e ≠ .record fields)
    (hvalue : Eval.value env vs e = liftM (rd.value f term)) :
    Denotes env vs rd f e (.scalar term t) :=
  .plain hrecord (by simp) hvalue

mutual

theorem Denotes.value_eq {e : Expr} {row : Row} :
    Denotes env vs rd f e row → Eval.value env vs e = liftM (rd.rowValue f row)
  | .plain _ _ hvalue => hvalue
  | .record hfields => by
    rw [Eval.value, rowValue, hfields.fieldValues_eq]
    exact lift_bind_pure _ Value.record

theorem DenotesFields.fieldValues_eq {fields : List (Named Expr)} {rows : List (Named Row)} :
    DenotesFields env vs rd f fields rows →
      Eval.fieldValues env vs fields = liftM (rd.fieldValues f rows)
  | .nil => rfl
  | .cons name he hrest => by
    rw [Eval.fieldValues, fieldValues, he.value_eq, hrest.fieldValues_eq, ← lift_bind_lift]
    congr 1
    funext v
    exact lift_bind_pure _ fun fs => (⟨name, v⟩ : Named Value) :: fs

end

/-- The parts of a row stand for the fields under their names. -/
theorem DenotesFields.find? {fields : List (Named Expr)} {rows : List (Named Row)}
    (h : DenotesFields env vs rd f fields rows) {name : String} {row : Row}
    (hrow : Named.find? name rows = some row) :
    ∃ e, Named.find? name fields = some e ∧ Denotes env vs rd f e row := by
  cases h with
  | nil => cases hrow
  | cons name' he hrest =>
      rw [Named.find?_cons] at hrow ⊢
      split at hrow
      · rename_i hname
        cases hrow
        exact ⟨_, if_pos hname, he⟩
      · rename_i hname
        obtain ⟨e, hfind, hdenotes⟩ := hrest.find? hrow
        exact ⟨e, by rwa [if_neg hname], hdenotes⟩

/-! ## Members -/

theorem find?_record (props : List Property) (cells : Cells) (name : String) :
    Named.find? name (props.map fun p => (⟨p.name, cells p.column⟩ : Named Value)) =
      (props.find? fun p => p.name == name).map fun p => cells p.column := by
  induction props with
  | nil => rfl
  | cons p props ih =>
      rw [List.map_cons, Named.find?_cons, List.find?_cons]
      by_cases hname : p.name = name
      · simp [hname]
      · have hbeq : (p.name == name) = false := by simpa using hname
        rw [if_neg hname, hbeq, ih]

theorem member_record {fields : List (Named Value)} {name : String} {v : Value}
    (h : Named.find? name fields = some v) : Value.member (.record fields) name = .ok v := by
  simp [Value.member, Value.storedMember, h]

/-- The value of a column is the member of the row that the columns make up. -/
theorem rowValue_member {table entity name : String} {p : Property}
    (h : (Context.mk rd.schema rules).property entity name = .ok p) :
    (rd.rowValue f (.entity table entity) >>= fun v => v.member name) =
      rd.value f (.column table p.column) := by
  obtain ⟨e, he, hp⟩ := property_eq_ok h
  rw [rowValue, value]
  cases Named.find? table f with
  | none => rfl
  | some cells =>
      refine member_record ?_
      rw [he]
      change Named.find? name (e.properties.map _) = _
      rw [find?_record]
      exact congrArg (Option.map fun p => cells p.column) hp

/-- The value of a field is that of the row's part of its name. -/
theorem fieldValues_find? {rows : List (Named Row)} {fs : List (Named Value)} {name : String}
    {row : Row} (h : rd.fieldValues f rows = .ok fs) (hrow : Named.find? name rows = some row) :
    ∃ v, rd.rowValue f row = .ok v ∧ Named.find? name fs = some v := by
  induction rows generalizing fs with
  | nil => cases hrow
  | cons x rows ih =>
      obtain ⟨name', row'⟩ := x
      obtain ⟨v, hv, h⟩ := bind_eq_ok.mp h
      obtain ⟨gs, hgs, h⟩ := bind_eq_ok.mp h
      cases h
      rw [Named.find?_cons] at hrow ⊢
      split at hrow
      · cases hrow
        exact ⟨v, hv, if_pos ‹_›⟩
      · obtain ⟨w, hw, hfind⟩ := ih hgs hrow
        exact ⟨w, hw, by rwa [if_neg ‹_›]⟩

/-- A member is a column of a row, or a field of a record built on the spot. -/
theorem denotes_memberOf {e : Expr} {row row' : Row} {name : String} {t : Ty}
    (he : Denotes env vs rd f e row)
    (h : (Context.mk rd.schema rules).member row name t = .ok row') :
    Denotes env vs rd f (e.memberOf name t) row' := by
  cases he with
  | @plain _ _ hrecord hrow hvalue =>
      have hmember : e.memberOf name t = .member e name t := by
        cases e with
        | record fields => exact (hrecord fields rfl).elim
        | _ => rfl
      rw [hmember]
      rcases member_eq_ok h with ⟨table, entity, p, rfl, hp, rfl⟩ | ⟨rows, rfl, hfind⟩
      · refine .scalar (by simp) ?_
        have hcolumn := @rowValue_member rd rules f table entity name p hp
        rw [Eval.value, hvalue]
        exact (lift_bind_lift _ _).trans (congrArg liftM hcolumn)
      · obtain ⟨v, hv⟩ := hrow rows rfl
        rw [hv] at hvalue
        rw [rowValue] at hv
        obtain ⟨fs, hfs, hpure⟩ := bind_eq_ok.mp hv
        cases hpure
        obtain ⟨w, hw, hfind'⟩ := fieldValues_find? hfs hfind
        refine .plain (by simp) (fun _ _ => ⟨w, hw⟩) ?_
        rw [Eval.value, hvalue, hw]
        have hlift := lift_bind_lift (.ok (.record fs)) fun u : Value => u.member name
        exact hlift.trans (congrArg liftM (member_record hfind'))
  | @record fields rows hfields =>
      rcases member_eq_ok h with ⟨table, entity, p, hrow, -, -⟩ | ⟨rows', hrow, hfind⟩
      · cases hrow
      · cases hrow
        obtain ⟨e', hfind', hdenotes⟩ := hfields.find? hfind
        simpa [Expr.memberOf, hfind'] using hdenotes

/-! ## Lowering -/

/-- Of the names in scope, the bound ones stand for rows that are read with their values. -/
structure ScopeReads (rd : Reading) (f : Frame) (bound : List String) (rs : RowScope)
    (vs : Eval.Scope) : Prop where
  named : ∀ name row, Named.find? name rs = some row →
    name ∈ bound ∧ ∃ v, rd.rowValue f row = .ok v ∧ Named.find? name vs = some v
  free : ∀ name, Named.find? name rs = none → name ∉ bound ∧ Named.find? name vs = none

theorem lookup_free (hparams : env.params = some rd.params) {name : String}
    (hfree : Named.find? name vs = none) :
    env.lookup vs name = rd.value f (.parameter name) := by
  rw [Env.lookup, hfree, hparams, value]
  rfl

/-- The parameters of lambdas stand for rows, and all others for placeholders. -/
theorem denotes_parameter {bound : List String} {rs : RowScope}
    (hscope : ScopeReads rd f bound rs vs) (hparams : env.params = some rd.params)
    {name : String} {t : Ty} {row : Row}
    (h : lower ⟨rd.schema, rules⟩ rs (.parameter name t) = .ok row) :
    Denotes env vs rd f ((Expr.parameter name t).lowered bound) row := by
  rw [Expr.lowered]
  rcases lower_parameter_eq_ok h with hfind | ⟨hfind, rfl⟩
  · obtain ⟨hbound, v, hv, hvs⟩ := hscope.named name row hfind
    rw [if_pos (.inl hbound)]
    refine .plain (by simp) (fun _ _ => ⟨v, hv⟩) ?_
    rw [Eval.value, Env.lookup, hvs, hv]
    rfl
  · obtain ⟨hbound, hvs⟩ := hscope.free name hfind
    have hlookup := @lookup_free rd env f vs hparams name hvs
    by_cases hname : (typeName? t).isSome = true
    · rw [if_neg (by simp [hbound, Option.isSome_iff_ne_none.mp hname])]
      rw [placeholder, if_pos hname]
      refine .scalar (by simp) ?_
      rw [Eval.value, Eval.value, hlookup]
      exact lift_bind_pure _ fun v => Value.convert v t
    · rw [if_pos (.inr (by simpa using hname))]
      rw [placeholder, if_neg hname]
      refine .scalar (by simp) ?_
      rw [Eval.value, hlookup]

/-- Both evaluate the left operand first, and the right one where it is needed. -/
theorem binary_value {op : BinOp} {l r : Expr} {a b : Term}
    (hl : Eval.value env vs l = liftM (rd.value f a))
    (hr : Eval.value env vs r = liftM (rd.value f b)) :
    Eval.value env vs (.binary op l r) = liftM (rd.value f (.binary op a b)) := by
  rw [Eval.value, value, hl, hr]
  split
  · rw [← lift_bind_lift]
    congr 1
    funext v
    rw [← lift_bind_lift]
    congr 1
    funext w
    cases op.decided? w with
    | some r => rfl
    | none =>
        dsimp only
        rw [← lift_bind_lift]
        congr 1
        funext u
        exact lift_bind_pure _ Value.bool
  · rw [← lift_bind_lift]
    congr 1
    funext v
    exact lift_bind_lift _ fun w => op.apply v w

theorem denotesFields_lowered {bound : List String} {fields : List (Named Expr)}
    {rows : List (Named Row)} (h : List.Forall₂ (fun field row => field.name = row.name ∧
      Denotes env vs rd f (field.value.lowered bound) row.value) fields rows) :
    DenotesFields env vs rd f (Expr.loweredFields bound fields) rows := by
  induction h with
  | nil => exact .nil
  | @cons field row fields rows h _ ih =>
      obtain ⟨name, e⟩ := field
      obtain ⟨rfl, h⟩ := h
      exact .cons _ h ih

/-- Lowering gives a row that is read with the value of the lowered expression. -/
theorem denotes_lowered {bound : List String} {rs : RowScope} (hscope : ScopeReads rd f bound rs vs)
    (hparams : env.params = some rd.params) {e : Expr} {row : Row} (hcalls : e.CallFree)
    (h : lower ⟨rd.schema, rules⟩ rs e = .ok row) :
    Denotes env vs rd f (e.lowered bound) row := by
  induction e generalizing row with
  | constant v t =>
      rw [lower_constant_eq_ok h, Expr.lowered]
      exact .scalar (by simp) rfl
  | parameter name t => exact denotes_parameter hscope hparams h
  | member target name t ih =>
      obtain ⟨found, hfound, hmember⟩ := lower_member_eq_ok h
      rw [Expr.lowered]
      exact denotes_memberOf (ih (hcalls.child (by simp [Expr.children])) hfound) hmember
  | call m receiver args t => exact (hcalls m receiver args t (Expr.self_mem_nodes _)).elim
  | lambda params body => cases h
  | convert operand t ih =>
      have hoperand : operand.CallFree := hcalls.child (by simp [Expr.children])
      rw [Expr.lowered]
      rcases lower_convert_eq_ok h with ⟨hkeeps, h⟩ | ⟨hkeeps, u, tu, hu, rfl⟩
      · rw [if_pos hkeeps]
        exact ih hoperand h
      · rw [if_neg (Bool.eq_false_iff.mp hkeeps)]
        refine .scalar (by simp) ?_
        rw [Eval.value, (ih hoperand hu).value_eq, rowValue, value]
        exact lift_bind_pure _ fun v => Value.convert v t
  | binary op left right ihl ihr =>
      obtain ⟨u, tu, v, tv, hu, hv, rfl⟩ := lower_binary_eq_ok h
      have hl := (ihl (hcalls.child (by simp [Expr.children])) hu).value_eq
      have hr := (ihr (hcalls.child (by simp [Expr.children])) hv).value_eq
      rw [Expr.lowered]
      exact .scalar (by simp) (binary_value hl hr)
  | unary op operand ih =>
      obtain ⟨u, tu, hu, rfl⟩ := lower_unary_eq_ok h
      rw [Expr.lowered]
      refine .scalar (by simp) ?_
      have hvalue := (ih (hcalls.child (by simp [Expr.children])) hu).value_eq
      rw [Eval.value, hvalue, rowValue, value]
      exact lift_bind_lift _ fun v => op.apply v
  | record fields ih =>
      obtain ⟨rows, rfl, hfields⟩ := lower_record_eq_ok h
      refine .record (denotesFields_lowered ?_)
      refine forall₂_of_mem hfields fun field hfield row _ hrow => ?_
      exact ⟨hrow.1, ih field hfield (hcalls.child (List.mem_map_of_mem hfield)) hrow.2⟩
  | volatile inner ih =>
      rw [Expr.lowered]
      exact ih (hcalls.child (by simp [Expr.children])) h

/-! ## Lambdas -/

abbrev ArgsRead (rd : Reading) (f : Frame) (args : List Row) (vs : List Value) : Prop :=
  List.Forall₂ (fun row v => rd.rowValue f row = .ok v) args vs

/-- One more name, which the names in scope take precedence over. -/
theorem ScopeReads.snoc {bound : List String} {rs : RowScope} (h : ScopeReads rd f bound rs vs)
    (name : String) {row : Row} {v : Value} (hrow : rd.rowValue f row = .ok v) :
    ScopeReads rd f (name :: bound) (rs ++ [⟨name, row⟩]) (vs ++ [⟨name, v⟩]) := by
  constructor
  · intro name' found hfound
    rw [Named.find?_append] at hfound ⊢
    cases hfind : Named.find? name' rs with
    | some found' =>
        obtain ⟨hmem, w, hw, hvs⟩ := h.named name' found' hfind
        obtain rfl : found' = found := by simpa [hfind] using hfound
        exact ⟨List.mem_cons_of_mem _ hmem, w, hw, by rw [hvs]; rfl⟩
    | none =>
        obtain ⟨-, hvs⟩ := h.free name' hfind
        rw [hfind, Option.none_or, Named.find?_cons] at hfound
        rw [hvs, Option.none_or, Named.find?_cons]
        split at hfound
        · rename_i hname
          cases hfound
          exact ⟨hname ▸ List.mem_cons_self, v, hrow, if_pos hname⟩
        · cases hfound
  · intro name' hnone
    rw [Named.find?_append, Option.or_eq_none_iff, Named.find?_cons] at hnone
    obtain ⟨hmem, hvs⟩ := h.free name' hnone.1
    have hname : name ≠ name' := fun hname => by simp [hname] at hnone
    refine ⟨?_, ?_⟩
    · rw [List.mem_cons, not_or]
      exact ⟨hname.symm, hmem⟩
    · rw [Named.find?_append, hvs, Option.none_or, Named.find?_cons, if_neg hname]
      rfl

/-- The arguments of a lambda are the rows that its parameters stand for. -/
theorem scopeReads_scopeOf {args : List Row} {vs : List Value} (hargs : ArgsRead rd f args vs)
    {params : List Binder} (hlength : params.length = args.length) :
    ScopeReads rd f (params.map Binder.name) (scopeOf params args)
      ((params.zip vs).map fun x => (⟨x.1.name, x.2⟩ : Named Value)).reverse := by
  induction hargs generalizing params with
  | nil =>
      obtain rfl := List.eq_nil_of_length_eq_zero hlength
      exact ⟨nofun, fun _ _ => ⟨nofun, rfl⟩⟩
  | @cons row v args vs hrow _ ih =>
      cases params with
      | nil => cases hlength
      | cons x params =>
          rw [scopeOf_cons, List.zip_cons_cons, List.map_cons, List.map_cons, List.reverse_cons]
          exact (ih (Nat.succ.inj hlength)).snoc x.name hrow

theorem invoke_lowered {args : List Row} {vs : List Value} (hargs : ArgsRead rd f args vs)
    (hparams : env.params = some rd.params) {e : Expr} {row : Row} (hcalls : e.CallFree)
    (h : lowerLambda ⟨rd.schema, rules⟩ args e = .ok row) :
    Eval.invoke env [] vs (e.lowered []) = liftM (rd.rowValue f row) := by
  obtain ⟨params, body, rfl, hlength, h⟩ := lowerLambda_eq_ok h
  have hscope := scopeReads_scopeOf hargs hlength
  have hbody : body.CallFree := hcalls.child (by simp [Expr.children])
  have hdenotes := denotes_lowered hscope hparams hbody h
  rw [Expr.lowered, Eval.invoke, if_pos (hlength.trans hargs.length_eq), Eval.bindArgs,
    List.append_nil, List.append_nil]
  exact hdenotes.value_eq

theorem invoke_lowered_term {args : List Row} {vs : List Value} (hargs : ArgsRead rd f args vs)
    (hparams : env.params = some rd.params) {e : Expr} {term : Term} (hcalls : e.CallFree)
    (h : lowerLambdaTerm ⟨rd.schema, rules⟩ args e = .ok term) :
    Eval.invoke env [] vs (e.lowered []) = liftM (rd.value f term) := by
  obtain ⟨t, h⟩ := lowerLambdaTerm_eq_ok.mp h
  rw [invoke_lowered hargs hparams hcalls h, rowValue]

/-- An expression outside lambdas has the value of its term. -/
theorem value_lowered_term (hparams : env.params = some rd.params) {e : Expr} {term : Term}
    (hcalls : e.CallFree) (h : lowerTerm ⟨rd.schema, rules⟩ [] e = .ok term) :
    Eval.value env [] (e.lowered []) = liftM (rd.value [] term) := by
  obtain ⟨t, h⟩ := lowerTerm_eq_ok.mp h
  have hscope : ScopeReads rd [] [] [] [] := ⟨nofun, fun _ _ => ⟨nofun, rfl⟩⟩
  rw [(denotes_lowered hscope hparams hcalls h).value_eq, rowValue]

end Reading

end Sql

end DeferredQuery
