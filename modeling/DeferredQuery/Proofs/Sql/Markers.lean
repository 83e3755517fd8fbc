import DeferredQuery.Proofs.Expr.Children
import DeferredQuery.Proofs.Sql.Pieces
import DeferredQuery.Proofs.Sql.Rows
import Mathlib.Data.List.InsertIdx

/-!
# The markers of a statement

The names that a statement asks values for are those of the placeholders in its terms. Lowering
takes them from the expressions of the pipeline: a parameter of a lambda always stands for a row
and is never written as a marker.
-/

namespace DeferredQuery.Sql

theorem flatMap_subset {α β : Type} {f : α → List β} {xs : List α} {ys : List β}
    (h : ∀ x ∈ xs, f x ⊆ ys) : xs.flatMap f ⊆ ys := by
  intro y hy
  obtain ⟨x, hx, hy⟩ := List.mem_flatMap.mp hy
  exact h x hx hy

/-! ## Names in terms and rows -/

mutual

def Term.names : Term → List String
  | .column .. => []
  | .parameter name => [name]
  | .literal _ => []
  | .function _ args _ => namesOfTerms args
  | .binary _ left right => left.names ++ right.names
  | .unary _ operand => operand.names
  | .cast operand _ => operand.names

def namesOfTerms : List Term → List String
  | [] => []
  | t :: rest => t.names ++ namesOfTerms rest

end

theorem namesOfTerms_eq (ts : List Term) : namesOfTerms ts = ts.flatMap Term.names := by
  induction ts with
  | nil => rfl
  | cons t ts ih => rw [namesOfTerms, ih, List.flatMap_cons]

@[simp] theorem names_function (name : String) (args : List Term) (t : Ty) :
    (Term.function name args t).names = args.flatMap Term.names := by
  rw [Term.names, namesOfTerms_eq]

@[simp] theorem names_placeholder (name : String) (t : Ty) :
    (placeholder name t).names = [name] := by
  unfold placeholder
  split <;> rfl

mutual

def Row.names : Row → List String
  | .entity .. => []
  | .scalar term _ => term.names
  | .record fields => namesOfRows fields

def namesOfRows : List (Named Row) → List String
  | [] => []
  | ⟨_, row⟩ :: rest => row.names ++ namesOfRows rest

end

theorem namesOfRows_eq (fields : List (Named Row)) :
    namesOfRows fields = fields.flatMap fun field => field.value.names := by
  induction fields with
  | nil => rfl
  | cons field fields ih => rw [namesOfRows, ih, List.flatMap_cons]

@[simp] theorem names_record (fields : List (Named Row)) :
    (Row.record fields).names = fields.flatMap fun field => field.value.names := by
  rw [Row.names, namesOfRows_eq]

/-! ## Markers of pieces -/

/-- The markers of a list are those of its terms, one after the other. -/
theorem namesOf_piecesList {ts : List Term} {pss : List (List Piece)}
    (ih : ∀ t ∈ ts, ∀ ps, t.pieces = .ok ps → Piece.namesOf ps = t.names)
    (h : piecesList ts = .ok pss) : pss.flatMap Piece.namesOf = ts.flatMap Term.names := by
  induction ts generalizing pss with
  | nil =>
      cases h
      rfl
  | cons t ts ihts =>
      obtain ⟨ps, hps, h⟩ := bind_eq_ok.mp h
      obtain ⟨qss, hqss, h⟩ := bind_eq_ok.mp h
      cases h
      rw [List.flatMap_cons, List.flatMap_cons, ih t List.mem_cons_self ps hps,
        ihts (fun u hu => ih u (List.mem_cons_of_mem _ hu)) hqss]

/-- The markers of a term are its placeholders. -/
theorem namesOf_pieces {t : Term} {ps : List Piece} (h : t.pieces = .ok ps) :
    Piece.namesOf ps = t.names := by
  induction t generalizing ps with
  | column table column =>
      cases h
      rfl
  | parameter name =>
      cases h
      rfl
  | literal v =>
      obtain ⟨s, -, h⟩ := bind_eq_ok.mp h
      cases h
      rfl
  | function name args t ih =>
      obtain ⟨pss, hpss, h⟩ := bind_eq_ok.mp h
      cases h
      rw [List.cons_append, Piece.namesOf, Piece.namesOf_append, Piece.namesOf_joinWith,
        namesOf_piecesList (fun a ha ps hps => ih a ha hps) hpss, names_function]
      exact List.append_nil _
  | binary op left right ihl ihr =>
      obtain ⟨ls, hls, h⟩ := bind_eq_ok.mp h
      obtain ⟨rs, hrs, h⟩ := bind_eq_ok.mp h
      cases h
      simp [Piece.namesOf, Piece.namesOf_append, ihl hls, ihr hrs, Term.names]
  | unary op operand ih =>
      obtain ⟨qs, hqs, h⟩ := bind_eq_ok.mp h
      cases h
      simp [Piece.namesOf, Piece.namesOf_append, ih hqs, Term.names]
  | cast operand t ih =>
      rw [Term.pieces] at h
      split at h
      · cases h
      · obtain ⟨qs, hqs, h⟩ := bind_eq_ok.mp h
        cases h
        simp [Piece.namesOf, Piece.namesOf_append, ih hqs, Term.names]

theorem namesOf_column {c : Column} {ps : List Piece} (h : c.pieces = .ok ps) :
    Piece.namesOf ps = c.term.names := by
  obtain ⟨qs, hqs, h⟩ := bind_eq_ok.mp h
  cases h
  split <;> simp [Piece.namesOf, Piece.namesOf_append, namesOf_pieces hqs]

theorem namesOf_columns {cs : List Column} {pss : List (List Piece)}
    (h : Column.listPieces cs = .ok pss) :
    pss.flatMap Piece.namesOf = cs.flatMap fun c => c.term.names := by
  induction cs generalizing pss with
  | nil =>
      cases h
      rfl
  | cons c cs ih =>
      obtain ⟨ps, hps, h⟩ := bind_eq_ok.mp h
      obtain ⟨qss, hqss, h⟩ := bind_eq_ok.mp h
      cases h
      rw [List.flatMap_cons, List.flatMap_cons, namesOf_column hps, ih hqss]

theorem namesOf_recordItems {fields : List (Named Row)} {pss : List (List Piece)}
    {ts : List (Named Ty)} (h : recordItems fields = .ok (pss, ts)) :
    pss.flatMap Piece.namesOf = fields.flatMap fun field => field.value.names := by
  induction fields generalizing pss ts with
  | nil =>
      cases h
      rfl
  | cons field fields ih =>
      obtain ⟨name, row⟩ := field
      cases row with
      | scalar term t =>
          obtain ⟨ps, hps, h⟩ := bind_eq_ok.mp h
          obtain ⟨⟨qss, us⟩, hrest, h⟩ := bind_eq_ok.mp h
          cases h
          rw [List.flatMap_cons, List.flatMap_cons, namesOf_column hps, ih hrest]
          rfl
      | entity => cases h
      | record => cases h

/-- The markers of a select list are the placeholders of the row. -/
theorem namesOf_projection {schema : Schema} {row : Row} {ps : List Piece} {columns : Columns}
    (h : projection schema row = .ok (ps, columns)) : Piece.namesOf ps = row.names := by
  cases row with
  | entity table entity =>
      rw [projection] at h
      split at h
      · cases h
      · rename_i e _
        obtain ⟨pss, hpss, h⟩ := bind_eq_ok.mp h
        cases h
        rw [Piece.namesOf_joinWith, namesOf_columns hpss, List.flatMap_map]
        exact List.flatMap_eq_nil_iff.mpr fun p _ => rfl
  | scalar term t =>
      obtain ⟨qs, hqs, h⟩ := bind_eq_ok.mp h
      cases h
      exact namesOf_column hqs
  | record fields =>
      obtain ⟨⟨pss, ts⟩, hitems, h⟩ := bind_eq_ok.mp h
      cases h
      rw [Piece.namesOf_joinWith, namesOf_recordItems hitems, names_record]

theorem namesOf_sortKeys {keys : List SortKey} {pss : List (List Piece)}
    (h : SortKey.listPieces keys = .ok pss) :
    pss.flatMap Piece.namesOf = keys.flatMap fun k => k.term.names := by
  induction keys generalizing pss with
  | nil =>
      cases h
      rfl
  | cons k keys ih =>
      obtain ⟨ps, hps, h⟩ := bind_eq_ok.mp h
      obtain ⟨qss, hqss, h⟩ := bind_eq_ok.mp h
      cases h
      obtain ⟨qs, hqs, hps⟩ := bind_eq_ok.mp hps
      cases hps
      rw [List.flatMap_cons, List.flatMap_cons, ih hqss, Piece.namesOf_append, namesOf_pieces hqs]
      simp [Piece.namesOf]

theorem namesOf_join {j : Join} {ps : List Piece} (h : j.pieces = .ok ps) :
    Piece.namesOf ps = j.outerKey.names ++ j.innerKey.names := by
  obtain ⟨outer, houter, h⟩ := bind_eq_ok.mp h
  obtain ⟨inner, hinner, h⟩ := bind_eq_ok.mp h
  cases h
  simp [Piece.namesOf, Piece.namesOf_append, namesOf_pieces houter, namesOf_pieces hinner]

theorem namesOf_option {α : Type} {pieces : α → Except Error (List Piece)} {names : α → List String}
    (hnames : ∀ a ps, pieces a = .ok ps → Piece.namesOf ps = names a) {o : Option α}
    {pss : List (List Piece)} (h : optionPieces pieces o = .ok pss) :
    pss.flatMap Piece.namesOf = o.toList.flatMap names := by
  cases o with
  | none =>
      cases h
      rfl
  | some a =>
      obtain ⟨ps, hps, h⟩ := bind_eq_ok.mp h
      cases h
      simp [hnames a ps hps]

/-! ## Markers of statements -/

namespace Select

def names (s : Select) : List String :=
  s.current.names ++ (s.join.toList.flatMap fun j => j.outerKey.names ++ j.innerKey.names) ++
    s.filters.flatMap Term.names ++ (s.order.flatMap fun k => k.term.names) ++
    s.limit.toList.flatMap Term.names ++ s.offset.toList.flatMap Term.names

end Select

/-- The values that a statement asks for are the placeholders in its clauses. -/
theorem parameters_ofSelect {schema : Schema} {s : Select} {statement : Statement}
    (h : Statement.ofSelect schema s = .ok statement) : statement.parameters = s.names := by
  obtain ⟨ps, columns, hps, rfl⟩ := Statement.ofSelect_eq_ok_iff.mp h
  obtain ⟨⟨items, _⟩, hitems, hps⟩ := bind_eq_ok.mp hps
  obtain ⟨join, hjoin, hps⟩ := bind_eq_ok.mp hps
  obtain ⟨filters, hfilters, hps⟩ := bind_eq_ok.mp hps
  obtain ⟨order, horder, hps⟩ := bind_eq_ok.mp hps
  obtain ⟨limit, hlimit, hps⟩ := bind_eq_ok.mp hps
  obtain ⟨offset, hoffset, hps⟩ := bind_eq_ok.mp hps
  obtain rfl := congrArg Prod.fst (Except.ok.inj hps)
  have hfilters' := namesOf_piecesList (fun t _ ps hps => namesOf_pieces hps) hfilters
  have hjoin' := namesOf_option (fun _ _ => namesOf_join) hjoin
  have hlimit' := namesOf_option (fun _ _ => namesOf_pieces) hlimit
  have hoffset' := namesOf_option (fun _ _ => namesOf_pieces) hoffset
  rw [Piece.namesOf_wrapPieces, Select.names]
  simp only [Piece.namesOf_append, Piece.namesOf_comments, Piece.namesOf, Piece.namesOf_clause,
    Piece.namesOf_flatten, namesOf_projection hitems, namesOf_sortKeys horder, hfilters', hjoin',
    hlimit', hoffset', List.nil_append, List.append_assoc, List.cons_append]

/-! ## Lowered expressions -/

section Lower

variable {ctx : Context} {scope : RowScope}

theorem names_member {row found : Row} {name : String} {t : Ty}
    (h : ctx.member row name t = .ok found) : found.names ⊆ row.names := by
  rcases member_eq_ok h with ⟨table, entity, p, rfl, -, rfl⟩ | ⟨rows, rfl, hfind⟩
  · exact List.nil_subset _
  · intro n hn
    rw [names_record]
    exact List.mem_flatMap.mpr ⟨⟨name, found⟩, Named.mem_of_find? hfind, hn⟩

/-- The rule puts no placeholders into a term but those of the call's operands. -/
def FunctionRule.Conservative (rule : FunctionRule) : Prop :=
  ∀ c term, rule c = some term → term.names ⊆ (c.receiver.toList ++ c.args).flatMap Term.names

namespace FunctionRule

theorem conservative_firstOf {rules : List FunctionRule}
    (h : ∀ rule ∈ rules, rule.Conservative) : (firstOf rules).Conservative := by
  intro c term hterm
  obtain ⟨rule, hrule, hterm⟩ := List.exists_of_findSome?_eq_some hterm
  exact h rule hrule c term hterm

/-- The rules for the scalar methods of query texts use the operands alone. -/
theorem conservative_standard : ∀ rule ∈ standard, rule.Conservative := by
  intro rule hrule c term hterm
  obtain ⟨name, args, ty, hargs, hterm⟩ := standard_eq_some hrule hterm
  have hnames : term.names = args.flatMap Term.names := by
    rcases hterm with rfl | ⟨ty', rfl⟩
    · exact names_function name args ty
    · exact names_function name args ty
  rw [hnames]
  exact flatMap_subset fun a ha name hname => List.mem_flatMap.mpr ⟨a, hargs ha, hname⟩

end FunctionRule

/-- A name in scope stands for a row; any other one is a placeholder of its own name. -/
theorem names_lower_parameter {N : List String} (hscope : ∀ x ∈ scope, x.value.names ⊆ N)
    {name : String} (hname : name ∈ scope.map Named.name ++ N) {t : Ty} {row : Row}
    (h : lower ctx scope (.parameter name t) = .ok row) : row.names ⊆ N := by
  rcases lower_parameter_eq_ok h with hfind | ⟨hfind, rfl⟩
  · exact hscope _ (Named.mem_of_find? hfind)
  · have habsent : name ∉ scope.map Named.name := by
      intro hmem
      obtain ⟨x, hx, hxname⟩ := List.mem_map.mp hmem
      have hsome := Named.find?_isSome_iff.mpr ⟨x, hx, hxname⟩
      rw [hfind] at hsome
      cases hsome
    rw [Row.names, names_placeholder]
    exact List.cons_subset.mpr
      ⟨(List.mem_append.mp hname).resolve_left habsent, List.nil_subset _⟩

/-- The placeholders of a lowered expression are parameters that are free in it and stand for no
row, or those of the rows in scope. -/
theorem names_lower (hrules : ∀ rule ∈ ctx.rules, rule.Conservative) {N : List String}
    (hscope : ∀ x ∈ scope, x.value.names ⊆ N) {e : Expr}
    (hbound : e.boundIn (scope.map Named.name ++ N) = true) {row : Row}
    (h : lower ctx scope e = .ok row) : row.names ⊆ N := by
  induction e generalizing row with
  | constant v t =>
      rw [lower_constant_eq_ok h]
      exact List.nil_subset _
  | parameter name t =>
      exact names_lower_parameter hscope (by simpa [Expr.boundIn] using hbound) h
  | member target name t ih =>
      obtain ⟨found, hfound, h⟩ := lower_member_eq_ok h
      exact List.Subset.trans (names_member h) (ih hbound hfound)
  | call m receiver args t ihr ihargs =>
      obtain ⟨hboundr, hboundargs⟩ := Expr.boundIn_call hbound
      obtain ⟨r, us, term, hr, hus, hterm, rfl⟩ := lower_call_eq_ok h
      refine List.Subset.trans (FunctionRule.conservative_firstOf hrules _ _ hterm) ?_
      refine flatMap_subset fun u hu => ?_
      rcases List.mem_append.mp hu with hu | hu
      · cases hr with
        | none => cases hu
        | some hfound =>
            obtain ⟨tu, hfound⟩ := hfound
            obtain rfl := List.mem_singleton.mp hu
            exact ihr _ rfl (hboundr _ rfl) hfound
      · obtain ⟨e, he, tu, hfound⟩ := exists_of_forall₂ hus hu
        exact ihargs e he (hboundargs e he) hfound
  | lambda params body => cases h
  | convert operand t ih =>
      rcases lower_convert_eq_ok h with ⟨-, h⟩ | ⟨-, u, tu, hu, rfl⟩
      · exact ih hbound h
      · have hnames := ih hbound hu
        exact hnames
  | binary op left right ihl ihr =>
      obtain ⟨hl, hr⟩ := (Bool.and_eq_true _ _).mp hbound
      obtain ⟨u, tu, v, tv, hu, hv, rfl⟩ := lower_binary_eq_ok h
      exact List.append_subset.mpr ⟨ihl hl hu, ihr hr hv⟩
  | unary op operand ih =>
      obtain ⟨u, tu, hu, rfl⟩ := lower_unary_eq_ok h
      have hnames := ih hbound hu
      exact hnames
  | record fields ih =>
      obtain ⟨rows, rfl, hrows⟩ := lower_record_eq_ok h
      rw [names_record]
      refine flatMap_subset fun row hrow => ?_
      obtain ⟨field, hfield, -, hlower⟩ := exists_of_forall₂ hrows hrow
      exact ih field hfield (Expr.boundInFields_iff.mp hbound field hfield) hlower
  | volatile inner ih => exact ih hbound h

theorem names_lowerTerm (hrules : ∀ rule ∈ ctx.rules, rule.Conservative) {N : List String}
    {e : Expr} (hbound : e.boundIn N = true) {term : Term} (h : lowerTerm ctx [] e = .ok term) :
    term.names ⊆ N := by
  obtain ⟨t, h⟩ := lowerTerm_eq_ok.mp h
  have hscope : ∀ x ∈ ([] : RowScope), x.value.names ⊆ N := by simp
  exact names_lower hrules hscope hbound h

/-- Each parameter of a lambda stands for a row. -/
theorem names_lowerLambda (hrules : ∀ rule ∈ ctx.rules, rule.Conservative) {N : List String}
    {args : List Row} (hargs : ∀ row ∈ args, row.names ⊆ N) {e : Expr}
    (hbound : e.boundIn N = true) {row : Row} (h : lowerLambda ctx args e = .ok row) :
    row.names ⊆ N := by
  obtain ⟨params, body, rfl, hlength, h⟩ := lowerLambda_eq_ok h
  refine names_lower hrules (fun x hx => hargs _ (value_of_mem_scopeOf hx)) ?_ h
  rw [names_scopeOf hlength]
  exact Expr.boundIn_mono (fun name hname => by simpa using hname) hbound

theorem names_lowerLambdaTerm (hrules : ∀ rule ∈ ctx.rules, rule.Conservative) {N : List String}
    {args : List Row} (hargs : ∀ row ∈ args, row.names ⊆ N) {e : Expr}
    (hbound : e.boundIn N = true) {term : Term} (h : lowerLambdaTerm ctx args e = .ok term) :
    term.names ⊆ N := by
  obtain ⟨t, h⟩ := lowerLambdaTerm_eq_ok.mp h
  exact names_lowerLambda hrules hargs hbound h

end Lower

/-! ## Pipelines -/

namespace Select

variable {ctx : Context} {s s' : Select} {N : List String}

structure Asks (N : List String) (s : Select) : Prop where
  current : s.current.names ⊆ N
  join : ∀ j, s.join = some j → j.outerKey.names ⊆ N ∧ j.innerKey.names ⊆ N
  filters : ∀ t ∈ s.filters, t.names ⊆ N
  order : ∀ k ∈ s.order, k.term.names ⊆ N
  limit : ∀ t, s.limit = some t → t.names ⊆ N
  offset : ∀ t, s.offset = some t → t.names ⊆ N

theorem Asks.names_subset (h : s.Asks N) : s.names ⊆ N := by
  intro name hname
  simp only [names, List.mem_append, List.mem_flatMap, Option.mem_toList, or_assoc] at hname
  rcases hname with hname | ⟨j, hj, hname⟩ | ⟨t, ht, hname⟩ | ⟨k, hk, hname⟩ | ⟨t, ht, hname⟩ |
    ⟨t, ht, hname⟩
  · exact h.current hname
  · exact hname.elim (@(h.join j hj).1 _) (@(h.join j hj).2 _)
  · exact h.filters t ht hname
  · exact h.order k hk hname
  · exact h.limit t ht hname
  · exact h.offset t ht hname

theorem asks_ofSource {schema : Schema} {root : SetRef} (h : ofSource schema root = .ok s) :
    s.Asks N := by
  obtain ⟨e, -, h⟩ := bind_eq_ok.mp h
  cases h
  exact ⟨List.nil_subset _, nofun, nofun, nofun, nofun, nofun⟩

theorem Asks.take (h : s.Asks N) {count : Term} (hcount : count.names ⊆ N) :
    (s.take count).Asks N := by
  refine { h with limit := fun t ht => ?_ }
  cases ht
  cases hlimit : s.limit with
  | none => exact hcount
  | some earlier =>
      rw [names_function]
      simpa using ⟨h.limit earlier hlimit, hcount⟩

theorem Asks.skip (h : s.Asks N) {count : Term} (hcount : count.names ⊆ N) :
    (s.skip count).Asks N := by
  refine { h with offset := fun t ht => ?_ }
  cases ht
  cases hoffset : s.offset with
  | none => exact hcount
  | some earlier => exact List.append_subset.mpr ⟨h.offset earlier hoffset, hcount⟩

section Steps

variable (hrules : ∀ rule ∈ ctx.rules, rule.Conservative)

include hrules

theorem Asks.filter (h : s.Asks N) {name : String} {e : Expr} (he : e.boundIn N = true)
    (hs' : s.filter ctx name e = .ok s') : s'.Asks N := by
  obtain ⟨-, term, hterm, rfl⟩ := filter_eq_ok hs'
  have hnames := names_lowerLambdaTerm hrules (by simpa using h.current) he hterm
  refine { h with filters := fun t ht => ?_ }
  rcases List.mem_append.mp ht with ht | ht
  · exact h.filters t ht
  · exact List.mem_singleton.mp ht ▸ hnames

theorem Asks.filterBy (h : s.Asks N) {name : String} {predicate : Option Expr}
    (he : ∀ e ∈ predicate.toList, e.boundIn N = true)
    (hs' : s.filterBy ctx name predicate = .ok s') : s'.Asks N := by
  cases predicate with
  | none =>
      cases hs'
      exact h
  | some e => exact h.filter hrules (he e (by simp)) hs'

/-- An operation adds the placeholders of its arguments alone. -/
theorem Asks.apply (h : s.Asks N) {op : Operation}
    (hop : ∀ e ∈ op.arguments, e.boundIn N = true) (hs' : s.apply ctx op = .ok s') :
    s'.Asks N := by
  obtain ⟨-, hs'⟩ := apply_eq_ok hs'
  have hcurrent : ∀ row ∈ [s.current], row.names ⊆ N := by simpa using h.current
  cases op with
  | filter e => exact h.filter hrules (hop e (by simp [Operation.arguments])) hs'
  | select e =>
      obtain ⟨-, row, hrow, rfl⟩ := select_eq_ok hs'
      have he := hop e (by simp [Operation.arguments])
      exact { h with current := names_lowerLambda hrules hcurrent he hrow }
  | orderBy e descending =>
      obtain ⟨-, term, hterm, rfl⟩ := orderBy_eq_ok hs'
      have hnames := names_lowerLambdaTerm hrules hcurrent
        (hop e (by simp [Operation.arguments])) hterm
      exact { h with order := List.forall_mem_cons.mpr ⟨hnames, h.order⟩ }
  | thenBy e descending =>
      obtain ⟨term, hterm, rfl⟩ := thenBy_eq_ok hs'
      have hnames := names_lowerLambdaTerm hrules hcurrent
        (hop e (by simp [Operation.arguments])) hterm
      refine { h with order := fun k hk => ?_ }
      rcases List.eq_or_mem_of_mem_insertIdx hk with rfl | hk
      · exact hnames
      · exact h.order k hk
  | skip e =>
      obtain ⟨-, term, hterm, rfl⟩ := skip_eq_ok hs'
      exact h.skip (names_lowerTerm hrules (hop e (by simp [Operation.arguments])) hterm)
  | take e =>
      obtain ⟨term, hterm, rfl⟩ := take_eq_ok hs'
      exact h.take (names_lowerTerm hrules (hop e (by simp [Operation.arguments])) hterm)
  | distinct =>
      obtain ⟨-, -, rfl⟩ := distinct_eq_ok hs'
      exact { h with }
  | join inner outerKey innerKey result =>
      obtain ⟨-, -, e, outerTerm, innerTerm, row, -, houter, hinner, hrow, rfl⟩ := join_eq_ok hs'
      have hentity : (Row.entity innerName e.name).names ⊆ N := List.nil_subset _
      have houter' := names_lowerLambdaTerm hrules hcurrent
        (hop outerKey (by simp [Operation.arguments])) houter
      have hinner' := names_lowerLambdaTerm hrules (by simpa using hentity)
        (hop innerKey (by simp [Operation.arguments])) hinner
      have hrow' := names_lowerLambda hrules (by simpa using ⟨h.current, hentity⟩)
        (hop result (by simp [Operation.arguments])) hrow
      refine { h with current := hrow', join := fun j hj => ?_ }
      cases hj
      exact ⟨houter', hinner'⟩
  | count predicate =>
      obtain ⟨t, ht, rfl⟩ := count_eq_ok hs'
      exact { h.filterBy hrules hop ht with }
  | any predicate =>
      obtain ⟨t, ht, rfl⟩ := any_eq_ok hs'
      exact { h.filterBy hrules hop ht with }
  | first predicate orDefault =>
      obtain ⟨t, ht, rfl⟩ := first_eq_ok hs'
      exact { (h.filterBy hrules hop ht).take (List.nil_subset _) with }
  | single predicate => cases hs'
  | custom name arguments =>
      obtain ⟨-, -, comments, rfl⟩ := custom_eq_ok hs'
      exact { h with }

theorem Asks.foldlM (h : s.Asks N) {ops : List Operation}
    (hops : ∀ op ∈ ops, ∀ e ∈ op.arguments, e.boundIn N = true)
    (hs' : ops.foldlM (Select.apply ctx) s = .ok s') : s'.Asks N := by
  induction ops generalizing s with
  | nil =>
      cases hs'
      exact h
  | cons op ops ih =>
      obtain ⟨t, ht, hrest⟩ := bind_eq_ok.mp hs'
      have hnext := h.apply hrules (hops op List.mem_cons_self) ht
      exact ih hnext (fun op hop => hops op (List.mem_cons_of_mem _ hop)) hrest

end Steps

end Select

/-- A statement asks for no values but those of parameters that are free in the operations. -/
theorem Statement.parameters_subset {ctx : Context} {p : Pipeline} {statement : Statement}
    (hrules : ∀ rule ∈ ctx.rules, rule.Conservative) {N : List String}
    (hbound : ∀ op ∈ p.operations, ∀ e ∈ op.arguments, e.boundIn N = true)
    (h : ofPipeline ctx p = .ok statement) : statement.parameters ⊆ N := by
  obtain ⟨s, hs, h⟩ := bind_eq_ok.mp h
  obtain ⟨source, hsource, hops⟩ := bind_eq_ok.mp hs
  rw [parameters_ofSelect h]
  exact ((Select.asks_ofSource hsource).foldlM hrules hbound hops).names_subset

end DeferredQuery.Sql
