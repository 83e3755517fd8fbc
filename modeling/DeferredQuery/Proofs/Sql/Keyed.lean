import DeferredQuery.Plan.Key
import DeferredQuery.Proofs.Pipeline.Matching
import DeferredQuery.Proofs.Sql.Columns
import DeferredQuery.QueryText.Typing
import DeferredQuery.Shape.Extract
import DeferredQuery.Shape.Volatile

/-!
# Statements under one plan key

The text of a shape fixes the statement but for static types: the casts around markers, those of
identifiers among the output columns, and the types that the columns are read as. Each operation
keeps statements alike, so the pipelines of one key are lowered to statements that are the same
exactly when these types are.
-/

namespace DeferredQuery.Sql

/-! ## Clauses -/

structure Join.Alike (j j' : Join) : Prop where
  table : j.table = j'.table
  name : j.name = j'.name
  outerKey : j.outerKey.Alike j'.outerKey
  innerKey : j.innerKey.Alike j'.innerKey

structure SortKey.Alike (k k' : SortKey) : Prop where
  term : k.term.Alike k'.term
  descending : k.descending = k'.descending

namespace Select

/-- The same clauses, whose terms differ in casts alone. -/
structure Alike (s s' : Select) : Prop where
  table : s.table = s'.table
  join : Option.Rel Join.Alike s.join s'.join
  filters : List.Forall₂ Term.Alike s.filters s'.filters
  order : List.Forall₂ SortKey.Alike s.order s'.order
  primaryKeys : s.primaryKeys = s'.primaryKeys
  limit : Option.Rel Term.Alike s.limit s'.limit
  offset : Option.Rel Term.Alike s.offset s'.offset
  distinct : s.distinct = s'.distinct
  comments : s.comments = s'.comments
  current : s.current.Alike s'.current
  cardinality : s.cardinality = s'.cardinality

variable {ctx : Context} {s s' t t' : Select}

/-- Sets that the schema takes for one have one entity type. -/
theorem resolve_congr {schema : Schema} {root root' : SetRef}
    (h : schema.sets.get? root.set = schema.sets.get? root'.set) {e e' : Entity}
    (he : resolve schema root = .ok e) (he' : resolve schema root' = .ok e') : e = e' := by
  unfold resolve at he he'
  rw [← h] at he'
  cases hfound : (schema.sets.get? root.set).bind schema.entities.get? with
  | none =>
      rw [hfound] at he
      cases he
  | some found =>
      rw [hfound] at he he'
      cases he
      cases he'
      rfl

theorem annotate_eq_ok {name : String} {args : List Expr} (h : s.annotate name args = .ok t) :
    ∃ tag u, args = [.constant (.string tag) u] ∧ t = { s with
      comments := s.comments ++ [String.ofList (Text.partCommentEnd tag.toList)] } := by
  unfold annotate at h
  split at h
  · split at h
    · cases h
      exact ⟨_, _, rfl, rfl⟩
    · cases h
  · cases h

theorem forall₂_insertIdx {keys keys' : List SortKey} (h : List.Forall₂ SortKey.Alike keys keys')
    {k k' : SortKey} (hk : k.Alike k') (n : Nat) :
    List.Forall₂ SortKey.Alike (keys.insertIdx n k) (keys'.insertIdx n k') := by
  induction h generalizing n with
  | nil =>
      cases n with
      | zero => exact .cons hk .nil
      | succ n => exact .nil
  | cons hfirst hrest ih =>
      cases n with
      | zero => exact .cons hk (.cons hfirst hrest)
      | succ n => exact .cons hfirst (ih n)

namespace Alike

theorem rows (h : s.Alike s') : List.Forall₂ Row.Alike [s.current] [s'.current] :=
  .cons h.current .nil

theorem filter (hrules : ∀ rule ∈ ctx.rules, rule.Uniform) (h : s.Alike s') {name name' : String}
    {e e' : Expr} (he : e.Matches e') (ht : s.filter ctx name e = .ok t)
    (ht' : s'.filter ctx name' e' = .ok t') : t.Alike t' := by
  obtain ⟨-, term, hterm, rfl⟩ := filter_eq_ok ht
  obtain ⟨-, term', hterm', rfl⟩ := filter_eq_ok ht'
  have halike := alike_lambdaTerm hrules he h.rows hterm hterm'
  exact { h with filters := List.rel_append h.filters (.cons halike .nil) }

theorem filterBy (hrules : ∀ rule ∈ ctx.rules, rule.Uniform) (h : s.Alike s')
    {name name' : String} {e e' : Option Expr} (he : Option.Rel Expr.Matches e e')
    (ht : s.filterBy ctx name e = .ok t) (ht' : s'.filterBy ctx name' e' = .ok t') :
    t.Alike t' := by
  cases he with
  | none =>
      cases ht
      cases ht'
      exact h
  | some he => exact h.filter hrules he ht ht'

theorem take (h : s.Alike s') {u u' : Term} (hu : u.Alike u') : (s.take u).Alike (s'.take u') := by
  have hlimit := h.limit
  refine { h with limit := .some ?_ }
  generalize s.limit = earlier at hlimit ⊢
  generalize s'.limit = earlier' at hlimit ⊢
  cases hlimit with
  | none => exact hu
  | some hearlier => exact .function "LEAST" (.cons hearlier (.cons hu .nil)) .int .int

theorem skip (h : s.Alike s') {u u' : Term} (hu : u.Alike u') : (s.skip u).Alike (s'.skip u') := by
  have hoffset := h.offset
  refine { h with offset := .some ?_ }
  generalize s.offset = earlier at hoffset ⊢
  generalize s'.offset = earlier' at hoffset ⊢
  cases hoffset with
  | none => exact hu
  | some hearlier => exact .binary .add hearlier hu

theorem annotate (h : s.Alike s') {name : String} {args args' : List Expr}
    (hargs : List.Forall₂ Expr.Matches args args') (ht : s.annotate name args = .ok t)
    (ht' : s'.annotate name args' = .ok t') : t.Alike t' := by
  obtain ⟨tag, u, rfl, rfl⟩ := annotate_eq_ok ht
  obtain ⟨tag', u', rfl, rfl⟩ := annotate_eq_ok ht'
  obtain ⟨v', hv', halike⟩ := (List.forall₂_cons.mp hargs).1.constant
  cases halike with
  | same =>
      cases hv'
      exact { h with comments := congrArg (· ++ _) h.comments }

/-- One operation keeps statements alike. -/
theorem apply (hrules : ∀ rule ∈ ctx.rules, rule.Uniform) (h : s.Alike s') {op op' : Operation}
    (hop : op.Matches ctx.schema op') (ht : s.apply ctx op = .ok t)
    (ht' : s'.apply ctx op' = .ok t') : t.Alike t' := by
  obtain ⟨-, ht⟩ := apply_eq_ok ht
  obtain ⟨-, ht'⟩ := apply_eq_ok ht'
  cases hop with
  | filter he => exact h.filter hrules he ht ht'
  | select he =>
      obtain ⟨-, row, hrow, rfl⟩ := select_eq_ok ht
      obtain ⟨-, row', hrow', rfl⟩ := select_eq_ok ht'
      exact { h with current := alike_lambda hrules he h.rows hrow hrow' }
  | orderBy he descending =>
      obtain ⟨-, term, hterm, rfl⟩ := orderBy_eq_ok ht
      obtain ⟨-, term', hterm', rfl⟩ := orderBy_eq_ok ht'
      have halike := alike_lambdaTerm hrules he h.rows hterm hterm'
      have hkey : SortKey.Alike ⟨term, descending⟩ ⟨term', descending⟩ := ⟨halike, rfl⟩
      exact { h with order := .cons hkey h.order, primaryKeys := rfl }
  | thenBy he descending =>
      obtain ⟨term, hterm, rfl⟩ := thenBy_eq_ok ht
      obtain ⟨term', hterm', rfl⟩ := thenBy_eq_ok ht'
      have halike := alike_lambdaTerm hrules he h.rows hterm hterm'
      have hkey : SortKey.Alike ⟨term, descending⟩ ⟨term', descending⟩ := ⟨halike, rfl⟩
      -- the key goes after the keys of the last ordering, which are as many in both statements
      refine { h with order := ?_, primaryKeys := congrArg (· + 1) h.primaryKeys }
      rw [← h.primaryKeys]
      exact forall₂_insertIdx h.order hkey _
  | skip he =>
      obtain ⟨-, term, hterm, rfl⟩ := skip_eq_ok ht
      obtain ⟨-, term', hterm', rfl⟩ := skip_eq_ok ht'
      exact h.skip (alike_term hrules he hterm hterm')
  | take he =>
      obtain ⟨term, hterm, rfl⟩ := take_eq_ok ht
      obtain ⟨term', hterm', rfl⟩ := take_eq_ok ht'
      exact h.take (alike_term hrules he hterm hterm')
  | distinct =>
      obtain ⟨-, -, rfl⟩ := distinct_eq_ok ht
      obtain ⟨-, -, rfl⟩ := distinct_eq_ok ht'
      exact { h with distinct := rfl }
  | join hset houter hinner hresult =>
      obtain ⟨-, -, e, outer, inner, row, he, hou, hin, hrow, rfl⟩ := join_eq_ok ht
      obtain ⟨-, -, e', outer', inner', row', he', hou', hin', hrow', rfl⟩ := join_eq_ok ht'
      obtain rfl := resolve_congr hset he he'
      have hentity : (Row.entity innerName e.name).Alike (.entity innerName e.name) :=
        .entity (.inr rfl) e.name
      have houtered := alike_lambdaTerm hrules houter h.rows hou hou'
      have hinnered := alike_lambdaTerm hrules hinner (.cons hentity .nil) hin hin'
      have hrows := alike_lambda hrules hresult (.cons h.current (.cons hentity .nil)) hrow hrow'
      exact { h with join := .some ⟨rfl, rfl, houtered, hinnered⟩, current := hrows }
  | count he =>
      obtain ⟨u, hu, rfl⟩ := count_eq_ok ht
      obtain ⟨u', hu', rfl⟩ := count_eq_ok ht'
      exact { h.filterBy hrules he hu hu' with cardinality := rfl }
  | any he =>
      obtain ⟨u, hu, rfl⟩ := any_eq_ok ht
      obtain ⟨u', hu', rfl⟩ := any_eq_ok ht'
      exact { h.filterBy hrules he hu hu' with cardinality := rfl }
  | first he orDefault =>
      obtain ⟨u, hu, rfl⟩ := first_eq_ok ht
      obtain ⟨u', hu', rfl⟩ := first_eq_ok ht'
      exact { (h.filterBy hrules he hu hu').take (.refl _) with cardinality := rfl }
  | single he => cases ht
  | custom name hargs => exact h.annotate hargs ht ht'

/-- By induction on the operations, each of which is added to statements that are alike. -/
theorem foldlM (hrules : ∀ rule ∈ ctx.rules, rule.Uniform) {ops ops' : List Operation}
    (hops : List.Forall₂ (Operation.Matches ctx.schema) ops ops') (h : s.Alike s')
    (ht : ops.foldlM (Select.apply ctx) s = .ok t)
    (ht' : ops'.foldlM (Select.apply ctx) s' = .ok t') : t.Alike t' := by
  induction hops generalizing s s' with
  | nil =>
      cases ht
      cases ht'
      exact h
  | cons hop _ ih =>
      obtain ⟨u, hu, ht⟩ := bind_eq_ok.mp ht
      obtain ⟨u', hu', ht'⟩ := bind_eq_ok.mp ht'
      exact ih (h.apply hrules hop hu hu') ht ht'

/-- Matching pipelines are lowered to clauses that are alike. -/
theorem ofPipeline (hrules : ∀ rule ∈ ctx.rules, rule.Uniform) {p p' : Pipeline}
    (hsource : ctx.schema.sets.get? p.source.set = ctx.schema.sets.get? p'.source.set)
    (hops : List.Forall₂ (Operation.Matches ctx.schema) p.operations p'.operations)
    (hs : Select.ofPipeline ctx p = .ok s) (hs' : Select.ofPipeline ctx p' = .ok s') :
    s.Alike s' := by
  obtain ⟨u, hu, hs⟩ := bind_eq_ok.mp hs
  obtain ⟨u', hu', hs'⟩ := bind_eq_ok.mp hs'
  obtain ⟨e, he, hu⟩ := bind_eq_ok.mp hu
  obtain ⟨e', he', hu'⟩ := bind_eq_ok.mp hu'
  obtain rfl := resolve_congr hsource he he'
  cases hu
  cases hu'
  exact foldlM hrules hops ⟨rfl, .none, .nil, .nil, rfl, .none, .none, rfl, rfl,
    .entity (.inl rfl) e.name, rfl⟩ hs hs'

end Alike

end Select

/-! ## Casts and types of a statement -/

def Row.column? (name : String) : Row → Option Column
  | .scalar term t => some ⟨name, t, term⟩
  | _ => none

/-- The columns of computed values; the ones of an entity are in its table. -/
def Row.columns : Row → List Column
  | .record fields => fields.filterMap fun field => field.value.column? field.name
  | row => (row.column? valueName).toList

theorem Row.columns_cons (name : String) (u : Term) (t : Ty) (fields : List (Named Row)) :
    (Row.record (⟨name, .scalar u t⟩ :: fields)).columns =
      ⟨name, t, u⟩ :: (Row.record fields).columns := rfl

def Join.casts (j : Join) : List Casts := j.outerKey.casts ++ j.innerKey.casts

namespace Select

/-- The casts that depend on static types, in the order of their places in the statement. -/
def casts (s : Select) : List Casts :=
  s.current.columns.flatMap Column.casts ++ s.join.toList.flatMap Join.casts ++
    s.filters.flatMap Term.casts ++ s.order.flatMap (fun k => k.term.casts) ++
    s.limit.toList.flatMap Term.casts ++ s.offset.toList.flatMap Term.casts

/-- The static types that columns of computed values are read as; a count is always one number,
and a test for rows one truth value. -/
def types (s : Select) : List Ty :=
  match s.cardinality with
  | .count | .exists => []
  | _ => s.current.columns.map Column.ty

end Select

/-! ## Statements -/

theorem castsOfList_eq_flatMap (ts : List Term) : castsOfList ts = ts.flatMap Term.casts := by
  induction ts with
  | nil => rfl
  | cons t ts ih => rw [castsOfList, ih, List.flatMap_cons]

/-- A clause is there in both statements or in neither. -/
theorem alignedAll_option {α : Type} {R : α → α → Prop} {pieces : α → Except Error (List Piece)}
    {casts : α → List Casts}
    (hR : ∀ a a', R a a' → ∀ ps ps', pieces a = .ok ps → pieces a' = .ok ps' →
      Aligned ps ps' (casts a) (casts a'))
    {o o' : Option α} (h : Option.Rel R o o') {pss pss' : List (List Piece)}
    (hpss : optionPieces pieces o = .ok pss) (hpss' : optionPieces pieces o' = .ok pss') :
    AlignedAll pss pss' (o.toList.flatMap casts) (o'.toList.flatMap casts) := by
  cases h with
  | none =>
      cases hpss
      cases hpss'
      exact .nil
  | some h =>
      obtain ⟨ps, hps, hpss⟩ := bind_eq_ok.mp hpss
      obtain ⟨ps', hps', hpss'⟩ := bind_eq_ok.mp hpss'
      cases hpss
      cases hpss'
      exact .cons (hR _ _ h ps ps' hps hps') .nil

theorem Join.Alike.aligned {j j' : Join} (h : j.Alike j') (ps ps' : List Piece)
    (hps : j.pieces = .ok ps) (hps' : j'.pieces = .ok ps') :
    Aligned ps ps' j.casts j'.casts := by
  obtain ⟨outer, houter, hps⟩ := bind_eq_ok.mp hps
  obtain ⟨inner, hinner, hps⟩ := bind_eq_ok.mp hps
  obtain ⟨outer', houter', hps'⟩ := bind_eq_ok.mp hps'
  obtain ⟨inner', hinner', hps'⟩ := bind_eq_ok.mp hps'
  cases hps
  cases hps'
  rw [← h.table, ← h.name]
  exact ((h.outerKey _ _ houter houter').cons _).append ((h.innerKey _ _ hinner hinner').cons " = ")

/-- The direction of a key is the same in both statements. -/
theorem alignedAll_sortKeys {keys keys' : List SortKey} (h : List.Forall₂ SortKey.Alike keys keys')
    {pss pss' : List (List Piece)} (hpss : SortKey.listPieces keys = .ok pss)
    (hpss' : SortKey.listPieces keys' = .ok pss') :
    AlignedAll pss pss' (keys.flatMap fun k => k.term.casts)
      (keys'.flatMap fun k => k.term.casts) := by
  induction h generalizing pss pss' with
  | nil =>
      cases hpss
      cases hpss'
      exact .nil
  | cons h _ ih =>
      obtain ⟨ps, hps, hpss⟩ := bind_eq_ok.mp hpss
      obtain ⟨qss, hqss, hpss⟩ := bind_eq_ok.mp hpss
      obtain ⟨ps', hps', hpss'⟩ := bind_eq_ok.mp hpss'
      obtain ⟨qss', hqss', hpss'⟩ := bind_eq_ok.mp hpss'
      obtain ⟨us, hus, hps⟩ := bind_eq_ok.mp hps
      obtain ⟨us', hus', hps'⟩ := bind_eq_ok.mp hps'
      cases hpss
      cases hpss'
      cases hps
      cases hps'
      rw [h.descending]
      exact .cons ((h.term _ _ hus hus').concat _) (ih hqss hqss')

/-- Rows with the same names have columns with the same names, so only their types can differ. -/
theorem FieldsAlike.recordItems {fields fields' : List (Named Row)}
    (h : FieldsAlike fields fields') {pss pss' : List (List Piece)} {ts ts' : List (Named Ty)}
    (hitems : Sql.recordItems fields = .ok (pss, ts))
    (hitems' : Sql.recordItems fields' = .ok (pss', ts')) :
    AlignedAll pss pss' ((Row.record fields).columns.flatMap Column.casts)
        ((Row.record fields').columns.flatMap Column.casts) ∧
      (ts = ts' ↔ (Row.record fields).columns.map Column.ty =
        (Row.record fields').columns.map Column.ty) := by
  match h with
  | .nil =>
      cases hitems
      cases hitems'
      exact ⟨.nil, iff_of_true rfl rfl⟩
  | .cons name (.entity ..) k => cases hitems
  | .cons name (.record _) k => cases hitems
  | .cons name (.scalar halike) k =>
      obtain ⟨ps, hps, hitems⟩ := bind_eq_ok.mp hitems
      obtain ⟨⟨qss, us⟩, hrest, hitems⟩ := bind_eq_ok.mp hitems
      obtain ⟨ps', hps', hitems'⟩ := bind_eq_ok.mp hitems'
      obtain ⟨⟨qss', us'⟩, hrest', hitems'⟩ := bind_eq_ok.mp hitems'
      cases hitems
      cases hitems'
      obtain ⟨haligned, htypes⟩ := k.recordItems hrest hrest'
      refine ⟨.cons (halike.column name hps hps') haligned, ?_⟩
      rw [Row.columns_cons, Row.columns_cons, List.map_cons, List.map_cons, List.cons.injEq,
        List.cons.injEq, ← htypes, Named.mk.injEq, eq_self_iff_true, true_and]

/-- Select lists differ in casts alone, and what they make up differs in the types of columns. -/
theorem Row.Alike.projection {schema : Schema} {row row' : Row} (h : row.Alike row')
    {ps ps' : List Piece} {columns columns' : Columns}
    (hrow : Sql.projection schema row = .ok (ps, columns))
    (hrow' : Sql.projection schema row' = .ok (ps', columns')) :
    Aligned ps ps' (row.columns.flatMap Column.casts) (row'.columns.flatMap Column.casts) ∧
      (columns = columns' ↔ row.columns.map Column.ty = row'.columns.map Column.ty) := by
  cases h with
  | entity htable entity =>
      rw [hrow] at hrow'
      cases hrow'
      exact ⟨.refl _ _, iff_of_true rfl rfl⟩
  | scalar h =>
      obtain ⟨us, hus, hrow⟩ := bind_eq_ok.mp hrow
      obtain ⟨us', hus', hrow'⟩ := bind_eq_ok.mp hrow'
      cases hrow
      cases hrow'
      have haligned := h.column valueName hus hus'
      refine ⟨?_, by simp [Row.columns, Row.column?]⟩
      simpa [Row.columns, Row.column?] using haligned
  | record h =>
      obtain ⟨⟨pss, ts⟩, hitems, hrow⟩ := bind_eq_ok.mp hrow
      obtain ⟨⟨pss', ts'⟩, hitems', hrow'⟩ := bind_eq_ok.mp hrow'
      cases hrow
      cases hrow'
      obtain ⟨haligned, htypes⟩ := h.recordItems hitems hitems'
      exact ⟨haligned.joinWith ", ", by rw [Columns.record.injEq, htypes]⟩

theorem wrapPieces_aligned {inner inner' : List Piece} {cs cs' : List Casts}
    (h : Aligned inner inner' cs cs') (c : Cardinality) (columns columns' : Columns) :
    Aligned (c.wrapPieces inner columns).1 (c.wrapPieces inner' columns').1 cs cs' := by
  cases c with
  | many | first => exact h
  | _ => exact (h.concat _).cons _

/-- Clauses that are alike make statements that differ in casts alone. -/
theorem Select.Alike.pieces {schema : Schema} {s s' : Select} (h : s.Alike s')
    {ps ps' : List Piece} {columns columns' : Columns} (hps : s.pieces schema = .ok (ps, columns))
    (hps' : s'.pieces schema = .ok (ps', columns')) :
    Aligned ps ps' s.casts s'.casts ∧ (columns = columns' ↔ s.types = s'.types) := by
  obtain ⟨⟨items, cs⟩, hitems, hps⟩ := bind_eq_ok.mp hps
  obtain ⟨join, hjoin, hps⟩ := bind_eq_ok.mp hps
  obtain ⟨filters, hfilters, hps⟩ := bind_eq_ok.mp hps
  obtain ⟨order, horder, hps⟩ := bind_eq_ok.mp hps
  obtain ⟨limit, hlimit, hps⟩ := bind_eq_ok.mp hps
  obtain ⟨offset, hoffset, hps⟩ := bind_eq_ok.mp hps
  obtain ⟨⟨items', cs'⟩, hitems', hps'⟩ := bind_eq_ok.mp hps'
  obtain ⟨join', hjoin', hps'⟩ := bind_eq_ok.mp hps'
  obtain ⟨filters', hfilters', hps'⟩ := bind_eq_ok.mp hps'
  obtain ⟨order', horder', hps'⟩ := bind_eq_ok.mp hps'
  obtain ⟨limit', hlimit', hps'⟩ := bind_eq_ok.mp hps'
  obtain ⟨offset', hoffset', hps'⟩ := bind_eq_ok.mp hps'
  obtain ⟨rfl, rfl⟩ := Prod.mk.inj (Except.ok.inj hps)
  obtain ⟨rfl, rfl⟩ := Prod.mk.inj (Except.ok.inj hps')
  obtain ⟨hrow, htypes⟩ := h.current.projection hitems hitems'
  have hjoins := alignedAll_option (fun _ _ halike => halike.aligned) h.join hjoin hjoin'
  have hwhere := Term.Alike.alignedAll_piecesList h.filters hfilters hfilters'
  have hkeys := alignedAll_sortKeys h.order horder horder'
  have hlimits := alignedAll_option (fun _ _ halike => halike) h.limit hlimit hlimit'
  have hoffsets := alignedAll_option (fun _ _ halike => halike) h.offset hoffset hoffset'
  rw [castsOfList_eq_flatMap, castsOfList_eq_flatMap] at hwhere
  refine ⟨?_, ?_⟩
  · rw [← h.cardinality]
    refine wrapPieces_aligned ?_ _ _ _
    rw [← h.comments, ← h.distinct, ← h.table]
    have hcomments := Aligned.refl (s.comments.map fun c => Piece.text ("/* " ++ c ++ " */\n")) []
    have hhead := hcomments.append
      (hrow.cons (if s.distinct then "SELECT DISTINCT " else "SELECT "))
    have hfrom := hjoins.flatten.cons (" FROM " ++ quoteName s.table ++ " AS " ++ Select.outerName)
    exact ((((hhead.append hfrom).append (hwhere.clause " WHERE " " AND ")).append
      (hkeys.clause " ORDER BY " ", ")).append (hlimits.clause " LIMIT " "")).append
      (hoffsets.clause " OFFSET " "")
  · unfold Select.types
    rw [← h.cardinality]
    cases s.cardinality with
    | many | first => exact htypes
    | _ => exact iff_of_true rfl rfl

namespace Statement

/-- The shapes under one key have statements with the same parameters and of one cardinality. The
rest of the statements and the types of their rows are the same exactly when the static types that
the key leaves out give the same casts and column types. -/
theorem same_iff_of_planKey {schema : Schema} {identity : String} {mode mode' : Mode}
    {e e' : Expr} (hclear : e.Legible) (hclear' : e'.Legible) (hsets : e.RootedIn schema)
    (hsets' : e'.RootedIn schema)
    (hkey : PlanKey.ofShape identity mode e = PlanKey.ofShape identity mode' e')
    {p p' : Pipeline} (hp : Pipeline.classify .standard e = .ok p)
    (hp' : Pipeline.classify .standard e' = .ok p') {s s' : Select}
    (hs : Select.ofPipeline ⟨schema, FunctionRule.standard⟩ p = .ok s)
    (hs' : Select.ofPipeline ⟨schema, FunctionRule.standard⟩ p' = .ok s') {q q' : Statement}
    (hq : ofSelect schema s = .ok q) (hq' : ofSelect schema s' = .ok q') :
    q.parameters = q'.parameters ∧ q.cardinality = q'.cardinality ∧
      ((q.text = q'.text ∧ q.columns = q'.columns ∧ p.result.element = p'.result.element) ↔
        s.casts = s'.casts ∧ s.types = s'.types ∧ p.result.element = p'.result.element) := by
  have htext : e.text = e'.text := congrArg PlanKey.shape hkey
  have hmatch : e.MatchesIn schema e' := ⟨.of_text hclear hclear' htext, hsets, hsets'⟩
  obtain ⟨hsource, hops⟩ := Pipeline.classify_matches hmatch hp hp'
  have halike := Select.Alike.ofPipeline FunctionRule.uniform_standard hsource hops hs hs'
  obtain ⟨ps, columns, hps, rfl⟩ := ofSelect_eq_ok_iff.mp hq
  obtain ⟨ps', columns', hps', rfl⟩ := ofSelect_eq_ok_iff.mp hq'
  obtain ⟨haligned, htypes⟩ := halike.pieces hps hps'
  exact ⟨haligned.names, halike.cardinality,
    and_congr haligned.text_iff (and_congr htypes Iff.rfl)⟩

/-! ### A captured variable of two types -/

def census : Schema :=
  (Schema.empty.withEntity ⟨"Person", "people", [⟨"Age", "Age", .int⟩]⟩).withSet "people" "Person"

def shapeOf? (captured : Closure) (text : String) : Option Expr :=
  match QueryText.parse ⟨census.names, some captured⟩ text with
  | .error _ => none
  | .ok query =>
    let clock : Eval.Oracle := ⟨fun _ => ⟨0⟩, fun _ => ⟨0, 0⟩⟩
    match (extract clock (VolatileMethods.standard.tag query)).run ⟨[], 0⟩ with
    | (.ok shape, _) => some shape.untag
    | (.error _, _) => none

def onPeople (operator : String) (body : Expr) (t : Ty) : Expr :=
  .call (.operator operator) none
    [.constant (.query ⟨"Person", "people"⟩) (.queryable (.entity "Person")),
      .lambda [⟨"p", .entity "Person"⟩] body] (.queryable t)

def captures (t : Ty) : Expr := onPeople "Select" (.parameter "__x_0" t) t

/-- A whole number and a text are captured under one name. The shapes have one key, but the columns
of the one statement are numbers and those of the other one texts. -/
theorem columns_of_captures :
    shapeOf? ⟨"C", [⟨"x", .int, .int 1⟩]⟩ "people.Select(p => x)" = some (captures .int) ∧
      shapeOf? ⟨"C", [⟨"x", .string, .string "a"⟩]⟩ "people.Select(p => x)" =
        some (captures .string) ∧
      PlanKey.ofShape "" .sync (captures .int) = PlanKey.ofShape "" .sync (captures .string) ∧
      ∃ p p' q q', Pipeline.classify .standard (captures .int) = .ok p ∧
        Pipeline.classify .standard (captures .string) = .ok p' ∧
        ofPipeline ⟨census, FunctionRule.standard⟩ p = .ok q ∧
        ofPipeline ⟨census, FunctionRule.standard⟩ p' = .ok q' ∧
        q.text ≠ q'.text ∧ q.columns ≠ q'.columns ∧ p.result.element ≠ p'.result.element :=
  ⟨rfl, rfl, rfl, _, _, _, _, rfl, rfl, rfl, rfl, by decide, by decide, by decide⟩

def unlessCaptured (t : Ty) : Expr :=
  onPeople "Where" (.binary .eq (.parameter "__x_0" t) (.constant .null .null)) (.entity "Person")

/-- A number and an optional number are cast alike, so the statements are the same. -/
theorem same_of_optional :
    (unlessCaptured .int).Legible ∧ (unlessCaptured (.nullable .int)).Legible ∧
      (unlessCaptured .int).RootedIn census ∧ (unlessCaptured (.nullable .int)).RootedIn census ∧
      ∃ p p' s s' q q', Pipeline.classify .standard (unlessCaptured .int) = .ok p ∧
        Pipeline.classify .standard (unlessCaptured (.nullable .int)) = .ok p' ∧
        Select.ofPipeline ⟨census, FunctionRule.standard⟩ p = .ok s ∧
        Select.ofPipeline ⟨census, FunctionRule.standard⟩ p' = .ok s' ∧
        ofSelect census s = .ok q ∧ ofSelect census s' = .ok q' ∧
        q.parameters = q'.parameters ∧ q.cardinality = q'.cardinality ∧ q.text = q'.text ∧
        q.columns = q'.columns ∧ p.result.element = p'.result.element := by
  have hclear : (unlessCaptured .int).Legible := by decide
  have hclear' : (unlessCaptured (.nullable .int)).Legible := by decide
  have hsets : (unlessCaptured .int).RootedIn census := by decide
  have hsets' : (unlessCaptured (.nullable .int)).RootedIn census := by decide
  refine ⟨hclear, hclear', hsets, hsets', _, _, _, _, _, _, rfl, rfl, rfl, rfl, rfl, rfl, ?_⟩
  have hkey : PlanKey.ofShape "" .sync (unlessCaptured .int) =
      PlanKey.ofShape "" .sync (unlessCaptured (.nullable .int)) := rfl
  obtain ⟨hparameters, hcardinality, hsame⟩ :=
    same_iff_of_planKey hclear hclear' hsets hsets' hkey rfl rfl rfl rfl rfl rfl
  exact ⟨hparameters, hcardinality, hsame.mpr ⟨rfl, rfl, rfl⟩⟩

end Statement

end DeferredQuery.Sql
