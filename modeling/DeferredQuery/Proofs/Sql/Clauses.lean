import DeferredQuery.Proofs.Pipeline.Execution
import DeferredQuery.Proofs.Sql.Terms

/-!
# What lowering does to the clauses

Each operation that is accepted, with the clauses that it finds and the ones that it leaves.
-/

namespace DeferredQuery.Sql

open MemoryStore (Stage)

namespace Select

variable {ctx : Context} {s s' : Select}

theorem requireWhole_eq_ok {name : String} {u : Unit} :
    s.requireWhole name = .ok u ↔ s.isCut = false := by
  unfold requireWhole
  cases s.isCut <;> simp

theorem isCut_eq_false : s.isCut = false ↔
    s.limit = none ∧ s.offset = none ∧ s.distinct = false := by
  simp [isCut, and_assoc]

theorem filter_eq_ok {name : String} {e : Expr} (h : s.filter ctx name e = .ok s') :
    s.isCut = false ∧ ∃ term, lowerLambdaTerm ctx [s.current] e = .ok term ∧
      s' = { s with filters := s.filters ++ [term] } := by
  obtain ⟨u, hwhole, h⟩ := bind_eq_ok.mp h
  obtain ⟨term, hterm, h⟩ := bind_eq_ok.mp h
  cases h
  exact ⟨requireWhole_eq_ok.mp hwhole, term, hterm, rfl⟩

/-- Rows that are made distinct cannot be projected any more. -/
theorem select_eq_ok {e : Expr} (h : s.extend ctx (.select e) = .ok s') :
    s.distinct = false ∧ ∃ row, lowerLambda ctx [s.current] e = .ok row ∧
      s' = { s with current := row } := by
  rw [extend] at h
  cases hdistinct : s.distinct with
  | true =>
      simp only [hdistinct, if_true] at h
      cases h
  | false =>
      simp only [hdistinct] at h
      obtain ⟨row, hrow, h⟩ := bind_eq_ok.mp h
      cases h
      exact ⟨rfl, row, hrow, by rw [← hdistinct]⟩

theorem orderBy_eq_ok {e : Expr} {descending : Bool}
    (h : s.extend ctx (.orderBy e descending) = .ok s') :
    s.isCut = false ∧ ∃ term, lowerLambdaTerm ctx [s.current] e = .ok term ∧
      s' = { s with order := ⟨term, descending⟩ :: s.order, primaryKeys := 1 } := by
  obtain ⟨u, hwhole, h⟩ := bind_eq_ok.mp h
  obtain ⟨term, hterm, h⟩ := bind_eq_ok.mp h
  cases h
  exact ⟨requireWhole_eq_ok.mp hwhole, term, hterm, rfl⟩

theorem thenBy_eq_ok {e : Expr} {descending : Bool}
    (h : s.extend ctx (.thenBy e descending) = .ok s') :
    ∃ term, lowerLambdaTerm ctx [s.current] e = .ok term ∧
      s' = { s with
        order := s.order.insertIdx s.primaryKeys ⟨term, descending⟩
        primaryKeys := s.primaryKeys + 1 } := by
  obtain ⟨u, -, h⟩ := bind_eq_ok.mp h
  split at h
  · cases h
  · obtain ⟨term, hterm, h⟩ := bind_eq_ok.mp h
    cases h
    exact ⟨term, hterm, rfl⟩

theorem skip_eq_ok {e : Expr} (h : s.extend ctx (.skip e) = .ok s') :
    s.limit = none ∧ ∃ term, lowerTerm ctx [] e = .ok term ∧ s' = s.skip term := by
  rw [extend] at h
  cases hlimit : s.limit with
  | some t =>
      simp only [hlimit, Option.isSome_some, if_true] at h
      cases h
  | none =>
      simp only [hlimit, Option.isSome_none] at h
      obtain ⟨term, hterm, h⟩ := bind_eq_ok.mp h
      cases h
      exact ⟨rfl, term, hterm, rfl⟩

theorem take_eq_ok {e : Expr} (h : s.extend ctx (.take e) = .ok s') :
    ∃ term, lowerTerm ctx [] e = .ok term ∧ s' = s.take term := by
  obtain ⟨term, hterm, h⟩ := bind_eq_ok.mp h
  cases h
  exact ⟨term, hterm, rfl⟩

theorem distinct_eq_ok (h : s.extend ctx .distinct = .ok s') :
    s.limit = none ∧ s.offset = none ∧ s' = { s with distinct := true } := by
  rw [extend] at h
  split at h
  · cases h
  · rename_i hcut
    cases h
    simpa using hcut

/-- A statement joins once, before its rows are cut or made distinct. -/
theorem join_eq_ok {inner : SetRef} {outerKey innerKey result : Expr}
    (h : s.extend ctx (.join inner outerKey innerKey result) = .ok s') :
    s.isCut = false ∧ s.join = none ∧ ∃ e outerTerm innerTerm current,
      resolve ctx.schema inner = .ok e ∧
      lowerLambdaTerm ctx [s.current] outerKey = .ok outerTerm ∧
      lowerLambdaTerm ctx [.entity innerName e.name] innerKey = .ok innerTerm ∧
      lowerLambda ctx [s.current, .entity innerName e.name] result = .ok current ∧
      s' = { s with current, join := some ⟨e.table, innerName, outerTerm, innerTerm⟩ } := by
  obtain ⟨u, hwhole, h⟩ := bind_eq_ok.mp h
  cases hjoin : s.join with
  | some j =>
      simp only [hjoin, Option.isSome_some, if_true] at h
      cases h
  | none =>
      simp only [hjoin, Option.isSome_none] at h
      obtain ⟨e, he, h⟩ := bind_eq_ok.mp h
      obtain ⟨outerTerm, houter, h⟩ := bind_eq_ok.mp h
      obtain ⟨innerTerm, hinner, h⟩ := bind_eq_ok.mp h
      obtain ⟨current, hcurrent, h⟩ := bind_eq_ok.mp h
      cases h
      exact ⟨requireWhole_eq_ok.mp hwhole, rfl, e, outerTerm, innerTerm, current, he, houter,
        hinner, hcurrent, rfl⟩

/-- An operation that ends a pipeline filters the rows and then changes the statement. -/
theorem ends_eq_ok {method : String} {predicate : Option Expr} {f : Select → Select}
    (h : (do return f (← s.filterBy ctx method predicate)) = .ok s') :
    ∃ t, s.filterBy ctx method predicate = .ok t ∧ s' = f t := by
  obtain ⟨t, ht, h⟩ := bind_eq_ok.mp h
  cases h
  exact ⟨t, ht, rfl⟩

theorem count_eq_ok {predicate : Option Expr} (h : s.extend ctx (.count predicate) = .ok s') :
    ∃ t, s.filterBy ctx "Count" predicate = .ok t ∧ s' = { t with cardinality := .count } :=
  ends_eq_ok h

theorem any_eq_ok {predicate : Option Expr} (h : s.extend ctx (.any predicate) = .ok s') :
    ∃ t, s.filterBy ctx "Any" predicate = .ok t ∧ s' = { t with cardinality := .exists } :=
  ends_eq_ok h

theorem first_eq_ok {predicate : Option Expr} {orDefault : Bool}
    (h : s.extend ctx (.first predicate orDefault) = .ok s') :
    ∃ t, s.filterBy ctx (Operation.first predicate orDefault).name predicate = .ok t ∧
      s' = { t.take (.literal (.int 1)) with cardinality := .first orDefault } :=
  ends_eq_ok h

theorem custom_eq_ok {name : String} {arguments : List Expr}
    (h : s.extend ctx (.custom name arguments) = .ok s') :
    name = "TagWith" ∧ (∃ e, arguments = [e]) ∧ ∃ comments, s' = { s with comments } := by
  have h : s.annotate name arguments = .ok s' := h
  unfold annotate at h
  split at h
  · rename_i hname
    split at h
    · cases h
      exact ⟨hname, ⟨_, rfl⟩, _, rfl⟩
    · cases h
  · cases h

theorem apply_eq_ok {op : Operation} (h : s.apply ctx op = .ok s') :
    s.cardinality = .many ∧ s.extend ctx op = .ok s' := by
  unfold apply at h
  split at h
  · exact ⟨‹_›, h⟩
  · cases h

/-- Only an operation that ends a pipeline makes one row of many. -/
theorem cardinality_apply {op : Operation} (h : s.apply ctx op = .ok s') :
    s'.cardinality = .many ↔ op.isTerminal = false := by
  obtain ⟨hmany, h⟩ := apply_eq_ok h
  cases op with
  | filter e =>
      obtain ⟨-, term, -, rfl⟩ := filter_eq_ok h
      exact iff_of_true hmany rfl
  | select e =>
      obtain ⟨-, row, -, rfl⟩ := select_eq_ok h
      exact iff_of_true hmany rfl
  | orderBy e descending =>
      obtain ⟨-, term, -, rfl⟩ := orderBy_eq_ok h
      exact iff_of_true hmany rfl
  | thenBy e descending =>
      obtain ⟨term, -, rfl⟩ := thenBy_eq_ok h
      exact iff_of_true hmany rfl
  | skip e =>
      obtain ⟨-, term, -, rfl⟩ := skip_eq_ok h
      exact iff_of_true hmany rfl
  | take e =>
      obtain ⟨term, -, rfl⟩ := take_eq_ok h
      exact iff_of_true hmany rfl
  | distinct =>
      obtain ⟨-, -, rfl⟩ := distinct_eq_ok h
      exact iff_of_true hmany rfl
  | join inner outerKey innerKey result =>
      obtain ⟨-, -, e, outerTerm, innerTerm, current, -, -, -, -, rfl⟩ := join_eq_ok h
      exact iff_of_true hmany rfl
  | count predicate =>
      obtain ⟨t, -, rfl⟩ := count_eq_ok h
      exact iff_of_false nofun nofun
  | any predicate =>
      obtain ⟨t, -, rfl⟩ := any_eq_ok h
      exact iff_of_false nofun nofun
  | first predicate orDefault =>
      obtain ⟨t, -, rfl⟩ := first_eq_ok h
      exact iff_of_false nofun nofun
  | single predicate => cases h
  | custom name arguments =>
      obtain ⟨-, -, comments, rfl⟩ := custom_eq_ok h
      exact iff_of_true hmany rfl

/-- Only the last operation can make one value of the rows. -/
theorem isSingle_foldlM {ops : List Operation} (hmany : s.cardinality = .many)
    (h : ops.foldlM (apply ctx) s = .ok s') (t : Ty) :
    (Pipeline.resultTy ops t).isSingle = true ↔ s'.cardinality ≠ .many := by
  rcases List.eq_nil_or_concat ops with rfl | ⟨before, last, rfl⟩
  · cases h
    exact iff_of_false nofun fun hnot => hnot hmany
  · rw [List.concat_eq_append] at *
    rw [List.foldlM_append] at h
    obtain ⟨u, -, hlast⟩ := bind_eq_ok.mp h
    obtain ⟨v, hv, hend⟩ := bind_eq_ok.mp hlast
    cases hend
    rw [ne_eq, cardinality_apply hv]
    cases hterminal : last.isTerminal with
    | false => simp [Pipeline.resultTy, hterminal, ResultTy.isSingle]
    | true => simp [Pipeline.resultTy, hterminal, ResultTy.isSingle]

theorem insertIdx_append (xs ys : List SortKey) (k : SortKey) :
    (xs ++ ys).insertIdx xs.length k = xs ++ k :: ys := by
  induction xs with
  | nil => rfl
  | cons x xs ih => simpa using ih

abbrev KeyTerms (ctx : Context) (row : Row) (keys : List Eval.SortKey) (terms : List SortKey) :
    Prop :=
  List.Forall₂ (fun k t => lowerLambdaTerm ctx [row] k.selector = .ok t.term ∧
    t.descending = k.descending) keys terms

/-- Secondary keys go between the keys of their sort and those of earlier ones. -/
theorem secondary_eq_ok {keys : List Eval.SortKey} {before after : List SortKey}
    (horder : s.order = before ++ after) (hprimary : s.primaryKeys = before.length)
    (h : (keys.map Stage.secondary).foldlM (apply ctx) s = .ok s') :
    ∃ terms n, KeyTerms ctx s.current keys terms ∧
      s' = { s with order := before ++ terms ++ after, primaryKeys := n } := by
  induction keys generalizing s before with
  | nil =>
      cases h
      exact ⟨[], _, .nil, by rw [List.append_nil, ← horder]⟩
  | cons k keys ih =>
      obtain ⟨t, ht, hrest⟩ := bind_eq_ok.mp h
      obtain ⟨term, hterm, rfl⟩ := thenBy_eq_ok (apply_eq_ok ht).2
      have hinsert : s.order.insertIdx s.primaryKeys ⟨term, k.descending⟩ =
          (before ++ [⟨term, k.descending⟩]) ++ after := by
        rw [horder, hprimary, insertIdx_append, List.append_assoc]
        rfl
      obtain ⟨terms, n, hterms, hs'⟩ := ih hinsert (by simp [hprimary]) hrest
      exact ⟨⟨term, k.descending⟩ :: terms, n, .cons ⟨hterm, rfl⟩ hterms, by simpa using hs'⟩

theorem sort_eq_ok {key : Eval.SortKey} {keys : List Eval.SortKey}
    (h : (Stage.sort key keys).operations.foldlM (apply ctx) s = .ok s') :
    s.isCut = false ∧ ∃ terms n, KeyTerms ctx s.current (key :: keys) terms ∧
      s' = { s with order := terms ++ s.order, primaryKeys := n } := by
  obtain ⟨t, ht, hrest⟩ := bind_eq_ok.mp h
  obtain ⟨hwhole, term, hterm, rfl⟩ := orderBy_eq_ok (apply_eq_ok ht).2
  obtain ⟨terms, n, hterms, hs'⟩ :=
    @secondary_eq_ok ctx _ s' keys [⟨term, key.descending⟩] s.order rfl rfl hrest
  exact ⟨hwhole, ⟨term, key.descending⟩ :: terms, n, .cons ⟨hterm, rfl⟩ hterms, hs'⟩

end Select

end DeferredQuery.Sql
