import DeferredQuery.Proofs.Eval.Computed
import DeferredQuery.Proofs.Sql.Clauses
import DeferredQuery.Proofs.Sql.Frames
import DeferredQuery.Proofs.Sql.Lowering

/-!
# One operation of a pipeline

What an operation with lowered expressions makes of the rows that the clauses before it are read
with, the clauses after it are read with again.
-/

namespace DeferredQuery

def Operation.lowered : Operation → Operation
  | filter predicate => filter (predicate.lowered [])
  | select selector => select (selector.lowered [])
  | orderBy key descending => orderBy (key.lowered []) descending
  | thenBy key descending => thenBy (key.lowered []) descending
  | skip n => skip (n.lowered [])
  | take n => take (n.lowered [])
  | distinct => distinct
  | join inner outerKey innerKey result =>
    join inner (outerKey.lowered []) (innerKey.lowered []) (result.lowered [])
  | count predicate => count (predicate.map fun e => e.lowered [])
  | any predicate => any (predicate.map fun e => e.lowered [])
  | first predicate orDefault => first (predicate.map fun e => e.lowered []) orDefault
  | single predicate => single (predicate.map fun e => e.lowered [])
  | custom name arguments => custom name arguments

def Operation.CallFree (op : Operation) : Prop := ∀ e ∈ op.arguments, e.CallFree

def Eval.SortKey.lowered (k : Eval.SortKey) : Eval.SortKey := ⟨k.selector.lowered [], k.descending⟩

def MemoryStore.Stage.lowered : MemoryStore.Stage → MemoryStore.Stage
  | sort key rest => sort key.lowered (rest.map Eval.SortKey.lowered)
  | apply op => apply op.lowered

namespace Sql

open Eval (Env EvalM)
open Stable (OrdersOn)
open MemoryStore (Stage)

namespace Reading

variable {rd : Reading} {rules : List FunctionRule} {env : Env} {s s' : Select}

/-! ## Lambdas on rows -/

theorem argsRead_current {f : Frame} (hcurrent : ∃ v, rd.rowValue f s.current = .ok v) :
    ArgsRead rd f [s.current] [rd.getRow s.current f] :=
  .cons (rowValue_eq_getRow hcurrent) .nil

theorem invoke_term (hparams : env.params = some rd.params) {f : Frame} {args : List Row}
    {vs : List Value} (hargs : ArgsRead rd f args vs) {e : Expr} {term : Term}
    (hcalls : e.CallFree) (hterm : lowerLambdaTerm ⟨rd.schema, rules⟩ args e = .ok term)
    (hvalue : ∃ v, rd.value f term = .ok v) :
    Eval.invoke env [] vs (e.lowered []) = pure (rd.get term f) := by
  rw [invoke_lowered_term hargs hparams hcalls hterm, value_eq_get hvalue]
  rfl

theorem invoke_row (hparams : env.params = some rd.params) {f : Frame} {args : List Row}
    {vs : List Value} (hargs : ArgsRead rd f args vs) {e : Expr} {row : Row}
    (hcalls : e.CallFree) (hrow : lowerLambda ⟨rd.schema, rules⟩ args e = .ok row)
    (hvalue : ∃ v, rd.rowValue f row = .ok v) :
    Eval.invoke env [] vs (e.lowered []) = pure (rd.getRow row f) := by
  rw [invoke_lowered hargs hparams hcalls hrow, rowValue_eq_getRow hvalue]
  rfl

/-! ## Rows -/

theorem rows_of_whole (h : s.isCut = false) :
    rd.rows s = (rd.frames s).map (rd.getRow s.current) := by
  obtain ⟨hlimit, hoffset, hdistinct⟩ := Select.isCut_eq_false.mp h
  simp [rows, cut, unique, hlimit, hoffset, hdistinct]

theorem cut_map {α β : Type} (xs : List α) (g : α → β) :
    rd.cut s (xs.map g) = (rd.cut s xs).map g := by
  unfold cut
  cases s.limit <;> simp [List.map_drop, List.map_take]

theorem mem_of_mem_cut {α : Type} {xs : List α} {x : α} (hx : x ∈ rd.cut s xs) : x ∈ xs := by
  unfold cut at hx
  cases hlimit : s.limit with
  | none =>
      rw [hlimit] at hx
      exact List.mem_of_mem_drop hx
  | some t =>
      rw [hlimit] at hx
      exact List.mem_of_mem_drop (List.mem_of_mem_take hx)

/-! ### Filters -/

def kept (env : Env) (items : List Value) : Option Expr → EvalM (List Value)
  | none => pure items
  | some e => Items.keep (fun v => do
      let r ← Eval.invoke env [] [v] e
      r.holds) items

theorem run_filter (items : List Value) (predicate : Expr) :
    (Stage.apply (.filter predicate)).run env items =
      kept env items (some predicate) >>= fun vs => pure (.list vs) := rfl

/-- An operation that ends a pipeline collapses the items that its predicate keeps. -/
theorem run_terminal {items : List Value} {op : Operation} (hop : op.isTerminal = true) :
    (Stage.apply op).run env items = kept env items op.arguments.head? >>= fun vs =>
      liftM (Items.collapse (.operator op.name) vs) := by
  cases op with
  | count predicate => cases predicate <;> rfl
  | any predicate => cases predicate <;> rfl
  | first predicate orDefault => cases predicate <;> cases orDefault <;> rfl
  | single predicate => cases predicate <;> rfl
  | _ => cases hop

theorem holds_eq {f : Frame} {term : Term} {v : Value} {b : Bool} (hv : rd.value f term = .ok v)
    (hb : v.holds = .ok b) : rd.holds term f = b := by
  rw [holds, get_eq hv]
  cases v <;> simp_all [Value.holds, Value.asBool?]

/-- A filter is added as a condition, which is read as the predicate. -/
theorem kept_filter (hparams : env.params = some rd.params)
    (horder : OrdersOn (rd.keyOrder s.order) (rd.joined s)) (hs : rd.Readable s)
    {name : String} {e : Expr} (hcalls : e.CallFree)
    (hfilter : s.filter ⟨rd.schema, rules⟩ name e = .ok s')
    (hbool : ∀ f ∈ rd.joined s, ∀ t ∈ s'.filters, ∃ v b, rd.value f t = .ok v ∧ v.holds = .ok b) :
    kept env (rd.rows s) (some (e.lowered [])) = pure (rd.rows s') := by
  obtain ⟨hwhole, term, hterm, rfl⟩ := Select.filter_eq_ok hfilter
  have hframes := @frames_filter rd s { s with filters := s.filters ++ [term] } term horder rfl rfl
    rfl
  have hwhole' : ({ s with filters := s.filters ++ [term] } : Select).isCut = false := hwhole
  rw [rows_of_whole hwhole, rows_of_whole hwhole', hframes, kept]
  refine Items.keep_map fun f hf => ?_
  have hf := mem_joined hf
  obtain ⟨v, b, hv, hb⟩ := hbool f hf term (by simp)
  rw [invoke_term hparams (argsRead_current (hs.current f hf)) hcalls hterm ⟨v, hv⟩, pure_bind,
    holds_eq hv hb, get_eq hv, hb]
  rfl

/-! ### Sorts -/

/-- The keys of an item are the terms that its row is sorted by. -/
theorem keyValues_lowered (hparams : env.params = some rd.params) {f : Frame} {row : Row}
    {v : Value} (hargs : ArgsRead rd f [row] [v]) {keys : List Eval.SortKey} {terms : List SortKey}
    (hterms : Select.KeyTerms ⟨rd.schema, rules⟩ row keys terms)
    (hcalls : ∀ k ∈ keys, k.selector.CallFree)
    (hvalue : ∀ t ∈ terms, ∃ w, rd.value f t.term = .ok w) :
    Items.keyValues ((keys.map Eval.SortKey.lowered).map (MemoryStore.keyOf env)) v =
      pure (terms.map fun t => rd.get t.term f) := by
  induction hterms with
  | nil => rfl
  | @cons k t keys terms hk hrest ih =>
      have hinvoke := invoke_term hparams hargs (hcalls k List.mem_cons_self) hk.1
        (hvalue t List.mem_cons_self)
      have hkeys := ih (fun k hk => hcalls k (List.mem_cons_of_mem _ hk))
        fun t ht => hvalue t (List.mem_cons_of_mem _ ht)
      rw [List.map_cons, List.map_cons, Items.keyValues, hkeys]
      change (Eval.invoke env [] [v] (k.selector.lowered []) >>= _) = _
      rw [hinvoke]
      rfl

theorem descending_eq {ctx : Context} {row : Row} {keys : List Eval.SortKey}
    {terms : List SortKey} (hterms : Select.KeyTerms ctx row keys terms) :
    ((keys.map Eval.SortKey.lowered).map (MemoryStore.keyOf env)).map Items.Key.descending =
      terms.map SortKey.descending := by
  induction hterms with
  | nil => rfl
  | cons hk _ ih =>
      rw [List.map_cons, List.map_cons, List.map_cons, List.map_cons, ih, hk.2]
      rfl

/-- The new keys come before those of earlier sorts, which decide between equal rows. -/
theorem run_sort (hparams : env.params = some rd.params) (htyped : rd.Typed) (hs : rd.Readable s)
    (hcompare : rd.Comparable s) {key : Eval.SortKey} {keys : List Eval.SortKey}
    (hcalls : ∀ k ∈ key :: keys, k.selector.CallFree)
    (hfold : (Stage.sort key keys).operations.foldlM (Select.apply ⟨rd.schema, rules⟩) s = .ok s')
    (hs' : rd.Readable s') (hcompare' : rd.Comparable s') :
    (Stage.sort key keys).lowered.run env (rd.rows s) = pure (.list (rd.rows s')) := by
  obtain ⟨hwhole, terms, n, hterms, rfl⟩ := Select.sort_eq_ok hfold
  have hmem : ∀ t ∈ terms, t ∈ terms ++ s.order := fun t ht => List.mem_append_left _ ht
  have horder := ordersOn_order htyped hs hcompare
  have horder' : OrdersOn (rd.keyOrder terms) (rd.joined s) :=
    ordersOn_keys htyped (fun _ hf _ hg => uniform_joined hf hg)
      (fun f hf t ht => hs'.key f hf t (hmem t ht)) fun t ht => hcompare' t (hmem t ht)
  have hframes := @frames_sort rd s { s with order := terms ++ s.order, primaryKeys := n } terms
    horder horder' rfl rfl rfl
  have hwhole' : ({ s with order := terms ++ s.order, primaryKeys := n } : Select).isCut = false :=
    hwhole
  rw [rows_of_whole hwhole, rows_of_whole hwhole', hframes, Stage.lowered, MemoryStore.sort_run]
  have hkeys := @Items.order_map EvalM _ _ _ (rd.frames s) (rd.getRow s.current)
    (((key :: keys).map Eval.SortKey.lowered).map (MemoryStore.keyOf env))
    (fun f => terms.map fun t => rd.get t.term f) fun f hf => by
      have hf : f ∈ rd.joined s := mem_joined hf
      exact keyValues_lowered hparams (argsRead_current (hs.current f hf)) hterms hcalls
        fun t ht => hs'.key f hf t (hmem t ht)
  rw [descending_eq hterms] at hkeys
  rw [← List.map_cons, hkeys]
  rfl

/-! ### Projections and duplicates -/

/-- A projection changes what is made of the rows and keeps them in their order. -/
theorem run_select (hparams : env.params = some rd.params) (hs : rd.Readable s) {e : Expr}
    (hcalls : e.CallFree) (happly : s.extend ⟨rd.schema, rules⟩ (.select e) = .ok s')
    (hs' : rd.Readable s') :
    (Stage.apply (.select (e.lowered []))).run env (rd.rows s) = pure (.list (rd.rows s')) := by
  obtain ⟨hdistinct, row, hrow, rfl⟩ := Select.select_eq_ok happly
  have hrows : rd.rows s = (rd.cut s (rd.frames s)).map (rd.getRow s.current) := by
    rw [rows, unique, hdistinct]
    exact cut_map _ _
  have hrows' : rd.rows { s with current := row } =
      (rd.cut s (rd.frames s)).map (rd.getRow row) := by
    rw [rows, unique, hdistinct]
    exact cut_map _ _
  have hselect := @Items.select_map EvalM _ _ _ (rd.cut s (rd.frames s)) (rd.getRow s.current)
    (fun v => Eval.invoke env [] [v] (e.lowered [])) (rd.getRow row) fun f hf => by
      have hf : f ∈ rd.joined s := mem_joined (mem_of_mem_cut hf)
      exact invoke_row hparams (argsRead_current (hs.current f hf)) hcalls hrow (hs'.current f hf)
  rw [hrows, hrows']
  change (Items.select _ _ >>= fun vs => pure (Value.list vs)) = _
  rw [hselect, pure_bind]

theorem run_distinct {ctx : Context} (happly : s.extend ctx .distinct = .ok s') :
    (Stage.apply .distinct).run env (rd.rows s) = pure (.list (rd.rows s')) := by
  obtain ⟨hlimit, hoffset, rfl⟩ := Select.distinct_eq_ok happly
  have hrows : Items.distinct (rd.rows s) = rd.rows { s with distinct := true } := by
    simp only [rows, cut, hlimit, hoffset, unique]
    change Items.distinct (if s.distinct then _ else _) = Items.distinct _
    split
    · exact Items.distinct_distinct _
    · rfl
  rw [← hrows]
  rfl

/-! ### Offsets and limits -/

/-- The term is read as a whole number that is not negative. -/
def IsCount (rd : Reading) (t : Term) : Prop :=
  ∃ n : Int64, rd.value [] t = .ok (.int n) ∧ 0 ≤ n.toInt

structure Counted (rd : Reading) (s : Select) : Prop where
  offset : ∀ t ∈ s.offset, rd.IsCount t
  limit : ∀ t ∈ s.limit, rd.IsCount t

theorem count_eq {t : Term} {n : Int64} (h : rd.value [] t = .ok (.int n)) :
    rd.count t = n.toInt.toNat := by
  rw [count, get_eq h]
  rfl

theorem isCount_one : rd.IsCount (.literal (.int 1)) := ⟨1, rfl, by decide⟩

/-- The sum of two counts is one, unless it is too large for a number. -/
theorem isCount_add {a b : Term} (ha : rd.IsCount a) (hb : rd.IsCount b)
    (hsum : ∃ v, rd.value [] (.binary .add a b) = .ok v) :
    rd.IsCount (.binary .add a b) ∧ rd.count (.binary .add a b) = rd.count a + rd.count b := by
  obtain ⟨m, hm, hm₀⟩ := ha
  obtain ⟨n, hn, hn₀⟩ := hb
  obtain ⟨v, hv⟩ := hsum
  obtain ⟨r, hr, rfl⟩ : ∃ r : Int64, r.toInt = m.toInt + n.toInt ∧ v = .int r := by
    have hadd : BinOp.apply .add (.int m) (.int n) = .ok v := by
      rw [value, if_neg (by decide), hm, hn] at hv
      exact hv
    simp only [BinOp.apply, BinOp.isComparison, BinOp.arithmetic, BinOp.onInts] at hadd
    cases hfit : Checked.add m n with
    | none => simp [hfit] at hadd
    | some r =>
        simp [hfit] at hadd
        exact ⟨r, Checked.fit?_eq_some_iff.mp hfit, hadd.symm⟩
  refine ⟨⟨r, hv, by omega⟩, ?_⟩
  rw [count_eq hv, count_eq hm, count_eq hn]
  omega

theorem isCount_least {a b : Term} (ha : rd.IsCount a) (hb : rd.IsCount b) :
    rd.IsCount (.function "LEAST" [a, b] .int) ∧
      rd.count (.function "LEAST" [a, b] .int) = min (rd.count a) (rd.count b) := by
  obtain ⟨m, hm, hm₀⟩ := ha
  obtain ⟨n, hn, hn₀⟩ := hb
  have hv : rd.value [] (.function "LEAST" [a, b] .int) =
      .ok (.int (if m.toInt ≤ n.toInt then m else n)) := by
    rw [value, values, hm, values, hn, values]
    rfl
  refine ⟨⟨_, hv, by split <;> assumption⟩, ?_⟩
  rw [count_eq hv, count_eq hm, count_eq hn]
  split <;> omega

/-- An offset adds to the one before it, as long as there is no limit. -/
theorem rows_skip {t : Term} (hlimit : s.limit = none) (hs : rd.Counted s) (ht : rd.IsCount t)
    (hoffset : ∀ u ∈ (s.skip t).offset, ∃ v, rd.value [] u = .ok v) :
    rd.Counted (s.skip t) ∧ rd.rows (s.skip t) = (rd.rows s).drop (rd.count t) := by
  have hlimit' : (s.skip t).limit = none := hlimit
  have hcounted : ∀ u ∈ (s.skip t).limit, rd.IsCount u := by
    rw [hlimit']
    exact nofun
  have hrows : ∀ n, ((s.skip t).offset.map rd.count).getD 0 = n →
      rd.rows (s.skip t) = (unique s ((rd.frames s).map (rd.getRow s.current))).drop n := by
    rintro n rfl
    rw [rows, cut, hlimit']
    rfl
  cases hearlier : s.offset with
  | none =>
      have hnew : (s.skip t).offset = some t := by simp [Select.skip, hearlier]
      refine ⟨⟨by simpa [hnew] using ht, hcounted⟩, ?_⟩
      rw [hrows (rd.count t) (by rw [hnew]; rfl), rows, cut, hlimit, hearlier]
      rfl
  | some u =>
      have hnew : (s.skip t).offset = some (.binary .add u t) := by simp [Select.skip, hearlier]
      obtain ⟨hsum, hcount⟩ := isCount_add (hs.offset u hearlier) ht (hoffset _ hnew)
      refine ⟨⟨by simpa [hnew] using hsum, hcounted⟩, ?_⟩
      rw [hrows (rd.count u + rd.count t) (by rw [hnew, ← hcount]; rfl), rows, cut, hlimit,
        hearlier]
      exact (List.drop_drop).symm

/-- Of two limits the lesser one counts, behind the offset. -/
theorem rows_take {t : Term} (hs : rd.Counted s) (ht : rd.IsCount t) :
    rd.Counted (s.take t) ∧ rd.rows (s.take t) = (rd.rows s).take (rd.count t) := by
  have hrows : ∀ u, (s.take t).limit = some u → rd.rows (s.take t) =
      ((unique s ((rd.frames s).map (rd.getRow s.current))).drop
        ((s.offset.map rd.count).getD 0)).take (rd.count u) := by
    intro u hu
    rw [rows, cut, hu]
    rfl
  cases hearlier : s.limit with
  | none =>
      have hnew : (s.take t).limit = some t := by simp [Select.take, hearlier]
      refine ⟨⟨hs.offset, by simpa [hnew] using ht⟩, ?_⟩
      rw [hrows t hnew, rows, cut, hearlier]
  | some u =>
      have hnew : (s.take t).limit = some (.function "LEAST" [u, t] .int) := by
        simp [Select.take, hearlier]
      obtain ⟨hleast, hcount⟩ := isCount_least (hs.limit u hearlier) ht
      refine ⟨⟨hs.offset, by simpa [hnew] using hleast⟩, ?_⟩
      rw [hrows _ hnew, hcount, rows, cut, hearlier, List.take_take, Nat.min_comm]

/-- A step that cuts rows cuts them by the count of its lowered argument. -/
theorem run_counted (hparams : env.params = some rd.params) {e : Expr} {t : Term}
    (hcalls : e.CallFree) (hterm : lowerTerm ⟨rd.schema, rules⟩ [] e = .ok t)
    (ht : rd.IsCount t) (cut : Nat → List Value) :
    (do
      let v ← Eval.value env [] (e.lowered [])
      let n ← v.count
      return .list (cut n) : EvalM Value) = pure (.list (cut (rd.count t))) := by
  obtain ⟨n, hn, -⟩ := ht
  rw [value_lowered_term hparams hcalls hterm, hn, count_eq hn]
  rfl

theorem run_skip (hparams : env.params = some rd.params) {e : Expr} (hcalls : e.CallFree)
    (hs : rd.Counted s) (happly : s.extend ⟨rd.schema, rules⟩ (.skip e) = .ok s')
    (hcount : ∀ t, lowerTerm ⟨rd.schema, rules⟩ [] e = .ok t → rd.IsCount t)
    (hs' : rd.Readable s') :
    rd.Counted s' ∧
      (Stage.apply (.skip (e.lowered []))).run env (rd.rows s) = pure (.list (rd.rows s')) := by
  obtain ⟨hlimit, t, hterm, rfl⟩ := Select.skip_eq_ok happly
  obtain ⟨hcounted, hrows⟩ := rows_skip hlimit hs (hcount t hterm) hs'.offset
  rw [hrows]
  exact ⟨hcounted, run_counted hparams hcalls hterm (hcount t hterm) (rd.rows s).drop⟩

theorem run_take (hparams : env.params = some rd.params) {e : Expr} (hcalls : e.CallFree)
    (hs : rd.Counted s) (happly : s.extend ⟨rd.schema, rules⟩ (.take e) = .ok s')
    (hcount : ∀ t, lowerTerm ⟨rd.schema, rules⟩ [] e = .ok t → rd.IsCount t) :
    rd.Counted s' ∧
      (Stage.apply (.take (e.lowered []))).run env (rd.rows s) = pure (.list (rd.rows s')) := by
  obtain ⟨t, hterm, rfl⟩ := Select.take_eq_ok happly
  obtain ⟨hcounted, hrows⟩ := rows_take hs (hcount t hterm)
  rw [hrows]
  exact ⟨hcounted, run_counted hparams hcalls hterm (hcount t hterm) (rd.rows s).take⟩

/-! ### Joins -/

theorem looseEq_null {v : Value} (h : v.isNull = false) : v.looseEq .null = false := by
  cases v with
  | null => cases h
  | _ => simp [Value.looseEq, Value.same]

theorem matching_eq (j : Join) (f : Frame) : rd.matching j f =
    (!(rd.get j.outerKey f).isNull && (rd.get j.outerKey f).looseEq (rd.get j.innerKey f)) := by
  unfold matching
  cases houter : (rd.get j.outerKey f).isNull with
  | true => rfl
  | false =>
      cases hinner : rd.get j.innerKey f with
      | null => rw [looseEq_null houter]; rfl
      | _ => rfl

/-- The key of the joined row is read on that row alone, whatever else is at hand. -/
theorem matching_append {j : Join} {f : Frame} {cells : Cells}
    (hname : Named.find? j.name f = none) (houter : ∃ v, rd.value f j.outerKey = .ok v)
    (hinner : ∃ v, rd.value [⟨j.name, cells⟩] j.innerKey = .ok v) :
    rd.matching j (f ++ [⟨j.name, cells⟩]) =
      (!(rd.get j.outerKey f).isNull &&
        (rd.get j.outerKey f).looseEq (rd.get j.innerKey [⟨j.name, cells⟩])) := by
  have hextends : Extends [⟨j.name, cells⟩] (f ++ [⟨j.name, cells⟩]) := by
    intro name cells' hcells'
    rw [Named.find?_cons] at hcells'
    split at hcells'
    · rename_i hn
      rw [Named.find?_append, ← hn, hname, Option.none_or, Named.find?_cons, if_pos rfl]
      exact hcells'
    · cases hcells'
  rw [matching_eq, get_mono (extends_append f _) houter, get_mono hextends hinner]

/-- The rows of the joined table that match, by a key that is read on them alone. -/
def counterparts (rd : Reading) (j : Join) (f : Frame) : List Cells :=
  (rd.tables j.table).filter fun cells => !(rd.get j.outerKey f).isNull &&
    (rd.get j.outerKey f).looseEq (rd.get j.innerKey [⟨j.name, cells⟩])

theorem partners_eq {j : Join} {f : Frame} (hname : Named.find? j.name f = none)
    (houter : ∃ v, rd.value f j.outerKey = .ok v)
    (hinner : ∀ cells ∈ rd.tables j.table, ∃ v, rd.value [⟨j.name, cells⟩] j.innerKey = .ok v) :
    rd.partners j f = (rd.counterparts j f).map fun cells => f ++ [⟨j.name, cells⟩] := by
  rw [partners, List.filter_map]
  congr 1
  refine List.filter_congr fun cells hcells => ?_
  exact matching_append hname houter (hinner cells hcells)

/-- The rows of a statement that ends in a join, by the rows of both tables. -/
theorem rows_join {j : Join} (hwhole : s'.isCut = false)
    (hframes : rd.frames s' = (rd.frames s).flatMap (rd.partners j))
    (hpartners : ∀ f ∈ rd.joined s,
      rd.partners j f = (rd.counterparts j f).map fun cells => f ++ [⟨j.name, cells⟩]) :
    rd.rows s' = (rd.frames s).flatMap fun f =>
      (rd.counterparts j f).map fun cells => rd.getRow s'.current (f ++ [⟨j.name, cells⟩]) := by
  rw [rows_of_whole hwhole, hframes, List.map_flatMap]
  refine List.flatMap_congr fun f hf => ?_
  rw [hpartners f (mem_joined hf), List.map_map]
  rfl

/-- Both rows of a pair are at hand for what the join makes of them. -/
theorem argsRead_pair {j : Join} {f : Frame} {cells : Cells} {entity : String}
    (hname : Named.find? j.name f = none) (hcurrent : ∃ v, rd.rowValue f s.current = .ok v) :
    ArgsRead rd (f ++ [⟨j.name, cells⟩]) [s.current, .entity j.name entity]
      [rd.getRow s.current f, rd.schema.record entity cells] := by
  have hfirst := rowValue_mono (extends_append f [⟨j.name, cells⟩]) (rowValue_eq_getRow hcurrent)
  have hsecond : rd.rowValue (f ++ [⟨j.name, cells⟩]) (.entity j.name entity) =
      .ok (rd.schema.record entity cells) := by
    rw [rowValue, Named.find?_append, hname, Option.none_or, Named.find?_cons, if_pos rfl]
  exact .cons hfirst (.cons hsecond .nil)

theorem run_join_eq (items : List Value) (inner : SetRef) (outerKey innerKey result : Expr) :
    (Stage.apply (.join inner outerKey innerKey result)).run env items =
      (liftM (env.items (.query inner)) >>= fun innerItems =>
        Items.join (fun v => Eval.invoke env [] [v] outerKey)
          (fun v => Eval.invoke env [] [v] innerKey)
          (fun v w => Eval.invoke env [] [v, w] result) items innerItems >>= fun vs =>
            pure (Value.list vs)) := by
  have hname : (Method.operator "Join").name = "Join" := rfl
  rw [Stage.run, Eval.apply, if_pos hname, Expr.const, Eval.value, pure_bind]

/-- Pairs come in the order of the outer rows, and for each of them in that of the inner ones. -/
theorem run_join (hparams : env.params = some rd.params) (htyped : rd.Typed) (hs : rd.Readable s)
    (hcompare : rd.Comparable s) {inner : SetRef} {outerKey innerKey result : Expr}
    (hcalls : outerKey.CallFree ∧ innerKey.CallFree ∧ result.CallFree)
    (happly : s.extend ⟨rd.schema, rules⟩ (.join inner outerKey innerKey result) = .ok s')
    (hitems : ∀ e, Select.resolve rd.schema inner = .ok e →
      env.items (.query inner) = .ok ((rd.tables e.table).map (rd.schema.record e.name)))
    (hs' : rd.Readable s') :
    (Stage.apply (Operation.join inner outerKey innerKey result).lowered).run env (rd.rows s) =
      pure (.list (rd.rows s')) := by
  obtain ⟨hwhole, hnone, e, outerTerm, innerTerm, current, he, houter, hinner, hcurrent, rfl⟩ :=
    Select.join_eq_ok happly
  let j : Join := ⟨e.table, Select.innerName, outerTerm, innerTerm⟩
  have houterKey : ∀ f ∈ rd.joined s, ∃ v, rd.value f outerTerm = .ok v := by
    intro f hf
    rw [joined_of_none hnone] at hf
    exact hs'.outerKey j rfl f hf
  have hinnerKey : ∀ cells ∈ rd.tables e.table,
      ∃ v, rd.value [⟨Select.innerName, cells⟩] innerTerm = .ok v := hs'.innerKey j rfl
  -- a statement joins at most once, so that no row has the name of the joined table yet
  have hfree : ∀ f ∈ rd.joined s, Named.find? Select.innerName f = none := by
    intro f hf
    rw [joined_of_none hnone] at hf
    obtain ⟨cells, -, rfl⟩ := mem_outer hf
    rfl
  have hpartners : ∀ f ∈ rd.joined s,
      rd.partners j f = (rd.counterparts j f).map fun cells => f ++ [⟨j.name, cells⟩] :=
    fun f hf => partners_eq (hfree f hf) (houterKey f hf) hinnerKey
  have hrows := @rows_join rd s { s with current, join := some j } j hwhole
    (frames_join hs (ordersOn_order htyped hs hcompare) hnone rfl rfl rfl rfl) hpartners
  have houter' : ∀ f ∈ rd.frames s, Eval.invoke env [] [rd.getRow s.current f]
      (outerKey.lowered []) = pure (rd.get outerTerm f) := by
    intro f hf
    have hf := mem_joined hf
    exact invoke_term hparams (argsRead_current (hs.current f hf)) hcalls.1 houter
      (houterKey f hf)
  have hinner' : ∀ cells ∈ rd.tables e.table, Eval.invoke env []
      [rd.schema.record e.name cells] (innerKey.lowered []) =
        pure (rd.get innerTerm [⟨Select.innerName, cells⟩]) := by
    intro cells hcells
    have hentity : rd.rowValue [⟨Select.innerName, cells⟩] (.entity Select.innerName e.name) =
      .ok (rd.schema.record e.name cells) := rfl
    exact invoke_term hparams (.cons hentity .nil) hcalls.2.1 hinner (hinnerKey cells hcells)
  have hresult : ∀ f ∈ rd.frames s, ∀ cells ∈ rd.tables e.table,
      (rd.get outerTerm f).isNull = false →
      (rd.get outerTerm f).looseEq (rd.get innerTerm [⟨Select.innerName, cells⟩]) = true →
      Eval.invoke env [] [rd.getRow s.current f, rd.schema.record e.name cells]
        (result.lowered []) = pure (rd.getRow current (f ++ [⟨Select.innerName, cells⟩])) := by
    intro f hf cells hcells hnull hequal
    have hf := mem_joined hf
    have hmatch : cells ∈ rd.counterparts j f :=
      List.mem_filter.mpr ⟨hcells, by simp [j, hnull, hequal]⟩
    have hpair : f ++ [⟨j.name, cells⟩] ∈ rd.joined { s with current, join := some j } := by
      have houter : rd.outer { s with current, join := some j } = rd.joined s := by
        rw [joined_of_none hnone]
        rfl
      rw [joined_of_some rfl, houter]
      refine List.mem_flatMap.mpr ⟨f, hf, ?_⟩
      rw [hpartners f hf]
      exact List.mem_map_of_mem hmatch
    exact invoke_row hparams (@argsRead_pair rd s j f cells e.name (hfree f hf) (hs.current f hf))
      hcalls.2.2 hcurrent (hs'.current _ hpair)
  have hjoin := @Items.join_map EvalM _ _ Frame (rd.frames s) (rd.getRow s.current) Cells
    (rd.tables e.table) (rd.schema.record e.name)
    (fun cells => rd.get innerTerm [⟨Select.innerName, cells⟩])
    (fun v => Eval.invoke env [] [v] (outerKey.lowered []))
    (fun v => Eval.invoke env [] [v] (innerKey.lowered []))
    (fun v w => Eval.invoke env [] [v, w] (result.lowered [])) (rd.get outerTerm)
    (fun f cells => rd.getRow current (f ++ [⟨Select.innerName, cells⟩])) houter' hinner' hresult
  rw [rows_of_whole hwhole, Operation.lowered, run_join_eq, hitems e he]
  refine (congrArg (· >>= fun vs => pure (Value.list vs)) hjoin).trans ?_
  rw [pure_bind, hrows]
  rfl

end Reading

end Sql

end DeferredQuery
