import DeferredQuery.Proofs.Eval.Reads
import DeferredQuery.Proofs.Order.Lexicographic
import Mathlib.Data.List.Nodup
import Mathlib.Data.List.Perm.Basic

/-!
# Sorts one after the other

A sort by several keys is one by the less significant ones, followed by one by the first. Selectors
may draw from the oracle, and then the two ways draw the same answers in different orders: all
values for one item after those for another, or the first key of every item at the end.
-/

namespace DeferredQuery

open Stable (OrdersOn)

namespace Items

def Keyed.rest (x : Keyed) : Keyed := ⟨x.keys.tail, x.item⟩

def Keyed.first (x : Keyed) : Keyed := ⟨x.keys.take 1, x.item⟩

end Items

namespace Eval

/-! ## Runs of selectors -/

def Env.over (env : Env) (oracle : Oracle) : Env := { env with oracle }

variable {env : Env} {keys : List SortKey} {items : List Value}

def SortKey.run (env : Env) (k : SortKey) : Items.Key EvalM :=
  ⟨fun v => invoke env [] [v] k.selector, k.descending⟩

theorem keyValues_runs {v : Value} {P : SortKey → Value → Prop}
    (h : ∀ k ∈ keys, ∀ n, ∃ w j, invoke env [] [v] k.selector n = .ok (w, j) ∧ P k w) (n : Nat) :
    ∃ ws j, Items.keyValues (keys.map (SortKey.run env)) v n = .ok (ws, j) ∧
      List.Forall₂ P keys ws := by
  induction keys generalizing n with
  | nil => exact ⟨[], n, rfl, .nil⟩
  | cons k keys ih =>
      obtain ⟨hhead, htail⟩ := List.forall_mem_cons.mp h
      obtain ⟨w, i, hw, hP⟩ := hhead n
      obtain ⟨ws, j, hws, hPs⟩ := ih htail i
      refine ⟨w :: ws, j, ?_, .cons hP hPs⟩
      exact bind_eq_ok.mpr ⟨w, i, hw, bind_eq_ok.mpr ⟨ws, j, hws, rfl⟩⟩

/-- Selectors that compute a value whatever has been drawn before do so on one item after the
other. -/
theorem keyed_runs {P : SortKey → Value → Value → Prop}
    (h : ∀ k ∈ keys, ∀ v ∈ items, ∀ n, ∃ w j,
      invoke env [] [v] k.selector n = .ok (w, j) ∧ P k v w) (n : Nat) :
    ∃ xs j, Items.keyed (keys.map (SortKey.run env)) items n = .ok (xs, j) ∧
      xs.map Items.Keyed.item = items ∧
        ∀ x ∈ xs, List.Forall₂ (fun k w => P k x.item w) keys x.keys := by
  induction items generalizing n with
  | nil => exact ⟨[], n, rfl, rfl, nofun⟩
  | cons v items ih =>
      obtain ⟨ws, i, hws, hrow⟩ := keyValues_runs (fun k hk => h k hk v List.mem_cons_self) n
      obtain ⟨xs, j, hxs, hitems, hrows⟩ :=
        ih (fun k hk v hv => h k hk v (List.mem_cons_of_mem _ hv)) i
      refine ⟨⟨ws, v⟩ :: xs, j, ?_, by rw [List.map_cons, hitems],
        List.forall_mem_cons.mpr ⟨hrow, hrows⟩⟩
      exact bind_eq_ok.mpr ⟨ws, i, hws, bind_eq_ok.mpr ⟨xs, j, hxs, rfl⟩⟩

theorem order_of_keyed {xs : List Items.Keyed} {n j : Nat}
    (h : Items.keyed (keys.map (SortKey.run env)) items n = .ok (xs, j)) :
    order env items keys n = .ok (Items.sortKeyed (keys.map SortKey.descending) xs, j) := by
  refine bind_eq_ok.mpr ⟨xs, j, h, ?_⟩
  rw [List.map_map]
  rfl

/-! ## Sorts over listed answers -/

section Reads

variable {ι : Type} {l : List ι} {item : ι → Value} {row : ι → List Value}
  {as : ι → List Answer}

def rowsOrder (keys : List SortKey) (row : ι → List Value) (x y : ι) : Ordering :=
  Items.rowOrder (keys.map SortKey.descending) (row x) (row y)

/-- A second sort by the first values of the rows comes to the order of the rows. -/
theorem sort_rows {k : SortKey} {ks : List SortKey} {first : ι → Value} {t : Ty} {ts : List Ty}
    (ht : t.isExact = true) (hts : ∀ t ∈ ts, t.isExact = true) (hlength : ts.length = ks.length)
    (hfirst : ∀ x ∈ l, (first x).IsOf t) (hrow : ∀ x ∈ l, List.Forall₂ Value.IsOf ts (row x)) :
    Stable.sort (rowsOrder [k] fun x => [first x]) (Stable.sort (rowsOrder ks row) l) =
      Stable.sort (rowsOrder (k :: ks) fun x => first x :: row x) l := by
  have horders : OrdersOn (rowsOrder [k] fun x => [first x]) l :=
    Items.ordersOn_rowOrder (List.forall_mem_singleton.mpr ht) rfl fun x hx =>
      .cons (hfirst x hx) .nil
  have horders' : OrdersOn (rowsOrder ks row) l :=
    Items.ordersOn_rowOrder hts (by rw [List.length_map, hlength]) hrow
  rw [Stable.sort_sort horders horders']
  congr 1
  funext x y
  change Ordering.then (Ordering.then _ _) _ = _
  rw [Ordering.then_assoc]
  rfl

theorem keyed_reads
    (h : ∀ x ∈ l, Reads (fun o => Items.keyValues (keys.map (SortKey.run (env.over o))) (item x))
      (as x) (row x)) :
    Reads (fun o => Items.keyed (keys.map (SortKey.run (env.over o))) (l.map item))
      (l.flatMap as) (l.map fun x => ⟨row x, item x⟩) := by
  induction l with
  | nil => exact .pure []
  | cons x l ih =>
      obtain ⟨hx, hl⟩ := List.forall_mem_cons.mp h
      exact hx.bind (ih hl).map

theorem order_reads
    (h : ∀ x ∈ l, Reads (fun o => Items.keyValues (keys.map (SortKey.run (env.over o))) (item x))
      (as x) (row x)) :
    Reads (fun o => order (env.over o) (l.map item) keys) (l.flatMap as)
      ((Stable.sort (rowsOrder keys row) l).map item) := by
  intro o n hanswers
  refine (order_of_keyed (keyed_reads h o n hanswers)).trans ?_
  have hsort := @Stable.map_sort _ _ (rowsOrder keys row) l
    (rowsOrder keys Items.Keyed.keys) (fun x => ⟨row x, item x⟩) fun _ _ _ _ => rfl
  have hitems := congrArg (List.map Items.Keyed.item) hsort
  rw [List.map_map] at hitems
  exact congrArg (fun out => Except.ok (out, n + (l.flatMap as).length)) hitems.symm

end Reads

/-! ## Two ways to sort -/

/-- A sort by `k` and `ks`, and one by `ks` that is sorted again by `k`, find the same values on
each item. The second sort finds them in the order in which the first one leaves the items. -/
def SameRows (env env' : Env) (k : SortKey) (ks : List SortKey) (items : List Value)
    (n n' : Nat) : Prop :=
  ∃ xs ys i j j', Items.keyed ((k :: ks).map (SortKey.run env)) items n = .ok (xs, i) ∧
    Items.keyed (ks.map (SortKey.run env')) items n' = .ok (xs.map Items.Keyed.rest, j) ∧
    ys = Stable.sort (rowsOrder ks fun x => x.keys.tail) xs ∧
    Items.keyed [k.run env'] (ys.map Items.Keyed.item) j = .ok (ys.map Items.Keyed.first, j')

/-- The two ways to sort draw the same answers, each in its order, find the same values and give
the same list. -/
def SortsAlike (env env' : Env) (k : SortKey) (ks : List SortKey) (items : List Value)
    (n n' : Nat) : Prop :=
  ∃ d out, (env'.oracle.answers n' d).Perm (env.oracle.answers n d) ∧
    SameRows env env' k ks items n n' ∧ order env items (k :: ks) n = .ok (out, n + d) ∧
    (order env' items ks >>= fun vs => order env' vs [k]) n' = .ok (out, n' + d)

/-- What the selectors of a first key and of the others find on the places of a list, and the
answers that they read. The values of each key have one exact type. -/
structure Traced (env : Env) (k : SortKey) (ks : List SortKey) {ι : Type} (l : List ι)
    (item : ι → Value) where
  first : ι → Value
  rest : ι → List Value
  firstAnswers : ι → List Answer
  restAnswers : ι → List Answer
  firstTy : Ty
  restTys : List Ty
  reads_first : ∀ x ∈ l,
    Reads (fun o => invoke (env.over o) [] [item x] k.selector) (firstAnswers x) (first x)
  reads_rest : ∀ x ∈ l,
    Reads (fun o => Items.keyValues (ks.map (SortKey.run (env.over o))) (item x))
      (restAnswers x) (rest x)
  first_exact : firstTy.isExact = true
  rest_exact : ∀ t ∈ restTys, t.isExact = true
  length_restTys : restTys.length = ks.length
  first_isOf : ∀ x ∈ l, (first x).IsOf firstTy
  rest_isOf : ∀ x ∈ l, List.Forall₂ Value.IsOf restTys (rest x)

namespace Traced

variable {k : SortKey} {ks : List SortKey} {ι : Type} {l : List ι} {item : ι → Value}
  (t : Traced env k ks l item)

def sorted : List ι := Stable.sort (rowsOrder ks t.rest) l

def arranged : List ι := Stable.sort (rowsOrder (k :: ks) fun x => t.first x :: t.rest x) l

/-- The answers item by item. -/
def answers : List Answer := l.flatMap fun x => t.firstAnswers x ++ t.restAnswers x

/-- The answers for all but the first key, then those for the first. -/
def answersTwice : List Answer := l.flatMap t.restAnswers ++ t.sorted.flatMap t.firstAnswers

theorem perm_answers : t.answersTwice.Perm t.answers := by
  have hsorted : (t.sorted.flatMap t.firstAnswers).Perm (l.flatMap t.firstAnswers) :=
    (List.mergeSort_perm l _).flatMap_right t.firstAnswers
  exact ((hsorted.append_left _).trans List.perm_append_comm).trans
    (List.flatMap_append_perm l t.firstAnswers t.restAnswers)

theorem sort_sorted : Stable.sort (rowsOrder [k] fun x => [t.first x]) t.sorted = t.arranged :=
  sort_rows t.first_exact t.rest_exact t.length_restTys t.first_isOf t.rest_isOf

theorem reads_row (x : ι) (hx : x ∈ l) :
    Reads (fun o => Items.keyValues ((k :: ks).map (SortKey.run (env.over o))) (item x))
      (t.firstAnswers x ++ t.restAnswers x) (t.first x :: t.rest x) :=
  (t.reads_first x hx).bind (t.reads_rest x hx).map

theorem reads_again (x : ι) (hx : x ∈ t.sorted) :
    Reads (fun o => Items.keyValues ([k].map (SortKey.run (env.over o))) (item x))
      (t.firstAnswers x) [t.first x] := by
  have hread : Reads (fun o => Items.keyValues ([k].map (SortKey.run (env.over o))) (item x))
      (t.firstAnswers x ++ []) [t.first x] :=
    (t.reads_first x (Stable.mem_sort.mp hx)).bind (Reads.pure []).map
  rwa [List.append_nil] at hread

theorem order_reads_answers : Reads (fun o => order (env.over o) (l.map item) (k :: ks)) t.answers
    (t.arranged.map item) :=
  order_reads t.reads_row

theorem order_reads_answersTwice :
    Reads (fun o => order (env.over o) (l.map item) ks >>= fun vs => order (env.over o) vs [k])
      t.answersTwice (t.arranged.map item) := by
  have hagain := order_reads t.reads_again
  rw [sort_sorted] at hagain
  exact (order_reads t.reads_rest).bind hagain

variable {o o' : Oracle} {n n' : Nat}

/-- Where the answers agree, both sorts find the traced values. -/
theorem sameRows (h : o.answers n t.answers.length = t.answers)
    (h' : o'.answers n' t.answersTwice.length = t.answersTwice) :
    SameRows (env.over o) (env.over o') k ks (l.map item) n n' := by
  rw [answersTwice, List.length_append, Oracle.answers_add] at h'
  obtain ⟨hrest, hfirst⟩ := List.append_inj h' (by simp)
  have hsort := @Stable.map_sort _ _ (rowsOrder ks t.rest) l
    (rowsOrder ks fun x : Items.Keyed => x.keys.tail)
    (fun x => ⟨t.first x :: t.rest x, item x⟩) fun _ _ _ _ => rfl
  have hagain := keyed_reads t.reads_again o' _ hfirst
  refine ⟨_, _, _, n' + (l.flatMap t.restAnswers).length, n' + (l.flatMap t.restAnswers).length +
    (t.sorted.flatMap t.firstAnswers).length, keyed_reads t.reads_row o n h, ?_, hsort, ?_⟩
  · rw [List.map_map]
    exact keyed_reads t.reads_rest o' n' hrest
  · rw [List.map_map, List.map_map]
    exact hagain

theorem sortsAlike (h : o.answers n t.answers.length = t.answers)
    (h' : o'.answers n' t.answersTwice.length = t.answersTwice) :
    SortsAlike (env.over o) (env.over o') k ks (l.map item) n n' := by
  have hlength := t.perm_answers.length_eq
  refine ⟨t.answers.length, t.arranged.map item, ?_, t.sameRows h h',
    t.order_reads_answers o n h, ?_⟩
  · have hperm := t.perm_answers
    rw [← h, ← h', hlength] at hperm
    exact hperm
  · rw [← hlength]
    exact t.order_reads_answersTwice o' n' h'

end Traced

/-! ## Selectors over an oracle -/

section Draws

variable (env)

theorem local_selector (v : Value) (key : SortKey) :
    Local fun o => invoke (env.over o) [] [v] key.selector :=
  (pervades_of_draws compositional_local fun _ _ _ hm =>
    local_call env.params env.rows hm).invoke [] [v]

theorem local_keyValues (v : Value) (keys : List SortKey) :
    Local fun o => Items.keyValues (keys.map (SortKey.run (env.over o))) v := by
  refine compositional_local.keyValues ?_ v
  induction keys with
  | nil => exact .nil
  | cons key keys ih => exact .cons ih (fun v => local_selector env v key) key.descending

variable {env} {k : SortKey} {ks : List SortKey} {ty : SortKey → Ty}

/-- The selector of a key finds values of its type on the items, whatever has been drawn before. -/
def Finds (env : Env) (items : List Value) (ty : SortKey → Ty) (key : SortKey) : Prop :=
  ∀ v ∈ items, ∀ n, ∃ w j, invoke env [] [v] key.selector n = .ok (w, j) ∧ w.IsOf (ty key)

theorem reads_first_of_finds (h : Finds env items ty k) {v : Value} (hv : v ∈ items) (n : Nat) :
    ∃ w d, Reads (fun o => invoke (env.over o) [] [v] k.selector) (env.oracle.answers n d) w ∧
      w.IsOf (ty k) := by
  obtain ⟨w, j, hw, hof⟩ := h v hv n
  obtain ⟨d, -, hreads⟩ := (local_selector env v k).reads hw
  exact ⟨w, d, hreads, hof⟩

theorem reads_rest_of_finds (h : ∀ key ∈ ks, Finds env items ty key) {v : Value} (hv : v ∈ items)
    (n : Nat) :
    ∃ ws d, Reads (fun o => Items.keyValues (ks.map (SortKey.run (env.over o))) v)
      (env.oracle.answers n d) ws ∧ List.Forall₂ Value.IsOf (ks.map ty) ws := by
  obtain ⟨ws, j, hws, hof⟩ := keyValues_runs (fun key hkey n => h key hkey v hv n) n
  obtain ⟨d, -, hreads⟩ := (local_keyValues env v ks).reads hws
  exact ⟨ws, d, hreads, List.forall₂_map_left_iff.mpr hof⟩

theorem nodup_zipIdx (items : List Value) : items.zipIdx.Nodup := by
  refine List.Nodup.of_map Prod.snd ?_
  rw [List.zipIdx_map_snd]
  exact List.nodup_range'

/-- The answers that the sort by all keys draws. -/
theorem exists_traced (hty : ∀ key ∈ k :: ks, (ty key).isExact = true)
    (h : ∀ key ∈ k :: ks, Finds env items ty key) (n : Nat) :
    ∃ t : Traced env k ks items.zipIdx Prod.fst,
      env.oracle.answers n t.answers.length = t.answers := by
  obtain ⟨htyFirst, htyRest⟩ := List.forall_mem_cons.mp hty
  obtain ⟨hfirst, hrest⟩ := List.forall_mem_cons.mp h
  have hmem : ∀ x ∈ items.zipIdx, x.1 ∈ items := fun x hx => List.fst_mem_of_mem_zipIdx hx
  obtain ⟨val, as, hval, d, hanswers⟩ := exists_answers (nodup_zipIdx items)
    (P := fun x as (p : (Value × List Answer) × List Value × List Answer) =>
      as = p.1.2 ++ p.2.2 ∧
        (Reads (fun o => invoke (env.over o) [] [x.1] k.selector) p.1.2 p.1.1 ∧
          p.1.1.IsOf (ty k)) ∧
        Reads (fun o => Items.keyValues (ks.map (SortKey.run (env.over o))) x.1) p.2.2 p.2.1 ∧
          List.Forall₂ Value.IsOf (ks.map ty) p.2.1)
    (fun x hx n => by
      obtain ⟨w, d, hw⟩ := reads_first_of_finds hfirst (hmem x hx) n
      obtain ⟨ws, e, hws⟩ := reads_rest_of_finds hrest (hmem x hx) (n + d)
      exact ⟨((w, _), (ws, _)), d + e, Oracle.answers_add, hw, hws⟩) n
  let t : Traced env k ks items.zipIdx Prod.fst :=
    { first := fun x => (val x).1.1
      rest := fun x => (val x).2.1
      firstAnswers := fun x => (val x).1.2
      restAnswers := fun x => (val x).2.2
      firstTy := ty k
      restTys := ks.map ty
      reads_first := fun x hx => (hval x hx).2.1.1
      reads_rest := fun x hx => (hval x hx).2.2.1
      first_exact := htyFirst
      rest_exact := List.forall_mem_map.mpr htyRest
      length_restTys := by rw [List.length_map]
      first_isOf := fun x hx => (hval x hx).2.1.2
      rest_isOf := fun x hx => (hval x hx).2.2.2 }
  refine ⟨t, ?_⟩
  have hall : env.oracle.answers n d = t.answers :=
    hanswers.trans (List.flatMap_congr fun x hx => (hval x hx).1)
  rw [← hall, Oracle.length_answers]

/-- The answers that the two sorts draw. -/
theorem exists_traced_twice (hty : ∀ key ∈ k :: ks, (ty key).isExact = true)
    (h : ∀ key ∈ k :: ks, Finds env items ty key) (n : Nat) :
    ∃ t : Traced env k ks items.zipIdx Prod.fst,
      env.oracle.answers n t.answersTwice.length = t.answersTwice := by
  obtain ⟨htyFirst, htyRest⟩ := List.forall_mem_cons.mp hty
  obtain ⟨hfirst, hrest⟩ := List.forall_mem_cons.mp h
  have hmem : ∀ x ∈ items.zipIdx, x.1 ∈ items := fun x hx => List.fst_mem_of_mem_zipIdx hx
  obtain ⟨rest, bs, hbs, e, hrestAnswers⟩ := exists_answers (nodup_zipIdx items)
    (P := fun x as ws =>
      Reads (fun o => Items.keyValues (ks.map (SortKey.run (env.over o))) x.1) as ws ∧
        List.Forall₂ Value.IsOf (ks.map ty) ws)
    (fun x hx n => reads_rest_of_finds hrest (hmem x hx) n) n
  have hsorted : (Stable.sort (rowsOrder ks rest) items.zipIdx).Nodup :=
    (List.mergeSort_perm _ _).nodup_iff.mpr (nodup_zipIdx items)
  obtain ⟨first, as, has, d, hfirstAnswers⟩ := exists_answers hsorted
    (P := fun x as w =>
      Reads (fun o => invoke (env.over o) [] [x.1] k.selector) as w ∧ w.IsOf (ty k))
    (fun x hx n => reads_first_of_finds hfirst (hmem x (Stable.mem_sort.mp hx)) n) (n + e)
  let t : Traced env k ks items.zipIdx Prod.fst :=
    { first, rest, firstAnswers := as, restAnswers := bs, firstTy := ty k, restTys := ks.map ty
      reads_first := fun x hx => (has x (Stable.mem_sort.mpr hx)).1
      reads_rest := fun x hx => (hbs x hx).1
      first_exact := htyFirst
      rest_exact := List.forall_mem_map.mpr htyRest
      length_restTys := by rw [List.length_map]
      first_isOf := fun x hx => (has x (Stable.mem_sort.mpr hx)).2
      rest_isOf := fun x hx => (hbs x hx).2 }
  refine ⟨t, ?_⟩
  have hall : env.oracle.answers n (e + d) = t.answersTwice := by
    rw [Oracle.answers_add, hrestAnswers, hfirstAnswers]
    rfl
  rw [← hall, Oracle.length_answers]

/-- Each way to sort comes to the same over some oracle as the other one over the given oracle. -/
theorem sortsAlike_of_finds (hty : ∀ key ∈ k :: ks, (ty key).isExact = true)
    (h : ∀ key ∈ k :: ks, Finds env items ty key) (n : Nat) :
    (∃ o, SortsAlike env (env.over o) k ks items n 0) ∧
      ∃ o, SortsAlike (env.over o) env k ks items 0 n := by
  obtain ⟨t, ht⟩ := exists_traced hty h n
  obtain ⟨u, hu⟩ := exists_traced_twice hty h n
  have halike := t.sortsAlike ht (Oracle.answers_ofAnswers t.answersTwice)
  have halike' := u.sortsAlike (Oracle.answers_ofAnswers u.answers) hu
  rw [List.zipIdx_map_fst] at halike halike'
  exact ⟨⟨_, halike⟩, ⟨_, halike'⟩⟩

end Draws

/-! ## The sort -/

section Values

variable {k : SortKey} {ks : List SortKey} {ty : SortKey → Ty} {f : SortKey → Value → Value}

/-- Selectors whose values do not depend on what has been drawn sort by these values. -/
theorem order_runs
    (h : ∀ k ∈ keys, ∀ v ∈ items, ∀ n, ∃ j, invoke env [] [v] k.selector n = .ok (f k v, j))
    (n : Nat) :
    ∃ j, order env items keys n =
      .ok (Stable.sort (rowsOrder keys fun v => keys.map fun k => f k v) items, j) := by
  obtain ⟨xs, j, hxs, rfl, hrows⟩ := @keyed_runs env keys items (fun k v w => w = f k v)
    (fun k hk v hv n => by
      obtain ⟨j, hj⟩ := h k hk v hv n
      exact ⟨_, j, hj, rfl⟩) n
  have hkeys : ∀ x ∈ xs, x.keys = keys.map fun k => f k x.item := by
    intro x hx
    have hmap := List.forall₂_map_left_iff.mpr ((hrows x hx).imp fun _ _ h => h.symm)
    exact (List.forall₂_eq_eq_eq ▸ hmap).symm
  refine ⟨j, (order_of_keyed hxs).trans ?_⟩
  rw [← Stable.map_sort fun a ha b hb => ?_]
  · rfl
  · rw [rowsOrder, ← hkeys a ha, ← hkeys b hb]

/-- Over one oracle, if the values do not depend on what has been drawn. -/
theorem order_cons (hty : ∀ key ∈ k :: ks, (ty key).isExact = true)
    (h : ∀ key ∈ k :: ks, ∀ v ∈ items, (f key v).IsOf (ty key))
    (hruns : ∀ key ∈ k :: ks, ∀ v ∈ items, ∀ n, ∃ j,
      invoke env [] [v] key.selector n = .ok (f key v, j)) (n : Nat) :
    ∃ out i j, order env items (k :: ks) n = .ok (out, i) ∧
      (order env items ks >>= fun vs => order env vs [k]) n = .ok (out, j) := by
  obtain ⟨hfirst, hrest⟩ := List.forall_mem_cons.mp hruns
  obtain ⟨i, hall⟩ := order_runs hruns n
  obtain ⟨m, hlast⟩ := order_runs hrest n
  obtain ⟨j, hagain⟩ := @order_runs env [k] _ f
    (List.forall_mem_singleton.mpr fun v hv => hfirst v (Stable.mem_sort.mp hv)) m
  obtain ⟨htyFirst, htyRest⟩ := List.forall_mem_cons.mp hty
  obtain ⟨hof, hofs⟩ := List.forall_mem_cons.mp h
  refine ⟨_, i, j, hall, bind_eq_ok.mpr ⟨_, m, hlast, hagain.trans ?_⟩⟩
  have hrows := @sort_rows Value items (fun v => ks.map fun key => f key v) k ks (f k) (ty k)
    (ks.map ty) htyFirst (List.forall_mem_map.mpr htyRest) (by rw [List.length_map]) hof
    fun v hv => List.forall₂_map_left_iff.mpr (List.forall₂_map_right_iff.mpr
      (List.forall₂_same.mpr fun key hkey => hofs key hkey v hv))
  exact congrArg (fun out => Except.ok (out, j)) hrows

end Values

/-- A sort arranges the items by the values that its selectors compute, if each of them computes
null or values of one exact type. The first key can be left to a second sort: each way comes to the
same over some oracle as the other one over the given oracle, from the same answers and with the
same values of each key on each item. It comes to the same over the given oracle itself if the
value on an item does not change from one computation to the next. -/
theorem order_arranges
    (hkeys : ∀ k ∈ keys, ∃ t : Ty, t.isExact = true ∧ ∀ v ∈ items, ∀ n, ∃ w j,
      invoke env [] [v] k.selector n = .ok (w, j) ∧ w.IsOf t) :
    (∀ n, ∃ xs out j, order env items keys n = .ok (out, j) ∧ out.Perm items ∧
      xs.map Items.Keyed.item = items ∧
      (∀ x ∈ xs, List.Forall₂ (fun k w => ∃ i j, invoke env [] [x.item] k.selector i = .ok (w, j))
        keys x.keys) ∧
      Items.Arranges (keys.map SortKey.descending) xs out) ∧
    ∀ k ks, keys = k :: ks → ∀ n,
      ((∃ o, SortsAlike env (env.over o) k ks items n 0) ∧
        ∃ o, SortsAlike (env.over o) env k ks items 0 n) ∧
      ((∀ key ∈ keys, ∀ v ∈ items, ∃ w, ∀ n, ∃ j,
        invoke env [] [v] key.selector n = .ok (w, j)) →
        ∃ out i j, order env items keys n = .ok (out, i) ∧
          (order env items ks >>= fun vs => order env vs [k]) n = .ok (out, j)) := by
  choose! ty hty hvalue using hkeys
  refine ⟨fun n => ?_, ?_⟩
  · obtain ⟨xs, j, hxs, hitems, hrows⟩ := @keyed_runs env keys items
      (fun k v w => (∃ i j, invoke env [] [v] k.selector i = .ok (w, j)) ∧ w.IsOf (ty k))
      (fun k hk v hv n => by
        obtain ⟨w, j, hw, hof⟩ := hvalue k hk v hv n
        exact ⟨w, j, hw, ⟨n, j, hw⟩, hof⟩) n
    have htyped : ∀ x ∈ xs, List.Forall₂ Value.IsOf (keys.map ty) x.keys := fun x hx =>
      List.forall₂_map_left_iff.mpr ((hrows x hx).imp fun _ _ h => h.2)
    have harranges : Items.Arranges (keys.map SortKey.descending) xs
        (Items.sortKeyed (keys.map SortKey.descending) xs) :=
      Items.arranges_sortKeyed (List.forall_mem_map.mpr hty) (by simp) htyped
    exact ⟨xs, _, j, order_of_keyed hxs, hitems ▸ harranges.perm, hitems,
      fun x hx => (hrows x hx).imp fun _ _ h => h.1, harranges⟩
  · rintro k ks rfl n
    refine ⟨sortsAlike_of_finds hty hvalue n, fun hstable => ?_⟩
    choose! f hf using hstable
    refine order_cons hty (fun key hkey v hv => ?_) hf n
    obtain ⟨w, j, hw, hof⟩ := hvalue key hkey v hv 0
    obtain ⟨i, hi⟩ := hf key hkey v hv 0
    cases hi.symm.trans hw
    exact hof

def people : List Value :=
  let person (name : String) (age : Value) : Value := .record [⟨"Name", .string name⟩, ⟨"Age", age⟩]
  [person "Bob" (.int 17), person "Cy" .null, person "Ada" (.int 17)]

def byAge : SortKey :=
  ⟨.lambda [⟨"p", .object⟩] (.member (.parameter "p" .object) "Age" (.nullable .int)), true⟩

def byName : SortKey :=
  ⟨.lambda [⟨"p", .object⟩] (.member (.parameter "p" .object) "Name" .string), false⟩

def byChance : SortKey := ⟨.lambda [⟨"p", .object⟩] (.call .newGuid none [] .uuid), false⟩

/-- People by their ages and names, and by their ages and an identifier that is drawn for each. -/
theorem arranges_people :
    let env : Env := .closed ⟨fun n => ⟨BitVec.ofNat 128 n⟩, fun _ => ⟨0, 0⟩⟩
    (∀ k ∈ [byAge, byName, byChance], ∃ t : Ty, t.isExact = true ∧ ∀ v ∈ people, ∀ n, ∃ w j,
      invoke env [] [v] k.selector n = .ok (w, j) ∧ w.IsOf t) ∧
    (∀ k ∈ [byAge, byName], ∀ v ∈ people, ∃ w, ∀ n, ∃ j,
      invoke env [] [v] k.selector n = .ok (w, j)) ∧
    order env people [byAge, byName] 0 = .ok ([people[2], people[0], people[1]], 0) ∧
    (∃ xs, xs.map Items.Keyed.item = people ∧
      Items.Arranges [true, false] xs [people[2], people[0], people[1]]) ∧
    (∃ j, (order env people [byName] >>= fun vs => order env vs [byAge]) 0 =
      .ok ([people[2], people[0], people[1]], j)) ∧
    ∃ o, SortsAlike env (env.over o) byAge [byChance] people 0 0 := by
  intro env
  have hage : ∃ t : Ty, t.isExact = true ∧ ∀ v ∈ people, ∀ n, ∃ w j,
      invoke env [] [v] byAge.selector n = .ok (w, j) ∧ w.IsOf t := by
    simp only [people, List.forall_mem_cons, List.not_mem_nil, false_implies, implies_true,
      and_true]
    refine ⟨.int, rfl, ?_, ?_, ?_⟩ <;> intro n
    · exact ⟨_, _, rfl, .inr rfl⟩
    · exact ⟨_, _, rfl, .inl rfl⟩
    · exact ⟨_, _, rfl, .inr rfl⟩
  have hname : ∃ t : Ty, t.isExact = true ∧ ∀ v ∈ people, ∀ n, ∃ w j,
      invoke env [] [v] byName.selector n = .ok (w, j) ∧ w.IsOf t := by
    simp only [people, List.forall_mem_cons, List.not_mem_nil, false_implies, implies_true,
      and_true]
    refine ⟨.string, rfl, ?_, ?_, ?_⟩ <;> exact fun n => ⟨_, _, rfl, .inr rfl⟩
  have hchance : ∃ t : Ty, t.isExact = true ∧ ∀ v ∈ people, ∀ n, ∃ w j,
      invoke env [] [v] byChance.selector n = .ok (w, j) ∧ w.IsOf t :=
    ⟨.uuid, rfl, fun v _ n => ⟨_, _, rfl, .inr rfl⟩⟩
  have hstable : ∀ k ∈ [byAge, byName], ∀ v ∈ people, ∃ w, ∀ n, ∃ j,
      invoke env [] [v] k.selector n = .ok (w, j) := by
    simp only [people, List.forall_mem_cons, List.not_mem_nil, false_implies, implies_true,
      and_true]
    refine ⟨⟨?_, ?_, ?_⟩, ?_, ?_, ?_⟩ <;> exact ⟨_, fun n => ⟨n, rfl⟩⟩
  obtain ⟨harranges, htwice⟩ := @order_arranges env [byAge, byName] people
    (List.forall_mem_cons.mpr ⟨hage, List.forall_mem_singleton.mpr hname⟩)
  obtain ⟨-, hdrawn⟩ := @order_arranges env [byAge, byChance] people
    (List.forall_mem_cons.mpr ⟨hage, List.forall_mem_singleton.mpr hchance⟩)
  have hsorted : order env people [byAge, byName] 0 =
      .ok ([people[2], people[0], people[1]], 0) := by
    have hrun : order env people [byAge, byName] 0 = .ok (Items.sortKeyed [true, false]
        [⟨[.int 17, .string "Bob"], people[0]⟩, ⟨[.null, .string "Cy"], people[1]⟩,
          ⟨[.int 17, .string "Ada"], people[2]⟩], 0) := rfl
    have hnames : compare "Bob" "Ada" = .gt := by decide
    rw [hrun]
    simp [Items.sortKeyed, List.mergeSort, Items.rowOrder, Items.keyOrder,
      Value.compare?, hnames]
  refine ⟨List.forall_mem_cons.mpr ⟨hage, List.forall_mem_cons.mpr
    ⟨hname, List.forall_mem_singleton.mpr hchance⟩⟩, hstable, hsorted, ?_, ?_,
    (hdrawn _ _ rfl 0).1.1⟩
  · obtain ⟨xs, out, j, hout, -, hitems, -, hxs⟩ := harranges 0
    cases hout.symm.trans hsorted
    exact ⟨xs, hitems, hxs⟩
  · obtain ⟨out, i, j, hout, hagain⟩ := (htwice _ _ rfl 0).2 hstable
    cases hout.symm.trans hsorted
    exact ⟨j, hagain⟩

end Eval

end DeferredQuery
