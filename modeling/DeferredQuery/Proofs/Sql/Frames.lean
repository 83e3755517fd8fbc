import DeferredQuery.Proofs.Sql.Terms

/-!
# The rows behind a statement

What a new filter, new sort keys and a join make of the filtered and sorted rows of a statement.
-/

namespace DeferredQuery.Sql

namespace Reading

variable {rd : Reading} {s : Select}

open Stable (OrdersOn)

/-! ## Rows of tables -/

theorem joined_of_none (hjoin : s.join = none) : rd.joined s = rd.outer s := by
  rw [joined, hjoin]

theorem joined_of_some {j : Join} (hjoin : s.join = some j) :
    rd.joined s = (rd.outer s).flatMap (rd.partners j) := by
  rw [joined, hjoin]

theorem mem_outer {f : Frame} (hf : f ∈ rd.outer s) :
    ∃ cells ∈ rd.tables s.table, f = [⟨Select.outerName, cells⟩] := by
  obtain ⟨cells, hcells, rfl⟩ := List.mem_map.mp hf
  exact ⟨cells, hcells, rfl⟩

theorem mem_partners {j : Join} {f g : Frame} (hg : g ∈ rd.partners j f) :
    ∃ cells ∈ rd.tables j.table, g = f ++ [⟨j.name, cells⟩] := by
  obtain ⟨cells, hcells, rfl⟩ := List.mem_map.mp (List.mem_of_mem_filter hg)
  exact ⟨cells, hcells, rfl⟩

theorem extends_partner {j : Join} {f g : Frame} (hg : g ∈ rd.partners j f) : Extends f g := by
  obtain ⟨cells, -, rfl⟩ := mem_partners hg
  exact extends_append f _

/-- Rows that are added under one name are of one table. -/
theorem uniform_append {f g : Frame} {name : String} {cells cells' : Cells} {table : String}
    (hfg : rd.Uniform f g) (hnames : ∀ n, Named.find? n f = none ↔ Named.find? n g = none)
    (hcells : cells ∈ rd.tables table) (hcells' : cells' ∈ rd.tables table) :
    rd.Uniform (f ++ [⟨name, cells⟩]) (g ++ [⟨name, cells'⟩]) := by
  intro n c c' hc hc'
  rw [Named.find?_append] at hc hc'
  cases hf : Named.find? n f with
  | some d =>
      cases hg : Named.find? n g with
      | none => simp [(hnames n).mpr hg] at hf
      | some d' =>
          obtain rfl : d = c := by simpa [hf] using hc
          obtain rfl : d' = c' := by simpa [hg] using hc'
          exact hfg n d d' hf hg
  | none =>
      rw [hf, Option.none_or, Named.find?_cons] at hc
      rw [(hnames n).mp hf, Option.none_or, Named.find?_cons] at hc'
      split at hc
      · rename_i hn
        rw [if_pos hn] at hc'
        cases hc
        cases hc'
        exact ⟨table, hcells, hcells'⟩
      · cases hc

theorem uniform_outer {f g : Frame} (hf : f ∈ rd.outer s) (hg : g ∈ rd.outer s) :
    rd.Uniform f g := by
  obtain ⟨cells, hcells, rfl⟩ := mem_outer hf
  obtain ⟨cells', hcells', rfl⟩ := mem_outer hg
  exact @uniform_append rd [] [] _ _ _ _ nofun (fun _ => Iff.rfl) hcells hcells'

/-- The rows at hand have one form: a row of the first table and one of the joined table. -/
theorem uniform_joined {f g : Frame} (hf : f ∈ rd.joined s) (hg : g ∈ rd.joined s) :
    rd.Uniform f g := by
  cases hjoin : s.join with
  | none =>
      rw [joined_of_none hjoin] at hf hg
      exact uniform_outer hf hg
  | some j =>
      rw [joined_of_some hjoin] at hf hg
      obtain ⟨f₀, hf₀, hf⟩ := List.mem_flatMap.mp hf
      obtain ⟨g₀, hg₀, hg⟩ := List.mem_flatMap.mp hg
      obtain ⟨d, hd, rfl⟩ := mem_partners hf
      obtain ⟨d', hd', rfl⟩ := mem_partners hg
      refine uniform_append (uniform_outer hf₀ hg₀) (fun n => ?_) hd hd'
      obtain ⟨cells, -, rfl⟩ := mem_outer hf₀
      obtain ⟨cells', -, rfl⟩ := mem_outer hg₀
      rw [Named.find?_cons, Named.find?_cons]
      split <;> simp

/-! ## Sort keys -/

theorem keyOrder_append (keys keys' : List SortKey) (f g : Frame) :
    rd.keyOrder (keys ++ keys') f g = (rd.keyOrder keys f g).then (rd.keyOrder keys' f g) := by
  induction keys with
  | nil => rfl
  | cons k keys ih =>
      unfold keyOrder at ih ⊢
      simp only [List.cons_append, List.map_cons, Items.rowOrder, ih]
      rw [Ordering.then_assoc]

/-- Keys whose values compare with each other order the rows. -/
theorem ordersOn_keys (htyped : rd.Typed) {keys : List SortKey} {fs : List Frame}
    (huniform : ∀ f ∈ fs, ∀ g ∈ fs, rd.Uniform f g)
    (hvalue : ∀ f ∈ fs, ∀ k ∈ keys, ∃ v, rd.value f k.term = .ok v)
    (hsome : ∀ k ∈ keys, ∀ f ∈ fs, ∀ g ∈ fs,
      ((rd.get k.term f).compare? (rd.get k.term g)).isSome) :
    OrdersOn (rd.keyOrder keys) fs := by
  induction keys with
  | nil => exact ⟨fun _ _ _ _ => rfl, fun _ _ _ _ _ _ h _ => h⟩
  | cons k keys ih =>
      have hunmixed : Value.Unmixed (fs.map (rd.get k.term)) := by
        intro v hv w hw
        obtain ⟨f, hf, rfl⟩ := List.mem_map.mp hv
        obtain ⟨g, hg, rfl⟩ := List.mem_map.mp hw
        exact value_unmixed htyped (huniform f hf g hg)
          (value_eq_get (hvalue f hf k List.mem_cons_self))
          (value_eq_get (hvalue g hg k List.mem_cons_self))
      have hcompare : ∀ v ∈ fs.map (rd.get k.term), ∀ w ∈ fs.map (rd.get k.term),
          (v.compare? w).isSome := by
        intro v hv w hw
        obtain ⟨f, hf, rfl⟩ := List.mem_map.mp hv
        obtain ⟨g, hg, rfl⟩ := List.mem_map.mp hw
        exact hsome k List.mem_cons_self f hf g hg
      have hfirst := (Value.ordersOn_keyOrder hunmixed hcompare k.descending).comap
      have hrest := ih (fun f hf k hk => hvalue f hf k (List.mem_cons_of_mem _ hk))
        fun k hk => hsome k (List.mem_cons_of_mem _ hk)
      exact hfirst.lex hrest

theorem ordersOn_order (htyped : rd.Typed) (hs : rd.Readable s) (hcompare : rd.Comparable s) :
    OrdersOn (rd.keyOrder s.order) (rd.joined s) :=
  ordersOn_keys htyped (fun _ hf _ hg => uniform_joined hf hg) hs.key hcompare

/-! ## Clauses -/

def filtered (rd : Reading) (s : Select) : List Frame :=
  (rd.joined s).filter fun f => s.filters.all fun t => rd.holds t f

theorem frames_eq (rd : Reading) (s : Select) :
    rd.frames s = Stable.sort (rd.keyOrder s.order) (rd.filtered s) := rfl

theorem frames_of_empty (hjoin : s.join = none) (hfilters : s.filters = [])
    (horder : s.order = []) : rd.frames s = rd.outer s := by
  have hkeys : ∀ f g, rd.keyOrder s.order f g = .eq := by
    intro f g
    rw [horder]
    rfl
  have hall : ∀ f ∈ rd.joined s, (s.filters.all fun t => rd.holds t f) = true := by
    intro f _
    rw [hfilters]
    rfl
  rw [frames, Stable.sort_of_eq hkeys, List.filter_eq_self.mpr hall, joined_of_none hjoin]

theorem mem_joined_of_mem_filtered {f : Frame} (hf : f ∈ rd.filtered s) : f ∈ rd.joined s :=
  List.mem_of_mem_filter hf

theorem mem_joined {f : Frame} (hf : f ∈ rd.frames s) : f ∈ rd.joined s :=
  mem_joined_of_mem_filtered (Stable.mem_sort.mp hf)

/-- A later filter keeps some of the rows as they are sorted. -/
theorem frames_filter {s' : Select} {term : Term}
    (horder : OrdersOn (rd.keyOrder s.order) (rd.joined s)) (hjoined : rd.joined s' = rd.joined s)
    (hfilters : s'.filters = s.filters ++ [term]) (hkeys : s'.order = s.order) :
    rd.frames s' = (rd.frames s).filter (rd.holds term) := by
  have hfiltered : rd.filtered s' = (rd.filtered s).filter (rd.holds term) := by
    rw [filtered, filtered, hjoined, hfilters, List.filter_filter]
    congr 1
    funext f
    simp [Bool.and_comm]
  have hsub := horder.mono fun f hf => mem_joined_of_mem_filtered hf
  rw [frames_eq, frames_eq, hfiltered, hkeys, Stable.filter_sort hsub]

/-- A later sort goes over the rows as the earlier sorts leave them. -/
theorem frames_sort {s' : Select} {keys : List SortKey}
    (horder : OrdersOn (rd.keyOrder s.order) (rd.joined s))
    (horder' : OrdersOn (rd.keyOrder keys) (rd.joined s)) (hjoined : rd.joined s' = rd.joined s)
    (hfilters : s'.filters = s.filters) (hkeys : s'.order = keys ++ s.order) :
    rd.frames s' = Stable.sort (rd.keyOrder keys) (rd.frames s) := by
  have hfiltered : rd.filtered s' = rd.filtered s := by rw [filtered, filtered, hjoined, hfilters]
  have hsub := horder.mono fun f hf => mem_joined_of_mem_filtered hf
  have hsub' := horder'.mono fun f hf => mem_joined_of_mem_filtered hf
  have hlex : rd.keyOrder s'.order =
      fun f g => (rd.keyOrder keys f g).then (rd.keyOrder s.order f g) := by
    funext f g
    rw [hkeys, keyOrder_append]
  rw [frames_eq, frames_eq, hfiltered, Stable.sort_sort hsub' hsub, hlex]

theorem flatMap_filter {α β : Type} {xs : List α} {g : α → List β} {p : α → Bool} {q : β → Bool}
    (h : ∀ x ∈ xs, ∀ y ∈ g x, q y = p x) : (xs.flatMap g).filter q = (xs.filter p).flatMap g := by
  induction xs with
  | nil => rfl
  | cons x xs ih =>
      have hx : ∀ y ∈ g x, q y = p x := h x List.mem_cons_self
      rw [List.flatMap_cons, List.filter_append, List.filter_congr hx,
        ih fun y hy => h y (List.mem_cons_of_mem _ hy), List.filter_cons]
      split <;> rename_i hp <;> simp [hp]

/-- A join after filters and sorts gives each row its partners in turn. -/
theorem frames_join {s' : Select} {j : Join} (hs : rd.Readable s)
    (horder : OrdersOn (rd.keyOrder s.order) (rd.joined s)) (hnone : s.join = none)
    (hjoin : s'.join = some j) (htable : s'.table = s.table) (hfilters : s'.filters = s.filters)
    (hkeys : s'.order = s.order) : rd.frames s' = (rd.frames s).flatMap (rd.partners j) := by
  have houter : rd.outer s' = rd.joined s := by
    rw [joined_of_none hnone, outer, outer, htable]
  have hget : ∀ f ∈ rd.joined s, ∀ g ∈ rd.partners j f, ∀ t, (∃ v, rd.value f t = .ok v) →
      rd.get t g = rd.get t f := fun f _ g hg t ht => get_mono (extends_partner hg) ht
  have hpasses : ∀ f ∈ rd.joined s, ∀ g ∈ rd.partners j f,
      (s.filters.all fun t => rd.holds t g) = s.filters.all fun t => rd.holds t f := by
    intro f hf g hg
    have hall : ∀ ts : List Term, (∀ t ∈ ts, ∃ v, rd.value f t = .ok v) →
        (ts.all fun t => rd.holds t g) = ts.all fun t => rd.holds t f := by
      intro ts hts
      induction ts with
      | nil => rfl
      | cons t ts ih =>
          rw [List.all_cons, List.all_cons, ih fun u hu => hts u (List.mem_cons_of_mem _ hu),
            holds, holds, hget f hf g hg t (hts t List.mem_cons_self)]
    refine hall s.filters fun t ht => ?_
    obtain ⟨v, -, hv, -⟩ := hs.filter f hf t ht
    exact ⟨v, hv⟩
  have hkey : ∀ f ∈ rd.joined s, ∀ g ∈ rd.partners j f, ∀ keys : List SortKey,
      (∀ k ∈ keys, ∃ v, rd.value f k.term = .ok v) →
      (keys.map fun k => rd.get k.term g) = keys.map fun k => rd.get k.term f := by
    intro f hf g hg keys hvalue
    exact List.map_congr_left fun k hk => hget f hf g hg k.term (hvalue k hk)
  have hfiltered : rd.filtered s' = (rd.filtered s).flatMap (rd.partners j) := by
    rw [filtered, filtered, joined_of_some hjoin, houter, hfilters]
    exact flatMap_filter hpasses
  have hsub := horder.mono fun f hf => mem_joined_of_mem_filtered hf
  rw [frames_eq, frames_eq, hfiltered, hkeys]
  refine (Stable.flatMap_sort hsub fun f hf g hg x hx y hy => ?_).symm
  have hf := mem_joined_of_mem_filtered hf
  have hg := mem_joined_of_mem_filtered hg
  rw [keyOrder, keyOrder, hkey f hf x hx _ (hs.key f hf), hkey g hg y hy _ (hs.key g hg)]

end Reading

end DeferredQuery.Sql
