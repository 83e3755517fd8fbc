import DeferredQuery.Eval.Basic
import DeferredQuery.Proofs.Eval.Computed
import DeferredQuery.Proofs.Order.Values

/-!
# One item for each value

The equality of predicates is symmetric, but not reflexive where a number is undefined and not
transitive where whole numbers meet floating point. So what `Distinct` keeps is read off its loop:
what it keeps of the items before one decides whether that one is kept too. Without floating point
the equality is that of values, and what is kept does not depend on the order of the items.
-/

namespace DeferredQuery

open Binary64 (unpacked_compare_swap)

namespace Value

/-! ## Symmetry -/

theorem float_beq_comm (x y : Float) : (x == y) = (y == x) := by
  have heq : ∀ x y : Float,
      (x == y) = (x.toModel.unpack.compare y.toModel.unpack == some .eq) := fun _ _ => rfl
  rw [heq, heq, unpacked_compare_swap x.toModel.unpack y.toModel.unpack]
  rcases x.toModel.unpack.compare y.toModel.unpack with _ | o
  · rfl
  · cases o <;> rfl

mutual

/-- By induction on the first value; what two kinds of values have in common is decided there. -/
theorem same_comm : ∀ v w : Value, same v w = same w v
  | .float x, w => by
      cases w with
      | float y => rw [same, same, float_beq_comm]
      | _ => simp only [same]
  | .list vs, w => by
      cases w with
      | list ws => rw [same, same, sameItems_comm vs ws]
      | _ => simp only [same]
  | .record fs, w => by
      cases w with
      | record gs => rw [same, same, sameFields_comm fs gs]
      | _ => simp only [same]
  | .closure m cs, w => by
      cases w with
      | closure n ds => rw [same, same, BEq.comm, sameCaptures_comm cs ds]
      | _ => simp only [same]
  | .null, w | .bool _, w | .int _, w | .string _, w | .uuid _, w | .instant _, w | .query _, w =>
      by cases w <;> simp only [same, BEq.comm]

theorem sameItems_comm : ∀ vs ws : List Value, sameItems vs ws = sameItems ws vs
  | [], ws => by cases ws <;> simp only [sameItems]
  | v :: vs, [] => by simp only [sameItems]
  | v :: vs, w :: ws => by rw [sameItems, sameItems, same_comm v w, sameItems_comm vs ws]

theorem sameFields_comm : ∀ fs gs : List (Named Value), sameFields fs gs = sameFields gs fs
  | [], gs => by cases gs <;> simp only [sameFields]
  | f :: fs, [] => by simp only [sameFields]
  | ⟨m, v⟩ :: fs, ⟨n, w⟩ :: gs => by
      have hname : (m == n) = (n == m) := BEq.comm
      rw [sameFields, sameFields, hname, same_comm v w, sameFields_comm fs gs]

theorem sameCaptures_comm :
    ∀ cs ds : List (Capture Value), sameCaptures cs ds = sameCaptures ds cs
  | [], ds => by cases ds <;> simp only [sameCaptures]
  | c :: cs, [] => by simp only [sameCaptures]
  | ⟨m, s, v⟩ :: cs, ⟨n, t, w⟩ :: ds => by
      have hname : (m == n) = (n == m) := BEq.comm
      have hty : (s == t) = (t == s) := BEq.comm
      rw [sameCaptures, sameCaptures, hname, hty, same_comm v w, sameCaptures_comm cs ds]

end

theorem looseEq_comm (v w : Value) : v.looseEq w = w.looseEq v := by
  cases v with
  | int n =>
      cases w with
      | float y => exact float_beq_comm _ y
      | _ => exact same_comm _ _
  | float x =>
      cases w with
      | int n => exact float_beq_comm x _
      | _ => exact same_comm _ _
  | _ => cases w <;> exact same_comm _ _

/-! ## Values without floating point -/

inductive FloatFree : Value → Prop where
  | null : FloatFree .null
  | bool (b : Bool) : FloatFree (.bool b)
  | int (n : Int64) : FloatFree (.int n)
  | string (s : String) : FloatFree (.string s)
  | uuid (u : Uuid) : FloatFree (.uuid u)
  | instant (t : Instant) : FloatFree (.instant t)
  | list {items : List Value} (h : ∀ v ∈ items, FloatFree v) : FloatFree (.list items)
  | record {fields : List (Named Value)} (h : ∀ field ∈ fields, FloatFree field.value) :
    FloatFree (.record fields)
  | closure (className : String) {captures : List (Capture Value)}
    (h : ∀ c ∈ captures, FloatFree c.value) : FloatFree (.closure className captures)
  | query (root : SetRef) : FloatFree (.query root)

theorem sameItems_iff {vs : List Value} (h : ∀ v ∈ vs, ∀ w, same v w = true ↔ v = w)
    (ws : List Value) : sameItems vs ws = true ↔ vs = ws := by
  induction vs generalizing ws with
  | nil => cases ws <;> simp [sameItems]
  | cons v vs ih =>
      cases ws with
      | nil => simp [sameItems]
      | cons w ws =>
          rw [sameItems, Bool.and_eq_true, h v List.mem_cons_self,
            ih fun u hu => h u (List.mem_cons_of_mem _ hu), List.cons.injEq]

theorem sameFields_iff {fs : List (Named Value)}
    (h : ∀ f ∈ fs, ∀ w, same f.value w = true ↔ f.value = w) (gs : List (Named Value)) :
    sameFields fs gs = true ↔ fs = gs := by
  induction fs generalizing gs with
  | nil => cases gs <;> simp [sameFields]
  | cons f fs ih =>
      cases gs with
      | nil => simp [sameFields]
      | cons g gs =>
          rw [sameFields, Bool.and_eq_true, Bool.and_eq_true, beq_iff_eq, h f List.mem_cons_self,
            ih fun f hf => h f (List.mem_cons_of_mem _ hf), List.cons.injEq, Named.mk.injEq]

theorem sameCaptures_iff {cs : List (Capture Value)}
    (h : ∀ c ∈ cs, ∀ w, same c.value w = true ↔ c.value = w) (ds : List (Capture Value)) :
    sameCaptures cs ds = true ↔ cs = ds := by
  induction cs generalizing ds with
  | nil => cases ds <;> simp [sameCaptures]
  | cons c cs ih =>
      cases ds with
      | nil => simp [sameCaptures]
      | cons d ds =>
          rw [sameCaptures, Bool.and_eq_true, Bool.and_eq_true, Bool.and_eq_true, beq_iff_eq,
            beq_iff_eq, h c List.mem_cons_self, ih fun c hc => h c (List.mem_cons_of_mem _ hc),
            List.cons.injEq, Capture.mk.injEq]
          simp only [and_assoc]

/-- Without floating point numbers structural equality is equality. -/
theorem FloatFree.same_iff {v : Value} (h : v.FloatFree) (w : Value) :
    same v w = true ↔ v = w := by
  induction h generalizing w with
  | null => cases w <;> simp [same]
  | bool b => cases w <;> simp [same]
  | int n => cases w <;> simp [same]
  | string s => cases w <;> simp [same]
  | uuid u => cases w <;> simp [same]
  | instant t => cases w <;> simp [same]
  | query root => cases w <;> simp [same]
  | list h ih => cases w <;> simp [same, sameItems_iff ih]
  | record h ih => cases w <;> simp [same, sameFields_iff ih]
  | closure name h ih => cases w <;> simp [same, sameCaptures_iff ih]

theorem FloatFree.looseEq_iff {v w : Value} (hv : v.FloatFree) (hw : w.FloatFree) :
    v.looseEq w = true ↔ v = w := by
  rw [← hv.same_iff w]
  cases hv <;> cases hw <;> exact Iff.rfl

end Value

namespace Items

/-! ## What is kept -/

/-- What is kept of the items so far decides what is kept of the rest. -/
theorem distinctFrom_append (kept before after : List Value) :
    distinctFrom kept (before ++ after) =
      distinctFrom kept before ++ distinctFrom (kept ++ distinctFrom kept before) after := by
  induction before generalizing kept with
  | nil => simp [distinctFrom]
  | cons v before ih =>
      rw [List.cons_append, distinctFrom, distinctFrom]
      split
      · exact ih kept
      · rw [ih, List.append_assoc, List.singleton_append, List.cons_append]

theorem distinctFrom_sublist (kept items : List Value) :
    (distinctFrom kept items).Sublist items := by
  induction items generalizing kept with
  | nil => exact .slnil
  | cons v rest ih =>
      rw [distinctFrom]
      split
      · exact (ih kept).cons v
      · exact (ih (kept ++ [v])).cons_cons v

theorem distinct_sublist (items : List Value) : (distinct items).Sublist items :=
  distinctFrom_sublist [] items

theorem distinct_head? (items : List Value) : (distinct items).head? = items.head? := by
  cases items with
  | nil => rfl
  | cons v rest => simp [distinct, distinctFrom]

/-- An item is dropped exactly if it equals one that is kept before it. -/
theorem distinct_split (before after : List Value) (v : Value) :
    ∃ rest, rest.Sublist after ∧
      (distinct (before ++ v :: after) = distinct before ++ v :: rest ∧
          (∀ u ∈ distinct before, u.looseEq v = false) ∨
        distinct (before ++ v :: after) = distinct before ++ rest ∧
          ∃ u ∈ distinct before, u.looseEq v = true) := by
  have hsplit : distinct (before ++ v :: after) =
      distinct before ++ distinctFrom (distinct before) (v :: after) :=
    distinctFrom_append [] before (v :: after)
  rw [hsplit, distinctFrom]
  split
  · rename_i hseen
    exact ⟨_, distinctFrom_sublist _ after, .inr ⟨rfl, List.any_eq_true.mp hseen⟩⟩
  · rename_i hnew
    rw [Bool.not_eq_true, List.any_eq_false] at hnew
    refine ⟨_, distinctFrom_sublist _ after, .inl ⟨rfl, fun u hu => ?_⟩⟩
    exact Bool.eq_false_iff.mpr (hnew u hu)

theorem distinct_pairwise (items : List Value) :
    (distinct items).Pairwise fun u v => u.looseEq v = false ∧ v.looseEq u = false := by
  refine (distinctFrom_spec [] items).2.imp fun {u v} h => ⟨h, ?_⟩
  rwa [Value.looseEq_comm]

section FloatFree

variable {items items' : List Value}

/-- Without floating point no value is lost. -/
theorem mem_distinct (h : ∀ v ∈ items, v.FloatFree) {v : Value} :
    v ∈ distinct items ↔ v ∈ items := by
  refine ⟨fun hv => (distinct_sublist items).subset hv, fun hv => ?_⟩
  obtain ⟨before, after, rfl⟩ := List.append_of_mem hv
  obtain ⟨rest, -, ⟨hkept, -⟩ | ⟨hkept, u, hu, huv⟩⟩ := distinct_split before after v
  · simp [hkept]
  · have hbefore : u ∈ before := (distinct_sublist before).subset hu
    have hfree : u.FloatFree := h u (List.mem_append_left _ hbefore)
    obtain rfl := (hfree.looseEq_iff (h v hv)).mp huv
    rw [hkept]
    exact List.mem_append_left _ hu

theorem nodup_distinct (h : ∀ v ∈ items, v.FloatFree) : (distinct items).Nodup := by
  refine List.Pairwise.imp_of_mem ?_ (distinctFrom_spec [] items).2
  rintro u _ hu - huv rfl
  have hfree : u.FloatFree := h u ((distinct_sublist items).subset hu)
  rw [(hfree.looseEq_iff hfree).mpr rfl] at huv
  cases huv

/-- Without floating point items in another order give the same values, in some order. -/
theorem distinct_perm (h : ∀ v ∈ items, v.FloatFree) (hperm : items'.Perm items) :
    (distinct items').Perm (distinct items) := by
  have h' : ∀ v ∈ items', v.FloatFree := fun v hv => h v (hperm.mem_iff.mp hv)
  refine (List.perm_ext_iff_of_nodup (nodup_distinct h') (nodup_distinct h)).mpr fun v => ?_
  rw [mem_distinct h', mem_distinct h, hperm.mem_iff]

end FloatFree

/-! ## The operator -/

/-- `Distinct` keeps the first item of each value: a part of the items, in their order and with the
first of them, of which no two are equal, while each item that it drops equals one kept before it.
Used on its own result it changes nothing. Without floating point, exactly the values of the items
are kept, and so as many of them in any order of the items. -/
theorem apply_distinct (env : Eval.Env) (scope : Eval.Scope) {m : Method} (hm : m.name = "Distinct")
    (items : List Value) :
    Eval.apply env scope m items [] = pure (.list (distinct items)) ∧
      (distinct items).Sublist items ∧ (distinct items).head? = items.head? ∧
      (distinct items).Pairwise (fun u v => u.looseEq v = false ∧ v.looseEq u = false) ∧
      (∀ before v after, items = before ++ v :: after → ∃ rest, rest.Sublist after ∧
        (distinct items = distinct before ++ v :: rest ∧
            (∀ u ∈ distinct before, u.looseEq v = false) ∨
          distinct items = distinct before ++ rest ∧
            ∃ u ∈ distinct before, u.looseEq v = true)) ∧
      Eval.apply env scope m (distinct items) [] = pure (.list (distinct items)) ∧
      ((∀ v ∈ items, v.FloatFree) → (∀ v, v ∈ distinct items ↔ v ∈ items) ∧
        ∀ items', items'.Perm items → (distinct items').Perm (distinct items)) := by
  have happly : ∀ vs, Eval.apply env scope m vs [] = pure (.list (distinct vs)) := by
    intro vs
    simp only [Eval.apply, collapse, hm]
    rfl
  refine ⟨happly items, distinct_sublist items, distinct_head? items,
    distinct_pairwise items, ?_, ?_, fun h => ⟨fun v => mem_distinct h, ?_⟩⟩
  · rintro before v after rfl
    exact distinct_split before after v
  · rw [happly, distinct_distinct]
  · exact fun items' hperm => distinct_perm h hperm

/-- Of a repeated number and a text both values are kept, also in another order. -/
theorem apply_distinct_mixed :
    Method.name (.operator "Distinct") = "Distinct" ∧
      Eval.apply (.closed ⟨fun _ => ⟨0⟩, fun _ => ⟨0, 0⟩⟩) [] (.operator "Distinct")
          [.int 1, .string "a", .int 1] [] = pure (.list [.int 1, .string "a"]) ∧
      (∀ v ∈ [Value.int 1, .string "a", .int 1], v.FloatFree) ∧
      (distinct [.string "a", .int 1, .int 1]).length = 2 := by
  have hname : Method.name (.operator "Distinct") = "Distinct" := rfl
  have hfree : ∀ v ∈ [Value.int 1, .string "a", .int 1], v.FloatFree := by
    simp [Value.FloatFree.int, Value.FloatFree.string]
  obtain ⟨happly, -, -, -, -, -, hmixed⟩ := apply_distinct (.closed ⟨fun _ => ⟨0⟩, fun _ => ⟨0, 0⟩⟩)
    [] hname [.int 1, .string "a", .int 1]
  have hdistinct : distinct [.int 1, .string "a", .int 1] = [.int 1, .string "a"] := by
    simp [distinct, distinctFrom, Value.looseEq, Value.same]
  rw [hdistinct] at happly hmixed
  have hswapped : [Value.string "a", .int 1, .int 1].Perm [.int 1, .string "a", .int 1] :=
    .swap _ _ _
  exact ⟨hname, happly, hfree, ((hmixed hfree).2 _ hswapped).length_eq⟩

end Items

end DeferredQuery
