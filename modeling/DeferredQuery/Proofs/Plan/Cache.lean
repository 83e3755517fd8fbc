import DeferredQuery.Plan.Cache
import Mathlib.Algebra.GroupWithZero.Nat
import Mathlib.Data.List.Induction
import Mathlib.Data.List.Nodup

/-!
# Runs of a plan store

Every operation of a store takes effect at once, so the operations of any number of callers form
one sequence. Along all such sequences, whatever entries are dropped to make room, the entries have
distinct keys and stay within the capacity, a key keeps the first plan stored under it for as long
as it is present, and the statistics tell what happened.
-/

namespace DeferredQuery

namespace PlanStore

variable {α : Type}

inductive Op (α : Type) where
  | get (key : PlanKey)
  | insert (key : PlanKey) (a : α)
  | clear

def step (s : PlanStore α) : Op α → PlanStore α
  | .get key => (s.get key).2
  | .insert key a => (s.insert key a).2
  | .clear => s.clear

def after (s : PlanStore α) (ops : List (Op α)) : PlanStore α := ops.foldl step s

@[simp] theorem after_nil (s : PlanStore α) : s.after [] = s := rfl

@[simp] theorem after_cons (s : PlanStore α) (op : Op α) (ops : List (Op α)) :
    s.after (op :: ops) = (s.step op).after ops := rfl

@[simp] theorem after_append (s : PlanStore α) (ops ops' : List (Op α)) :
    s.after (ops ++ ops') = (s.after ops).after ops' := by
  simp [after]

/-! ## Entries -/

section Entries

variable {s : PlanStore α} {k k' : PlanKey} {a b : α}

theorem mem_of_find? (h : s.find? k = some a) : (k, a) ∈ s.entries := by
  obtain ⟨entry, hentry, rfl⟩ := Option.map_eq_some_iff.mp h
  obtain rfl : entry.1 = k := by simpa using List.find?_some hentry
  exact List.mem_of_find?_eq_some hentry

theorem find?_eq_none_iff : s.find? k = none ↔ k ∉ s.entries.map Prod.fst := by
  simp only [find?, Option.map_eq_none_iff, List.find?_eq_none, beq_iff_eq, List.mem_map,
    not_exists, not_and]

theorem mem_of_mem_makeRoom {entry : PlanKey × α} (h : entry ∈ s.makeRoom.entries) :
    entry ∈ s.entries := by
  unfold makeRoom at h
  split at h
  · exact List.mem_of_mem_eraseIdx h
  · exact h

def Distinct (s : PlanStore α) : Prop := (s.entries.map Prod.fst).Nodup

theorem Distinct.find?_of_mem (hs : s.Distinct) (h : (k, a) ∈ s.entries) : s.find? k = some a := by
  cases hfind : s.find? k with
  | none => exact absurd (List.mem_map_of_mem h) (find?_eq_none_iff.mp hfind)
  | some b =>
      have hb := mem_of_find? hfind
      have hpair := List.inj_on_of_nodup_map hs hb h rfl
      exact congrArg some (congrArg Prod.snd hpair)

theorem Distinct.makeRoom (hs : s.Distinct) : s.makeRoom.Distinct := by
  unfold Distinct PlanStore.makeRoom
  split
  · exact hs.sublist ((List.eraseIdx_sublist _ _).map _)
  · exact hs

theorem find?_append (entries : List (PlanKey × α)) :
    find? { s with entries := entries ++ [(k', b)] } k =
      (find? { s with entries } k).or (if k' = k then some b else none) := by
  unfold find?
  rw [List.find?_append]
  cases hfind : entries.find? fun e => e.1 == k with
  | some e => rfl
  | none => by_cases hk : k' = k <;> simp [hk]

theorem insert_of_find? (h : s.find? k = some a) (b : α) : s.insert k b = (a, s) := by
  simp [insert, h]

theorem insert_of_absent (h : s.find? k = none) (a : α) :
    s.insert k a = (a, { s.makeRoom with entries := s.makeRoom.entries ++ [(k, a)] }) := by
  simp [insert, h]

theorem find?_makeRoom_of_absent (h : s.find? k = none) : s.makeRoom.find? k = none := by
  refine find?_eq_none_iff.mpr fun hk => find?_eq_none_iff.mp h ?_
  obtain ⟨entry, hentry, rfl⟩ := List.mem_map.mp hk
  exact List.mem_map_of_mem (mem_of_mem_makeRoom hentry)

/-- A new entry is found; the one dropped to make room is never the new one. -/
theorem find?_insert_of_absent (h : s.find? k = none) (a : α) :
    (s.insert k a).2.find? k = some a := by
  have hroom : s.makeRoom.find? k = none := find?_makeRoom_of_absent h
  rw [insert_of_absent h, find?_append, hroom]
  simp

theorem contains_insert (s : PlanStore α) (k : PlanKey) (a : α) :
    (s.insert k a).2.contains k = true := by
  unfold contains
  cases h : s.find? k with
  | none => rw [find?_insert_of_absent h]; rfl
  | some kept => rw [insert_of_find? h, h]; rfl

/-- Without a capacity nothing is dropped. -/
theorem makeRoom_of_unbounded (h : s.capacity = 0) : s.makeRoom = s := by
  simp [makeRoom, isFull, h]

theorem find?_insert_of_unbounded (hs : s.capacity = 0) (h : s.find? k = some a) (b : α) :
    (s.insert k' b).2.find? k = some a := by
  cases hk' : s.find? k' with
  | some kept => rw [insert_of_find? hk', h]
  | none => rw [insert_of_absent hk', find?_append, makeRoom_of_unbounded hs, h]; rfl

end Entries

/-! ## One operation -/

section Step

variable {s : PlanStore α} {k : PlanKey} {a : α}

@[simp] theorem get_answer (s : PlanStore α) (k : PlanKey) : (s.get k).1 = s.find? k := by
  unfold get
  split <;> simp [*]

@[simp] theorem get_entries (s : PlanStore α) (k : PlanKey) :
    (s.get k).2.entries = s.entries := by
  unfold get
  split <;> rfl

@[simp] theorem get_evictions (s : PlanStore α) (k : PlanKey) :
    (s.get k).2.evictions = s.evictions := by
  unfold get
  split <;> rfl

@[simp] theorem step_capacity (s : PlanStore α) (op : Op α) :
    (s.step op).capacity = s.capacity := by
  cases op with
  | get k => unfold step get; dsimp only; split <;> rfl
  | insert k a =>
      unfold step insert makeRoom
      dsimp only
      split
      · rfl
      · split <;> rfl
  | clear => rfl

/-- An insertion adds an entry only under a key that is absent. -/
theorem Distinct.step (hs : s.Distinct) (op : Op α) : (s.step op).Distinct := by
  cases op with
  | get k => simpa [Distinct, PlanStore.step] using hs
  | clear => simp [Distinct, PlanStore.step, clear]
  | insert k a =>
      cases h : s.find? k with
      | some kept => simpa [PlanStore.step, insert_of_find? h] using hs
      | none =>
          have hk := find?_eq_none_iff.mp (find?_makeRoom_of_absent h)
          simp only [Distinct, PlanStore.step, insert_of_absent h, List.map_append,
            List.map_singleton, List.nodup_append, List.nodup_singleton, true_and]
          refine ⟨hs.makeRoom, ?_⟩
          rintro x hx y hy rfl
          exact hk (List.mem_singleton.mp hy ▸ hx)

/-- What is found after an operation was there before it, or the operation stored it under a key
that was absent. -/
theorem find?_step (hs : s.Distinct) {op : Op α} (h : (s.step op).find? k = some a) :
    s.find? k = some a ∨ s.find? k = none ∧ op = .insert k a := by
  cases op with
  | get k' => exact .inl (by simpa [step, find?] using h)
  | clear => simp [step, clear, find?] at h
  | insert k' b =>
      cases hk' : s.find? k' with
      | some kept => exact .inl (by simpa [step, insert_of_find? hk'] using h)
      | none =>
          have hmem := mem_of_find? h
          simp only [step, insert_of_absent hk'] at hmem
          rcases List.mem_append.mp hmem with hmem | hmem
          · exact .inl (hs.find?_of_mem (mem_of_mem_makeRoom hmem))
          · cases List.mem_singleton.mp hmem
            exact .inr ⟨hk', rfl⟩

/-- Dropping an entry is counted, and leaves room for another. -/
theorem length_makeRoom (s : PlanStore α) :
    s.makeRoom.entries.length + s.makeRoom.evictions = s.entries.length + s.evictions ∧
      (0 < s.capacity → s.entries.length ≤ s.capacity →
        s.makeRoom.entries.length < s.capacity) := by
  unfold makeRoom
  split
  · rename_i hfull
    obtain ⟨hpos, hle⟩ : 0 < s.capacity ∧ s.capacity ≤ s.entries.length := by
      simpa [isFull] using hfull
    have hvictim : s.victim s.evictions % s.entries.length < s.entries.length :=
      Nat.mod_lt _ (by omega)
    rw [List.length_eraseIdx_of_lt hvictim]
    dsimp only
    omega
  · rename_i hroom
    have hlt : 0 < s.capacity → s.entries.length < s.capacity := by
      simpa [isFull] using hroom
    exact ⟨rfl, fun hpos _ => hlt hpos⟩

/-- A store with a capacity stays within it. -/
theorem length_step (hpos : 0 < s.capacity) (h : s.entries.length ≤ s.capacity) (op : Op α) :
    (s.step op).entries.length ≤ s.capacity := by
  cases op with
  | get k => simpa [step] using h
  | clear => simp [step, clear]
  | insert k a =>
      cases hk : s.find? k with
      | some kept => simpa [step, insert_of_find? hk] using h
      | none =>
          have hroom := (length_makeRoom s).2 hpos h
          simp only [step, insert_of_absent hk, List.length_append, List.length_singleton]
          exact hroom

theorem evictions_step (h : s.capacity = 0) (op : Op α) :
    (s.step op).evictions = s.evictions := by
  cases op with
  | get k => simp [step]
  | clear => rfl
  | insert k a =>
      cases hk : s.find? k with
      | some kept => simp [step, insert_of_find? hk]
      | none => simp [step, insert_of_absent hk, makeRoom_of_unbounded h]

end Step

/-! ## Runs -/

theorem after_capacity (s : PlanStore α) (ops : List (Op α)) :
    (s.after ops).capacity = s.capacity := by
  induction ops generalizing s with
  | nil => rfl
  | cons op ops ih => rw [after_cons, ih, step_capacity]

theorem Distinct.after {s : PlanStore α} (hs : s.Distinct) (ops : List (Op α)) :
    (s.after ops).Distinct := by
  induction ops generalizing s with
  | nil => exact hs
  | cons op ops ih => exact ih (hs.step op)

theorem length_after {s : PlanStore α} (hpos : 0 < s.capacity)
    (h : s.entries.length ≤ s.capacity) (ops : List (Op α)) :
    (s.after ops).entries.length ≤ s.capacity := by
  induction ops generalizing s with
  | nil => exact h
  | cons op ops ih =>
      have hop := length_step hpos h op
      rw [← step_capacity s op] at hop hpos ⊢
      exact ih hpos hop

theorem evictions_after {s : PlanStore α} (h : s.capacity = 0) (ops : List (Op α)) :
    (s.after ops).evictions = s.evictions := by
  induction ops generalizing s with
  | nil => rfl
  | cons op ops ih => rw [after_cons, ih ((step_capacity s op).trans h), evictions_step h]

/-- Among the operations is one that stored the plan under the key, which was absent before and
has been present ever since. -/
def Keeps (s : PlanStore α) (ops : List (Op α)) (k : PlanKey) (a : α) : Prop :=
  ∃ before since, ops = before ++ .insert k a :: since ∧ (s.after before).contains k = false ∧
    ∀ p, p <+: since → (s.after (before ++ .insert k a :: p)).contains k = true

/-- The store has exactly the plans that were stored first under keys present ever since. -/
theorem find?_after_iff {s : PlanStore α} (hs : s.entries = []) {ops : List (Op α)} {k : PlanKey}
    {a : α} : (s.after ops).find? k = some a ↔ s.Keeps ops k a := by
  have hdistinct : s.Distinct := by simp [Distinct, hs]
  constructor
  · intro h
    induction ops using List.reverseRecOn generalizing a with
    | nil => simp [find?, hs] at h
    | append_singleton ops op ih =>
        have hpresent : (s.after (ops ++ [op])).contains k = true :=
          Option.isSome_iff_exists.mpr ⟨a, h⟩
        rw [after_append] at h
        rcases find?_step (hdistinct.after ops) h with hold | ⟨habsent, rfl⟩
        · obtain ⟨before, since, rfl, hbefore, hsince⟩ := ih hold
          refine ⟨before, since ++ [op], by simp, hbefore, fun p hp => ?_⟩
          rcases List.prefix_concat_iff.mp hp with rfl | hp
          · simpa using hpresent
          · exact hsince p hp
        · refine ⟨ops, [], rfl, by simp [contains, habsent], fun p hp => ?_⟩
          obtain rfl := List.prefix_nil.mp hp
          exact hpresent
  · rintro ⟨before, since, rfl, hbefore, hsince⟩
    have habsent : (s.after before).find? k = none := by simpa [contains] using hbefore
    induction since using List.reverseRecOn with
    | nil => simpa [step] using find?_insert_of_absent habsent a
    | append_singleton since op ih =>
        have hfound := ih fun p hp => hsince p (hp.trans (List.prefix_append _ _))
        have hpresent := hsince _ (List.prefix_refl _)
        obtain ⟨b, hb⟩ := Option.isSome_iff_exists.mp hpresent
        rw [← List.cons_append, ← List.append_assoc] at hb ⊢
        rw [hb]
        rw [after_append] at hb
        rcases find?_step (hdistinct.after _) hb with hold | ⟨hnone, -⟩
        · exact hold.symm.trans hfound
        · cases hnone.symm.trans hfound

theorem Keeps.mem {s : PlanStore α} {ops : List (Op α)} {k : PlanKey} {a : α}
    (h : s.Keeps ops k a) : .insert k a ∈ ops := by
  obtain ⟨before, since, rfl, -⟩ := h
  simp

/-! ## Statistics -/

/-- The operations, each with the store that it found. -/
def trail (s : PlanStore α) : List (Op α) → List (PlanStore α × Op α)
  | [] => []
  | op :: ops => (s, op) :: trail (s.step op) ops

namespace Op

def isGet : Op α → Bool
  | get _ => true
  | _ => false

def hits (s : PlanStore α) : Op α → Bool
  | get key => (s.get key).1.isSome
  | _ => false

def stores (s : PlanStore α) : Op α → Bool
  | insert key _ => !s.contains key
  | _ => false

/-- The number of entries that are removed to empty the store. -/
def cleared (s : PlanStore α) : Op α → Nat
  | clear => s.entries.length
  | _ => 0

end Op

theorem hits_step (s : PlanStore α) (op : Op α) :
    (s.step op).hits = s.hits + if op.hits s then 1 else 0 := by
  cases op with
  | get k => cases hk : s.find? k <;> simp [step, get, Op.hits, hk]
  | clear => rfl
  | insert k a =>
      unfold step insert makeRoom
      dsimp only
      split
      · rfl
      · split <;> rfl

theorem lookups_step (s : PlanStore α) (op : Op α) :
    (s.step op).hits + (s.step op).misses = s.hits + s.misses + if op.isGet then 1 else 0 := by
  cases op with
  | get k => cases hk : s.find? k <;> simp [step, get, Op.isGet, hk] <;> omega
  | clear => rfl
  | insert k a =>
      unfold step insert makeRoom
      dsimp only
      split
      · rfl
      · split <;> rfl

/-- What was stored is there, was dropped or was cleared. -/
theorem stored_step (s : PlanStore α) (op : Op α) :
    (s.step op).entries.length + (s.step op).evictions + op.cleared s =
      s.entries.length + s.evictions + if op.stores s then 1 else 0 := by
  cases op with
  | get k => simp [step, Op.cleared, Op.stores]
  | clear => simp [step, clear, Op.cleared, Op.stores]; omega
  | insert k a =>
      cases hk : s.find? k with
      | some kept => simp [step, insert_of_find? hk, Op.cleared, Op.stores, contains, hk]
      | none =>
          have hroom := (length_makeRoom s).1
          simp [step, insert_of_absent hk, Op.cleared, Op.stores, contains, hk]
          omega

theorem hits_after (s : PlanStore α) (ops : List (Op α)) :
    (s.after ops).hits = s.hits + (s.trail ops).countP fun e => e.2.hits e.1 := by
  induction ops generalizing s with
  | nil => rfl
  | cons op ops ih =>
      rw [after_cons, ih, hits_step, trail, List.countP_cons]
      dsimp only
      omega

theorem lookups_after (s : PlanStore α) (ops : List (Op α)) :
    (s.after ops).hits + (s.after ops).misses =
      s.hits + s.misses + ops.countP Op.isGet := by
  induction ops generalizing s with
  | nil => rfl
  | cons op ops ih =>
      rw [after_cons, ih, lookups_step, List.countP_cons]
      omega

/-- Every entry that was ever stored is there, was dropped to make room, or was cleared. -/
theorem stored_after (s : PlanStore α) (ops : List (Op α)) :
    (s.after ops).entries.length + (s.after ops).evictions +
        ((s.trail ops).map fun e => e.2.cleared e.1).sum =
      s.entries.length + s.evictions + (s.trail ops).countP fun e => e.2.stores e.1 := by
  induction ops generalizing s with
  | nil => rfl
  | cons op ops ih =>
      have htail := ih (s.step op)
      have hstep := stored_step s op
      rw [after_cons, trail, List.map_cons, List.sum_cons, List.countP_cons]
      dsimp only
      omega

/-! ## Stores that start empty -/

/-- What holds after any operations on an empty store, whatever its capacity and its victims. -/
theorem after_empty_sound (capacity : Nat) (victim : Nat → Nat) (ops : List (Op α)) :
    let start : PlanStore α := empty capacity victim
    let s := start.after ops
    (0 < capacity → s.stats.size ≤ capacity) ∧
    (capacity = 0 → s.stats.evictions = 0 ∧
      ∀ k a k' b, s.find? k = some a → (s.insert k' b).2.find? k = some a) ∧
    (∀ k a, (s.get k).1 = some a ↔ start.Keeps ops k a) ∧
    (∀ k a b, start.Keeps ops k a → s.insert k b = (a, s)) ∧
    (∀ k b, s.contains k = true → (s.insert k b).2 = s) ∧
    (∀ k b, (s.insert k b).2.contains k = true) ∧
    (∀ k a, (s.get k).1 = some a → .insert k a ∈ ops) ∧
    (∀ k b, .insert k (s.insert k b).1 ∈ ops ++ [.insert k b]) ∧
    s.stats.hits + s.stats.misses = ops.countP Op.isGet ∧
    s.stats.hits = ((start.trail ops).countP fun e => e.2.hits e.1) ∧
    ((start.trail ops).countP fun e => e.2.stores e.1) =
      s.stats.size + s.stats.evictions + ((start.trail ops).map fun e => e.2.cleared e.1).sum := by
  intro start s
  have hempty : start.entries = [] := rfl
  have hcapacity : s.capacity = capacity := after_capacity start ops
  have hkeeps : ∀ k a, (s.get k).1 = some a ↔ start.Keeps ops k a := by
    intro k a
    rw [get_answer]
    exact find?_after_iff hempty
  have hfind : ∀ k a, start.Keeps ops k a → s.find? k = some a := fun k a h =>
    (find?_after_iff hempty).mpr h
  refine ⟨fun hpos => length_after hpos (Nat.zero_le _) ops,
    fun hzero => ⟨evictions_after hzero ops, fun k a k' b => ?_⟩, hkeeps,
    fun k a b h => insert_of_find? (hfind k a h) b, fun k b h => ?_, contains_insert s,
    fun k a h => ((hkeeps k a).mp h).mem, fun k b => ?_, ?_, ?_, ?_⟩
  · exact fun h => find?_insert_of_unbounded (hcapacity.trans hzero) h b
  · obtain ⟨a, ha⟩ := Option.isSome_iff_exists.mp h
    rw [insert_of_find? ha]
  · cases h : s.find? k with
    | none => simp [insert_of_absent h]
    | some a =>
        have hmem := (find?_after_iff hempty |>.mp h).mem
        simp [insert_of_find? h, hmem]
  · exact (lookups_after start ops).trans (Nat.zero_add _)
  · exact (hits_after start ops).trans (Nat.zero_add _)
  · exact (Nat.zero_add _).symm.trans (stored_after start ops).symm

/-- With room for one plan, a second plan under the first key is not stored, and the plan of
another key takes its place. -/
theorem after_empty_sound_of_two_keys :
    let k : PlanKey := ⟨"shop", .sync, "a"⟩
    let k' : PlanKey := ⟨"shop", .sync, "b"⟩
    let start : PlanStore Nat := empty 1 fun _ => 0
    start.Keeps [.get k, .insert k 1, .insert k 2] k 1 ∧
      ¬ start.Keeps [.insert k 1, .insert k' 3] k 1 ∧
      start.Keeps [.insert k 1, .insert k' 3] k' 3 := by
  intro k k' start
  have hfirst := after_empty_sound 1 (fun _ => 0) [.get k, .insert k 1, .insert k 2]
  have hsecond := after_empty_sound 1 (fun _ => 0) [.insert k 1, .insert k' 3]
  refine ⟨(hfirst.2.2.1 k 1).mp (by decide), fun h => ?_, (hsecond.2.2.1 k' 3).mp (by decide)⟩
  have hanswer := (hsecond.2.2.1 k 1).mpr h
  exact absurd hanswer (by decide)

end PlanStore

end DeferredQuery
