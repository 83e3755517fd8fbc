import Mathlib.Data.List.Basic

/-!
# Stable sorts

A comparison need not order all values of a type, only the items of the list that is sorted. On
those it is a total preorder. A stable sort is then the one sorted list that keeps the order of the
items that compare as equal, and so it commutes with filters, with repeated sorts and with the
replacement of each item by several.
-/

namespace DeferredQuery.Stable

variable {α β : Type} {cmp cmp₁ cmp₂ : α → α → Ordering} {l l' ys zs : List α}

/-- The comparison is a total preorder on the items of a list. -/
structure OrdersOn (cmp : α → α → Ordering) (l : List α) : Prop where
  swap : ∀ a ∈ l, ∀ b ∈ l, cmp b a = (cmp a b).swap
  trans : ∀ a ∈ l, ∀ b ∈ l, ∀ c ∈ l, cmp a b ≠ .gt → cmp b c ≠ .gt → cmp a c ≠ .gt

def sort (cmp : α → α → Ordering) (l : List α) : List α := l.mergeSort fun a b => cmp a b != .gt

@[simp] theorem mem_sort {a : α} : a ∈ sort cmp l ↔ a ∈ l := List.mem_mergeSort

theorem sort_of_eq (h : ∀ a b, cmp a b = .eq) : sort cmp l = l := by
  refine List.mergeSort_of_pairwise (List.pairwise_of_forall_mem_list fun a _ b _ => ?_)
  rw [h]
  rfl

namespace OrdersOn

theorem mono (h : OrdersOn cmp l) (hl : ∀ a ∈ l', a ∈ l) : OrdersOn cmp l' where
  swap a ha b hb := h.swap a (hl a ha) b (hl b hb)
  trans a ha b hb c hc := h.trans a (hl a ha) b (hl b hb) c (hl c hc)

theorem congr (h : OrdersOn cmp₁ l) (hcmp : ∀ a ∈ l, ∀ b ∈ l, cmp₁ a b = cmp₂ a b) :
    OrdersOn cmp₂ l where
  swap a ha b hb := by rw [← hcmp a ha b hb, ← hcmp b hb a ha, h.swap a ha b hb]
  trans a ha b hb c hc hab hbc := by
    rw [← hcmp a ha b hb] at hab
    rw [← hcmp b hb c hc] at hbc
    rw [← hcmp a ha c hc]
    exact h.trans a ha b hb c hc hab hbc

theorem self_eq (h : OrdersOn cmp l) {a : α} (ha : a ∈ l) : cmp a a = .eq := by
  have hswap := h.swap a ha a ha
  cases hcmp : cmp a a <;> simp [hcmp] at hswap ⊢

theorem eq_of_le_of_le (h : OrdersOn cmp l) {a b : α} (ha : a ∈ l) (hb : b ∈ l)
    (hab : cmp a b ≠ .gt) (hba : cmp b a ≠ .gt) : cmp a b = .eq := by
  have hswap := h.swap a ha b hb
  cases hcmp : cmp a b <;> simp_all

theorem eq_trans (h : OrdersOn cmp l) {a b c : α} (ha : a ∈ l) (hb : b ∈ l) (hc : c ∈ l)
    (hab : cmp a b = .eq) (hbc : cmp b c = .eq) : cmp a c = .eq := by
  have hba : cmp b a = .eq := by rw [h.swap a ha b hb, hab]; rfl
  have hcb : cmp c b = .eq := by rw [h.swap b hb c hc, hbc]; rfl
  have hac : cmp a c ≠ .gt := h.trans a ha b hb c hc (by simp [hab]) (by simp [hbc])
  have hca : cmp c a ≠ .gt := h.trans c hc b hb a ha (by simp [hcb]) (by simp [hba])
  exact h.eq_of_le_of_le ha hc hac hca

/-- Ties under one comparison are broken by another. -/
theorem lex (h₁ : OrdersOn cmp₁ l) (h₂ : OrdersOn cmp₂ l) :
    OrdersOn (fun a b => (cmp₁ a b).then (cmp₂ a b)) l where
  swap a ha b hb := by rw [Ordering.swap_then, h₁.swap a ha b hb, h₂.swap a ha b hb]
  trans a ha b hb c hc hab hbc := by
    have hle : ∀ o p : Ordering, o.then p ≠ .gt ↔ o ≠ .gt ∧ (o = .eq → p ≠ .gt) := by decide
    rw [hle] at hab hbc ⊢
    refine ⟨h₁.trans a ha b hb c hc hab.1 hbc.1, fun hac => ?_⟩
    have hca : cmp₁ c a = .eq := by rw [h₁.swap a ha c hc, hac]; rfl
    have hba : cmp₁ b a ≠ .gt := h₁.trans b hb c hc a ha hbc.1 (by simp [hca])
    have hcb : cmp₁ c b ≠ .gt := h₁.trans c hc a ha b hb (by simp [hca]) hab.1
    have heq := h₁.eq_of_le_of_le ha hb hab.1 hba
    have heq' := h₁.eq_of_le_of_le hb hc hbc.1 hcb
    exact h₂.trans a ha b hb c hc (hab.2 heq) (hbc.2 heq')

/-- A comparison of items by what a function makes of them. -/
theorem comap {cmp : β → β → Ordering} {f : α → β} (h : OrdersOn cmp (l.map f)) :
    OrdersOn (fun a b => cmp (f a) (f b)) l where
  swap _ ha _ hb := h.swap _ (List.mem_map_of_mem ha) _ (List.mem_map_of_mem hb)
  trans _ ha _ hb _ hc :=
    h.trans _ (List.mem_map_of_mem ha) _ (List.mem_map_of_mem hb) _ (List.mem_map_of_mem hc)

theorem reverse (h : OrdersOn cmp l) : OrdersOn (fun a b => (cmp a b).swap) l where
  swap a ha b hb := by rw [h.swap a ha b hb]
  trans a ha b hb c hc hab hbc := by
    rw [← h.swap a ha c hc]
    rw [← h.swap a ha b hb] at hab
    rw [← h.swap b hb c hc] at hbc
    exact h.trans c hc b hb a ha hbc hab

end OrdersOn

/-! ## The sort by its classes -/

theorem sort_attach (cmp : α → α → Ordering) (l : List α) :
    (sort (fun a b : { a // a ∈ l } => cmp a.1 b.1) l.attach).map Subtype.val = sort cmp l := by
  have hmap := @List.map_mergeSort _ _ (fun a b : { a // a ∈ l } => cmp a.1 b.1 != .gt)
    (fun a b => cmp a b != .gt) Subtype.val l.attach fun _ _ _ _ => rfl
  rw [List.attach_map_subtype_val] at hmap
  exact hmap

section Attach

variable (h : OrdersOn cmp l)

include h in
theorem attach_trans (a b c : { a // a ∈ l }) (hab : (cmp a.1 b.1 != .gt) = true)
    (hbc : (cmp b.1 c.1 != .gt) = true) : (cmp a.1 c.1 != .gt) = true := by
  simp only [bne_iff_ne] at *
  exact h.trans a.1 a.2 b.1 b.2 c.1 c.2 hab hbc

include h in
theorem attach_total (a b : { a // a ∈ l }) :
    ((cmp a.1 b.1 != .gt) || (cmp b.1 a.1 != .gt)) = true := by
  rw [h.swap a.1 a.2 b.1 b.2]
  cases cmp a.1 b.1 <;> rfl

end Attach

theorem pairwise_sort (h : OrdersOn cmp l) :
    (sort cmp l).Pairwise fun a b => cmp a b ≠ .gt := by
  rw [← sort_attach, List.pairwise_map]
  have hsorted := List.pairwise_mergeSort (attach_trans h) (attach_total h) l.attach
  refine hsorted.imp fun {a b} hab => ?_
  simpa using hab

/-- The items that compare as equal keep their order. -/
theorem filter_sort_class (h : OrdersOn cmp l) {a : α} (ha : a ∈ l) :
    (sort cmp l).filter (fun b => cmp a b == .eq) = l.filter fun b => cmp a b == .eq := by
  have hclass : (l.attach.filter fun b => cmp a b.1 == .eq).Pairwise
      fun b c => (cmp b.1 c.1 != .gt) = true := by
    refine List.pairwise_of_forall_mem_list fun b hb c hc => ?_
    simp only [List.mem_filter, List.mem_attach, true_and, beq_iff_eq] at hb hc
    have hba : cmp b.1 a = .eq := by rw [h.swap a ha b.1 b.2, hb]; rfl
    simp [h.eq_trans b.2 ha c.2 hba hc]
  have hsub := List.sublist_mergeSort (attach_trans h) (attach_total h) hclass
    List.filter_sublist
  have hsub' := hsub.filter fun b => cmp a b.1 == .eq
  rw [List.filter_filter] at hsub'
  simp only [Bool.and_self] at hsub'
  have hperm := (List.mergeSort_perm l.attach fun b c => cmp b.1 c.1 != .gt).filter
    fun b => cmp a b.1 == .eq
  have heq := hsub'.eq_of_length hperm.length_eq.symm
  have hmap := congrArg (List.map Subtype.val) heq
  rw [← sort_attach cmp l]
  conv_rhs => rw [← List.attach_map_subtype_val l]
  rw [List.filter_map, List.filter_map]
  exact hmap.symm

/-- A sorted list is known by its classes of equal items. -/
theorem eq_of_filter_class (h : OrdersOn cmp l) (hy : ∀ a ∈ ys, a ∈ l) (hz : ∀ a ∈ zs, a ∈ l)
    (hys : ys.Pairwise fun a b => cmp a b ≠ .gt) (hzs : zs.Pairwise fun a b => cmp a b ≠ .gt)
    (hclass : ∀ a ∈ l, ys.filter (fun b => cmp a b == .eq) = zs.filter fun b => cmp a b == .eq) :
    ys = zs := by
  have hmem : ∀ {us vs : List α} {a : α}, a ∈ l →
      us.filter (fun b => cmp a b == .eq) = vs.filter (fun b => cmp a b == .eq) → a ∈ us →
      a ∈ vs := by
    intro us vs a ha hfilter hus
    have hin : a ∈ us.filter fun b => cmp a b == .eq := by simp [hus, h.self_eq ha]
    rw [hfilter] at hin
    exact List.mem_of_mem_filter hin
  induction ys generalizing zs with
  | nil =>
      cases zs with
      | nil => rfl
      | cons z zs =>
          have hzl := hz z List.mem_cons_self
          exact nomatch hmem hzl (hclass z hzl).symm List.mem_cons_self
  | cons y ys ih =>
      have hyl := hy y List.mem_cons_self
      cases zs with
      | nil => exact nomatch hmem hyl (hclass y hyl) List.mem_cons_self
      | cons z zs =>
          have hzl := hz z List.mem_cons_self
          have hzy : cmp z y ≠ .gt := by
            rcases List.mem_cons.mp (hmem hyl (hclass y hyl) List.mem_cons_self) with rfl | hin
            · simp [h.self_eq hyl]
            · exact List.rel_of_pairwise_cons hzs hin
          have hyz : cmp y z ≠ .gt := by
            rcases List.mem_cons.mp (hmem hzl (hclass z hzl).symm List.mem_cons_self) with
              rfl | hin
            · simp [h.self_eq hzl]
            · exact List.rel_of_pairwise_cons hys hin
          have heq := h.eq_of_le_of_le hyl hzl hyz hzy
          obtain rfl : y = z := by
            have hhead := hclass y hyl
            simp only [List.filter_cons, h.self_eq hyl, heq, BEq.rfl, if_true] at hhead
            exact (List.cons.inj hhead).1
          rw [ih (fun a ha => hy a (List.mem_cons_of_mem _ ha))
            (fun a ha => hz a (List.mem_cons_of_mem _ ha)) hys.of_cons hzs.of_cons fun a ha => ?_]
          have hfilter := hclass a ha
          simp only [List.filter_cons] at hfilter
          split at hfilter
          · exact (List.cons.inj hfilter).2
          · exact hfilter

/-! ## What sorts commute with -/

theorem filter_sort (h : OrdersOn cmp l) (p : α → Bool) :
    (sort cmp l).filter p = sort cmp (l.filter p) := by
  have hfilter : ∀ a ∈ l.filter p, a ∈ l := fun a ha => List.mem_of_mem_filter ha
  have hsub := h.mono hfilter
  refine eq_of_filter_class hsub (fun a ha => ?_) (fun a ha => mem_sort.mp ha)
    ((pairwise_sort h).filter p) (pairwise_sort hsub) fun a ha => ?_
  · simpa using ha
  · rw [filter_sort_class hsub ha, List.filter_filter, List.filter_filter]
    simp only [Bool.and_comm _ (p _)]
    rw [← List.filter_filter, filter_sort_class h (hfilter a ha), List.filter_filter]

/-- Items that compare as equal stay in a relation in which the list has them. -/
theorem pairwise_ties (h : OrdersOn cmp l) {R : α → α → Prop} (hR : l.Pairwise R) :
    (sort cmp l).Pairwise fun a b => cmp a b = .eq → R a b := by
  rw [List.pairwise_iff_forall_sublist]
  intro a b hab heq
  have ha : a ∈ l := mem_sort.mp (hab.mem List.mem_cons_self)
  have hclass := hab.filter fun b => cmp a b == .eq
  rw [filter_sort_class h ha] at hclass
  simp only [List.filter_cons, h.self_eq ha, heq, BEq.rfl, if_true, List.filter_nil] at hclass
  exact List.pairwise_iff_forall_sublist.mp hR (hclass.trans List.filter_sublist)

/-- A sort of a sorted list breaks its ties by the earlier sort. -/
theorem sort_sort (h₁ : OrdersOn cmp₁ l) (h₂ : OrdersOn cmp₂ l) :
    sort cmp₁ (sort cmp₂ l) = sort (fun a b => (cmp₁ a b).then (cmp₂ a b)) l := by
  have h₁' : OrdersOn cmp₁ (sort cmp₂ l) := h₁.mono fun a ha => mem_sort.mp ha
  have hlex := h₁.lex h₂
  have hle : ∀ o p : Ordering, o ≠ .gt → (o = .eq → p ≠ .gt) → o.then p ≠ .gt := by decide
  refine eq_of_filter_class hlex (fun a ha => mem_sort.mp (mem_sort.mp ha))
    (fun a ha => mem_sort.mp ha) ?_ (pairwise_sort hlex) fun a ha => ?_
  · have hpair := (pairwise_sort h₁').and (pairwise_ties h₁' (pairwise_sort h₂))
    exact hpair.imp fun hab => hle _ _ hab.1 hab.2
  · have hthen : ∀ o p : Ordering, (o.then p == .eq) = ((p == .eq) && (o == .eq)) := by decide
    rw [filter_sort_class hlex ha]
    simp only [hthen]
    rw [← List.filter_filter, filter_sort_class h₁' (mem_sort.mpr ha), List.filter_filter]
    simp only [Bool.and_comm (_ == _) (cmp₁ _ _ == _)]
    rw [← List.filter_filter, filter_sort_class h₂ ha, List.filter_filter]

theorem map_sort {cmp' : β → β → Ordering} {f : α → β}
    (hf : ∀ a ∈ l, ∀ b ∈ l, cmp' (f a) (f b) = cmp a b) :
    (sort cmp l).map f = sort cmp' (l.map f) :=
  List.map_mergeSort fun a ha b hb => by rw [hf a ha b hb]

/-- Items that are made of ordered ones are ordered as these are. -/
theorem OrdersOn.flatMap (h : OrdersOn cmp l) {cmp' : β → β → Ordering} {f : α → List β}
    (hf : ∀ a ∈ l, ∀ b ∈ l, ∀ x ∈ f a, ∀ y ∈ f b, cmp' x y = cmp a b) :
    OrdersOn cmp' (l.flatMap f) where
  swap x hx y hy := by
    obtain ⟨a, ha, hxa⟩ := List.mem_flatMap.mp hx
    obtain ⟨b, hb, hyb⟩ := List.mem_flatMap.mp hy
    rw [hf a ha b hb x hxa y hyb, hf b hb a ha y hyb x hxa, h.swap a ha b hb]
  trans x hx y hy z hz := by
    obtain ⟨a, ha, hxa⟩ := List.mem_flatMap.mp hx
    obtain ⟨b, hb, hyb⟩ := List.mem_flatMap.mp hy
    obtain ⟨c, hc, hzc⟩ := List.mem_flatMap.mp hz
    rw [hf a ha b hb x hxa y hyb, hf b hb c hc y hyb z hzc, hf a ha c hc x hxa z hzc]
    exact h.trans a ha b hb c hc

/-- Items that come from one item of a sorted list stay together. -/
theorem flatMap_sort (h : OrdersOn cmp l) {cmp' : β → β → Ordering} {f : α → List β}
    (hf : ∀ a ∈ l, ∀ b ∈ l, ∀ x ∈ f a, ∀ y ∈ f b, cmp' x y = cmp a b) :
    (sort cmp l).flatMap f = sort cmp' (l.flatMap f) := by
  have hflat := h.flatMap hf
  refine eq_of_filter_class hflat (fun x hx => ?_) (fun x hx => mem_sort.mp hx) ?_
    (pairwise_sort hflat) fun x hx => ?_
  · simpa using hx
  · rw [List.pairwise_flatMap]
    constructor
    · intro a ha
      have ha := mem_sort.mp ha
      refine List.pairwise_of_forall_mem_list fun x hx y hy => ?_
      rw [hf a ha a ha x hx y hy, h.self_eq ha]
      decide
    · refine (pairwise_sort h).imp_of_mem fun {a b} ha hb hab x hx y hy => ?_
      rw [hf a (mem_sort.mp ha) b (mem_sort.mp hb) x hx y hy]
      exact hab
  · obtain ⟨a, ha, hxa⟩ := List.mem_flatMap.mp hx
    have hclass : ∀ m : List α, (∀ b ∈ m, b ∈ l) →
        (m.flatMap f).filter (fun y => cmp' x y == .eq) =
          (m.filter fun b => cmp a b == .eq).flatMap f := by
      intro m hm
      induction m with
      | nil => rfl
      | cons b m ih =>
          have hb := hm b List.mem_cons_self
          have hcmp : ∀ y ∈ f b, (cmp' x y == .eq) = (cmp a b == .eq) := by
            intro y hy
            rw [hf a ha b hb x hxa y hy]
          rw [List.flatMap_cons, List.filter_append, List.filter_congr hcmp,
            ih fun c hc => hm c (List.mem_cons_of_mem _ hc), List.filter_cons]
          split <;> rename_i heq <;> simp [heq]
    rw [filter_sort_class hflat hx, hclass _ (fun b hb => mem_sort.mp hb), hclass l fun b hb => hb,
      filter_sort_class h ha]

end DeferredQuery.Stable
