import DeferredQuery.Shape.Extract

/-!
# What an extraction binds

The name of a placeholder ends in the number of values that were bound before it, so that no two
values of one extraction share a name. Values are only ever bound behind those that are there.
-/

namespace DeferredQuery.Extract

open Eval (Oracle)

/-! ## Placeholders -/

/-- What follows the last underscore is read off the end. -/
theorem eq_of_append_underscore {xs ys ds es : List Char} (hd : '_' ∉ ds) (he : '_' ∉ es)
    (h : xs ++ '_' :: ds = ys ++ '_' :: es) : ds = es := by
  have htail : ∀ zs cs : List Char, '_' ∉ cs →
      (zs ++ '_' :: cs).reverse.takeWhile (· != '_') = cs.reverse := by
    intro zs cs hcs
    rw [List.reverse_append, List.reverse_cons, List.append_assoc,
      List.takeWhile_append_of_pos]
    · simp
    · intro c hc
      rw [List.mem_reverse] at hc
      rw [bne_iff_ne]
      rintro rfl
      exact hcs hc
  have hreverse : ds.reverse = es.reverse := by rw [← htail xs ds hd, h, htail ys es he]
  simpa using congrArg List.reverse hreverse

theorem placeholder_count {a b : Option String} {i j : Nat}
    (h : placeholder a i = placeholder b j) : i = j := by
  have hlist := congrArg String.toList h
  simp only [placeholder, String.toList_append, List.append_assoc, Nat.toString_eq_ofList_toDigits,
    String.toList_ofList] at hlist
  have hdigits : Nat.toDigits 10 i = Nat.toDigits 10 j :=
    eq_of_append_underscore Nat.underscore_not_in_toDigits Nat.underscore_not_in_toDigits
      (List.append_cancel_left hlist)
  calc
    i = Nat.ofDigitChars 10 (Nat.toDigits 10 i) 0 := Nat.ofDigitChars_ten_toDigits.symm
    _ = Nat.ofDigitChars 10 (Nat.toDigits 10 j) 0 := by rw [hdigits]
    _ = j := Nat.ofDigitChars_ten_toDigits

/-- Each value is bound under a placeholder with its own position. -/
def Numbered (params : Bindings) : Prop :=
  ∀ i x, params[i]? = some x → ∃ base, x.name = placeholder base i

theorem numbered_nil : Numbered [] := by
  intro i x h
  simp at h

theorem Numbered.add {params : Bindings} (h : Numbered params) (name : Option String)
    (v : Value) : Numbered (params.add (placeholder name params.length) v) := by
  intro i x hx
  unfold Bindings.add at hx
  rcases Nat.lt_trichotomy i params.length with hi | rfl | hi
  · rw [List.getElem?_append_left hi] at hx
    exact h i x hx
  · obtain rfl : (⟨placeholder name params.length, v⟩ : Named Value) = x := by simpa using hx
    exact ⟨name, rfl⟩
  · rw [List.getElem?_append_right (Nat.le_of_lt hi), List.getElem?_eq_none (by simp; omega)] at hx
    cases hx

/-- What is bound last stays in its place. -/
theorem getElem?_of_add_prefix {params P : Bindings} {name : String} {v : Value}
    (h : params.add name v <+: P) : P[params.length]? = some ⟨name, v⟩ := by
  refine (List.prefix_iff_getElem?.mp h params.length (by simp [Bindings.add])).trans ?_
  simp [Bindings.add]

/-- The numbers in the names tell placeholders apart. -/
theorem Numbered.find? {params : Bindings} (h : Numbered params) {i : Nat} {x : Named Value}
    (hx : params[i]? = some x) : Named.find? x.name params = some x.value := by
  obtain ⟨base, hbase⟩ := h i x hx
  have hunique : ∀ j y, params[j]? = some y → y.name = x.name → j = i := by
    intro j y hy hname
    obtain ⟨other, hother⟩ := h j y hy
    exact placeholder_count (hother.symm.trans (hname.trans hbase))
  clear h hbase
  induction params generalizing i with
  | nil => simp at hx
  | cons y params ih =>
      rw [Named.find?_cons]
      cases i with
      | zero =>
          obtain rfl : y = x := by simpa using hx
          simp
      | succ i =>
          have hne : y.name ≠ x.name := by
            intro hname
            exact absurd (hunique 0 y rfl hname) (by omega)
          rw [if_neg hne]
          refine ih (by simpa using hx) fun j z hz hname => ?_
          have hj := hunique (j + 1) z (by simpa using hz) hname
          omega

/-! ## Bindings of one extraction -/

/-- A bound computation runs the second part where the first ends, unless that fails. -/
theorem run_bind {ε σ α β : Type} (m : ExceptT ε (StateM σ) α) (f : α → ExceptT ε (StateM σ) β)
    (s : σ) :
    (m >>= f).run s =
      match m.run s with
      | (.ok a, s') => (f a).run s'
      | (.error e, s') => (.error e, s') := by
  change (fun r : Except ε α × σ => (ExceptT.bindCont f r.1 : StateM σ (Except ε β)) r.2)
    (m.run s) = _
  rcases m.run s with ⟨e | a, s'⟩ <;> rfl

/-- A sequence of computations succeeds if both of them do. -/
theorem run_bind_eq_ok {ε σ α β : Type} {m : ExceptT ε (StateM σ) α}
    {f : α → ExceptT ε (StateM σ) β} {s s'' : σ} {b : β} :
    (m >>= f).run s = (.ok b, s'') ↔
      ∃ a s', m.run s = (.ok a, s') ∧ (f a).run s' = (.ok b, s'') := by
  rw [run_bind]
  rcases m.run s with ⟨e | a, s'⟩
  · constructor
    · intro h
      cases h
    · rintro ⟨a, s', h, -⟩
      cases h
  · constructor
    · intro h
      exact ⟨a, s', rfl, h⟩
    · rintro ⟨a', s₁, h, hf⟩
      cases h
      exact hf

/-- Values are bound behind those that are there, each under its number. -/
def Grows (s s' : State) : Prop :=
  s.params <+: s'.params ∧ (Numbered s.params → Numbered s'.params)

theorem Grows.refl (s : State) : Grows s s := ⟨List.prefix_rfl, id⟩

theorem Grows.trans {s s' s'' : State} (h : Grows s s') (h' : Grows s' s'') : Grows s s'' :=
  ⟨h.1.trans h'.1, h'.2 ∘ h.2⟩

/-- Each result of a computation has a property if the values bound by then are among the given
ones. -/
def Yields {α : Type} (P : Bindings) (m : ExtractM α) (Q : α → Prop) : Prop :=
  ∀ s a s', m.run s = (.ok a, s') → Grows s s' ∧ (s'.params <+: P → Q a)

section Yields

variable {α β : Type} {P : Bindings} {m : ExtractM α} {f : α → ExtractM β} {Q Q' : α → Prop}
  {R : β → Prop}

theorem Yields.pure {a : α} (h : Q a) : Yields P (Pure.pure a) Q := by
  rintro s _ _ ⟨⟩
  exact ⟨.refl s, fun _ => h⟩

theorem Yields.mono (hm : Yields P m Q) (h : ∀ a, Q a → Q' a) : Yields P m Q' :=
  fun s a s' hrun => ⟨(hm s a s' hrun).1, fun hP => h a ((hm s a s' hrun).2 hP)⟩

theorem Yields.bind (hm : Yields P m Q) (hf : ∀ a, Yields P (f a) fun b => Q a → R b) :
    Yields P (m >>= f) R := by
  intro s b s'' hrun
  obtain ⟨a, s', hm', hf'⟩ := run_bind_eq_ok.mp hrun
  obtain ⟨hgrows, hQ⟩ := hm s a s' hm'
  obtain ⟨hgrows', hR⟩ := hf a s' b s'' hf'
  exact ⟨hgrows.trans hgrows', fun hP => hR hP (hQ (hgrows'.1.trans hP))⟩

end Yields

end DeferredQuery.Extract
