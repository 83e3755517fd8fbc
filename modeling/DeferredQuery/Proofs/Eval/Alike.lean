import DeferredQuery.Eval.Basic

/-!
# Computations with the same results

Two computations are alike when from every position of the oracle both succeed with the same value
and the same position after it, or both fail. Their errors may differ.
-/

namespace DeferredQuery

theorem bind_eq_ok {ε α β : Type} {x : Except ε α} {f : α → Except ε β} {b : β} :
    (x >>= f) = .ok b ↔ ∃ a, x = .ok a ∧ f a = .ok b := by
  cases x with
  | error e => simp [bind, Except.bind]
  | ok a => simp [bind, Except.bind]

namespace Eval

variable {ε α β : Type}

theorem pure_eq_ok {v w : α} {n k : Nat} :
    (pure v : StateT Nat (Except ε) α) n = .ok (w, k) ↔ v = w ∧ n = k := by
  change Except.ok (v, n) = Except.ok (w, k) ↔ _
  simp

theorem bind_eq_ok {m : StateT Nat (Except ε) α} {f : α → StateT Nat (Except ε) β} {n k : Nat}
    {w : β} :
    (m >>= f) n = .ok (w, k) ↔ ∃ v j, m n = .ok (v, j) ∧ f v j = .ok (w, k) := by
  change (m n >>= fun p => f p.1 p.2) = _ ↔ _
  cases hm : m n with
  | error e => simp [bind, Except.bind]
  | ok p =>
      obtain ⟨v, j⟩ := p
      constructor
      · intro h
        exact ⟨v, j, rfl, h⟩
      · rintro ⟨v', j', h, hf⟩
        cases h
        exact hf

/-- The second computation fails where the first one leaves the oracle. -/
theorem bind_eq_error {m : StateT Nat (Except ε) α} {f : α → StateT Nat (Except ε) β} {n : Nat}
    {e : ε} :
    (m >>= f) n = .error e ↔
      m n = .error e ∨ ∃ v j, m n = .ok (v, j) ∧ f v j = .error e := by
  change (m n >>= fun p => f p.1 p.2) = _ ↔ _
  cases hm : m n with
  | error e' => simp [bind, Except.bind]
  | ok p =>
      obtain ⟨v, j⟩ := p
      constructor
      · intro h
        exact .inr ⟨v, j, rfl, h⟩
      · rintro (h | ⟨v', j', h, hf⟩)
        · cases h
        · cases h
          exact hf

theorem bind_apply_of_ok {m : StateT Nat (Except ε) α} {f : α → StateT Nat (Except ε) β}
    {n k : Nat} {v : α} (h : m n = .ok (v, k)) : (m >>= f) n = f v k := by
  change (m n >>= fun p => f p.1 p.2) = f v k
  rw [h]
  rfl

theorem bind_apply_of_error {m : StateT Nat (Except ε) α} (f : α → StateT Nat (Except ε) β)
    {n : Nat} {e : ε} (h : m n = .error e) : (m >>= f) n = .error e :=
  bind_eq_error.mpr (.inl h)

theorem run'_eq_ok {m : StateT Nat (Except ε) α} {n : Nat} {v : α} :
    m.run' n = .ok v ↔ ∃ k, m n = .ok (v, k) := by
  change (m n).map Prod.fst = .ok v ↔ _
  cases m n with
  | error e => simp [Except.map]
  | ok p =>
      constructor
      · rintro ⟨⟩
        exact ⟨p.2, rfl⟩
      · rintro ⟨k, ⟨⟩⟩
        rfl

theorem run'_eq_error {m : StateT Nat (Except ε) α} {n : Nat} {e : ε} :
    m.run' n = .error e ↔ m n = .error e := by
  change (m n).map Prod.fst = .error e ↔ _
  cases m n <;> simp [Except.map]

theorem lift_eq_ok {x : Except ε α} {v : α} {n k : Nat} :
    (liftM x : StateT Nat (Except ε) α) n = .ok (v, k) ↔ x = .ok v ∧ n = k := by
  change (x >>= fun a => pure (a, n)) = _ ↔ _
  cases x with
  | error e => simp [bind, Except.bind]
  | ok a => simp [bind, Except.bind, pure, Except.pure]

theorem lift_bind_lift (x : Except ε α) (g : α → Except ε β) :
    ((liftM x : StateT Nat (Except ε) α) >>= fun a => liftM (g a)) = liftM (x >>= g) := by
  cases x <;> rfl

theorem lift_bind_pure (x : Except ε α) (g : α → β) :
    ((liftM x : StateT Nat (Except ε) α) >>= fun a => pure (g a)) =
      liftM (x >>= fun a => pure (g a)) := by
  cases x <;> rfl

theorem throw_ne_ok {e : ε} {v : α} {n k : Nat} :
    (throw e : StateT Nat (Except ε) α) n ≠ .ok (v, k) := by
  change Except.error e ≠ _
  simp

/-! ## Failing computations -/

/-- The computation fails wherever the oracle stands. -/
def Fails (m : EvalM α) : Prop := ∀ n v k, m n ≠ .ok (v, k)

theorem fails_throw (e : EvalError) : Fails (throw e : EvalM α) := fun _ _ _ => throw_ne_ok

theorem Fails.bind {m : EvalM α} (h : Fails m) (f : α → EvalM β) : Fails (m >>= f) := by
  intro n v k hv
  obtain ⟨w, j, hw, -⟩ := bind_eq_ok.mp hv
  exact h n w j hw

theorem fails_bind (m : EvalM α) {f : α → EvalM β} (h : ∀ v, Fails (f v)) : Fails (m >>= f) := by
  intro n v k hv
  obtain ⟨w, j, -, hf⟩ := bind_eq_ok.mp hv
  exact h w j v k hf

/-! ## Alike computations -/

def Alike (m₁ m₂ : EvalM α) : Prop := ∀ n v k, m₁ n = .ok (v, k) ↔ m₂ n = .ok (v, k)

namespace Alike

variable {m₁ m₂ m₃ : EvalM α} {f g : α → EvalM β}

theorem refl (m : EvalM α) : Alike m m := fun _ _ _ => Iff.rfl

theorem of_eq (h : m₁ = m₂) : Alike m₁ m₂ := h ▸ refl m₁

theorem symm (h : Alike m₁ m₂) : Alike m₂ m₁ := fun n v k => (h n v k).symm

theorem trans (h₁ : Alike m₁ m₂) (h₂ : Alike m₂ m₃) : Alike m₁ m₃ :=
  fun n v k => (h₁ n v k).trans (h₂ n v k)

theorem of_fails (h₁ : Fails m₁) (h₂ : Fails m₂) : Alike m₁ m₂ :=
  fun n v k => ⟨fun h => (h₁ n v k h).elim, fun h => (h₂ n v k h).elim⟩

/-- Only the values that the first computation gives need to be followed alike. -/
theorem bind_of_results (h : Alike m₁ m₂)
    (hf : ∀ n v k, m₂ n = .ok (v, k) → Alike (f v) (g v)) : Alike (m₁ >>= f) (m₂ >>= g) := by
  intro n w k
  rw [bind_eq_ok, bind_eq_ok]
  constructor
  · rintro ⟨v, j, hv, hw⟩
    have hv' := (h n v j).mp hv
    exact ⟨v, j, hv', (hf n v j hv' j w k).mp hw⟩
  · rintro ⟨v, j, hv, hw⟩
    exact ⟨v, j, (h n v j).mpr hv, (hf n v j hv j w k).mpr hw⟩

theorem bind (h : Alike m₁ m₂) (hf : ∀ v, Alike (f v) (g v)) : Alike (m₁ >>= f) (m₂ >>= g) :=
  h.bind_of_results fun _ v _ _ => hf v

end Alike

end Eval

end DeferredQuery
