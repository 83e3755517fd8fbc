import DeferredQuery.Proofs.Eval.Families

/-!
# The answers that an evaluation reads

An evaluation reads the answers of its oracle one by one, from where the oracle stands to where it
is left. What it gives depends on no other answers, and on the answers alone, not on where they
stand.
-/

namespace DeferredQuery.Eval

/-- What one oracle answers `i` calls after `n` is what another answers `i` calls after `n'`. -/
def Agree (o o' : Oracle) (n n' i : Nat) : Prop :=
  o.uuid (n + i) = o'.uuid (n' + i) ∧ o.clock (n + i) = o'.clock (n' + i)

/-- The computation gives the same value over oracles that agree on as many answers as it draws, and
fails in the same way over oracles that agree on all answers. -/
structure Local {α : Type} (m : Oracle → EvalM α) : Prop where
  ok : ∀ {o n v k}, m o n = .ok (v, k) → ∃ d, k = n + d ∧
    ∀ o' n', (∀ i < d, Agree o o' n n' i) → m o' n' = .ok (v, n' + d)
  error : ∀ {o n err}, m o n = .error err →
    ∀ o' n', (∀ i, Agree o o' n n' i) → m o' n' = .error err

theorem Agree.shift {o o' : Oracle} {n n' d i : Nat} (h : Agree o o' n n' (d + i)) :
    Agree o o' (n + d) (n' + d) i := by
  simpa only [Agree, Nat.add_assoc] using h

theorem local_lift {α : Type} (x : Except EvalError α) :
    Local fun _ => (liftM x : EvalM α) where
  ok := by
    intro o n v k h
    obtain ⟨rfl, rfl⟩ := lift_eq_ok.mp h
    exact ⟨0, rfl, fun o' n' _ => rfl⟩
  error := by
    intro o n err h o' n' _
    cases x with
    | ok v => cases h
    | error e =>
        cases h
        rfl

/-- The draws of both computations follow one another in the answers. -/
theorem Local.bind {α β : Type} {m : Oracle → EvalM α} {f : Oracle → α → EvalM β}
    (hm : Local m) (hf : ∀ v, Local fun oracle => f oracle v) :
    Local fun oracle => m oracle >>= f oracle where
  ok := by
    intro o n w k h
    obtain ⟨v, j, hv, hw⟩ := bind_eq_ok.mp h
    obtain ⟨d, rfl, hm'⟩ := hm.ok hv
    obtain ⟨d', rfl, hf'⟩ := (hf v).ok hw
    refine ⟨d + d', by omega, fun o' n' hagree => ?_⟩
    have hfirst := hm' o' n' fun i hi => hagree i (by omega)
    have hsecond := hf' o' (n' + d) fun i hi => (hagree (d + i) (by omega)).shift
    rw [← Nat.add_assoc]
    exact bind_eq_ok.mpr ⟨v, n' + d, hfirst, hsecond⟩
  error := by
    intro o n err h o' n' hagree
    rcases bind_eq_error.mp h with herr | ⟨v, j, hv, herr⟩
    · exact bind_eq_error.mpr (.inl (hm.error herr o' n' hagree))
    · obtain ⟨d, rfl, hm'⟩ := hm.ok hv
      have hsecond := (hf v).error herr o' (n' + d) fun i => (hagree (d + i)).shift
      exact bind_eq_error.mpr (.inr ⟨v, n' + d, hm' o' n' fun i _ => hagree i, hsecond⟩)

theorem compositional_local : Compositional fun _ m => Local m where
  lift := local_lift
  bind := .bind

theorem local_draw {α : Type} {answers : Oracle → Nat → α}
    (h : ∀ o o' n n', Agree o o' n n' 0 → answers o n = answers o' n') :
    Local fun oracle => draw (answers oracle) where
  ok := by
    rintro o n _ _ ⟨⟩
    refine ⟨1, rfl, fun o' n' hagree => ?_⟩
    rw [draw, h o o' n n' (hagree 0 Nat.one_pos)]
  error := by
    rintro o n err ⟨⟩

theorem local_call (params : Option Bindings) (rows : Option RowSource) {m : Method}
    (hm : m.isVolatile = true) :
    Local fun oracle => Env.call ⟨params, rows, oracle⟩ m none [] := by
  simp only [Env.call, hm, Option.isNone_none, List.isEmpty_nil, Bool.and_self, if_true]
  split
  · exact (local_draw fun _ _ _ _ h => h.1).bind fun v => compositional_local.pure _
  · exact (local_draw fun _ _ _ _ h => h.2).bind fun v => compositional_local.pure _

theorem local_evaluate (params : Option Bindings) (rows : Option RowSource) (e : Expr) :
    Local fun oracle => evaluate ⟨params, rows, oracle⟩ e :=
  (pervades_of_draws compositional_local fun _ _ _ hm => local_call params rows hm).value []

theorem Local.run'_eq {α : Type} {m : Oracle → EvalM α} (hm : Local m) {o o' : Oracle} {n n' : Nat}
    (hagree : ∀ i, Agree o o' n n' i) : (m o').run' n' = (m o).run' n := by
  cases hr : (m o).run' n with
  | error err => exact run'_eq_error.mpr (hm.error (run'_eq_error.mp hr) o' n' hagree)
  | ok v =>
      obtain ⟨k, hv⟩ := run'_eq_ok.mp hr
      obtain ⟨d, -, hm'⟩ := hm.ok hv
      exact run'_eq_ok.mpr ⟨n' + d, hm' o' n' fun i _ => hagree i⟩

/-! ## Oracles put together -/

/-- The answers of one oracle before `k`, then those of another from `n` on. -/
def Oracle.splice (o : Oracle) (k : Nat) (o' : Oracle) (n : Nat) : Oracle where
  uuid i := if i < k then o.uuid i else o'.uuid (n + (i - k))
  clock i := if i < k then o.clock i else o'.clock (n + (i - k))

theorem agree_splice_before {o o' : Oracle} {j k n i : Nat} (hi : j + i < k) :
    Agree o (o.splice k o' n) j j i := by
  simp [Agree, Oracle.splice, hi]

theorem agree_splice_after (o o' : Oracle) (k n i : Nat) :
    Agree o' (o.splice k o' n) n k i := by
  have hafter : ¬ k + i < k := Nat.not_lt.mpr (Nat.le_add_right k i)
  simp [Agree, Oracle.splice, hafter]

end DeferredQuery.Eval
