import DeferredQuery.Proofs.Eval.Families

/-!
# Computations without an oracle

A computation is settled when it is one and the same for all oracles and all positions of them:
it draws nothing, and also its errors do not depend on what an oracle answers. Expressions without
drawing calls evaluate to settled computations.
-/

namespace DeferredQuery.Eval

variable {ε α β : Type}

def Settled (m : Oracle → StateT Nat (Except ε) α) : Prop :=
  ∃ x : Except ε α, ∀ oracle, m oracle = liftM x

namespace Settled

variable {m : Oracle → StateT Nat (Except ε) α} {f : Oracle → α → StateT Nat (Except ε) β}

theorem lift (x : Except ε α) : Settled fun _ => (liftM x : StateT Nat (Except ε) α) :=
  ⟨x, fun _ => rfl⟩

theorem pure (v : α) : Settled fun _ => (Pure.pure v : StateT Nat (Except ε) α) := lift (.ok v)

theorem bind (h : Settled m) (hf : ∀ v, Settled fun oracle => f oracle v) :
    Settled fun oracle => m oracle >>= f oracle := by
  obtain ⟨x, hx⟩ := h
  choose y hy using hf
  refine ⟨x >>= y, fun oracle => ?_⟩
  calc
    m oracle >>= f oracle = liftM x >>= fun v => liftM (y v) :=
      congrArg₂ (· >>= ·) (hx oracle) (funext fun v => hy v oracle)
    _ = liftM (x >>= y) := lift_bind_lift x y

end Settled

theorem compositional_settled : Compositional fun _ m => Settled m where
  lift := .lift
  bind := .bind

/-! ## Expressions -/

inductive Items.SettledKeys : (Oracle → List (DeferredQuery.Items.Key EvalM)) → Prop
  | nil : SettledKeys fun _ => []
  | cons {ks : Oracle → List (DeferredQuery.Items.Key EvalM)} {f : Oracle → Value → EvalM Value} :
    SettledKeys ks → (∀ v, Settled fun oracle => f oracle v) → ∀ descending,
      SettledKeys fun oracle => ⟨f oracle, descending⟩ :: ks oracle

theorem Items.SettledKeys.keys {ks : Oracle → List (DeferredQuery.Items.Key EvalM)}
    (h : SettledKeys ks) : Keys (fun _ m => Settled m) ks := by
  induction h with
  | nil => exact .nil
  | cons _ hf descending ih => exact ih.cons hf descending

/-- Over all oracles the values of the expression, its results as a lambda and the sorts that end
in it are settled. -/
structure Settles (params : Option Bindings) (rows : Option RowSource) (e : Expr) : Prop where
  value : ∀ scope, Settled fun oracle => value ⟨params, rows, oracle⟩ scope e
  invoke : ∀ scope args, Settled fun oracle => invoke ⟨params, rows, oracle⟩ scope args e
  ordered : ∀ scope ks, Items.SettledKeys ks →
    Settled fun oracle => ordered ⟨params, rows, oracle⟩ scope (ks oracle) e

theorem settles_of_drawFree {params : Option Bindings} {rows : Option RowSource} {e : Expr}
    (h : e.DrawFree) : Settles params rows e := by
  have hpervades : Pervades (fun _ m => Settled m) params rows e := by
    apply pervades_of_draws compositional_settled
    intro m t hcall hvolatile
    have hdraw : m.isVolatile = false := h _ hcall
    rw [hdraw] at hvolatile
    cases hvolatile
  exact ⟨hpervades.value, hpervades.invoke,
    fun scope ks hks => hpervades.ordered scope ks hks.keys⟩

end DeferredQuery.Eval
