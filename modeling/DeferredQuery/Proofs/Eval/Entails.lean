import DeferredQuery.Proofs.Eval.Alike
import Mathlib.Data.List.Forall2

/-!
# Computations that follow another

A computation follows another when it succeeds with the same value wherever the oracle stands, and
draws nothing, each time the other has succeeded. Computations built alike follow one another if
their parts do.
-/

namespace DeferredQuery.Eval

variable {ε α β : Type}

/-- Each value of the first computation is one of the second, which draws nothing for it. -/
def Entails (m₁ m₂ : StateT Nat (Except ε) α) : Prop :=
  ∀ n v k, m₁ n = .ok (v, k) → ∀ n', m₂ n' = .ok (v, n')

namespace Entails

variable {m₁ m₂ : StateT Nat (Except ε) α} {f g : α → StateT Nat (Except ε) β}

theorem pure (v : α) : Entails (pure v : StateT Nat (Except ε) α) (Pure.pure v) := by
  intro n w k h n'
  obtain ⟨rfl, -⟩ := pure_eq_ok.mp h
  rfl

theorem lift {x y : Except ε α} (h : ∀ v, x = .ok v → y = .ok v) :
    Entails (liftM x : StateT Nat (Except ε) α) (liftM y) := by
  intro n v k hv n'
  obtain ⟨hx, -⟩ := lift_eq_ok.mp hv
  exact lift_eq_ok.mpr ⟨h v hx, rfl⟩

theorem lift_self (x : Except ε α) : Entails (liftM x : StateT Nat (Except ε) α) (liftM x) :=
  lift fun _ hv => hv

theorem throw (e : ε) : Entails (throw e) m₂ := fun _ _ _ hv => (throw_ne_ok hv).elim

/-- Only the values that the first computation gives need to be followed. -/
theorem bind_of_results (h : Entails m₁ m₂)
    (hf : ∀ n v k, m₁ n = .ok (v, k) → Entails (f v) (g v)) : Entails (m₁ >>= f) (m₂ >>= g) := by
  intro n w k hw n'
  obtain ⟨v, j, hv, hfv⟩ := bind_eq_ok.mp hw
  exact bind_eq_ok.mpr ⟨v, n', h n v j hv n', hf n v j hv j w k hfv n'⟩

theorem bind (h : Entails m₁ m₂) (hf : ∀ v, Entails (f v) (g v)) :
    Entails (m₁ >>= f) (m₂ >>= g) :=
  h.bind_of_results fun _ v _ _ => hf v

/-- A value that is given back leaves the oracle where it was. -/
theorem position (h₁ : Entails m₁ m₂) (h₂ : Entails m₂ m₁) {n k : Nat} {v : α}
    (hv : m₁ n = .ok (v, k)) : n = k := by
  have hback := h₂ n v n (h₁ n v k hv n) n
  rw [hv] at hback
  cases hback
  rfl

theorem of_fails {m₁ m₂ : EvalM α} (h : Fails m₁) : Entails m₁ m₂ :=
  fun n v k hv => (h n v k hv).elim

theorem alike {m₁ m₂ : EvalM α} (h₁ : Entails m₁ m₂) (h₂ : Entails m₂ m₁) : Alike m₁ m₂ := by
  intro n v k
  constructor
  · intro hv
    obtain rfl := h₁.position h₂ hv
    exact h₁ n v n hv n
  · intro hv
    obtain rfl := h₂.position h₁ hv
    exact h₂ n v n hv n

end Entails

/-! ## Operators on items -/

namespace Items

open DeferredQuery.Items

theorem entails_keep {p q : Value → EvalM Bool} {items : List Value}
    (h : ∀ v ∈ items, Entails (p v) (q v)) : Entails (keep p items) (keep q items) := by
  induction items with
  | nil => exact .pure []
  | cons v items ih =>
      have hrest := ih fun w hw => h w (List.mem_cons_of_mem _ hw)
      exact (h v List.mem_cons_self).bind fun kept => hrest.bind fun rest => .pure _

theorem entails_select {f g : Value → EvalM Value} {items : List Value}
    (h : ∀ v ∈ items, Entails (f v) (g v)) : Entails (select f items) (select g items) := by
  induction items with
  | nil => exact .pure []
  | cons v items ih =>
      have hrest := ih fun w hw => h w (List.mem_cons_of_mem _ hw)
      exact (h v List.mem_cons_self).bind fun w => hrest.bind fun rest => .pure _

def KeysEntail (items : List Value) (ks ls : List (Key EvalM)) : Prop :=
  List.Forall₂ (fun k l => (∀ v ∈ items, Entails (k.selector v) (l.selector v)) ∧
    k.descending = l.descending) ks ls

section Keys

variable {items : List Value} {ks ls : List (Key EvalM)}

theorem KeysEntail.descending (h : KeysEntail items ks ls) :
    ks.map Key.descending = ls.map Key.descending := by
  induction h with
  | nil => rfl
  | cons hk _ ih => simp [hk.2, ih]

theorem KeysEntail.tail {v : Value} (h : KeysEntail (v :: items) ks ls) :
    KeysEntail items ks ls :=
  h.imp fun _ _ hk => ⟨fun w hw => hk.1 w (List.mem_cons_of_mem _ hw), hk.2⟩

theorem entails_keyValues (h : KeysEntail items ks ls) {v : Value} (hv : v ∈ items) :
    Entails (keyValues ks v) (keyValues ls v) := by
  induction h with
  | nil => exact .pure []
  | cons hk _ ih => exact (hk.1 v hv).bind fun w => ih.bind fun rest => .pure _

theorem entails_keyed (h : KeysEntail items ks ls) :
    Entails (keyed ks items) (keyed ls items) := by
  induction items with
  | nil => exact .pure []
  | cons v items ih =>
      have hrest := ih h.tail
      exact (entails_keyValues h List.mem_cons_self).bind fun w => hrest.bind fun rest => .pure _

theorem entails_order (h : KeysEntail items ks ls) :
    Entails (Items.order ks items) (Items.order ls items) := by
  refine (entails_keyed h).bind fun rows => ?_
  rw [h.descending]
  exact .pure _

end Keys

theorem entails_joinRow {f g : Value → Value → EvalM Value} (outer key : Value)
    {inner : List (Value × Value)} (h : ∀ x ∈ inner, Entails (f outer x.1) (g outer x.1)) :
    Entails (joinRow f outer key inner) (joinRow g outer key inner) := by
  induction inner with
  | nil => exact .pure []
  | cons x inner ih =>
      have hrest := ih fun y hy => h y (List.mem_cons_of_mem _ hy)
      unfold joinRow
      split
      · exact (h x List.mem_cons_self).bind fun v => hrest.bind fun rest => .pure _
      · exact hrest

/-- Joins follow each other where their selectors do on the items at hand. -/
theorem entails_joinRows {o p : Value → EvalM Value} {f g : Value → Value → EvalM Value}
    {inner : List (Value × Value)} {items : List Value}
    (ho : ∀ v ∈ items, Entails (o v) (p v))
    (hf : ∀ v ∈ items, ∀ x ∈ inner, Entails (f v x.1) (g v x.1)) :
    Entails (joinRows o f inner items) (joinRows p g inner items) := by
  induction items with
  | nil => exact .pure []
  | cons v items ih =>
      have hrest := ih (fun w hw => ho w (List.mem_cons_of_mem _ hw))
        fun w hw => hf w (List.mem_cons_of_mem _ hw)
      refine (ho v List.mem_cons_self).bind fun key => ?_
      by_cases hkey : key.isNull = true
      · simp only [hkey, if_true]
        exact (Entails.pure []).bind fun row => hrest.bind fun rest => .pure _
      · simp only [hkey]
        exact (entails_joinRow v key (hf v List.mem_cons_self)).bind fun row =>
          hrest.bind fun rest => .pure _

theorem entails_join {o p i j : Value → EvalM Value} {f g : Value → Value → EvalM Value}
    {outer inner : List Value} (ho : ∀ v ∈ outer, Entails (o v) (p v))
    (hi : ∀ w ∈ inner, Entails (i w) (j w))
    (hf : ∀ v ∈ outer, ∀ w ∈ inner, Entails (f v w) (g v w)) :
    Entails (join o i f outer inner) (join p j g outer inner) :=
  (entails_select hi).bind fun _ => entails_joinRows ho fun v hv _ hx =>
    hf v hv _ (List.of_mem_zip hx).1

end Items

end DeferredQuery.Eval
