import DeferredQuery.Proofs.Eval.Answers

/-!
# Computations from listed answers

What an evaluation draws from its oracle, as a list. A computation that gives a value from a list of
answers gives it over every oracle that answers as listed, from any place on, so the answers to
several computations can be put together in another order.
-/

namespace DeferredQuery.Eval

/-- What an oracle answers to one call, whichever of the two questions it is asked. -/
structure Answer where
  uuid : Uuid
  clock : Instant

namespace Oracle

def answer (o : Oracle) (i : Nat) : Answer := ⟨o.uuid i, o.clock i⟩

def answers (o : Oracle) (n count : Nat) : List Answer := (List.range' n count).map o.answer

def ofAnswers (as : List Answer) : Oracle where
  uuid i := (as[i]?.map Answer.uuid).getD ⟨0⟩
  clock i := (as[i]?.map Answer.clock).getD ⟨0, 0⟩

variable {o o' : Oracle} {n n' d e : Nat}

@[simp] theorem length_answers : (o.answers n d).length = d := by simp [answers]

@[simp] theorem answers_zero : o.answers n 0 = [] := rfl

theorem answers_add : o.answers n (d + e) = o.answers n d ++ o.answers (n + d) e := by
  rw [answers, answers, answers, ← List.map_append, List.range'_append_1]

theorem answers_ofAnswers (as : List Answer) : (ofAnswers as).answers 0 as.length = as := by
  refine List.ext_getElem (by simp) fun i hi hi' => ?_
  simp [answers, answer, ofAnswers, hi']

theorem agree_of_answers_eq (h : o'.answers n' d = o.answers n d) {i : Nat} (hi : i < d) :
    Agree o o' n n' i := by
  have hanswer := congrArg (·[i]?) h
  simp only [answers, List.getElem?_map, List.getElem?_range' hi, Option.map_some,
    Option.some.injEq, answer, Answer.mk.injEq, Nat.one_mul] at hanswer
  exact ⟨hanswer.1.symm, hanswer.2.symm⟩

end Oracle

/-- The computation gives the value from the answers, wherever they stand. -/
def Reads {α : Type} (m : Oracle → EvalM α) (as : List Answer) (v : α) : Prop :=
  ∀ (o : Oracle) n, o.answers n as.length = as → m o n = .ok (v, n + as.length)

section Reads

variable {α β : Type} {m : Oracle → EvalM α} {as bs : List Answer} {v : α}

theorem Local.reads (hm : Local m) {o : Oracle} {n k : Nat} (h : m o n = .ok (v, k)) :
    ∃ d, k = n + d ∧ Reads m (o.answers n d) v := by
  obtain ⟨d, rfl, hm'⟩ := hm.ok h
  refine ⟨d, rfl, fun o' n' hanswers => ?_⟩
  rw [Oracle.length_answers] at hanswers ⊢
  exact hm' o' n' fun i hi => Oracle.agree_of_answers_eq hanswers hi

namespace Reads

theorem pure (v : α) : Reads (fun _ => Pure.pure v) [] v := fun _ _ _ => rfl

theorem bind {f : Oracle → α → EvalM β} {w : β} (hm : Reads m as v)
    (hf : Reads (fun o => f o v) bs w) : Reads (fun o => m o >>= f o) (as ++ bs) w := by
  intro o n h
  rw [List.length_append, Oracle.answers_add] at h
  obtain ⟨hfirst, hrest⟩ := List.append_inj h (by simp)
  rw [List.length_append, ← Nat.add_assoc]
  exact bind_eq_ok.mpr ⟨v, _, hm o n hfirst, hf o _ hrest⟩

theorem map {f : α → β} (h : Reads m as v) : Reads (fun o => f <$> m o) as (f v) := by
  have hbind := h.bind (f := fun _ v => Pure.pure (f v)) (pure (f v))
  rwa [List.append_nil] at hbind

/-- Over the answers themselves. -/
theorem run (h : Reads m as v) : m (.ofAnswers as) 0 = .ok (v, as.length) := by
  have hrun := h (.ofAnswers as) 0 (Oracle.answers_ofAnswers as)
  rwa [Nat.zero_add] at hrun

end Reads

end Reads

/-- Steps that read some of the next answers from any place on, one for each item of a list, read
the answers one after the other. The items are apart, so each has its own answers. -/
theorem exists_answers {ι β : Type} [Nonempty β] {l : List ι} (hl : l.Nodup)
    {o : Oracle} {P : ι → List Answer → β → Prop} (h : ∀ x ∈ l, ∀ n, ∃ b d, P x (o.answers n d) b)
    (n : Nat) : ∃ (val : ι → β) (as : ι → List Answer), (∀ x ∈ l, P x (as x) (val x)) ∧
      ∃ d, o.answers n d = l.flatMap as := by
  classical
  induction l generalizing n with
  | nil => exact ⟨fun _ => Classical.arbitrary β, fun _ => [], nofun, 0, rfl⟩
  | cons x l ih =>
      obtain ⟨hx, hl⟩ := List.nodup_cons.mp hl
      obtain ⟨b, d, hb⟩ := h x List.mem_cons_self n
      obtain ⟨val, as, hval, e, hanswers⟩ :=
        ih hl (fun y hy => h y (List.mem_cons_of_mem _ hy)) (n + d)
      have hother : ∀ y ∈ l, y ≠ x := fun y hy heq => hx (heq ▸ hy)
      refine ⟨Function.update val x b, Function.update as x (o.answers n d), ?_, d + e, ?_⟩
      · refine List.forall_mem_cons.mpr ⟨by simpa using hb, fun y hy => ?_⟩
        simpa [hother y hy] using hval y hy
      · have hrest : l.flatMap (Function.update as x (o.answers n d)) = l.flatMap as :=
          List.flatMap_congr fun y hy => by simp [hother y hy]
        rw [Oracle.answers_add, List.flatMap_cons, hrest, hanswers, Function.update_self]

end DeferredQuery.Eval
