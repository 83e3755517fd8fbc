import DeferredQuery.Proofs.Eval.Answers
import DeferredQuery.Proofs.Shape.Meaning
import DeferredQuery.Proofs.Shape.Tagged

/-!
# Values without evaluation

For a captured variable extraction reads stored members along a path, passes over conversions that
only make a value optional, and evaluates the expression where a read fails. The value is that of an
evaluation. Where reads fail an expression is evaluated anew, so that one that draws from the oracle
draws again.
-/

namespace DeferredQuery.Extract

open Eval (EvalM Local Oracle Settled bind_apply_of_ok bind_apply_of_error run'_eq_ok
  run'_eq_error)

def reasons {α : Type} (m : ValueM α) : EvalM α := fun n => (m n).mapError ExtractError.cause

/-- The value that is extracted for an expression, or else the reason why there is none. -/
def fastValue (oracle : Oracle) (e : Expr) : EvalM Value := Prod.fst <$> reasons (valueOf oracle e)

def storedOr (v : Value) (name : String) (m : EvalM Value) : EvalM Value :=
  match v.storedMember name with
  | .ok w => pure w
  | .error _ => m

/-- Each conversion in the expression that only makes its operand optional leaves every value of the
operand as it is. -/
def LiftsKeep (e : Expr) : Prop :=
  ∀ operand t, .convert operand t ∈ e.nodes → lifts operand t = true →
    ∀ oracle n v k, Eval.evaluate (.closed oracle) operand n = .ok (v, k) → v.convert t = v

theorem LiftsKeep.child {c e : Expr} (h : LiftsKeep e) (hc : c ∈ e.children) : LiftsKeep c :=
  fun operand t hconvert => h operand t (Expr.mem_nodes_of_child hc hconvert)

/-! ## Steps along a path -/

theorem reasons_bind {α β : Type} (m : ValueM α) (f : α → ValueM β) :
    reasons (m >>= f) = reasons m >>= fun a => reasons (f a) := by
  funext n
  change (m n >>= fun r => f r.1 r.2).mapError ExtractError.cause =
    (m n).mapError ExtractError.cause >>= fun r => (f r.1 r.2).mapError ExtractError.cause
  cases m n <;> rfl

theorem reasons_compute (oracle : Oracle) (e : Expr) :
    reasons (compute oracle e) = Eval.evaluate (.closed oracle) e := by
  funext n
  rw [reasons, compute]
  cases Eval.evaluate (.closed oracle) e n <;> rfl

theorem fastValue_of_compute {oracle : Oracle} {e : Expr} {name : Option String}
    (h : valueOf oracle e = compute oracle e >>= fun v => pure (v, name)) :
    fastValue oracle e = Eval.evaluate (.closed oracle) e := by
  rw [fastValue, h, reasons_bind, reasons_compute, map_bind]
  exact bind_pure _

/-- A member is read off the value of its target, or computed if it is not stored there. -/
theorem fastValue_member (oracle : Oracle) (target : Expr) (name : String) (t : Ty) :
    fastValue oracle (.member target name t) = fastValue oracle target >>= fun v =>
      storedOr v name (Eval.evaluate (.closed oracle) (.member target name t)) := by
  rw [fastValue, valueOf, reasons_bind, map_bind, fastValue, bind_map_left]
  congr 1
  funext r
  obtain ⟨v, path⟩ := r
  dsimp only
  unfold storedOr
  cases v.storedMember name with
  | ok w => rfl
  | error _ =>
      dsimp only
      rw [reasons_bind, reasons_compute, map_bind]
      exact bind_pure _

theorem fastValue_lift (oracle : Oracle) {operand : Expr} {t : Ty} (h : lifts operand t = true) :
    fastValue oracle (.convert operand t) = fastValue oracle operand := by
  rw [fastValue, valueOf, if_pos h]
  rfl

theorem evaluate_member (oracle : Oracle) (target : Expr) (name : String) (t : Ty) :
    Eval.evaluate (.closed oracle) (.member target name t) =
      Eval.evaluate (.closed oracle) target >>= fun v => liftM (v.member name) := rfl

theorem evaluate_convert (oracle : Oracle) (operand : Expr) (t : Ty) :
    Eval.evaluate (.closed oracle) (.convert operand t) =
      Eval.evaluate (.closed oracle) operand >>= fun v => pure (v.convert t) := rfl

/-- Induction along a path: by members and skipped conversions down to an expression that is just
evaluated. -/
theorem path_induction {motive : Expr → Prop}
    (member : ∀ target name t, motive target → motive (.member target name t))
    (lift : ∀ operand t, lifts operand t = true → motive operand → motive (.convert operand t))
    (evaluated : ∀ e, (∀ oracle, fastValue oracle e = Eval.evaluate (.closed oracle) e) → motive e)
    (e : Expr) : motive e := by
  induction e with
  | member target name t ih => exact member target name t ih
  | convert operand t ih =>
      by_cases hlift : lifts operand t = true
      · exact lift operand t hlift ih
      · apply evaluated
        intro oracle
        exact fastValue_of_compute (by rw [valueOf, if_neg hlift])
  | constant v t => exact evaluated _ fun _ => rfl
  | _ => exact evaluated _ fun _ => fastValue_of_compute rfl

/-! ## One run -/

/-- The answers drawn are those of the parts, in the order of evaluation. -/
theorem local_fastValue (e : Expr) : Local fun oracle => fastValue oracle e := by
  induction e using path_induction with
  | member target name t ih =>
      simp only [fastValue_member]
      apply ih.bind
      intro v
      unfold storedOr
      cases v.storedMember name with
      | ok w => exact Eval.local_lift (.ok w)
      | error _ => exact Eval.local_evaluate none none _
  | lift operand t hlift ih => simpa only [fastValue_lift _ hlift] using ih
  | evaluated e h =>
      simp only [h]
      exact Eval.local_evaluate none none e

/-- A conversion that keeps the values of its operand can be left out. -/
theorem LiftsKeep.evaluate_lift {operand : Expr} {t : Ty} (h : LiftsKeep (.convert operand t))
    (hlift : lifts operand t = true) (oracle : Oracle) :
    Eval.evaluate (.closed oracle) (.convert operand t) =
      Eval.evaluate (.closed oracle) operand := by
  funext n
  rw [evaluate_convert]
  cases hv : Eval.evaluate (.closed oracle) operand n with
  | error err => exact bind_apply_of_error _ hv
  | ok r =>
      obtain ⟨v, k⟩ := r
      have hkeep := h operand t (Expr.self_mem_nodes _) hlift oracle n v k hv
      rw [bind_apply_of_ok hv, hkeep]
      rfl

theorem evaluate_member_of_error {oracle : Oracle} {target : Expr} (name : String) (t : Ty)
    {err : EvalError} {n : Nat} (h : Eval.evaluate (.closed oracle) target n = .error err) :
    Eval.evaluate (.closed oracle) (.member target name t) n = .error err :=
  bind_apply_of_error _ h

theorem fastValue_member_of_error {oracle : Oracle} {target : Expr} (name : String) (t : Ty)
    {err : EvalError} {n : Nat} (h : fastValue oracle target n = .error err) :
    fastValue oracle (.member target name t) n = .error err := by
  rw [fastValue_member]
  exact bind_apply_of_error _ h

/-- A read of a stored member is an evaluation of the member. -/
theorem evaluate_member_of_stored {oracle : Oracle} {target : Expr} {name : String} {t : Ty}
    {v w : Value} {n k : Nat} (hv : Eval.evaluate (.closed oracle) target n = .ok (v, k))
    (hw : v.storedMember name = .ok w) :
    Eval.evaluate (.closed oracle) (.member target name t) n = .ok (w, k) := by
  rw [evaluate_member, bind_apply_of_ok hv, member_of_storedMember hw]
  rfl

theorem fastValue_member_of_stored {oracle : Oracle} {target : Expr} {name : String} {t : Ty}
    {v w : Value} {n k : Nat} (hv : fastValue oracle target n = .ok (v, k))
    (hw : v.storedMember name = .ok w) :
    fastValue oracle (.member target name t) n = .ok (w, k) := by
  rw [fastValue_member, bind_apply_of_ok hv, storedOr, hw]
  rfl

/-- Where a read fails the member is evaluated with its target once more. -/
theorem fastValue_member_of_not_stored {oracle : Oracle} {target : Expr} {name : String} {t : Ty}
    {v : Value} {err : EvalError} {n k : Nat} (hv : fastValue oracle target n = .ok (v, k))
    (herr : v.storedMember name = .error err) :
    fastValue oracle (.member target name t) n =
      Eval.evaluate (.closed oracle) (.member target name t) k := by
  rw [fastValue_member, bind_apply_of_ok hv, storedOr, herr]

/-- The value that is extracted is that of an evaluation, which begins where reads have failed for
the last time. -/
theorem exists_evaluate {e : Expr} (h : LiftsKeep e) (oracle : Oracle) (n : Nat) :
    ∃ j, n ≤ j ∧ fastValue oracle e n = Eval.evaluate (.closed oracle) e j := by
  induction e using path_induction with
  | member target name t ih =>
      obtain ⟨j, hj, htarget⟩ := ih (h.child (by simp [Expr.children]))
      cases hv : Eval.evaluate (.closed oracle) target j with
      | error err =>
          rw [hv] at htarget
          refine ⟨j, hj, ?_⟩
          rw [fastValue_member_of_error name t htarget, evaluate_member_of_error name t hv]
      | ok r =>
          obtain ⟨v, k⟩ := r
          rw [hv] at htarget
          cases hstored : v.storedMember name with
          | ok w =>
              refine ⟨j, hj, ?_⟩
              rw [fastValue_member_of_stored htarget hstored, evaluate_member_of_stored hv hstored]
          | error _ =>
              obtain ⟨d, rfl, -⟩ := (Eval.local_evaluate none none target).ok hv
              exact ⟨j + d, by omega, fastValue_member_of_not_stored htarget hstored⟩
  | lift operand t hlift ih =>
      obtain ⟨j, hj, hoperand⟩ := ih (h.child (by simp [Expr.children]))
      exact ⟨j, hj, by rw [fastValue_lift oracle hlift, h.evaluate_lift hlift, hoperand]⟩
  | evaluated e he => exact ⟨n, Nat.le_refl n, congrFun (he oracle) n⟩

/-- What an evaluation gives is extracted over some oracle: it repeats its answers for each
evaluation that is begun anew. -/
theorem exists_fastValue {e : Expr} (h : LiftsKeep e) (oracle : Oracle) (n : Nat) :
    ∃ oracle', (fastValue oracle' e).run' n = (Eval.evaluate (.closed oracle) e).run' n := by
  induction e using path_induction with
  | member target name t ih =>
      obtain ⟨o, htarget⟩ := ih (h.child (by simp [Expr.children]))
      cases hv : Eval.evaluate (.closed oracle) target n with
      | error err =>
          have hfast := run'_eq_error.mp (htarget.trans (run'_eq_error.mpr hv))
          refine ⟨o, ?_⟩
          rw [run'_eq_error.mpr (evaluate_member_of_error name t hv)]
          exact run'_eq_error.mpr (fastValue_member_of_error name t hfast)
      | ok r =>
          obtain ⟨v, k⟩ := r
          obtain ⟨j, hfast⟩ := run'_eq_ok.mp (htarget.trans (run'_eq_ok.mpr ⟨k, hv⟩))
          cases hstored : v.storedMember name with
          | ok w =>
              refine ⟨o, ?_⟩
              rw [run'_eq_ok.mpr ⟨k, evaluate_member_of_stored hv hstored⟩]
              exact run'_eq_ok.mpr ⟨j, fastValue_member_of_stored hfast hstored⟩
          | error _ =>
              -- the target is read over the answers of `o`, the member over those of `oracle`
              obtain ⟨d, rfl, hlocal⟩ := (local_fastValue target).ok hfast
              have hsplice := hlocal (o.splice (n + d) oracle n) n fun i hi =>
                Eval.agree_splice_before (by omega)
              have hmember := Eval.local_evaluate none none (.member target name t)
              refine ⟨o.splice (n + d) oracle n, ?_⟩
              calc
                (fastValue (o.splice (n + d) oracle n) (.member target name t)).run' n
                _ = (Eval.evaluate (.closed (o.splice (n + d) oracle n))
                      (.member target name t)).run' (n + d) :=
                  congrArg (Prod.fst <$> ·) (fastValue_member_of_not_stored hsplice hstored)
                _ = (Eval.evaluate (.closed oracle) (.member target name t)).run' n :=
                  hmember.run'_eq fun i => Eval.agree_splice_after o oracle (n + d) n i
  | lift operand t hlift ih =>
      obtain ⟨o, hoperand⟩ := ih (h.child (by simp [Expr.children]))
      exact ⟨o, by rw [fastValue_lift o hlift, h.evaluate_lift hlift, hoperand]⟩
  | evaluated e he => exact ⟨oracle, by rw [he]⟩

/-! ## Expressions that draw nothing -/

theorem fastValue_eq_ok {oracle : Oracle} {e : Expr} {n k : Nat} {v : Value} :
    fastValue oracle e n = .ok (v, k) ↔ ∃ name, valueOf oracle e n = .ok ((v, name), k) := by
  change (valueOf oracle e n).mapError ExtractError.cause >>= _ = _ ↔ _
  cases valueOf oracle e n with
  | error err => simp [Except.mapError]
  | ok r =>
      obtain ⟨⟨w, name⟩, j⟩ := r
      constructor
      · rintro ⟨⟩
        exact ⟨name, rfl⟩
      · rintro ⟨name', ⟨⟩⟩
        rfl

theorem settled_fastValue {e : Expr} (h : e.DrawFree) :
    Settled fun oracle => fastValue oracle e := by
  obtain ⟨x, hx⟩ := settled_valueOf h
  refine ⟨Prod.fst <$> x.mapError ExtractError.cause, fun oracle => ?_⟩
  have hvalue : valueOf oracle e = liftM x := hx oracle
  dsimp only
  rw [fastValue, hvalue]
  cases x <;> rfl

/-- Without draws it makes no difference where an evaluation begins. -/
theorem fastValue_eq_evaluate {e : Expr} (h : LiftsKeep e) (hdraw : e.DrawFree) (oracle : Oracle) :
    fastValue oracle e = Eval.evaluate (.closed oracle) e := by
  have hsettles : Eval.Settles none none e := Eval.settles_of_drawFree hdraw
  obtain ⟨x, hx⟩ := settled_fastValue hdraw
  obtain ⟨y, hy⟩ := hsettles.value []
  have hfast : fastValue oracle e = liftM x := hx oracle
  have heval : Eval.evaluate (.closed oracle) e = liftM y := hy oracle
  obtain ⟨j, -, hj⟩ := exists_evaluate h oracle 0
  have hxy : x = y := by
    rw [hfast, heval] at hj
    cases x with
    | error err => cases y <;> cases hj; rfl
    | ok v => cases y <;> cases hj; rfl
  rw [hfast, heval, hxy]

/-- What is extracted is what an evaluation gives, errors included. An expression that draws is
evaluated for some of the answers that follow, and each of its values is extracted over some
oracle. -/
theorem fastValue_agrees {e : Expr} (h : LiftsKeep e) :
    (e.DrawFree → ∀ oracle, fastValue oracle e = Eval.evaluate (.closed oracle) e ∧
      ∀ n v k, (∃ name, valueOf oracle e n = .ok ((v, name), k)) ↔
        Eval.evaluate (.closed oracle) e n = .ok (v, k)) ∧
    (∀ oracle n, ∃ j, n ≤ j ∧ fastValue oracle e n = Eval.evaluate (.closed oracle) e j) ∧
    ∀ oracle n, ∃ oracle',
      (fastValue oracle' e).run' n = (Eval.evaluate (.closed oracle) e).run' n := by
  refine ⟨fun hdraw oracle => ?_, exists_evaluate h, exists_fastValue h⟩
  have hfast := fastValue_eq_evaluate h hdraw oracle
  refine ⟨hfast, fun n v k => ?_⟩
  rw [← hfast]
  exact fastValue_eq_ok.symm

/-- The year of an instant in a captured record: two reads of stored members, a skipped conversion
and a member that only an evaluation computes. -/
theorem fastValue_agrees_on_year :
    let order : Value := .record [⟨"Placed", .instant ⟨1700000000, 0⟩⟩]
    let scope : Expr :=
      .constant (.closure "Scope" [⟨"order", .object, order⟩]) (.closure "Scope")
    let placed : Expr := .member (.member scope "order" .object) "Placed" .timestamp
    let year : Expr := .member (.convert placed (.nullable .timestamp)) "Year" .int
    LiftsKeep year ∧ year.DrawFree ∧ ∀ oracle n,
      Eval.evaluate (.closed oracle) year n = .ok (.int 2023, n) ∧
        ∃ name, valueOf oracle year n = .ok ((.int 2023, name), n) := by
  intro order scope placed year
  have hkeep : LiftsKeep year := by
    intro operand t hconvert _ _ _ v _ _
    obtain ⟨-, rfl⟩ : operand = placed ∧ t = .nullable .timestamp := by
      simpa [year, placed, scope, Expr.nodes] using hconvert
    cases v <;> rfl
  have hdraw : year.DrawFree := by
    unfold Expr.DrawFree
    decide
  refine ⟨hkeep, hdraw, fun oracle n => ?_⟩
  have heval : Eval.evaluate (.closed oracle) year n = .ok (.int 2023, n) := rfl
  exact ⟨heval, (((fastValue_agrees hkeep).1 hdraw oracle).2 n _ n).mpr heval⟩

end DeferredQuery.Extract
