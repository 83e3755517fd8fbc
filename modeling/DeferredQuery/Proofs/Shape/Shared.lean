import DeferredQuery.Proofs.Shape.Replacement

/-!
# Extractions that share their bindings

Several queries may be extracted into one list of bindings, and some of them may fail halfway and
leave what they have bound. Names stay unambiguous all the same: each binding is numbered by its
position, and what is bound once stays where it is.
-/

namespace DeferredQuery.Extract

open Eval (Oracle)

/-! ## Each extraction -/

/-- Whether it succeeds or fails, a computation only binds behind what is bound. -/
def GrowsAlways {α : Type} (m : ExtractM α) : Prop := ∀ s, Grows s (m.run s).2

section GrowsAlways

variable {α β : Type}

theorem GrowsAlways.pure (a : α) : GrowsAlways (Pure.pure a) := fun s => .refl s

theorem GrowsAlways.bind {m : ExtractM α} {f : α → ExtractM β} (hm : GrowsAlways m)
    (hf : ∀ a, GrowsAlways (f a)) : GrowsAlways (m >>= f) := by
  intro s
  have hfirst := hm s
  rw [run_bind]
  rcases hrun : m.run s with ⟨e | a, s'⟩
  · rwa [hrun] at hfirst
  · rw [hrun] at hfirst
    exact hfirst.trans (hf a s')

end GrowsAlways

theorem growsAlways_bind (oracle : Oracle) (e : Expr) : GrowsAlways (bind oracle e) := by
  intro s
  simp only [bind, ExceptT.run_mk]
  split
  · exact .refl s
  · exact ⟨List.prefix_append _ _, fun h => h.add _ _⟩

theorem growsAlways_extract (oracle : Oracle) (e : Expr) : GrowsAlways (extract oracle e) :=
  @visit_of_parts Unit (fun m => GrowsAlways (m ())) .pure .bind (fun _ => oracle) e false
    fun r _ => growsAlways_bind oracle r

/-! ## One after the other -/

/-- The shapes or the failures of queries that are extracted one after the other, and what is bound
in the end. -/
def extractAll : List (Oracle × Expr) → State → List (Except ExtractError Expr) × State
  | [], s => ([], s)
  | (oracle, e) :: calls, s =>
    let first := (extract oracle e).run s
    let rest := extractAll calls first.2
    (first.1 :: rest.1, rest.2)

theorem extractAll_append (earlier later : List (Oracle × Expr)) (s : State) :
    extractAll (earlier ++ later) s =
      ((extractAll earlier s).1 ++ (extractAll later (extractAll earlier s).2).1,
        (extractAll later (extractAll earlier s).2).2) := by
  induction earlier generalizing s with
  | nil => rfl
  | cons call earlier ih => simp [extractAll, ih]

theorem grows_extractAll (calls : List (Oracle × Expr)) (s : State) :
    Grows s (extractAll calls s).2 := by
  induction calls generalizing s with
  | nil => exact .refl s
  | cons call calls ih => exact (growsAlways_extract call.1 call.2 s).trans (ih _)

/-- Each placeholder of each shape was created over what was bound by then, and its binding is
among those in the end. -/
theorem created_extractAll (calls : List (Oracle × Expr)) (s : State) :
    List.Forall₂ (fun call r => ∀ shape, r = .ok shape → ShapedBy
        (fun _ => Created call.1 (extractAll calls s).2.params) [] false call.2 shape)
      calls (extractAll calls s).1 := by
  induction calls generalizing s with
  | nil => exact .nil
  | cons call calls ih =>
      refine .cons (fun shape hshape => ?_) (ih _)
      have hrun : (extract call.1 call.2).run s =
          (.ok shape, ((extract call.1 call.2).run s).2) := Prod.ext hshape rfl
      exact shapedBy_created hrun (grows_extractAll calls _).1

/-! ## Names -/

theorem Numbered.nodup {params : Bindings} (h : Numbered params) : params.names.Nodup := by
  rw [Bindings.names, List.Nodup, List.pairwise_map, List.pairwise_iff_getElem]
  intro i j hi hj hij hname
  obtain ⟨base, hbase⟩ := h i params[i] (List.getElem?_eq_getElem hi)
  obtain ⟨other, hother⟩ := h j params[j] (List.getElem?_eq_getElem hj)
  have hcount : i = j := placeholder_count (hbase.symm.trans (hname.trans hother))
  omega

/-- The name of a placeholder still stands for the value that was bound when it was created. -/
theorem Created.exists_get? {oracle : Oracle} {P : Bindings} {part node : Expr}
    (h : Created oracle P part node) (hP : Numbered P) :
    ∃ before after name v, (bind oracle part).run before = (.ok node, after) ∧
      after.params = before.params.add name v ∧ node = placeholderNode name v part.ty ∧
      P.get? name = some v := by
  obtain ⟨before, after, name, v, hrun, hafter, hnode, hprefix⟩ := h
  refine ⟨before, after, name, v, hrun, hafter, hnode, ?_⟩
  have hentry : after.params[before.params.length]? = some ⟨name, v⟩ := by
    simp [hafter, Bindings.add]
  obtain ⟨hlength, -⟩ := List.getElem?_eq_some_iff.mp hentry
  exact hP.find? ((List.prefix_iff_getElem?.mp hprefix _ hlength).trans
    (List.getElem?_eq_getElem hlength ▸ hentry))

/-- However many queries are extracted into one list of bindings, failures included, the list stays
unambiguous: each name ends in its position, no two are the same, what earlier extractions bound
stays in place, and each placeholder of each shape still reads the value that was bound for it. -/
theorem extractAll_unambiguous (calls : List (Oracle × Expr)) (n : Nat) :
    let outcomes := (extractAll calls ⟨[], n⟩).1
    let s := (extractAll calls ⟨[], n⟩).2
    (∀ (i : Nat) (x : Named Value), s.params[i]? = some x →
        ∃ base, x.name = "__" ++ base ++ "_" ++ toString i) ∧
      s.params.names.Nodup ∧
      (∀ earlier later, calls = earlier ++ later →
        (extractAll earlier ⟨[], n⟩).2.params <+: s.params) ∧
      List.Forall₂ (fun call outcome => ∀ shape, outcome = .ok shape →
          ShapedBy (fun _ part node => ∃ before after name v,
            (bind call.1 part).run before = (.ok node, after) ∧
              after.params = before.params.add name v ∧ node = placeholderNode name v part.ty ∧
              s.params.get? name = some v) [] false call.2 shape)
        calls outcomes := by
  have hnumbered := (grows_extractAll calls ⟨[], n⟩).2 numbered_nil
  refine ⟨fun i x hx => ?_, hnumbered.nodup, fun earlier later hcalls => ?_, ?_⟩
  · obtain ⟨base, hbase⟩ := hnumbered i x hx
    exact ⟨baseName (base.getD "p"), hbase⟩
  · rw [hcalls, extractAll_append]
    exact (grows_extractAll later _).1
  · refine (created_extractAll calls ⟨[], n⟩).imp fun call outcome hshape shape houtcome => ?_
    exact (hshape shape houtcome).imp fun _ _ _ hcreated => hcreated.exists_get? hnumbered

/-- The second query fails at its second part, and what it bound before stays under its name. -/
example :
    let scope : Closure := ⟨"Scope", [⟨"x", .int, .int 40⟩]⟩
    let x : Expr := .member (.const (.closure scope.className scope.captures)) "x" .int
    let age : Expr := .member (.parameter "p" (.entity "Person")) "Age" .int
    let filter (test : Expr) : Expr := .call (.operator "Where") none
      [.constant (.query ⟨"Person", "people"⟩) (.queryable (.entity "Person")),
        .lambda [⟨"p", .entity "Person"⟩] test] (.queryable (.entity "Person"))
    let oracle : Oracle := ⟨fun _ => ⟨0⟩, fun _ => ⟨0, 0⟩⟩
    let failing : Expr := .binary .div x (.const (.int 0))
    extractAll [(oracle, filter (.binary .gt age x)),
        (oracle, filter (.binary .and (.binary .gt age x) (.binary .lt age failing))),
        (oracle, filter (.binary .lt age x))] ⟨[], 0⟩ =
      ([.ok (filter (.binary .gt age (.parameter "__x_0" .int))),
          .error ⟨failing, .divisionByZero⟩,
          .ok (filter (.binary .lt age (.parameter "__x_2" .int)))],
        ⟨[⟨"__x_0", .int 40⟩, ⟨"__x_1", .int 40⟩, ⟨"__x_2", .int 40⟩], 0⟩) := rfl

end DeferredQuery.Extract
