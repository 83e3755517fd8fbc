import Mathlib.Data.Option.Basic
import DeferredQuery.Proofs.Shape.Parts

/-!
# Closedness beside a traversal

The closedness of an expression is a tree of the same form, found along the same paths. A node is
closed unless something below it, or a tag directly around it, keeps it open. A traversal that takes
the closedness of each child from a queue finds what belongs to the child, and never an empty queue.
-/

namespace DeferredQuery

namespace Expr

/-- The node at the end of a path of child positions, and whether a tag stands directly around
it. -/
def descend? : Bool → Expr → List Nat → Option (Bool × Expr)
  | tagged, e, [] => some (tagged, e)
  | _, e, i :: path => e.children[i]?.bind fun c => descend? e.isTag c path

/-! ## Children in order -/

theorem mapM_fields {m : Type → Type} [Monad m] [LawfulMonad m] (f : Expr → m Expr)
    (fields : List (Named Expr)) :
    (fields.mapM fun field => do return (⟨field.name, ← f field.value⟩ : Named Expr)) =
      withValues fields <$> (fields.map Named.value).mapM f := by
  induction fields with
  | nil => simp [withValues]
  | cons field fields ih =>
      simp only [List.mapM_cons, List.map_cons, ih, bind_assoc, pure_bind, map_bind, map_pure,
        bind_map_left]
      rfl

/-- Children are visited in the order of `children`, and each result takes the place of its
child. -/
theorem mapChildrenM_eq {m : Type → Type} [Monad m] [LawfulMonad m] (f : Expr → m Expr)
    (e : Expr) : e.mapChildrenM f = e.withChildren <$> e.children.mapM f := by
  cases e with
  | call method receiver args t =>
      cases receiver with
      | none => exact bind_pure_comp _ _
      | some receiver => simp [mapChildrenM, children, withChildren]
  | record fields =>
      rw [mapChildrenM, mapM_fields, bind_pure_comp, Functor.map_map]
      rfl
  | _ => simp [mapChildrenM, children, withChildren]

theorem run_mapM_seen (f : Expr → Expr) (seen es : List Expr) :
    (es.mapM fun c => do
      modify (· ++ [c])
      return f c : StateM (List Expr) (List Expr)).run seen = (es.map f, seen ++ es) := by
  induction es generalizing seen with
  | nil => exact congrArg (Prod.mk []) (List.append_nil seen).symm
  | cons e es ih =>
      have hrest := ih (seen ++ [e])
      rw [List.append_assoc] at hrest
      rw [List.mapM_cons]
      exact congrArg (fun r => (f e :: r.1, r.2)) hrest

theorem depth_le_depthList {c : Expr} {es : List Expr} (hc : c ∈ es) : c.depth ≤ depthList es := by
  induction es with
  | nil => cases hc
  | cons e es ih =>
      rw [depthList]
      rcases List.mem_cons.mp hc with rfl | hc
      · exact Nat.le_max_left _ _
      · exact Nat.le_trans (ih hc) (Nat.le_max_right _ _)

theorem depthFields_eq (fields : List (Named Expr)) :
    depthFields fields = depthList (fields.map Named.value) := by
  induction fields with
  | nil => rfl
  | cons field fields ih => rw [depthFields, ih, List.map_cons, depthList]

theorem depth_lt_of_mem_children {c e : Expr} (hc : c ∈ e.children) : c.depth < e.depth := by
  have hle := depth_le_depthList hc
  cases e with
  | call m receiver args t =>
      cases receiver <;> simp [children, depth, depthList] at hle ⊢ <;> omega
  | record fields =>
      rw [depth, depthFields_eq]
      exact Nat.lt_succ_of_le hle
  | _ => simp [children, depth, depthList] at hle hc ⊢ <;> omega

end Expr

namespace Closedness

def at? : Closedness → List Nat → Option Closedness
  | c, [] => some c
  | c, i :: path => c.children[i]?.bind fun d => at? d path

end Closedness

namespace Extract

open Eval (Oracle)

/-! ## Flags -/

theorem closed_closedness (tagged : Bool) (e : Expr) :
    (closedness tagged e).closed = true ↔
      tagged = false ∧ e.isOpen = false ∧
        ∀ c ∈ e.children, (closedness e.isTag c).closed = true := by
  cases tagged with
  | true => simp [closed_closedness_tagged]
  | false => exact closed_analyze.trans (by simp)

/-- A node is closed exactly if no tag stands directly around it and nothing in it is open. -/
theorem closed_iff (tagged : Bool) (e : Expr) :
    (closedness tagged e).closed = true ↔ tagged = false ∧ ∀ n ∈ e.nodes, n.isOpen = false := by
  induction e using Expr.induction_on_children generalizing tagged with
  | step e ih =>
      rw [closed_closedness]
      constructor
      · rintro ⟨htagged, hopen, hchildren⟩
        refine ⟨htagged, fun n hn => ?_⟩
        rcases Expr.mem_nodes.mp hn with rfl | ⟨c, hc, hn⟩
        · exact hopen
        · exact ((ih c hc e.isTag).mp (hchildren c hc)).2 n hn
      · rintro ⟨htagged, hnodes⟩
        have hopen := hnodes e (Expr.self_mem_nodes e)
        have htag : e.isTag = false := by
          cases e with
          | volatile inner => cases hopen
          | _ => rfl
        refine ⟨htagged, hopen, fun c hc => (ih c hc e.isTag).mpr ⟨htag, fun n hn => ?_⟩⟩
        exact hnodes n (Expr.mem_nodes_of_child hc hn)

/-- A path leads to a node of the expression exactly if it leads to one of its closedness, and then
the second belongs to the first. -/
theorem at?_closedness (tagged : Bool) (e : Expr) (path : List Nat) :
    (closedness tagged e).at? path =
      (e.descend? tagged path).map fun x => closedness x.1 x.2 := by
  induction path generalizing tagged e with
  | nil => rfl
  | cons i path ih =>
      rw [Closedness.at?, Expr.descend?, children_closedness, List.getElem?_map]
      cases e.children[i]? with
      | none => rfl
      | some c => exact ih e.isTag c

/-! ## Extraction from a queue -/

/-- The next closedness of a queue; `missing` stands in for it where the queue is empty. -/
def next (missing : Expr → ExtractM Closedness) (child : Expr) :
    StateT (List Closedness) ExtractM Closedness := fun queue =>
  match queue with
  | c :: rest => pure (c, rest)
  | [] => do return (← missing child, [])

/-- The extraction that maps over the children of a node and takes the closedness of each from a
queue. That a child is less deep is always the case, and is asked for the recursion to end. -/
def visitQueued (missing : Expr → ExtractM Closedness) (oracle : Oracle) (c : Closedness)
    (e : Expr) : ExtractM Expr :=
  if eligible e c then bind oracle e
  else
    let visitNext (child : Expr) : StateT (List Closedness) ExtractM Expr := do
      let c ← next missing child
      if child.depth < e.depth then visitQueued missing oracle c child else pure child
    (e.mapChildrenM visitNext).run' c.children
termination_by e.depth

/-- Each step takes the head of the queue, which is the closedness of its child. -/
theorem run_mapM_next {missing : Expr → ExtractM Closedness} {a : Expr → Closedness}
    {f : Closedness → Expr → StateT (List Closedness) ExtractM Expr} {g : Expr → ExtractM Expr}
    {es : List Expr} (h : ∀ e ∈ es, f (a e) e = liftM (g e)) :
    (es.mapM fun e => next missing e >>= fun c => f c e).run (es.map a) =
      es.mapM g >>= fun ss => pure (ss, []) := by
  induction es with
  | nil => rfl
  | cons e es ih =>
      have hrest := ih fun e he => h e (List.mem_cons_of_mem _ he)
      have hhead : (next missing e >>= fun c => f c e).run ((e :: es).map a) =
          g e >>= fun s => pure (s, es.map a) := by
        change (f (a e) e).run (es.map a) = _
        rw [h e List.mem_cons_self, StateT.run_monadLift]
        rfl
      rw [List.mapM_cons, List.mapM_cons, StateT.run_bind, hhead]
      simp only [bind_assoc, pure_bind, StateT.run_bind, hrest, StateT.run_pure]

/-- Along a traversal of an expression no queue runs empty. -/
theorem visitQueued_eq (missing : Expr → ExtractM Closedness) (oracle : Oracle) (tagged : Bool)
    (e : Expr) :
    visitQueued missing oracle (closedness tagged e) e =
      visit oracle (closedness tagged e) e := by
  induction e using Expr.induction_on_children generalizing tagged with
  | step e ih =>
      rw [visitQueued, eligible_closedness]
      cases hkept : (!tagged && eligible e (.analyze e)) with
      | true => rw [if_pos rfl, visit_of_replaced oracle hkept]
      | false =>
          rw [if_neg Bool.false_ne_true, visit_of_kept oracle hkept, children_closedness]
          have hchild : ∀ c ∈ e.children,
              ((if c.depth < e.depth then
                  liftM (visitQueued missing oracle (closedness e.isTag c) c) else pure c) :
                StateT (List Closedness) ExtractM Expr) =
                liftM (visit oracle (closedness e.isTag c) c) := by
            intro c hc
            rw [if_pos (Expr.depth_lt_of_mem_children hc), ih c hc]
          simp only [Expr.mapChildrenM_eq, StateT.run'_eq, StateT.run_map]
          rw [run_mapM_next (a := closedness e.isTag) hchild]
          simp

/-- The closedness is that of a node: it is closed exactly if no tag stands directly around the node
and nothing in the node is open, and it has as many children. -/
structure Describes (c : Closedness) (node : Bool × Expr) : Prop where
  closed_iff : c.closed = true ↔ node.1 = false ∧ ∀ n ∈ node.2.nodes, n.isOpen = false
  length_children : c.children.length = node.2.children.length

theorem describes_closedness (tagged : Bool) (e : Expr) :
    Describes (closedness tagged e) (tagged, e) where
  closed_iff := closed_iff tagged e
  length_children := by rw [children_closedness, List.length_map]

/-- Every node has its closedness at the end of its own path, and there is no other. Paths number
children in the order in which a node is mapped over, so that extraction from a queue gives the same
whatever is done where the queue is empty. -/
theorem analyze_parallel (e : Expr) :
    (∀ path, Option.Rel Describes ((Closedness.analyze e).at? path) (e.descend? false path)) ∧
      (∀ (f : Expr → Expr) (seen : List Expr),
        (e.mapChildrenM fun c => do
          modify (· ++ [c])
          return f c : StateM (List Expr) Expr).run seen =
            (e.withChildren (e.children.map f), seen ++ e.children)) ∧
      ∀ missing oracle, visitQueued missing oracle (.analyze e) e = extract oracle e := by
  refine ⟨fun path => ?_, fun f seen => ?_, fun missing oracle => ?_⟩
  · have hpath := at?_closedness false e path
    change (Closedness.analyze e).at? path = _ at hpath
    rw [hpath]
    cases e.descend? false path with
    | none => exact .none
    | some node => exact .some (describes_closedness node.1 node.2)
  · rw [Expr.mapChildrenM_eq, StateT.run_map, Expr.run_mapM_seen]
    rfl
  · exact visitQueued_eq missing oracle false e

end Extract

end DeferredQuery
