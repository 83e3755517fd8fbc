import DeferredQuery.Proofs.Expr.Children
import DeferredQuery.Proofs.Shape.Binding
import DeferredQuery.Shape.Volatile

/-!
# The parts that extraction reaches

The closedness of a node is told by the node and the closedness of its children, and a visit of an
expression is told in the same way: a part whose value is known is bound, any other node is visited
child by child. So what sequencing keeps holds of a visit if it holds of the bindings alone.
-/

namespace DeferredQuery

namespace Expr

/-- The node itself keeps what it is in from being known before the query runs. -/
def isOpen : Expr → Bool
  | .parameter .. => true
  | .constant _ t => t.isQueryable
  | .volatile _ => true
  | _ => false

theorem isTag_eq_false_of_not_isOpen {e : Expr} (h : e.isOpen = false) : e.isTag = false := by
  cases e with
  | volatile inner => cases h
  | _ => rfl

end Expr

namespace Closedness

theorem analyzeList_eq_map (es : List Expr) : analyzeList es = es.map analyze := by
  induction es with
  | nil => rfl
  | cons e es ih => simp [analyzeList, ih]

theorem analyzeFields_eq_map (fields : List (Named Expr)) :
    analyzeFields fields = (fields.map Named.value).map analyze := by
  induction fields with
  | nil => rfl
  | cons field fields ih => simp [analyzeFields, ih]

@[simp] theorem closed_ofChildren (cs : List Closedness) :
    (ofChildren cs).closed = cs.all closed := rfl

end Closedness

namespace Extract

open Eval (Oracle)

/-! ## Closedness -/

def closedness (tagged : Bool) (e : Expr) : Closedness :=
  if tagged then (Closedness.analyze e).opened else .analyze e

/-- A node is closed unless it is open itself or has an open child. -/
theorem analyze_eq (e : Expr) :
    Closedness.analyze e =
      .node (!e.isOpen && (e.children.map (closedness e.isTag)).all Closedness.closed)
        (e.children.map (closedness e.isTag)) := by
  have hplain : closedness false = Closedness.analyze := rfl
  cases e with
  | constant v t => simp [Closedness.analyze, Expr.children, Expr.isOpen]
  | call m receiver args t =>
      cases receiver <;> simp [Closedness.analyze, Closedness.ofChildren,
        Closedness.analyzeList_eq_map, Expr.children, Expr.isOpen, Expr.isTag, hplain]
  | record fields =>
      simp [Closedness.analyze, Closedness.ofChildren, Closedness.analyzeFields_eq_map,
        Expr.children, Expr.isOpen, Expr.isTag, hplain]
  | _ => rfl

theorem closed_closedness_tagged (e : Expr) : (closedness true e).closed = false := by
  rw [closedness, if_pos rfl]
  cases Closedness.analyze e
  rfl

theorem closed_analyze {e : Expr} : (Closedness.analyze e).closed = true ↔
    e.isOpen = false ∧ ∀ c ∈ e.children, (closedness e.isTag c).closed = true := by
  rw [analyze_eq]
  simp [Closedness.closed]

@[simp] theorem closedness_children (tagged : Bool) (e : Expr) :
    (closedness tagged e).children = (Closedness.analyze e).children := by
  unfold closedness
  split
  · cases Closedness.analyze e
    rfl
  · rfl

/-- Each child has its own closedness in its own place. -/
theorem children_closedness (tagged : Bool) (e : Expr) :
    (closedness tagged e).children = e.children.map (closedness e.isTag) := by
  rw [closedness_children, analyze_eq]
  rfl

/-- A closed expression is no tag, and its children are closed. -/
theorem closed_children {e : Expr} (h : (Closedness.analyze e).closed = true) :
    e.isTag = false ∧ ∀ c ∈ e.children, (Closedness.analyze c).closed = true := by
  obtain ⟨hopen, hchildren⟩ := closed_analyze.mp h
  have htag := Expr.isTag_eq_false_of_not_isOpen hopen
  rw [htag] at hchildren
  exact ⟨htag, hchildren⟩

theorem closed_of_eligible {e : Expr} {c : Closedness} (h : eligible e c = true) :
    c.closed = true := by
  simp only [eligible, Bool.and_eq_true] at h
  exact h.1.1.1

theorem eligible_closedness (tagged : Bool) (e : Expr) :
    eligible e (closedness tagged e) = (!tagged && eligible e (.analyze e)) := by
  cases tagged with
  | true =>
      rw [eligible, closed_closedness_tagged]
      rfl
  | false => rfl

/-! ## Parts -/

inductive Part where
  | replaced (e : Expr)
  | kept (e : Expr)

mutual

/-- The expressions that extraction reaches; `tagged` holds for the expression in a tag. -/
def parts (tagged : Bool) (e : Expr) : List Part :=
  if !tagged && eligible e (.analyze e) then [.replaced e]
  else
    .kept e ::
      match e with
      | .constant .. => []
      | .parameter .. => []
      | .member target _ _ => parts false target
      | .call _ none args _ => partsOfList args
      | .call _ (some receiver) args _ => parts false receiver ++ partsOfList args
      | .lambda _ body => parts false body
      | .convert operand _ => parts false operand
      | .binary _ left right => parts false left ++ parts false right
      | .unary _ operand => parts false operand
      | .record fields => partsOfFields fields
      | .volatile inner => parts true inner

def partsOfList : List Expr → List Part
  | [] => []
  | e :: rest => parts false e ++ partsOfList rest

def partsOfFields : List (Named Expr) → List Part
  | [] => []
  | ⟨_, e⟩ :: rest => parts false e ++ partsOfFields rest

end

theorem mem_partsOfList {p : Part} {es : List Expr} :
    p ∈ partsOfList es ↔ ∃ e ∈ es, p ∈ parts false e := by
  induction es with
  | nil => simp [partsOfList]
  | cons e es ih => simp [partsOfList, ih]

theorem mem_partsOfFields {p : Part} {fields : List (Named Expr)} :
    p ∈ partsOfFields fields ↔ ∃ e ∈ fields.map Named.value, p ∈ parts false e := by
  induction fields with
  | nil => simp [partsOfFields]
  | cons field fields ih => simp [partsOfFields, ih]

theorem parts_of_replaced {tagged : Bool} {e : Expr}
    (h : (!tagged && eligible e (.analyze e)) = true) : parts tagged e = [.replaced e] := by
  rw [parts.eq_def, if_pos h]

/-- The parts below a kept node are those of its children. -/
theorem mem_parts_of_kept {tagged : Bool} {e : Expr} {p : Part}
    (h : (!tagged && eligible e (.analyze e)) = false) :
    p ∈ parts tagged e ↔ p = .kept e ∨ ∃ c ∈ e.children, p ∈ parts e.isTag c := by
  have h' : ¬ (!tagged && eligible e (.analyze e)) = true := by simp [h]
  cases e with
  | call m receiver args t =>
      rw [parts.eq_def, if_neg h']
      cases receiver <;> simp [Expr.children, Expr.isTag, mem_partsOfList]
  | record fields =>
      rw [parts.eq_def, if_neg h']
      simp [Expr.children, Expr.isTag, mem_partsOfFields]
  | _ =>
      rw [parts.eq_def, if_neg h']
      simp [Expr.children, Expr.isTag]

/-- Only eligible nodes of the expression are replaced. -/
theorem mem_nodes_of_replaced {tagged : Bool} {e r : Expr} (h : .replaced r ∈ parts tagged e) :
    r ∈ e.nodes ∧ eligible r (.analyze r) = true := by
  induction e using Expr.induction_on_children generalizing tagged with
  | step e ih =>
      cases hkept : (!tagged && eligible e (.analyze e)) with
      | true =>
          obtain rfl : r = e := by simpa [parts_of_replaced hkept] using h
          exact ⟨Expr.self_mem_nodes r, ((Bool.and_eq_true _ _).mp hkept).2⟩
      | false =>
          obtain hself | ⟨c, hc, hr⟩ := (mem_parts_of_kept hkept).mp h
          · cases hself
          · obtain ⟨hnode, heligible⟩ := ih c hc hr
            exact ⟨Expr.mem_nodes_of_child hc hnode, heligible⟩

theorem mem_nodes_of_kept {tagged : Bool} {e n : Expr} (h : .kept n ∈ parts tagged e) :
    n ∈ e.nodes := by
  induction e using Expr.induction_on_children generalizing tagged with
  | step e ih =>
      cases hkept : (!tagged && eligible e (.analyze e)) with
      | true => simp [parts_of_replaced hkept] at h
      | false =>
          obtain hself | ⟨c, hc, hn⟩ := (mem_parts_of_kept hkept).mp h
          · cases hself
            exact Expr.self_mem_nodes _
          · exact Expr.mem_nodes_of_child hc (ih c hc hn)

/-! ## Visits -/

/-- A replaced part is visited by binding its value. -/
theorem visit_of_replaced (oracle : Oracle) {tagged : Bool} {e : Expr}
    (h : (!tagged && eligible e (.analyze e)) = true) :
    visit oracle (closedness tagged e) e = bind oracle e := by
  rw [visit.eq_def, eligible_closedness, if_pos h]

theorem visitList_eq_mapM (oracle : Oracle) (es : List Expr) :
    visitList oracle (Closedness.analyzeList es) es =
      es.mapM fun e => visit oracle (closedness false e) e := by
  induction es with
  | nil => rfl
  | cons e es ih =>
      rw [List.mapM_cons, ← ih]
      rfl

theorem visitFields_eq_mapM (oracle : Oracle) (fields : List (Named Expr)) :
    visitFields oracle (Closedness.analyzeFields fields) fields =
      (fields.map Named.value).mapM (fun e => visit oracle (closedness false e) e) >>= fun ss =>
        pure (Expr.withValues fields ss) := by
  induction fields with
  | nil => rfl
  | cons field fields ih =>
      change (visit oracle (closedness false field.value) field.value >>= fun s =>
        visitFields oracle (Closedness.analyzeFields fields) fields >>= fun ss => _) = _
      rw [ih]
      simp only [List.map_cons, List.mapM_cons, bind_assoc, pure_bind,
        Expr.withValues, List.zipWith_cons_cons]

/-- A kept node is visited child by child. -/
theorem visit_of_kept (oracle : Oracle) {tagged : Bool} {e : Expr}
    (h : (!tagged && eligible e (.analyze e)) = false) :
    visit oracle (closedness tagged e) e =
      e.children.mapM (fun c => visit oracle (closedness e.isTag c) c) >>= fun ss =>
        pure (e.withChildren ss) := by
  rw [visit.eq_def, eligible_closedness, h]
  cases e with
  | call m receiver args t =>
      simp only [closedness_children]
      cases receiver with
      | none =>
          change visitList oracle (Closedness.analyzeList args) args >>= _ = _
          rw [visitList_eq_mapM]
          rfl
      | some receiver =>
          change (visit oracle (closedness false receiver) receiver >>= fun s =>
            visitList oracle (Closedness.analyzeList args) args >>= fun ss => _) = _
          rw [visitList_eq_mapM]
          simp [Expr.children, Expr.isTag, Expr.withChildren]
  | record fields =>
      simp only [closedness_children]
      change visitFields oracle (Closedness.analyzeFields fields) fields >>= _ = _
      rw [visitFields_eq_mapM]
      simp [Expr.children, Expr.isTag, Expr.withChildren]
  | constant | parameter => simp [Expr.children, Expr.withChildren]
  | member | lambda | convert | binary | unary | volatile =>
      simp [closedness_children, Expr.children, Expr.isTag, Expr.withChildren]
      rfl

section Parts

variable {ι : Type} {P : ∀ {α : Type}, (ι → ExtractM α) → Prop}
  (hpure : ∀ {α : Type} (a : α), P fun _ => (pure a : ExtractM α))
  (hbind : ∀ {α β : Type} {m : ι → ExtractM α} {f : ι → α → ExtractM β},
    P m → (∀ a, P fun i => f i a) → P fun i => m i >>= f i)

include hpure hbind

theorem mapM_of_each {f : ι → Expr → ExtractM Expr} {es : List Expr}
    (h : ∀ e ∈ es, P fun i => f i e) : P fun i => es.mapM (f i) := by
  induction es with
  | nil => exact hpure []
  | cons e es ih =>
      have hrest := ih fun e he => h e (List.mem_cons_of_mem _ he)
      simp only [List.mapM_cons]
      exact hbind (h e List.mem_cons_self) fun s => hbind hrest fun ss => hpure _

/-- What sequencing keeps holds of an extraction, over one oracle or over a family of them, if it
holds of the bindings of all replaced parts. -/
theorem visit_of_parts {oracle : ι → Oracle} {e : Expr} {tagged : Bool}
    (h : ∀ r, .replaced r ∈ parts tagged e → P fun i => bind (oracle i) r) :
    P fun i => visit (oracle i) (closedness tagged e) e := by
  induction e using Expr.induction_on_children generalizing tagged with
  | step e ih =>
      cases hkept : (!tagged && eligible e (.analyze e)) with
      | true =>
          simp only [visit_of_replaced _ hkept]
          exact h e (by simp [parts_of_replaced hkept])
      | false =>
          have hchild : ∀ c ∈ e.children,
              P fun i => visit (oracle i) (closedness e.isTag c) c :=
            fun c hc => ih c hc fun r hr => h r ((mem_parts_of_kept hkept).mpr (.inr ⟨c, hc, hr⟩))
          simp only [visit_of_kept _ hkept]
          exact hbind (mapM_of_each hpure hbind hchild) fun ss => hpure _

end Parts

end Extract

end DeferredQuery
