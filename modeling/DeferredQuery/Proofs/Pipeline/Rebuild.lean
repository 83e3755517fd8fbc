import DeferredQuery.Proofs.Pipeline.Chain

/-!
# Classification and its inverse

The chain of calls that a source and operations stand for. A pipeline keeps no static types but that
of the result, so a chain is rebuilt with given ones. Classification takes a rebuilt chain apart
again, and each chain of query operators that it accepts is rebuilt from its pipeline.
-/

namespace DeferredQuery.Pipeline

structure Link where
  operation : Operation
  /-- The type of the inner source, if the operation is a join. -/
  inner : Ty
  /-- The type of the call. -/
  ty : Ty

namespace Link

def step (l : Link) : Step := ⟨.operator l.operation.name, l.operation.operands l.inner⟩

def call (l : Link) (receiver : Expr) : Expr :=
  .call l.step.method none (receiver :: l.step.args) l.ty

end Link

/-- The chain of calls on an entity set of static type `t`. -/
def rebuild (source : SetRef) (t : Ty) (links : List Link) : Expr :=
  links.foldl (fun receiver l => l.call receiver) (.constant (.query source) t)

/-- Each link has a receiver of queryable type; the first receiver is of type `t`. -/
def Linked (t : Ty) : List Link → Prop
  | [] => True
  | l :: rest => t.isQueryable = true ∧ Linked l.ty rest

@[simp] theorem rebuild_concat (source : SetRef) (t : Ty) (links : List Link) (l : Link) :
    rebuild source t (links ++ [l]) = l.call (rebuild source t links) := by simp [rebuild]

/-- The last link needs a queryable receiver, which is the chain before it. -/
theorem linked_concat (source : SetRef) {t : Ty} {links : List Link} {l : Link} :
    Linked t (links ++ [l]) ↔
      Linked t links ∧ (rebuild source t links).ty.isQueryable = true := by
  have htype : ∀ e : Expr, Linked e.ty (links ++ [l]) ↔ Linked e.ty links ∧
      (links.foldl (fun receiver l => Link.call l receiver) e).ty.isQueryable = true := by
    induction links with
    | nil => simp [Linked]
    | cons first links ih =>
        intro e
        have hrest := ih (first.call e)
        simp only [List.cons_append, Linked, List.foldl_cons, and_assoc]
        exact and_congr_right fun _ => hrest
  exact htype (.constant (.query source) t)

/-! ## From operations to operations -/

theorem chain_rebuild (source : SetRef) {t : Ty} {links : List Link} (h : Linked t links) :
    Chain (rebuild source t links) source (links.map Link.step) := by
  induction links using List.reverseRecOn with
  | nil => exact .source source t
  | append_singleton links l ih =>
      obtain ⟨hlinks, hreceiver⟩ := (linked_concat source).mp h
      rw [rebuild_concat, List.map_append]
      exact .step _ _ _ hreceiver (ih hlinks)

/-- The step of a link is classified as the link's operation. -/
theorem classify_step {l : Link} (h : l.operation.Standard) :
    l.step.classify .standard = .ok l.operation := by
  obtain ⟨op, inner, t⟩ := l
  cases op with
  | orderBy key descending => cases descending <;> rfl
  | thenBy key descending => cases descending <;> rfl
  | count predicate => cases predicate <;> rfl
  | any predicate => cases predicate <;> rfl
  | first predicate orDefault => cases predicate <;> cases orDefault <;> rfl
  | single predicate => cases predicate <;> rfl
  | custom name args =>
      have hname : name = "Include" ∨ name = "ThenInclude" ∨ name = "TagWith" := by
        simpa [Operation.Standard, Items.passing] using h
      rcases hname with rfl | rfl | rfl <;> rfl
  | _ => rfl

theorem classifySteps_links {links : List Link} (h : ∀ l ∈ links, l.operation.Standard) :
    classifySteps .standard (links.map Link.step) = .ok (links.map Link.operation) := by
  induction links with
  | nil => rfl
  | cons l links ih =>
      obtain ⟨hfirst, hrest⟩ := List.forall_mem_cons.mp h
      simp [classifySteps, classify_step hfirst, ih hrest, bind, Except.bind, pure, Except.pure]

/-! ## From chains to chains -/

/-- A chain of operators is rebuilt from its operations and the types of its calls. -/
theorem Chain.rebuild {e : Expr} {source : SetRef} {steps : List Step} (h : Chain e source steps)
    (hown : ∀ s ∈ steps, s.method.isOperator = true) {ops : List Operation}
    (hops : classifySteps .standard steps = .ok ops) :
    ∃ t links, e = Pipeline.rebuild source t links ∧ Linked t links ∧
      links.map Link.operation = ops := by
  induction h generalizing ops with
  | source root t =>
      cases hops
      exact ⟨t, [], rfl, trivial, rfl⟩
  | @step receiver root steps m args t hr _ ih =>
      obtain ⟨before, op, hbefore, hop, rfl⟩ := classifySteps_concat hops
      obtain ⟨t₀, links, rfl, hlinks, rfl⟩ :=
        ih (fun s hs => hown s (List.mem_append_left _ hs)) hbefore
      obtain ⟨hmethod, ⟨inner, hargs⟩, -⟩ :=
        Classifier.step_of_standard (hown ⟨m, args⟩ (by simp)) hop
      refine ⟨t₀, links ++ [⟨op, inner, t⟩], ?_, (linked_concat root).mpr ⟨hlinks, hr⟩, by simp⟩
      rw [rebuild_concat, Link.call, Link.step, ← hmethod, ← hargs]

/-! ## The inverse -/

/-- Classification is the inverse of rebuilding. The chains of query operators that are classified
are the chains that can be rebuilt from a source and operations, and each of them is classified to
just these. The result is a single value exactly when the last operation is terminal. -/
theorem classify_eq_ok_iff_rebuild {e : Expr} {source : SetRef} {ops : List Operation}
    {result : ResultTy} :
    (classify .standard e = .ok ⟨source, ops, result⟩ ∧
        ∃ steps, spine [] e = .ok (source, steps) ∧ ∀ s ∈ steps, s.method.isOperator = true) ↔
      ∃ t links, e = rebuild source t links ∧ Linked t links ∧ links.map Link.operation = ops ∧
        (∀ op ∈ ops, op.Standard) ∧
        result = if ops.getLast?.any Operation.isTerminal then .single e.ty
          else .sequence (e.ty.element?.getD .unknown) := by
  constructor
  · rintro ⟨hclassify, steps, hspine, hown⟩
    obtain ⟨found, hchain, hops, hfound⟩ := classify_eq_ok hclassify
    obtain rfl : steps = found := by simpa [hspine] using hchain.spine []
    obtain ⟨t, links, he, hlinked, hoperations⟩ := hchain.rebuild hown hops
    have hstandard := Classifier.standard_of_classifySteps hown hops
    exact ⟨t, links, he, hlinked, hoperations, hstandard, hfound.trans (resultTy_eq _ _)⟩
  · rintro ⟨t, links, rfl, hlinked, rfl, hstandard, rfl⟩
    have hchain := chain_rebuild source hlinked
    have hops := classifySteps_links fun l hl => hstandard _ (List.mem_map_of_mem hl)
    refine ⟨(hchain.classify hops).trans (by rw [resultTy_eq]), links.map Link.step, ?_, ?_⟩
    · simpa using hchain.spine []
    · simp [Link.step, Method.operator, Method.isOperator]

/-- Joined rows are counted. -/
example :
    let people : SetRef := ⟨"Person", "people"⟩
    let orders : SetRef := ⟨"Order", "orders"⟩
    let key : Expr := .parameter "__key_0" .unknown
    let join : Operation := .join orders key key key
    classify .standard (rebuild people (.queryable (.entity "Person"))
        [⟨join, .queryable (.entity "Order"), .queryable .unknown⟩, ⟨.count none, .null, .int⟩]) =
      .ok ⟨people, [join, .count none], .single .int⟩ := rfl

end DeferredQuery.Pipeline
