import DeferredQuery.Pipeline.Json
import DeferredQuery.Proofs.Expr.Nodes
import DeferredQuery.Proofs.Json.Values

/-!
# Pipelines read back from JSON

A pipeline is read from its canonical text when the constants in it are portable, so no two such
pipelines have the same text.
-/

namespace DeferredQuery

variable {n : Nat}

/-! ## Expressions -/

theorem Method.encodes (m : Method) : Json.Encodes ofJson? m.toJson m :=
  ⟨rfl, Json.legible_object (by simp [Json.Legible.str])⟩

theorem BinOp.encodes (op : BinOp) : Json.Encodes ofJson? op.toJson op := by
  cases op <;> exact ⟨rfl, .str _⟩

theorem UnOp.encodes (op : UnOp) : Json.Encodes ofJson? op.toJson op := by
  cases op <;> exact ⟨rfl, .str _⟩

theorem Binder.encodes (b : Binder) : Json.Encodes ofJson? b.toJson b where
  reads := by
    have hread : ofJson? b.toJson = (Ty.ofJson? b.ty.toJson).bind fun t => some ⟨b.name, t⟩ := rfl
    rw [hread, b.ty.encodes_ofJson?.reads]
    rfl
  legible := Json.legible_object (by simp [Json.Legible.str, b.ty.encodes_ofJson?.legible])

namespace Expr

def Portable (e : Expr) : Prop := ∀ v t, .constant v t ∈ e.nodes → v.Portable

theorem Portable.of_mem_children {e c : Expr} (he : e.Portable) (hc : c ∈ e.children) :
    c.Portable := fun v t hmem => he v t (mem_nodes.mpr (.inr ⟨c, hc, hmem⟩))

theorem listToJson_eq_map (es : List Expr) : listToJson es = es.map toJson := by
  induction es with
  | nil => rfl
  | cons e es ih => rw [listToJson, ih, List.map_cons]

def fieldToJson (field : Named Expr) : Json := .arr [.str field.name, field.value.toJson]

theorem fieldsToJson_eq_map (fields : List (Named Expr)) :
    fieldsToJson fields = fields.map fieldToJson := by
  induction fields with
  | nil => rfl
  | cons field fields ih => rw [fieldsToJson, ih, List.map_cons, fieldToJson]

def receiverToJson : Option Expr → Json
  | none => .null
  | some e => e.toJson

theorem toJson_call (m : Method) (receiver : Option Expr) (args : List Expr) (t : Ty) :
    (call m receiver args t).toJson =
      .tagged "Call" (.object [("method", m.toJson), ("instance", receiverToJson receiver),
        ("args", .arr (args.map toJson)), ("ty", t.toJson)]) := by
  rw [← listToJson_eq_map]
  cases receiver <;> rfl

theorem optional_toJson {read : Json → Option Expr} {e : Expr}
    (h : Json.Encodes read e.toJson e) :
    Json.Slot.optional read (.given e.toJson) = some (some e) := by
  have hslot : Json.Slot.optional read (.given e.toJson) = (read e.toJson).map some := by
    cases e with
    | call m receiver args t => cases receiver <;> rfl
    | _ => rfl
  rw [hslot, h.reads]
  rfl

theorem encodes_receiver {read : Json → Option Expr} {receiver : Option Expr}
    (h : ∀ e, receiver = some e → Json.Encodes read e.toJson e) :
    Json.Slot.optional read (.given (receiverToJson receiver)) = some receiver ∧
      (receiverToJson receiver).Legible := by
  cases receiver with
  | none => exact ⟨rfl, .null⟩
  | some e => exact ⟨optional_toJson (h e rfl), (h e rfl).legible⟩

section Nodes

variable {read : Json → Option Expr}

theorem encodes_constant {v : Value} (hv : v.Portable) (t : Ty) :
    Json.Encodes (readNode? read "Constant") (.object [("value", v.toJson), ("ty", t.toJson)])
      (constant v t) where
  reads := by
    have hread : readNode? read "Constant" (.object [("value", v.toJson), ("ty", t.toJson)]) =
        (Value.ofJson? v.toJson).bind fun v =>
          (Ty.ofJson? t.toJson).bind fun t => some (constant v t) := rfl
    rw [hread, hv.encodes_ofJson?.reads, t.encodes_ofJson?.reads]
    rfl
  legible := Json.legible_object
    (by simp [hv.encodes_ofJson?.legible, t.encodes_ofJson?.legible])

theorem encodes_parameter (name : String) (t : Ty) :
    Json.Encodes (readNode? read "Parameter") (.object [("name", .str name), ("ty", t.toJson)])
      (parameter name t) where
  reads := by
    have hread : readNode? read "Parameter" (.object [("name", .str name), ("ty", t.toJson)]) =
        (Ty.ofJson? t.toJson).bind fun t => some (parameter name t) := rfl
    rw [hread, t.encodes_ofJson?.reads]
    rfl
  legible := Json.legible_object (by simp [Json.Legible.str, t.encodes_ofJson?.legible])

theorem encodes_member {target : Expr} (h : Json.Encodes read target.toJson target)
    (name : String) (t : Ty) :
    Json.Encodes (readNode? read "Member")
      (.object [("target", target.toJson), ("member", .str name), ("ty", t.toJson)])
      (member target name t) where
  reads := by
    have hread : readNode? read "Member"
          (.object [("target", target.toJson), ("member", .str name), ("ty", t.toJson)]) =
        (read target.toJson).bind fun target =>
          (Ty.ofJson? t.toJson).bind fun t => some (member target name t) := rfl
    rw [hread, h.reads, t.encodes_ofJson?.reads]
    rfl
  legible := Json.legible_object
    (by simp [Json.Legible.str, h.legible, t.encodes_ofJson?.legible])

/-- A call without a receiver keeps its place for one. -/
theorem encodes_call (m : Method) {receiver : Option Expr} {args : List Expr} (t : Ty)
    (hreceiver : ∀ e, receiver = some e → Json.Encodes read e.toJson e)
    (hargs : ∀ e ∈ args, Json.Encodes read e.toJson e) :
    Json.Encodes (readNode? read "Call")
      (.object [("method", m.toJson), ("instance", receiverToJson receiver),
        ("args", .arr (args.map toJson)), ("ty", t.toJson)])
      (call m receiver args t) := by
  have hread : readNode? read "Call"
        (.object [("method", m.toJson), ("instance", receiverToJson receiver),
          ("args", .arr (args.map toJson)), ("ty", t.toJson)]) =
      (Method.ofJson? m.toJson).bind fun m =>
        (Json.Slot.optional read (.given (receiverToJson receiver))).bind fun receiver =>
          ((args.map toJson).mapM read).bind fun args =>
            (Ty.ofJson? t.toJson).bind fun t => some (call m receiver args t) := rfl
  obtain ⟨hslot, hlegible⟩ := encodes_receiver hreceiver
  have hitems := Json.encodes_items hargs
  constructor
  · rw [hread, m.encodes.reads, hslot,
      show (args.map toJson).mapM read = some args from hitems.reads, t.encodes_ofJson?.reads]
    rfl
  · exact Json.legible_object
      (by simp [m.encodes.legible, hlegible, hitems.legible, t.encodes_ofJson?.legible])

theorem encodes_lambda (params : List Binder) {body : Expr}
    (h : Json.Encodes read body.toJson body) :
    Json.Encodes (readNode? read "Lambda")
      (.object [("params", .arr (params.map Binder.toJson)), ("body", body.toJson)])
      (lambda params body) := by
  have hread : readNode? read "Lambda"
        (.object [("params", .arr (params.map Binder.toJson)), ("body", body.toJson)]) =
      ((params.map Binder.toJson).mapM Binder.ofJson?).bind fun params =>
        (read body.toJson).bind fun body => some (lambda params body) := rfl
  have hparams := Json.encodes_items fun b (_ : b ∈ params) => b.encodes
  constructor
  · rw [hread, show (params.map Binder.toJson).mapM Binder.ofJson? = some params from
      hparams.reads, h.reads]
    rfl
  · exact Json.legible_object (by simp [hparams.legible, h.legible])

theorem encodes_convert {operand : Expr} (h : Json.Encodes read operand.toJson operand) (t : Ty) :
    Json.Encodes (readNode? read "Convert")
      (.object [("operand", operand.toJson), ("ty", t.toJson)]) (convert operand t) where
  reads := by
    have hread : readNode? read "Convert"
          (.object [("operand", operand.toJson), ("ty", t.toJson)]) =
        (read operand.toJson).bind fun operand =>
          (Ty.ofJson? t.toJson).bind fun t => some (convert operand t) := rfl
    rw [hread, h.reads, t.encodes_ofJson?.reads]
    rfl
  legible := Json.legible_object (by simp [h.legible, t.encodes_ofJson?.legible])

theorem encodes_binary (op : BinOp) {left right : Expr}
    (hleft : Json.Encodes read left.toJson left) (hright : Json.Encodes read right.toJson right) :
    Json.Encodes (readNode? read "Binary")
      (.object [("op", op.toJson), ("left", left.toJson), ("right", right.toJson)])
      (binary op left right) where
  reads := by
    have hread : readNode? read "Binary"
          (.object [("op", op.toJson), ("left", left.toJson), ("right", right.toJson)]) =
        (BinOp.ofJson? op.toJson).bind fun op => (read left.toJson).bind fun left =>
          (read right.toJson).bind fun right => some (binary op left right) := rfl
    rw [hread, op.encodes.reads, hleft.reads, hright.reads]
    rfl
  legible := Json.legible_object (by simp [op.encodes.legible, hleft.legible, hright.legible])

theorem encodes_unary (op : UnOp) {operand : Expr}
    (h : Json.Encodes read operand.toJson operand) :
    Json.Encodes (readNode? read "Unary")
      (.object [("op", op.toJson), ("operand", operand.toJson)]) (unary op operand) where
  reads := by
    have hread : readNode? read "Unary"
          (.object [("op", op.toJson), ("operand", operand.toJson)]) =
        (UnOp.ofJson? op.toJson).bind fun op =>
          (read operand.toJson).bind fun operand => some (unary op operand) := rfl
    rw [hread, op.encodes.reads, h.reads]
    rfl
  legible := Json.legible_object (by simp [op.encodes.legible, h.legible])

theorem encodes_record {fields : List (Named Expr)}
    (h : ∀ field ∈ fields, Json.Encodes read field.value.toJson field.value) :
    Json.Encodes (readNode? read "Record")
      (.object [("fields", .arr (fields.map fieldToJson))]) (record fields) := by
  have hfields : Json.Encodes (fun j => do (← j.items?).mapM (Value.readPair? read))
      (.arr (fields.map fieldToJson)) fields :=
    Json.encodes_items fun field hfield => Value.encodes_field (h field hfield)
  have hread : readNode? read "Record" (.object [("fields", .arr (fields.map fieldToJson))]) =
      ((fields.map fieldToJson).mapM (Value.readPair? read)).bind fun fs =>
        some (record fs) := rfl
  constructor
  · rw [hread, show (fields.map fieldToJson).mapM (Value.readPair? read) = some fields from
      hfields.reads]
    rfl
  · exact Json.legible_object (by simpa using hfields.legible)

theorem encodes_volatile {inner : Expr} (h : Json.Encodes read inner.toJson inner) :
    Json.Encodes (readNode? read "NonDeterministic") inner.toJson (volatile inner) where
  reads := by
    have hread : readNode? read "NonDeterministic" inner.toJson =
        (read inner.toJson).map volatile := rfl
    rw [hread, h.reads]
    rfl
  legible := h.legible

end Nodes

theorem encodes_node {e : Expr} {kind : String} {parts : Json}
    (htoJson : e.toJson = .tagged kind parts) (hn : e.toJson.depth ≤ n)
    (h : ∀ {n}, parts.depth ≤ n → Json.Encodes (readNode? (read? n) kind) parts e) :
    Json.Encodes (read? n) e.toJson e := by
  rw [htoJson, Json.depth_tagged] at hn
  obtain ⟨n, rfl⟩ := Nat.exists_eq_add_of_le' (show 1 ≤ n by omega)
  obtain ⟨hreads, hlegible⟩ := h (show parts.depth ≤ n by omega)
  rw [htoJson]
  exact ⟨hreads, Json.legible_tagged hlegible⟩

/-- An expression whose constants are portable is read from its encoding with fuel for its
containers. -/
theorem Portable.encodes {e : Expr} (he : e.Portable) (hn : e.toJson.depth ≤ n) :
    Json.Encodes (read? n) e.toJson e := by
  induction e generalizing n with
  | constant v t =>
      exact encodes_node rfl hn fun _ => encodes_constant (he v t (self_mem_nodes _)) t
  | parameter name t => exact encodes_node rfl hn fun _ => encodes_parameter name t
  | member target name t ih =>
      refine encodes_node rfl hn fun {n} hn => encodes_member (ih ?_ ?_) name t
      · exact he.of_mem_children (by simp [children])
      · simp only [Json.depth_object, List.map_cons, Json.depthItems] at hn
        omega
  | call m receiver args t ihReceiver ihArgs =>
      refine encodes_node (toJson_call m receiver args t) hn fun {n} hn => ?_
      simp only [Json.depth_object, List.map_cons, Json.depthItems, Json.depth] at hn
      refine encodes_call m t (fun e he' => ?_) fun e he' => ?_
      · subst he'
        refine ihReceiver e rfl (he.of_mem_children (by simp [children])) ?_
        simp only [receiverToJson] at hn
        omega
      · refine ihArgs e he' (he.of_mem_children (by simp [children, he'])) ?_
        have hitem := Json.depth_le_depthItems (List.mem_map_of_mem (f := toJson) he')
        omega
  | lambda params body ih =>
      refine encodes_node rfl hn fun {n} hn => encodes_lambda params (ih ?_ ?_)
      · exact he.of_mem_children (by simp [children])
      · simp only [Json.depth_object, List.map_cons, Json.depthItems] at hn
        omega
  | convert operand t ih =>
      refine encodes_node rfl hn fun {n} hn => encodes_convert (ih ?_ ?_) t
      · exact he.of_mem_children (by simp [children])
      · simp only [Json.depth_object, List.map_cons, Json.depthItems] at hn
        omega
  | binary op left right ihLeft ihRight =>
      refine encodes_node rfl hn fun {n} hn => ?_
      simp only [Json.depth_object, List.map_cons, Json.depthItems] at hn
      refine encodes_binary op (ihLeft ?_ (by omega)) (ihRight ?_ (by omega))
      · exact he.of_mem_children (by simp [children])
      · exact he.of_mem_children (by simp [children])
  | unary op operand ih =>
      refine encodes_node rfl hn fun {n} hn => encodes_unary op (ih ?_ ?_)
      · exact he.of_mem_children (by simp [children])
      · simp only [Json.depth_object, List.map_cons, Json.depthItems] at hn
        omega
  | record fields ih =>
      have htoJson : (record fields).toJson =
          .tagged "Record" (.object [("fields", .arr (fields.map fieldToJson))]) := by
        rw [toJson, fieldsToJson_eq_map]
      refine encodes_node htoJson hn fun {n} hn => encodes_record fun field hfield => ?_
      simp only [Json.depth_object, List.map_cons, Json.depthItems, Json.depth] at hn
      refine ih field hfield (he.of_mem_children (List.mem_map_of_mem hfield)) ?_
      have hitem := Json.depth_le_depthItems (List.mem_map_of_mem (f := fieldToJson) hfield)
      simp only [fieldToJson, Json.depth, Json.depthItems] at hitem
      omega
  | volatile inner ih =>
      exact encodes_node rfl hn fun hn =>
        encodes_volatile (ih (he.of_mem_children (by simp [children])) hn)

theorem Portable.encodes_ofJson? {e : Expr} (he : e.Portable) :
    Json.Encodes ofJson? e.toJson e :=
  ⟨(he.encodes (Nat.le_refl _)).reads, (he.encodes (Nat.le_refl _)).legible⟩

end Expr

/-! ## Operations -/

namespace Operation

/-- The kind is read from its own member, the fields from all the others. -/
theorem ofJson?_toJson (op : Operation) :
    ofJson? op.toJson = readFields? op.kind (.object op.fieldsToJson) := by
  cases op with
  | count predicate => cases predicate <;> rfl
  | any predicate => cases predicate <;> rfl
  | first predicate orDefault => cases predicate <;> rfl
  | single predicate => cases predicate <;> rfl
  | custom name arguments => cases arguments <;> rfl
  | _ => rfl

/-- Each kind of operation has fields of its own and reads them back. -/
theorem readFields?_fieldsToJson {op : Operation} (h : ∀ e ∈ op.arguments, e.Portable) :
    readFields? op.kind (.object op.fieldsToJson) = some op := by
  have hread : ∀ e ∈ op.arguments, Expr.ofJson? e.toJson = some e :=
    fun e he => (h e he).encodes_ofJson?.reads
  have hslot : ∀ e ∈ op.arguments,
      Json.Slot.optional Expr.ofJson? (.given e.toJson) = some (some e) :=
    fun e he => Expr.optional_toJson (h e he).encodes_ofJson?
  cases op with
  | filter e | select e | skip e | take e =>
      exact Option.bind_eq_some_iff.mpr ⟨e, hread e (by simp [arguments]), rfl⟩
  | orderBy e descending | thenBy e descending =>
      exact Option.bind_eq_some_iff.mpr ⟨e, hread e (by simp [arguments]), rfl⟩
  | distinct => rfl
  | join inner outerKey innerKey result =>
      refine Option.bind_eq_some_iff.mpr ⟨outerKey, hread outerKey (by simp [arguments]), ?_⟩
      refine Option.bind_eq_some_iff.mpr ⟨innerKey, hread innerKey (by simp [arguments]), ?_⟩
      exact Option.bind_eq_some_iff.mpr ⟨result, hread result (by simp [arguments]), rfl⟩
  | count predicate | any predicate | single predicate =>
      cases predicate with
      | none => rfl
      | some e =>
          exact Option.bind_eq_some_iff.mpr ⟨some e, hslot e (by simp [arguments]), rfl⟩
  | first predicate orDefault =>
      cases predicate with
      | none => rfl
      | some e =>
          exact Option.bind_eq_some_iff.mpr ⟨some e, hslot e (by simp [arguments]), rfl⟩
  | custom name args =>
      cases args with
      | nil => rfl
      | cons e args =>
          have hitems := Json.encodes_items fun e he => (h e he).encodes_ofJson?
          exact Option.bind_eq_some_iff.mpr ⟨e :: args, hitems.reads, rfl⟩

/-- All numbers in the fields read back, since those in the arguments do. -/
theorem fieldsToJson_legible {op : Operation} (h : ∀ e ∈ op.arguments, e.Portable) :
    ∀ j ∈ op.fieldsToJson.map Prod.snd, j.Legible := by
  have hlegible : ∀ e ∈ op.arguments, e.toJson.Legible :=
    fun e he => (h e he).encodes_ofJson?.legible
  cases op with
  | join inner outerKey innerKey result =>
      simpa [fieldsToJson, arguments, inner.encodes.legible] using hlegible
  | distinct => simp [fieldsToJson]
  | custom name args =>
      cases args with
      | nil => simp [fieldsToJson, Json.Legible.str]
      | cons e args =>
          have hitems := Json.encodes_items fun e he => (h e he).encodes_ofJson?
          simpa [fieldsToJson, arguments, Json.Legible.str] using hitems.legible
  | count predicate | any predicate | single predicate =>
      cases predicate with
      | none => simp [fieldsToJson, predicateMember]
      | some e => simpa [fieldsToJson, predicateMember, arguments] using hlegible
  | first predicate orDefault =>
      cases predicate with
      | none => simp [fieldsToJson, predicateMember, Json.Legible.bool]
      | some e =>
          simpa [fieldsToJson, predicateMember, arguments, Json.Legible.bool] using hlegible
  | _ => simpa [fieldsToJson, arguments, Json.Legible.bool] using hlegible

theorem encodes {op : Operation} (h : ∀ e ∈ op.arguments, e.Portable) :
    Json.Encodes ofJson? op.toJson op :=
  ⟨(ofJson?_toJson op).trans (readFields?_fieldsToJson h),
    Json.legible_object (by simpa [Json.Legible.str] using fieldsToJson_legible h)⟩

end Operation

/-! ## Pipelines -/

theorem ResultTy.encodes (t : ResultTy) : Json.Encodes ofJson? t.toJson t := by
  cases t with
  | sequence t | single t =>
      exact ⟨congrArg (Option.map _) t.encodes_ofJson?.reads,
        Json.legible_tagged t.encodes_ofJson?.legible⟩

namespace Pipeline

def Portable (p : Pipeline) : Prop := ∀ op ∈ p.operations, ∀ e ∈ op.arguments, e.Portable

theorem Portable.encodes {p : Pipeline} (hp : p.Portable) : Json.Encodes ofJson? p.toJson p := by
  obtain ⟨source, operations, result⟩ := p
  have hresult := result.encodes
  have hitems := Json.encodes_items fun op hop => Operation.encodes (hp op hop)
  cases operations with
  | nil =>
      constructor
      · exact Option.bind_eq_some_iff.mpr ⟨result, hresult.reads, rfl⟩
      · exact Json.legible_object (by simp [source.encodes.legible, hresult.legible])
  | cons op operations =>
      constructor
      · refine Option.bind_eq_some_iff.mpr ⟨op :: operations, hitems.reads, ?_⟩
        exact Option.bind_eq_some_iff.mpr ⟨result, hresult.reads, rfl⟩
      · refine Json.legible_object ?_
        simpa [source.encodes.legible, hresult.legible] using hitems.legible

end Pipeline

end DeferredQuery
