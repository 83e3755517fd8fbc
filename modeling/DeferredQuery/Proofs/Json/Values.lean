import DeferredQuery.Proofs.Json.Encodings
import DeferredQuery.Value.Json

/-!
# Values read back from JSON

A value is read from its encoding when its floating point numbers are exact and its instants
belong to the years 0 to 9999.
-/

namespace DeferredQuery

variable {n : Nat}

theorem SetRef.encodes (r : SetRef) : Json.Encodes ofJson? r.toJson r :=
  ⟨rfl, Json.legible_object (by simp [Json.Legible.str])⟩

namespace Value

/-- Values that a text keeps: every floating point number in it is exact, and every instant
standard. -/
inductive Portable : Value → Prop where
  | null : Portable .null
  | bool (b : Bool) : Portable (.bool b)
  | int (n : Int64) : Portable (.int n)
  | float {x : Float} (h : Json.Exact x) : Portable (.float x)
  | string (s : String) : Portable (.string s)
  | uuid (u : Uuid) : Portable (.uuid u)
  | instant {t : Instant} (h : t.Standard) : Portable (.instant t)
  | list {items : List Value} (h : ∀ v ∈ items, Portable v) : Portable (.list items)
  | record {fields : List (Named Value)} (h : ∀ field ∈ fields, Portable field.value) :
    Portable (.record fields)
  | closure (className : String) {captures : List (Capture Value)}
    (h : ∀ c ∈ captures, Portable c.value) : Portable (.closure className captures)
  | query (root : SetRef) : Portable (.query root)

/-! ## Parts -/

theorem itemsToJson_eq_map (items : List Value) : itemsToJson items = items.map toJson := by
  induction items with
  | nil => rfl
  | cons v items ih => rw [itemsToJson, ih, List.map_cons]

def fieldToJson (field : Named Value) : Json := .arr [.str field.name, field.value.toJson]

theorem fieldsToJson_eq_map (fields : List (Named Value)) :
    fieldsToJson fields = fields.map fieldToJson := by
  induction fields with
  | nil => rfl
  | cons field fields ih => rw [fieldsToJson, ih, List.map_cons, fieldToJson]

def captureToJson (c : Capture Value) : Json :=
  .object [("name", .str c.name), ("data_type", c.ty.toJson), ("value", c.value.toJson)]

theorem capturesToJson_eq_map (captures : List (Capture Value)) :
    capturesToJson captures = captures.map captureToJson := by
  induction captures with
  | nil => rfl
  | cons c captures ih => rw [capturesToJson, ih, List.map_cons, captureToJson]

theorem encodes_field {α : Type} {read : Json → Option α} {name : String} {j : Json} {a : α}
    (h : Json.Encodes read j a) :
    Json.Encodes (readPair? read) (.arr [.str name, j]) ⟨name, a⟩ where
  reads := by
    have hread : readPair? read (.arr [.str name, j]) =
        (read j).bind fun a => some ⟨name, a⟩ := rfl
    rw [hread, h.reads]
    rfl
  legible := .arr (by simp [Json.Legible.str, h.legible])

theorem encodes_capture {read : Json → Option Value} {c : Capture Value}
    (h : Json.Encodes read c.value.toJson c.value) :
    Json.Encodes (readCapture? read) (captureToJson c) c where
  reads := by
    have hread : readCapture? read (captureToJson c) =
        (Ty.ofJson? c.ty.toJson).bind fun t =>
          (read c.value.toJson).bind fun v => some ⟨c.name, t, v⟩ := rfl
    rw [hread, c.ty.encodes_ofJson?.reads, h.reads]
    rfl
  legible := Json.legible_object
    (by simp [Json.Legible.str, c.ty.encodes_ofJson?.legible, h.legible])

/-! ## Values -/

theorem fits_toInt (n : Int64) : Json.Fits n.toInt := by
  have hleast := n.le_toInt
  have hgreatest := n.toInt_lt
  simp only [Json.Fits, Checked.least, Checked.unsignedCount]
  omega

/-- A scalar that is read in one step. -/
theorem encodes_tagged {v : Value} {tag : String} {j : Json} (htoJson : v.toJson = .tagged tag j)
    (hj : j.Legible) (hread : ∀ n, read? (n + 1) v.toJson = some v) (hn : v.toJson.depth ≤ n) :
    Json.Encodes (read? n) v.toJson v := by
  rw [htoJson, Json.depth_tagged] at hn
  obtain ⟨n, rfl⟩ := Nat.exists_eq_add_of_le' (show 1 ≤ n by omega)
  exact ⟨hread n, htoJson ▸ Json.legible_tagged hj⟩

theorem encodes_list {items : List Value}
    (h : ∀ v ∈ items, Json.Encodes (read? n) v.toJson v) :
    Json.Encodes (read? (n + 1)) (list items).toJson (list items) := by
  have hitems := Json.encodes_items h
  have hread : read? (n + 1) (list items).toJson =
      ((itemsToJson items).mapM (read? n)).bind fun vs => some (list vs) := rfl
  constructor
  · rw [hread, itemsToJson_eq_map, show (items.map toJson).mapM (read? n) = some items from
      hitems.reads]
    rfl
  · rw [toJson, itemsToJson_eq_map]
    exact Json.legible_tagged hitems.legible

theorem encodes_record {fields : List (Named Value)}
    (h : ∀ field ∈ fields, Json.Encodes (read? n) field.value.toJson field.value) :
    Json.Encodes (read? (n + 1)) (record fields).toJson (record fields) := by
  have hfields : Json.Encodes (fun j => do (← j.items?).mapM (readPair? (read? n)))
      (.arr (fields.map fieldToJson)) fields :=
    Json.encodes_items fun field hfield => encodes_field (h field hfield)
  have hread : read? (n + 1) (record fields).toJson =
      ((fieldsToJson fields).mapM (readPair? (read? n))).bind fun fs => some (record fs) := rfl
  constructor
  · rw [hread, fieldsToJson_eq_map, show (fields.map fieldToJson).mapM (readPair? (read? n)) =
      some fields from hfields.reads]
    rfl
  · rw [toJson, fieldsToJson_eq_map]
    exact Json.legible_tagged (Json.legible_object (by simpa using hfields.legible))

theorem encodes_closure {className : String} {captures : List (Capture Value)}
    (h : ∀ c ∈ captures, Json.Encodes (read? n) c.value.toJson c.value) :
    Json.Encodes (read? (n + 1)) (closure className captures).toJson
      (closure className captures) := by
  have hcaptures := Json.encodes_items fun c hc => encodes_capture (h c hc)
  have hread : read? (n + 1) (closure className captures).toJson =
      ((capturesToJson captures).mapM (readCapture? (read? n))).bind fun cs =>
        some (closure className cs) := rfl
  constructor
  · rw [hread, capturesToJson_eq_map,
      show (captures.map captureToJson).mapM (readCapture? (read? n)) = some captures from
        hcaptures.reads]
    rfl
  · rw [toJson, capturesToJson_eq_map]
    exact Json.legible_tagged
      (Json.legible_object (by simpa [Json.Legible.str] using hcaptures.legible))

/-- A portable value is read from its encoding with fuel for its containers. -/
theorem Portable.encodes {v : Value} (hv : v.Portable) (hn : v.toJson.depth ≤ n) :
    Json.Encodes (read? n) v.toJson v := by
  induction hv generalizing n with
  | null =>
      refine ⟨?_, .str _⟩
      cases n with
      | zero => rfl
      | succ n => rfl
  | bool b => exact encodes_tagged rfl (.bool b) (fun _ => rfl) hn
  | int k =>
      refine encodes_tagged rfl (.int (fits_toInt k)) (fun n => ?_) hn
      have hread : read? (n + 1) (Value.int k).toJson = (Checked.fit? k.toInt).map Value.int := rfl
      rw [hread, Checked.fit?_eq_some_iff.mpr rfl]
      rfl
  | float h => exact encodes_tagged rfl (.float h) (fun _ => rfl) hn
  | string s => exact encodes_tagged rfl (.str s) (fun _ => rfl) hn
  | uuid u =>
      refine encodes_tagged rfl (.str _) (fun n => ?_) hn
      have hread (s : String) : read? (n + 1) (.tagged "Uuid" (.str s)) =
          (Uuid.read? s).map Value.uuid := rfl
      rw [toJson, hread, u.read?_text, Option.map_some]
  | @instant t h =>
      refine encodes_tagged rfl (.str _) (fun n => ?_) hn
      have hread (s : String) : read? (n + 1) (.tagged "Timestamp" (.str s)) =
          (Instant.read? s).map Value.instant := rfl
      rw [toJson, hread, h.read?_text, Option.map_some]
  | @list items h ih =>
      rw [toJson, Json.depth_tagged, Json.depth, itemsToJson_eq_map] at hn
      obtain ⟨n, rfl⟩ := Nat.exists_eq_add_of_le' (show 1 ≤ n by omega)
      refine encodes_list fun v hv => ih v hv ?_
      have hitem := Json.depth_le_depthItems (List.mem_map_of_mem (f := toJson) hv)
      omega
  | @record fields h ih =>
      simp only [toJson, fieldsToJson_eq_map, Json.depth_tagged, Json.depth_object, List.map_cons,
        Json.depthItems, Json.depth] at hn
      obtain ⟨n, rfl⟩ := Nat.exists_eq_add_of_le' (show 1 ≤ n by omega)
      refine encodes_record fun field hfield => ih field hfield ?_
      have hitem := Json.depth_le_depthItems (List.mem_map_of_mem (f := fieldToJson) hfield)
      simp only [fieldToJson, Json.depth, Json.depthItems] at hitem
      omega
  | @closure className captures h ih =>
      simp only [toJson, capturesToJson_eq_map, Json.depth_tagged, Json.depth_object,
        List.map_cons, Json.depthItems, Json.depth] at hn
      obtain ⟨n, rfl⟩ := Nat.exists_eq_add_of_le' (show 1 ≤ n by omega)
      refine encodes_closure fun c hc => ih c hc ?_
      have hitem := Json.depth_le_depthItems (List.mem_map_of_mem (f := captureToJson) hc)
      simp only [captureToJson, Json.depth_object, List.map_cons, Json.depthItems] at hitem
      omega
  | query root =>
      refine encodes_tagged rfl root.encodes.legible (fun n => ?_) hn
      have hread : read? (n + 1) (Value.query root).toJson =
          (SetRef.ofJson? root.toJson).map Value.query := rfl
      rw [hread, root.encodes.reads]
      rfl

theorem Portable.encodes_ofJson? {v : Value} (hv : v.Portable) :
    Json.Encodes ofJson? v.toJson v :=
  ⟨(hv.encodes (Nat.le_refl _)).reads, (hv.encodes (Nat.le_refl _)).legible⟩

end Value

end DeferredQuery
