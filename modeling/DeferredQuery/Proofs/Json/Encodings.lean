import DeferredQuery.Proofs.Json.Text
import DeferredQuery.Ty.Json

/-!
# Encodings as JSON

An encoding has a text that reads back and a reader that takes it for what is encoded. Lists are
encoded item by item, and so every type has an encoding.
-/

namespace DeferredQuery

variable {α : Type} {n : Nat}

namespace Json

/-! ## Encodings -/

/-- A JSON value that its text is read as, and that in turn is read as `a`. -/
structure Encodes (read : Json → Option α) (j : Json) (a : α) : Prop where
  reads : read j = some a
  legible : j.Legible

variable {read : Json → Option α} {j : Json} {a : α}

theorem mapM_map_eq_some {β γ : Type} {f : α → β} {g : β → Option γ} {h : α → γ} {xs : List α}
    (hxs : ∀ x ∈ xs, g (f x) = some (h x)) : (xs.map f).mapM g = some (xs.map h) := by
  induction xs with
  | nil => rfl
  | cons x xs ih =>
      obtain ⟨hx, hxs⟩ := List.forall_mem_cons.mp hxs
      rw [List.map_cons, List.mapM_cons, hx, ih hxs]
      rfl

theorem encodes_string (s : String) : Encodes string? (.str s) s := ⟨rfl, .str s⟩

/-- A list is encoded item by item. -/
theorem encodes_items {write : α → Json} {xs : List α}
    (hxs : ∀ x ∈ xs, Encodes read (write x) x) :
    Encodes (fun j => do (← j.items?).mapM read) (.arr (xs.map write)) xs where
  reads := by
    rw [items?, Option.bind_eq_bind, Option.bind_some,
      mapM_map_eq_some (h := id) fun x hx => (hxs x hx).reads, List.map_id]
  legible := .arr fun j hj => by
    obtain ⟨x, hx, rfl⟩ := List.mem_map.mp hj
    exact (hxs x hx).legible

theorem legible_tagged {tag : String} (hj : j.Legible) : (tagged tag j).Legible :=
  .obj fun m hm => by
    rw [List.mem_singleton.mp hm]
    exact hj

theorem legible_object {members : List (String × Json)}
    (h : ∀ j ∈ members.map Prod.snd, j.Legible) : (object members).Legible :=
  .obj fun m hm => by
    obtain ⟨x, hx, rfl⟩ := List.mem_map.mp hm
    exact h _ (List.mem_map_of_mem hx)

/-! ## Depth -/

@[simp] theorem depth_tagged (tag : String) (j : Json) : (tagged tag j).depth = j.depth + 1 := by
  simp [tagged, depth, depthMembers]

theorem depth_le_depthItems {items : List Json} (hj : j ∈ items) : j.depth ≤ depthItems items := by
  induction items with
  | nil => cases hj
  | cons k items ih =>
      rw [depthItems]
      rcases List.mem_cons.mp hj with rfl | hj
      · exact le_max_left ..
      · exact (ih hj).trans (le_max_right ..)

@[simp] theorem depth_object (members : List (String × Json)) :
    (object members).depth = depthItems (members.map Prod.snd) + 1 := by
  have hmembers : depthMembers (members.map fun m => ⟨m.1, m.2⟩) =
      depthItems (members.map Prod.snd) := by
    induction members with
    | nil => rfl
    | cons m members ih => rw [List.map_cons, depthMembers, ih, List.map_cons, depthItems]
  rw [object, depth, hmembers]

end Json

/-! ## Types -/

namespace Ty

theorem listToJson_eq_map (ts : List Ty) : listToJson ts = ts.map toJson := by
  induction ts with
  | nil => rfl
  | cons t ts ih => rw [listToJson, ih, List.map_cons]

def fieldToJson (field : Named Ty) : Json :=
  .object [("name", .str field.name), ("data_type", field.value.toJson)]

theorem fieldsToJson_eq_map (fields : List (Named Ty)) :
    fieldsToJson fields = fields.map fieldToJson := by
  induction fields with
  | nil => rfl
  | cons field fields ih => rw [fieldsToJson, ih, List.map_cons, fieldToJson]

theorem read?_str (name : String) : read? n (.str name) = ofName? name := by
  cases n with
  | zero => rfl
  | succ n =>
      rw [read?]
      split
      case h_8 => rfl
      all_goals
        next heq => simp [Json.case?] at heq

theorem encodes_name {t : Ty} {name : String} (htoJson : t.toJson = .str name)
    (hname : ofName? name = some t) : Json.Encodes (read? n) t.toJson t := by
  rw [htoJson]
  exact ⟨(read?_str name).trans hname, .str name⟩

/-- A type that carries another one. -/
theorem encodes_wrapped {t inner : Ty} {tag : String} {wrap : Ty → Ty}
    (htoJson : t.toJson = .tagged tag inner.toJson)
    (hread : ∀ n, read? (n + 1) t.toJson = (read? n inner.toJson).map wrap) (ht : t = wrap inner)
    (hinner : ∀ {n}, inner.toJson.depth ≤ n → Json.Encodes (read? n) inner.toJson inner)
    (hn : t.toJson.depth ≤ n) : Json.Encodes (read? n) t.toJson t := by
  rw [htoJson, Json.depth_tagged] at hn
  obtain ⟨n, rfl⟩ := Nat.exists_eq_add_of_le' (show 1 ≤ n by omega)
  obtain ⟨hreads, hlegible⟩ := hinner (show inner.toJson.depth ≤ n by omega)
  constructor
  · rw [hread, hreads, ht]
    rfl
  · rw [htoJson]
    exact Json.legible_tagged hlegible

theorem encodes_field {read : Json → Option Ty} {field : Named Ty}
    (h : Json.Encodes read field.value.toJson field.value) :
    Json.Encodes (readField? read) (fieldToJson field) field where
  reads := by
    have hread : readField? read (fieldToJson field) =
        (read field.value.toJson).bind fun t => some ⟨field.name, t⟩ := rfl
    rw [hread, h.reads]
    rfl
  legible := Json.legible_object (by simp [Json.Legible.str, h.legible])

theorem encodes_struct {fields : List (Named Ty)}
    (h : ∀ field ∈ fields, Json.Encodes (read? n) field.value.toJson field.value) :
    Json.Encodes (read? (n + 1)) (struct fields).toJson (struct fields) := by
  have hfields := Json.encodes_items fun field hfield => encodes_field (h field hfield)
  have hread : read? (n + 1) (struct fields).toJson =
      ((fieldsToJson fields).mapM (readField? (read? n))).bind fun fs => some (struct fs) := rfl
  constructor
  · rw [hread, fieldsToJson_eq_map, show (fields.map fieldToJson).mapM (readField? (read? n)) =
      some fields from hfields.reads]
    rfl
  · rw [toJson, fieldsToJson_eq_map]
    exact Json.legible_tagged hfields.legible

theorem encodes_function {params : List Ty} {result : Ty}
    (hparams : ∀ t ∈ params, Json.Encodes (read? n) t.toJson t)
    (hresult : Json.Encodes (read? n) result.toJson result) :
    Json.Encodes (read? (n + 1)) (function params result).toJson (function params result) := by
  have hitems := Json.encodes_items hparams
  have hread : read? (n + 1) (function params result).toJson =
      ((listToJson params).mapM (read? n)).bind fun ps =>
        (read? n result.toJson).bind fun t => some (function ps t) := rfl
  constructor
  · rw [hread, listToJson_eq_map, show (params.map toJson).mapM (read? n) = some params from
      hitems.reads, hresult.reads]
    rfl
  · rw [toJson, listToJson_eq_map]
    exact Json.legible_tagged
      (Json.legible_object (by simp [hitems.legible, hresult.legible]))

mutual

/-- By recursion on the type, whose depth bounds the fuel. -/
theorem encodes : ∀ (t : Ty) {n : Nat}, t.toJson.depth ≤ n → Json.Encodes (read? n) t.toJson t
  | .bool, _, _ => encodes_name rfl rfl
  | .int, _, _ => encodes_name rfl rfl
  | .float, _, _ => encodes_name rfl rfl
  | .string, _, _ => encodes_name rfl rfl
  | .uuid, _, _ => encodes_name rfl rfl
  | .timestamp, _, _ => encodes_name rfl rfl
  | .object, _, _ => encodes_name rfl rfl
  | .null, _, _ => encodes_name rfl rfl
  | .unknown, _, _ => encodes_name rfl rfl
  | .nullable t, _, hn => encodes_wrapped rfl (fun _ => rfl) rfl t.encodes hn
  | .sequence t, _, hn => encodes_wrapped rfl (fun _ => rfl) rfl t.encodes hn
  | .queryable t, _, hn => encodes_wrapped rfl (fun _ => rfl) rfl t.encodes hn
  | .entity name, _ + 1, _ => ⟨rfl, Json.legible_tagged (.str name)⟩
  | .closure name, _ + 1, _ => ⟨rfl, Json.legible_tagged (.str name)⟩
  | .entity _, 0, hn => by simp [toJson] at hn
  | .closure _, 0, hn => by simp [toJson] at hn
  | .struct fields, n, hn => by
    rw [toJson, Json.depth_tagged, Json.depth, fieldsToJson_eq_map] at hn
    obtain ⟨n, rfl⟩ := Nat.exists_eq_add_of_le' (show 1 ≤ n by omega)
    refine encodes_struct fun field hfield => encodes_fields fields field hfield n ?_
    have hitem := Json.depth_le_depthItems (List.mem_map_of_mem (f := fieldToJson) hfield)
    simp only [fieldToJson, Json.depth_object, List.map_cons, Json.depthItems] at hitem
    omega
  | .function params result, n, hn => by
    simp only [toJson, listToJson_eq_map, Json.depth_tagged, Json.depth_object, List.map_cons,
      Json.depthItems, Json.depth] at hn
    obtain ⟨n, rfl⟩ := Nat.exists_eq_add_of_le' (show 1 ≤ n by omega)
    refine encodes_function (fun t ht => encodes_list params t ht n ?_) (result.encodes (by omega))
    have hitem := Json.depth_le_depthItems (List.mem_map_of_mem (f := toJson) ht)
    omega

theorem encodes_list : ∀ ts : List Ty, ∀ t ∈ ts, ∀ n, t.toJson.depth ≤ n →
    Json.Encodes (read? n) t.toJson t
  | [] => List.forall_mem_nil _
  | t :: ts => List.forall_mem_cons.mpr ⟨fun _ hn => encodes t hn, encodes_list ts⟩

theorem encodes_fields : ∀ fields : List (Named Ty), ∀ field ∈ fields, ∀ n,
    field.value.toJson.depth ≤ n → Json.Encodes (read? n) field.value.toJson field.value
  | [] => List.forall_mem_nil _
  | ⟨_, t⟩ :: fields =>
    List.forall_mem_cons.mpr ⟨fun _ hn => encodes t hn, encodes_fields fields⟩

end

theorem encodes_ofJson? (t : Ty) : Json.Encodes ofJson? t.toJson t :=
  ⟨(t.encodes (Nat.le_refl _)).reads, (t.encodes (Nat.le_refl _)).legible⟩

end Ty

end DeferredQuery
