import DeferredQuery.Proofs.Json.Pipelines
import DeferredQuery.Schema.Json

/-!
# Canonical texts

Schemas are read back from JSON as pipelines are. The canonical texts under the fingerprints of
pipelines and the identities of schemas therefore lose nothing: each is read as what it was written
for, and tells it from every other one.
-/

namespace DeferredQuery

variable {α : Type}

/-! ## Maps -/

namespace KeyMap

theorem insertEntry_last {x : Named α} {ys : List (Named α)} (h : ∀ y ∈ ys, y.name < x.name) :
    insertEntry x ys = ys ++ [x] := by
  induction ys with
  | nil => rfl
  | cons y ys ih =>
      obtain ⟨hy, hys⟩ := List.forall_mem_cons.mp h
      have hlt : ¬x.name < y.name := fun hxy => String.lt_irrefl _ (String.lt_trans hxy hy)
      have hne : x.name ≠ y.name := fun heq => String.lt_irrefl _ (heq ▸ hy)
      rw [insertEntry, if_neg hlt, if_neg hne, ih hys, List.cons_append]

/-- Adding entries in the order of their names puts each at the end. -/
theorem entries_foldl_insert {m : KeyMap α} {xs : List (Named α)}
    (h : (m.entries ++ xs).Pairwise fun a b => a.name < b.name) :
    (xs.foldl (fun m x => m.insert x.name x.value) m).entries = m.entries ++ xs := by
  induction xs generalizing m with
  | nil => simp
  | cons x xs ih =>
      have hlast : (m.insert x.name x.value).entries = m.entries ++ [x] :=
        insertEntry_last fun y hy => (List.pairwise_append.mp h).2.2 y hy x List.mem_cons_self
      rw [List.foldl_cons, ih, hlast, List.append_assoc, List.singleton_append]
      rwa [hlast, List.append_assoc, List.singleton_append]

theorem ofList_entries (m : KeyMap α) : ofList m.entries = m :=
  ext (entries_foldl_insert (by simpa [empty] using m.ordered))

/-- A map is written in the order of names, in which it is read back. -/
theorem encodes {read : Json → Option α} {write : α → Json} {m : KeyMap α}
    (h : ∀ x ∈ m.entries, Json.Encodes read (write x.value) x.value) :
    Json.Encodes (KeyMap.read? read) (m.toJson write) m where
  reads := by
    have hentries : (m.entries.map fun x => (⟨x.name, write x.value⟩ : Named Json)).mapM
        (fun m => (read m.value).bind fun v => some (⟨m.name, v⟩ : Named α)) =
          some (m.entries.map id) :=
      Json.mapM_map_eq_some fun x hx => by
        rw [(h x hx).reads]
        rfl
    refine Option.bind_eq_some_iff.mpr ⟨_, hentries, ?_⟩
    rw [List.map_id, ofList_entries]
    rfl
  legible := .obj fun m hm => by
    obtain ⟨x, hx, rfl⟩ := List.mem_map.mp hm
    exact (h x hx).legible

end KeyMap

/-! ## Schemas -/

theorem Property.encodes (p : Property) : Json.Encodes ofJson? p.toJson p where
  reads := Option.bind_eq_some_iff.mpr ⟨p.ty, p.ty.encodes_ofJson?.reads, rfl⟩
  legible := Json.legible_object (by simp [Json.Legible.str, p.ty.encodes_ofJson?.legible])

theorem Entity.encodes (e : Entity) : Json.Encodes ofJson? e.toJson e where
  reads :=
    have hproperties := Json.encodes_items fun p (_ : p ∈ e.properties) => p.encodes
    Option.bind_eq_some_iff.mpr ⟨e.properties, hproperties.reads, rfl⟩
  legible := by
    have hproperties := Json.encodes_items fun p (_ : p ∈ e.properties) => p.encodes
    exact Json.legible_object (by simp [Json.Legible.str, hproperties.legible])

theorem Schema.encodes (s : Schema) : Json.Encodes ofJson? s.toJson s := by
  have hentities := KeyMap.encodes fun x (_ : x ∈ s.entities.entries) => x.value.encodes
  have hsets := KeyMap.encodes fun x (_ : x ∈ s.sets.entries) => Json.encodes_string x.value
  constructor
  · refine Option.bind_eq_some_iff.mpr ⟨s.entities, hentities.reads, ?_⟩
    exact Option.bind_eq_some_iff.mpr ⟨s.sets, hsets.reads, rfl⟩
  · exact Json.legible_object (by simp [hentities.legible, hsets.legible])

/-! ## Texts -/

def Pipeline.ofText? (depth : Nat) (s : String) : Option Pipeline :=
  (Json.ofText? depth s).bind ofJson?

def Schema.ofText? (depth : Nat) (s : String) : Option Schema :=
  (Json.ofText? depth s).bind ofJson?

theorem Json.Encodes.ofText?_text {read : Json → Option α} {j : Json} {a : α} {depth : Nat}
    (h : Json.Encodes read j a) (hdepth : j.depth ≤ depth) :
    (Json.ofText? depth j.text).bind read = some a := by
  rw [h.legible.ofText?_text hdepth, Option.bind_some, h.reads]

/-- Encodings with the same text are of the same thing. -/
theorem Json.Encodes.eq_of_text {read : Json → Option α} {j k : Json} {a b : α}
    (ha : Json.Encodes read j a) (hb : Json.Encodes read k b) (h : j.text = k.text) : a = b := by
  have hread := ha.ofText?_text (le_max_left j.depth k.depth)
  rw [h, hb.ofText?_text (le_max_right j.depth k.depth)] at hread
  exact (Option.some.inj hread).symm

/-- Canonical texts are read back, however deep they nest. So the text under a fingerprint or an
identity belongs to one pipeline or schema alone. -/
theorem canonical_text_lossless :
    (∀ p : Pipeline, p.Portable → ∀ depth, p.toJson.depth ≤ depth →
      Pipeline.ofText? depth p.toJson.text = some p) ∧
    (∀ (s : Schema) depth, s.toJson.depth ≤ depth →
      Schema.ofText? depth s.toJson.text = some s) ∧
    (∀ p q : Pipeline, p.Portable → q.Portable → (p.toJson.text = q.toJson.text ↔ p = q)) ∧
    (∀ s r : Schema, s.toJson.text = r.toJson.text ↔ s = r) := by
  refine ⟨?_, ?_, ?_, ?_⟩
  · intro p hp depth hdepth
    exact hp.encodes.ofText?_text hdepth
  · intro s depth hdepth
    exact s.encodes.ofText?_text hdepth
  · intro p q hp hq
    refine ⟨hp.encodes.eq_of_text hq.encodes, ?_⟩
    rintro rfl
    rfl
  · intro s r
    refine ⟨s.encodes.eq_of_text r.encodes, ?_⟩
    rintro rfl
    rfl

/-- A pipeline with a leap second in a captured scope, a row that repeats a name and a terminal
operation without its predicate; another one has another text. -/
theorem canonical_text_lossless_of_captured :
    let since : Value := .closure "Scope" [⟨"since", .timestamp, .instant ⟨915148799, 1250000000⟩⟩]
    let row : Value := .record [⟨"x", .float 1.5⟩, ⟨"x", .string "a\"\n"⟩]
    let e : Expr := .binary .and
      (.binary .ge (.member (.parameter "o" (.entity "Order")) "Placed" .timestamp)
        (.member (.constant since (.closure "Scope")) "since" .timestamp))
      (.call ⟨"Rows", "Accepts"⟩ none [.constant row row.ty] .bool)
    let p : Pipeline := ⟨⟨"Order", "Orders"⟩,
      [.filter (.lambda [⟨"o", .entity "Order"⟩] e), .distinct, .count none], .single .int⟩
    let q : Pipeline := { p with operations := [.distinct] }
    let s : Schema := Schema.empty.withSet "Orders" "Order"
    (p.Portable ∧ p.toJson.depth ≤ Json.nestingLimit ∧
      Pipeline.ofText? Json.nestingLimit p.toJson.text = some p) ∧
    (s.toJson.depth ≤ Json.nestingLimit ∧
      Schema.ofText? Json.nestingLimit s.toJson.text = some s) ∧
    q.Portable ∧ p.toJson.text ≠ q.toJson.text := by
  intro since row e p q s
  have hsince : since.Portable := .closure _ (by
    simp only [List.mem_singleton, forall_eq]
    exact .instant ⟨by decide, by decide⟩)
  have hrow : row.Portable := .record (by
    simp only [List.forall_mem_cons]
    exact ⟨.float ⟨⟨_, _, _, rfl⟩, rfl⟩, .string _, nofun⟩)
  have hp : p.Portable := by
    intro op hop f hf v t hv
    simp only [p, List.mem_cons, List.not_mem_nil, or_false] at hop
    rcases hop with rfl | rfl | rfl
    · obtain rfl := List.mem_singleton.mp hf
      simp only [e, Expr.nodes, Expr.nodesOfList, List.mem_cons, List.mem_append, reduceCtorEq,
        List.not_mem_nil, Expr.constant.injEq, false_or, or_false] at hv
      rcases hv with ⟨rfl, -⟩ | ⟨rfl, -⟩
      · exact hsince
      · exact hrow
    · exact absurd hf List.not_mem_nil
    · exact absurd hf List.not_mem_nil
  have hq : q.Portable := by
    intro op hop f hf
    obtain rfl := List.mem_singleton.mp hop
    exact absurd hf List.not_mem_nil
  have hpq : p ≠ q := by
    intro heq
    exact absurd (congrArg (fun p => p.operations.length) heq) (by decide)
  have hdepth : p.toJson.depth ≤ Json.nestingLimit := by decide
  have hdepth' : s.toJson.depth ≤ Json.nestingLimit := by decide
  refine ⟨⟨hp, hdepth, ?_⟩, ⟨hdepth', ?_⟩, hq, ?_⟩
  · exact canonical_text_lossless.1 p hp _ hdepth
  · exact canonical_text_lossless.2.1 s _ hdepth'
  · exact fun htext => hpq ((canonical_text_lossless.2.2.1 p q hp hq).mp htext)

end DeferredQuery
