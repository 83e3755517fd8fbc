import DeferredQuery.Proofs.Sql.Markers
import DeferredQuery.Proofs.Expr.Matching

/-!
# Statements that differ in casts

Two lists of pieces are aligned when they differ in casts alone: around markers, and to text around
output columns. Then they have the same markers, and the same text only with the same casts.
-/

namespace DeferredQuery.Sql

/-- The casts at one place of a statement, the outermost first. -/
abbrev Casts := List String

/-! ## Aligned pieces -/

def chars (ps : List Piece) : List Char := (Piece.textOf ps).toList

theorem chars_append (ps qs : List Piece) : chars (ps ++ qs) = chars ps ++ chars qs := by
  rw [chars, Piece.textOf_append, String.toList_append, chars, chars]

@[simp] theorem chars_text (s : String) : chars [.text s] = s.toList := by
  simp [chars, Piece.textOf]

/-- The pieces have the same markers, and the same text if and only if they have the same casts;
this can be told from the front of longer texts. -/
structure Aligned (ps ps' : List Piece) (cs cs' : List Casts) : Prop where
  length : cs.length = cs'.length
  names : Piece.namesOf ps = Piece.namesOf ps'
  text : cs = cs' → Piece.textOf ps = Piece.textOf ps'
  casts : ∀ rest rest', chars ps ++ rest = chars ps' ++ rest' → cs = cs' ∧ rest = rest'

namespace Aligned

variable {ps ps' qs qs' : List Piece} {cs cs' ds ds' : List Casts}

theorem refl (ps : List Piece) (cs : List Casts) : Aligned ps ps cs cs :=
  ⟨rfl, rfl, fun _ => rfl, fun _ _ h => ⟨rfl, List.append_cancel_left h⟩⟩

theorem append (h : Aligned ps ps' cs cs') (k : Aligned qs qs' ds ds') :
    Aligned (ps ++ qs) (ps' ++ qs') (cs ++ ds) (cs' ++ ds') where
  length := by rw [List.length_append, List.length_append, h.length, k.length]
  names := by rw [Piece.namesOf_append, Piece.namesOf_append, h.names, k.names]
  text heq := by
    obtain ⟨hcs, hds⟩ := List.append_inj heq h.length
    rw [Piece.textOf_append, Piece.textOf_append, h.text hcs, k.text hds]
  casts rest rest' heq := by
    rw [chars_append, chars_append, List.append_assoc, List.append_assoc] at heq
    obtain ⟨rfl, hrest⟩ := h.casts _ _ heq
    obtain ⟨rfl, rfl⟩ := k.casts _ _ hrest
    exact ⟨rfl, rfl⟩

theorem symm (h : Aligned ps ps' cs cs') : Aligned ps' ps cs' cs where
  length := h.length.symm
  names := h.names.symm
  text heq := (h.text heq.symm).symm
  casts rest rest' heq := by
    obtain ⟨rfl, rfl⟩ := h.casts rest' rest heq.symm
    exact ⟨rfl, rfl⟩

/-- Fixed text before aligned pieces. -/
theorem cons (s : String) (h : Aligned ps ps' cs cs') :
    Aligned (.text s :: ps) (.text s :: ps') cs cs' := (refl [.text s] []).append h

/-- Fixed text behind aligned pieces. -/
theorem concat (h : Aligned ps ps' cs cs') (s : String) :
    Aligned (ps ++ [.text s]) (ps' ++ [.text s]) cs cs' := by
  have hall := h.append (refl [.text s] [])
  rwa [List.append_nil, List.append_nil] at hall

/-- One more place with the same casts. -/
theorem place (h : Aligned ps ps' cs cs') (c : Casts) : Aligned ps ps' (c :: cs) (c :: cs') :=
  (refl [] [c]).append h

/-- The same cast around all places. -/
theorem map (h : Aligned ps ps' cs cs') {f : Casts → Casts} (hf : Function.Injective f) :
    Aligned ps ps' (cs.map f) (cs'.map f) where
  length := by rw [List.length_map, List.length_map, h.length]
  names := h.names
  text heq := h.text (hf.list_map heq)
  casts rest rest' heq := by
    obtain ⟨rfl, hrest⟩ := h.casts rest rest' heq
    exact ⟨rfl, hrest⟩

theorem text_iff (h : Aligned ps ps' cs cs') :
    Piece.textOf ps = Piece.textOf ps' ↔ cs = cs' := by
  refine ⟨fun heq => ?_, h.text⟩
  exact (h.casts [] [] (by rw [chars, chars, heq])).1

end Aligned

/-! ## Aligned lists -/

inductive AlignedAll :
    List (List Piece) → List (List Piece) → List Casts → List Casts → Prop where
  | nil : AlignedAll [] [] [] []
  | cons {ps ps' : List Piece} {pss pss' : List (List Piece)} {cs cs' ds ds' : List Casts}
      (h : Aligned ps ps' cs cs') (k : AlignedAll pss pss' ds ds') :
      AlignedAll (ps :: pss) (ps' :: pss') (cs ++ ds) (cs' ++ ds')

namespace AlignedAll

variable {pss pss' : List (List Piece)} {cs cs' : List Casts}

theorem joinWith (h : AlignedAll pss pss' cs cs') (sep : String) :
    Aligned (Piece.joinWith sep pss) (Piece.joinWith sep pss') cs cs' := by
  induction h with
  | nil => exact .refl [] []
  | cons h k ih =>
      cases k with
      | nil => simpa [Piece.joinWith] using h
      | cons h' k' => exact h.append (ih.cons sep)

theorem flatten (h : AlignedAll pss pss' cs cs') : Aligned pss.flatten pss'.flatten cs cs' := by
  induction h with
  | nil => exact .refl [] []
  | cons h k ih => exact h.append ih

theorem clause (h : AlignedAll pss pss' cs cs') (words sep : String) :
    Aligned (Sql.clause words sep pss) (Sql.clause words sep pss') cs cs' := by
  cases h with
  | nil => exact .refl [] []
  | cons h k => exact ((AlignedAll.cons h k).joinWith sep).cons words

end AlignedAll

/-! ## Terms -/

mutual

def Term.casts : Term → List Casts
  | .column .. => []
  | .parameter _ => [[]]
  | .literal _ => []
  | .function _ args _ => castsOfList args
  | .binary _ left right => left.casts ++ right.casts
  | .unary _ operand => operand.casts
  | .cast operand t => operand.casts.map ((typeName? t).toList ++ ·)

def castsOfList : List Term → List Casts
  | [] => []
  | t :: rest => t.casts ++ castsOfList rest

end

def Term.Alike (t t' : Term) : Prop :=
  ∀ ps ps', t.pieces = .ok ps → t'.pieces = .ok ps' → Aligned ps ps' t.casts t'.casts

namespace Term.Alike

theorem refl (t : Term) : Term.Alike t t := fun ps ps' h h' => by
  rw [h] at h'
  cases h'
  exact .refl ps t.casts

theorem literalText_eq {v v' : Value} (h : v.Alike v') {s s' : String}
    (hs : literalText v = .ok s) (hs' : literalText v' = .ok s') : s = s' := by
  cases h with
  | same => exact Except.ok.inj (hs.symm.trans hs')
  | float h =>
      cases hs
      cases hs'
      rw [h]
  | query h => cases hs

theorem literal {v v' : Value} (h : v.Alike v') : Term.Alike (.literal v) (.literal v') := by
  intro ps ps' hps hps'
  rw [pieces] at hps hps'
  obtain ⟨s, hs, hps⟩ := bind_eq_ok.mp hps
  obtain ⟨s', hs', hps'⟩ := bind_eq_ok.mp hps'
  obtain rfl := literalText_eq h hs hs'
  cases hps
  cases hps'
  exact .refl _ []

theorem typeName_plain : ∀ {t : Ty} {name : String}, typeName? t = some name → ')' ∉ name.toList
  | .nullable t, name, h => typeName_plain (t := t) h
  | .bool, _, rfl | .int, _, rfl | .float, _, rfl | .string, _, rfl | .uuid, _, rfl
  | .timestamp, _, rfl => by decide

def markerPieces (name : String) : Option String → List Piece
  | none => [.marker name]
  | some type => [.text "CAST(", .marker name, .text (" AS " ++ type ++ ")")]

theorem pieces_placeholder (name : String) (t : Ty) :
    (Sql.placeholder name t).pieces = .ok (markerPieces name (typeName? t)) ∧
      (Sql.placeholder name t).casts = [(typeName? t).toList] := by
  unfold Sql.placeholder
  cases htype : typeName? t with
  | none => exact ⟨rfl, rfl⟩
  | some type =>
      refine ⟨?_, by simp [casts, htype]⟩
      change (Term.cast (.parameter name) t).pieces = _
      rw [pieces, htype]
      rfl

theorem chars_markerPieces (name type : String) :
    chars (markerPieces name (some type)) =
      'C' :: "AST(? AS ".toList ++ (type.toList ++ [')']) := by
  simp [chars, markerPieces, Piece.textOf]

/-- A cast is told from its absence, and its type is read up to the parenthesis that ends it. -/
theorem aligned_markers (name : String) {o o' : Option String}
    (ho : ∀ type ∈ o, ')' ∉ type.toList) (ho' : ∀ type ∈ o', ')' ∉ type.toList) :
    Aligned (markerPieces name o) (markerPieces name o') [o.toList] [o'.toList] := by
  refine ⟨rfl, ?_, ?_, ?_⟩
  · cases o <;> cases o' <;> rfl
  · intro h
    have ho : o = o' := by cases o <;> cases o' <;> simp_all
    rw [ho]
  · intro rest rest' h
    have hplain : chars (markerPieces name none) = ['?'] := by
      simp [chars, markerPieces, Piece.textOf]
    cases o <;> cases o' <;> simp only [hplain, chars_markerPieces] at h
    · exact ⟨rfl, by simpa using h⟩
    · exact absurd (List.cons.inj h).1 (by decide)
    · exact absurd (List.cons.inj h).1 (by decide)
    · rename_i type type'
      simp only [List.append_assoc, List.cons_append, List.nil_append, List.cons.injEq,
        true_and] at h
      have h := List.append_cancel_left h
      obtain ⟨hup, hfrom⟩ := @Form.upTo_append ')' type.toList rest (ho type rfl)
      obtain ⟨hup', hfrom'⟩ := @Form.upTo_append ')' type'.toList rest' (ho' type' rfl)
      rw [h] at hup hfrom
      rw [hup', String.ofList_toList, String.ofList_toList] at hup
      rw [hfrom'] at hfrom
      exact ⟨by rw [hup], (List.cons.inj hfrom).2.symm⟩

theorem placeholder (name : String) (t t' : Ty) :
    Term.Alike (Sql.placeholder name t) (Sql.placeholder name t') := by
  intro ps ps' hps hps'
  obtain ⟨hpieces, hcasts⟩ := pieces_placeholder name t
  obtain ⟨hpieces', hcasts'⟩ := pieces_placeholder name t'
  rw [hpieces] at hps
  rw [hpieces'] at hps'
  cases hps
  cases hps'
  rw [hcasts, hcasts']
  exact aligned_markers name (fun _ => typeName_plain) (fun _ => typeName_plain)

/-- Terms of a list are aligned one by one. -/
theorem alignedAll_piecesList {ts ts' : List Term} (h : List.Forall₂ Term.Alike ts ts')
    {pss pss' : List (List Piece)} (hpss : piecesList ts = .ok pss)
    (hpss' : piecesList ts' = .ok pss') :
    AlignedAll pss pss' (castsOfList ts) (castsOfList ts') := by
  induction h generalizing pss pss' with
  | nil =>
      cases hpss
      cases hpss'
      exact .nil
  | cons h _ ih =>
      obtain ⟨ps, hps, hpss⟩ := bind_eq_ok.mp hpss
      obtain ⟨qss, hqss, hpss⟩ := bind_eq_ok.mp hpss
      obtain ⟨ps', hps', hpss'⟩ := bind_eq_ok.mp hpss'
      obtain ⟨qss', hqss', hpss'⟩ := bind_eq_ok.mp hpss'
      cases hpss
      cases hpss'
      exact .cons (h ps ps' hps hps') (ih hqss hqss')

theorem function (name : String) {args args' : List Term}
    (h : List.Forall₂ Term.Alike args args') (t t' : Ty) :
    Term.Alike (.function name args t) (.function name args' t') := by
  intro ps ps' hps hps'
  rw [pieces] at hps hps'
  obtain ⟨pss, hpss, hps⟩ := bind_eq_ok.mp hps
  obtain ⟨pss', hpss', hps'⟩ := bind_eq_ok.mp hps'
  cases hps
  cases hps'
  exact (((alignedAll_piecesList h hpss hpss').joinWith ", ").cons _).concat ")"

/-- The operator is the same in both terms, and the operands are aligned. -/
theorem binary (op : BinOp) {l l' r r' : Term} (hl : Term.Alike l l') (hr : Term.Alike r r') :
    Term.Alike (.binary op l r) (.binary op l' r') := by
  intro ps ps' hps hps'
  rw [pieces] at hps hps'
  obtain ⟨lps, hlps, hps⟩ := bind_eq_ok.mp hps
  obtain ⟨rps, hrps, hps⟩ := bind_eq_ok.mp hps
  obtain ⟨lps', hlps', hps'⟩ := bind_eq_ok.mp hps'
  obtain ⟨rps', hrps', hps'⟩ := bind_eq_ok.mp hps'
  cases hps
  cases hps'
  simp only [List.cons_append, List.append_assoc]
  have hright := ((hr _ _ hrps hrps').concat ")").cons (" " ++ operatorText op ++ " ")
  exact ((hl _ _ hlps hlps').append hright).cons "("

theorem unary (op : UnOp) {u u' : Term} (h : Term.Alike u u') :
    Term.Alike (.unary op u) (.unary op u') := by
  intro ps ps' hps hps'
  rw [pieces] at hps hps'
  obtain ⟨ups, hups, hps⟩ := bind_eq_ok.mp hps
  obtain ⟨ups', hups', hps'⟩ := bind_eq_ok.mp hps'
  cases hps
  cases hps'
  exact ((h _ _ hups hups').concat ")").cons _

/-- The type of a cast is the same in both terms. -/
theorem cast {u u' : Term} (h : Term.Alike u u') (t : Ty) :
    Term.Alike (.cast u t) (.cast u' t) := by
  intro ps ps' hps hps'
  rw [pieces] at hps hps'
  cases htype : typeName? t with
  | none =>
      rw [htype] at hps
      cases hps
  | some type =>
      rw [htype] at hps hps'
      obtain ⟨ups, hups, hps⟩ := bind_eq_ok.mp hps
      obtain ⟨ups', hups', hps'⟩ := bind_eq_ok.mp hps'
      cases hps
      cases hps'
      rw [casts, casts, htype]
      exact (((h _ _ hups hups').concat _).cons _).map (List.append_right_injective _)

end Term.Alike

end DeferredQuery.Sql
