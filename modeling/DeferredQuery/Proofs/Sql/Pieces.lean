import DeferredQuery.Proofs.Sql.Clauses
import DeferredQuery.Sql.Statement

/-!
# The pieces of a statement

A text with placeholders is made of pieces: fixed text, and the places of values that are bound
when it runs. The pieces of a term or a clause give the text that rendering writes and the names
that it collects, in one order.
-/

namespace DeferredQuery.Sql

inductive Piece where
  | text (s : String)
  /-- A marker for the value of a placeholder. -/
  | marker (name : String)
deriving DecidableEq, Repr

namespace Piece

def textOf : List Piece → String
  | [] => ""
  | .text s :: rest => s ++ textOf rest
  | .marker _ :: rest => "?" ++ textOf rest

def namesOf : List Piece → List String
  | [] => []
  | .text _ :: rest => namesOf rest
  | .marker name :: rest => name :: namesOf rest

def joinWith (sep : String) : List (List Piece) → List Piece
  | [] => []
  | [ps] => ps
  | ps :: qs :: rest => ps ++ .text sep :: joinWith sep (qs :: rest)

end Piece

mutual

def Term.pieces : Term → Except Error (List Piece)
  | .column table column => return [.text (table ++ "." ++ quoteName column)]
  | .parameter name => return [.marker name]
  | .literal v => do
    let s ← literalText v
    return [.text s]
  | .function name args _ => do
    let args ← piecesList args
    return .text (name ++ "(") :: Piece.joinWith ", " args ++ [.text ")"]
  | .binary op left right => do
    let left ← left.pieces
    let right ← right.pieces
    return .text "(" :: left ++ .text (" " ++ operatorText op ++ " ") :: right ++ [.text ")"]
  | .unary op operand => do
    let operand ← operand.pieces
    return .text (unaryText op) :: operand ++ [.text ")"]
  | .cast operand t =>
    match typeName? t with
    | none => .error (.unsupported (.castTo t))
    | some name => do
      let operand ← operand.pieces
      return .text "CAST(" :: operand ++ [.text (" AS " ++ name ++ ")")]

def piecesList : List Term → Except Error (List (List Piece))
  | [] => .ok []
  | t :: rest => do
    let ps ← t.pieces
    let pss ← piecesList rest
    return ps :: pss

end

namespace Column

def pieces (c : Column) : Except Error (List Piece) := do
  let ps ← c.term.pieces
  let ps := if c.ty.unwrap = .uuid then .text "CAST(" :: ps ++ [.text " AS VARCHAR)"] else ps
  return ps ++ [.text (" AS " ++ quoteName c.name)]

def listPieces : List Column → Except Error (List (List Piece))
  | [] => .ok []
  | c :: rest => do
    let ps ← c.pieces
    let pss ← listPieces rest
    return ps :: pss

end Column

def recordItems : List (Named Row) → Except Error (List (List Piece) × List (Named Ty))
  | [] => return ([], [])
  | ⟨name, .scalar term t⟩ :: rest => do
    let ps ← Column.pieces ⟨name, t, term⟩
    let (pss, ts) ← recordItems rest
    return (ps :: pss, ⟨name, t⟩ :: ts)
  | ⟨name, _⟩ :: _ => .error (.unsupported (.wideField name))

def projection (schema : Schema) : Row → Except Error (List Piece × Columns)
  | .entity table entity =>
    match schema.entities.get? entity with
    | none => .error (.unknownSet entity)
    | some e => do
      let items ← Column.listPieces
        (e.properties.map fun p => ⟨p.name, p.ty, .column table p.column⟩)
      return (Piece.joinWith ", " items, .record (e.properties.map fun p => ⟨p.name, p.ty⟩))
  | .scalar term t => do
    let ps ← Column.pieces ⟨valueName, t, term⟩
    return (ps, .scalar t)
  | .record fields => do
    let (items, ts) ← recordItems fields
    return (Piece.joinWith ", " items, .record ts)

namespace Join

def pieces (j : Join) : Except Error (List Piece) := do
  let outer ← j.outerKey.pieces
  let inner ← j.innerKey.pieces
  return .text (" JOIN " ++ quoteName j.table ++ " AS " ++ j.name ++ " ON ") :: outer ++
    .text " = " :: inner

end Join

namespace SortKey

def pieces (k : SortKey) : Except Error (List Piece) := do
  let ps ← k.term.pieces
  return ps ++ [.text (if k.descending then " DESC NULLS LAST" else " ASC NULLS FIRST")]

def listPieces : List SortKey → Except Error (List (List Piece))
  | [] => .ok []
  | k :: rest => do
    let ps ← k.pieces
    let pss ← listPieces rest
    return ps :: pss

end SortKey

def clause (words sep : String) (parts : List (List Piece)) : List Piece :=
  if parts.isEmpty then [] else .text words :: Piece.joinWith sep parts

def optionPieces {α : Type} (pieces : α → Except Error (List Piece)) :
    Option α → Except Error (List (List Piece))
  | none => .ok []
  | some a => do
    let ps ← pieces a
    return [ps]

namespace Cardinality

def wrapPieces (inner : List Piece) (columns : Columns) : Cardinality → List Piece × Columns
  | .count =>
    (.text ("SELECT COUNT(*) AS " ++ quoteName valueName ++ " FROM (") :: inner ++
      [.text ") AS q"], .scalar .int)
  | .exists =>
    (.text "SELECT EXISTS (" :: inner ++ [.text (") AS " ++ quoteName valueName)], .scalar .bool)
  | _ => (inner, columns)

end Cardinality

namespace Select

def pieces (schema : Schema) (s : Select) : Except Error (List Piece × Columns) := do
  let (items, columns) ← projection schema s.current
  let join ← optionPieces Join.pieces s.join
  let filters ← piecesList s.filters
  let order ← SortKey.listPieces s.order
  let limit ← optionPieces Term.pieces s.limit
  let offset ← optionPieces Term.pieces s.offset
  let inner :=
    s.comments.map (fun c => Piece.text ("/* " ++ c ++ " */\n")) ++
    .text (if s.distinct then "SELECT DISTINCT " else "SELECT ") :: items ++
    .text (" FROM " ++ quoteName s.table ++ " AS " ++ outerName) ::
    join.flatten ++ clause " WHERE " " AND " filters ++ clause " ORDER BY " ", " order ++
    clause " LIMIT " "" limit ++ clause " OFFSET " "" offset
  return s.cardinality.wrapPieces inner columns

end Select

/-! ## Texts and names of pieces -/

namespace Piece

@[simp] theorem textOf_append (ps qs : List Piece) :
    textOf (ps ++ qs) = textOf ps ++ textOf qs := by
  induction ps with
  | nil => simp [textOf]
  | cons p ps ih => cases p <;> simp [textOf, ih, String.append_assoc]

@[simp] theorem namesOf_append (ps qs : List Piece) :
    namesOf (ps ++ qs) = namesOf ps ++ namesOf qs := by
  induction ps with
  | nil => rfl
  | cons p ps ih => cases p <;> simp [namesOf, ih]

@[simp] theorem textOf_joinWith (sep : String) (pss : List (List Piece)) :
    textOf (joinWith sep pss) = Text.joinWith sep (pss.map textOf) := by
  induction pss with
  | nil => rfl
  | cons ps pss ih =>
      cases pss with
      | nil => rfl
      | cons qs pss =>
          rw [joinWith, textOf_append, textOf, ih]
          simp [Text.joinWith_cons_cons, String.append_assoc]

@[simp] theorem namesOf_joinWith (sep : String) (pss : List (List Piece)) :
    namesOf (joinWith sep pss) = pss.flatMap namesOf := by
  induction pss with
  | nil => rfl
  | cons ps pss ih =>
      cases pss with
      | nil => simp [joinWith]
      | cons qs pss =>
          rw [joinWith, namesOf_append, namesOf, ih]
          rfl

@[simp] theorem namesOf_flatten (pss : List (List Piece)) :
    namesOf pss.flatten = pss.flatMap namesOf := by
  induction pss with
  | nil => rfl
  | cons ps pss ih => rw [List.flatten_cons, namesOf_append, ih, List.flatMap_cons]

@[simp] theorem namesOf_clause (words sep : String) (parts : List (List Piece)) :
    namesOf (clause words sep parts) = parts.flatMap namesOf := by
  unfold clause
  split
  · rename_i hempty
    rw [List.isEmpty_iff.mp hempty]
    rfl
  · rw [namesOf, namesOf_joinWith]

theorem textOf_comments (comments : List String) (f : String → String) :
    textOf (comments.map fun c => .text (f c)) = String.join (comments.map f) := by
  induction comments with
  | nil => rfl
  | cons c comments ih => simp [textOf, ih]

theorem namesOf_comments (comments : List String) (f : String → String) :
    namesOf (comments.map fun c => .text (f c)) = [] := by
  induction comments with
  | nil => rfl
  | cons c comments ih => exact ih

/-- Lists of pieces without words around them. -/
theorem textOf_clause_empty (pss : List (List Piece)) :
    textOf (clause "" "" pss) = textOf pss.flatten := by
  cases pss with
  | nil => rfl
  | cons ps pss =>
      rw [clause, if_neg (by simp), textOf, String.empty_append]
      induction pss generalizing ps with
      | nil => simp [joinWith]
      | cons qs pss ih =>
          rw [joinWith, textOf_append, textOf, String.empty_append, ih, ← textOf_append]
          rfl

theorem wrap_textOf (inner : List Piece) (columns : Columns) (c : Cardinality) :
    c.wrap (textOf inner) columns =
      (textOf (c.wrapPieces inner columns).1, (c.wrapPieces inner columns).2) := by
  cases c <;> simp [Cardinality.wrap, Cardinality.wrapPieces, textOf, String.append_assoc]

theorem namesOf_wrapPieces (inner : List Piece) (columns : Columns) (c : Cardinality) :
    namesOf (c.wrapPieces inner columns).1 = namesOf inner := by
  cases c <;> simp [Cardinality.wrapPieces, namesOf]

end Piece

/-! ## Rendering gives the pieces -/

/-- What rendering comes to: the text of the pieces, and their names behind the given ones. -/
def rendered (given : List String) (ps : List Piece) : String × List String :=
  (Piece.textOf ps, given ++ Piece.namesOf ps)

def renderedAll (given : List String) (pss : List (List Piece)) : List String × List String :=
  (pss.map Piece.textOf, given ++ pss.flatMap Piece.namesOf)

theorem run_bind_map {α β γ : Type} {m : Rendering α} {e : Except Error γ}
    {out : γ → α × List String} {given : List String} (h : m.run given = out <$> e)
    (f : α → Rendering β) :
    (m >>= f).run given = e >>= fun c => (f (out c).1).run (out c).2 := by
  rw [StateT.run_bind, h]
  cases e <;> rfl

/-- Parts are rendered in their order, each behind the names of the ones before it. -/
theorem run_list {α : Type} {render : α → Rendering String}
    {pieces : α → Except Error (List Piece)} {as : List α}
    (h : ∀ a ∈ as, ∀ given, (render a).run given = rendered given <$> pieces a)
    (given : List String) :
    (as.mapM render).run given = renderedAll given <$> as.mapM pieces := by
  induction as generalizing given with
  | nil => simp [renderedAll]
  | cons a as ih =>
      rw [List.mapM_cons, List.mapM_cons, run_bind_map (h a List.mem_cons_self given), map_bind]
      refine bind_congr fun ps => ?_
      rw [run_bind_map (ih (fun b hb => h b (List.mem_cons_of_mem _ hb)) _), map_bind]
      refine bind_congr fun pss => ?_
      simp [renderedAll, rendered]

theorem eq_ok_of_run {m : Rendering String} {given recorded : List String} {text : String}
    {e : Except Error (List Piece)} (h : m.run given = rendered given <$> e)
    (hrun : m.run given = .ok (text, recorded)) :
    ∃ ps, e = .ok ps ∧ text = Piece.textOf ps ∧ recorded = given ++ Piece.namesOf ps := by
  rw [h] at hrun
  cases e with
  | error e => cases hrun
  | ok ps =>
      cases hrun
      exact ⟨ps, rfl, rfl, rfl⟩

theorem renderList_eq_mapM (ts : List Term) : renderList ts = ts.mapM Term.render := by
  induction ts with
  | nil => rfl
  | cons t ts ih => rw [renderList, ih, List.mapM_cons]

theorem piecesList_eq_mapM (ts : List Term) : piecesList ts = ts.mapM Term.pieces := by
  induction ts with
  | nil => rfl
  | cons t ts ih => rw [piecesList, ih, List.mapM_cons]

theorem Column.listPieces_eq_mapM (cs : List Column) :
    Column.listPieces cs = cs.mapM Column.pieces := by
  induction cs with
  | nil => rfl
  | cons c cs ih => rw [Column.listPieces, ih, List.mapM_cons]

theorem SortKey.listPieces_eq_mapM (keys : List SortKey) :
    SortKey.listPieces keys = keys.mapM SortKey.pieces := by
  induction keys with
  | nil => rfl
  | cons k keys ih => rw [SortKey.listPieces, ih, List.mapM_cons]

theorem optionPieces_eq_mapM {α : Type} (pieces : α → Except Error (List Piece)) (o : Option α) :
    optionPieces pieces o = o.toList.mapM pieces := by
  cases o with
  | none => rfl
  | some a => rw [optionPieces, Option.toList_some, List.mapM_cons]; rfl

/-- A term is rendered as its pieces. -/
theorem Term.run_render (t : Term) (given : List String) :
    t.render.run given = rendered given <$> t.pieces := by
  induction t generalizing given with
  | column table column => simp [Term.render, Term.pieces, rendered, Piece.textOf, Piece.namesOf]
  | parameter name => simp [Term.render, Term.pieces, rendered, Piece.textOf, Piece.namesOf]
  | literal v =>
      rw [Term.render, Term.pieces, map_bind]
      cases literalText v with
      | error e => rfl
      | ok s => simp [rendered, Piece.textOf, Piece.namesOf]
  | function name args t ih =>
      rw [Term.render, Term.pieces, renderList_eq_mapM, piecesList_eq_mapM,
        run_bind_map (run_list ih given), map_bind]
      refine bind_congr fun pss => ?_
      simp [renderedAll, rendered, Piece.textOf, Piece.namesOf, Text.commaSep, String.append_assoc]
  | binary op left right ihl ihr =>
      rw [Term.render, Term.pieces, run_bind_map (ihl given), map_bind]
      refine bind_congr fun ls => ?_
      rw [run_bind_map (ihr _), map_bind]
      refine bind_congr fun rs => ?_
      simp [rendered, Piece.textOf, Piece.namesOf, String.append_assoc]
  | unary op operand ih =>
      rw [Term.render, Term.pieces, run_bind_map (ih given), map_bind]
      refine bind_congr fun us => ?_
      simp [rendered, Piece.textOf, Piece.namesOf, String.append_assoc]
  | cast operand t ih =>
      rw [Term.render, Term.pieces]
      cases typeName? t with
      | none => rfl
      | some name =>
          simp only
          rw [run_bind_map (ih given), map_bind]
          refine bind_congr fun us => ?_
          simp [rendered, Piece.textOf, Piece.namesOf, String.append_assoc]

theorem Column.run_render (c : Column) (given : List String) :
    c.render.run given = rendered given <$> c.pieces := by
  rw [Column.render, Column.pieces, run_bind_map (c.term.run_render given), map_bind]
  refine bind_congr fun ps => ?_
  split <;>
    simp [rendered, Piece.textOf, Piece.namesOf, String.append_assoc, -String.reduceAppend]

theorem Join.run_render (j : Join) (given : List String) :
    j.render.run given = rendered given <$> j.pieces := by
  rw [Join.render, Join.pieces, run_bind_map (j.outerKey.run_render given), map_bind]
  refine bind_congr fun outer => ?_
  rw [run_bind_map (j.innerKey.run_render _), map_bind]
  refine bind_congr fun inner => ?_
  simp [rendered, Piece.textOf, Piece.namesOf, String.append_assoc]

theorem SortKey.run_render (k : SortKey) (given : List String) :
    k.render.run given = rendered given <$> k.pieces := by
  rw [SortKey.render, SortKey.pieces, run_bind_map (k.term.run_render given), map_bind]
  refine bind_congr fun ps => ?_
  simp [rendered, Piece.textOf, Piece.namesOf]

/-- A clause without parts is left out, with its leading words. -/
theorem run_renderClause {α : Type} {render : α → Rendering String}
    {pieces : α → Except Error (List Piece)}
    (h : ∀ a given, (render a).run given = rendered given <$> pieces a) (words sep : String)
    (parts : List α) (given : List String) :
    (renderClause words sep render parts).run given =
      (fun pss => rendered given (clause words sep pss)) <$> parts.mapM pieces := by
  cases parts with
  | nil => simp [renderClause, clause, rendered, Piece.textOf, Piece.namesOf]
  | cons a rest =>
      rw [renderClause, List.isEmpty_cons, if_neg Bool.false_ne_true,
        run_bind_map (run_list (fun b _ => h b) given), List.mapM_cons, map_bind]
      simp only [map_bind, bind_assoc, pure_bind, map_pure]
      refine bind_congr fun ps => bind_congr fun pss => ?_
      simp [renderedAll, rendered, clause, Piece.textOf, Piece.namesOf]

/-- The columns of a record are rendered in the order of its fields. -/
theorem run_renderFields (fields : List (Named Row)) (given : List String) :
    (renderFields fields).run given =
      (fun x => ((x.1.map Piece.textOf, x.2), given ++ x.1.flatMap Piece.namesOf)) <$>
        recordItems fields := by
  induction fields generalizing given with
  | nil => simp [renderFields, recordItems]
  | cons field fields ih =>
      obtain ⟨name, row⟩ := field
      cases row with
      | scalar term t =>
          rw [renderFields, recordItems, run_bind_map (Column.run_render _ given), map_bind]
          refine bind_congr fun ps => ?_
          rw [run_bind_map (ih _), map_bind]
          refine bind_congr fun x => ?_
          simp [rendered]
      | entity => rfl
      | record => rfl

/-- A select list is rendered column by column. -/
theorem Row.run_render (schema : Schema) (row : Row) (given : List String) :
    (row.render schema).run given = (fun x =>
      ((Piece.textOf x.1, x.2), given ++ Piece.namesOf x.1)) <$> projection schema row := by
  cases row with
  | entity table name =>
      rw [Row.render, projection]
      cases schema.entities.get? name with
      | none => rfl
      | some e =>
          simp only
          rw [Column.listPieces_eq_mapM,
            run_bind_map (run_list (fun c _ => Column.run_render c) given), map_bind]
          refine bind_congr fun pss => ?_
          simp [renderedAll, Text.commaSep]
  | scalar term t =>
      rw [Row.render, projection, run_bind_map (Column.run_render _ given), map_bind]
      refine bind_congr fun ps => ?_
      simp [rendered]
  | record fields =>
      rw [Row.render, projection, run_bind_map (run_renderFields fields given), map_bind]
      refine bind_congr fun x => ?_
      simp [Text.commaSep]

/-- The clauses of a statement are rendered as its pieces. -/
theorem Select.run_render (schema : Schema) (s : Select) (given : List String) :
    (s.render schema).run given = (fun x =>
      ((Piece.textOf x.1, x.2), given ++ Piece.namesOf x.1)) <$> s.pieces schema := by
  rw [Select.render, Select.pieces, run_bind_map (s.current.run_render schema given), map_bind]
  refine bind_congr fun x => ?_
  rw [optionPieces_eq_mapM, run_bind_map (run_renderClause Join.run_render _ _ _ _), map_bind]
  refine bind_congr fun join => ?_
  rw [piecesList_eq_mapM, run_bind_map (run_renderClause Term.run_render _ _ _ _), map_bind]
  refine bind_congr fun filters => ?_
  rw [SortKey.listPieces_eq_mapM, run_bind_map (run_renderClause SortKey.run_render _ _ _ _),
    map_bind]
  refine bind_congr fun order => ?_
  rw [optionPieces_eq_mapM, run_bind_map (run_renderClause Term.run_render _ _ _ _), map_bind]
  refine bind_congr fun limit => ?_
  rw [optionPieces_eq_mapM, run_bind_map (run_renderClause Term.run_render _ _ _ _), map_bind]
  refine bind_congr fun offset => ?_
  rw [map_pure, Piece.namesOf_wrapPieces, ← Piece.wrap_textOf]
  simp [rendered, Piece.textOf, Piece.namesOf, Piece.textOf_comments, Piece.namesOf_comments,
    Piece.textOf_clause_empty, String.append_assoc]

/-- The text of a statement and its parameters are those of the pieces of its clauses. -/
theorem Statement.ofSelect_eq_ok_iff {schema : Schema} {s : Select} {q : Statement} :
    ofSelect schema s = .ok q ↔ ∃ ps columns, s.pieces schema = .ok (ps, columns) ∧
      q = ⟨Piece.textOf ps, Piece.namesOf ps, columns, s.cardinality⟩ := by
  rw [ofSelect, Select.run_render]
  cases s.pieces schema with
  | error e =>
      refine ⟨fun h => ?_, fun h => ?_⟩
      · cases h
      · obtain ⟨_, _, hpieces, -⟩ := h
        cases hpieces
  | ok x =>
      obtain ⟨ps, columns⟩ := x
      refine ⟨fun h => ?_, fun h => ?_⟩
      · cases h
        exact ⟨ps, columns, rfl, rfl⟩
      · obtain ⟨_, _, hpieces, rfl⟩ := h
        cases hpieces
        rfl

end DeferredQuery.Sql
