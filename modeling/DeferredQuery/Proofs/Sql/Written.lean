import DeferredQuery.Proofs.Sql.Keyed

/-!
# Statements written out

The text of a statement by its clauses, with a text of one's own choice for each placeholder. The
pieces of a statement give this text for every choice, so that the values which are bound one after
the other stand where the placeholders of the clauses stand.
-/

namespace DeferredQuery.Sql

/-! ## Terms and items -/

mutual

/-- The text of a term with `mark name` for the placeholder of each name. -/
def Term.textWith (mark : String → String) : Term → Except Error String
  | .column table column => .ok (table ++ "." ++ quoteName column)
  | .parameter name => .ok (mark name)
  | .literal v => literalText v
  | .function name args _ => do
    let args ← textsWith mark args
    return name ++ "(" ++ Text.commaSep args ++ ")"
  | .binary op left right => do
    let left ← left.textWith mark
    let right ← right.textWith mark
    return "(" ++ left ++ " " ++ operatorText op ++ " " ++ right ++ ")"
  | .unary op operand => do
    let operand ← operand.textWith mark
    return unaryText op ++ operand ++ ")"
  | .cast operand t =>
    match typeName? t with
    | none => .error (.unsupported (.castTo t))
    | some name => do
      let operand ← operand.textWith mark
      return "CAST(" ++ operand ++ " AS " ++ name ++ ")"

def textsWith (mark : String → String) : List Term → Except Error (List String)
  | [] => .ok []
  | t :: rest => do
    let text ← t.textWith mark
    let texts ← textsWith mark rest
    return text :: texts

end

def itemText (item : Named String) : String := item.value ++ " AS " ++ quoteName item.name

namespace Column

def itemWith (mark : String → String) (c : Column) : Except Error (Named String) := do
  let text ← c.term.textWith mark
  return ⟨c.name, if c.ty.unwrap = .uuid then "CAST(" ++ text ++ " AS VARCHAR)" else text⟩

end Column

namespace Row

def fieldColumns : List (Named Row) → Except Error (List Column)
  | [] => .ok []
  | ⟨name, .scalar term t⟩ :: rest => do
    let columns ← fieldColumns rest
    return ⟨name, t, term⟩ :: columns
  | ⟨name, _⟩ :: _ => .error (.unsupported (.wideField name))

def selected (schema : Schema) : Row → Except Error (List Column)
  | .entity table name =>
    match schema.entities.get? name with
    | none => .error (.unknownSet name)
    | some e => .ok (e.properties.map fun p => ⟨p.name, p.ty, .column table p.column⟩)
  | .scalar term t => .ok [⟨valueName, t, term⟩]
  | .record fields => fieldColumns fields

end Row

def Columns.entries : Columns → List (Named Ty)
  | .scalar t => [⟨valueName, t⟩]
  | .record fields => fields

/-! ## Clauses -/

namespace Join

def textWith (mark : String → String) (j : Join) : Except Error String := do
  let outer ← j.outerKey.textWith mark
  let inner ← j.innerKey.textWith mark
  return " JOIN " ++ quoteName j.table ++ " AS " ++ j.name ++ " ON " ++ outer ++ " = " ++ inner

end Join

namespace SortKey

def textWith (mark : String → String) (k : SortKey) : Except Error String := do
  let text ← k.term.textWith mark
  return text ++ if k.descending then " DESC NULLS LAST" else " ASC NULLS FIRST"

end SortKey

def clauseText (words sep : String) (parts : List String) : String :=
  if parts.isEmpty then "" else words ++ Text.joinWith sep parts

/-- A statement's text around its select list. -/
structure Written where
  comments : String
  distinct : Bool
  items : List (Named String)
  clauses : String

namespace Written

def text (w : Written) : String :=
  w.comments ++ (if w.distinct then "SELECT DISTINCT " else "SELECT ") ++
    Text.commaSep (w.items.map itemText) ++ w.clauses

def wrap (w : Written) : Cardinality → Written
  | .count => ⟨"", false, [⟨valueName, "COUNT(*)"⟩], " FROM (" ++ w.text ++ ") AS q"⟩
  | .exists => ⟨"", false, [⟨valueName, "EXISTS (" ++ w.text ++ ")"⟩], ""⟩
  | _ => w

theorem text_count (w : Written) : (w.wrap .count).text =
    "SELECT COUNT(*) AS " ++ quoteName valueName ++ " FROM (" ++ w.text ++ ") AS q" := by
  have hwords : "SELECT COUNT(*) AS " = "SELECT " ++ ("COUNT(*)" ++ " AS ") := by decide
  change "" ++ "SELECT " ++ ("COUNT(*)" ++ " AS " ++ quoteName valueName) ++
    (" FROM (" ++ w.text ++ ") AS q") = _
  rw [hwords]
  simp only [String.append_assoc, String.empty_append, -String.reduceAppend]

theorem text_exists (w : Written) : (w.wrap .exists).text =
    "SELECT EXISTS (" ++ w.text ++ ") AS " ++ quoteName valueName := by
  have hopen : "SELECT EXISTS (" = "SELECT " ++ "EXISTS (" := by decide
  have hclose : ") AS " = ")" ++ " AS " := by decide
  change "" ++ "SELECT " ++ ("EXISTS (" ++ w.text ++ ")" ++ " AS " ++ quoteName valueName) ++ "" = _
  rw [hopen, hclose]
  simp only [String.append_assoc, String.empty_append, String.append_empty, -String.reduceAppend]

end Written

namespace Select

def writtenWith (schema : Schema) (mark : String → String) (s : Select) :
    Except Error Written := do
  let columns ← s.current.selected schema
  let items ← columns.mapM (Column.itemWith mark)
  let join ← s.join.toList.mapM (Join.textWith mark)
  let filters ← s.filters.mapM (Term.textWith mark)
  let order ← s.order.mapM (SortKey.textWith mark)
  let limit ← s.limit.toList.mapM (Term.textWith mark)
  let offset ← s.offset.toList.mapM (Term.textWith mark)
  let comments := String.join (s.comments.map fun c => "/* " ++ c ++ " */\n")
  let clauses := " FROM " ++ quoteName s.table ++ " AS " ++ outerName ++ String.join join ++
    clauseText " WHERE " " AND " filters ++ clauseText " ORDER BY " ", " order ++
    clauseText " LIMIT " "" limit ++ clauseText " OFFSET " "" offset
  return Written.wrap ⟨comments, s.distinct, items, clauses⟩ s.cardinality

end Select

/-! ## Texts between entries -/

def weave : List String → List String → String
  | [], _ => ""
  | part :: _, [] => part
  | part :: parts, entry :: entries => part ++ entry ++ weave parts entries

theorem weave_append (s part : String) (parts entries : List String) :
    weave ((s ++ part) :: parts) entries = s ++ weave (part :: parts) entries := by
  cases entries with
  | nil => rfl
  | cons entry entries => simp only [weave, String.append_assoc]

namespace Piece

def textWith (mark : String → String) : List Piece → String
  | [] => ""
  | .text s :: rest => s ++ textWith mark rest
  | .marker name :: rest => mark name ++ textWith mark rest

variable (mark : String → String)

theorem textOf_eq (ps : List Piece) : textOf ps = textWith (fun _ => "?") ps := by
  induction ps with
  | nil => rfl
  | cons p ps ih => cases p <;> simp [textOf, textWith, ih]

/-- The fixed texts of pieces stand around what is written for their markers. -/
theorem exists_weave (ps : List Piece) : ∃ parts, parts.length = (namesOf ps).length + 1 ∧
    ∀ mark, textWith mark ps = weave parts ((namesOf ps).map mark) := by
  induction ps with
  | nil => exact ⟨[""], rfl, fun _ => rfl⟩
  | cons p ps ih =>
      obtain ⟨parts, hlength, hweave⟩ := ih
      cases p with
      | text s =>
          obtain ⟨part, rest, rfl⟩ := List.exists_cons_of_length_eq_add_one hlength
          refine ⟨(s ++ part) :: rest, hlength, fun mark => ?_⟩
          rw [namesOf, weave_append, ← hweave, textWith]
      | marker name =>
          refine ⟨"" :: parts, by simp [namesOf, hlength], fun mark => ?_⟩
          simp [namesOf, weave, textWith, hweave]

@[simp] theorem textWith_append (ps qs : List Piece) :
    textWith mark (ps ++ qs) = textWith mark ps ++ textWith mark qs := by
  induction ps with
  | nil => simp [textWith]
  | cons p ps ih => cases p <;> simp [textWith, ih, String.append_assoc]

@[simp] theorem textWith_joinWith (sep : String) (pss : List (List Piece)) :
    textWith mark (joinWith sep pss) = Text.joinWith sep (pss.map (textWith mark)) := by
  induction pss with
  | nil => rfl
  | cons ps pss ih =>
      cases pss with
      | nil => rfl
      | cons qs pss =>
          rw [joinWith, textWith_append, textWith, ih]
          simp [Text.joinWith_cons_cons, String.append_assoc]

@[simp] theorem textWith_flatten (pss : List (List Piece)) :
    textWith mark pss.flatten = String.join (pss.map (textWith mark)) := by
  induction pss with
  | nil => rfl
  | cons ps pss ih => simp [ih]

@[simp] theorem textWith_clause (words sep : String) (parts : List (List Piece)) :
    textWith mark (clause words sep parts) =
      clauseText words sep (parts.map (textWith mark)) := by
  cases parts with
  | nil => rfl
  | cons ps parts => simp [clause, clauseText, textWith]

end Piece

/-! ## Pieces give the texts -/

variable {mark : String → String}

theorem textsWith_eq_mapM (ts : List Term) : textsWith mark ts = ts.mapM (Term.textWith mark) := by
  induction ts with
  | nil => rfl
  | cons t ts ih => rw [textsWith, ih, List.mapM_cons]

/-- Texts of a list are made one by one. -/
theorem mapM_textWith {α : Type} {pieces : α → Except Error (List Piece)}
    {text : α → Except Error String} {as : List α} {pss : List (List Piece)}
    (h : ∀ a ∈ as, ∀ ps, pieces a = .ok ps → text a = .ok (Piece.textWith mark ps))
    (hpss : as.mapM pieces = .ok pss) :
    as.mapM text = .ok (pss.map (Piece.textWith mark)) := by
  induction as generalizing pss with
  | nil =>
      cases hpss
      rfl
  | cons a as ih =>
      rw [List.mapM_cons] at hpss
      obtain ⟨ps, hps, hpss⟩ := bind_eq_ok.mp hpss
      obtain ⟨qss, hqss, hpss⟩ := bind_eq_ok.mp hpss
      cases hpss
      rw [List.mapM_cons, h a List.mem_cons_self ps hps,
        ih (fun b hb => h b (List.mem_cons_of_mem _ hb)) hqss]
      rfl

/-- By induction on the term. -/
theorem textWith_pieces {t : Term} {ps : List Piece} (h : t.pieces = .ok ps) :
    t.textWith mark = .ok (Piece.textWith mark ps) := by
  induction t generalizing ps with
  | column table column =>
      cases h
      simp [Term.textWith, Piece.textWith]
  | parameter name =>
      cases h
      simp [Term.textWith, Piece.textWith]
  | literal v =>
      obtain ⟨s, hs, h⟩ := bind_eq_ok.mp h
      cases h
      simp [Term.textWith, hs, Piece.textWith]
  | function name args t ih =>
      obtain ⟨pss, hpss, h⟩ := bind_eq_ok.mp h
      cases h
      have hargs := mapM_textWith ih ((piecesList_eq_mapM args).symm.trans hpss)
      rw [Term.textWith, textsWith_eq_mapM, hargs]
      refine congrArg Except.ok ?_
      simp [Piece.textWith, Text.commaSep, String.append_assoc]
  | binary op left right ihl ihr =>
      obtain ⟨ls, hls, h⟩ := bind_eq_ok.mp h
      obtain ⟨rs, hrs, h⟩ := bind_eq_ok.mp h
      cases h
      rw [Term.textWith, ihl hls, ihr hrs]
      refine congrArg Except.ok ?_
      simp [Piece.textWith, String.append_assoc]
  | unary op operand ih =>
      obtain ⟨us, hus, h⟩ := bind_eq_ok.mp h
      cases h
      rw [Term.textWith, ih hus]
      refine congrArg Except.ok ?_
      simp [Piece.textWith, String.append_assoc]
  | cast operand t ih =>
      rw [Term.pieces] at h
      split at h
      · cases h
      · rename_i name hname
        obtain ⟨us, hus, h⟩ := bind_eq_ok.mp h
        cases h
        rw [Term.textWith, hname, ih hus]
        refine congrArg Except.ok ?_
        simp [Piece.textWith, String.append_assoc]

theorem itemWith_pieces (mark : String → String) {c : Column} {ps : List Piece}
    (h : c.pieces = .ok ps) :
    ∃ item, c.itemWith mark = .ok item ∧ item.name = c.name ∧
      itemText item = Piece.textWith mark ps := by
  obtain ⟨qs, hqs, h⟩ := bind_eq_ok.mp h
  cases h
  rw [Column.itemWith, textWith_pieces hqs]
  refine ⟨_, rfl, rfl, ?_⟩
  split <;> simp only [itemText, Piece.textWith, Piece.textWith_append, List.cons_append,
    String.append_assoc, String.append_empty]

/-- Each column has its name and its text in the select list. -/
theorem itemsWith_pieces (mark : String → String) {columns : List Column}
    {pss : List (List Piece)} (h : Column.listPieces columns = .ok pss) :
    ∃ items, columns.mapM (Column.itemWith mark) = .ok items ∧
      items.map Named.name = columns.map Column.name ∧
      items.map itemText = pss.map (Piece.textWith mark) := by
  induction columns generalizing pss with
  | nil =>
      cases h
      exact ⟨[], rfl, rfl, rfl⟩
  | cons c columns ih =>
      obtain ⟨ps, hps, h⟩ := bind_eq_ok.mp h
      obtain ⟨qss, hqss, h⟩ := bind_eq_ok.mp h
      cases h
      obtain ⟨item, hitem, hname, htext⟩ := itemWith_pieces mark hps
      obtain ⟨items, hitems, hnames, htexts⟩ := ih hqss
      rw [List.mapM_cons, hitem, hitems]
      refine ⟨item :: items, rfl, ?_, ?_⟩
      · rw [List.map_cons, List.map_cons, hname, hnames]
      · rw [List.map_cons, List.map_cons, htext, htexts]

/-- The columns of a record are those of its fields, under their names. -/
theorem fieldColumns_of_recordItems {fields : List (Named Row)} {pss : List (List Piece)}
    {ts : List (Named Ty)} (h : recordItems fields = .ok (pss, ts)) :
    ∃ columns, Row.fieldColumns fields = .ok columns ∧ Column.listPieces columns = .ok pss ∧
      ts = columns.map fun c => ⟨c.name, c.ty⟩ := by
  induction fields generalizing pss ts with
  | nil =>
      cases h
      exact ⟨[], rfl, rfl, rfl⟩
  | cons field fields ih =>
      obtain ⟨name, row⟩ := field
      cases row with
      | scalar term t =>
          obtain ⟨ps, hps, h⟩ := bind_eq_ok.mp h
          obtain ⟨⟨qss, us⟩, hrest, h⟩ := bind_eq_ok.mp h
          cases h
          obtain ⟨columns, hcolumns, hpieces, rfl⟩ := ih hrest
          refine ⟨⟨name, t, term⟩ :: columns, ?_, ?_, rfl⟩
          · rw [Row.fieldColumns, hcolumns]
            rfl
          · rw [Column.listPieces, hps, hpieces]
            rfl
      | entity => cases h
      | record => cases h

/-- A projection lists the columns of its row, and says so in its entries. -/
theorem selected_of_projection {schema : Schema} {row : Row} {ps : List Piece} {columns : Columns}
    (h : projection schema row = .ok (ps, columns)) :
    ∃ cs pss, row.selected schema = .ok cs ∧ Column.listPieces cs = .ok pss ∧
      ps = Piece.joinWith ", " pss ∧ columns.entries = cs.map fun c => ⟨c.name, c.ty⟩ := by
  cases row with
  | entity table entity =>
      rw [projection] at h
      split at h
      · cases h
      · rename_i e he
        obtain ⟨pss, hpss, h⟩ := bind_eq_ok.mp h
        cases h
        refine ⟨_, pss, ?_, hpss, rfl, by simp [Columns.entries]⟩
        rw [Row.selected, he]
  | scalar term t =>
      obtain ⟨qs, hqs, h⟩ := bind_eq_ok.mp h
      cases h
      refine ⟨_, [ps], rfl, ?_, rfl, rfl⟩
      rw [Column.listPieces, hqs]
      rfl
  | record fields =>
      obtain ⟨⟨pss, ts⟩, hitems, h⟩ := bind_eq_ok.mp h
      cases h
      obtain ⟨cs, hcs, hpieces, rfl⟩ := fieldColumns_of_recordItems hitems
      exact ⟨cs, pss, hcs, hpieces, rfl, rfl⟩

theorem textWith_join {j : Join} {ps : List Piece} (h : j.pieces = .ok ps) :
    j.textWith mark = .ok (Piece.textWith mark ps) := by
  obtain ⟨outer, houter, h⟩ := bind_eq_ok.mp h
  obtain ⟨inner, hinner, h⟩ := bind_eq_ok.mp h
  cases h
  rw [Join.textWith, textWith_pieces houter, textWith_pieces hinner]
  refine congrArg Except.ok ?_
  simp [Piece.textWith, String.append_assoc]

theorem textWith_sortKey {k : SortKey} {ps : List Piece} (h : k.pieces = .ok ps) :
    k.textWith mark = .ok (Piece.textWith mark ps) := by
  obtain ⟨qs, hqs, h⟩ := bind_eq_ok.mp h
  cases h
  rw [SortKey.textWith, textWith_pieces hqs]
  refine congrArg Except.ok ?_
  simp [Piece.textWith]

theorem textWith_comments (comments : List String) (f : String → String) :
    Piece.textWith mark (comments.map fun c => .text (f c)) = String.join (comments.map f) := by
  induction comments with
  | nil => rfl
  | cons c comments ih => simp [Piece.textWith, ih]

/-- What holds of a statement's text and of its select list holds of those around it. -/
theorem wrap_written {w : Written} {inner : List Piece} {columns : Columns}
    (htext : w.text = Piece.textWith mark inner)
    (hitems : w.items.map Named.name = columns.entries.map Named.name) (c : Cardinality) :
    (w.wrap c).text = Piece.textWith mark (c.wrapPieces inner columns).1 ∧
      (w.wrap c).items.map Named.name = (c.wrapPieces inner columns).2.entries.map Named.name := by
  cases c with
  | many => exact ⟨htext, hitems⟩
  | first => exact ⟨htext, hitems⟩
  | count =>
      refine ⟨?_, rfl⟩
      rw [Written.text_count, htext]
      simp [Cardinality.wrapPieces, Piece.textWith, String.append_assoc]
  | «exists» =>
      refine ⟨?_, rfl⟩
      rw [Written.text_exists, htext]
      simp [Cardinality.wrapPieces, Piece.textWith, String.append_assoc]

/-- A statement's text is that of its clauses around the select list. -/
theorem writtenWith_of_pieces {schema : Schema} {s : Select} {ps : List Piece} {columns : Columns}
    (h : s.pieces schema = .ok (ps, columns)) (mark : String → String) :
    ∃ w, s.writtenWith schema mark = .ok w ∧ w.text = Piece.textWith mark ps ∧
      w.items.map Named.name = columns.entries.map Named.name := by
  obtain ⟨⟨list, listed⟩, hlist, h⟩ := bind_eq_ok.mp h
  obtain ⟨join, hjoin, h⟩ := bind_eq_ok.mp h
  obtain ⟨filters, hfilters, h⟩ := bind_eq_ok.mp h
  obtain ⟨order, horder, h⟩ := bind_eq_ok.mp h
  obtain ⟨limit, hlimit, h⟩ := bind_eq_ok.mp h
  obtain ⟨offset, hoffset, h⟩ := bind_eq_ok.mp h
  obtain ⟨rfl, rfl⟩ := Prod.mk.inj (Except.ok.inj h)
  obtain ⟨cs, pss, hcs, hpss, rfl, hentries⟩ := selected_of_projection hlist
  obtain ⟨items, hitems, hnames, htexts⟩ := itemsWith_pieces mark hpss
  rw [optionPieces_eq_mapM] at hjoin hlimit hoffset
  rw [piecesList_eq_mapM] at hfilters
  rw [SortKey.listPieces_eq_mapM] at horder
  have hjoin' : s.join.toList.mapM (Join.textWith mark) =
      .ok (join.map (Piece.textWith mark)) := mapM_textWith (fun _ _ _ => textWith_join) hjoin
  have hfilters' : s.filters.mapM (Term.textWith mark) =
      .ok (filters.map (Piece.textWith mark)) :=
    mapM_textWith (fun _ _ _ => textWith_pieces) hfilters
  have horder' : s.order.mapM (SortKey.textWith mark) =
      .ok (order.map (Piece.textWith mark)) := mapM_textWith (fun _ _ _ => textWith_sortKey) horder
  have hlimit' : s.limit.toList.mapM (Term.textWith mark) =
      .ok (limit.map (Piece.textWith mark)) := mapM_textWith (fun _ _ _ => textWith_pieces) hlimit
  have hoffset' : s.offset.toList.mapM (Term.textWith mark) =
      .ok (offset.map (Piece.textWith mark)) :=
    mapM_textWith (fun _ _ _ => textWith_pieces) hoffset
  refine ⟨_, bind_eq_ok.mpr ⟨cs, hcs, bind_eq_ok.mpr ⟨items, hitems, bind_eq_ok.mpr ⟨_, hjoin',
    bind_eq_ok.mpr ⟨_, hfilters', bind_eq_ok.mpr ⟨_, horder', bind_eq_ok.mpr ⟨_, hlimit',
      bind_eq_ok.mpr ⟨_, hoffset', rfl⟩⟩⟩⟩⟩⟩⟩, wrap_written ?_ ?_ _⟩
  · rw [Written.text, htexts]
    simp [Piece.textWith, textWith_comments, Text.commaSep, String.append_assoc]
  · rw [hnames, hentries, List.map_map]
    rfl

theorem columns_of_pieces {schema : Schema} {s : Select} {ps : List Piece} {columns : Columns}
    (h : s.pieces schema = .ok (ps, columns)) :
    (s.cardinality = .count → columns = .scalar .int) ∧
      (s.cardinality = .exists → columns = .scalar .bool) := by
  obtain ⟨_, -, h⟩ := bind_eq_ok.mp h
  obtain ⟨_, -, h⟩ := bind_eq_ok.mp h
  obtain ⟨_, -, h⟩ := bind_eq_ok.mp h
  obtain ⟨_, -, h⟩ := bind_eq_ok.mp h
  obtain ⟨_, -, h⟩ := bind_eq_ok.mp h
  obtain ⟨_, -, h⟩ := bind_eq_ok.mp h
  obtain rfl := congrArg Prod.snd (Except.ok.inj h)
  cases s.cardinality <;> simp [Cardinality.wrapPieces]

namespace Statement

/-- The text of a lowered pipeline is made of fixed parts with a question mark between neighbours.
Its clauses, written with any marks for the placeholders, have the same parts, and between them the
marks of the parameters in their order. The select list has an item for each entry of the columns,
under its name. -/
theorem written_of_ofPipeline {ctx : Context} {p : Pipeline} {q : Statement}
    (h : ofPipeline ctx p = .ok q) :
    ∃ s parts, Select.ofPipeline ctx p = .ok s ∧ parts.length = q.parameters.length + 1 ∧
      q.text = weave parts (q.parameters.map fun _ => "?") ∧
      (∀ mark, ∃ w, s.writtenWith ctx.schema mark = .ok w ∧
        w.text = weave parts (q.parameters.map mark) ∧
        w.items.map Named.name = q.columns.entries.map Named.name) ∧
      (q.cardinality = .count → q.columns = .scalar .int) ∧
      (q.cardinality = .exists → q.columns = .scalar .bool) := by
  obtain ⟨s, hs, hq⟩ := bind_eq_ok.mp h
  obtain ⟨ps, columns, hps, rfl⟩ := ofSelect_eq_ok_iff.mp hq
  obtain ⟨parts, hlength, hweave⟩ := Piece.exists_weave ps
  refine ⟨s, parts, hs, hlength, ?_, fun mark => ?_, columns_of_pieces hps⟩
  · rw [Piece.textOf_eq, hweave]
  · obtain ⟨w, hw, htext, hitems⟩ := writtenWith_of_pieces hps mark
    exact ⟨w, hw, htext.trans (hweave mark), hitems⟩

/-- A count of projected people who are older than a captured age, without the first few. The filter
stands before the projection in the pipeline and behind it in the text. -/
def counted : Pipeline where
  source := ⟨"Person", "people"⟩
  operations :=
    let age := .member (.parameter "p" (.entity "Person")) "Age" .int
    let ofPerson body := .lambda [⟨"p", .entity "Person"⟩] body
    [.filter (ofPerson (.binary .gt age (.parameter "__age_0" .int))),
      .select (ofPerson (.binary .add age (.parameter "__more_1" .int))),
      .skip (.parameter "__few_2" .int), .count none]
  result := .single .int

theorem written_counted : ∃ q s parts w,
    ofPipeline ⟨census, FunctionRule.standard⟩ counted = .ok q ∧
      q.parameters = ["__more_1", "__age_0", "__few_2"] ∧ q.columns = .scalar .int ∧
      parts.length = 4 ∧ q.text = weave parts ["?", "?", "?"] ∧
      Select.writtenWith census id s = .ok w ∧
      w.text = weave parts ["__more_1", "__age_0", "__few_2"] ∧
      w.items.map Named.name = ["value"] := by
  obtain ⟨s, parts, -, hlength, htext, hwritten, hcount, -⟩ :=
    @written_of_ofPipeline ⟨census, FunctionRule.standard⟩ counted _ rfl
  obtain ⟨w, hw, hnamed, hitems⟩ := hwritten id
  exact ⟨_, s, parts, w, rfl, rfl, hcount rfl, hlength, htext, hw, hnamed, hitems⟩

end Statement

end DeferredQuery.Sql
