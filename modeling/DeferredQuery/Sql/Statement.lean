import DeferredQuery.Sql.Select
import DeferredQuery.Value.Text

/-!
# Statements as text

The clauses of a statement are written one after the other. A placeholder is written as a question
mark, and its name is put behind those of the placeholders written before it: these are the values
to bind when the statement runs.
-/

namespace DeferredQuery.Sql

/-- A computation that writes text and collects the names of the placeholders in it. -/
abbrev Rendering := StateT (List String) (Except Error)

/-! ## Terms -/

/-- An identifier in double quotes, with quotes inside it doubled. -/
def quoteName (name : String) : String := "\"" ++ Text.doubled '"' name ++ "\""

def quoteText (s : String) : String := "'" ++ Text.doubled '\'' s ++ "'"

/-- Numbers in literals never have an exponent, and whole ones no point. -/
def floatLayout : Decimal.Layout := ⟨none, false, false, .up⟩

def literalText : Value → Except Error String
  | .null => .ok "NULL"
  | .bool b => .ok (if b then "TRUE" else "FALSE")
  | .int n => .ok (toString n.toInt)
  | .float x => .ok ("CAST('" ++ floatLayout.text x ++ "' AS DOUBLE)")
  | .string s => .ok (quoteText s)
  | .uuid u => .ok ("CAST('" ++ u.text ++ "' AS UUID)")
  | .instant t => .ok ("CAST('" ++ t.microText ++ "' AS TIMESTAMP)")
  | v => .error (.unsupported (.literalOf v.ty))

/-- The notation of an operator. Equality treats null as a value. -/
def operatorText : BinOp → String
  | .eq => "IS NOT DISTINCT FROM"
  | .ne => "IS DISTINCT FROM"
  | .and => "AND"
  | .or => "OR"
  | op => op.symbol

def unaryText : UnOp → String
  | .not => "(NOT "
  | .neg => "(-"

mutual

def Term.render : Term → Rendering String
  | .column table column => return table ++ "." ++ quoteName column
  | .parameter name => do
    modify (· ++ [name])
    return "?"
  | .literal v => liftM (literalText v)
  | .function name args _ => do
    let args ← renderList args
    return name ++ "(" ++ Text.commaSep args ++ ")"
  | .binary op left right => do
    let left ← left.render
    let right ← right.render
    return "(" ++ left ++ " " ++ operatorText op ++ " " ++ right ++ ")"
  | .unary op operand => do
    let operand ← operand.render
    return unaryText op ++ operand ++ ")"
  | .cast operand t =>
    match typeName? t with
    | none => throw (.unsupported (.castTo t))
    | some name => do
      let operand ← operand.render
      return "CAST(" ++ operand ++ " AS " ++ name ++ ")"

def renderList : List Term → Rendering (List String)
  | [] => return []
  | t :: rest => do
    let text ← t.render
    let texts ← renderList rest
    return text :: texts

end

/-! ## Columns -/

/-- How the columns of a statement's rows make up values. -/
inductive Columns where
  | scalar (ty : Ty)
  | record (fields : List (Named Ty))
deriving DecidableEq

structure Column where
  name : String
  ty : Ty
  term : Term

/-- The item of a select list. Identifiers are sent as text. -/
def Column.render (c : Column) : Rendering String := do
  let text ← c.term.render
  let text := if c.ty.unwrap = .uuid then "CAST(" ++ text ++ " AS VARCHAR)" else text
  return text ++ " AS " ++ quoteName c.name

def valueName : String := "value"

def renderFields : List (Named Row) → Rendering (List String × List (Named Ty))
  | [] => return ([], [])
  | ⟨name, .scalar term t⟩ :: rest => do
    let item ← Column.render ⟨name, t, term⟩
    let (items, ts) ← renderFields rest
    return (item :: items, ⟨name, t⟩ :: ts)
  | ⟨name, _⟩ :: _ => throw (.unsupported (.wideField name))

/-- The select list for rows, and what its columns make up. -/
def Row.render (schema : Schema) : Row → Rendering (String × Columns)
  | .entity table name =>
    match schema.entities.get? name with
    | none => throw (.unknownSet name)
    | some e => do
      let columns := e.properties.map fun p => ⟨p.name, p.ty, .column table p.column⟩
      let items ← columns.mapM Column.render
      return (Text.commaSep items, .record (e.properties.map fun p => ⟨p.name, p.ty⟩))
  | .scalar term t => do
    let item ← Column.render ⟨valueName, t, term⟩
    return (item, .scalar t)
  | .record fields => do
    let (items, ts) ← renderFields fields
    return (Text.commaSep items, .record ts)

/-! ## Clauses -/

def Join.render (j : Join) : Rendering String := do
  let outer ← j.outerKey.render
  let inner ← j.innerKey.render
  return " JOIN " ++ quoteName j.table ++ " AS " ++ j.name ++ " ON " ++ outer ++ " = " ++ inner

def SortKey.render (k : SortKey) : Rendering String := do
  let text ← k.term.render
  return text ++ if k.descending then " DESC NULLS LAST" else " ASC NULLS FIRST"

/-- A clause with its leading words, which is left out without parts. -/
def renderClause {α : Type} (words sep : String) (render : α → Rendering String)
    (parts : List α) : Rendering String :=
  if parts.isEmpty then return ""
  else do
    let texts ← parts.mapM render
    return words ++ Text.joinWith sep texts

/-! ## Statements -/

structure Statement where
  text : String
  /-- The placeholders of the values to bind, in the order in which they were written. -/
  parameters : List String
  columns : Columns
  cardinality : Cardinality

/-- The statement over the rows of another one that a cardinality asks for. -/
def Cardinality.wrap (text : String) (columns : Columns) : Cardinality → String × Columns
  | .count =>
    (String.join ["SELECT COUNT(*) AS ", quoteName valueName, " FROM (", text, ") AS q"],
      .scalar .int)
  | .exists => (String.join ["SELECT EXISTS (", text, ") AS ", quoteName valueName], .scalar .bool)
  | _ => (text, columns)

def Select.render (schema : Schema) (s : Select) : Rendering (String × Columns) := do
  let comments := String.join (s.comments.map fun c => "/* " ++ c ++ " */\n")
  let (list, columns) ← s.current.render schema
  let join ← renderClause "" "" Join.render s.join.toList
  let filters ← renderClause " WHERE " " AND " Term.render s.filters
  let order ← renderClause " ORDER BY " ", " SortKey.render s.order
  let limit ← renderClause " LIMIT " "" Term.render s.limit.toList
  let offset ← renderClause " OFFSET " "" Term.render s.offset.toList
  let text := comments ++ (if s.distinct then "SELECT DISTINCT " else "SELECT ") ++ list ++
    " FROM " ++ quoteName s.table ++ " AS " ++ outerName ++ join ++ filters ++ order ++ limit ++
    offset
  return s.cardinality.wrap text columns

namespace Statement

def ofSelect (schema : Schema) (s : Select) : Except Error Statement := do
  let ((text, columns), parameters) ← (s.render schema).run []
  return ⟨text, parameters, columns, s.cardinality⟩

def ofPipeline (ctx : Context) (p : Pipeline) : Except Error Statement := do
  let s ← Select.ofPipeline ctx p
  ofSelect ctx.schema s

end Statement

end DeferredQuery.Sql
