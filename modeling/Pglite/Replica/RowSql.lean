import Pglite.Replica.Lsn

/-!
# Row statements

The messages of `src/replica/pgoutput.rs` after decoding, and the statements that
`src/replica/mod.rs` makes of the row changes among them. A `Rel` is what the stream's last
`Relation` message said of a table; a tuple is matched with its columns by position.
-/

namespace Pglite.Replica

open Text

/-! ## Quoting -/

/-- The double quote character. -/
def quote : Char := Char.ofNat 0x22

/-- The single quote character. -/
def apostrophe : Char := Char.ofNat 0x27

/-- `ident`. -/
def ident (s : String) : String :=
  "\"" ++ double quote s ++ "\""

/-- `lit`. -/
def lit (s : String) : String :=
  "'" ++ double apostrophe s ++ "'"

/-! ## Messages -/

/-- `RelColumn`. -/
structure RelColumn where
  flags : UInt8
  name : String
  typeOid : UInt32
  typeModifier : Int32
  deriving DecidableEq

/-- `CellValue`. -/
inductive CellValue
  | null
  | unchangedToast
  | text (s : String)
  deriving DecidableEq

/-- `TupleData`. -/
abbrev TupleData := List CellValue

/-- `PgOutputMsg`. -/
inductive PgOutputMsg
  | begin (finalLsn : Lsn) (commitTs : Int64) (xid : UInt32)
  | commit (commitLsn endLsn : Lsn) (commitTs : Int64)
  | relation (relId : UInt32) (ns name : String) (replicaIdentity : UInt8)
      (columns : List RelColumn)
  | insert (relId : UInt32) (new : TupleData)
  | update (relId : UInt32) (key old : Option TupleData) (new : TupleData)
  | delete (relId : UInt32) (key old : Option TupleData)
  | truncate (relIds : List UInt32)
  | message (msgPrefix : String) (content : List UInt8)
  | other
  deriving DecidableEq

/-- The message changes rows. -/
def PgOutputMsg.isRow : PgOutputMsg → Bool
  | .insert _ _ => true
  | .update _ _ _ _ => true
  | .delete _ _ _ => true
  | .truncate _ => true
  | _ => false

/-- `cell_lit`. -/
def cellLit : CellValue → String
  | .null => "NULL"
  | .text s => lit s
  | .unchangedToast => "NULL"

/-- `cell_value`. -/
def cellValue : CellValue → Option String
  | .null => none
  | .unchangedToast => none
  | .text s => some s

/-- `ColPairs`. -/
abbrev ColPairs := List (String × Option String)

/-- `RowChange`. -/
inductive RowChange
  | insert (schema table : String) (row : ColPairs)
  | update (schema table : String) (key row : ColPairs)
  | delete (schema table : String) (key : ColPairs)
  | truncate (schema table : String)
  deriving DecidableEq

/-- `CommittedTransaction`. -/
structure CommittedTransaction where
  xid : UInt32
  commitLsn : Lsn
  endLsn : Lsn
  commitTs : Int64
  changes : List RowChange
  deriving DecidableEq

/-! ## Statements -/

/-- `Rel`. -/
structure Rel where
  schema : String
  name : String
  columns : List RelColumn
  deriving DecidableEq

namespace Rel

variable (rel : Rel)

/-- `Rel::target`. -/
def target : String :=
  ident rel.schema ++ "." ++ ident rel.name

/-- The table as the error texts name it. -/
def label : String :=
  rel.schema ++ "." ++ rel.name

/-- `Rel::check_arity`. -/
def checkArity (tuple : TupleData) : Except Error Unit :=
  if tuple.length ≠ rel.columns.length then
    .error (.protocol (s!"tuple arity {tuple.length} does not match relation " ++
      s!"{rel.label} arity {rel.columns.length}"))
  else .ok ()

/-- `Rel::insert_sql`. -/
def insertSql (new : TupleData) : Except Error (String × RowChange) := do
  rel.checkArity new
  let cells ← (rel.columns.zip new).mapM fun (col, cell) =>
    if cell = .unchangedToast then
      .error (.protocol ("unchanged-toast cell in insert into " ++ rel.label))
    else .ok (ident col.name, cellLit cell, col.name, cellValue cell)
  let names := ", ".intercalate (cells.map fun c => c.1)
  let values := ", ".intercalate (cells.map fun c => c.2.1)
  let row := cells.map fun c => c.2.2
  .ok ("INSERT INTO " ++ rel.target ++ " (" ++ names ++ ") VALUES (" ++ values ++ ")",
    .insert rel.schema rel.name row)

/-- One condition of the `WHERE` clause on the key columns. -/
def keyCond : RelColumn × CellValue → Except Error (String × String × Option String)
  | (_, .unchangedToast) => .error (.protocol ("unchanged-toast key cell on " ++ rel.label))
  | (col, .null) => .ok (ident col.name ++ " IS NULL", col.name, cellValue .null)
  | (col, .text s) => .ok (ident col.name ++ " = " ++ lit s, col.name, cellValue (.text s))

/-- `Rel::where_clause`. -/
def whereClause (key old new : Option TupleData) : Except Error (String × ColPairs) :=
  match old with
  | some old => do
    rel.checkArity old
    let cells := (rel.columns.zip old).filter fun (_, cell) => cell ≠ .unchangedToast
    let conds := cells.map fun (col, cell) => ident col.name ++ " IS NOT DISTINCT FROM " ++
      cellLit cell
    let pairs := cells.map fun (col, cell) => (col.name, cellValue cell)
    if conds = [] then .error (.protocol ("empty old tuple for " ++ rel.label))
    else .ok (" AND ".intercalate conds, pairs)
  | none => do
    let source ← match key.or new with
      | some source => .ok source
      | none => .error (.replicaHalted ("no key available for change on " ++ rel.label))
    rel.checkArity source
    let keyed := (rel.columns.zip source).filter fun (col, _) => col.flags &&& 1 ≠ 0
    let conds ← keyed.mapM rel.keyCond
    if conds = [] then
      .error (.replicaHalted ("relation " ++ rel.label ++ " has no replica identity key"))
    else .ok (" AND ".intercalate (conds.map fun c => c.1), conds.map fun c => c.2)

/-- `Rel::update_sql`. -/
def updateSql (key old : Option TupleData) (new : TupleData) :
    Except Error (String × RowChange) := do
  rel.checkArity new
  let (whereSql, keyPairs) ← rel.whereClause key old (some new)
  let cells := (rel.columns.zip new).filter fun (_, cell) => cell ≠ .unchangedToast
  let sets := cells.map fun (col, cell) => ident col.name ++ " = " ++ cellLit cell
  let row := cells.map fun (col, cell) => (col.name, cellValue cell)
  if sets = [] then
    .error (.protocol ("update with no assignable columns on " ++ rel.label))
  else
    .ok ("UPDATE " ++ rel.target ++ " SET " ++ ", ".intercalate sets ++ " WHERE " ++ whereSql,
      .update rel.schema rel.name keyPairs row)

/-- `Rel::delete_sql`. -/
def deleteSql (key old : Option TupleData) : Except Error (String × RowChange) := do
  let (whereSql, keyPairs) ← rel.whereClause key old none
  .ok ("DELETE FROM " ++ rel.target ++ " WHERE " ++ whereSql,
    .delete rel.schema rel.name keyPairs)

/-- The statement of a `Truncate` message. -/
def truncateSql (rels : List Rel) : String :=
  "TRUNCATE " ++ ", ".intercalate (rels.map target)

/-- The change a `Truncate` message makes to one of its tables. -/
def truncateChange : RowChange :=
  .truncate rel.schema rel.name

end Rel

example : Rel.insertSql ⟨"public", "todos", [⟨1, "id", 23, -1⟩, ⟨0, "title", 25, -1⟩]⟩
      [.text "1", .text "it's done"] =
    .ok ("INSERT INTO \"public\".\"todos\" (\"id\", \"title\") VALUES ('1', 'it''s done')",
      .insert "public" "todos" [("id", some "1"), ("title", some "it's done")]) := by
  decide

end Pglite.Replica
