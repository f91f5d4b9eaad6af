import Pglite.Records
import Pglite.Replica.SchemaSession

/-!
# Rows

What the statements of the replica do to the rows of its tables, and what the row changes of the
upstream did to the rows of theirs. A row has a text in every column that is not null there.

* `RowChange.onRows`, `applyChanges`: the row changes of a transaction.
* `Ddl.onRows`: the statements of a schema change.
* `Rel.Tells`: the upstream's side of a message. One row is inserted, updated or deleted.
-/

namespace Pglite.Replica

open Records Backfill

abbrev Row := Record String String

/-- The rows of each table, in no particular order. -/
abbrev Contents := TableKey → List Row

/-! ## Local statements -/

/-- The type of a column. -/
def Backfill.LocalTable.typeOf (L : LocalTable) (name : String) : Option String :=
  (L.columns.find? fun c => decide (c.name = name)).map LocalColumn.typeSql

/-- The type of a local column. -/
def Backfill.LocalSchema.columnType (l : LocalSchema) (t : TableKey) (name : String) :
    Option String :=
  match l t with
  | some (.table L) => L.typeOf name
  | _ => none

section Store

/-! The server converts a text that is written to a column to the type of the column, its length or
precision included: `store` has the type and the text. -/

variable (store : String → String → String)

/-- What a local column makes of a text. -/
def Backfill.LocalSchema.convert (l : LocalSchema) (t : TableKey) (name v : String) : String :=
  match l.columnType t name with
  | some typeSql => store typeSql v
  | none => v

/-- The local columns take these values as they are. -/
def Backfill.LocalSchema.Keeps (l : LocalSchema) (t : TableKey) (values : ColPairs) : Prop :=
  ∀ p ∈ values, ∀ v ∈ p.2, l.convert store t p.1 v = v

instance Backfill.LocalSchema.decidableKeeps (l : LocalSchema) (t : TableKey)
    (values : ColPairs) : Decidable (l.Keeps store t values) :=
  inferInstanceAs (Decidable (∀ p ∈ values, ∀ v ∈ p.2, l.convert store t p.1 v = v))

namespace RowChange

/-- The values that its statement writes. -/
def row : RowChange → ColPairs
  | insert _ _ row => row
  | update _ _ _ row => row
  | delete _ _ _ => []
  | truncate _ _ => []

/-- The change with other values. -/
def withRow (values : ColPairs) : RowChange → RowChange
  | insert schema table _ => insert schema table values
  | update schema table key _ => update schema table key values
  | change => change

/-- The change with what the local columns make of its values. Those of a `WHERE` clause are
compared as they are. -/
def stored (l : LocalSchema) (change : RowChange) : RowChange :=
  change.withRow (change.row.map fun p => (p.1, p.2.map (l.convert store change.table p.1)))

/-- What its statement does to the rows of the table. -/
def onRows (change : RowChange) (rows : List Row) : List Row :=
  match change with
  | insert _ _ row => setAll ∅ row :: rows
  | update _ _ key row => rows.map fun r => if Matches key r then setAll r row else r
  | delete _ _ key => rows.filter fun r => decide (¬ Matches key r)
  | truncate _ _ => []

/-- What it does to the database. -/
def apply (C : Contents) (change : RowChange) : Contents :=
  Function.update C change.table (change.onRows (C change.table))

end RowChange

/-- The statements of a transaction, one after the other. -/
def applyChanges (l : LocalSchema) (changes : List RowChange) (C : Contents) : Contents :=
  changes.foldl (fun C change => (change.stored store l).apply C) C

end Store

/-- What a statement on the schema does to the rows. A new column is null in every row, also one
that has a default in the upstream. -/
def Backfill.Ddl.onRows (C : Contents) : Ddl → Contents
  | .dropTable t => Function.update C t []
  | .createTable t => Function.update C t.key []
  | .alter t (.dropColumn name) => Function.update C t ((C t).map fun r => r.erase name)
  | _ => C

/-! ## The upstream -/

namespace Rel

variable (rel : Rel)

/-- The values of a tuple. A cell that is unchanged has none. -/
def values (tuple : TupleData) : ColPairs :=
  ((rel.columns.zip tuple).filter fun (_, cell) => cell ≠ .unchangedToast).map
    fun (col, cell) => (col.name, cellValue cell)

/-- The values by which a message identifies a row: the old row as a whole, or its key. -/
def identity (key old new : Option TupleData) : Option ColPairs :=
  match old with
  | some old => some (rel.values old)
  | none => (key.or new).map fun source =>
    ((rel.columns.zip source).filter fun (col, _) => col.flags &&& 1 ≠ 0).map
      fun (col, cell) => (col.name, cellValue cell)

/-- The row is one that the message may be about. -/
def Identifies (key old new : Option TupleData) (r : Row) : Prop :=
  ∃ pairs ∈ rel.identity key old new, Matches pairs r

instance decidableIdentifies (key old new : Option TupleData) :
    DecidablePred (rel.Identifies key old new) :=
  fun r => inferInstanceAs (Decidable (∃ pairs ∈ rel.identity key old new, Matches pairs r))

/-- The values of the new row. -/
def newValues : PgOutputMsg → ColPairs
  | .insert _ new => rel.values new
  | .update _ _ _ new => rel.values new
  | _ => []

/-- The row change that the message tells of: the rows of the table before and after it. -/
def Tells (rows rows' : List Row) : PgOutputMsg → Prop
  | .insert _ new => rows'.Perm (setAll ∅ (rel.values new) :: rows)
  | .update _ key old new =>
    ∃ r ∈ rows, rel.Identifies key old (some new) r ∧
      rows'.Perm (setAll r (rel.values new) :: rows.erase r)
  | .delete _ key old =>
    ∃ r ∈ rows, rel.Identifies key old none r ∧ rows'.Perm (rows.erase r)
  | .truncate _ => rows' = []
  | _ => rows'.Perm rows

/-- The message identifies one row only. -/
def Singles (rows : List Row) : PgOutputMsg → Prop
  | .update _ key old new =>
    (rows.filter fun r => decide (rel.Identifies key old (some new) r)).length ≤ 1
  | .delete _ key old =>
    (rows.filter fun r => decide (rel.Identifies key old none r)).length ≤ 1
  | _ => True

instance decidableTells (rows rows' : List Row) : DecidablePred (rel.Tells rows rows') := by
  intro m
  cases m <;> unfold Tells <;> infer_instance

instance decidableSingles (rows : List Row) : DecidablePred (rel.Singles rows) := by
  intro m
  cases m <;> unfold Singles <;> infer_instance

end Rel

/-- What a message tells of one table. Those that it is not about stay as they are. -/
def PgOutputMsg.Tells (known : UInt32 → Option Rel) (k : TableKey) (rows rows' : List Row)
    (m : PgOutputMsg) : Prop :=
  (∀ relId ∈ m.relIds, ∀ rel ∈ known relId, rel.key = k → rel.Tells rows rows' m) ∧
    ((∀ relId ∈ m.relIds, ∀ rel ∈ known relId, rel.key ≠ k) → rows'.Perm rows)

instance PgOutputMsg.decidableTells (known : UInt32 → Option Rel) (k : TableKey)
    (rows rows' : List Row) : DecidablePred (PgOutputMsg.Tells known k rows rows') :=
  fun _ => inferInstanceAs (Decidable (_ ∧ _))

end Pglite.Replica
