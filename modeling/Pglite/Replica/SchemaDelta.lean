import Mathlib.Logic.Function.Basic
import Pglite.Replica.Fingerprint
import Pglite.Replica.Reconcile

/-!
# Schema changes

The two functions of `src/replica/backfill.rs` that turn a catalog of the upstream into DDL.
`bootstrap_schema` builds the published schema from scratch. `apply_schema_delta` compares the
catalog with fingerprint lines, which record the names and the type OIDs of columns, and alters
what is there.

A name of the local database is free, a user type or a table (`LocalSchema`). The query on
`pg_type` also finds the row type of a table, and so a name is in it when it is not free. The array
types that the server makes by itself are left out: a user type with the name of one would be
found there too. So are the dependencies that a `CASCADE` would follow: no column of a published
table has the row type of another one, because `bootstrap_schema` fails on it.

The server has more than types and tables, and refuses statements on their account that
`LocalSchema` executes: `DROP COLUMN` for the sake of a policy, `CREATE INDEX` for that of another
index. `apply_schema_delta` is therefore a function on any `DdlServer`. What it comes to with `Ok`
is what it comes to on the names alone (`applySchemaDelta_schema`).
-/

namespace Pglite.Replica.Backfill

open Runs

/-! ## The catalog -/

/-- A `CREATE INDEX` statement of `pg_get_indexdef`, with the columns the index is over. -/
structure IndexDef where
  sql : String
  columns : List String
  deriving DecidableEq

/-- A table whose index statements are read. -/
abbrev TableDef := Replica.TableDef IndexDef

/-- `TypeDef`. -/
inductive TypeDef
  | enum (schema name : String) (labels : List String)
  | composite (schema name : String) (attrs : List (String × String))
  | domain (schema name base : String) (notNull : Bool) (checks : List String)
  | range (schema name subtype : String)
  deriving DecidableEq

namespace TypeDef

def schema : TypeDef → String
  | enum schema _ _ | composite schema _ _ | domain schema _ _ _ _ | range schema _ _ => schema

def name : TypeDef → String
  | enum _ name _ | composite _ name _ | domain _ name _ _ _ | range _ name _ => name

def key (ty : TypeDef) : TableKey := (ty.schema, ty.name)

def target (ty : TypeDef) : String :=
  ident ty.schema ++ "." ++ ident ty.name

/-- `drop_sql`. -/
def dropSql (ty : TypeDef) : String :=
  let kind := match ty with
    | domain .. => "DOMAIN"
    | _ => "TYPE"
  s!"DROP {kind} IF EXISTS {ty.target} CASCADE"

/-- `create_sql`. -/
def createSql (ty : TypeDef) : String :=
  match ty with
  | enum _ _ labels =>
    let labels := ", ".intercalate (labels.map lit)
    s!"CREATE TYPE {ty.target} AS ENUM ({labels})"
  | composite _ _ attrs =>
    let attrs := ", ".intercalate (attrs.map fun (n, ty) => ident n ++ " " ++ ty)
    s!"CREATE TYPE {ty.target} AS ({attrs})"
  | domain _ _ base notNull checks =>
    s!"CREATE DOMAIN {ty.target} AS {base}" ++ (if notNull then " NOT NULL" else "") ++
      String.join (checks.map (" " ++ ·))
  | range _ _ subtype => s!"CREATE TYPE {ty.target} AS RANGE (subtype = {subtype})"

end TypeDef

namespace TableDef

/-- The table as `introspect` returns it. -/
def recorded (t : TableDef) : Replica.TableDef :=
  { t with indexes := t.indexes.map IndexDef.sql }

end TableDef

/-- What `introspect_types` and `introspect` read in one catalog, which gives a name to one type
and to one table only. -/
structure Catalog where
  types : List TypeDef
  tables : List TableDef
  types_nodup : (types.map TypeDef.key).Nodup
  tables_nodup : (tables.map TableDef.key).Nodup

/-! ## The statements -/

/-- `{schema}.{table}`, quoted. -/
def quoted (t : TableKey) : String :=
  ident t.1 ++ "." ++ ident t.2

/-- The statements on a table that exists. -/
inductive TableDdl
  | createIndex (index : IndexDef)
  | addColumn (name typeSql : String)
  | dropColumn (name : String)
  deriving DecidableEq

/-- The statements that the schema functions issue. -/
inductive Ddl
  | createSchema (schema : String)
  | dropType (ty : TypeDef)
  | createType (ty : TypeDef)
  | dropTable (t : TableKey)
  | createTable (t : TableDef)
  | alter (t : TableKey) (stmt : TableDdl)
  deriving DecidableEq

/-- `create_table_sql`. -/
def createTableSql (t : TableDef) : String :=
  let defs := t.columns.map fun c =>
    ident c.name ++ " " ++ c.typeSql ++ if c.notNull then " NOT NULL" else ""
  let key := ", ".intercalate (t.pk.map ident)
  let defs := if t.pk.isEmpty then defs else defs ++ [s!"PRIMARY KEY ({key})"]
  let body := ", ".intercalate defs
  s!"CREATE TABLE {quoted t.key} ({body})"

def TableDdl.sql (t : TableKey) : TableDdl → String
  | createIndex index => index.sql
  | addColumn name typeSql =>
    s!"ALTER TABLE {quoted t} ADD COLUMN IF NOT EXISTS {ident name} {typeSql}"
  | dropColumn name => s!"ALTER TABLE {quoted t} DROP COLUMN IF EXISTS {ident name}"

def Ddl.sql : Ddl → String
  | createSchema schema => s!"CREATE SCHEMA IF NOT EXISTS {ident schema}"
  | dropType ty => ty.dropSql
  | createType ty => ty.createSql
  | dropTable t => s!"DROP TABLE IF EXISTS {quoted t} CASCADE"
  | createTable t => createTableSql t
  | alter t stmt => stmt.sql t

/-! ## Executing them -/

structure LocalColumn where
  name : String
  typeSql : String
  notNull : Bool
  deriving DecidableEq

/-- A table of the local database. -/
structure LocalTable where
  columns : List LocalColumn
  pk : List String
  indexes : List IndexDef
  deriving DecidableEq

inductive Entity
  | type (ty : TypeDef)
  | table (t : LocalTable)
  deriving DecidableEq

/-- The local database: what each name stands for. -/
abbrev LocalSchema := TableKey → Option Entity

/-- A database without user types and tables. -/
def LocalSchema.empty : LocalSchema := fun _ => none

/-- A column of a new table. The columns of a primary key are `NOT NULL`. -/
def TableDef.localColumn (t : TableDef) (c : ColDef) : LocalColumn :=
  ⟨c.name, c.typeSql, c.notNull || decide (c.name ∈ t.pk)⟩

/-- The table that `CREATE TABLE` makes. -/
def TableDef.bare (t : TableDef) : LocalTable where
  columns := t.columns.map t.localColumn
  pk := t.pk
  indexes := []

/-- The table with its indexes. -/
def TableDef.full (t : TableDef) : LocalTable :=
  { t.bare with indexes := t.indexes }

/-- `CREATE TABLE` is accepted for these columns and this primary key. -/
def TableDef.WellFormed (t : TableDef) : Prop :=
  t.columnNames.Nodup ∧ t.pk ⊆ t.columnNames

instance TableDef.decidableWellFormed (t : TableDef) : Decidable t.WellFormed :=
  inferInstanceAs (Decidable (_ ∧ _))

namespace LocalTable

def columnNames (L : LocalTable) : List String :=
  L.columns.map LocalColumn.name

/-- `ADD COLUMN IF NOT EXISTS`. -/
def addColumn (L : LocalTable) (name typeSql : String) : LocalTable :=
  if name ∈ L.columnNames then L
  else { L with columns := L.columns ++ [⟨name, typeSql, false⟩] }

/-- `DROP COLUMN IF EXISTS`. The primary key and the indexes with the column go with it. -/
def dropColumn (L : LocalTable) (name : String) : LocalTable where
  columns := L.columns.filter fun c => decide (c.name ≠ name)
  pk := if name ∈ L.pk then [] else L.pk
  indexes := L.indexes.filter fun i => decide (name ∉ i.columns)

def exec (L : LocalTable) : TableDdl → Option LocalTable
  | .createIndex index =>
    if index.columns ⊆ L.columnNames ∧ index ∉ L.indexes then
      some { L with indexes := L.indexes ++ [index] }
    else none
  | .addColumn name typeSql => some (L.addColumn name typeSql)
  | .dropColumn name => some (L.dropColumn name)

end LocalTable

namespace LocalSchema

/-- The server executes a statement, or refuses it. `DROP TABLE` is refused on a composite type,
which is a relation but no table, and passes over every other type. -/
def exec (l : LocalSchema) : Ddl → Option LocalSchema
  | .createSchema _ => some l
  | .dropType ty =>
    match l ty.key with
    | some (.table _) => none
    | _ => some (Function.update l ty.key none)
  | .createType ty =>
    if (l ty.key).isSome then none else some (Function.update l ty.key (some (.type ty)))
  | .dropTable t =>
    match l t with
    | some (.type (.composite ..)) => none
    | some (.type _) => some l
    | _ => some (Function.update l t none)
  | .createTable t =>
    if (l t.key).isNone ∧ t.WellFormed then some (Function.update l t.key (some (.table t.bare)))
    else none
  | .alter t stmt =>
    match l t with
    | some (.table L) => (L.exec stmt).map fun L => Function.update l t (some (.table L))
    | _ => none

end LocalSchema

/-- A server that executes these statements. What it accepts leads to the same types and tables as
in `LocalSchema`, but it may refuse more. -/
class DdlServer (S : Type) where
  exec : S → Ddl → Option S
  schema : S → LocalSchema
  exec_schema {s s' : S} {stmt : Ddl} : exec s stmt = some s' →
    (schema s).exec stmt = some (schema s')

instance LocalSchema.server : DdlServer LocalSchema where
  exec := LocalSchema.exec
  schema := id
  exec_schema := id

@[simp] theorem LocalSchema.schema_self (l : LocalSchema) : DdlServer.schema l = l := rfl

/-! ## Building from scratch -/

/-- The schema of a type or a table is created first, `public` apart. -/
def schemaDdl (schema : String) : List Ddl :=
  if schema = "public" then [] else [.createSchema schema]

/-- The body of the first loop of `bootstrap_schema`. -/
def typeDdl (ty : TypeDef) : List Ddl :=
  schemaDdl ty.schema ++ [.dropType ty, .createType ty]

/-- The body of its second loop, which `apply_schema_delta` repeats for a new table. -/
def tableDdl (t : TableDef) : List Ddl :=
  schemaDdl t.schema ++ [.dropTable t.key, .createTable t] ++
    t.indexes.map fun index => .alter t.key (.createIndex index)

/-- `bootstrap_schema`. It stops at the first statement that fails. -/
def bootstrapSchema (types : List TypeDef) (tables : List TableDef) (l : LocalSchema) :
    Option LocalSchema :=
  run LocalSchema.exec l (types.flatMap typeDdl ++ tables.flatMap tableDdl)

/-! ## Altering -/

/-- Why `apply_schema_delta` ends early. The text of the server's error is left out. -/
inductive Failure
  | refused
  | error (e : Error)
  deriving DecidableEq

/-- The columns of each table that the old lines list. -/
abbrev OldColumns := AList fun _ : TableKey => List (String × Nat)

/-- The map a line is added to. -/
def OldColumns.addLine (m : OldColumns) (line : String) : OldColumns :=
  match lineKey line with
  | some key => m.insert key (lineColumns line)
  | none => m

/-- The map `old` of `apply_schema_delta`. -/
def oldColumns (oldLines : List String) : OldColumns :=
  oldLines.foldl OldColumns.addLine ∅

section Servers

variable {S : Type} [DdlServer S]

/-- The statements one after the other. -/
def execAll (s : S) (stmts : List Ddl) : Except Failure S :=
  match run DdlServer.exec s stmts with
  | some s' => .ok s'
  | none => .error .refused

/-- The loop over the new types. One whose name is in `pg_type` is left alone: it is the name of a
type, or of a table, whose row type is there too. The array types of both are left out. -/
def ensureTypes : List TypeDef → S → Except Failure S
  | [], s => .ok s
  | ty :: types, s =>
    if (DdlServer.schema s ty.key).isSome then ensureTypes types s
    else (execAll s (schemaDdl ty.schema ++ [.createType ty])).bind (ensureTypes types)

/-- The tables of the old lines that are no longer published. They are dropped in the order of a
hash map, which does not matter. -/
def droppedTables (old : OldColumns) (newTables : List TableDef) : List TableKey :=
  old.keys.filter fun key => decide (key ∉ newTables.map TableDef.key)

/-- The columns that are in no old line. -/
def addedColumns (t : TableDef) (oldCols : List (String × Nat)) : List ColDef :=
  t.columns.filter fun c => decide (c.name ∉ oldCols.map Prod.fst)

/-- The halt on a column whose type is another one. -/
def incompatibleColumn (t : TableDef) (name : String) : Error :=
  .replicaHalted (s!"incompatible column type change on {t.schema}.{t.name} column {name}; " ++
    "run Replica::decommission and start again for a full resync")

/-- The loop over the old columns of a table. -/
def dropColumns (t : TableDef) : List (String × Nat) → S → Except Failure S
  | [], s => .ok s
  | (name, oldOid) :: oldCols, s =>
    if name ∉ t.columnNames then
      (execAll s [.alter t.key (.dropColumn name)]).bind (dropColumns t oldCols)
    else if ∃ c ∈ t.columns, c.name = name ∧ c.typeOid.toNat ≠ oldOid then
      .error (.error (incompatibleColumn t name))
    else dropColumns t oldCols s

/-- The body of the loop over the new tables. -/
def applyTable (old : OldColumns) (t : TableDef) (s : S) : Except Failure S :=
  match old.lookup t.key with
  | none => execAll s (tableDdl t)
  | some oldCols =>
    (execAll s ((addedColumns t oldCols).map fun c =>
      .alter t.key (.addColumn c.name c.typeSql))).bind (dropColumns t oldCols)

/-- The loop over the new tables. -/
def applyTables (old : OldColumns) : List TableDef → S → Except Failure S
  | [], s => .ok s
  | t :: tables, s => (applyTable old t s).bind (applyTables old tables)

/-- `apply_schema_delta`, from what it introspects on. -/
def applySchemaDelta (newTypes : List TypeDef) (newTables : List TableDef)
    (oldLines : List String) (s : S) : Except Failure S :=
  let old := oldColumns oldLines
  (ensureTypes newTypes s).bind fun s =>
    (execAll s ((droppedTables old newTables).map .dropTable)).bind (applyTables old newTables)

end Servers

/-! ## The statements of a change -/

/-- The old columns that are gone. -/
def goneColumns (t : TableDef) (oldCols : List (String × Nat)) : List String :=
  (oldCols.map Prod.fst).filter fun name => decide (name ∉ t.columnNames)

/-- The statements that alter a table of the old lines. -/
def alterStmts (t : TableDef) (oldCols : List (String × Nat)) : List TableDdl :=
  (addedColumns t oldCols).map (fun c => .addColumn c.name c.typeSql) ++
    (goneColumns t oldCols).map .dropColumn

/-- The statements that are issued for a table. -/
def tableStmts (old : OldColumns) (t : TableDef) : List Ddl :=
  match old.lookup t.key with
  | none => tableDdl t
  | some oldCols => (alterStmts t oldCols).map (.alter t.key)

/-- The statements on tables that `apply_schema_delta` issues when none fails. -/
def deltaStmts (old : OldColumns) (newTables : List TableDef) : List Ddl :=
  (droppedTables old newTables).map .dropTable ++ newTables.flatMap (tableStmts old)

end Pglite.Replica.Backfill
