import Pglite.Replica.ReconcileProof
import Pglite.Replica.Rows
import Pglite.Replica.Run
import Pglite.Replica.SchemaRetry
import Pglite.Replica.SecurityFingerprint

/-!
# The first run

`Replica::first_run` creates the slot, builds the published schema, copies the rows, brings the
security state in line and writes the row of `_pglite_replica`. Each local statement is a
transaction of its own, so an attempt that ends early leaves a mixture: the slot, some types, some
tables with some of their rows, roles and memberships. The next `Replica::start` finds no row in
`_pglite_replica` and starts over, on this mixture.

`_pglite_replica` is a table of the schema `public` like those that are replicated. What keeps the
two apart is only that no published table has its name.

The server is a parameter where its behaviour depends on what the text of a type means: which user
type it names, and so what `DROP TYPE … CASCADE` takes along. So is which rows a `COPY` accepts.
Not in the model are `updated_at`, and the row types and array types that the server makes by
itself.
-/

namespace Pglite.Replica

open Runs Backfill Records

/-! ## The local database -/

/-- Types and tables, rows, and the security state. -/
structure Database where
  schema : LocalSchema
  contents : Contents
  security : LocalSecurity

/-- A database without anything of a user, on a server with these roles of its own. -/
def Database.empty (builtin : List String) : Database where
  schema := .empty
  contents _ := []
  security := ⟨builtin, [], [], fun _ => .fresh⟩

/-! ## The state table -/

def metaKey : TableKey := ("public", "_pglite_replica")

/-- The table of `ensure_meta_table`. -/
def metaTable : LocalTable where
  columns :=
    [⟨"id", "integer", true⟩, ⟨"slot_name", "text", true⟩, ⟨"publication", "text", true⟩,
      ⟨"watermark_lsn", "text", true⟩, ⟨"fingerprint", "text", true⟩,
      ⟨"security_version", "bigint", true⟩, ⟨"security_fingerprint", "text", true⟩,
      ⟨"updated_at", "timestamp with time zone", true⟩]
  pk := ["id"]
  indexes := []

namespace Database

variable (db : Database)

def isTable (k : TableKey) : Bool :=
  match db.schema k with
  | some (.table _) => true
  | _ => false

/-- `CREATE TABLE IF NOT EXISTS _pglite_replica`. -/
def createMeta : Option Database :=
  match db.schema metaKey with
  | none => some {
      schema := Function.update db.schema metaKey (some (.table metaTable))
      contents := Function.update db.contents metaKey []
      security := { db.security with
        tables := Function.update db.security.tables metaKey .fresh } }
  | some (.table _) => some db
  | some (.type _) => none

/-- `ALTER TABLE _pglite_replica ADD COLUMN IF NOT EXISTS`, with a default for the rows. -/
def addMeta (name typeSql value : String) : Option Database :=
  match db.schema metaKey with
  | some (.table L) =>
    if name ∈ L.columnNames then some db
    else some { db with
      schema := Function.update db.schema metaKey
        (some (.table { L with columns := L.columns ++ [⟨name, typeSql, true⟩] }))
      contents := Function.update db.contents metaKey
        ((db.contents metaKey).map fun r => r.insert name value) }
  | _ => none

/-- The columns that `load_state` reads. -/
def metaColumns : List String :=
  ["id", "slot_name", "publication", "watermark_lsn", "fingerprint"]

/-- The row that the query of `load_state` returns, if any. The query fails on a table without
these columns, and a null is an error. -/
def metaRow : Option (Option ReplicaRow) :=
  match db.schema metaKey with
  | some (.table L) =>
    if metaColumns ⊆ L.columnNames then
      match (db.contents metaKey).find? fun r => decide (r.lookup "id" = some "1") with
      | none => some none
      | some r => do
        let slotName ← r.lookup "slot_name"
        let publication ← r.lookup "publication"
        let watermarkLsn ← r.lookup "watermark_lsn"
        let fingerprint ← r.lookup "fingerprint"
        return some ⟨slotName, publication, watermarkLsn, fingerprint⟩
    else none
  | _ => none

/-- `load_state`. -/
def loadState : Except Failure (Option ReplicaState) :=
  match db.metaRow with
  | none => .error .refused
  | some row =>
    match (Db.mk row []).loadState with
    | .ok state => .ok state
    | .error e => .error (.error e)

/-- What `init_state` writes. -/
def metaValues (st : ReplicaState) : ColPairs :=
  [("slot_name", some st.slotName), ("publication", some st.publication),
    ("watermark_lsn", some st.watermark.toPgStr), ("fingerprint", some st.fingerprint)]

/-- `init_state`, on a table with these columns. -/
def initState (st : ReplicaState) : Option Database :=
  match db.schema metaKey with
  | some (.table L) =>
    if metaColumns ⊆ L.columnNames then
      some { db with
        contents := Function.update db.contents metaKey <|
          if (db.contents metaKey).any fun r => decide (r.lookup "id" = some "1") then
            (db.contents metaKey).map fun r =>
              if r.lookup "id" = some "1" then setAll r (metaValues st) else r
          else db.contents metaKey ++ [setAll ∅ (("id", some "1") :: metaValues st ++
            [("security_version", some "0"), ("security_fingerprint", some "")])] }
    else none
  | _ => none

/-- What `bump_security` writes to a row. -/
def bumpValues (securityFp : String) (r : Row) : ColPairs :=
  [("security_version", (r.lookup "security_version").map fun v => toString (v.toInt?.getD 0 + 1)),
    ("security_fingerprint", some securityFp)]

/-- `bump_security`. -/
def bumpSecurity (securityFp : String) : Option Database :=
  match db.schema metaKey with
  | some (.table L) =>
    if ["id", "security_version", "security_fingerprint"] ⊆ L.columnNames then
      some { db with
        contents := Function.update db.contents metaKey <|
          (db.contents metaKey).map fun r =>
            if r.lookup "id" = some "1" then setAll r (bumpValues securityFp r) else r }
    else none
  | _ => none

end Database

/-! ## The server -/

section Uses

variable (typeNamed : String → Option TableKey)

/-- The user types that something is made of, by what the texts of types name. -/
def typeUses : TypeDef → List TableKey
  | .enum .. => []
  | .composite _ _ attrs => attrs.filterMap fun a => typeNamed a.2
  | .domain _ _ base _ _ => (typeNamed base).toList
  | .range _ _ subtype => (typeNamed subtype).toList

def tableUses (L : LocalTable) : List TableKey :=
  L.columns.filterMap fun c => typeNamed c.typeSql

def entityUses : Entity → List TableKey
  | .type ty => typeUses typeNamed ty
  | .table L => tableUses typeNamed L

/-- Something is made of the type `k`, at first or at second hand. -/
inductive Dependent (l : LocalSchema) (k : TableKey) : TableKey → Prop
  | direct {j e} : l j = some e → k ∈ entityUses typeNamed e → Dependent l k j
  | via {i j e} : l j = some e → i ∈ entityUses typeNamed e → Dependent l k i → Dependent l k j

end Uses

/-- The roles that are built in, what a text names as a type, what `DROP TYPE … CASCADE` leaves when
the type is there, and whether `COPY` accepts rows on a table that has others. -/
structure Server where
  builtinRoles : List String
  typeNamed : String → Option TableKey
  cascade : Database → TableKey → Database
  accepts : LocalTable → List Row → List Row → Bool
  /-- The types of the state table are built in. -/
  builtin : tableUses typeNamed metaTable = []
  cascade_self : ∀ db k, (cascade db k).schema k = none
  /-- What does not depend on the type stays as it is. -/
  cascade_frame : ∀ db k j, j ≠ k → ¬Dependent typeNamed db.schema k j →
    (cascade db k).schema j = db.schema j ∧ (cascade db k).contents j = db.contents j
  /-- What does is altered or dropped. -/
  cascade_kind : ∀ db k j,
    (∀ ty, (cascade db k).schema j = some (.type ty) → ∃ ty', db.schema j = some (.type ty')) ∧
    (∀ L, (cascade db k).schema j = some (.table L) → ∃ L', db.schema j = some (.table L'))
  /-- A type has no rows, and no roles. -/
  cascade_rows : ∀ db k j, (∀ L, db.schema j ≠ some (.table L)) →
    (cascade db k).contents j = db.contents j
  cascade_security : ∀ db k,
    (cascade db k).security = { db.security with tables := (cascade db k).security.tables } ∧
    ∀ j, (∀ L, db.schema j ≠ some (.table L)) ∨ ¬Dependent typeNamed db.schema k j →
      (cascade db k).security.tables j = db.security.tables j

/-- These types are all there. -/
def Known (l : LocalSchema) (keys : List TableKey) : Prop :=
  ∀ k ∈ keys, ((l k).any fun e => match e with
    | .type _ => true
    | .table _ => false) = true

instance Known.decidable (l : LocalSchema) (keys : List TableKey) : Decidable (Known l keys) :=
  inferInstanceAs (Decidable (∀ k ∈ keys, _ = true))

/-- What a statement on the schema does to the security state of tables. -/
def Backfill.Ddl.onSecurity (tables : TableKey → TableSecurity) : Ddl → TableKey → TableSecurity
  | .dropTable t => Function.update tables t .fresh
  | .createTable t => Function.update tables t.key .fresh
  | _ => tables

namespace Server

variable (srv : Server)

/-- The other statements on the schema, with what they do to rows and security. -/
def plainDdl (db : Database) (stmt : Ddl) : Option Database :=
  (db.schema.exec stmt).map fun schema => {
    schema := schema
    contents := stmt.onRows db.contents
    security := { db.security with tables := stmt.onSecurity db.security.tables } }

/-- The server executes a statement on the schema, or refuses it. A type that is made of others
needs them to be there, and so does a table. -/
def execDdl (db : Database) : Ddl → Option Database
  | .dropType ty =>
    match db.schema ty.key with
    | some (.table _) => none
    | some (.type _) => some (srv.cascade db ty.key)
    | none => some db
  | .createType ty =>
    if Known db.schema (typeUses srv.typeNamed ty) then plainDdl db (.createType ty) else none
  | .createTable t =>
    if Known db.schema (tableUses srv.typeNamed t.bare) then plainDdl db (.createTable t) else none
  | stmt => plainDdl db stmt

/-- `COPY … FROM STDIN`. -/
def copyIn (db : Database) (t : TableKey) (rows : List Row) : Option Database :=
  match db.schema t with
  | some (.table L) =>
    if srv.accepts L (db.contents t) rows then
      some { db with contents := Function.update db.contents t (db.contents t ++ rows) }
    else none
  | _ => none

/-- A statement on the security of a table needs the table. -/
def execSecurity (there : TableKey → Bool) (l : LocalSecurity) (stmt : SecurityStmt) :
    Option LocalSecurity :=
  match stmt with
  | .table t _ => if there t then l.exec stmt else none
  | _ => l.exec stmt

end Server

/-! ## The statements of a start -/

/-- The replication slot of the upstream, and the local database. -/
structure Setting where
  slot : Option Lsn
  db : Database

/-- The statements that change something, in the upstream and in the local database. -/
inductive StartStmt
  | createSlot (consistentPoint : Lsn)
  | dropSlot
  | createMeta
  | addMeta (name typeSql value : String)
  | ddl (stmt : Ddl)
  | copyIn (t : TableKey) (rows : List Row)
  | security (stmt : SecurityStmt)
  | initState (st : ReplicaState)
  | bumpSecurity (securityFp : String)

def Setting.exec (srv : Server) (w : Setting) : StartStmt → Option Setting
  | .createSlot consistentPoint =>
    if w.slot.isSome then none else some { w with slot := some consistentPoint }
  | .dropSlot => if w.slot.isSome then some { w with slot := none } else none
  | .createMeta => w.db.createMeta.map fun db => ⟨w.slot, db⟩
  | .addMeta name typeSql value => (w.db.addMeta name typeSql value).map fun db => ⟨w.slot, db⟩
  | .ddl stmt => (srv.execDdl w.db stmt).map fun db => ⟨w.slot, db⟩
  | .copyIn t rows => (srv.copyIn w.db t rows).map fun db => ⟨w.slot, db⟩
  | .security stmt =>
    (Server.execSecurity w.db.isTable w.db.security stmt).map fun l =>
      ⟨w.slot, { w.db with security := l }⟩
  | .initState st => (w.db.initState st).map fun db => ⟨w.slot, db⟩
  | .bumpSecurity securityFp => (w.db.bumpSecurity securityFp).map fun db => ⟨w.slot, db⟩

/-- What the first run reads in the upstream: the catalogs, and the rows of each table as its
column list and its row filter give them. -/
structure Source where
  catalog : UpstreamCatalog
  rows : TableKey → List Row
  security : SecurityCatalog
  roles_nodup : security.roleNames.Nodup

namespace Source

variable (src : Source)

def fingerprint : String :=
  Replica.fingerprint (src.catalog.tables.map TableDef.recorded)

/-- The batches in which the rows of the tables are copied. -/
structure Batches where
  of : TableKey → List (List Row)
  flatten : ∀ k, (of k).flatten = src.rows k

/-- `ensure_meta_table`. -/
def metaStmts : List StartStmt :=
  [.createMeta, .addMeta "security_version" "bigint" "0", .addMeta "security_fingerprint" "text" ""]

/-- `first_run` up to the slot. A `CREATE_REPLICATION_SLOT` that fails on a slot that is there
leaves nothing. -/
def slotStmts (slot : Option Lsn) (consistentPoint : Lsn) : List StartStmt :=
  (if slot.isSome then [.dropSlot] else []) ++ [.createSlot consistentPoint]

/-- `bootstrap_schema`. -/
def schemaStmts : List Ddl :=
  src.catalog.types.flatMap typeDdl ++ src.catalog.tables.flatMap tableDdl

/-- `copy_tables`. -/
def copyStmts (batches : src.Batches) : List StartStmt :=
  src.catalog.tables.flatMap fun t => (batches.of t.key).map (.copyIn t.key)

/-- `first_run` up to `reconcile_security`. -/
def loadStmts (batches : src.Batches) (consistentPoint : Lsn) (w : Setting) : List StartStmt :=
  slotStmts w.slot consistentPoint ++ src.schemaStmts.map .ddl ++ src.copyStmts batches

/-- `first_run` before `init_state`. -/
def firstRunStmts (srv : Server) (batches : src.Batches) (consistentPoint : Lsn) (w : Setting) :
    List StartStmt :=
  let stmts := src.loadStmts batches consistentPoint w
  stmts ++ ((run (Setting.exec srv) w stmts).elim [] fun u =>
    (src.security.reconcile u.db.security).map .security)

/-- The row that `init_state` writes. -/
def state (cfg : ReplicaConfig) (consistentPoint : Lsn) : ReplicaState :=
  ⟨cfg.slotName, cfg.publication, consistentPoint, src.fingerprint⟩

/-- `Replica::start` comes to the first run from `w`, with `w'` after `ensure_meta_table`. -/
def FindsNone (srv : Server) (w w' : Setting) : Prop :=
  run (Setting.exec srv) w metaStmts = some w' ∧ w'.db.loadState = .ok none

/-- What any number of starts leave of which none came to `init_state`. -/
inductive Interrupted (srv : Server) : Setting → Prop
  | empty (slot : Option Lsn) : Interrupted srv ⟨slot, .empty srv.builtinRoles⟩
  | ensuring {w u : Setting} {ps : List StartStmt} : Interrupted srv w → ps <+: metaStmts →
    run (Setting.exec srv) w ps = some u → Interrupted srv u
  | running {w w' u : Setting} {ps : List StartStmt} (batches : src.Batches)
    (consistentPoint : Lsn) : Interrupted srv w → FindsNone srv w w' →
    ps <+: src.firstRunStmts srv batches consistentPoint w' →
    run (Setting.exec srv) w' ps = some u → Interrupted srv u

/-- A start from `w` completes the first run, with `u` after `bump_security`. -/
def Completes (srv : Server) (cfg : ReplicaConfig) (batches : src.Batches) (consistentPoint : Lsn)
    (w u : Setting) : Prop :=
  ∃ w', FindsNone srv w w' ∧
    run (Setting.exec srv) w' (src.firstRunStmts srv batches consistentPoint w' ++
      [.initState (src.state cfg consistentPoint), .bumpSecurity src.security.fingerprint]) =
        some u

/-- No published table has the name of the state table. -/
def Clear : Prop :=
  metaKey ∉ src.catalog.tables.map TableDef.key ∧
    metaKey ∉ src.security.tables.map RlsFlag.key

end Source

end Pglite.Replica
