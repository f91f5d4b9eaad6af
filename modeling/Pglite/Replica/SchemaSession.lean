import Pglite.Replica.Run
import Pglite.Replica.SchemaDelta

/-!
# A session and the local schema

`stream_loop` of `src/replica/mod.rs` over the local schema that its statements and
`apply_schema_delta` work on, and the upstream's side of the stream. Row changes wait in the open
transaction until its `Commit`, while a DDL signal alters the local tables at once, after a catalog
that may be newer than the signal.

A session that ends for another reason than a missing table, column or relation has nothing more
to answer for. A connection that breaks, an `update_fingerprint` or a `resync_security` that fails
only cut a run short, so that they are no events here.
-/

namespace Pglite.Replica

open Text Runs

/-! ## Names -/

def Rel.key (rel : Rel) : TableKey := (rel.schema, rel.name)

def Rel.columnNames (rel : Rel) : List String :=
  rel.columns.map RelColumn.name

/-- The names and the type OIDs that the fingerprint line of a relation lists. -/
def Rel.recorded (rel : Rel) : List (String × UInt32) :=
  rel.columns.map fun c => (c.name, c.typeOid)

def Rel.line (rel : Rel) : String :=
  fingerprintLine rel.schema rel.name rel.recorded

/-- The table that a change, and its statement, is about. -/
def RowChange.table : RowChange → TableKey
  | .insert schema table _ => (schema, table)
  | .update schema table _ _ => (schema, table)
  | .delete schema table _ => (schema, table)
  | .truncate schema table => (schema, table)

/-- The columns that its statement names. -/
def RowChange.columns : RowChange → List String
  | .insert _ _ row => row.map Prod.fst
  | .update _ _ key row => key.map Prod.fst ++ row.map Prod.fst
  | .delete _ _ key => key.map Prod.fst
  | .truncate _ _ => []

/-- A condition on some relations is checked on these only, not on every id there can be. -/
instance (priority := high) decidableForallRelIds {P : UInt32 → Prop} [DecidablePred P]
    (relIds : List UInt32) : Decidable (∀ relId ∈ relIds, P relId) :=
  List.decidableBAll P relIds

/-- The relations that a row change is about. -/
def PgOutputMsg.relIds : PgOutputMsg → List UInt32
  | .insert relId _ => [relId]
  | .update relId _ _ _ => [relId]
  | .delete relId _ _ => [relId]
  | .truncate relIds => relIds
  | _ => []

namespace Backfill

/-- The database has the table, with these columns among others. -/
def LocalSchema.Has (l : LocalSchema) (k : TableKey) (names : List String) : Prop :=
  ∃ L, l k = some (.table L) ∧ names ⊆ L.columnNames

instance LocalSchema.decidableHas (l : LocalSchema) (k : TableKey) (names : List String) :
    Decidable (l.Has k names) :=
  match h : l k with
  | some (.table L) => decidable_of_iff (names ⊆ L.columnNames) (by simp [Has, h])
  | some (.type _) => .isFalse (by simp [Has, h])
  | none => .isFalse (by simp [Has, h])

/-- The catalog has the table, with these columns among others. -/
def Catalog.Has (c : Catalog) (k : TableKey) (names : List String) : Prop :=
  ∃ t ∈ c.tables, t.key = k ∧ names ⊆ t.columnNames

instance Catalog.decidableHas (c : Catalog) (k : TableKey) (names : List String) :
    Decidable (c.Has k names) :=
  inferInstanceAs (Decidable (∃ t ∈ c.tables, t.key = k ∧ names ⊆ t.columnNames))

/-- The catalog of a message that is answered without one. -/
def Catalog.unread : Catalog :=
  ⟨[], [], .nil, .nil⟩

/-- The fingerprint that `resync_schema` makes of a catalog. -/
def Catalog.fingerprint (c : Catalog) : String :=
  Replica.fingerprint (c.tables.map TableDef.recorded)

end Backfill

open Backfill

/-! ## The session -/

namespace SchemaSession

/-- The variables of `stream_loop`, the local schema and the watermark. -/
structure Session where
  stream : Stream
  schema : LocalSchema
  watermark : Lsn

/-- What a statement or a message asks for and does not find. -/
inductive Missing
  /-- `change for unknown relation id` -/
  | relation
  /-- `relation is not part of the replicated fingerprint` -/
  | fingerprint (t : TableKey)
  /-- A table, or a column of it, that a statement names. -/
  | table (t : TableKey)
  deriving DecidableEq

/-- What a message leads to. -/
inductive Result
  | next (x : Session)
  | rejected (what : Missing)
  | ended

namespace Session

variable (x : Session)

/-- `apply_added_columns`. The upstream's `format_type` names the type of a column. -/
def applyAddedColumns (formatType : UInt32 → Int32 → String) (t : TableKey)
    (added : List RelColumn) : Option LocalSchema :=
  run LocalSchema.exec x.schema
    (added.map fun c => .alter t (.addColumn c.name (formatType c.typeOid c.typeModifier)))

/-- The `Relation` branch. -/
def onRelation (formatType : UInt32 → Int32 → String) (relId : UInt32) (rel : Rel) : Result :=
  match x.stream.expected.lookup rel.key with
  | some want =>
    if want = rel.line then .next { x with stream := x.stream.addRel relId rel }
    else
      match classifySchemaChange want rel.recorded with
      | .additive oldCount =>
        match x.applyAddedColumns formatType rel.key (rel.columns.drop oldCount) with
        | some schema =>
          let s := x.stream.addRel relId rel
          .next { x with
            stream := { s with expected := s.expected.insert rel.key rel.line }
            schema := schema }
        | none => .rejected (.table rel.key)
      | .incompatible _ => .ended
  | none => .rejected (.fingerprint rel.key)

/-- The branches for row changes, in a transaction. -/
def onRow (m : PgOutputMsg) : Result :=
  if ∃ relId ∈ m.relIds, x.stream.rels relId = none then .rejected .relation
  else
    match x.stream.onRow m with
    | .ok s => .next { x with stream := s }
    | .error _ => .ended

/-- Every statement of `apply` names what is there. -/
def Accepts (changes : List RowChange) : Prop :=
  ∀ change ∈ changes, x.schema.Has change.table change.columns

instance decidableAccepts (changes : List RowChange) : Decidable (x.Accepts changes) :=
  inferInstanceAs (Decidable (∀ change ∈ changes, x.schema.Has change.table change.columns))

/-- The `Commit` branch. -/
def onCommit (endLsn : Lsn) : Result :=
  match x.stream.txn with
  | none => .ended
  | some buf =>
    let x' : Session := { x with stream := { x.stream with txn := none } }
    if endLsn ≤ x.watermark ∨ buf.stmts = [] then .next x'
    else
      match buf.changes.find? fun change => !decide (x.schema.Has change.table change.columns) with
      | some change => .rejected (.table change.table)
      | none => .next { x' with watermark := endLsn }

/-- `resync_schema`, from the catalog it introspects. -/
def resyncSchema (seen : Backfill.Catalog) : Result :=
  match applySchemaDelta seen.types seen.tables x.stream.expected.values x.schema with
  | .error _ => .ended
  | .ok schema =>
    if sorted (lines seen.fingerprint) = sorted x.stream.expected.values then
      .next { x with schema := schema }
    else
      let expected : Expected := .ofFingerprint seen.fingerprint
      .next { x with
        stream := { x.stream with
          expected := expected
          rels := fun i => (x.stream.rels i).filter fun r => (expected.lookup r.key).isSome }
        schema := schema }

/-- One message of the stream. -/
def handle (formatType : UInt32 → Int32 → String) (seen : Backfill.Catalog) : PgOutputMsg → Result
  | .begin _ commitTs xid =>
    .next { x with stream := { x.stream with txn := some ⟨xid, commitTs, [], []⟩ } }
  | .relation relId ns name _ columns => x.onRelation formatType relId ⟨ns, name, columns⟩
  | .commit _ endLsn _ => x.onCommit endLsn
  | .message msgPrefix _ => if msgPrefix = ddlSignalPrefix then x.resyncSchema seen else .next x
  | .other => .next x
  | m => x.onRow m

end Session

/-! ## The upstream -/

/-- The published relations. -/
abbrev Published := AList fun _ : UInt32 => Rel

/-- The upstream at the position of the stream: the published relations, and those it has sent a
`Relation` message for that still holds. -/
structure Upstream where
  tables : Published
  announced : UInt32 → Bool

/-- A step of the upstream's history, as the stream tells it. -/
inductive Event
  | begin (finalLsn : Lsn) (commitTs : Int64) (xid : UInt32)
  | relation (relId : UInt32) (replicaIdentity : UInt8)
  | row (m : PgOutputMsg)
  /-- A change of the published schema and its signal message. The upstream may forget relations
  that it has announced, and the replica introspects the catalog `seen`. -/
  | ddl (tables : Published) (forgets : UInt32 → Bool) (seen : Backfill.Catalog)
  | commit (commitLsn endLsn : Lsn) (commitTs : Int64)
  | other (m : PgOutputMsg)

/-- The message makes no difference to the session. -/
def isIdle : PgOutputMsg → Bool
  | .message msgPrefix _ => decide (msgPrefix ≠ ddlSignalPrefix)
  | .other => true
  | _ => false

/-- The upstream after a `Relation` message. -/
def Upstream.announce (u : Upstream) (relId : UInt32) : Upstream :=
  { u with announced := Function.update u.announced relId true }

/-- The upstream after a schema change. A relation that is not what it was is announced anew
before its next row change. -/
def Upstream.change (u : Upstream) (tables : Published) (forgets : UInt32 → Bool) :
    Upstream where
  tables := tables
  announced relId :=
    u.announced relId && decide (tables.lookup relId = u.tables.lookup relId) && !forgets relId

structure State where
  upstream : Upstream
  result : Result

/-- One step of the upstream and what the session makes of it. A transaction is sent as a whole,
and a row change only for relations that have been announced. -/
def step (formatType : UInt32 → Int32 → String) (σ : State) (e : Event) : Option State :=
  match σ.result with
  | .next x =>
    let inTxn := x.stream.txn.isSome
    let handle := x.handle formatType .unread
    match e with
    | .begin finalLsn commitTs xid =>
      if inTxn then none
      else some { σ with result := handle (.begin finalLsn commitTs xid) }
    | .relation relId replicaIdentity =>
      match σ.upstream.tables.lookup relId with
      | some rel =>
        if inTxn then
          some
            { upstream := σ.upstream.announce relId
              result :=
                handle (.relation relId rel.schema rel.name replicaIdentity rel.columns) }
        else none
      | none => none
    | .row m =>
      if inTxn ∧ m.isRow = true ∧ ∀ relId ∈ m.relIds, σ.upstream.announced relId = true then
        some { σ with result := handle m }
      else none
    | .ddl tables forgets seen =>
      if inTxn then
        some
          { upstream := σ.upstream.change tables forgets
            result := x.handle formatType seen (.message ddlSignalPrefix []) }
      else none
    | .commit commitLsn endLsn commitTs =>
      if inTxn then some { σ with result := handle (.commit commitLsn endLsn commitTs) }
      else none
    | .other m => if isIdle m then some { σ with result := handle m } else none
  | _ => none

end SchemaSession

end Pglite.Replica
