import Mathlib.Data.List.ModifyLast
import Pglite.Message
import Pglite.Replica.FingerprintProof
import Pglite.Replica.SchemaDelta
import Pglite.Replica.Security

/-!
# Table introspection

`introspect` of `src/replica/backfill.rs` builds the table definitions from four queries: the
operations of the publication, the columns of its tables, the columns of their primary keys, and
the statements of their other indexes. Each query has a filter of its own. That on the columns
leaves out what is generated and, from version 15 on, what is in no column list. That on the
primary keys leaves out nothing: also a column an index only includes is one of its `indkey`. That
on the indexes leaves out an index with a column outside the list, from version 15 on, and takes
no notice of generated columns.
-/

namespace Pglite.Replica.Introspect

open SecurityCatalog Text

/-! ## The upstream catalogs -/

/-- `relreplident`. -/
inductive ReplicaIdentity
  | default
  | nothing
  | full
  | index
  deriving DecidableEq

def ReplicaIdentity.text : ReplicaIdentity → String
  | default => "d"
  | nothing => "n"
  | full => "f"
  | index => "i"

/-- A row of `pg_attribute`, with the text of its type. -/
structure Attribute where
  attname : String
  attnum : Int
  typeSql : String
  atttypid : UInt32
  attnotnull : Bool
  generated : Bool
  attisdropped : Bool
  deriving DecidableEq

/-- A row of `pg_index`, with what `pg_get_indexdef` makes of it. An expression has a zero in
`indkey`. The first `indnkeyatts` columns are the key, the others are included. -/
structure Index where
  indexdef : String
  indkey : List Int
  indnkeyatts : Nat
  indisprimary : Bool
  indisvalid : Bool
  indisready : Bool
  indisreplident : Bool
  hasExprs : Bool
  hasPred : Bool
  deriving DecidableEq

/-- A table of the upstream. -/
structure Class where
  nspname : String
  relname : String
  relreplident : ReplicaIdentity
  attributes : List Attribute
  indexes : List Index
  attnums : (attributes.map Attribute.attnum).Pairwise (· < ·)
  attnames : (attributes.map Attribute.attname).Nodup
  indexdefs : (indexes.map Index.indexdef).Nodup
  /-- An index is over columns that are there. -/
  indexed : ∀ i ∈ indexes, ∀ a ∈ attributes, a.attnum ∈ i.indkey →
    0 < a.attnum ∧ a.attisdropped = false

/-- The columns of an index. -/
def Class.columnsOf (c : Class) (i : Index) : List String :=
  (c.attributes.filter fun a => decide (a.attnum ∈ i.indkey)).map Attribute.attname

/-- A row of `pg_publication_tables`. Before version 15 it has no `attnames` and no
`rowfilter`. -/
structure PublicationTable where
  relation : Class
  attnames : List String
  rowfilter : Option String

def PublicationTable.key (pt : PublicationTable) : String × String :=
  (pt.relation.nspname, pt.relation.relname)

/-- A publication, with its tables in the order of the queries. -/
structure Publication where
  pubinsert : Bool
  pubupdate : Bool
  pubdelete : Bool
  pubtruncate : Bool
  tables : List PublicationTable
  keys : (tables.map PublicationTable.key).Nodup

structure Upstream where
  version : Nat
  publication : String → Option Publication

/-- The tables of a publication. One that does not exist has none. -/
def Upstream.tables (u : Upstream) (publication : String) : List PublicationTable :=
  (u.publication publication).elim [] Publication.tables

/-! ## The queries -/

/-- `published_columns_filter`. -/
def PublicationTable.publishedColumnsFilter (version : Nat) (pt : PublicationTable)
    (a : Attribute) : Bool :=
  if 150000 ≤ version then !a.generated && decide (a.attname ∈ pt.attnames) else !a.generated

/-- The columns the second query finds. -/
def PublicationTable.columns (version : Nat) (pt : PublicationTable) : List Attribute :=
  pt.relation.attributes.filter fun a =>
    decide (0 < a.attnum) && !a.attisdropped && pt.publishedColumnsFilter version a

/-- `unpublished_pred`. -/
def PublicationTable.unpublishedPred (version : Nat) (pt : PublicationTable)
    (a : Attribute) : Bool :=
  decide (150000 ≤ version) && decide (a.attname ∉ pt.attnames)

/-- The indexes the fourth query finds. -/
def PublicationTable.replicated (version : Nat) (pt : PublicationTable) (i : Index) : Bool :=
  !i.indisprimary && i.indisvalid && i.indisready && !i.hasExprs && !i.hasPred &&
    pt.relation.attributes.all fun a =>
      !(decide (a.attnum ∈ i.indkey) && decide (0 < a.attnum) && pt.unpublishedPred version a)

namespace PublicationTable

def columnRow (version : Nat) (pt : PublicationTable) (a : Attribute) : List (Option String) :=
  [some pt.relation.nspname, some pt.relation.relname, some a.attname, some a.typeSql,
    some (intText a.attnotnull), some (toString a.atttypid.toNat),
    some pt.relation.relreplident.text, if 150000 ≤ version then pt.rowfilter else none]

/-- One row for each column of each primary index, of which there is one at most. -/
def pkRows (pt : PublicationTable) : Rows :=
  pt.relation.attributes.flatMap fun a =>
    (pt.relation.indexes.filter fun i => i.indisprimary && decide (a.attnum ∈ i.indkey)).map
      fun _ => [some pt.relation.nspname, some pt.relation.relname, some a.attname]

def indexRows (version : Nat) (pt : PublicationTable) : Rows :=
  (pt.relation.indexes.filter (pt.replicated version)).map fun i =>
    [some pt.relation.nspname, some pt.relation.relname, some i.indexdef]

end PublicationTable

def Publication.opsRow (p : Publication) : List (Option String) :=
  [some (intText p.pubinsert), some (intText p.pubupdate), some (intText p.pubdelete),
    some (intText p.pubtruncate)]

/-! ## Building the definitions -/

/-- `validate_publish_ops`. -/
def validatePublishOps (publication : String) (flags : List Bool) : Except Error Unit :=
  match (flags.zip ["insert", "update", "delete", "truncate"]).find? fun f => !f.1 with
  | some (_, op) => .error (.replicaConfig
      (s!"publication {publication} does not publish {op}; " ++
        "the replica cache would silently diverge"))
  | none => .ok ()

/-- `check_replica_identity`. -/
def checkReplicaIdentity (schema table relreplident : String) : Except Error Unit :=
  if relreplident = "n" then .error (.replicaConfig
    (s!"published table {schema}.{table} has REPLICA IDENTITY NOTHING; " ++
      "its updates and deletes cannot be replicated"))
  else .ok ()

/-- The closure `get`. -/
def get (row : List (Option String)) (i : Nat) : Except Error String :=
  match cell row i with
  | some s => .ok s
  | none => .error (.protocol "null in introspection result")

def columnOfRow (row : List (Option String)) : Except Error ColDef := do
  let oid ← get row 5
  let typeOid ← match fromStrRadix (2 ^ 32) 10 oid.toList with
    | some n => .ok (UInt32.ofNat n)
    | none => .error (.protocol "bad type oid in introspection result")
  let name ← get row 2
  let typeSql ← get row 3
  let notNull ← get row 4
  return ⟨name, typeSql, typeOid, notNull == "1"⟩

/-- A row of another table than the last one starts a new one. -/
def startTable (tables : List TableDef) (row : List (Option String)) (schema table : String) :
    Except Error (List TableDef) :=
  if (tables.getLast?).map TableDef.key = some (schema, table) then .ok tables
  else do
    let relreplident ← get row 6
    checkReplicaIdentity schema table relreplident
    return tables ++ [⟨schema, table, [], [], relreplident, cell row 7, []⟩]

/-- The body of the loop over the columns. -/
def addColumn (tables : List TableDef) (row : List (Option String)) :
    Except Error (List TableDef) := do
  let schema ← get row 0
  let table ← get row 1
  let tables ← startTable tables row schema table
  let column ← columnOfRow row
  return tables.modifyLast fun t => { t with columns := t.columns ++ [column] }

/-- The body of the loop over the primary keys, and of that over the indexes: the text is added to
the first table that has the name. -/
def addText (add : TableDef → String → TableDef) (tables : List TableDef)
    (row : List (Option String)) : List TableDef :=
  tables.replaceF fun t =>
    if t.schema = text row 0 ∧ t.name = text row 1 then some (add t (text row 2)) else none

def addPk (t : TableDef) (col : String) : TableDef := { t with pk := t.pk ++ [col] }

def addIndex (t : TableDef) (definition : String) : TableDef :=
  { t with indexes := t.indexes ++ [definition] }

/-- The body of the last loop. -/
def checkKey (t : TableDef) : Except Error Unit :=
  if t.pk = [] ∧ t.replicaIdentity ≠ "f" then .error (.replicaConfig
    (s!"published table {t.schema}.{t.name} has no primary key and is not REPLICA IDENTITY FULL; " ++
      s!"run ALTER TABLE {t.schema}.{t.name} REPLICA IDENTITY FULL " ++
      "so its updates and deletes can be replicated"))
  else .ok ()

/-- `introspect`, from the answers to its queries. -/
def ofRows (publication : String) (ops cols pks indexDefs : Rows) :
    Except Error (List TableDef) := do
  let opsRow ← match ops.head? with
    | some row => .ok row
    | none => .error (.replicaConfig s!"publication {publication} does not exist")
  validatePublishOps publication ((List.range 4).map fun i => cell opsRow i == some "1")
  if cols.isEmpty then
    .error (.replicaConfig s!"publication {publication} does not exist or contains no tables")
  else do
    let tables ← cols.foldlM addColumn []
    let tables := pks.foldl (addText addPk) tables
    let tables := indexDefs.foldl (addText addIndex) tables
    tables.forM checkKey
    return tables

/-- `introspect`. -/
def introspect (u : Upstream) (publication : String) : Except Error (List TableDef) :=
  ofRows publication ((u.publication publication).toList.map Publication.opsRow)
    ((u.tables publication).flatMap fun pt => (pt.columns u.version).map (pt.columnRow u.version))
    ((u.tables publication).flatMap PublicationTable.pkRows)
    ((u.tables publication).flatMap (PublicationTable.indexRows u.version))

/-! ## What it builds -/

def addPks (t : TableDef) (cols : List String) : TableDef := { t with pk := t.pk ++ cols }

def addIndexes (t : TableDef) (definitions : List String) : TableDef :=
  { t with indexes := t.indexes ++ definitions }

def Attribute.colDef (a : Attribute) : ColDef :=
  ⟨a.attname, a.typeSql, a.atttypid, a.attnotnull⟩

namespace PublicationTable

/-- The columns of its primary index. -/
def pkNames (pt : PublicationTable) : List String :=
  pt.pkRows.map fun row => text row 2

def indexDefs (version : Nat) (pt : PublicationTable) : List String :=
  (pt.relation.indexes.filter (pt.replicated version)).map Index.indexdef

/-- The definition with these columns, in the loop over the columns. -/
def opened (version : Nat) (pt : PublicationTable) (columns : List ColDef) : TableDef where
  schema := pt.relation.nspname
  name := pt.relation.relname
  columns := columns
  pk := []
  replicaIdentity := pt.relation.relreplident.text
  rowFilter := if 150000 ≤ version then pt.rowfilter else none
  indexes := []

/-- The definition after that loop. -/
def bare (version : Nat) (pt : PublicationTable) : TableDef :=
  pt.opened version ((pt.columns version).map Attribute.colDef)

/-- The definition. -/
def tableDef (version : Nat) (pt : PublicationTable) : TableDef :=
  addIndexes (addPks (pt.bare version) pt.pkNames) (pt.indexDefs version)

theorem tableDef_pk (version : Nat) (pt : PublicationTable) :
    (pt.tableDef version).pk = pt.pkNames := rfl

theorem tableDef_indexes (version : Nat) (pt : PublicationTable) :
    (pt.tableDef version).indexes = pt.indexDefs version := rfl

theorem tableDef_columnNames (version : Nat) (pt : PublicationTable) :
    (pt.tableDef version).columnNames = (pt.columns version).map Attribute.attname := by
  show ((pt.columns version).map Attribute.colDef).map ColDef.name = _
  rw [List.map_map]
  rfl

theorem tableDef_replicaIdentity (version : Nat) (pt : PublicationTable) :
    (pt.tableDef version).replicaIdentity = pt.relation.relreplident.text := rfl

/-- A table without a published column has no rows, and so no definition. -/
def visible (version : Nat) (pt : PublicationTable) : Bool :=
  !(pt.columns version).isEmpty

end PublicationTable

section Columns

variable {version : Nat} {pt : PublicationTable} {tables ts : List TableDef}

theorem columnOfRow_columnRow (a : Attribute) :
    columnOfRow (pt.columnRow version a) = .ok a.colDef := by
  have hoid : get (pt.columnRow version a) 5 = .ok (toString a.atttypid.toNat) := rfl
  have hname : get (pt.columnRow version a) 2 = .ok a.attname := rfl
  have htype : get (pt.columnRow version a) 3 = .ok a.typeSql := rfl
  have hnull : get (pt.columnRow version a) 4 = .ok (intText a.attnotnull) := rfl
  unfold columnOfRow
  simp only [hoid, hname, htype, hnull, bind, Except.bind, fromStrRadix_oid, intText_beq]
  rw [UInt32.ofNat_toNat]
  rfl

theorem text_eq_nothing {r : ReplicaIdentity} : r.text = "n" ↔ r = .nothing := by
  cases r <;> decide

theorem text_eq_full {r : ReplicaIdentity} : r.text = "f" ↔ r = .full := by
  cases r <;> decide

theorem startTable_same {row : List (Option String)} {schema table : String}
    (h : (tables.getLast?).map TableDef.key = some (schema, table)) :
    startTable tables row schema table = .ok tables := by
  rw [startTable, if_pos h]

/-- A new table is started, unless it has no identity. -/
theorem startTable_new (h : (tables.getLast?).map TableDef.key ≠ some pt.key) (a : Attribute) :
    startTable tables (pt.columnRow version a) pt.relation.nspname pt.relation.relname = .ok ts ↔
      pt.relation.relreplident ≠ .nothing ∧
        ts = tables ++ [pt.opened version []] := by
  have hident : get (pt.columnRow version a) 6 = .ok pt.relation.relreplident.text := rfl
  have hkey : ¬(tables.getLast?).map TableDef.key =
      some (pt.relation.nspname, pt.relation.relname) := h
  rw [startTable, if_neg hkey, bind_eq_ok]
  simp only [hident, Except.ok.injEq, exists_eq_left', checkReplicaIdentity, text_eq_nothing]
  by_cases hnothing : pt.relation.relreplident = .nothing
  · simp [hnothing, bind, Except.bind]
  · rw [if_neg hnothing]
    constructor
    · intro hts
      exact ⟨hnothing, (Except.ok.inj hts).symm⟩
    · rintro ⟨-, rfl⟩
      rfl

theorem addColumn_columnRow (a : Attribute) :
    addColumn tables (pt.columnRow version a) = .ok ts ↔
      ∃ us, startTable tables (pt.columnRow version a) pt.relation.nspname pt.relation.relname =
          .ok us ∧
        ts = us.modifyLast fun t => { t with columns := t.columns ++ [a.colDef] } := by
  have hschema : get (pt.columnRow version a) 0 = .ok pt.relation.nspname := rfl
  have htable : get (pt.columnRow version a) 1 = .ok pt.relation.relname := rfl
  unfold addColumn
  simp only [bind_eq_ok, hschema, htable, columnOfRow_columnRow, Except.ok.injEq, exists_eq_left',
    pure, Except.pure]
  exact exists_congr fun us => and_congr_right fun _ => eq_comm

/-- The rows of the table that was started last add its columns. -/
theorem foldlM_addColumn_same (columns : List ColDef) (as : List Attribute) :
    (as.map (pt.columnRow version)).foldlM addColumn (tables ++ [pt.opened version columns]) =
      .ok (tables ++ [pt.opened version (columns ++ as.map Attribute.colDef)]) := by
  induction as generalizing columns with
  | nil => simp [pure, Except.pure]
  | cons a as ih =>
    have hlast : ((tables ++ [pt.opened version columns]).getLast?).map TableDef.key =
        some (pt.relation.nspname, pt.relation.relname) := by
      rw [List.getLast?_concat]
      rfl
    rw [List.map_cons, List.foldlM_cons, bind_eq_ok]
    refine ⟨_, (addColumn_columnRow a).2 ⟨_, startTable_same hlast, rfl⟩, ?_⟩
    have hrest := ih (columns ++ [a.colDef])
    rw [List.append_assoc] at hrest
    rw [List.modifyLast_concat]
    exact hrest

theorem addColumn_new (h : (tables.getLast?).map TableDef.key ≠ some pt.key) (a : Attribute) :
    addColumn tables (pt.columnRow version a) = .ok ts ↔ pt.relation.relreplident ≠ .nothing ∧
      ts = tables ++ [pt.opened version [a.colDef]] := by
  simp only [addColumn_columnRow, startTable_new h, and_assoc, exists_and_left, exists_eq_left,
    List.modifyLast_concat]
  rfl

/-- The rows of one table. -/
theorem foldlM_addColumn_table (h : (tables.getLast?).map TableDef.key ≠ some pt.key) :
    ((pt.columns version).map (pt.columnRow version)).foldlM addColumn tables = .ok ts ↔
      (pt.visible version = true → pt.relation.relreplident ≠ .nothing) ∧
        ts = tables ++ ([pt].filter (PublicationTable.visible version)).map
          (PublicationTable.bare version) := by
  cases hcols : pt.columns version with
  | nil => simp [PublicationTable.visible, hcols, pure, Except.pure, eq_comm]
  | cons a as =>
    have hvisible : pt.visible version = true := by simp [PublicationTable.visible, hcols]
    have hbare : pt.bare version = pt.opened version ([a.colDef] ++ as.map Attribute.colDef) := by
      rw [PublicationTable.bare, hcols]
      rfl
    rw [List.map_cons, List.foldlM_cons, bind_eq_ok, List.filter_cons_of_pos hvisible,
      List.filter_nil, List.map_singleton, hbare]
    constructor
    · rintro ⟨u, hu, hts⟩
      obtain ⟨hident, rfl⟩ := (addColumn_new h a).1 hu
      rw [foldlM_addColumn_same] at hts
      exact ⟨fun _ => hident, (Except.ok.inj hts).symm⟩
    · rintro ⟨hident, rfl⟩
      exact ⟨_, (addColumn_new h a).2 ⟨hident hvisible, rfl⟩, foldlM_addColumn_same _ as⟩

/-- **The loop over the columns** makes a definition of every table with a published column. -/
theorem foldlM_addColumn {pts : List PublicationTable}
    (hkeys : (pts.map PublicationTable.key).Nodup)
    (hlast : ∀ pt ∈ pts, (tables.getLast?).map TableDef.key ≠ some pt.key) :
    (pts.flatMap fun pt => (pt.columns version).map (pt.columnRow version)).foldlM addColumn
        tables = .ok ts ↔
      (∀ pt ∈ pts, pt.visible version = true → pt.relation.relreplident ≠ .nothing) ∧
        ts = tables ++ (pts.filter (PublicationTable.visible version)).map
          (PublicationTable.bare version) := by
  induction pts generalizing tables with
  | nil => simpa [pure, Except.pure] using eq_comm
  | cons pt pts ih =>
    rw [List.map_cons, List.nodup_cons] at hkeys
    obtain ⟨hnew, hlast⟩ := List.forall_mem_cons.1 hlast
    have hnext : ∀ q ∈ pts, ((tables ++ ([pt].filter (PublicationTable.visible version)).map
        (PublicationTable.bare version)).getLast?).map TableDef.key ≠ some q.key := by
      intro q hq
      by_cases hvisible : pt.visible version = true
      · rw [List.filter_cons_of_pos hvisible, List.filter_nil, List.map_singleton,
          List.getLast?_concat]
        intro heq
        exact hkeys.1 (List.mem_map.2 ⟨q, hq, (Option.some.inj heq).symm⟩)
      · rw [List.filter_cons_of_neg hvisible]
        simpa using hlast q hq
    rw [List.flatMap_cons, List.foldlM_append, bind_eq_ok, List.forall_mem_cons]
    constructor
    · rintro ⟨u, hu, hts⟩
      obtain ⟨hident, rfl⟩ := (foldlM_addColumn_table hnew).1 hu
      obtain ⟨hidents, rfl⟩ := (ih hkeys.2 hnext).1 hts
      refine ⟨⟨hident, hidents⟩, ?_⟩
      rw [List.append_assoc, ← List.map_append, ← List.filter_append]
      rfl
    · rintro ⟨⟨hident, hidents⟩, rfl⟩
      refine ⟨_, (foldlM_addColumn_table hnew).2 ⟨hident, rfl⟩,
        (ih hkeys.2 hnext).2 ⟨hidents, ?_⟩⟩
      rw [List.append_assoc, ← List.map_append, ← List.filter_append]
      rfl

end Columns

section Texts

variable {add : TableDef → String → TableDef}

/-- The name a row begins with. -/
def rowKey (row : List (Option String)) : String × String := (text row 0, text row 1)

/-- No two definitions have the same name, so the first one found is the only one. -/
theorem addText_eq_map {tables : List TableDef} (hkeys : (tables.map TableDef.key).Nodup)
    (row : List (Option String)) :
    addText add tables row =
      tables.map fun t => if t.key = rowKey row then add t (text row 2) else t := by
  induction tables with
  | nil => rfl
  | cons t tables ih =>
    rw [List.map_cons, List.nodup_cons] at hkeys
    unfold addText at ih ⊢
    rw [List.replaceF_cons, List.map_cons]
    by_cases ht : t.key = rowKey row
    · have hname : t.schema = text row 0 ∧ t.name = text row 1 := Prod.mk.inj ht
      have hrest : ∀ t' ∈ tables, t'.key ≠ rowKey row := by
        intro t' ht' h
        exact hkeys.1 (List.mem_map.2 ⟨t', ht', h.trans ht.symm⟩)
      simp only [if_pos hname, if_pos ht]
      congr 1
      exact (List.map_congr_left fun t' ht' => if_neg (hrest t' ht')).trans
        (List.map_id tables) |>.symm
    · have hname : ¬(t.schema = text row 0 ∧ t.name = text row 1) := fun h => ht (Prod.ext h.1 h.2)
      simp only [if_neg hname, if_neg ht, ih hkeys.2]

/-- **The loops over the primary keys and the indexes** add to each definition the texts of the
rows with its name. -/
theorem foldl_addText (hadd : ∀ t s, (add t s).key = t.key) {tables : List TableDef}
    (hkeys : (tables.map TableDef.key).Nodup) (rows : Rows) :
    rows.foldl (addText add) tables = tables.map fun t =>
      ((rows.filter fun row => decide (t.key = rowKey row)).map fun row => text row 2).foldl
        add t := by
  induction rows generalizing tables with
  | nil => simp
  | cons row rows ih =>
    have hkey : ∀ t : TableDef, (if t.key = rowKey row then add t (text row 2) else t).key =
        t.key := by
      intro t
      split_ifs with h
      · exact hadd t _
      · rfl
    rw [List.foldl_cons, addText_eq_map hkeys, ih, List.map_map]
    · refine List.map_congr_left fun t _ => ?_
      simp only [Function.comp_apply, hkey]
      by_cases h : t.key = rowKey row
      · rw [List.filter_cons_of_pos (by simpa using h), if_pos h]
        rfl
      · rw [List.filter_cons_of_neg (by simpa using h), if_neg h]
    · simpa only [List.map_map, Function.comp_def, hkey] using hkeys

theorem addPk_key (t : TableDef) (col : String) : (addPk t col).key = t.key := rfl

theorem addIndex_key (t : TableDef) (definition : String) :
    (addIndex t definition).key = t.key := rfl

theorem foldl_addPk (t : TableDef) (cols : List String) :
    cols.foldl addPk t = addPks t cols := by
  induction cols generalizing t with
  | nil => simp [addPks]
  | cons c cols ih => simp [ih, addPk, addPks]

theorem foldl_addIndex (t : TableDef) (definitions : List String) :
    definitions.foldl addIndex t = addIndexes t definitions := by
  induction definitions generalizing t with
  | nil => simp [addIndexes]
  | cons d definitions ih => simp [ih, addIndex, addIndexes]

theorem addPks_key (t : TableDef) (cols : List String) : (addPks t cols).key = t.key := rfl

/-- Among the rows of all tables, those with the name of one are its own. -/
theorem filter_flatMap_rows {pts : List PublicationTable} {rows : PublicationTable → Rows}
    (hkeys : (pts.map PublicationTable.key).Nodup)
    (hrows : ∀ pt, ∀ row ∈ rows pt, rowKey row = pt.key) {pt : PublicationTable} (hpt : pt ∈ pts) :
    (pts.flatMap rows).filter (fun row => decide (pt.key = rowKey row)) = rows pt := by
  have hown : ∀ q ∈ pts, ∀ row ∈ rows q, ∀ k, some (rowKey row) = some k → k = q.key := by
    rintro q - row hrow k hk
    rw [← Option.some.inj hk, hrows q row hrow]
  have hfilter := Runs.filter_flatMap_key hkeys hown hpt
  have hself : (rows pt).filter (fun row => decide (some (rowKey row) = some pt.key)) = rows pt := by
    refine List.filter_eq_self.2 fun row hrow => ?_
    simp [hrows pt row hrow]
  rw [hself] at hfilter
  simpa only [Option.some.injEq, eq_comm] using hfilter

theorem rowKey_pkRows (pt : PublicationTable) : ∀ row ∈ pt.pkRows, rowKey row = pt.key := by
  intro row hrow
  obtain ⟨a, -, hrow⟩ := List.mem_flatMap.1 hrow
  obtain ⟨i, -, rfl⟩ := List.mem_map.1 hrow
  rfl

theorem rowKey_indexRows (version : Nat) (pt : PublicationTable) :
    ∀ row ∈ pt.indexRows version, rowKey row = pt.key := by
  intro row hrow
  obtain ⟨i, -, rfl⟩ := List.mem_map.1 hrow
  rfl

end Texts

section Specification

variable {u : Upstream} {publication : String} {p : Publication} {tables : List TableDef}

theorem validatePublishOps_eq_ok {x : Unit} :
    validatePublishOps publication ((List.range 4).map fun i => cell p.opsRow i == some "1") =
      .ok x ↔
    p.pubinsert = true ∧ p.pubupdate = true ∧ p.pubdelete = true ∧ p.pubtruncate = true := by
  have hflags : ((List.range 4).map fun i => cell p.opsRow i == some "1") =
      [p.pubinsert, p.pubupdate, p.pubdelete, p.pubtruncate] := by
    simp [List.range, List.range.loop, cell, Publication.opsRow, intText_beq]
  rw [hflags, validatePublishOps]
  cases p.pubinsert <;> cases p.pubupdate <;> cases p.pubdelete <;> cases p.pubtruncate <;> simp

theorem forM_checkKey {x : Unit} :
    tables.forM checkKey = .ok x ↔ ∀ t ∈ tables, t.pk ≠ [] ∨ t.replicaIdentity = "f" := by
  induction tables with
  | nil => simp [pure, Except.pure]
  | cons t tables ih =>
    have hcheck : checkKey t = .ok () ↔ t.pk ≠ [] ∨ t.replicaIdentity = "f" := by
      unfold checkKey
      split_ifs with h
      · simp [h]
      · simpa [or_iff_not_imp_left] using h
    have hcons : (t :: tables).forM checkKey = checkKey t >>= fun _ => tables.forM checkKey := rfl
    rw [hcons, bind_eq_ok, List.forall_mem_cons, ← ih, ← hcheck]
    constructor
    · rintro ⟨y, hy, hrest⟩
      exact ⟨hy, hrest⟩
    · rintro ⟨hy, hrest⟩
      exact ⟨(), hy, hrest⟩

/-- The two loops that add texts make the definitions complete. -/
theorem foldl_texts (version : Nat) (pts : List PublicationTable)
    (hkeys : (pts.map PublicationTable.key).Nodup) :
    (pts.flatMap (PublicationTable.indexRows version)).foldl (addText addIndex)
      ((pts.flatMap PublicationTable.pkRows).foldl (addText addPk)
        ((pts.filter (PublicationTable.visible version)).map (PublicationTable.bare version))) =
      (pts.filter (PublicationTable.visible version)).map (PublicationTable.tableDef version) := by
  have hbare : (((pts.filter (PublicationTable.visible version)).map
      (PublicationTable.bare version)).map TableDef.key).Nodup := by
    rw [List.map_map]
    exact hkeys.sublist (List.filter_sublist.map _)
  rw [foldl_addText addPk_key hbare, foldl_addText addIndex_key, List.map_map, List.map_map]
  · refine List.map_congr_left fun pt hpt => ?_
    have hpt := List.mem_of_mem_filter hpt
    have hpk : (pts.flatMap PublicationTable.pkRows).filter
        (fun row => decide ((pt.bare version).key = rowKey row)) = pt.pkRows :=
      filter_flatMap_rows hkeys rowKey_pkRows hpt
    have hindex : (pts.flatMap (PublicationTable.indexRows version)).filter
        (fun row => decide ((pt.bare version).key = rowKey row)) = pt.indexRows version :=
      filter_flatMap_rows hkeys (rowKey_indexRows version) hpt
    have hdefs : (pt.indexRows version).map (fun row => text row 2) = pt.indexDefs version := by
      rw [PublicationTable.indexRows, List.map_map]
      rfl
    simp only [Function.comp_apply, foldl_addPk, addPks_key, hpk, hindex, hdefs, foldl_addIndex]
    rfl
  · rw [List.map_map]
    refine (congrArg List.Nodup (List.map_congr_left fun t _ => ?_)).mpr hbare
    rw [Function.comp_apply, foldl_addPk, addPks_key]

/-- **What `introspect` returns.** -/
theorem introspect_eq_ok : introspect u publication = .ok tables ↔
    ∃ p, u.publication publication = some p ∧
      (p.pubinsert = true ∧ p.pubupdate = true ∧ p.pubdelete = true ∧ p.pubtruncate = true) ∧
      (∃ pt ∈ p.tables, pt.visible u.version = true) ∧
      (∀ pt ∈ p.tables, pt.visible u.version = true → pt.relation.relreplident ≠ .nothing ∧
        (pt.pkNames ≠ [] ∨ pt.relation.relreplident = .full)) ∧
      tables = (p.tables.filter (PublicationTable.visible u.version)).map
        (PublicationTable.tableDef u.version) := by
  have hcols : ∀ pts : List PublicationTable,
      (pts.flatMap fun pt => (pt.columns u.version).map (pt.columnRow u.version)).isEmpty = false ↔
        ∃ pt ∈ pts, pt.visible u.version = true := by
    intro pts
    simp [List.isEmpty_eq_false_iff, PublicationTable.visible]
  unfold introspect Upstream.tables
  cases hp : u.publication publication with
  | none => simp [ofRows, bind, Except.bind]
  | some p =>
    have hchecked : (∀ t ∈ (p.tables.filter (PublicationTable.visible u.version)).map
        (PublicationTable.tableDef u.version), t.pk ≠ [] ∨ t.replicaIdentity = "f") ↔
        ∀ pt ∈ p.tables, pt.visible u.version = true →
          pt.pkNames ≠ [] ∨ pt.relation.relreplident = .full := by
      rw [List.forall_mem_map]
      simp only [List.mem_filter, and_imp, PublicationTable.tableDef_pk,
        PublicationTable.tableDef_replicaIdentity, text_eq_full]
    simp only [Option.toList_some, List.map_singleton, Option.elim_some, Option.some.injEq,
      exists_eq_left']
    unfold ofRows
    simp only [List.head?_cons, bind_eq_ok, Except.ok.injEq, exists_eq_left',
      validatePublishOps_eq_ok]
    constructor
    · rintro ⟨-, hops, h⟩
      split_ifs at h with hempty
      obtain ⟨ts, hts, h⟩ := bind_eq_ok.1 h
      obtain ⟨hident, rfl⟩ := (foldlM_addColumn p.keys (by simp)).1 hts
      rw [List.nil_append, foldl_texts _ _ p.keys] at h
      obtain ⟨x, hkeys, h⟩ := bind_eq_ok.1 h
      have hkeys := hchecked.1 (forM_checkKey.1 hkeys)
      exact ⟨hops, (hcols p.tables).1 (Bool.eq_false_iff.2 hempty),
        fun pt hpt hvisible => ⟨hident pt hpt hvisible, hkeys pt hpt hvisible⟩,
        (Except.ok.inj h).symm⟩
    · rintro ⟨hops, hvisible, hchecks, rfl⟩
      refine ⟨(), hops, ?_⟩
      rw [if_neg (Bool.eq_false_iff.1 ((hcols p.tables).2 hvisible)), bind_eq_ok]
      refine ⟨_, (foldlM_addColumn p.keys (by simp)).2
        ⟨fun pt hpt hv => (hchecks pt hpt hv).1, rfl⟩, ?_⟩
      rw [List.nil_append, foldl_texts _ _ p.keys, bind_eq_ok]
      exact ⟨(), forM_checkKey.2 (hchecked.2 fun pt hpt hv => (hchecks pt hpt hv).2), rfl⟩

end Specification

/-! ## The definitions and the catalogs -/

/-- The columns of the primary key and of every index whose statement is replicated are columns of
the definition. -/
def Upstream.SelfConsistent (u : Upstream) (publication : String) (t : TableDef) : Prop :=
  t.pk ⊆ t.columnNames ∧ ∀ pt ∈ u.tables publication, pt.key = t.key →
    ∀ i ∈ pt.relation.indexes, i.indexdef ∈ t.indexes → pt.relation.columnsOf i ⊆ t.columnNames

/-- No column of the primary index is generated or outside the column list, and no column of a
replicated index is generated. -/
def PublicationTable.Covered (version : Nat) (pt : PublicationTable) : Prop :=
  ∀ i ∈ pt.relation.indexes, ∀ a ∈ pt.relation.attributes, a.attnum ∈ i.indkey →
    (i.indisprimary = true →
      a.generated = false ∧ (150000 ≤ version → a.attname ∈ pt.attnames)) ∧
    (pt.replicated version i = true → a.generated = false)

instance PublicationTable.decidableCovered (version : Nat) (pt : PublicationTable) :
    Decidable (pt.Covered version) :=
  inferInstanceAs (Decidable (∀ i ∈ pt.relation.indexes, ∀ a ∈ pt.relation.attributes,
    a.attnum ∈ i.indkey → (_ → _ ∧ (_ → _)) ∧ (_ → _)))

namespace PublicationTable

variable {version : Nat} {pt : PublicationTable} {a : Attribute} {i : Index}

theorem mem_columns : a ∈ pt.columns version ↔ a ∈ pt.relation.attributes ∧
    (0 < a.attnum ∧ a.attisdropped = false) ∧
    a.generated = false ∧ (150000 ≤ version → a.attname ∈ pt.attnames) := by
  unfold columns publishedColumnsFilter
  rw [List.mem_filter]
  split_ifs with hversion
  · simp [hversion]
  · simp [hversion]

/-- Two columns of a table have different names. -/
theorem attname_mem_columnNames (ha : a ∈ pt.relation.attributes) :
    a.attname ∈ (pt.tableDef version).columnNames ↔ a ∈ pt.columns version := by
  rw [tableDef_columnNames]
  constructor
  · intro hname
    obtain ⟨b, hb, hba⟩ := List.mem_map.1 hname
    obtain rfl := List.inj_on_of_nodup_map pt.relation.attnames (mem_columns.1 hb).1 ha hba
    exact hb
  · intro hmem
    exact List.mem_map_of_mem hmem

theorem pkNames_subset_iff {names : List String} : pt.pkNames ⊆ names ↔
    ∀ i ∈ pt.relation.indexes, ∀ a ∈ pt.relation.attributes, a.attnum ∈ i.indkey →
      i.indisprimary = true → a.attname ∈ names := by
  have hmem : ∀ name, name ∈ pt.pkNames ↔ ∃ a ∈ pt.relation.attributes,
      ∃ i ∈ pt.relation.indexes, (i.indisprimary = true ∧ a.attnum ∈ i.indkey) ∧
        name = a.attname := by
    intro name
    simp only [pkNames, pkRows, List.mem_map, List.mem_flatMap, List.mem_filter,
      Bool.and_eq_true, decide_eq_true_eq]
    constructor
    · rintro ⟨row, ⟨a, ha, i, ⟨hi, hkey⟩, rfl⟩, rfl⟩
      exact ⟨a, ha, i, hi, hkey, rfl⟩
    · rintro ⟨a, ha, i, hi, hkey, rfl⟩
      exact ⟨_, ⟨a, ha, i, ⟨hi, hkey⟩, rfl⟩, rfl⟩
  constructor
  · intro hsub i hi a ha hkey hprimary
    exact hsub ((hmem _).2 ⟨a, ha, i, hi, ⟨hprimary, hkey⟩, rfl⟩)
  · rintro hall name hname
    obtain ⟨a, ha, i, hi, ⟨hprimary, hkey⟩, rfl⟩ := (hmem name).1 hname
    exact hall i hi a ha hkey hprimary

theorem columnsOf_subset_iff {names : List String} : pt.relation.columnsOf i ⊆ names ↔
    ∀ a ∈ pt.relation.attributes, a.attnum ∈ i.indkey → a.attname ∈ names := by
  constructor
  · intro hsub a ha hkey
    exact hsub (List.mem_map_of_mem (List.mem_filter.2 ⟨ha, by simpa using hkey⟩))
  · intro hall name hname
    obtain ⟨a, ha, rfl⟩ := List.mem_map.1 hname
    obtain ⟨ha, hkey⟩ := List.mem_filter.1 ha
    exact hall a ha (by simpa using hkey)

/-- The statement of an index is there exactly if the index is replicated. -/
theorem indexdef_mem_iff (hi : i ∈ pt.relation.indexes) :
    i.indexdef ∈ (pt.tableDef version).indexes ↔ pt.replicated version i = true := by
  rw [tableDef_indexes, indexDefs, List.mem_map]
  constructor
  · rintro ⟨j, hj, hji⟩
    obtain ⟨hj, hreplicated⟩ := List.mem_filter.1 hj
    obtain rfl := List.inj_on_of_nodup_map pt.relation.indexdefs hj hi hji
    exact hreplicated
  · intro hreplicated
    exact ⟨i, List.mem_filter.2 ⟨hi, hreplicated⟩, rfl⟩

/-- From version 15 on, a replicated index is over columns of the list. -/
theorem attname_mem_of_replicated (hi : i ∈ pt.relation.indexes)
    (hreplicated : pt.replicated version i = true) (ha : a ∈ pt.relation.attributes)
    (hkey : a.attnum ∈ i.indkey) (hversion : 150000 ≤ version) : a.attname ∈ pt.attnames := by
  have hpos := (pt.relation.indexed i hi a ha hkey).1
  unfold replicated at hreplicated
  obtain ⟨-, hall⟩ := Bool.and_eq_true_iff.1 hreplicated
  have hcolumn := List.all_eq_true.1 hall a ha
  simpa [unpublishedPred, hkey, hpos, hversion] using hcolumn

/-- An indexed column is there, so it is in the definition unless it is generated or left out. -/
theorem indexed_mem_iff (hi : i ∈ pt.relation.indexes) (ha : a ∈ pt.relation.attributes)
    (hkey : a.attnum ∈ i.indkey) : a.attname ∈ (pt.tableDef version).columnNames ↔
      a.generated = false ∧ (150000 ≤ version → a.attname ∈ pt.attnames) := by
  rw [attname_mem_columnNames ha, mem_columns]
  have hthere := pt.relation.indexed i hi a ha hkey
  exact ⟨fun h => h.2.2, fun h => ⟨ha, hthere, h⟩⟩

/-- The definition of one table. -/
theorem selfConsistent_iff {u : Upstream} {publication : String} {p : Publication}
    (hp : u.publication publication = some p) (hpt : pt ∈ p.tables) :
    u.SelfConsistent publication (pt.tableDef u.version) ↔ pt.Covered u.version := by
  have htables : u.tables publication = p.tables := by
    rw [Upstream.tables, hp]
    rfl
  have hself : ∀ q ∈ p.tables, q.key = (pt.tableDef u.version).key → q = pt := by
    intro q hq hkey
    exact List.inj_on_of_nodup_map p.keys hq hpt hkey
  unfold Upstream.SelfConsistent Covered
  rw [htables, tableDef_pk, pkNames_subset_iff]
  constructor
  · rintro ⟨hpk, hindexes⟩ i hi a ha hkey
    refine ⟨fun hprimary => (indexed_mem_iff hi ha hkey).1 (hpk i hi a ha hkey hprimary),
      fun hreplicated => ?_⟩
    have hsub := hindexes pt hpt rfl i hi ((indexdef_mem_iff hi).2 hreplicated)
    exact ((indexed_mem_iff hi ha hkey).1 (columnsOf_subset_iff.1 hsub a ha hkey)).1
  · intro hcovered
    refine ⟨fun i hi a ha hkey hprimary =>
      (indexed_mem_iff hi ha hkey).2 ((hcovered i hi a ha hkey).1 hprimary), ?_⟩
    intro q hq hkey i hi hdef
    obtain rfl := hself q hq hkey
    have hreplicated := (indexdef_mem_iff hi).1 hdef
    refine columnsOf_subset_iff.2 fun a ha hkey => (indexed_mem_iff hi ha hkey).2 ?_
    exact ⟨(hcovered i hi a ha hkey).2 hreplicated,
      attname_mem_of_replicated hi hreplicated ha hkey⟩

end PublicationTable

/-- **Self-consistency.** When `introspect` succeeds, its definitions are self-consistent exactly
if the indexes of the tables it found are over columns that are published and not generated, as
far as the queries on them do not check it. -/
theorem introspect_self_consistent_iff {u : Upstream} {publication : String}
    {tables : List TableDef} (h : introspect u publication = .ok tables) :
    (∀ t ∈ tables, u.SelfConsistent publication t) ↔
      ∀ pt ∈ u.tables publication, pt.visible u.version = true → pt.Covered u.version := by
  obtain ⟨p, hp, -, -, -, rfl⟩ := introspect_eq_ok.1 h
  have htables : u.tables publication = p.tables := by
    rw [Upstream.tables, hp]
    rfl
  rw [htables, List.forall_mem_map]
  constructor
  · intro hall pt hpt hvisible
    exact (PublicationTable.selfConsistent_iff hp hpt).1
      (hall pt (List.mem_filter.2 ⟨hpt, hvisible⟩))
  · intro hall pt hpt
    obtain ⟨hpt, hvisible⟩ := List.mem_filter.1 hpt
    exact (PublicationTable.selfConsistent_iff hp hpt).2 (hall pt hpt hvisible)

/-! ## What the upstream accepts -/

/-- The columns that identify a row of the table. Columns that an index only includes are none of
them. -/
def PublicationTable.identity (pt : PublicationTable) (a : Attribute) : Prop :=
  match pt.relation.relreplident with
  | .default => ∃ i ∈ pt.relation.indexes,
      i.indisprimary = true ∧ a.attnum ∈ i.indkey.take i.indnkeyatts
  | .index => ∃ i ∈ pt.relation.indexes,
      i.indisreplident = true ∧ a.attnum ∈ i.indkey.take i.indnkeyatts
  | .full => 0 < a.attnum ∧ a.attisdropped = false
  | .nothing => False

/-- The upstream accepts updates and deletes: the table has an identity, which the column list
covers. -/
def PublicationTable.Accepted (pt : PublicationTable) : Prop :=
  pt.relation.relreplident ≠ .nothing ∧
    ∀ a ∈ pt.relation.attributes, pt.identity a → a.attname ∈ pt.attnames

/-- A table that is identified by a primary key without included columns, or as a whole, has no
defect when it has no generated columns. -/
theorem PublicationTable.Accepted.covered {version : Nat} {pt : PublicationTable}
    (h : pt.Accepted)
    (hident : pt.relation.relreplident = .default ∨ pt.relation.relreplident = .full)
    (hinclude : ∀ i ∈ pt.relation.indexes, i.indisprimary = true →
      i.indkey.length ≤ i.indnkeyatts)
    (hgenerated : ∀ a ∈ pt.relation.attributes, a.generated = false) : pt.Covered version := by
  intro i hi a ha hkey
  refine ⟨fun hprimary => ⟨hgenerated a ha, fun _ => h.2 a ha ?_⟩, fun _ => hgenerated a ha⟩
  unfold identity
  rcases hident with hdefault | hfull
  · rw [hdefault]
    exact ⟨i, hi, hprimary, by rwa [List.take_of_length_le (hinclude i hi hprimary)]⟩
  · rw [hfull]
    exact pt.relation.indexed i hi a ha hkey

/-! ## A column that is only included -/

/-- `docs (id, note, secret, size)`, with a primary key on `id` that includes `secret` or not. The size
is generated, and there is an index on it and one on the note. -/
def docs (included : Bool) : Class where
  nspname := "public"
  relname := "docs"
  relreplident := .default
  attributes := [⟨"id", 1, "integer", 23, true, false, false⟩,
    ⟨"note", 2, "text", 25, false, false, false⟩, ⟨"secret", 3, "text", 25, false, false, false⟩,
    ⟨"size", 4, "integer", 23, false, true, false⟩]
  indexes := [⟨"CREATE UNIQUE INDEX docs_pkey ON public.docs USING btree (id)" ++
      (if included then " INCLUDE (secret)" else ""),
    if included then [1, 3] else [1], 1, true, true, true, false, false, false⟩,
    ⟨"CREATE INDEX docs_note ON public.docs USING btree (note)", [2], 1, false, true, true, false,
      false, false⟩,
    ⟨"CREATE INDEX docs_size ON public.docs USING btree (size)", [4], 1, false, true, true, false,
      false, false⟩]
  attnums := by decide
  attnames := by decide
  indexdefs := by cases included <;> decide
  indexed := by cases included <;> decide

/-- A publication of its first two columns. -/
def notes (included : Bool) : Upstream where
  version := 160000
  publication name := if name = "app" then some {
      pubinsert := true
      pubupdate := true
      pubdelete := true
      pubtruncate := true
      tables := [⟨docs included, ["id", "note"], none⟩]
      keys := List.nodup_singleton _ }
    else none

/-- What is made of it. The index on the size is left out. -/
def notesDef (included : Bool) : TableDef where
  schema := "public"
  name := "docs"
  columns := [⟨"id", "integer", 23, true⟩, ⟨"note", "text", 25, false⟩]
  pk := if included then ["id", "secret"] else ["id"]
  replicaIdentity := "d"
  rowFilter := none
  indexes := ["CREATE INDEX docs_note ON public.docs USING btree (note)"]

theorem introspect_notes (included : Bool) :
    introspect (notes included) "app" = .ok [notesDef included] := by
  cases included <;> decide +kernel

theorem introspect_self_consistent_notes :
    introspect (notes false) "app" = .ok [notesDef false] ∧
      ∀ t ∈ [notesDef false], (notes false).SelfConsistent "app" t := by
  refine ⟨introspect_notes false, (introspect_self_consistent_iff (introspect_notes false)).2 ?_⟩
  intro pt hpt _
  obtain rfl := List.mem_singleton.1 hpt
  decide

/-- The upstream accepts the publication, and the primary key of the definition is over a column
that it has not. -/
theorem introspect_not_self_consistent_notes :
    (∀ pt ∈ (notes true).tables "app", pt.Accepted) ∧
      introspect (notes true) "app" = .ok [notesDef true] ∧
      ¬∀ t ∈ [notesDef true], (notes true).SelfConsistent "app" t := by
  refine ⟨?_, introspect_notes true, fun hall => ?_⟩
  · intro pt hpt
    obtain rfl := List.mem_singleton.1 hpt
    refine ⟨by decide, ?_⟩
    rintro a ha ⟨i, hi, hprimary, hkey⟩
    simp only [docs, List.mem_cons, List.not_mem_nil, or_false] at hi ha
    rcases hi with rfl | rfl | rfl
    · have hfirst : a.attnum = 1 := by simpa using hkey
      rcases ha with rfl | rfl | rfl | rfl
      · decide
      all_goals cases hfirst
    all_goals cases hprimary
  · have hpk : ["id", "secret"] ⊆ ["id", "note"] :=
      (hall (notesDef true) List.mem_cons_self).1
    exact absurd hpk (by decide)

end Pglite.Replica.Introspect
