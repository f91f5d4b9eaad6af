import Pglite.Replica.Expectation
import Pglite.Replica.SchemaDeltaProof
import Pglite.Replica.SchemaSession

/-!
# Buffered changes and the local schema

A session stays within its local schema (`Fits`) as long as every catalog that is introspected for
a DDL signal still has what the buffered statements name, what is published at the signal's
position, and the columns of the relations that are not announced anew (`Covers`). One that is
ahead of the stream may lack any of this, and even the catalog of the position lacks a column that
is dropped after a row of the same transaction (`buffered_change_loses_column`).

* `onRow_good`, `onCommit_good`, `onRelation_good`, `resyncSchema_good`: what each message keeps.
* `buffered_changes_fit`: what a run of them keeps.
* `onMessage_of_handle`: the session is the one of the replica.
-/

namespace Pglite.Replica

open Text Runs

/-! ## What a statement names -/

theorem exists_of_forall₂ {α β : Type} {R : α → β → Prop} {xs : List α} {ys : List β}
    (h : List.Forall₂ R xs ys) {y : β} (hy : y ∈ ys) : ∃ x ∈ xs, R x y := by
  induction h with
  | nil => cases hy
  | cons hx _ ih =>
    rcases List.mem_cons.1 hy with rfl | hy
    · exact ⟨_, List.mem_cons_self, hx⟩
    · obtain ⟨x, hmem, hx⟩ := ih hy
      exact ⟨x, List.mem_cons_of_mem _ hmem, hx⟩

namespace Rel

variable {rel : Rel}

theorem mem_columnNames_of_mem_zip {tuple : TupleData} {p : RelColumn × CellValue}
    (h : p ∈ rel.columns.zip tuple) : p.1.name ∈ rel.columnNames := by
  obtain ⟨col, cell⟩ := p
  exact List.mem_map_of_mem (List.of_mem_zip h).1

theorem insertSql_names {new : TupleData} {stmt : String} {change : RowChange}
    (h : rel.insertSql new = .ok (stmt, change)) :
    change.table = rel.key ∧ change.columns ⊆ rel.columnNames := by
  obtain ⟨-, -, h⟩ := bind_eq_ok.1 h
  obtain ⟨cells, hcells, h⟩ := bind_eq_ok.1 h
  obtain ⟨-, rfl⟩ := Prod.mk.inj (Except.ok.inj h)
  refine ⟨rfl, ?_⟩
  intro name hname
  simp only [RowChange.columns, List.mem_map] at hname
  obtain ⟨-, ⟨cell, hcell, rfl⟩, rfl⟩ := hname
  obtain ⟨p, hp, hok⟩ := exists_of_forall₂ (mapM_eq_ok hcells) hcell
  have hname := mem_columnNames_of_mem_zip hp
  dsimp only at hok
  split at hok
  · cases hok
  · cases hok
    exact hname

theorem keyCond_name {p : RelColumn × CellValue} {cond : String × String × Option String}
    (h : rel.keyCond p = .ok cond) : cond.2.1 = p.1.name := by
  obtain ⟨col, cell⟩ := p
  cases cell with
  | unchangedToast => cases h
  | null =>
    cases h
    rfl
  | text s =>
    cases h
    rfl

theorem whereClause_names {key old new : Option TupleData} {sql : String} {pairs : ColPairs}
    (h : rel.whereClause key old new = .ok (sql, pairs)) :
    pairs.map Prod.fst ⊆ rel.columnNames := by
  intro name hname
  obtain ⟨⟨n, v⟩, hpair, rfl⟩ := List.mem_map.1 hname
  unfold whereClause at h
  split at h
  · next old =>
    obtain ⟨-, -, h⟩ := bind_eq_ok.1 h
    dsimp only at h
    split at h
    · cases h
    · obtain ⟨-, rfl⟩ := Prod.mk.inj (Except.ok.inj h)
      obtain ⟨p, hp, heq⟩ := List.mem_map.1 hpair
      cases heq
      exact mem_columnNames_of_mem_zip (List.mem_filter.1 hp).1
  · dsimp only at h
    split at h
    · next source =>
      obtain ⟨source, -, h⟩ := bind_eq_ok.1 h
      obtain ⟨-, -, h⟩ := bind_eq_ok.1 h
      obtain ⟨conds, hconds, h⟩ := bind_eq_ok.1 h
      split at h
      · cases h
      obtain ⟨-, rfl⟩ := Prod.mk.inj (Except.ok.inj h)
      obtain ⟨cond, hcond, heq⟩ := List.mem_map.1 hpair
      obtain ⟨p, hp, hok⟩ := exists_of_forall₂ (mapM_eq_ok hconds) hcond
      have hcol := keyCond_name hok
      rw [heq] at hcol
      dsimp only at hcol ⊢
      rw [hcol]
      exact mem_columnNames_of_mem_zip (List.mem_filter.1 hp).1
    · obtain ⟨source, herror, -⟩ := bind_eq_ok.1 h
      cases herror

theorem updateSql_names {key old : Option TupleData} {new : TupleData} {stmt : String}
    {change : RowChange} (h : rel.updateSql key old new = .ok (stmt, change)) :
    change.table = rel.key ∧ change.columns ⊆ rel.columnNames := by
  obtain ⟨-, -, h⟩ := bind_eq_ok.1 h
  obtain ⟨⟨whereSql, keyPairs⟩, hwhere, h⟩ := bind_eq_ok.1 h
  dsimp only at h
  split at h
  · cases h
  · obtain ⟨-, rfl⟩ := Prod.mk.inj (Except.ok.inj h)
    refine ⟨rfl, ?_⟩
    rw [RowChange.columns, List.append_subset]
    refine ⟨whereClause_names hwhere, ?_⟩
    intro name hname
    obtain ⟨pair, hpair, rfl⟩ := List.mem_map.1 hname
    obtain ⟨p, hp, rfl⟩ := List.mem_map.1 hpair
    exact mem_columnNames_of_mem_zip (List.mem_filter.1 hp).1

theorem deleteSql_names {key old : Option TupleData} {stmt : String} {change : RowChange}
    (h : rel.deleteSql key old = .ok (stmt, change)) :
    change.table = rel.key ∧ change.columns ⊆ rel.columnNames := by
  obtain ⟨⟨whereSql, keyPairs⟩, hwhere, h⟩ := bind_eq_ok.1 h
  obtain ⟨-, rfl⟩ := Prod.mk.inj (Except.ok.inj h)
  exact ⟨rfl, whereClause_names hwhere⟩

end Rel

/-- The changes of a row message are about its relations, and their statements name columns of
these only. -/
theorem Renders.names {known : UInt32 → Option Rel} {m : PgOutputMsg} {stmt : String}
    {changes : List RowChange} (h : Renders known m stmt changes) {change : RowChange}
    (hchange : change ∈ changes) :
    ∃ relId ∈ m.relIds, ∃ rel, known relId = some rel ∧ change.table = rel.key ∧
      change.columns ⊆ rel.columnNames := by
  cases h with
  | insert hrel hsql =>
    obtain rfl := List.mem_singleton.1 hchange
    exact ⟨_, List.mem_singleton.2 rfl, _, hrel, Rel.insertSql_names hsql⟩
  | update hrel hsql =>
    obtain rfl := List.mem_singleton.1 hchange
    exact ⟨_, List.mem_singleton.2 rfl, _, hrel, Rel.updateSql_names hsql⟩
  | delete hrel hsql =>
    obtain rfl := List.mem_singleton.1 hchange
    exact ⟨_, List.mem_singleton.2 rfl, _, hrel, Rel.deleteSql_names hsql⟩
  | truncate hrels =>
    obtain ⟨rel, hrel, rfl⟩ := List.mem_map.1 hchange
    obtain ⟨relId, hmem, hknown⟩ := exists_of_forall₂ hrels hrel
    exact ⟨relId, hmem, rel, hknown, rfl, List.nil_subset _⟩

/-! ## Old columns -/

theorem Expected.lookup_foldl_values {m : Expected} (h : m.Keyed) (key : TableKey) :
    (m.values.foldl addLine ∅).lookup key = m.lookup key := by
  apply Option.ext
  intro line
  constructor
  · intro hlookup
    have hkey := keyed_foldl m.values keyed_empty key line hlookup
    rcases lookup_foldl hlookup with hmem | hempty
    · obtain ⟨key', hkey'⟩ := mem_values.1 hmem
      obtain rfl : key' = key := Option.some.inj ((h key' line hkey').symm.trans hkey)
      exact hkey'
    · exact absurd hempty (by simp)
  · intro hlookup
    refine lookup_foldl_of_mem (h key line hlookup) ?_ (.inl (mem_values.2 ⟨key, hlookup⟩))
    intro l hl hkey
    obtain ⟨key', hkey'⟩ := mem_values.1 hl
    obtain rfl : key' = key := Option.some.inj ((h key' l hkey').symm.trans hkey)
    exact Option.some.inj (hkey'.symm.trans hlookup)

namespace Backfill

/-- The old columns that `apply_schema_delta` is given are those of the expected lines. -/
theorem lookup_oldColumns {m : Expected} (h : m.Keyed) (key : TableKey) :
    (oldColumns m.values).lookup key = (m.lookup key).map lineColumns := by
  rw [← Expected.lookup_foldl_values h, oldColumns]
  generalize m.values = ls
  -- The two maps are filled side by side.
  have hside : ∀ (old : OldColumns) (m : Expected),
      (∀ key, old.lookup key = (m.lookup key).map lineColumns) →
      (ls.foldl OldColumns.addLine old).lookup key =
        ((ls.foldl Expected.addLine m).lookup key).map lineColumns := by
    induction ls with
    | nil =>
      intro old m hold
      exact hold key
    | cons line ls ih =>
      intro old m hold
      refine ih _ _ fun key' => ?_
      rw [Expected.lookup_addLine, OldColumns.addLine]
      cases hline : lineKey line with
      | none => simpa using hold key'
      | some k =>
        by_cases hk : k = key'
        · subst hk
          simp
        · simp [hk, AList.lookup_insert_ne (Ne.symm hk), hold key']
  refine hside ∅ ∅ fun key => ?_
  simp

/-! ## Tables and columns that are there -/

section Has

variable {l l' : LocalSchema} {k : TableKey} {names : List String}

theorem LocalSchema.Has.mono {names' : List String} (h : l.Has k names) (hsub : names' ⊆ names) :
    l.Has k names' := by
  obtain ⟨L, hL, hnames⟩ := h
  exact ⟨L, hL, List.Subset.trans hsub hnames⟩

theorem columnNames_altered (L : LocalTable) (t : TableDef) (oldCols : List (String × Nat))
    (n : String) : n ∈ (L.altered t oldCols).columnNames ↔
      (n ∈ L.columnNames ∨ n ∈ (addedColumns t oldCols).map ColDef.name) ∧
        n ∉ goneColumns t oldCols := by
  rw [← columnNames_addColumns, LocalTable.altered, foldl_dropColumn]
  simp only [LocalTable.columnNames, List.mem_map, List.mem_filter, decide_eq_true_iff]
  constructor
  · rintro ⟨c, ⟨hc, hstays⟩, rfl⟩
    exact ⟨⟨c, hc, rfl⟩, hstays⟩
  · rintro ⟨⟨c, hc, rfl⟩, hstays⟩
    exact ⟨c, ⟨hc, hstays⟩, rfl⟩

variable {seen : Catalog} {lines : List String}

/-- What is in the catalog and was in the database is there still. -/
theorem LocalSchema.Has.applySchemaDelta (h : l.Has k names)
    (happly : applySchemaDelta seen.types seen.tables lines l = .ok l')
    (hseen : seen.Has k names) : l'.Has k names := by
  obtain ⟨t, ht, rfl, hcolumns⟩ := hseen
  obtain ⟨L, hL, hnames⟩ := h
  obtain ⟨e, hafter, hfirst⟩ :=
    applySchemaDelta_table seen.types_nodup seen.tables_nodup happly ht
  obtain rfl := hfirst (.inl (by rw [hL]; rfl))
  unfold tableAfter at hafter
  rw [hL] at hafter
  cases hold : (oldColumns lines).lookup t.key with
  | none =>
    rw [hold] at hafter
    exact ⟨t.full, hafter, by rwa [columnNames_full]⟩
  | some oldCols =>
    rw [hold] at hafter
    refine ⟨L.altered t oldCols, hafter, ?_⟩
    intro n hn
    rw [columnNames_altered]
    exact ⟨.inl (hnames hn), not_mem_goneColumns (hcolumns hn) oldCols⟩

/-- A table of the catalog is there afterwards, when the old columns were. -/
theorem has_of_applySchemaDelta
    (happly : applySchemaDelta seen.types seen.tables lines l = .ok l') {t : TableDef}
    (ht : t ∈ seen.tables) (hold : ∀ oldCols, (oldColumns lines).lookup t.key = some oldCols →
      l.Has t.key (oldCols.map Prod.fst)) : l'.Has t.key t.columnNames := by
  obtain ⟨e, hafter, hfirst⟩ :=
    applySchemaDelta_table seen.types_nodup seen.tables_nodup happly ht
  unfold tableAfter at hafter
  cases hlookup : (oldColumns lines).lookup t.key with
  | none =>
    rw [hlookup] at hafter
    exact ⟨t.full, hafter, (columnNames_full t).symm ▸ List.Subset.refl _⟩
  | some oldCols =>
    obtain ⟨L, hL, hnames⟩ := hold oldCols hlookup
    obtain rfl := hfirst (.inl (by rw [hL]; rfl))
    rw [hlookup, hL] at hafter
    refine ⟨L.altered t oldCols, hafter, ?_⟩
    intro n hn
    rw [columnNames_altered]
    refine ⟨?_, not_mem_goneColumns hn oldCols⟩
    by_cases hnew : n ∈ oldCols.map Prod.fst
    · exact .inl (hnames hnew)
    · obtain ⟨c, hc, rfl⟩ := List.mem_map.1 hn
      refine .inr (List.mem_map_of_mem ?_)
      rw [addedColumns, List.mem_filter, decide_eq_true_iff]
      exact ⟨hc, hnew⟩

/-- `ADD COLUMN` takes nothing away. -/
theorem LocalSchema.Has.addColumn {t : TableKey} {name typeSql : String} (h : l.Has k names)
    (hexec : l.exec (.alter t (.addColumn name typeSql)) = some l') : l'.Has k names := by
  simp only [LocalSchema.exec] at hexec
  split at hexec
  · next L hL =>
    cases hexec
    obtain ⟨M, hM, hnames⟩ := h
    by_cases hk : k = t
    · subst hk
      obtain rfl : L = M := by simpa [hL] using hM
      refine ⟨L.addColumn name typeSql, Function.update_self .., fun n hn => ?_⟩
      exact (columnNames_addColumn L name typeSql n).2 (.inl (hnames hn))
    · exact ⟨M, (Function.update_of_ne hk _ l).trans hM, hnames⟩
  · cases hexec

theorem has_addColumn {t : TableKey} {name typeSql : String}
    (hexec : l.exec (.alter t (.addColumn name typeSql)) = some l') : l'.Has t [name] := by
  simp only [LocalSchema.exec] at hexec
  split at hexec
  · next L hL =>
    cases hexec
    have hname := (columnNames_addColumn L name typeSql name).2 (.inr rfl)
    exact ⟨L.addColumn name typeSql, Function.update_self ..,
      List.cons_subset.2 ⟨hname, List.nil_subset _⟩⟩
  · cases hexec

theorem LocalSchema.Has.append {names' : List String} (h : l.Has k names) (h' : l.Has k names') :
    l.Has k (names ++ names') := by
  obtain ⟨L, hL, hnames⟩ := h
  obtain ⟨M, hM, hnames'⟩ := h'
  obtain rfl : L = M := by simpa [hL] using hM
  exact ⟨L, hL, List.append_subset.2 ⟨hnames, hnames'⟩⟩

variable {added : List RelColumn} {typeSql : RelColumn → String} {t : TableKey}

theorem LocalSchema.Has.addColumns (h : l.Has k names)
    (hrun : run LocalSchema.exec l
      (added.map fun c => .alter t (.addColumn c.name (typeSql c))) = some l') :
    l'.Has k names := by
  induction added generalizing l with
  | nil =>
    obtain rfl : l = l' := by simpa using hrun
    exact h
  | cons c added ih =>
    obtain ⟨u, hu, hl'⟩ := run_cons_eq_some.1 hrun
    exact ih (h.addColumn hu) hl'

theorem has_addColumns (h : l.Has t names)
    (hrun : run LocalSchema.exec l
      (added.map fun c => .alter t (.addColumn c.name (typeSql c))) = some l') :
    l'.Has t (names ++ added.map RelColumn.name) := by
  induction added generalizing l names with
  | nil =>
    obtain rfl : l = l' := by simpa using hrun
    simpa using h
  | cons c added ih =>
    obtain ⟨u, hu, hl'⟩ := run_cons_eq_some.1 hrun
    have hmore := ih ((h.addColumn hu).append (has_addColumn hu)) hl'
    rwa [List.append_assoc] at hmore

theorem LocalSchema.Has.exists_addColumns (h : l.Has t names) (added : List RelColumn)
    (typeSql : RelColumn → String) : ∃ l', run LocalSchema.exec l
      (added.map fun c => .alter t (.addColumn c.name (typeSql c))) = some l' := by
  induction added generalizing l with
  | nil => exact ⟨l, rfl⟩
  | cons c added ih =>
    obtain ⟨L, hL, -⟩ := id h
    have hexec : l.exec (.alter t (.addColumn c.name (typeSql c))) =
        some (Function.update l t (some (.table (L.addColumn c.name (typeSql c))))) := by
      simp [LocalSchema.exec, LocalTable.exec, hL]
    obtain ⟨l', hl'⟩ := ih (h.addColumn hexec)
    exact ⟨l', run_cons_eq_some.2 ⟨_, hexec, hl'⟩⟩

end Has

/-! ## Lines that can be read -/

/-- The line of a table in a fingerprint. -/
def TableDef.line (t : TableDef) : String :=
  fingerprintLine t.schema t.name (t.columns.map fun c => (c.name, c.typeOid))

/-- Every table of the catalog is filed in the fingerprint under its own name, with its own
columns. -/
structure Catalog.Legible (c : Catalog) : Prop where
  lines_eq : Text.lines c.fingerprint = c.tables.map TableDef.line
  key : ∀ t ∈ c.tables, lineKey t.line = some t.key
  columns : ∀ t ∈ c.tables, (lineColumns t.line).map Prod.fst = t.columnNames

/-- So it is when no name holds a separator or a line break. -/
theorem Catalog.legible_of_plain {c : Catalog}
    (hplain : ∀ t ∈ c.tables, PlainName t.schema ∧ PlainName t.name ∧
      ∀ name ∈ t.columnNames, PlainName name) : c.Legible where
  lines_eq := by
    have hlines : (c.tables.map TableDef.recorded).map (fun t =>
        fingerprintLine t.schema t.name (t.columns.map fun c => (c.name, c.typeOid))) =
          c.tables.map TableDef.line := by
      simp [TableDef.recorded, TableDef.line, Function.comp_def]
    unfold Catalog.fingerprint Replica.fingerprint
    rw [hlines]
    refine lines_intercalate fun l hl => ?_
    obtain ⟨t, ht, rfl⟩ := List.mem_map.1 hl
    obtain ⟨hschema, hname, hcolumns⟩ := hplain t ht
    refine unbroken_fingerprintLine hschema hname fun p hp => ?_
    obtain ⟨col, hcol, rfl⟩ := List.mem_map.1 hp
    exact hcolumns col.name (List.mem_map_of_mem hcol)
  key t ht := lineKey_fingerprintLine (hplain t ht).1.no_bar (hplain t ht).2.1.no_bar _
  columns t ht := by
    obtain ⟨hschema, hname, hcolumns⟩ := hplain t ht
    rw [TableDef.line, lineColumns_fingerprintLine hschema.no_bar hname.no_bar]
    · simp [TableDef.columnNames, Function.comp_def]
    · intro p hp
      obtain ⟨col, hcol, rfl⟩ := List.mem_map.1 hp
      exact (hcolumns col.name (List.mem_map_of_mem hcol)).no_bar

namespace Catalog.Legible

variable {seen : Catalog} {k : TableKey}

/-- A line that is filed under a name is the one of the table with this name. -/
theorem exists_table (h : seen.Legible) {line : String} (hline : line ∈ Text.lines seen.fingerprint)
    (hkey : lineKey line = some k) :
    ∃ t ∈ seen.tables, t.key = k ∧ (lineColumns line).map Prod.fst = t.columnNames := by
  rw [h.lines_eq] at hline
  obtain ⟨t, ht, rfl⟩ := List.mem_map.1 hline
  exact ⟨t, ht, Option.some.inj ((h.key t ht).symm.trans hkey), h.columns t ht⟩

theorem line_mem (h : seen.Legible) {t : TableDef} (ht : t ∈ seen.tables) :
    t.line ∈ Text.lines seen.fingerprint := by
  rw [h.lines_eq]
  exact List.mem_map_of_mem ht

theorem lookup_eq (h : seen.Legible) {t : TableDef} (ht : t ∈ seen.tables) :
    (Expected.ofFingerprint seen.fingerprint).lookup t.key = some t.line := by
  have hsame : ∀ line ∈ Text.lines seen.fingerprint, lineKey line = some t.key →
      line = t.line := by
    intro line hline hkey
    rw [h.lines_eq] at hline
    obtain ⟨t', ht', rfl⟩ := List.mem_map.1 hline
    have hkeys := Option.some.inj ((h.key t' ht').symm.trans hkey)
    rw [List.inj_on_of_nodup_map seen.tables_nodup ht' ht hkeys]
  exact Expected.lookup_foldl_of_mem (h.key t ht) hsame (.inl (h.line_mem ht))

theorem isSome_lookup (h : seen.Legible) (hk : k ∈ seen.tables.map TableDef.key) :
    ((Expected.ofFingerprint seen.fingerprint).lookup k).isSome := by
  obtain ⟨t, ht, rfl⟩ := List.mem_map.1 hk
  rw [h.lookup_eq ht]
  rfl

end Catalog.Legible

end Backfill

/-- The line of a relation is filed under its name, with its columns. -/
structure Rel.Legible (rel : Rel) : Prop where
  key : lineKey rel.line = some rel.key
  columns : (lineColumns rel.line).map Prod.fst = rel.columnNames

/-- So it is when no name holds a separator or a line break. -/
theorem Rel.legible_of_plain {rel : Rel} (hschema : PlainName rel.schema)
    (hname : PlainName rel.name) (hcolumns : ∀ name ∈ rel.columnNames, PlainName name) :
    rel.Legible where
  key := lineKey_fingerprintLine hschema.no_bar hname.no_bar _
  columns := by
    rw [Rel.line, lineColumns_fingerprintLine hschema.no_bar hname.no_bar]
    · simp [Rel.recorded, Rel.columnNames, Function.comp_def]
    · intro p hp
      obtain ⟨col, hcol, rfl⟩ := List.mem_map.1 hp
      exact (hcolumns col.name (List.mem_map_of_mem hcol)).no_bar

/-- A change that is classified as additive leaves the names of the old columns in front. -/
theorem classifySchemaChange_additive {want : String} {new : List (String × UInt32)} {n : Nat}
    (h : classifySchemaChange want new = .additive n) :
    (lineColumns want).map Prod.fst = (new.take n).map Prod.fst := by
  obtain ⟨rfl, hfirst⟩ := classifySchemaChange_eq_additive_iff.1 h
  rw [List.prefix_iff_eq_take, ← List.map_take] at hfirst
  rw [hfirst]
  simp [listedColumn, Function.comp_def]

open Backfill

namespace SchemaSession

variable {formatType : UInt32 → Int32 → String} {u : Upstream} {x x' : Session}

/-! ## What is kept -/

/-- The buffered statements name what is in the local schema, and so does every row change that
may come without a new `Relation` message. -/
structure Fits (u : Upstream) (x : Session) : Prop where
  buffered : ∀ buf, x.stream.txn = some buf →
    ∀ change ∈ buf.changes, x.schema.Has change.table change.columns
  announced : ∀ relId, u.announced relId = true →
    ∃ rel, x.stream.rels relId = some rel ∧ x.schema.Has rel.key rel.columnNames

/-- The expected lines list what is in the local schema, every published table has one, and the
relations are the upstream's. -/
structure Follows (u : Upstream) (x : Session) : Prop where
  keyed : x.stream.expected.Keyed
  listed : ∀ k line, x.stream.expected.lookup k = some line →
    x.schema.Has k ((lineColumns line).map Prod.fst)
  published : ∀ relId rel, u.tables.lookup relId = some rel →
    (x.stream.expected.lookup rel.key).isSome
  agrees : ∀ relId, u.announced relId = true → x.stream.rels relId = u.tables.lookup relId

/-- The session goes on with `P`, or has ended without missing anything. -/
def Result.Holds (P : Session → Prop) : Result → Prop
  | .next x => P x
  | .rejected _ => False
  | .ended => True

/-- The invariant. -/
def Good (u : Upstream) (x : Session) : Prop :=
  Fits u x ∧ Follows u x

/-! ## Messages -/

theorem onRow_good {m : PgOutputMsg} (h : Good u x) (hrow : m.isRow = true)
    (hknown : ∀ relId ∈ m.relIds, u.announced relId = true) : (x.onRow m).Holds (Good u) := by
  obtain ⟨hfits, hfollows⟩ := h
  have hrels : ¬ ∃ relId ∈ m.relIds, x.stream.rels relId = none := by
    rintro ⟨relId, hmem, hnone⟩
    obtain ⟨rel, hrel, -⟩ := hfits.announced relId (hknown relId hmem)
    rw [hrel] at hnone
    cases hnone
  rw [Session.onRow, if_neg hrels]
  cases hok : x.stream.onRow m with
  | error e => trivial
  | ok s =>
    obtain ⟨buf, stmt, changes, htxn, hrenders, rfl⟩ := Stream.onRow_eq_ok hrow hok
    refine ⟨⟨?_, hfits.announced⟩,
      ⟨hfollows.keyed, hfollows.listed, hfollows.published, hfollows.agrees⟩⟩
    intro buf' hbuf' change hchange
    obtain rfl : buf.push stmt changes = buf' := Option.some.inj hbuf'
    rcases List.mem_append.1 hchange with hold | hnew
    · exact hfits.buffered buf htxn change hold
    · obtain ⟨relId, hmem, rel, hrel, htable, hcolumns⟩ := hrenders.names hnew
      obtain ⟨rel', hrel', hhas⟩ := hfits.announced relId (hknown relId hmem)
      obtain rfl : rel = rel' := Option.some.inj (hrel.symm.trans hrel')
      rw [htable]
      exact hhas.mono hcolumns

theorem onCommit_good {endLsn : Lsn} (h : Good u x) : (x.onCommit endLsn).Holds (Good u) := by
  obtain ⟨hfits, hfollows⟩ := h
  have hdone : ∀ w, Good u { x with stream := { x.stream with txn := none }, watermark := w } := by
    intro w
    refine ⟨⟨?_, hfits.announced⟩,
      ⟨hfollows.keyed, hfollows.listed, hfollows.published, hfollows.agrees⟩⟩
    intro buf hbuf
    cases hbuf
  unfold Session.onCommit
  cases htxn : x.stream.txn with
  | none => trivial
  | some buf =>
    dsimp only
    split
    · exact hdone x.watermark
    · split
      · next change hfind =>
        have hmissing := List.find?_some hfind
        have hhas := hfits.buffered buf htxn change (List.mem_of_find?_eq_some hfind)
        simp [hhas] at hmissing
      · exact hdone endLsn

/-- A relation that has become known, over the schema `l` and the lines `m` made for it. -/
theorem Good.addRel {relId : UInt32} {rel : Rel} {l : LocalSchema} {m : Expected} (h : Good u x)
    (hrel : u.tables.lookup relId = some rel)
    (hmono : ∀ k names, x.schema.Has k names → l.Has k names)
    (hnew : l.Has rel.key rel.columnNames) (hkeyed : m.Keyed)
    (hlines : ∀ k line, m.lookup k = some line → l.Has k ((lineColumns line).map Prod.fst))
    (hkeys : ∀ k, (x.stream.expected.lookup k).isSome → (m.lookup k).isSome) :
    Good (u.announce relId)
      { x with stream := { x.stream.addRel relId rel with expected := m }, schema := l } := by
  obtain ⟨hfits, hfollows⟩ := h
  refine ⟨⟨?_, ?_⟩, ⟨hkeyed, hlines, ?_, ?_⟩⟩
  · intro buf hbuf change hchange
    exact hmono _ _ (hfits.buffered buf hbuf change hchange)
  · intro relId' hannounced
    by_cases heq : relId' = relId
    · subst heq
      exact ⟨rel, Function.update_self .., hnew⟩
    · have hold : u.announced relId' = true :=
        (Function.update_of_ne heq _ _).symm.trans hannounced
      obtain ⟨rel', hrel', hhas⟩ := hfits.announced relId' hold
      exact ⟨rel', (Function.update_of_ne heq _ _).trans hrel', hmono _ _ hhas⟩
  · intro relId' rel' hrel'
    exact hkeys _ (hfollows.published relId' rel' hrel')
  · intro relId' hannounced
    by_cases heq : relId' = relId
    · subst heq
      exact (Function.update_self ..).trans hrel.symm
    · have hold : u.announced relId' = true :=
        (Function.update_of_ne heq _ _).symm.trans hannounced
      exact (Function.update_of_ne heq _ _).trans (hfollows.agrees relId' hold)

/-- A relation that the upstream publishes is accepted, or the session ends. -/
theorem onRelation_good {relId : UInt32} {rel : Rel} (h : Good u x)
    (hrel : u.tables.lookup relId = some rel) (hlegible : rel.Legible) :
    (x.onRelation formatType relId rel).Holds (Good (u.announce relId)) := by
  have hfollows := h.2
  obtain ⟨want, hwant⟩ := Option.isSome_iff_exists.1 (hfollows.published relId rel hrel)
  have hlisted := hfollows.listed rel.key want hwant
  unfold Session.onRelation
  rw [hwant]
  dsimp only
  split
  · next heq =>
    subst heq
    rw [hlegible.columns] at hlisted
    exact h.addRel hrel (fun _ _ hhas => hhas) hlisted hfollows.keyed hfollows.listed
      fun _ hk => hk
  · cases hclass : classifySchemaChange want rel.recorded with
    | incompatible reason => trivial
    | additive n =>
      dsimp only
      obtain ⟨l, hl⟩ := hlisted.exists_addColumns (rel.columns.drop n)
        fun c => formatType c.typeOid c.typeModifier
      rw [Session.applyAddedColumns, hl]
      -- The old columns and the added ones are all of them.
      have hcolumns : (lineColumns want).map Prod.fst ++ (rel.columns.drop n).map RelColumn.name =
          rel.columnNames := by
        rw [classifySchemaChange_additive hclass, Rel.recorded, ← List.map_take, List.map_map,
          Rel.columnNames]
        conv_rhs => rw [← List.take_append_drop n rel.columns, List.map_append]
        rfl
      have hnew := has_addColumns hlisted hl
      rw [hcolumns] at hnew
      have hmono : ∀ k names, x.schema.Has k names → l.Has k names :=
        fun k names hhas => hhas.addColumns hl
      refine h.addRel hrel hmono hnew (hfollows.keyed.insert hlegible.key) ?_ ?_
      · intro k line hline
        by_cases hk : k = rel.key
        · subst hk
          rw [AList.lookup_insert] at hline
          rw [← Option.some.inj hline, hlegible.columns]
          exact hnew
        · rw [AList.lookup_insert_ne hk] at hline
          exact hmono _ _ (hfollows.listed k line hline)
      · intro k hk
        by_cases heq : k = rel.key
        · subst heq
          rw [AList.lookup_insert]
          rfl
        · rwa [AList.lookup_insert_ne heq]

/-! ## Schema changes -/

/-- What the catalog must have that is introspected for a signal: a fingerprint that can be read,
every table and column that a buffered statement names, every published table, and every column of
those that are not announced anew. -/
structure Covers (seen : Backfill.Catalog) (u : Upstream) (x : Session) : Prop where
  legible : seen.Legible
  buffered : ∀ buf, x.stream.txn = some buf →
    ∀ change ∈ buf.changes, seen.Has change.table change.columns
  published : ∀ relId rel, u.tables.lookup relId = some rel → rel.key ∈ seen.tables.map TableDef.key
  announced : ∀ relId rel, u.announced relId = true → u.tables.lookup relId = some rel →
    seen.Has rel.key rel.columnNames

theorem forall_lookup {tables : Published} {P : UInt32 → Rel → Prop} :
    (∀ relId rel, tables.lookup relId = some rel → P relId rel) ↔
      ∀ p ∈ tables.entries, P p.1 p.2 := by
  constructor
  · intro h p hp
    exact h p.1 p.2 (AList.mem_lookup_iff.2 hp)
  · intro h relId rel hrel
    exact h ⟨relId, rel⟩ (AList.mem_lookup_iff.1 hrel)

/-- What `resync_schema` leads to, with the lines `m` and the relations `rels` that it keeps. -/
theorem Good.resync {seen : Backfill.Catalog} {tables : Published} {forgets : UInt32 → Bool}
    {l : LocalSchema} {m : Expected} {rels : UInt32 → Option Rel} (h : Good u x)
    (hcovers : Covers seen (u.change tables forgets) x)
    (happly : applySchemaDelta seen.types seen.tables x.stream.expected.values x.schema = .ok l)
    (hkeyed : m.Keyed) (hlines : ∀ k line, m.lookup k = some line → line ∈ lines seen.fingerprint)
    (hkeys : ∀ k ∈ seen.tables.map TableDef.key, (m.lookup k).isSome)
    (hrels : ∀ relId rel, x.stream.rels relId = some rel → rel.key ∈ seen.tables.map TableDef.key →
      rels relId = some rel) :
    Good (u.change tables forgets)
      { x with stream := { x.stream with expected := m, rels := rels }, schema := l } := by
  obtain ⟨hfits, hfollows⟩ := h
  have hold : ∀ k oldCols, (oldColumns x.stream.expected.values).lookup k = some oldCols →
      x.schema.Has k (oldCols.map Prod.fst) := by
    intro k oldCols hcols
    rw [lookup_oldColumns hfollows.keyed] at hcols
    obtain ⟨line, hline, rfl⟩ := Option.map_eq_some_iff.1 hcols
    exact hfollows.listed k line hline
  have hkept : ∀ k names, x.schema.Has k names → seen.Has k names → l.Has k names :=
    fun k names hhas hseen => hhas.applySchemaDelta happly hseen
  -- A relation that stays announced is the same, known, and in the catalog.
  have hannounced : ∀ relId, (u.change tables forgets).announced relId = true →
      ∃ rel, rels relId = some rel ∧ tables.lookup relId = some rel ∧
        l.Has rel.key rel.columnNames := by
    intro relId hnow
    have hwas : u.announced relId = true ∧ tables.lookup relId = u.tables.lookup relId := by
      simp only [Upstream.change, Bool.and_eq_true, decide_eq_true_iff] at hnow
      exact hnow.1
    obtain ⟨rel, hrel, hhas⟩ := hfits.announced relId hwas.1
    have htables : tables.lookup relId = some rel := by
      rw [hwas.2, ← hfollows.agrees relId hwas.1, hrel]
    have hseen := hcovers.announced relId rel hnow htables
    obtain ⟨t, ht, hkey, -⟩ := id hseen
    exact ⟨rel, hrels relId rel hrel (List.mem_map.2 ⟨t, ht, hkey⟩), htables, hkept _ _ hhas hseen⟩
  refine ⟨⟨?_, ?_⟩, ⟨hkeyed, ?_, ?_, ?_⟩⟩
  · intro buf hbuf change hchange
    exact hkept _ _ (hfits.buffered buf hbuf change hchange)
      (hcovers.buffered buf hbuf change hchange)
  · intro relId hnow
    obtain ⟨rel, hrel, -, hhas⟩ := hannounced relId hnow
    exact ⟨rel, hrel, hhas⟩
  · intro k line hline
    obtain ⟨t, ht, rfl, hcolumns⟩ :=
      hcovers.legible.exists_table (hlines k line hline) (hkeyed k line hline)
    rw [hcolumns]
    exact has_of_applySchemaDelta happly ht (hold t.key)
  · intro relId rel hrel
    exact hkeys _ (hcovers.published relId rel hrel)
  · intro relId hnow
    obtain ⟨rel, hrel, htables, -⟩ := hannounced relId hnow
    exact hrel.trans htables.symm

theorem resyncSchema_good {seen : Backfill.Catalog} {tables : Published}
    {forgets : UInt32 → Bool} (h : Good u x) (hcovers : Covers seen (u.change tables forgets) x) :
    (x.resyncSchema seen).Holds (Good (u.change tables forgets)) := by
  have hlegible := hcovers.legible
  unfold Session.resyncSchema
  cases happly : applySchemaDelta seen.types seen.tables x.stream.expected.values x.schema with
  | error e => trivial
  | ok l =>
    dsimp only
    split
    · next hsame =>
      have hmem : ∀ line, line ∈ lines seen.fingerprint ↔ line ∈ x.stream.expected.values := by
        intro line
        rw [← mem_sorted, hsame, mem_sorted]
      refine h.resync hcovers happly h.2.keyed ?_ ?_ fun _ _ hrel _ => hrel
      · intro k line hline
        exact (hmem line).2 (Expected.mem_values.2 ⟨k, hline⟩)
      · intro k hk
        obtain ⟨t, ht, rfl⟩ := List.mem_map.1 hk
        obtain ⟨k, hline⟩ := Expected.mem_values.1 ((hmem (TableDef.line t)).1 (hlegible.line_mem ht))
        have hkeys := (h.2.keyed k (TableDef.line t) hline).symm.trans (hlegible.key t ht)
        rw [← Option.some.inj hkeys, hline]
        rfl
    · refine h.resync hcovers happly (Expected.keyed_ofFingerprint _) ?_ ?_ ?_
      · intro k line hline
        rcases Expected.lookup_foldl hline with hmem | hempty
        · exact hmem
        · exact absurd hempty (by simp)
      · intro k hk
        exact hlegible.isSome_lookup hk
      · intro relId rel hrel hk
        rw [hrel, Option.filter_some, if_pos (hlegible.isSome_lookup hk)]

/-! ## Runs -/

/-- What each event must be like. The relations can be told apart by their lines, and the catalog
that is introspected for a signal still has what is buffered or announced. -/
def Steady (σ : State) : Event → Prop
  | .relation relId _ => ∀ rel, σ.upstream.tables.lookup relId = some rel → rel.Legible
  | .ddl tables forgets seen =>
    match σ.result with
    | .next x => Covers seen (σ.upstream.change tables forgets) x
    | _ => True
  | _ => True

instance decidableLegible (c : Backfill.Catalog) : Decidable c.Legible :=
  decidable_of_iff (Text.lines c.fingerprint = c.tables.map TableDef.line ∧
      (∀ t ∈ c.tables, lineKey t.line = some t.key) ∧
      ∀ t ∈ c.tables, (lineColumns t.line).map Prod.fst = t.columnNames)
    ⟨fun ⟨h, h', h''⟩ => ⟨h, h', h''⟩, fun ⟨h, h', h''⟩ => ⟨h, h', h''⟩⟩

instance decidableRelLegible (rel : Rel) : Decidable rel.Legible :=
  decidable_of_iff (lineKey rel.line = some rel.key ∧
      (lineColumns rel.line).map Prod.fst = rel.columnNames)
    ⟨fun ⟨h, h'⟩ => ⟨h, h'⟩, fun ⟨h, h'⟩ => ⟨h, h'⟩⟩

instance Covers.decidable (seen : Backfill.Catalog) (u : Upstream) (x : Session) :
    Decidable (Covers seen u x) :=
  decidable_of_iff (seen.Legible ∧
      (∀ buf ∈ x.stream.txn, ∀ change ∈ buf.changes, seen.Has change.table change.columns) ∧
      (∀ p ∈ u.tables.entries, p.2.key ∈ seen.tables.map TableDef.key) ∧
      ∀ p ∈ u.tables.entries, u.announced p.1 = true → seen.Has p.2.key p.2.columnNames) <| by
    constructor
    · rintro ⟨hlegible, hbuffered, hpublished, hannounced⟩
      refine ⟨hlegible, hbuffered, forall_lookup.2 hpublished, ?_⟩
      intro relId rel hnow hrel
      exact hannounced ⟨relId, rel⟩ (AList.mem_lookup_iff.1 hrel) hnow
    · rintro ⟨hlegible, hbuffered, hpublished, hannounced⟩
      refine ⟨hlegible, hbuffered, forall_lookup.1 hpublished, ?_⟩
      intro p hp hnow
      exact hannounced p.1 p.2 hnow (AList.mem_lookup_iff.2 hp)

instance Steady.decidable : ∀ σ e, Decidable (Steady σ e)
  | σ, .relation relId _ =>
    decidable_of_iff (∀ rel ∈ σ.upstream.tables.lookup relId, rel.Legible) Iff.rfl
  | ⟨u, .next x⟩, .ddl tables forgets seen =>
    inferInstanceAs (Decidable (Covers seen (u.change tables forgets) x))
  | ⟨_, .rejected _⟩, .ddl _ _ _ => .isTrue trivial
  | ⟨_, .ended⟩, .ddl _ _ _ => .isTrue trivial
  | _, .begin _ _ _ => .isTrue trivial
  | _, .row _ => .isTrue trivial
  | _, .commit _ _ _ => .isTrue trivial
  | _, .other _ => .isTrue trivial

/-- The session is fine, or has ended without missing a table, a column or a relation. -/
def State.Fits (σ : State) : Prop :=
  σ.result.Holds (SchemaSession.Fits σ.upstream)

/-- A session that begins, with the lines of a catalog. -/
def State.start (tables : Published) (c : Backfill.Catalog) (l : LocalSchema) (watermark : Lsn) :
    State where
  upstream := ⟨tables, fun _ => false⟩
  result := .next ⟨⟨.ofFingerprint c.fingerprint, fun _ => none, none⟩, l, watermark⟩

theorem Result.Holds.mono {P Q : Session → Prop} {r : Result} (h : r.Holds P)
    (hPQ : ∀ x, P x → Q x) : r.Holds Q := by
  cases r with
  | next x => exact hPQ x h
  | rejected what => exact h
  | ended => trivial

theorem handle_row {m : PgOutputMsg} (hrow : m.isRow = true) (seen : Backfill.Catalog) :
    x.handle formatType seen m = x.onRow m := by
  cases m with
  | insert relId new => rfl
  | update relId key old new => rfl
  | delete relId key old => rfl
  | truncate relIds => rfl
  | _ => exact absurd hrow Bool.false_ne_true

theorem handle_idle {m : PgOutputMsg} (hidle : isIdle m = true) (seen : Backfill.Catalog) :
    x.handle formatType seen m = .next x := by
  cases m with
  | message msgPrefix content =>
    rw [isIdle, decide_eq_true_iff] at hidle
    exact if_neg hidle
  | other => rfl
  | _ => exact absurd hidle Bool.false_ne_true

theorem step_good {σ σ' : State} {e : Event} (h : σ.result.Holds (Good σ.upstream))
    (hsteady : Steady σ e) (hstep : step formatType σ e = some σ') :
    σ'.result.Holds (Good σ'.upstream) := by
  obtain ⟨u, r⟩ := σ
  cases r with
  | rejected what => cases hstep
  | ended => cases hstep
  | next x =>
    have hfits := h.1
    have hfollows := h.2
    cases e with
    | begin finalLsn commitTs xid =>
      simp only [step, Option.ite_none_left_eq_some, Option.some.injEq] at hstep
      obtain ⟨-, rfl⟩ := hstep
      refine ⟨⟨?_, hfits.announced⟩,
        ⟨hfollows.keyed, hfollows.listed, hfollows.published, hfollows.agrees⟩⟩
      intro buf hbuf change hchange
      cases hbuf
      cases hchange
    | relation relId replicaIdentity =>
      simp only [step] at hstep
      cases hrel : u.tables.lookup relId with
      | none => simp [hrel] at hstep
      | some rel =>
        simp only [hrel, Option.ite_none_right_eq_some, Option.some.injEq] at hstep
        obtain ⟨-, rfl⟩ := hstep
        exact onRelation_good h hrel (hsteady rel hrel)
    | row m =>
      simp only [step, Option.ite_none_right_eq_some, Option.some.injEq] at hstep
      obtain ⟨⟨-, hrow, hknown⟩, rfl⟩ := hstep
      dsimp only
      rw [handle_row hrow]
      exact onRow_good h hrow hknown
    | ddl tables forgets seen =>
      simp only [step, Option.ite_none_right_eq_some, Option.some.injEq] at hstep
      obtain ⟨-, rfl⟩ := hstep
      exact resyncSchema_good h hsteady
    | commit commitLsn endLsn commitTs =>
      simp only [step, Option.ite_none_right_eq_some, Option.some.injEq] at hstep
      obtain ⟨-, rfl⟩ := hstep
      exact onCommit_good h
    | other m =>
      simp only [step, Option.ite_none_right_eq_some, Option.some.injEq] at hstep
      obtain ⟨hidle, rfl⟩ := hstep
      dsimp only
      rw [handle_idle hidle]
      exact h

section Start

variable {tables : Published} {c : Backfill.Catalog} {l : LocalSchema} {watermark : Lsn}

theorem start_good (legible : c.Legible)
    (mirrored : ∀ t ∈ c.tables, l.Has t.key t.columnNames)
    (published : ∀ relId rel, tables.lookup relId = some rel →
      rel.key ∈ c.tables.map TableDef.key) :
    (State.start tables c l watermark).result.Holds
      (Good (State.start tables c l watermark).upstream) := by
  refine ⟨⟨?_, ?_⟩, ⟨Expected.keyed_ofFingerprint _, ?_, ?_, ?_⟩⟩
  · intro buf hbuf
    cases hbuf
  · intro relId hannounced
    cases hannounced
  · intro k line hline
    have hkey := Expected.keyed_ofFingerprint c.fingerprint k line hline
    rcases Expected.lookup_foldl hline with hmem | hempty
    · obtain ⟨t, ht, rfl, hcolumns⟩ := legible.exists_table hmem hkey
      rw [hcolumns]
      exact mirrored t ht
    · exact absurd hempty (by simp)
  · intro relId rel hrel
    exact legible.isSome_lookup (published relId rel hrel)
  · intro relId hannounced
    cases hannounced

/-- **Buffered changes fit.** A session begins with a local schema that has the tables and columns
of its lines. In every state of a steady run the buffered statements name what is there, and so
does every row change that may come without a new `Relation` message, and the session has not ended
for a missing table, column or relation. -/
theorem buffered_changes_fit {es : List Event} {σ : State} (legible : c.Legible)
    (mirrored : ∀ t ∈ c.tables, l.Has t.key t.columnNames)
    (published : ∀ relId rel, tables.lookup relId = some rel →
      rel.key ∈ c.tables.map TableDef.key)
    (steady : Guarded (step formatType) Steady (.start tables c l watermark) es)
    (hrun : run (step formatType) (.start tables c l watermark) es = some σ) : σ.Fits :=
  (run_invariant (I := fun σ : State => σ.result.Holds (Good σ.upstream))
    (fun _ _ _ h hok hstep => step_good h hok hstep)
    (start_good legible mirrored published) steady hrun).mono fun _ h => h.1

end Start

/-- A replica that `bootstrap_schema` has made has the tables and columns of the catalog. -/
theorem mirrored_of_bootstrapSchema {c : Backfill.Catalog} {l : LocalSchema}
    (h : bootstrapSchema c.types c.tables .empty = some l) :
    ∀ t ∈ c.tables, l.Has t.key t.columnNames := by
  intro t ht
  refine ⟨t.full, (built_of_bootstrapSchema h).table t ht, ?_⟩
  rw [columnNames_full]
  exact List.Subset.refl _

/-! ## The replica

A session goes on with a message exactly like the replica whose local database and upstream answer
what the session's schema and catalog say. -/

/-- What the replica is answered. -/
def answersOf (seen : Backfill.Catalog) : Answers :=
  ⟨.ok (), .ok (seen.tables.map TableDef.recorded), .done, .ok ()⟩

section World

variable {ω : World} {seen : Backfill.Catalog}

theorem stream_onRelation {relId : UInt32} {ns name : String} {columns : List RelColumn}
    (h : x.onRelation formatType relId ⟨ns, name, columns⟩ = .next x') :
    (ω.onRelation x.stream (answersOf seen) relId ns name columns).phase.stream? =
      some x'.stream := by
  unfold Session.onRelation at h
  unfold World.onRelation
  cases hwant : x.stream.expected.lookup (ns, name) with
  | none =>
    rw [Rel.key, hwant] at h
    cases h
  | some want =>
    rw [Rel.key, hwant] at h
    dsimp only at h ⊢
    by_cases hline : want = Rel.line ⟨ns, name, columns⟩
    · have hsame : want = fingerprintLine ns name (columns.map fun c => (c.name, c.typeOid)) :=
        hline
      rw [if_pos hline] at h
      rw [if_pos hsame]
      cases h
      rfl
    · have hother : want ≠ fingerprintLine ns name (columns.map fun c => (c.name, c.typeOid)) :=
        hline
      rw [if_neg hline] at h
      rw [if_neg hother]
      rw [Rel.recorded] at h
      cases hclass : classifySchemaChange want (columns.map fun c => (c.name, c.typeOid)) with
      | incompatible reason =>
        rw [hclass] at h
        cases h
      | additive n =>
        have hadded : World.applyAddedColumns (columns.drop n) (answersOf seen) = .ok () := by
          unfold World.applyAddedColumns
          split <;> rfl
        rw [hclass] at h
        dsimp only at h ⊢
        rw [hadded]
        cases hrun : x.applyAddedColumns formatType (ns, name) (columns.drop n) with
        | none =>
          rw [hrun] at h
          cases h
        | some l =>
          rw [hrun] at h
          cases h
          rfl

theorem stream_onCommit {commitLsn endLsn : Lsn} {commitTs : Int64}
    (h : x.onCommit endLsn = .next x') :
    (ω.onCommit x.stream commitLsn endLsn commitTs).phase.stream? = some x'.stream := by
  unfold Session.onCommit at h
  unfold World.onCommit
  cases htxn : x.stream.txn with
  | none =>
    rw [htxn] at h
    cases h
  | some buf =>
    rw [htxn] at h
    dsimp only at h ⊢
    have hstream : x'.stream = { x.stream with txn := none } := by
      split at h
      · cases h
        rfl
      · split at h
        · cases h
        · cases h
          rfl
    rw [hstream]
    split
    · rfl
    · split <;> rfl

theorem stream_onSignal (h : x.resyncSchema seen = .next x') :
    (ω.onSignal x.stream (answersOf seen) ddlSignalPrefix).phase.stream? = some x'.stream := by
  unfold Session.resyncSchema at h
  unfold World.onSignal World.resyncSchema
  rw [if_pos rfl]
  cases happly : applySchemaDelta seen.types seen.tables x.stream.expected.values x.schema with
  | error e =>
    rw [happly] at h
    cases h
  | ok l =>
    rw [happly] at h
    dsimp only [answersOf] at h ⊢
    by_cases hsame : sorted (lines seen.fingerprint) = sorted x.stream.expected.values
    · have hlines : sorted (lines (fingerprint (seen.tables.map TableDef.recorded))) =
          sorted x.stream.expected.values := hsame
      rw [if_pos hsame] at h
      rw [if_pos hlines]
      cases h
      rfl
    · have hlines : sorted (lines (fingerprint (seen.tables.map TableDef.recorded))) ≠
          sorted x.stream.expected.values := hsame
      rw [if_neg hsame] at h
      rw [if_neg hlines]
      cases h
      rfl

theorem onRow_eq_next {m : PgOutputMsg} (h : x.onRow m = .next x') :
    x.stream.onRow m = .ok x'.stream := by
  unfold Session.onRow at h
  split at h
  · cases h
  · cases hok : x.stream.onRow m with
    | error e =>
      rw [hok] at h
      cases h
    | ok s =>
      rw [hok] at h
      cases h
      rfl

theorem onMessage_of_handle {m : PgOutputMsg} (h : x.handle formatType seen m = .next x') :
    (ω.onMessage x.stream (answersOf seen) m).phase.stream? = some x'.stream := by
  have hrow : m.isRow = true → x.onRow m = .next x' →
      (ω.onMessage x.stream (answersOf seen) m).phase.stream? = some x'.stream := by
    intro hisRow hnext
    rw [onMessage_row ω x.stream (answersOf seen) hisRow, onRow_eq_next hnext]
    rfl
  cases m with
  | begin finalLsn commitTs xid =>
    cases h
    rfl
  | relation relId ns name replicaIdentity columns =>
    have hrelation : x.onRelation formatType relId ⟨ns, name, columns⟩ = .next x' := h
    show (ω.onRelation x.stream (answersOf seen) relId ns name columns).phase.stream? = _
    exact stream_onRelation hrelation
  | commit commitLsn endLsn commitTs =>
    have hcommit : x.onCommit endLsn = .next x' := h
    show (ω.onCommit x.stream commitLsn endLsn commitTs).phase.stream? = _
    exact stream_onCommit hcommit
  | message msgPrefix content =>
    have hmessage : (if msgPrefix = ddlSignalPrefix then x.resyncSchema seen else .next x) =
        .next x' := h
    show (ω.onSignal x.stream (answersOf seen) msgPrefix).phase.stream? = _
    by_cases hsignal : msgPrefix = ddlSignalPrefix
    · rw [if_pos hsignal] at hmessage
      rw [hsignal]
      exact stream_onSignal hmessage
    · rw [if_neg hsignal] at hmessage
      cases hmessage
      rw [World.onSignal, if_neg hsignal]
      rfl
  | other =>
    cases h
    rfl
  | insert relId new => exact hrow rfl h
  | update relId key old new => exact hrow rfl h
  | delete relId key old => exact hrow rfl h
  | truncate relIds => exact hrow rfl h

end World

/-! ## A table that changes -/

/-- The columns of `todos`, as a catalog has them. -/
def todosColumns : List ColDef :=
  [⟨"id", "integer", 23, true⟩, ⟨"note", "text", 25, false⟩, ⟨"due", "text", 25, false⟩]

theorem noTypes_nodup : (([] : List TypeDef).map TypeDef.key).Nodup := List.nodup_nil

/-- `todos` with the first `n` of its columns. -/
def todosCatalog (n : Nat) : Backfill.Catalog :=
  ⟨[], [⟨"public", "todos", todosColumns.take n, ["id"], "d", none, []⟩], noTypes_nodup,
    List.nodup_singleton _⟩

/-- The same as a relation. -/
def todosRel (n : Nat) : Published :=
  AList.singleton 1 ⟨"public", "todos",
    (todosColumns.take n).map fun c => ⟨if c.name = "id" then 1 else 0, c.name, c.typeOid, -1⟩⟩

/-- A column is added between two rows of a transaction. -/
def addingColumn : List Event :=
  [.begin 0 0 7, .relation 1 0x64, .row (.insert 1 [.text "1", .text "a"]),
    .ddl (todosRel 3) (fun _ => false) (todosCatalog 3), .relation 1 0x64,
    .row (.insert 1 [.text "2", .text "b", .text "c"]), .commit 16 24 0]

theorem buffered_changes_fit_adding : ∃ l σ,
    bootstrapSchema (todosCatalog 2).types (todosCatalog 2).tables .empty = some l ∧
    run (step fun _ _ => "text") (.start (todosRel 2) (todosCatalog 2) l 0) addingColumn = some σ ∧
    σ.Fits := by
  have hrun : ((bootstrapSchema (todosCatalog 2).types (todosCatalog 2).tables .empty).bind
      fun l => (run (step fun _ _ => "text") (.start (todosRel 2) (todosCatalog 2) l 0)
        addingColumn).map fun σ => decide (Guarded (step fun _ _ => "text") Steady
          (.start (todosRel 2) (todosCatalog 2) l 0) addingColumn)) = some true := by
    decide +kernel
  obtain ⟨l, hl, hrun⟩ := Option.bind_eq_some_iff.1 hrun
  obtain ⟨σ, hσ, hsteady⟩ := Option.map_eq_some_iff.1 hrun
  have hpublished : ∀ relId rel, (todosRel 2).lookup relId = some rel →
      rel.key ∈ (todosCatalog 2).tables.map TableDef.key :=
    forall_lookup.2 (by decide)
  exact ⟨l, σ, hl, hσ, buffered_changes_fit (by decide +kernel) (mirrored_of_bootstrapSchema hl)
    hpublished (of_decide_eq_true hsteady) hσ⟩

/-- A column is dropped after a row of the same transaction. -/
def droppingColumn : List Event :=
  [.begin 0 0 7, .relation 1 0x64, .row (.insert 1 [.text "1", .text "a"]),
    .ddl (todosRel 1) (fun _ => false) (todosCatalog 1), .commit 16 24 0]

/-- The row waits with a value for the dropped column, and its transaction is rejected. -/
theorem buffered_change_loses_column :
    ¬ ∀ (tables : Published) (c : Backfill.Catalog) (l : LocalSchema) (es : List Event) (σ : State),
      c.Legible → bootstrapSchema c.types c.tables .empty = some l →
      (∀ relId rel, tables.lookup relId = some rel → rel.key ∈ c.tables.map TableDef.key) →
      run (step fun _ _ => "text") (.start tables c l 0) es = some σ → σ.Fits := by
  intro h
  have hrun : ((bootstrapSchema (todosCatalog 2).types (todosCatalog 2).tables .empty).bind
      fun l => (run (step fun _ _ => "text") (.start (todosRel 2) (todosCatalog 2) l 0)
        droppingColumn).map fun σ =>
          match σ.result with
          | .rejected what => some what
          | _ => none) = some (some (.table ("public", "todos"))) := by
    decide +kernel
  obtain ⟨l, hl, hrun⟩ := Option.bind_eq_some_iff.1 hrun
  obtain ⟨σ, hσ, hrejected⟩ := Option.map_eq_some_iff.1 hrun
  have hpublished : ∀ relId rel, (todosRel 2).lookup relId = some rel →
      rel.key ∈ (todosCatalog 2).tables.map TableDef.key :=
    forall_lookup.2 (by decide)
  have hfits := h (todosRel 2) (todosCatalog 2) l droppingColumn σ (by decide +kernel) hl
    hpublished hσ
  unfold State.Fits at hfits
  cases hresult : σ.result with
  | next x => simp [hresult] at hrejected
  | ended => simp [hresult] at hrejected
  | rejected what =>
    rw [hresult] at hfits
    exact hfits

end SchemaSession

end Pglite.Replica
