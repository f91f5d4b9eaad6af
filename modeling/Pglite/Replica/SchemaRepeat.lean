import Pglite.Replica.SchemaDatabase

/-!
# Repeating a schema change on a database

The question of `SchemaRetry` with all that the server looks at. A first attempt of `apply_schema_delta`
executes some of its statements, and the next one starts again from the same old lines. Whether it
comes through depends on what is dropped before each statement. A policy keeps its columns until
one of its tables is dropped, and an index keeps its name until its table or one of its columns is.
The tables that are no longer published go first. The new tables follow in the order of the catalog:
one that no old line lists is dropped and made anew, the others are altered.

A statement that is refused on what an attempt in one go has come to is refused by every attempt.
An interrupted attempt adds two cases: a type or an index that it leaves behind has the name of a
table that the next attempt wants to drop.

**Result** (`apply_schema_delta_repeatable_iff`). Every repetition comes to the end of an attempt in
one go, and keeps the rows, exactly when the catalog fits (`Retryable`).
-/

namespace Pglite.Replica.Backfill

open Runs Records

variable {read : DdlReader}

/-! ## When a catalog fits -/

/-- A catalog of the upstream, where an index has a name of its own among the tables and composite
types of the schema. -/
structure PgCatalog (read : DdlReader) extends UpstreamCatalog where
  columns_nodup : ∀ t ∈ tables, t.columnNames.Nodup
  indexes_unique : ∀ t ∈ tables, ∀ i ∈ t.indexes, ∀ u ∈ tables, ∀ j ∈ u.indexes,
    (t.schema, read.indexName i) = (u.schema, read.indexName j) → t.key = u.key ∧ i = j
  index_ne_table : ∀ t ∈ tables, ∀ i ∈ t.indexes, ∀ u ∈ tables,
    (t.schema, read.indexName i) ≠ u.key
  index_ne_composite : ∀ t ∈ tables, ∀ i ∈ t.indexes, ∀ ty ∈ types, ty.isComposite = true →
    (t.schema, read.indexName i) ≠ ty.key

/-- The table is dropped before the table after `pre` comes up: it is no longer published, or it is
a new one among `pre`. -/
def DroppedBefore (c : UpstreamCatalog) (lines : List String) (pre : List TableDef)
    (d : TableKey) : Prop :=
  (d ∈ oldColumns lines ∧ d ∉ c.tables.map TableDef.key) ∨
    ∃ t ∈ pre, t.key = d ∧ d ∉ oldColumns lines

/-- The index goes before the table after `pre` comes up: with its table, or with a column. -/
def IndexGone (c : UpstreamCatalog) (lines : List String) (pre : List TableDef)
    (x : TableIndex) : Prop :=
  DroppedBefore c lines pre x.1 ∨ ∃ t ∈ pre, t.key = x.1 ∧
    ∃ oldCols ∈ (oldColumns lines).lookup x.1, ∃ name ∈ goneColumns t oldCols, name ∈ x.2.columns

/-- A table that no old line lists is made: the texts are known, and its name and those of its
indexes are free when it comes up. -/
structure FitsNew (c : UpstreamCatalog) (lines : List String) (db : LocalDatabase read)
    (pre : List TableDef) (t : TableDef) : Prop where
  known : read.knows (createTableSql t) = true
  free : ∀ x ∈ db.indexes t.key, IndexGone c lines pre x
  known_index : ∀ i ∈ t.indexes, read.knows i.sql = true
  /-- No table of the old lines has the name of the index, whether it is dropped or not. -/
  index_not_old : ∀ i ∈ t.indexes, (t.schema, read.indexName i) ∉ oldColumns lines
  index_not_relation : ∀ i ∈ t.indexes, ¬db.schema.HasRelation (t.schema, read.indexName i)
  index_free : ∀ i ∈ t.indexes, ∀ x ∈ db.indexes (t.schema, read.indexName i),
    x.1 = t.key ∨ IndexGone c lines pre x

/-- A table of the old lines is altered: the type of a new column is known and has `NULL` where there
are rows, and a policy that uses a column that is dropped goes before. -/
structure FitsOld (c : UpstreamCatalog) (lines : List String) (db : LocalDatabase read)
    (pre : List TableDef) (t : TableDef) (oldCols : List (String × Nat)) : Prop where
  added : ∀ col ∈ addedColumns t oldCols, ¬db.schema.Has t.key [col.name] →
    read.knows ((TableDdl.addColumn col.name col.typeSql).sql t.key) = true ∧
      (read.refusesNull col.typeSql = true → db.rows t.key = [])
  gone : ∀ name ∈ goneColumns t oldCols, db.schema.Has t.key [name] → ∀ p ∈ db.policies,
    (t.key, name) ∈ p.columns → ∃ d ∈ p.tables, DroppedBefore c lines pre d

/-- The catalog fits. -/
structure Retryable (c : UpstreamCatalog) (lines : List String) (db : LocalDatabase read) :
    Prop where
  names : FitsNames c lines db.schema
  types : ∀ ty ∈ c.types, db.schema ty.key = none →
    read.knows ty.createSql = true ∧ (ty.isComposite = true → db.indexes ty.key = none)
  newTables : ∀ pre t post, c.tables = pre ++ t :: post → t.key ∉ oldColumns lines →
    FitsNew c lines db pre t
  oldTables : ∀ pre t post, c.tables = pre ++ t :: post →
    ∀ oldCols ∈ (oldColumns lines).lookup t.key, FitsOld c lines db pre t oldCols

/-- There is one end that every attempt comes to, in one go (the interruption is then before the
first statement) or from where an earlier attempt was interrupted. The rows of a table that was
published before have lost the cells of the columns that are gone, and no more. -/
def Repeatable (c : UpstreamCatalog) (lines : List String) (db : LocalDatabase read) : Prop :=
  ∃ r : LocalDatabase read,
    (∀ t ∈ c.tables, ∀ oldCols ∈ (oldColumns lines).lookup t.key,
      r.rows t.key = (db.rows t.key).map (clear (goneColumns t oldCols))) ∧
    ∀ drops drops', DropOrder c lines drops → DropOrder c lines drops' →
      ∀ ps u, ps <+: callStmts c lines drops db.schema → run DdlServer.exec db ps = some u →
        applySchemaDeltaIn drops' c.types c.tables lines u = .ok r

/-! ## The statements that are issued -/

section Issued

variable {c : UpstreamCatalog} {lines : List String} {drops : List TableKey} {l : LocalSchema}
  {pre post : List TableDef} {t : TableDef} {x : TableIndex} {stmt : Ddl}

/-- The statement is one that is issued up to the table after `pre`. -/
def Ddl.Issued (c : UpstreamCatalog) (lines : List String) (pre : List TableDef) : Ddl → Prop
  | .createSchema _ => True
  | .dropType _ => False
  | .createType ty => ty ∈ c.types
  | .dropTable d => DroppedBefore c lines pre d
  | .createTable t => t ∈ pre ∧ t.key ∉ oldColumns lines
  | .alter d (.createIndex i) => ∃ t ∈ pre, t.key = d ∧ d ∉ oldColumns lines ∧ i ∈ t.indexes
  | .alter d (.addColumn name typeSql) => ∃ t ∈ pre, t.key = d ∧
      ∃ oldCols ∈ (oldColumns lines).lookup d,
        ∃ col ∈ addedColumns t oldCols, col.name = name ∧ col.typeSql = typeSql
  | .alter d (.dropColumn name) => ∃ t ∈ pre, t.key = d ∧
      ∃ oldCols ∈ (oldColumns lines).lookup d, name ∈ goneColumns t oldCols

/-- The statements up to the table after `pre`. -/
def beforeStmts (c : UpstreamCatalog) (lines : List String) (drops : List TableKey)
    (l : LocalSchema) (pre : List TableDef) : List Ddl :=
  typeStmts l c.types ++ drops.map .dropTable ++ pre.flatMap (tableStmts (oldColumns lines))

theorem callStmts_split (htables : c.tables = pre ++ t :: post) : callStmts c lines drops l =
    beforeStmts c lines drops l pre ++
      (tableStmts (oldColumns lines) t ++ post.flatMap (tableStmts (oldColumns lines))) := by
  rw [callStmts, htables, beforeStmts, List.flatMap_append, List.flatMap_cons]
  simp only [List.append_assoc]

theorem mem_typeStmts (h : stmt ∈ typeStmts l c.types) :
    (∃ schema, stmt = .createSchema schema) ∨
      ∃ ty ∈ c.types, l ty.key = none ∧ stmt = .createType ty := by
  obtain ⟨ty, hty, hstmt⟩ := List.mem_flatMap.1 h
  split_ifs at hstmt with hsome
  · cases hstmt
  · rcases List.mem_append.1 hstmt with hschema | hcreate
    · unfold schemaDdl at hschema
      split_ifs at hschema
      · cases hschema
      · exact .inl ⟨_, List.mem_singleton.1 hschema⟩
    · exact .inr ⟨ty, hty, Option.not_isSome_iff_eq_none.1 hsome, List.mem_singleton.1 hcreate⟩

theorem mem_tableDdl (h : stmt ∈ tableDdl t) : (∃ schema, stmt = .createSchema schema) ∨
    stmt = .dropTable t.key ∨ stmt = .createTable t ∨
      ∃ i ∈ t.indexes, stmt = .alter t.key (.createIndex i) := by
  simp only [tableDdl, List.mem_append, List.mem_cons, List.not_mem_nil, or_false,
    List.mem_map] at h
  rcases h with (hschema | rfl | rfl) | ⟨i, hi, rfl⟩
  · unfold schemaDdl at hschema
    split_ifs at hschema
    · cases hschema
    · exact .inl ⟨_, List.mem_singleton.1 hschema⟩
  · exact .inr (.inl rfl)
  · exact .inr (.inr (.inl rfl))
  · exact .inr (.inr (.inr ⟨i, hi, rfl⟩))

theorem mem_alterStmts {oldCols : List (String × Nat)} {a : TableDdl} :
    a ∈ alterStmts t oldCols ↔
      (∃ col ∈ addedColumns t oldCols, a = .addColumn col.name col.typeSql) ∨
        ∃ name ∈ goneColumns t oldCols, a = .dropColumn name := by
  simp only [alterStmts, List.mem_append, List.mem_map, eq_comm]

theorem issued_tableStmts (ht : t ∈ pre) (h : stmt ∈ tableStmts (oldColumns lines) t) :
    stmt.Issued c lines pre := by
  unfold tableStmts at h
  cases hold : (oldColumns lines).lookup t.key with
  | none =>
    rw [hold] at h
    have hnew := AList.lookup_eq_none.1 hold
    rcases mem_tableDdl h with ⟨schema, rfl⟩ | rfl | rfl | ⟨i, hi, rfl⟩
    · trivial
    · exact .inr ⟨t, ht, rfl, hnew⟩
    · exact ⟨ht, hnew⟩
    · exact ⟨t, ht, rfl, hnew, hi⟩
  | some oldCols =>
    rw [hold] at h
    obtain ⟨a, ha, rfl⟩ := List.mem_map.1 h
    rcases mem_alterStmts.1 ha with ⟨col, hcol, rfl⟩ | ⟨name, hname, rfl⟩
    · exact ⟨t, ht, rfl, oldCols, hold, col, hcol, rfl, rfl⟩
    · exact ⟨t, ht, rfl, oldCols, hold, hname⟩

theorem issued_beforeStmts (hdrops : DropOrder c lines drops)
    (h : stmt ∈ beforeStmts c lines drops l pre) : stmt.Issued c lines pre := by
  rcases List.mem_append.1 h with h | h
  · rcases List.mem_append.1 h with h | h
    · rcases mem_typeStmts h with ⟨schema, rfl⟩ | ⟨ty, hty, -, rfl⟩
      · trivial
      · exact hty
    · obtain ⟨d, hd, rfl⟩ := List.mem_map.1 h
      exact .inl (((drops_iff hdrops).2 d).1 hd)
  · obtain ⟨t, ht, h⟩ := List.mem_flatMap.1 h
    exact issued_tableStmts ht h

theorem dropTable_mem_iff (hdrops : DropOrder c lines drops) {d : TableKey} :
    .dropTable d ∈ beforeStmts c lines drops l pre ↔ DroppedBefore c lines pre d := by
  constructor
  · exact fun h => issued_beforeStmts hdrops h
  · rintro (hdropped | ⟨t, ht, rfl, hnew⟩)
    · refine List.mem_append_left _ (List.mem_append_right _ ?_)
      exact List.mem_map_of_mem (((drops_iff hdrops).2 d).2 hdropped)
    · refine List.mem_append_right _ (List.mem_flatMap.2 ⟨t, ht, ?_⟩)
      rw [tableStmts, AList.lookup_eq_none.2 hnew]
      simp [tableDdl]

theorem dropColumn_mem_iff (hdrops : DropOrder c lines drops) {d : TableKey} {name : String} :
    .alter d (.dropColumn name) ∈ beforeStmts c lines drops l pre ↔
      ∃ t ∈ pre, t.key = d ∧ ∃ oldCols ∈ (oldColumns lines).lookup d,
        name ∈ goneColumns t oldCols := by
  constructor
  · exact fun h => issued_beforeStmts hdrops h
  · rintro ⟨t, ht, rfl, oldCols, hold, hname⟩
    refine List.mem_append_right _ (List.mem_flatMap.2 ⟨t, ht, ?_⟩)
    rw [tableStmts, Option.mem_def.1 hold]
    exact List.mem_map_of_mem (mem_alterStmts.2 (.inr ⟨name, hname, rfl⟩))

/-- A statement takes only indexes of its own table. -/
theorem Ddl.DropsIndex.key_eq (h : stmt.DropsIndex x) : stmt.key = some x.1 := by
  cases stmt with
  | dropTable d => exact congrArg some (Eq.symm h)
  | alter d a =>
    cases a with
    | dropColumn name => exact congrArg some h.1.symm
    | _ => exact h.elim
  | _ => exact h.elim

/-- A statement that is issued takes only indexes that are said to go. -/
theorem Ddl.Issued.indexGone (h : stmt.Issued c lines pre) (hx : stmt.DropsIndex x) :
    IndexGone c lines pre x := by
  cases stmt with
  | dropTable d =>
    obtain rfl : x.1 = d := hx
    exact .inl h
  | alter d a =>
    cases a with
    | dropColumn name =>
      obtain ⟨rfl, hname⟩ := hx
      obtain ⟨t, ht, hkey, oldCols, hold, hgone⟩ := h
      exact .inr ⟨t, ht, hkey, oldCols, hold, name, hgone, hname⟩
    | _ => exact hx.elim
  | _ => exact hx.elim

/-- An index goes with one of the statements exactly when it is said to. -/
theorem exists_dropsIndex_iff (hdrops : DropOrder c lines drops) :
    (∃ stmt ∈ beforeStmts c lines drops l pre, stmt.DropsIndex x) ↔ IndexGone c lines pre x := by
  constructor
  · rintro ⟨stmt, hmem, hx⟩
    exact (issued_beforeStmts hdrops hmem).indexGone hx
  · rintro (hdropped | ⟨t, ht, hkey, oldCols, hold, name, hgone, hname⟩)
    · exact ⟨_, (dropTable_mem_iff hdrops).2 hdropped, rfl⟩
    · exact ⟨_, (dropColumn_mem_iff hdrops).2 ⟨t, ht, hkey, oldCols, hold, hgone⟩, rfl, hname⟩

end Issued

/-! ## What an attempt finds -/

/-- The database after some statements of attempts. -/
structure Reached (c : UpstreamCatalog) (lines : List String) (db : LocalDatabase read)
    (hist : List Ddl) (w : LocalDatabase read) : Prop where
  run : run DdlServer.exec db hist = some w
  issued : ∀ stmt ∈ hist, stmt.Issued c lines c.tables

namespace Reached

variable {c : PgCatalog read} {lines : List String} {db w : LocalDatabase read} {hist : List Ddl}
  {t : TableDef} {oldCols : List (String × Nat)} {k : TableKey} {x : TableIndex}

theorem schema (h : Reached c.toUpstreamCatalog lines db hist w) :
    Runs.run LocalSchema.exec db.schema hist = some w.schema :=
  run_schema h.run

theorem no_dropType (h : Reached c.toUpstreamCatalog lines db hist w) (ty : TypeDef) :
    .dropType ty ∉ hist :=
  fun hmem => h.issued _ hmem

/-- A table that is altered is neither dropped nor made. -/
theorem keeps (h : Reached c.toUpstreamCatalog lines db hist w) (ht : t ∈ c.tables)
    (hold : t.key ∈ oldColumns lines) : ∀ stmt ∈ hist, stmt.Keeps t.key := by
  intro stmt hmem
  have hissued := h.issued stmt hmem
  cases stmt with
  | dropTable d =>
    rintro rfl
    rcases hissued with ⟨-, hgone⟩ | ⟨-, -, -, hnew⟩
    · exact hgone (List.mem_map_of_mem ht)
    · exact hnew hold
  | createTable t' =>
    intro hkey
    exact hissued.2 (hkey ▸ hold)
  | _ => trivial

theorem added_not_old (h : Reached c.toUpstreamCatalog lines db hist w)
    (hold : (oldColumns lines).lookup t.key = some oldCols) {name typeSql : String}
    (hmem : .alter t.key (.addColumn name typeSql) ∈ hist) : name ∉ oldCols.map Prod.fst := by
  obtain ⟨t', -, -, oldCols', hold', col, hcol, rfl, -⟩ := h.issued _ hmem
  obtain rfl := Option.some.inj (hold.symm.trans hold')
  simpa using (List.mem_filter.1 hcol).2

theorem dropped_old (h : Reached c.toUpstreamCatalog lines db hist w)
    (hold : (oldColumns lines).lookup t.key = some oldCols) {name : String}
    (hmem : .alter t.key (.dropColumn name) ∈ hist) : name ∈ oldCols.map Prod.fst := by
  obtain ⟨t', -, -, oldCols', hold', hgone⟩ := h.issued _ hmem
  obtain rfl := Option.some.inj (hold.symm.trans hold')
  exact List.mem_of_mem_filter hgone

/-- An index that no new table has was there from the beginning. -/
theorem index_before (h : Reached c.toUpstreamCatalog lines db hist w) (hx : w.indexes k = some x)
    (hk : ∀ t ∈ c.tables, t.key ∉ oldColumns lines → ∀ i ∈ t.indexes,
      (t.schema, read.indexName i) ≠ k) :
    db.indexes k = some x ∧ ∀ stmt ∈ hist, ¬stmt.DropsIndex x := by
  rcases (LocalDatabase.run_indexes_iff h.run).1 hx with hbefore | ⟨as, bs, rfl, rfl, -⟩
  · exact hbefore
  · obtain ⟨t, ht, hkey, hnew, hi⟩ := h.issued _ (List.mem_append_right as List.mem_cons_self)
    refine absurd ?_ (hk t ht (hkey ▸ hnew) x.2 hi)
    rw [← hkey]
    rfl

/-- The rows of a table that is altered are still there. -/
theorem rows_eq_nil_iff (h : Reached c.toUpstreamCatalog lines db hist w) (ht : t ∈ c.tables)
    (hold : t.key ∈ oldColumns lines) : w.rows t.key = [] ↔ db.rows t.key = [] := by
  rw [LocalDatabase.run_rows h.run, rows_of_keeps _ (h.keeps ht hold), List.map_eq_nil_iff]

end Reached

/-! ## A catalog that fits -/

/-- Where an event comes before another one that is not repeated. -/
theorem mem_after {α : Type} {as bs fs gs : List α} {a b : α}
    (h : as ++ a :: bs = fs ++ b :: gs) (hne : a ≠ b) (ha : a ∉ gs) : b ∈ bs := by
  rcases List.append_eq_append_iff.1 h with ⟨ms, rfl, hms⟩ | ⟨ms, rfl, hms⟩
  · cases ms with
    | nil => exact absurd (List.cons.inj hms).1 hne
    | cons m ms =>
      rw [(List.cons.inj hms).2]
      exact List.mem_append_right ms List.mem_cons_self
  · cases ms with
    | nil => exact absurd (List.cons.inj hms).1.symm hne
    | cons m ms =>
      refine absurd ?_ ha
      rw [(List.cons.inj hms).2]
      exact List.mem_append_right ms List.mem_cons_self

section Accepts

variable {c : PgCatalog read} {lines : List String} {db w : LocalDatabase read} {hist : List Ddl}
  {drops : List TableKey} {l : LocalSchema} {pre post : List TableDef} {t : TableDef}
  {oldCols : List (String × Nat)}

theorem Retryable.createType (h : Retryable c.toUpstreamCatalog lines db)
    (hw : Reached c.toUpstreamCatalog lines db hist w) {ty : TypeDef} (hty : ty ∈ c.types)
    (hnone : db.schema ty.key = none) : w.Accepts (.createType ty) := by
  obtain ⟨hknown, hfree⟩ := h.types ty hty hnone
  refine ⟨hknown, fun hcomposite => Option.isNone_iff_eq_none.2 ?_⟩
  by_contra hsome
  obtain ⟨x, hx⟩ := Option.ne_none_iff_exists'.1 hsome
  have hbefore := (hw.index_before hx fun t ht _ i hi =>
    c.index_ne_composite t ht i hi ty hty hcomposite).1
  rw [hfree hcomposite] at hbefore
  cases hbefore

theorem Retryable.dropOld (h : Retryable c.toUpstreamCatalog lines db)
    (hold : ∀ key ∈ oldColumns lines, ∃ L, db.schema key = some (.table L))
    (hw : Reached c.toUpstreamCatalog lines db hist w) {k : TableKey} (hk : k ∈ oldColumns lines) :
    w.Accepts (.dropTable k) := by
  refine Option.isNone_iff_eq_none.2 (by_contra fun hsome => ?_)
  obtain ⟨x, hx⟩ := Option.ne_none_iff_exists'.1 hsome
  have hbefore := (hw.index_before hx fun t ht hnew i hi => by
    rintro rfl
    obtain ⟨pre, post, hsplit⟩ := List.append_of_mem ht
    exact (h.newTables pre t post hsplit hnew).index_not_old i hi hk).1
  obtain ⟨L, hL⟩ := hold k hk
  have hrelation : db.schema.HasRelation k := by
    rw [LocalSchema.HasRelation, hL]
    rfl
  rw [db.index_none k hrelation] at hbefore
  cases hbefore

theorem FitsNew.name_free (h : FitsNew c.toUpstreamCatalog lines db pre t) (ht : t ∈ c.tables)
    (hdrops : DropOrder c.toUpstreamCatalog lines drops)
    (hw : Reached c.toUpstreamCatalog lines db hist w)
    (hpre : beforeStmts c.toUpstreamCatalog lines drops l pre ⊆ hist) :
    (w.indexes t.key).isNone = true := by
  refine Option.isNone_iff_eq_none.2 (by_contra fun hsome => ?_)
  obtain ⟨x, hx⟩ := Option.ne_none_iff_exists'.1 hsome
  obtain ⟨hbefore, hkept⟩ := hw.index_before hx fun t' ht' _ i hi => c.index_ne_table t' ht' i hi t ht
  obtain ⟨stmt, hmem, hdrops⟩ := (exists_dropsIndex_iff hdrops).2 (h.free x hbefore)
  exact hkept stmt (hpre hmem) hdrops

theorem FitsNew.createIndex (h : FitsNew c.toUpstreamCatalog lines db pre t) (ht : t ∈ c.tables)
    (hdrops : DropOrder c.toUpstreamCatalog lines drops)
    (hw : Reached c.toUpstreamCatalog lines db hist w)
    (hpre : beforeStmts c.toUpstreamCatalog lines drops l pre ⊆ hist) {i : IndexDef}
    (hi : i ∈ t.indexes) {as bs : List Ddl} (hsplit : hist = as ++ .dropTable t.key :: bs)
    (hfirst : .alter t.key (.createIndex i) ∉ bs) : w.Accepts (.alter t.key (.createIndex i)) := by
  refine ⟨h.known_index i hi, Option.isNone_iff_eq_none.2 (by_contra fun hsome => ?_), fun hhas => ?_⟩
  · obtain ⟨x, hx⟩ := Option.ne_none_iff_exists'.1 hsome
    rcases (LocalDatabase.run_indexes_iff hw.run).1 hx with
      ⟨hbefore, hkept⟩ | ⟨es, fs, heq, hname, hkept⟩
    · rcases h.index_free i hi x hbefore with hkey | hgone
      · exact hkept (.dropTable t.key) (by simp [hsplit]) hkey
      · obtain ⟨stmt, hmem, hdrops⟩ := (exists_dropsIndex_iff hdrops).2 hgone
        exact hkept stmt (hpre hmem) hdrops
    · -- an earlier attempt made it, and the table was dropped since
      have hmem : .alter x.1 (.createIndex x.2) ∈ hist := by simp [heq]
      obtain ⟨t', ht', hkey, -, hi'⟩ := hw.issued _ hmem
      have hschema : x.1.1 = t'.schema := by
        rw [← hkey]
        rfl
      rw [hschema] at hname
      obtain ⟨hsame, rfl⟩ := c.indexes_unique t ht i hi t' ht' x.2 hi' hname
      rw [hkey] at hsame
      rw [← hsame] at heq
      exact hkept (.dropTable t.key) (mem_after (heq.symm.trans hsplit) nofun hfirst) hsame.symm
  · rcases run_hasRelation hw.schema hhas with ⟨hbefore, -⟩ | ⟨stmt, hmem, hmakes⟩
    · exact h.index_not_relation i hi hbefore
    · have hissued := hw.issued stmt hmem
      cases stmt with
      | createTable t' => exact c.index_ne_table t ht i hi t' hissued.1 hmakes.symm
      | createType ty => exact c.index_ne_composite t ht i hi ty hissued hmakes.1 hmakes.2.symm
      | _ => exact hmakes.elim

/-- Each statement for a new table is accepted. -/
theorem FitsNew.accepts (h : FitsNew c.toUpstreamCatalog lines db pre t) (ht : t ∈ c.tables)
    (hnodup : t.indexes.Nodup) (hdrops : DropOrder c.toUpstreamCatalog lines drops) {zs : List Ddl}
    {stmt : Ddl} (hw : Reached c.toUpstreamCatalog lines db (hist ++ zs) w)
    (hpre : beforeStmts c.toUpstreamCatalog lines drops l pre ⊆ hist)
    (hzs : zs ++ [stmt] <+: tableDdl t) : w.Accepts stmt := by
  have hpre' := List.subset_append_of_subset_left zs hpre
  have hfree := h.name_free ht hdrops hw hpre'
  rcases snoc_prefix_append hzs with hmade | ⟨zs, rfl, hindex⟩
  · have hmem : stmt ∈ tableDdl t := List.mem_append_left _ (hmade.subset (by simp))
    have hmade : stmt ∈ schemaDdl t.schema ++ [.dropTable t.key, .createTable t] :=
      hmade.subset (by simp)
    rcases mem_tableDdl hmem with ⟨schema, rfl⟩ | rfl | rfl | ⟨i, -, rfl⟩
    · trivial
    · exact hfree
    · exact ⟨h.known, hfree⟩
    · unfold schemaDdl at hmade
      split_ifs at hmade <;> simp at hmade
  · obtain ⟨is, i, his, rfl, rfl⟩ := snoc_prefix_map hindex
    have hi : i ∈ t.indexes := his.subset (by simp)
    have hfirst : i ∉ is := by
      have hnodup := hnodup.sublist his.sublist
      rw [← List.concat_eq_append, List.nodup_concat] at hnodup
      exact hnodup.1
    have hlist : hist ++ (schemaDdl t.schema ++ [.dropTable t.key, .createTable t] ++
          is.map fun index => .alter t.key (.createIndex index)) =
        (hist ++ schemaDdl t.schema) ++ .dropTable t.key ::
          (.createTable t :: is.map fun index => .alter t.key (.createIndex index)) := by
      simp
    exact h.createIndex ht hdrops hw hpre' hi hlist (by simpa using hfirst)

theorem FitsOld.addColumn (h : FitsOld c.toUpstreamCatalog lines db pre t oldCols)
    (ht : t ∈ c.tables) (hold : (oldColumns lines).lookup t.key = some oldCols)
    (hw : Reached c.toUpstreamCatalog lines db hist w) {col : ColDef}
    (hcol : col ∈ addedColumns t oldCols) :
    w.Accepts (.alter t.key (.addColumn col.name col.typeSql)) := by
  have hmem : t.key ∈ oldColumns lines :=
    AList.lookup_isSome.1 (Option.isSome_iff_exists.2 ⟨oldCols, hold⟩)
  by_cases hhas : w.schema.Has t.key [col.name]
  · exact .inl hhas
  · have hbefore : ¬db.schema.Has t.key [col.name] := by
      intro hbefore
      refine hhas (has_run hw.schema (hw.keeps ht hmem) hbefore fun hdrop => ?_)
      have hnew : col.name ∉ oldCols.map Prod.fst := by simpa using (List.mem_filter.1 hcol).2
      exact hnew (hw.dropped_old hold hdrop)
    obtain ⟨hknown, hnull⟩ := h.added col hcol hbefore
    refine .inr ⟨hknown, fun hrefuses => List.isEmpty_iff.2 ?_⟩
    exact (hw.rows_eq_nil_iff ht hmem).2 (hnull hrefuses)

theorem FitsOld.dropColumn (h : FitsOld c.toUpstreamCatalog lines db pre t oldCols)
    (ht : t ∈ c.tables) (hold : (oldColumns lines).lookup t.key = some oldCols)
    (hdrops : DropOrder c.toUpstreamCatalog lines drops)
    (hw : Reached c.toUpstreamCatalog lines db hist w)
    (hpre : beforeStmts c.toUpstreamCatalog lines drops l pre ⊆ hist) {name : String}
    (hname : name ∈ goneColumns t oldCols) : w.Accepts (.alter t.key (.dropColumn name)) := by
  have hmem : t.key ∈ oldColumns lines :=
    AList.lookup_isSome.1 (Option.isSome_iff_exists.2 ⟨oldCols, hold⟩)
  intro hhas p hp huses
  rw [LocalDatabase.run_policies hw.run, List.mem_filter, decide_eq_true_iff] at hp
  have hbefore : db.schema.Has t.key [name] := by
    rcases run_has hw.schema (hw.keeps ht hmem) hhas with hbefore | ⟨typeSql, hadd⟩
    · exact hbefore
    · exact absurd (List.mem_of_mem_filter hname) (hw.added_not_old hold hadd)
  obtain ⟨d, hd, hdropped⟩ := h.gone name hname hbefore p hp.1 huses
  exact hp.2 d hd (hpre ((dropTable_mem_iff hdrops).2 hdropped))

end Accepts

section Repeated

variable {c : PgCatalog read} {lines : List String} {db u w : LocalDatabase read}
  {drops drops' : List TableKey} {ps : List Ddl}

theorem issued_of_prefix {l : LocalSchema} (hdrops : DropOrder c.toUpstreamCatalog lines drops)
    {es : List Ddl} (hes : es <+: callStmts c.toUpstreamCatalog lines drops l) :
    ∀ stmt ∈ es, stmt.Issued c.toUpstreamCatalog lines c.tables :=
  fun _ hmem => issued_beforeStmts hdrops (hes.subset hmem)

/-- A type that is missing in the second attempt was missing in the first one. -/
theorem Retryable.type_missing (h : Retryable c.toUpstreamCatalog lines db)
    (hu : Reached c.toUpstreamCatalog lines db ps u) {ty : TypeDef} (hty : ty ∈ c.types)
    (hnone : u.schema ty.key = none) : db.schema ty.key = none := by
  by_contra hsome
  have hsome := run_isSome hu.schema (Option.isSome_iff_ne_none.2 hsome) (fun hdrop => ?_)
    hu.no_dropType
  · rw [hnone] at hsome
    cases hsome
  · rcases hu.issued _ hdrop with ⟨hold, -⟩ | ⟨t, ht, hkey, -⟩
    · exact h.names.types ty hty hold
    · exact c.disjoint t ht ty hty hkey.symm

/-- **Each statement of a second attempt is accepted.** -/
theorem Retryable.accepts (h : Retryable c.toUpstreamCatalog lines db)
    (hold : ∀ key ∈ oldColumns lines, ∃ L, db.schema key = some (.table L))
    (hdrops : DropOrder c.toUpstreamCatalog lines drops)
    (hu : Reached c.toUpstreamCatalog lines db ps u) {xs : List Ddl} {stmt : Ddl}
    (hissued : xs ++ [stmt] <+: callStmts c.toUpstreamCatalog lines drops u.schema)
    (hxs : run DdlServer.exec u xs = some w) : w.Accepts stmt := by
  have hw : Reached c.toUpstreamCatalog lines db (ps ++ xs) w := by
    refine ⟨run_append_eq_some.2 ⟨u, hu.run, hxs⟩, fun stmt hmem => ?_⟩
    rcases List.mem_append.1 hmem with hmem | hmem
    · exact hu.issued stmt hmem
    · exact issued_of_prefix hdrops ((List.prefix_append xs _).trans hissued) stmt hmem
  rcases snoc_prefix_append hissued with hfirst | ⟨rest, rfl, hrest⟩
  · rcases snoc_prefix_append hfirst with htypes | ⟨rest, rfl, hrest⟩
    · have hmem : stmt ∈ typeStmts u.schema c.types := htypes.subset (by simp)
      rcases mem_typeStmts hmem with ⟨schema, rfl⟩ | ⟨ty, hty, hnone, rfl⟩
      · trivial
      · exact h.createType hw hty (h.type_missing hu hty hnone)
    · have hmem : stmt ∈ drops.map Ddl.dropTable := hrest.subset (by simp)
      obtain ⟨k, hk, rfl⟩ := List.mem_map.1 hmem
      exact h.dropOld hold hw (((drops_iff hdrops).2 k).1 hk).1
  · obtain ⟨pre, t, post, zs, hsplit, rfl, hzs⟩ := snoc_prefix_flatMap hrest
    have ht : t ∈ c.tables := by simp [hsplit]
    have hlist : ps ++ (typeStmts u.schema c.types ++ drops.map .dropTable ++
        (pre.flatMap (tableStmts (oldColumns lines)) ++ zs)) =
        (ps ++ beforeStmts c.toUpstreamCatalog lines drops u.schema pre) ++ zs := by
      rw [beforeStmts]
      simp only [List.append_assoc]
    rw [hlist] at hw
    have hpre := List.subset_append_right ps
      (beforeStmts c.toUpstreamCatalog lines drops u.schema pre)
    unfold tableStmts at hzs
    cases hlookup : (oldColumns lines).lookup t.key with
    | none =>
      rw [hlookup] at hzs
      have hnew := AList.lookup_eq_none.1 hlookup
      exact (h.newTables pre t post hsplit hnew).accepts ht
        (h.names.tables t ht hnew).2.indexes_nodup hdrops hw hpre hzs
    | some oldCols =>
      rw [hlookup] at hzs
      have hfits := h.oldTables pre t post hsplit oldCols hlookup
      have hmem : stmt ∈ (alterStmts t oldCols).map (Ddl.alter t.key) := hzs.subset (by simp)
      obtain ⟨a, ha, rfl⟩ := List.mem_map.1 hmem
      rcases mem_alterStmts.1 ha with ⟨col, hcol, rfl⟩ | ⟨name, hname, rfl⟩
      · exact hfits.addColumn ht hlookup hw hcol
      · exact hfits.dropColumn ht hlookup hdrops hw (List.subset_append_of_subset_left zs hpre) hname

/-- **A second attempt comes to its end.** -/
theorem Retryable.second_run (h : Retryable c.toUpstreamCatalog lines db)
    (hold : ∀ key ∈ oldColumns lines, ∃ L, db.schema key = some (.table L)) :
    ∃ r : LocalSchema, ∀ drops drops', DropOrder c.toUpstreamCatalog lines drops →
      DropOrder c.toUpstreamCatalog lines drops' → ∀ ps u,
        ps <+: callStmts c.toUpstreamCatalog lines drops db.schema →
        run DdlServer.exec db ps = some u →
        ∃ w, run DdlServer.exec u (callStmts c.toUpstreamCatalog lines drops' u.schema) = some w ∧
          w.schema = r := by
  obtain ⟨r, hr⟩ := h.names.repeats hold
  refine ⟨r, fun drops drops' hdrops hdrops' ps u hps hu => ?_⟩
  have hbase := hr drops drops' hdrops hdrops' ps u.schema hps (run_schema hu)
  have hreached : Reached c.toUpstreamCatalog lines db ps u := ⟨hu, issued_of_prefix hdrops hps⟩
  have henabled : ∀ xs stmt w,
      xs ++ [stmt] <+: callStmts c.toUpstreamCatalog lines drops' u.schema →
      run DdlServer.exec u xs = some w → (LocalDatabase.exec w stmt).isSome := by
    intro xs stmt w hissued hxs
    refine LocalDatabase.exec_isSome_of (h.accepts hold hdrops' hreached hissued hxs) ?_
    obtain ⟨v, hv⟩ := run_prefix hbase hissued
    obtain ⟨w', hw', hv⟩ := run_append_eq_some.1 hv
    obtain rfl := Option.some.inj ((run_schema hxs).symm.trans hw')
    obtain ⟨v', hv', -⟩ := run_cons_eq_some.1 hv
    exact Option.isSome_iff_exists.2 ⟨v', hv'⟩
  have hsome := run_isSome_of_enabled henabled
  obtain ⟨w, hw⟩ := Option.isSome_iff_exists.1 hsome
  exact ⟨w, hw, Option.some.inj ((run_schema hw).symm.trans hbase)⟩

end Repeated

/-! ## What a whole attempt comes to -/

section Whole

variable {c : PgCatalog read} {lines : List String} {db w w' : LocalDatabase read}
  {drops drops' : List TableKey} {l l' : LocalSchema} {ps ps' : List Ddl}

/-- No other table of the catalog has the name. -/
theorem key_ne_of_split {pre post : List TableDef} {t t' : TableDef}
    (hsplit : c.tables = pre ++ t :: post) (ht' : t' ∈ pre ∨ t' ∈ post) : t'.key ≠ t.key := by
  intro hkey
  have hnodup := c.tables_nodup
  rw [hsplit, List.map_append, List.map_cons, List.nodup_append, List.nodup_cons] at hnodup
  obtain ⟨-, ⟨hnotPost, -⟩, hnotPre⟩ := hnodup
  rcases ht' with ht' | ht'
  · exact hnotPre _ (List.mem_map_of_mem ht') _ List.mem_cons_self hkey
  · exact hnotPost (hkey ▸ List.mem_map_of_mem ht')

/-- An index after a whole attempt. It does not matter what was before the attempt. -/
theorem Reached.indexes_iff (hdrops : DropOrder c.toUpstreamCatalog lines drops)
    (hw : Reached c.toUpstreamCatalog lines db
      (ps ++ callStmts c.toUpstreamCatalog lines drops l) w) {k : TableKey} {x : TableIndex} :
    w.indexes k = some x ↔
      (db.indexes k = some x ∧ ¬IndexGone c.toUpstreamCatalog lines c.tables x) ∨
      ((∃ t ∈ c.tables, t.key = x.1 ∧ x.1 ∉ oldColumns lines ∧ x.2 ∈ t.indexes) ∧
        k = (x.1.1, read.indexName x.2)) := by
  have hgone : (∀ stmt ∈ ps ++ callStmts c.toUpstreamCatalog lines drops l,
      ¬stmt.DropsIndex x) ↔ ¬IndexGone c.toUpstreamCatalog lines c.tables x := by
    constructor
    · intro hkept hgone
      obtain ⟨stmt, hmem, hx⟩ := (exists_dropsIndex_iff hdrops).2 hgone
      exact hkept stmt (List.mem_append_right ps hmem) hx
    · exact fun hnot stmt hmem hx => hnot ((hw.issued stmt hmem).indexGone hx)
  rw [LocalDatabase.run_indexes_iff hw.run, hgone]
  refine or_congr_right ⟨?_, ?_⟩
  · rintro ⟨as, bs, hsplit, hk, -⟩
    have hmem : .alter x.1 (.createIndex x.2) ∈
        ps ++ callStmts c.toUpstreamCatalog lines drops l := by simp [hsplit]
    exact ⟨hw.issued _ hmem, hk⟩
  · rintro ⟨⟨t, ht, hkey, hnew, hi⟩, hk⟩
    obtain ⟨pre, post, hsplit⟩ := List.append_of_mem ht
    obtain ⟨is, js, his⟩ := List.append_of_mem hi
    rw [← hkey] at hnew
    refine ⟨ps ++ (beforeStmts c.toUpstreamCatalog lines drops l pre ++
        (schemaDdl t.schema ++ [.dropTable t.key, .createTable t] ++
          is.map fun index => .alter t.key (.createIndex index))),
      (js.map fun index => .alter t.key (.createIndex index)) ++
        post.flatMap (tableStmts (oldColumns lines)), ?_, hk, ?_⟩
    · rw [callStmts_split hsplit, tableStmts, AList.lookup_eq_none.2 hnew, ← hkey]
      simp [tableDdl, his]
    · intro stmt hmem hx
      rcases List.mem_append.1 hmem with hmem | hmem
      · obtain ⟨j, -, rfl⟩ := List.mem_map.1 hmem
        exact hx
      · -- the tables that follow have other names
        obtain ⟨t', ht', hmem⟩ := List.mem_flatMap.1 hmem
        have hkey' : x.1 = t'.key := key_tableStmts x.1 stmt hmem hx.key_eq
        exact key_ne_of_split hsplit (.inr ht') (hkey'.symm.trans hkey.symm)

theorem Reached.policies_eq (hdrops : DropOrder c.toUpstreamCatalog lines drops)
    (hw : Reached c.toUpstreamCatalog lines db
      (ps ++ callStmts c.toUpstreamCatalog lines drops l) w)
    (hdrops' : DropOrder c.toUpstreamCatalog lines drops')
    (hw' : Reached c.toUpstreamCatalog lines db
      (ps' ++ callStmts c.toUpstreamCatalog lines drops' l') w') : w.policies = w'.policies := by
  rw [LocalDatabase.run_policies hw.run, LocalDatabase.run_policies hw'.run]
  refine List.filter_congr fun p _ => decide_eq_decide.2 (forall₂_congr fun d _ => not_congr ?_)
  constructor
  · exact fun hmem => List.mem_append_right ps' ((dropTable_mem_iff hdrops').2 (hw.issued _ hmem))
  · exact fun hmem => List.mem_append_right ps ((dropTable_mem_iff hdrops).2 (hw'.issued _ hmem))

/-- The rows of a table that is neither dropped nor made. -/
theorem Reached.rows_of_kept (hdrops : DropOrder c.toUpstreamCatalog lines drops)
    (hw : Reached c.toUpstreamCatalog lines db
      (ps ++ callStmts c.toUpstreamCatalog lines drops l) w) {k : TableKey}
    (hkept : ¬DroppedBefore c.toUpstreamCatalog lines c.tables k) {names : List String}
    (hnames : ∀ name, name ∈ names ↔ ∃ t ∈ c.tables, t.key = k ∧
      ∃ oldCols ∈ (oldColumns lines).lookup k, name ∈ goneColumns t oldCols) :
    w.rows k = (db.rows k).map (clear names) := by
  have hkeeps : ∀ stmt ∈ ps ++ callStmts c.toUpstreamCatalog lines drops l, stmt.Keeps k := by
    intro stmt hmem
    have hissued := hw.issued stmt hmem
    cases stmt with
    | dropTable d =>
      rintro rfl
      exact hkept hissued
    | createTable t =>
      rintro rfl
      exact hkept (.inr ⟨t, hissued.1, rfl, hissued.2⟩)
    | _ => trivial
  rw [LocalDatabase.run_rows hw.run, rows_of_keeps _ hkeeps]
  refine congrArg (List.map · _) (clear_congr fun name => ?_)
  rw [mem_droppedColumns, hnames]
  constructor
  · exact fun hmem => hw.issued _ hmem
  · exact fun hgone => List.mem_append_right ps ((dropColumn_mem_iff hdrops).2 hgone)

theorem Reached.rows_eq (hdrops : DropOrder c.toUpstreamCatalog lines drops)
    (hw : Reached c.toUpstreamCatalog lines db
      (ps ++ callStmts c.toUpstreamCatalog lines drops l) w)
    (hdrops' : DropOrder c.toUpstreamCatalog lines drops')
    (hw' : Reached c.toUpstreamCatalog lines db
      (ps' ++ callStmts c.toUpstreamCatalog lines drops' l') w') : w.rows = w'.rows := by
  funext k
  by_cases hdropped : DroppedBefore c.toUpstreamCatalog lines c.tables k
  · rw [LocalDatabase.run_rows hw.run, LocalDatabase.run_rows hw'.run]
    have hmem : .dropTable k ∈ callStmts c.toUpstreamCatalog lines drops l :=
      (dropTable_mem_iff hdrops).2 hdropped
    have hmem' : .dropTable k ∈ callStmts c.toUpstreamCatalog lines drops' l' :=
      (dropTable_mem_iff hdrops').2 hdropped
    rw [rows_of_dropTable _ (List.mem_append_right ps hmem),
      rows_of_dropTable _ (List.mem_append_right ps' hmem')]
  · have hnames : ∀ name, name ∈ droppedColumns k
        (callStmts c.toUpstreamCatalog lines drops l) ↔ ∃ t ∈ c.tables, t.key = k ∧
          ∃ oldCols ∈ (oldColumns lines).lookup k, name ∈ goneColumns t oldCols := by
      intro name
      rw [mem_droppedColumns]
      exact dropColumn_mem_iff hdrops
    rw [hw.rows_of_kept hdrops hdropped hnames, hw'.rows_of_kept hdrops' hdropped hnames]

/-- **One end.** Whole attempts that come to the same types and tables come to the same
database. -/
theorem Reached.unique (hdrops : DropOrder c.toUpstreamCatalog lines drops)
    (hw : Reached c.toUpstreamCatalog lines db
      (ps ++ callStmts c.toUpstreamCatalog lines drops l) w)
    (hdrops' : DropOrder c.toUpstreamCatalog lines drops')
    (hw' : Reached c.toUpstreamCatalog lines db
      (ps' ++ callStmts c.toUpstreamCatalog lines drops' l') w') (hschema : w.schema = w'.schema) :
    w = w' := by
  refine LocalDatabase.ext hschema (hw.rows_eq hdrops hdrops' hw') ?_
    (hw.policies_eq hdrops hdrops' hw')
  funext k
  refine Option.ext fun x => ?_
  rw [hw.indexes_iff hdrops, hw'.indexes_iff hdrops']

/-- A catalog that fits can be applied again. -/
theorem Retryable.repeatable (h : Retryable c.toUpstreamCatalog lines db)
    (hcompat : ∀ t ∈ c.tables, Compatible (oldColumns lines) t)
    (hold : ∀ key ∈ oldColumns lines, ∃ L, db.schema key = some (.table L)) :
    Repeatable c.toUpstreamCatalog lines db := by
  obtain ⟨schema, hrun⟩ := h.second_run hold
  have hfirst : DropOrder c.toUpstreamCatalog lines
      (droppedTables (oldColumns lines) c.tables) := List.Perm.refl _
  have hreached : ∀ {drops drops' ps u w}, DropOrder c.toUpstreamCatalog lines drops →
      DropOrder c.toUpstreamCatalog lines drops' →
      ps <+: callStmts c.toUpstreamCatalog lines drops db.schema →
      run DdlServer.exec db ps = some u →
      run DdlServer.exec u (callStmts c.toUpstreamCatalog lines drops' u.schema) = some w →
      Reached c.toUpstreamCatalog lines db
        (ps ++ callStmts c.toUpstreamCatalog lines drops' u.schema) w := by
    intro drops drops' ps u w hdrops hdrops' hps hu hw
    refine ⟨run_append_eq_some.2 ⟨u, hu, hw⟩, fun stmt hmem => ?_⟩
    rcases List.mem_append.1 hmem with hmem | hmem
    · exact issued_of_prefix hdrops hps stmt hmem
    · exact issued_of_prefix hdrops' List.prefix_rfl stmt hmem
  obtain ⟨r, hr, rfl⟩ := hrun _ _ hfirst hfirst [] db List.nil_prefix rfl
  have hwhole := hreached hfirst hfirst List.nil_prefix rfl hr
  refine ⟨r, fun t ht oldCols hlookup => ?_, fun drops drops' hdrops hdrops' ps u hps hu => ?_⟩
  · have hmem : t.key ∈ oldColumns lines :=
      AList.lookup_isSome.1 (Option.isSome_iff_exists.2 ⟨oldCols, hlookup⟩)
    refine hwhole.rows_of_kept hfirst ?_ fun name => ?_
    · rintro (⟨-, hgone⟩ | ⟨-, -, -, hnew⟩)
      · exact hgone (List.mem_map_of_mem ht)
      · exact hnew hmem
    · constructor
      · exact fun hname => ⟨t, ht, rfl, oldCols, hlookup, hname⟩
      · rintro ⟨t', ht', hkey, oldCols', hlookup', hname⟩
        obtain rfl := List.inj_on_of_nodup_map c.tables_nodup ht' ht hkey
        obtain rfl := Option.some.inj ((Option.mem_def.1 hlookup).symm.trans hlookup')
        exact hname
  · obtain ⟨w, hw, hschema⟩ := hrun drops drops' hdrops hdrops' ps u hps hu
    rw [applySchemaDeltaIn_eq hcompat, execAll_ok_iff]
    rw [← (hreached hdrops hdrops' hps hu hw).unique hdrops' hfirst hwhole hschema]
    exact hw

end Whole

/-! ## Only a catalog that fits -/

theorem LocalDatabase.accepts_of_run {db r : LocalDatabase read} {as bs : List Ddl} {stmt : Ddl}
    (h : run DdlServer.exec db (as ++ stmt :: bs) = some r) :
    ∃ w, run DdlServer.exec db as = some w ∧ w.Accepts stmt := by
  obtain ⟨w, hw, h⟩ := run_append_eq_some.1 h
  obtain ⟨v, hv, -⟩ := run_cons_eq_some.1 h
  exact ⟨w, hw, (executes_of_exec hv).accepts⟩

section Needed

variable {c : PgCatalog read} {lines : List String} {db r w : LocalDatabase read}
  {drops : List TableKey} {pre post : List TableDef} {t : TableDef} {oldCols : List (String × Nat)}
  {zs : List Ddl} {k : TableKey} {x : TableIndex}

theorem type_of_run
    (hfirst : run DdlServer.exec db (callStmts c.toUpstreamCatalog lines drops db.schema) = some r)
    {ty : TypeDef} (hty : ty ∈ c.types) (hnone : db.schema ty.key = none) :
    read.knows ty.createSql = true ∧ (ty.isComposite = true → db.indexes ty.key = none) := by
  have hmem : .createType ty ∈ typeStmts db.schema c.types := by
    refine List.mem_flatMap.2 ⟨ty, hty, ?_⟩
    rw [hnone]
    exact List.mem_append_right _ List.mem_cons_self
  obtain ⟨as, bs, hsplit⟩ := List.append_of_mem hmem
  have hcall : callStmts c.toUpstreamCatalog lines drops db.schema = as ++ .createType ty ::
      (bs ++ drops.map .dropTable ++ c.tables.flatMap (tableStmts (oldColumns lines))) := by
    rw [callStmts, hsplit]
    simp
  rw [hcall] at hfirst
  obtain ⟨w, hw, hknown, hfree⟩ := LocalDatabase.accepts_of_run hfirst
  refine ⟨hknown, fun hcomposite => by_contra fun hsome => ?_⟩
  obtain ⟨x, hx⟩ := Option.ne_none_iff_exists'.1 hsome
  have hkept : w.indexes ty.key = some x := by
    refine (LocalDatabase.run_indexes_iff hw).2 (.inl ⟨hx, fun stmt hstmt => ?_⟩)
    have hstmt : stmt ∈ typeStmts db.schema c.types := by
      rw [hsplit]
      exact List.mem_append_left _ hstmt
    rcases mem_typeStmts hstmt with ⟨schema, rfl⟩ | ⟨ty', -, -, rfl⟩
    · exact id
    · exact id
  rw [Option.isNone_iff_eq_none.1 (hfree hcomposite)] at hkept
  cases hkept

/-- What the statements for a table find in an attempt in one go. -/
theorem accepts_at (hdrops : DropOrder c.toUpstreamCatalog lines drops)
    (hfirst : run DdlServer.exec db (callStmts c.toUpstreamCatalog lines drops db.schema) = some r)
    (hsplit : c.tables = pre ++ t :: post) {stmt : Ddl} {rest : List Ddl}
    (hstmts : tableStmts (oldColumns lines) t = zs ++ stmt :: rest) :
    ∃ w, Reached c.toUpstreamCatalog lines db
      (beforeStmts c.toUpstreamCatalog lines drops db.schema pre ++ zs) w ∧ w.Accepts stmt := by
  have hcall : callStmts c.toUpstreamCatalog lines drops db.schema =
      (beforeStmts c.toUpstreamCatalog lines drops db.schema pre ++ zs) ++ stmt ::
        (rest ++ post.flatMap (tableStmts (oldColumns lines))) := by
    rw [callStmts_split hsplit, hstmts]
    simp
  obtain ⟨w, hw, haccepts⟩ := LocalDatabase.accepts_of_run (hcall ▸ hfirst)
  exact ⟨w, ⟨hw, issued_of_prefix hdrops (hcall ▸ List.prefix_append _ _)⟩, haccepts⟩

/-- An index whose name is free later on is gone. -/
theorem Reached.indexGone (hdrops : DropOrder c.toUpstreamCatalog lines drops)
    (hw : Reached c.toUpstreamCatalog lines db
      (beforeStmts c.toUpstreamCatalog lines drops db.schema pre ++ zs) w)
    (hzs : ∀ stmt ∈ zs, ¬stmt.DropsIndex x) (hx : db.indexes k = some x)
    (hnone : (w.indexes k).isNone = true) : IndexGone c.toUpstreamCatalog lines pre x := by
  by_contra hnot
  have hkept : w.indexes k = some x := by
    refine (LocalDatabase.run_indexes_iff hw.run).2 (.inl ⟨hx, fun stmt hstmt hdrop => ?_⟩)
    rcases List.mem_append.1 hstmt with hstmt | hstmt
    · exact hnot ((exists_dropsIndex_iff hdrops).1 ⟨stmt, hstmt, hdrop⟩)
    · exact hzs stmt hstmt hdrop
  rw [Option.isNone_iff_eq_none.1 hnone] at hkept
  cases hkept

theorem not_dropsIndex_schemaDdl (schema : String) (x : TableIndex) :
    ∀ stmt ∈ schemaDdl schema, ¬stmt.DropsIndex x := by
  intro stmt hstmt
  unfold schemaDdl at hstmt
  split_ifs at hstmt
  · cases hstmt
  · obtain rfl := List.mem_singleton.1 hstmt
    exact id

/-- An index that the first attempt leaves keeps the next one from dropping a table of its name. -/
theorem index_not_old_of_run (hdrops : DropOrder c.toUpstreamCatalog lines drops)
    (hfirst : run DdlServer.exec db (callStmts c.toUpstreamCatalog lines drops db.schema) = some r)
    (hagain : run DdlServer.exec r (callStmts c.toUpstreamCatalog lines drops r.schema) = some r)
    (ht : t ∈ c.tables) (hnew : t.key ∉ oldColumns lines) {i : IndexDef} (hi : i ∈ t.indexes) :
    (t.schema, read.indexName i) ∉ oldColumns lines := by
  intro hold
  have hkey : (t.schema, read.indexName i) ∉ c.tables.map TableDef.key := by
    intro hmem
    obtain ⟨u, hu, heq⟩ := List.mem_map.1 hmem
    exact c.index_ne_table t ht i hi u hu heq.symm
  have hwhole : Reached c.toUpstreamCatalog lines db
      ([] ++ callStmts c.toUpstreamCatalog lines drops db.schema) r :=
    ⟨hfirst, issued_of_prefix hdrops List.prefix_rfl⟩
  have hmade : r.indexes (t.schema, read.indexName i) = some (t.key, i) :=
    (hwhole.indexes_iff hdrops).2 (.inr ⟨⟨t, ht, rfl, hnew, hi⟩, rfl⟩)
  obtain ⟨ds, es, hds⟩ := List.append_of_mem (((drops_iff hdrops).2 _).2 ⟨hold, hkey⟩)
  have hcall : callStmts c.toUpstreamCatalog lines drops r.schema =
      (typeStmts r.schema c.types ++ ds.map .dropTable) ++
        .dropTable (t.schema, read.indexName i) ::
          (es.map .dropTable ++ c.tables.flatMap (tableStmts (oldColumns lines))) := by
    rw [callStmts, hds]
    simp
  rw [hcall] at hagain
  obtain ⟨w, hw, hnone⟩ := LocalDatabase.accepts_of_run hagain
  have hkept : w.indexes (t.schema, read.indexName i) = some (t.key, i) := by
    refine (LocalDatabase.run_indexes_iff hw).2 (.inl ⟨hmade, fun stmt hstmt hdrop => ?_⟩)
    rcases List.mem_append.1 hstmt with hstmt | hstmt
    · rcases mem_typeStmts hstmt with ⟨schema, rfl⟩ | ⟨ty', -, -, rfl⟩
      · exact hdrop
      · exact hdrop
    · obtain ⟨d, hd, rfl⟩ := List.mem_map.1 hstmt
      obtain rfl : t.key = d := hdrop
      have hd : t.key ∈ drops := hds ▸ List.mem_append_left _ hd
      exact (((drops_iff hdrops).2 _).1 hd).2 (List.mem_map_of_mem ht)
  rw [Option.isNone_iff_eq_none.1 hnone] at hkept
  cases hkept

/-- A new table in an attempt in one go, and in one that is repeated after its end. -/
theorem fitsNew_of_run (hdrops : DropOrder c.toUpstreamCatalog lines drops)
    (hfirst : run DdlServer.exec db (callStmts c.toUpstreamCatalog lines drops db.schema) = some r)
    (hagain : run DdlServer.exec r (callStmts c.toUpstreamCatalog lines drops r.schema) = some r)
    (hsplit : c.tables = pre ++ t :: post) (hnew : t.key ∉ oldColumns lines) :
    FitsNew c.toUpstreamCatalog lines db pre t := by
  have ht : t ∈ c.tables := by simp [hsplit]
  have hstmts : tableStmts (oldColumns lines) t = tableDdl t := by
    rw [tableStmts, AList.lookup_eq_none.2 hnew]
  have hindex : ∀ i ∈ t.indexes, ∃ (is : List IndexDef) (w : LocalDatabase read), Reached c.toUpstreamCatalog lines db
      (beforeStmts c.toUpstreamCatalog lines drops db.schema pre ++
        (schemaDdl t.schema ++ [.dropTable t.key, .createTable t] ++
          is.map fun index => .alter t.key (.createIndex index))) w ∧
      w.Accepts (.alter t.key (.createIndex i)) := by
    intro i hi
    obtain ⟨is, js, his⟩ := List.append_of_mem hi
    refine ⟨is, accepts_at hdrops hfirst hsplit
      (hstmts.trans (?_ : _ = _ ++ _ :: js.map fun index => .alter t.key (.createIndex index)))⟩
    simp [tableDdl, his]
  constructor
  · obtain ⟨w, -, haccepts⟩ := accepts_at hdrops hfirst hsplit
      (hstmts.trans (by simp [tableDdl] : _ = (schemaDdl t.schema ++ [.dropTable t.key]) ++
        .createTable t :: t.indexes.map fun index => .alter t.key (.createIndex index)))
    exact haccepts.1
  · obtain ⟨w, hw, haccepts⟩ := accepts_at hdrops hfirst hsplit
      (hstmts.trans (by simp [tableDdl] : _ = schemaDdl t.schema ++ .dropTable t.key ::
        (.createTable t :: t.indexes.map fun index => .alter t.key (.createIndex index))))
    exact fun x hx => hw.indexGone hdrops (not_dropsIndex_schemaDdl _ x) hx haccepts
  · intro i hi
    obtain ⟨is, w, -, haccepts⟩ := hindex i hi
    exact haccepts.1
  · exact fun i hi => index_not_old_of_run hdrops hfirst hagain ht hnew hi
  · intro i hi hrelation
    obtain ⟨is, w, hw, haccepts⟩ := hindex i hi
    refine haccepts.2.2 (hasRelation_run hw.schema hrelation (fun hdrop => ?_) hw.no_dropType)
    rcases hw.issued _ hdrop with ⟨hold, -⟩ | ⟨u, hu, hkey, -⟩
    · exact index_not_old_of_run hdrops hfirst hagain ht hnew hi hold
    · exact c.index_ne_table t ht i hi u hu hkey.symm
  · intro i hi x hx
    obtain ⟨is, w, hw, haccepts⟩ := hindex i hi
    refine or_iff_not_imp_left.2 fun hne => hw.indexGone hdrops (fun stmt hstmt hdrop => ?_) hx
      haccepts.2.1
    simp only [List.mem_append, List.mem_cons, List.not_mem_nil, or_false, List.mem_map] at hstmt
    rcases hstmt with (hschema | rfl | rfl) | ⟨j, -, rfl⟩
    · exact not_dropsIndex_schemaDdl _ x stmt hschema hdrop
    · exact hne hdrop
    · exact hdrop
    · exact hdrop

theorem tableStmts_old (hold : (oldColumns lines).lookup t.key = some oldCols) :
    tableStmts (oldColumns lines) t = (alterStmts t oldCols).map (.alter t.key) := by
  rw [tableStmts, hold]

/-- The statements before those for a table do not alter it. -/
theorem alter_not_mem_beforeStmts (hdrops : DropOrder c.toUpstreamCatalog lines drops)
    (hsplit : c.tables = pre ++ t :: post) (a : TableDdl) :
    .alter t.key a ∉ beforeStmts c.toUpstreamCatalog lines drops db.schema pre := by
  intro hmem
  have hissued := issued_beforeStmts hdrops hmem
  cases a with
  | createIndex i =>
    obtain ⟨t', ht', hkey, -⟩ := hissued
    exact key_ne_of_split hsplit (.inl ht') hkey
  | addColumn name typeSql =>
    obtain ⟨t', ht', hkey, -⟩ := hissued
    exact key_ne_of_split hsplit (.inl ht') hkey
  | dropColumn name =>
    obtain ⟨t', ht', hkey, -⟩ := hissued
    exact key_ne_of_split hsplit (.inl ht') hkey

/-- A column that is added in an attempt in one go. -/
theorem addColumn_of_run (hdrops : DropOrder c.toUpstreamCatalog lines drops)
    (hfirst : run DdlServer.exec db (callStmts c.toUpstreamCatalog lines drops db.schema) = some r)
    (hsplit : c.tables = pre ++ t :: post) (hold : (oldColumns lines).lookup t.key = some oldCols)
    {col : ColDef} (hcol : col ∈ addedColumns t oldCols)
    (hbefore : ¬db.schema.Has t.key [col.name]) :
    read.knows ((TableDdl.addColumn col.name col.typeSql).sql t.key) = true ∧
      (read.refusesNull col.typeSql = true → db.rows t.key = []) := by
  have ht : t ∈ c.tables := by simp [hsplit]
  have hmem : t.key ∈ oldColumns lines :=
    AList.lookup_isSome.1 (Option.isSome_iff_exists.2 ⟨oldCols, hold⟩)
  obtain ⟨cs, ds, hcs⟩ := List.append_of_mem hcol
  obtain ⟨w, hw, haccepts⟩ := accepts_at hdrops hfirst hsplit
    ((tableStmts_old hold).trans (by simp [alterStmts, hcs, Function.comp_def] : _ =
      (cs.map fun c => .alter t.key (.addColumn c.name c.typeSql)) ++
        .alter t.key (.addColumn col.name col.typeSql) ::
          ((ds.map fun c => .alter t.key (.addColumn c.name c.typeSql)) ++
            (goneColumns t oldCols).map fun name => .alter t.key (.dropColumn name))))
  have hmissing : ¬w.schema.Has t.key [col.name] := by
    intro hhas
    rcases run_has hw.schema (hw.keeps ht hmem) hhas with hhas | ⟨typeSql, hadd⟩
    · exact hbefore hhas
    rcases List.mem_append.1 hadd with hadd | hadd
    · exact alter_not_mem_beforeStmts hdrops hsplit _ hadd
    · -- the columns of a table have different names
      obtain ⟨col', hcol', heq⟩ := List.mem_map.1 hadd
      have hname : col'.name = col.name := (TableDdl.addColumn.inj (Ddl.alter.inj heq).2).1
      have hsub : (addedColumns t oldCols).Sublist t.columns := List.filter_sublist
      have hnodup := (c.columns_nodup t ht).sublist (hsub.map ColDef.name)
      rw [hcs, List.map_append, List.map_cons] at hnodup
      exact (List.nodup_append.1 hnodup).2.2 _ (List.mem_map_of_mem hcol') _
        List.mem_cons_self hname
  rcases haccepts with hhas | ⟨hknown, hnull⟩
  · exact absurd hhas hmissing
  · refine ⟨hknown, fun hrefuses => ?_⟩
    exact (hw.rows_eq_nil_iff ht hmem).1 (List.isEmpty_iff.1 (hnull hrefuses))

/-- A column that is dropped in an attempt in one go. -/
theorem dropColumn_of_run (hdrops : DropOrder c.toUpstreamCatalog lines drops)
    (hfirst : run DdlServer.exec db (callStmts c.toUpstreamCatalog lines drops db.schema) = some r)
    (hsplit : c.tables = pre ++ t :: post) (hold : (oldColumns lines).lookup t.key = some oldCols)
    {name : String} (hname : name ∈ goneColumns t oldCols) (hbefore : db.schema.Has t.key [name])
    {p : LocalPolicy} (hp : p ∈ db.policies) (huses : (t.key, name) ∈ p.columns) :
    ∃ d ∈ p.tables, DroppedBefore c.toUpstreamCatalog lines pre d := by
  have ht : t ∈ c.tables := by simp [hsplit]
  have hmem : t.key ∈ oldColumns lines :=
    AList.lookup_isSome.1 (Option.isSome_iff_exists.2 ⟨oldCols, hold⟩)
  by_contra hnone
  obtain ⟨ns, ms, hns, hfresh⟩ := List.eq_append_cons_of_mem hname
  obtain ⟨w, hw, haccepts⟩ := accepts_at hdrops hfirst hsplit
    ((tableStmts_old hold).trans (by simp [alterStmts, hns, Function.comp_def] : _ =
      ((addedColumns t oldCols).map (fun c => .alter t.key (.addColumn c.name c.typeSql)) ++
        ns.map fun name => .alter t.key (.dropColumn name)) ++
          .alter t.key (.dropColumn name) :: ms.map fun name => .alter t.key (.dropColumn name)))
  have hhas : w.schema.Has t.key [name] := by
    refine has_run hw.schema (hw.keeps ht hmem) hbefore fun hdrop => ?_
    rcases List.mem_append.1 hdrop with hdrop | hdrop
    · exact alter_not_mem_beforeStmts hdrops hsplit _ hdrop
    · exact hfresh (by simpa using hdrop)
  refine haccepts hhas p ?_ huses
  rw [LocalDatabase.run_policies hw.run, List.mem_filter, decide_eq_true_iff]
  refine ⟨hp, fun d hd hdrop => hnone ⟨d, hd, ?_⟩⟩
  rcases List.mem_append.1 hdrop with hdrop | hdrop
  · exact (dropTable_mem_iff hdrops).1 hdrop
  · simp at hdrop

theorem fitsOld_of_run (hdrops : DropOrder c.toUpstreamCatalog lines drops)
    (hfirst : run DdlServer.exec db (callStmts c.toUpstreamCatalog lines drops db.schema) = some r)
    (hsplit : c.tables = pre ++ t :: post) (hold : (oldColumns lines).lookup t.key = some oldCols) :
    FitsOld c.toUpstreamCatalog lines db pre t oldCols where
  added _ hcol hbefore := addColumn_of_run hdrops hfirst hsplit hold hcol hbefore
  gone _ hname hbefore _ hp huses := dropColumn_of_run hdrops hfirst hsplit hold hname hbefore hp huses

theorem Repeatable.retryable (h : Repeatable c.toUpstreamCatalog lines db)
    (hcompat : ∀ t ∈ c.tables, Compatible (oldColumns lines) t)
    (hold : ∀ key ∈ oldColumns lines, ∃ L, db.schema key = some (.table L)) :
    Retryable c.toUpstreamCatalog lines db := by
  obtain ⟨r, -, hr⟩ := h
  obtain ⟨drops, hdrops⟩ : ∃ drops, DropOrder c.toUpstreamCatalog lines drops :=
    ⟨_, List.Perm.refl _⟩
  have hrun : ∀ ps u, ps <+: callStmts c.toUpstreamCatalog lines drops db.schema →
      run DdlServer.exec db ps = some u →
      run DdlServer.exec u (callStmts c.toUpstreamCatalog lines drops u.schema) = some r := by
    intro ps u hps hu
    have hok := hr _ _ hdrops hdrops ps u hps hu
    rwa [applySchemaDeltaIn_eq hcompat, execAll_ok_iff] at hok
  have hfirst := hrun [] db List.nil_prefix rfl
  have hagain := hrun _ r List.prefix_rfl hfirst
  refine ⟨fitsNames_of_run hdrops hold (run_schema hfirst) fun l hl => ?_,
    fun ty hty hnone => type_of_run hfirst hty hnone,
    fun pre t post hsplit hnew => fitsNew_of_run hdrops hfirst hagain hsplit hnew,
    fun pre t post hsplit oldCols hlookup => fitsOld_of_run hdrops hfirst hsplit hlookup⟩
  obtain ⟨u, hu⟩ := run_prefix hfirst (List.prefix_append _ _)
  obtain rfl := Option.some.inj ((run_schema hu).symm.trans hl)
  exact run_schema (hrun _ u (List.prefix_append _ _) hu)

/-- **Repeating a schema change.** -/
theorem apply_schema_delta_repeatable_iff
    (hcompat : ∀ t ∈ c.tables, Compatible (oldColumns lines) t)
    (hold : ∀ key ∈ oldColumns lines, ∃ L, db.schema key = some (.table L)) :
    Repeatable c.toUpstreamCatalog lines db ↔ Retryable c.toUpstreamCatalog lines db := by
  constructor
  · intro h
    exact h.retryable hcompat hold
  · intro h
    exact h.repeatable hcompat hold

end Needed

/-! ## A schema change that can be repeated, and one that cannot -/

/-- The name of an index is the word before `ON`. One domain is `NOT NULL`. -/
def sqlReader : DdlReader where
  indexName i :=
    let words := i.sql.toList.splitOn ' '
    String.ofList ((words.takeWhile fun word => decide (word ≠ ['O', 'N'])).getLast?.getD [])
  knows _ := true
  refusesNull typeSql := decide (typeSql = "percent")

/-- The name of the composite type, before or after it took that of a table. -/
def typeName (renamed : Bool) : String := if renamed then "drafts" else "state"

/-- The table `labels` is new, and so is a column of `tasks`. -/
def tasksCatalog (renamed : Bool) : PgCatalog sqlReader where
  types := [.composite "public" (typeName renamed) [("code", "integer")]]
  tables :=
    [{ schema := "public"
       name := "labels"
       columns := [⟨"id", "integer", 23, true⟩, ⟨"name", "text", 25, false⟩]
       pk := ["id"]
       replicaIdentity := "d"
       rowFilter := none
       indexes := [⟨"CREATE INDEX labels_name_idx ON public.labels USING btree (name)",
        ["name"]⟩] },
     { schema := "public"
       name := "tasks"
       columns :=
        [⟨"id", "integer", 23, true⟩, ⟨"state", typeName renamed, 16400, false⟩,
          ⟨"note", "text", 25, false⟩]
       pk := ["id"]
       replicaIdentity := "d"
       rowFilter := none
       indexes := [] }]
  types_nodup := List.nodup_singleton _
  tables_nodup := by cases renamed <;> decide
  disjoint := by cases renamed <;> decide +kernel
  columns_nodup := by cases renamed <;> decide
  indexes_unique := by cases renamed <;> decide +kernel
  index_ne_table := by cases renamed <;> decide +kernel
  index_ne_composite := by cases renamed <;> decide +kernel

/-- The lines of the catalog before it, with a table `drafts` and a column `done`. -/
def tasksLines : List String := ["public|drafts|id:23", "public|tasks|id:23|done:16|state:16400"]

/-- What was built from that catalog, where the type was called `state`. -/
def tasksSchema : LocalSchema
  | ("public", "drafts") => some (.table ⟨[⟨"id", "integer", true⟩], ["id"], []⟩)
  | ("public", "tasks") =>
    some (.table ⟨[⟨"id", "integer", true⟩, ⟨"done", "boolean", false⟩, ⟨"state", "state", false⟩],
      ["id"], [⟨"CREATE INDEX tasks_done_idx ON public.tasks USING btree (done)", ["done"]⟩]⟩)
  | ("public", "state") => some (.type (.composite "public" "state" [("code", "integer")]))
  | _ => none

/-- The database with one row and these policies. -/
def tasksLocal (policies : List LocalPolicy) : LocalDatabase sqlReader where
  schema := tasksSchema
  rows k := if k = ("public", "tasks") then [setAll ∅ [("id", some "1"), ("done", some "t")]] else []
  indexes k :=
    if k = ("public", "tasks_done_idx") then
      some (("public", "tasks"),
        ⟨"CREATE INDEX tasks_done_idx ON public.tasks USING btree (done)", ["done"]⟩)
    else none
  policies := policies
  index_none := by
    intro k hk
    refine if_neg ?_
    rintro rfl
    revert hk
    decide

theorem tasksLines_lookup :
    (oldColumns tasksLines).keys = [("public", "tasks"), ("public", "drafts")] ∧
    (oldColumns tasksLines).lookup ("public", "tasks") =
      some [("id", 23), ("done", 16), ("state", 16400)] := by
  decide +kernel

theorem tasks_local (policies : List LocalPolicy) : ∀ key ∈ oldColumns tasksLines,
    ∃ L, (tasksLocal policies).schema key = some (.table L) := by
  intro key hkey
  have hkey : key ∈ (oldColumns tasksLines).keys := hkey
  rw [tasksLines_lookup.1, List.mem_cons, List.mem_singleton] at hkey
  rcases hkey with rfl | rfl
  · exact ⟨_, rfl⟩
  · exact ⟨_, rfl⟩

theorem tasks_compatible (renamed : Bool) :
    ∀ t ∈ (tasksCatalog renamed).tables, Compatible (oldColumns tasksLines) t := by
  have hlabels : (oldColumns tasksLines).lookup ("public", "labels") = none := by decide +kernel
  intro t ht oldCols hold
  simp only [tasksCatalog, List.mem_cons, List.not_mem_nil, or_false] at ht
  rcases ht with rfl | rfl
  · cases hlabels.symm.trans hold
  · obtain rfl := Option.some.inj (tasksLines_lookup.2.symm.trans hold)
    cases renamed <;> decide

/-- A policy on `tasks` that reads `drafts`, which is dropped, and uses `done`. -/
def draftsPolicy : LocalPolicy :=
  ⟨[("public", "tasks"), ("public", "drafts")],
    [(("public", "tasks"), "done"), (("public", "drafts"), "id")]⟩

theorem tasks_fit : FitsNames (tasksCatalog false).toUpstreamCatalog tasksLines tasksSchema := by
  constructor
  · decide +kernel
  · intro t ht hnew
    simp only [tasksCatalog, List.mem_cons, List.not_mem_nil, or_false] at ht
    rcases ht with rfl | rfl
    · exact ⟨fun ty h => (by cases h), ⟨⟨by decide, by decide⟩, by decide⟩⟩
    · exact absurd (by decide +kernel) hnew

theorem tasks_retryable :
    Retryable (tasksCatalog false).toUpstreamCatalog tasksLines (tasksLocal [draftsPolicy]) := by
  have hsplit : ∀ {a b t : TableDef} {pre post : List TableDef}, [a, b] = pre ++ t :: post →
      pre = [] ∧ t = a ∨ pre = [a] ∧ t = b := by
    intro a b t pre post h
    rcases pre with _ | ⟨p, _ | ⟨q, pre⟩⟩ <;> simp_all
  refine ⟨tasks_fit, ?_, ?_, ?_⟩
  · intro ty hty hnone
    obtain rfl := List.mem_singleton.1 hty
    cases hnone
  · intro pre t post htables hnew
    rcases hsplit htables with ⟨rfl, rfl⟩ | ⟨rfl, rfl⟩
    · have hnone : ∀ i ∈ (tasksCatalog false).tables.flatMap TableDef.indexes,
          (tasksLocal [draftsPolicy]).indexes ("public", sqlReader.indexName i) = none := by
        decide +kernel
      refine ⟨rfl, fun x hx => (by cases hx), fun i _ => rfl, ?_, ?_, fun i hi x hx => ?_⟩
      · decide +kernel
      · decide +kernel
      · rw [hnone i (List.mem_flatMap.2 ⟨_, List.mem_cons_self, hi⟩)] at hx
        cases hx
    · exact absurd (by decide +kernel) hnew
  · intro pre t post htables oldCols hold
    rcases hsplit htables with ⟨rfl, rfl⟩ | ⟨rfl, rfl⟩
    · have hlabels : (oldColumns tasksLines).lookup ("public", "labels") = none := by
        decide +kernel
      cases hlabels.symm.trans hold
    · obtain rfl := Option.some.inj (tasksLines_lookup.2.symm.trans hold)
      refine ⟨by decide +kernel, fun name _ _ p hp _ => ?_⟩
      obtain rfl := List.mem_singleton.1 hp
      refine ⟨("public", "drafts"), by decide, .inl ⟨?_, by decide⟩⟩
      decide +kernel

/-- The column `done` goes after the policy that uses it, and the index `labels_name_idx` is made on a
table of its own. -/
theorem apply_schema_delta_repeatable_tasks :
    Repeatable (tasksCatalog false).toUpstreamCatalog tasksLines (tasksLocal [draftsPolicy]) :=
  (apply_schema_delta_repeatable_iff (tasks_compatible false) (tasks_local _)).2 tasks_retryable

/-- The table `drafts` was dropped in the upstream, and the type took its name. An attempt in one go
leaves the type as it is. One that is repeated after the table is dropped fails. -/
theorem apply_schema_delta_not_repeatable_tasks :
    (∀ t ∈ (tasksCatalog true).tables, Compatible (oldColumns tasksLines) t) ∧
    (∀ key ∈ oldColumns tasksLines,
      ∃ L, (tasksLocal [draftsPolicy]).schema key = some (.table L)) ∧
    (applySchemaDelta (tasksCatalog true).types (tasksCatalog true).tables tasksLines
      (tasksLocal [draftsPolicy])).toOption.isSome = true ∧
    ¬Repeatable (tasksCatalog true).toUpstreamCatalog tasksLines (tasksLocal [draftsPolicy]) := by
  refine ⟨tasks_compatible true, tasks_local _, by decide +kernel, fun h => ?_⟩
  have hfits := (h.retryable (tasks_compatible true) (tasks_local _)).names
  exact hfits.types _ List.mem_cons_self (by decide +kernel)

/-- A policy on `tasks` alone keeps the column `done`, and each attempt fails on it. -/
example : (applySchemaDelta (tasksCatalog false).types (tasksCatalog false).tables tasksLines
    (tasksLocal [⟨[("public", "tasks")], [(("public", "tasks"), "done")]⟩])).toOption.isNone =
      true := by
  decide +kernel

end Pglite.Replica.Backfill
