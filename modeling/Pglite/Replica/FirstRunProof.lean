import Pglite.Replica.FirstRunTypes
import Pglite.Replica.RowsProof

/-!
# Restarting the first run

Once the types are created anew, an attempt that starts on what others left differs from one on an
empty database in the tables that are still to be dropped, and in the roles and memberships. The
loop over the tables ends the first difference, the loop that revokes the memberships the second.

Main result: `first_run_restarts`.
-/

namespace Pglite.Replica

open Runs Backfill Records

variable {srv : Server} {src : Source} {a b a' db db' : Database}

/-! ## Names -/

/-- A name stands for the same in both. -/
structure SameAt (a b : Database) (k : TableKey) : Prop where
  schema : a.schema k = b.schema k
  contents : a.contents k = b.contents k
  security : a.security.tables k = b.security.tables k

namespace Rebuilt

/-- What is under the names that no published table has. -/
theorem schema_eq (h : Rebuilt srv src src.catalog.types db) {k : TableKey}
    (hk : k ∉ src.catalog.tables.map TableDef.key) : db.schema k =
      if k = metaKey then some (.table metaTable)
      else (src.catalog.types.find? fun ty => decide (ty.key = k)).map .type := by
  split_ifs with hmeta
  · rw [hmeta, h.stateTable]
  · cases hfind : src.catalog.types.find? fun ty => decide (ty.key = k) with
    | some ty =>
      obtain rfl : ty.key = k := by simpa using List.find?_some hfind
      exact h.built ty (List.mem_of_find?_eq_some hfind)
    | none =>
      cases he : db.schema k with
      | none => rfl
      | some e =>
        cases e with
        | table L => exact ((h.leftover.tables k L he).elim hmeta hk).elim
        | type ty =>
          obtain ⟨ty', hty', hkey⟩ := List.mem_map.1 (h.leftover.type_mem he)
          simpa [hkey] using List.find?_eq_none.1 hfind ty' hty'

/-- Two states in which all types are created anew differ in published tables only. -/
theorem sameAt (ha : Rebuilt srv src src.catalog.types a) (hb : Rebuilt srv src src.catalog.types b)
    {k : TableKey} (hk : k ∉ src.catalog.tables.map TableDef.key) : SameAt a b k where
  schema := by rw [ha.schema_eq hk, hb.schema_eq hk]
  contents := by rw [ha.leftover.contents k hk, hb.leftover.contents k hk]
  security := by rw [ha.leftover.fresh k hk, hb.leftover.fresh k hk]

/-- Changes to published tables. -/
theorem of_frame (h : Rebuilt srv src src.catalog.types db)
    (hclear : metaKey ∉ src.catalog.tables.map TableDef.key)
    (hframe : ∀ k ∉ src.catalog.tables.map TableDef.key, SameAt db db' k)
    (htype : ∀ k ty, db'.schema k = some (.type ty) ↔ db.schema k = some (.type ty))
    (hsecurity : db'.security = { db.security with tables := db'.security.tables }) :
    Rebuilt srv src src.catalog.types db' := by
  have hstate : db'.schema metaKey = some (.table metaTable) := by
    rw [← (hframe metaKey hclear).schema, h.stateTable]
  obtain ⟨ts, hdone, hts, hordered, hall⟩ := h.longer
  have hkinds : ∀ k ty, db'.schema k = some (.type ty) → k ∈ ts.map TypeDef.key :=
    fun k ty hk => hall k ty ((htype k ty).1 hk)
  refine ⟨⟨.inr hstate, ⟨ts, hts, hordered, hkinds⟩, fun k L hk => ?_, fun k hk => ?_,
    fun k hk => ?_, ?_, ?_⟩, hstate, ⟨ts, hdone, hts, hordered, hkinds⟩, fun ty hty => ?_⟩
  · by_cases hmem : k ∈ src.catalog.tables.map TableDef.key
    · exact .inr hmem
    · rw [← (hframe k hmem).schema] at hk
      exact h.leftover.tables k L hk
  · rw [← (hframe k hk).contents, h.leftover.contents k hk]
  · rw [← (hframe k hk).security, h.leftover.fresh k hk]
  · rw [hsecurity]
    exact h.leftover.builtin
  · rw [hsecurity]
    exact h.leftover.begun.withTables _
  · exact (htype ty.key ty).2 (h.built ty hty)

end Rebuilt

/-! ## Tables -/

/-- A statement that makes and drops no type changes what its name stands for. -/
theorem plainDdl_frame {stmt : Ddl} (hspares : stmt.sparesTypes)
    (h : Server.plainDdl db stmt = some db') :
    (∀ k, stmt.key ≠ some k → SameAt db db' k) ∧
      (∀ k ty, db'.schema k = some (.type ty) ↔ db.schema k = some (.type ty)) ∧
      db'.security = { db.security with tables := db'.security.tables } := by
  obtain ⟨l, hl, rfl⟩ := Option.map_eq_some_iff.1 h
  refine ⟨fun k hk => ⟨?_, ?_, ?_⟩, fun k ty => exec_type hspares hl k ty, rfl⟩
  · rw [exec_eq_keyedStep] at hl
    exact (keyedStep_of_ne hk hl).symm
  · refine (onRows_of_ne fun htable => hk ?_).symm
    cases stmt with
    | dropTable t => exact htable
    | createTable t => exact htable
    | alter t stmt => exact htable
    | _ => cases htable
  · cases stmt with
    | dropTable t => exact (Function.update_of_ne (fun heq => hk (congrArg some heq.symm)) _ _).symm
    | createTable t =>
      exact (Function.update_of_ne (fun heq => hk (congrArg some heq.symm)) _ _).symm
    | _ => rfl

/-- What the second loop of `bootstrap_schema` executes. -/
theorem tableDdl_spec {t : Backfill.TableDef} {stmt : Ddl} (hstmt : stmt ∈ tableDdl t) :
    stmt.sparesTypes ∧ (∀ k, stmt.key = some k → k = t.key) ∧
      ∀ db db', srv.execDdl db stmt = some db' → Server.plainDdl db stmt = some db' := by
  simp only [tableDdl, schemaDdl, List.mem_append, List.mem_map, List.mem_cons,
    List.not_mem_nil, or_false] at hstmt
  rcases hstmt with (hschema | rfl | rfl) | ⟨i, -, rfl⟩
  · split_ifs at hschema
    · cases hschema
    · obtain rfl := List.mem_singleton.1 hschema
      exact ⟨trivial, fun k hk => (by cases hk), fun _ _ h => h⟩
  · exact ⟨trivial, fun k hk => (Option.some.inj hk).symm, fun _ _ h => h⟩
  · refine ⟨trivial, fun k hk => (Option.some.inj hk).symm, fun db db' h => ?_⟩
    exact (Option.ite_none_right_eq_some.1 h).2
  · exact ⟨trivial, fun k hk => (Option.some.inj hk).symm, fun _ _ h => h⟩

/-- Every state of the loop over the tables. -/
theorem Rebuilt.along_tables (h : Rebuilt srv src src.catalog.types db)
    (hclear : metaKey ∉ src.catalog.tables.map TableDef.key) :
    Along srv.execDdl (Rebuilt srv src src.catalog.types) db
      (src.catalog.tables.flatMap tableDdl) := by
  refine along_invariant (fun db stmt db' h hstmt hexec => ?_) h
  obtain ⟨t, ht, hstmt⟩ := List.mem_flatMap.1 hstmt
  obtain ⟨hspares, hkey, hplain⟩ := tableDdl_spec hstmt
  obtain ⟨hframe, htype, hsecurity⟩ := plainDdl_frame hspares (hplain db db' hexec)
  refine h.of_frame hclear (fun k hk => hframe k fun heq => ?_) htype hsecurity
  exact hk (hkey k heq ▸ List.mem_map_of_mem ht)

/-- A table that has just been created. -/
def Database.withTable (db : Database) (k : TableKey) (L : LocalTable) : Database where
  schema := Function.update db.schema k (some (.table L))
  contents := Function.update db.contents k []
  security := { db.security with tables := Function.update db.security.tables k .fresh }

/-- The types that are there. -/
theorem known_congr {l l' : LocalSchema} {keys : List TableKey}
    (h : ∀ k ty, l k = some (.type ty) ↔ l' k = some (.type ty)) :
    Known l keys ↔ Known l' keys := by
  have hany : ∀ l : LocalSchema, Known l keys ↔ ∀ k ∈ keys, ∃ ty, l k = some (.type ty) := by
    intro l
    refine forall₂_congr fun k _ => ?_
    cases l k with
    | none => simp
    | some e => cases e <;> simp
  rw [hany, hany]
  exact forall₂_congr fun k _ => exists_congr fun ty => h k ty

theorem known_update {l : LocalSchema} {keys : List TableKey} {k : TableKey} {e : Option Entity}
    (hl : ∀ ty, l k ≠ some (.type ty)) (he : ∀ ty, e ≠ some (.type ty)) :
    Known (Function.update l k e) keys ↔ Known l keys := by
  refine known_congr fun j ty => ?_
  by_cases hj : j = k
  · subst hj
    rw [Function.update_self]
    exact iff_of_false (he ty) (hl ty)
  · rw [Function.update_of_ne hj]

/-- The indexes of a new table. -/
theorem run_createIndexes_withTable {t : Backfill.TableDef} :
    run srv.execDdl (db.withTable t.key t.bare)
        (t.indexes.map fun index => .alter t.key (.createIndex index)) = some db' ↔
      (t.indexes.Nodup ∧ ∀ i ∈ t.indexes, i.columns ⊆ t.columnNames) ∧
        db' = db.withTable t.key t.full := by
  have hstep : ∀ (L : LocalTable) (index : IndexDef),
      srv.execDdl (db.withTable t.key L) (.alter t.key (.createIndex index)) =
        (L.exec (.createIndex index)).map (db.withTable t.key) := by
    intro L index
    cases hL : L.exec (.createIndex index) with
    | none => simp [Server.execDdl, Server.plainDdl, LocalSchema.exec, Database.withTable, hL]
    | some M =>
      simp [Server.execDdl, Server.plainDdl, LocalSchema.exec, Database.withTable, hL, Ddl.onRows,
        Ddl.onSecurity]
  have hid : ∀ (L : LocalTable) (index : IndexDef), LocalTable.exec (id L) (.createIndex index) =
      (L.exec (.createIndex index)).map id := fun L index => Option.map_id'.symm
  have hown : run (fun L index => LocalTable.exec L (.createIndex index)) t.bare t.indexes =
      run LocalTable.exec t.bare (t.indexes.map .createIndex) := by
    simpa using (run_map hid t.bare t.indexes).symm
  rw [run_map hstep, hown, Option.map_eq_some_iff]
  constructor
  · rintro ⟨L, hL, rfl⟩
    obtain ⟨hok, rfl⟩ := (run_createIndexes_iff List.nodup_nil).1 hL
    exact ⟨columnNames_bare t ▸ hok, rfl⟩
  · rintro ⟨hok, rfl⟩
    exact ⟨_, (run_createIndexes_iff List.nodup_nil).2 ⟨(columnNames_bare t).symm ▸ hok, rfl⟩, rfl⟩

/-- **A table** is created anew, whatever is there of it. -/
theorem run_tableDdl_iff {t : Backfill.TableDef} (hfree : ∀ ty, db.schema t.key ≠ some (.type ty)) :
    run srv.execDdl db (tableDdl t) = some db' ↔
      (Known db.schema (tableUses srv.typeNamed t.bare) ∧ t.Buildable) ∧
        db' = db.withTable t.key t.full := by
  have hdrop : srv.execDdl db (.dropTable t.key) = some ⟨Function.update db.schema t.key none,
      Function.update db.contents t.key [],
      { db.security with tables := Function.update db.security.tables t.key .fresh }⟩ := by
    simp only [Server.execDdl, Server.plainDdl, LocalSchema.exec]
    cases he : db.schema t.key with
    | none => rfl
    | some e =>
      cases e with
      | table L => rfl
      | type ty => exact absurd he (hfree ty)
  have hcreate : ∀ u, srv.execDdl ⟨Function.update db.schema t.key none,
      Function.update db.contents t.key [],
      { db.security with tables := Function.update db.security.tables t.key .fresh }⟩ (.createTable t) = some u ↔
      (Known db.schema (tableUses srv.typeNamed t.bare) ∧ t.WellFormed) ∧
        u = db.withTable t.key t.bare := by
    intro u
    have hnone : ∀ ty, (none : Option Entity) ≠ some (.type ty) := fun ty h => by cases h
    simp [Server.execDdl, Server.plainDdl, LocalSchema.exec, known_update hfree hnone,
      Database.withTable, Ddl.onRows, Ddl.onSecurity, and_assoc, eq_comm]
  rw [tableDdl, List.append_assoc, run_schemaDdl_append, List.cons_append, List.cons_append,
    List.nil_append, run_cons_eq_some]
  simp only [hdrop, Option.some.injEq, exists_eq_left', run_cons_eq_some, hcreate]
  constructor
  · rintro ⟨u, ⟨⟨hknown, hwf⟩, rfl⟩, hrun⟩
    obtain ⟨⟨hnodup, hindexed⟩, rfl⟩ := run_createIndexes_withTable.1 hrun
    exact ⟨⟨hknown, ⟨⟨hwf, hnodup⟩, hindexed⟩⟩, rfl⟩
  · rintro ⟨⟨hknown, hbuild⟩, rfl⟩
    exact ⟨_, ⟨⟨hknown, hbuild.wellFormed⟩, rfl⟩,
      run_createIndexes_withTable.2 ⟨⟨hbuild.indexes_nodup, hbuild.indexed⟩, rfl⟩⟩

/-- Tables that have just been created. -/
def Database.withTables (db : Database) (ts : List Backfill.TableDef) : Database :=
  ts.foldl (fun db t => db.withTable t.key t.full) db

theorem withTable_not_type {k j : TableKey} {L : LocalTable} {ty : TypeDef}
    (h : db.schema j ≠ some (.type ty)) : (db.withTable k L).schema j ≠ some (.type ty) := by
  by_cases hj : j = k
  · subst hj
    simp [Database.withTable]
  · exact (congrArg (· ≠ _) (Function.update_of_ne hj _ _)).mpr h

/-- **The loop over the tables** succeeds or fails by the types that are there. -/
theorem run_tables_iff {ts : List Backfill.TableDef}
    (hfree : ∀ t ∈ ts, ∀ ty, db.schema t.key ≠ some (.type ty)) :
    run srv.execDdl db (ts.flatMap tableDdl) = some db' ↔
      (∀ t ∈ ts, Known db.schema (tableUses srv.typeNamed t.bare) ∧ t.Buildable) ∧
        db' = db.withTables ts := by
  induction ts generalizing db with
  | nil => simp [Database.withTables, eq_comm]
  | cons t ts ih =>
    rw [List.forall_mem_cons] at hfree
    have hfree' : ∀ t' ∈ ts, ∀ ty, (db.withTable t.key t.full).schema t'.key ≠ some (.type ty) :=
      fun t' ht' ty => withTable_not_type (hfree.2 t' ht' ty)
    have hrest := ih hfree'
    have hknown : ∀ keys, Known (db.withTable t.key t.full).schema keys ↔ Known db.schema keys :=
      fun keys => known_update hfree.1 fun ty h => by cases h
    simp only [List.flatMap_cons, run_append_eq_some, run_tableDdl_iff hfree.1,
      List.forall_mem_cons, and_assoc]
    constructor
    · rintro ⟨u, hfirst, hbuild, rfl, hrun⟩
      obtain ⟨hall, rfl⟩ := hrest.1 hrun
      exact ⟨hfirst, hbuild, fun t' ht' => ⟨(hknown _).1 (hall t' ht').1, (hall t' ht').2⟩, rfl⟩
    · rintro ⟨hfirst, hbuild, hall, rfl⟩
      exact ⟨_, hfirst, hbuild, rfl,
        hrest.2 ⟨fun t' ht' => ⟨(hknown _).2 (hall t' ht').1, (hall t' ht').2⟩, rfl⟩⟩

/-- After the loop, what was under the names of the tables before does not matter. -/
theorem SameAt.withTables {ts : List Backfill.TableDef} {k : TableKey}
    (h : k ∉ ts.map TableDef.key → SameAt a b k) : SameAt (a.withTables ts) (b.withTables ts) k := by
  induction ts generalizing a b with
  | nil => exact h List.not_mem_nil
  | cons t ts ih =>
    refine ih fun hk => ?_
    by_cases hkey : k = t.key
    · subst hkey
      exact ⟨by simp [Database.withTable], by simp [Database.withTable],
        by simp [Database.withTable]⟩
    · have hsame := h (by simp [hkey, hk])
      exact ⟨by simpa [Database.withTable, hkey] using hsame.schema,
        by simpa [Database.withTable, hkey] using hsame.contents,
        by simpa [Database.withTable, hkey] using hsame.security⟩

theorem contents_withTables {ts : List Backfill.TableDef} {k : TableKey}
    (h : k ∉ ts.map TableDef.key → db.contents k = []) : (db.withTables ts).contents k = [] := by
  induction ts generalizing db with
  | nil => exact h List.not_mem_nil
  | cons t ts ih =>
    refine ih fun hk => ?_
    by_cases hkey : k = t.key
    · simp [Database.withTable, hkey]
    · simpa [Database.withTable, hkey] using h (by simp [hkey, hk])

theorem security_withTables (db : Database) (ts : List Backfill.TableDef) :
    (db.withTables ts).security =
      { db.security with tables := (db.withTables ts).security.tables } := by
  induction ts generalizing db with
  | nil => rfl
  | cons t ts ih => exact ih (db.withTable t.key t.full)

/-- The same with these roles and memberships. -/
def Database.withRoles (db : Database) (roles : List RoleDef) (members : List Membership) :
    Database :=
  { db with security := { db.security with roles := roles, members := members } }

@[simp] theorem withRoles_schema (roles : List RoleDef) (members : List Membership) :
    (db.withRoles roles members).schema = db.schema := rfl

@[simp] theorem withRoles_contents (roles : List RoleDef) (members : List Membership) :
    (db.withRoles roles members).contents = db.contents := rfl

/-- Only roles and memberships tell the two apart. -/
theorem eq_withRoles (h : ∀ k, SameAt a b k) (hbuiltin : a.security.builtin = b.security.builtin) :
    b = a.withRoles b.security.roles b.security.members := by
  obtain ⟨schema, contents, builtin, roles, members, tables⟩ := b
  obtain rfl : builtin = a.security.builtin := hbuiltin.symm
  obtain rfl : schema = a.schema := funext fun k => (h k).schema.symm
  obtain rfl : contents = a.contents := funext fun k => (h k).contents.symm
  obtain rfl : tables = a.security.tables := funext fun k => (h k).security.symm
  rfl

/-- **The loop over the tables** ends with the same tables wherever it starts, and without rows. -/
theorem Rebuilt.run_tables (ha : Rebuilt srv src src.catalog.types a)
    (hb : Rebuilt srv src src.catalog.types b)
    (hrun : run srv.execDdl a (src.catalog.tables.flatMap tableDdl) = some a') :
    run srv.execDdl b (src.catalog.tables.flatMap tableDdl) =
        some (a'.withRoles b.security.roles b.security.members) ∧ ∀ k, a'.contents k = [] := by
  have hfreea : ∀ t ∈ src.catalog.tables, ∀ ty, a.schema t.key ≠ some (.type ty) :=
    fun t ht ty => ha.leftover.not_type ht ty
  have hfreeb : ∀ t ∈ src.catalog.tables, ∀ ty, b.schema t.key ≠ some (.type ty) :=
    fun t ht ty => hb.leftover.not_type ht ty
  obtain ⟨hall, rfl⟩ := (run_tables_iff hfreea).1 hrun
  have hknown : ∀ keys, Known a.schema keys ↔ Known b.schema keys := by
    refine fun keys => known_congr fun k ty => ?_
    by_cases hk : k ∈ src.catalog.tables.map TableDef.key
    · obtain ⟨t, ht, rfl⟩ := List.mem_map.1 hk
      exact iff_of_false (hfreea t ht ty) (hfreeb t ht ty)
    · rw [(ha.sameAt hb hk).schema]
  refine ⟨(run_tables_iff hfreeb).2
    ⟨fun t ht => ⟨(hknown _).1 (hall t ht).1, (hall t ht).2⟩, ?_⟩, fun k => ?_⟩
  · have hbuiltin : (a.withTables src.catalog.tables).security.builtin =
        (b.withTables src.catalog.tables).security.builtin := by
      rw [security_withTables a, security_withTables b]
      exact ha.leftover.builtin.trans hb.leftover.builtin.symm
    have heq := eq_withRoles (fun k => SameAt.withTables (k := k) (ha.sameAt hb)) hbuiltin
    rw [security_withTables b] at heq
    exact heq.symm
  · exact contents_withTables (ha.leftover.contents k)

/-! ## Rows -/

/-- The rows of the tables, batch by batch. -/
def Source.batchList (batches : src.Batches) : List (TableKey × List Row) :=
  src.catalog.tables.flatMap fun t => (batches.of t.key).map (Prod.mk t.key)

def Server.copyBatch (srv : Server) (db : Database) (p : TableKey × List Row) : Option Database :=
  srv.copyIn db p.1 p.2

theorem copyStmts_eq (batches : src.Batches) : src.copyStmts batches =
    (Source.batchList batches).map fun p => .copyIn p.1 p.2 := by
  rw [Source.copyStmts, Source.batchList, List.map_flatMap]
  exact List.flatMap_congr fun t _ => by rw [List.map_map]; rfl

theorem copyBatch_eq_some {p : TableKey × List Row} (h : srv.copyBatch db p = some db') :
    db' = { db with contents := Function.update db.contents p.1 (db.contents p.1 ++ p.2) } := by
  simp only [Server.copyBatch, Server.copyIn] at h
  split at h
  · exact (Option.some.inj (Option.ite_none_right_eq_some.1 h).2).symm
  · cases h

/-- Every state of `copy_tables`. -/
theorem Rebuilt.along_copy (h : Rebuilt srv src src.catalog.types db)
    (hclear : metaKey ∉ src.catalog.tables.map TableDef.key) (batches : src.Batches) :
    Along srv.copyBatch (Rebuilt srv src src.catalog.types) db (Source.batchList batches) := by
  refine along_invariant (fun db p db' h hp hcopy => ?_) h
  obtain ⟨t, ht, hp⟩ := List.mem_flatMap.1 hp
  obtain ⟨rows, -, rfl⟩ := List.mem_map.1 hp
  obtain rfl := copyBatch_eq_some hcopy
  refine h.of_frame hclear (fun k hk => ⟨rfl, ?_, rfl⟩) (fun k ty => Iff.rfl) rfl
  have hne : k ≠ t.key := fun heq => hk (heq ▸ List.mem_map_of_mem ht)
  exact (Function.update_of_ne hne _ _).symm

/-- `COPY` does not look at roles. -/
theorem run_copy_withRoles (db : Database) (roles : List RoleDef) (members : List Membership)
    (ps : List (TableKey × List Row)) : run srv.copyBatch (db.withRoles roles members) ps =
      (run srv.copyBatch db ps).map fun db => db.withRoles roles members := by
  have hstep : ∀ (db : Database) p, srv.copyBatch (db.withRoles roles members) p =
      (srv.copyBatch db p).map fun db => db.withRoles roles members := by
    intro db p
    simp only [Server.copyBatch, Server.copyIn, withRoles_schema, withRoles_contents]
    split
    · next L _ =>
      by_cases haccepts : srv.accepts L (db.contents p.1) p.2 = true
      · simp [haccepts, Database.withRoles]
      · simp [haccepts]
    · rfl
  exact (congrArg _ (List.map_id ps).symm).trans (run_map hstep db ps)

/-- What `COPY` appends to a table. -/
theorem run_copy_contents {ps : List (TableKey × List Row)}
    (hrun : run srv.copyBatch db ps = some db') : db'.schema = db.schema ∧
      db'.security = db.security ∧ ∀ k, db'.contents k = db.contents k ++
        ((ps.filter fun p => decide (some p.1 = some k)).map Prod.snd).flatten := by
  induction ps generalizing db with
  | nil =>
    obtain rfl := Option.some.inj hrun
    exact ⟨rfl, rfl, fun k => by simp⟩
  | cons p ps ih =>
    obtain ⟨u, hu, hrun⟩ := run_cons_eq_some.1 hrun
    obtain rfl := copyBatch_eq_some hu
    obtain ⟨hschema, hsecurity, hcontents⟩ := ih hrun
    refine ⟨hschema, hsecurity, fun k => ?_⟩
    rw [hcontents k]
    by_cases hk : p.1 = k
    · subst hk
      simp
    · simp [hk, Function.update_of_ne (Ne.symm hk)]

/-- **The rows** of a published table, after `copy_tables` on empty tables. -/
theorem run_copy_rows {batches : src.Batches} (hempty : ∀ k, db.contents k = [])
    (hrun : run srv.copyBatch db (Source.batchList batches) = some db') {t : Backfill.TableDef}
    (ht : t ∈ src.catalog.tables) : db'.contents t.key = src.rows t.key := by
  obtain ⟨-, -, hcontents⟩ := run_copy_contents hrun
  have hown : ∀ t ∈ src.catalog.tables,
      ∀ p ∈ (batches.of t.key).map (Prod.mk t.key), ∀ k, some p.1 = some k → k = t.key := by
    intro t _ p hp k hk
    obtain ⟨rows, -, rfl⟩ := List.mem_map.1 hp
    exact (Option.some.inj hk).symm
  have hfilter : (Source.batchList batches).filter (fun p => decide (some p.1 = some t.key)) =
      ((batches.of t.key).map (Prod.mk t.key)).filter fun p => decide (some p.1 = some t.key) :=
    filter_flatMap_key src.catalog.tables_nodup hown ht
  rw [hcontents, hempty, hfilter]
  simp [List.filter_map, Function.comp_def, batches.flatten]

/-! ## The state table -/

/-- `ensure_meta_table` creates the state table, or finds it as it should be. -/
theorem Leftover.createMeta (h : Leftover srv src db) : ∃ db', db.createMeta = some db' ∧
    Leftover srv src db' ∧ db'.schema metaKey = some (.table metaTable) ∧
    db'.security.roles = db.security.roles ∧ db'.security.members = db.security.members := by
  rcases h.stateTable with hnone | hsome
  · let u : Database := {
      schema := Function.update db.schema metaKey (some (.table metaTable))
      contents := Function.update db.contents metaKey []
      security := { db.security with
        tables := Function.update db.security.tables metaKey .fresh } }
    have hcreate : db.createMeta = some u := by simp [Database.createMeta, hnone, u]
    have hstate : u.schema metaKey = some (.table metaTable) := by simp [u]
    have hother : ∀ k, k ≠ metaKey → u.schema k = db.schema k := fun k hk =>
      Function.update_of_ne hk _ _
    refine ⟨u, hcreate, ⟨.inr hstate, ?_, fun k L hk => ?_, fun k hk => ?_, fun k hk => ?_,
      h.builtin, h.begun.withTables _⟩, hstate, rfl, rfl⟩
    · obtain ⟨ts, hts, hordered, hall⟩ := h.types
      refine ⟨ts, hts, hordered, fun k ty hk => ?_⟩
      by_cases hmeta : k = metaKey
      · subst hmeta
        rw [hstate] at hk
        cases hk
      · rw [hother k hmeta] at hk
        exact hall k ty hk
    · by_cases hmeta : k = metaKey
      · exact .inl hmeta
      · rw [hother k hmeta] at hk
        exact h.tables k L hk
    · change Function.update db.contents metaKey [] k = []
      by_cases hmeta : k = metaKey
      · subst hmeta
        exact Function.update_self ..
      · rw [Function.update_of_ne hmeta, h.contents k hk]
    · change Function.update db.security.tables metaKey .fresh k = .fresh
      by_cases hmeta : k = metaKey
      · subst hmeta
        exact Function.update_self ..
      · rw [Function.update_of_ne hmeta, h.fresh k hk]
  · exact ⟨db, by simp [Database.createMeta, hsome], h, hsome, rfl, rfl⟩

/-- A column that is there is not added. -/
theorem addMeta_eq_self (hstate : db.schema metaKey = some (.table metaTable)) {name : String}
    (hname : name ∈ metaTable.columnNames) (typeSql value : String) :
    db.addMeta name typeSql value = some db := by
  simp [Database.addMeta, hstate, hname]

/-- A state table without rows holds no state. -/
theorem loadState_none (hstate : db.schema metaKey = some (.table metaTable))
    (hempty : db.contents metaKey = []) : db.loadState = .ok none := by
  have hcolumns : Database.metaColumns ⊆ metaTable.columnNames := by decide
  have hrow : db.metaRow = some none := by simp [Database.metaRow, hstate, hcolumns, hempty]
  rw [Database.loadState, hrow]
  rfl

/-- The row that `init_state` inserts. -/
def stateRow (st : ReplicaState) : Row :=
  setAll ∅ (("id", some "1") :: Database.metaValues st ++
    [("security_version", some "0"), ("security_fingerprint", some "")])

/-- The row after `bump_security`. -/
def bumpedRow (st : ReplicaState) (securityFp : String) : Row :=
  setAll (stateRow st) (Database.bumpValues securityFp (stateRow st))

theorem lookup_stateRow (st : ReplicaState) : (stateRow st).lookup "id" = some "1" := by
  simp [stateRow, lookup_setAll, Database.metaValues, List.lookup_cons]

/-- Both keep what `load_state` reads. -/
theorem lookup_bumpedRow (st : ReplicaState) (securityFp : String) :
    (bumpedRow st securityFp).lookup "id" = some "1" ∧
      (bumpedRow st securityFp).lookup "slot_name" = some st.slotName ∧
      (bumpedRow st securityFp).lookup "publication" = some st.publication ∧
      (bumpedRow st securityFp).lookup "watermark_lsn" = some st.watermark.toPgStr ∧
      (bumpedRow st securityFp).lookup "fingerprint" = some st.fingerprint := by
  refine ⟨?_, ?_, ?_, ?_, ?_⟩ <;>
    simp [bumpedRow, stateRow, lookup_setAll, Database.metaValues, Database.bumpValues,
      List.lookup_cons]

/-- **The state is stored** by `init_state`, and `bump_security` keeps it. -/
theorem exists_written (hstate : db.schema metaKey = some (.table metaTable))
    (hempty : db.contents metaKey = []) (st : ReplicaState) (securityFp : String) :
    ∃ u v, db.initState st = some u ∧ u.bumpSecurity securityFp = some v ∧
      v.loadState = .ok (some st) ∧ ∀ k ≠ metaKey, v.contents k = db.contents k := by
  have hcolumns : Database.metaColumns ⊆ metaTable.columnNames := by decide
  have hbump : ["id", "security_version", "security_fingerprint"] ⊆ metaTable.columnNames := by
    decide
  let u : Database := { db with contents := Function.update db.contents metaKey [stateRow st] }
  let v : Database :=
    { db with contents := Function.update db.contents metaKey [bumpedRow st securityFp] }
  have hu : db.initState st = some u := by
    simp [Database.initState, hstate, hcolumns, hempty, u, stateRow]
  have hv : u.bumpSecurity securityFp = some v := by
    simp [Database.bumpSecurity, u, v, hstate, hbump, lookup_stateRow, bumpedRow]
  obtain ⟨hid, hslot, hpublication, hwatermark, hfingerprint⟩ := lookup_bumpedRow st securityFp
  have hrow : v.metaRow =
      some (some ⟨st.slotName, st.publication, st.watermark.toPgStr, st.fingerprint⟩) := by
    simp [Database.metaRow, v, hstate, hcolumns, hid, hslot, hpublication, hwatermark,
      hfingerprint]
  refine ⟨u, v, hu, hv, ?_, fun k hk => Function.update_of_ne hk _ _⟩
  rw [Database.loadState, hrow]
  simp [Db.loadState, Lsn.fromPgStr_toPgStr, bind, Except.bind]

/-! ## One attempt -/

/-- `first_run` from the slot to the last `COPY`, on the local database. -/
def load (srv : Server) (batches : src.Batches) (db : Database) : Option Database :=
  (run srv.execDdl db src.schemaStmts).bind fun db =>
    run srv.copyBatch db (Source.batchList batches)

theorem execDdl_security {stmt : Ddl} (h : srv.execDdl db stmt = some db') :
    db'.security = { db.security with tables := db'.security.tables } := by
  have hplain : ∀ {stmt}, Server.plainDdl db stmt = some db' →
      db'.security = { db.security with tables := db'.security.tables } := by
    intro stmt h
    obtain ⟨l, -, rfl⟩ := Option.map_eq_some_iff.1 h
    rfl
  cases stmt with
  | dropType ty =>
    simp only [Server.execDdl] at h
    split at h
    · cases h
    · obtain rfl := Option.some.inj h
      exact (srv.cascade_security db ty.key).1
    · obtain rfl := Option.some.inj h
      rfl
  | createType ty => exact hplain (Option.ite_none_right_eq_some.1 h).2
  | createTable t => exact hplain (Option.ite_none_right_eq_some.1 h).2
  | createSchema schema => exact hplain h
  | dropTable t => exact hplain h
  | alter t stmt => exact hplain h

theorem run_execDdl_security {stmts : List Ddl} (h : run srv.execDdl db stmts = some db') :
    db'.security = { db.security with tables := db'.security.tables } := by
  refine run_invariant' (I := fun u => u.security =
    { db.security with tables := u.security.tables }) (fun u stmt u' hu hexec => ?_) rfl h
  rw [execDdl_security hexec, hu]

section Load

variable {batches : src.Batches}

/-- **Loading** on what is left, and on anything else that could be left. -/
theorem Leftover.load (ha : Leftover srv src a) (hclear : src.Clear)
    (hstate : a.schema metaKey = some (.table metaTable)) (hload : load srv batches a = some a') :
    Rebuilt srv src src.catalog.types a' ∧
      (∀ t ∈ src.catalog.tables, a'.contents t.key = src.rows t.key) ∧
      ∀ b, Leftover srv src b → b.schema metaKey = some (.table metaTable) →
        Replica.load srv batches b = some (a'.withRoles b.security.roles b.security.members) := by
  obtain ⟨a₂, hschema, hcopy⟩ := Option.bind_eq_some_iff.1 hload
  obtain ⟨a₁, htypes, htables⟩ := run_append_eq_some.1 hschema
  have ha₁ := (ha.rebuilt hstate).of_run_types rfl htypes
  have ha₂ := ha₁.along_tables hclear.1 _ a₂ List.prefix_rfl htables
  have hempty : ∀ k, a₂.contents k = [] := (ha₁.run_tables ha₁ htables).2
  refine ⟨ha₂.along_copy hclear.1 batches _ a' List.prefix_rfl hcopy,
    fun t ht => run_copy_rows hempty hcopy ht, fun b hb hstateb => ?_⟩
  obtain ⟨ts, hts, hts', hordered, -⟩ := ha₁.longer
  have hmeta : ∀ ty ∈ src.catalog.types, ty.key ≠ metaKey := by
    intro ty hty hkey
    have hbuilt := ha₁.built ty hty
    rw [hkey, ha₁.stateTable] at hbuilt
    cases hbuilt
  obtain ⟨b₁, htypesb⟩ :=
    (hb.rebuilt hstateb).exists_run_types rfl (hordered.of_prefix hts) hmeta
  have hb₁ := (hb.rebuilt hstateb).of_run_types rfl htypesb
  obtain ⟨htablesb, -⟩ := ha₁.run_tables hb₁ htables
  rw [run_execDdl_security htypesb] at htablesb
  refine Option.bind_eq_some_iff.2 ⟨_, run_append_eq_some.2 ⟨b₁, htypesb, htablesb⟩, ?_⟩
  rw [run_copy_withRoles, hcopy, Option.map_some]

end Load

/-- The part of the statements that works on the local database. -/
theorem run_ddl (slot : Option Lsn) (db : Database) (stmts : List Ddl) :
    run (Setting.exec srv) ⟨slot, db⟩ (stmts.map .ddl) =
      (run srv.execDdl db stmts).map (Setting.mk slot) :=
  run_map (fun _ _ => rfl) db stmts

theorem run_copy (slot : Option Lsn) (db : Database) (batches : src.Batches) :
    run (Setting.exec srv) ⟨slot, db⟩ (src.copyStmts batches) =
      (run srv.copyBatch db (Source.batchList batches)).map (Setting.mk slot) := by
  rw [copyStmts_eq]
  exact run_map (fun _ _ => rfl) db _

/-- The setting with this security state. -/
def withSecurity (slot : Option Lsn) (db : Database) (l : LocalSecurity) : Setting :=
  ⟨slot, { db with security := l }⟩

theorem exec_security (slot : Option Lsn) (db : Database) (l : LocalSecurity)
    (stmt : SecurityStmt) : Setting.exec srv (withSecurity slot db l) (.security stmt) =
      (Server.execSecurity db.isTable l stmt).map (withSecurity slot db) := rfl

theorem run_security (slot : Option Lsn) (db : Database) (stmts : List SecurityStmt) :
    run (Setting.exec srv) ⟨slot, db⟩ (stmts.map .security) =
      (run (Server.execSecurity db.isTable) db.security stmts).map
        (withSecurity slot db) :=
  run_map (exec_security slot db) db.security stmts

theorem run_slotStmts (w : Setting) (consistentPoint : Lsn) :
    run (Setting.exec srv) w (Source.slotStmts w.slot consistentPoint) =
      some ⟨some consistentPoint, w.db⟩ := by
  obtain ⟨slot, db⟩ := w
  cases slot <;> rfl

/-- **Loading**, from the slot on. -/
theorem run_loadStmts (batches : src.Batches) (consistentPoint : Lsn) (w : Setting) :
    run (Setting.exec srv) w (src.loadStmts batches consistentPoint w) =
      (load srv batches w.db).map (Setting.mk (some consistentPoint)) := by
  rw [Source.loadStmts, List.append_assoc, run_append_of (run_slotStmts w consistentPoint)]
  apply Option.ext
  intro u
  rw [run_append_eq_some, run_ddl, load]
  simp only [Option.map_eq_some_iff, Option.bind_eq_some_iff]
  constructor
  · rintro ⟨_, ⟨db, hschema, rfl⟩, hrun⟩
    rw [run_copy, Option.map_eq_some_iff] at hrun
    obtain ⟨db', hcopy, rfl⟩ := hrun
    exact ⟨db', ⟨db, hschema, hcopy⟩, rfl⟩
  · rintro ⟨db', ⟨db, hschema, hcopy⟩, rfl⟩
    exact ⟨_, ⟨db, hschema, rfl⟩, by rw [run_copy, hcopy]; rfl⟩

/-! ## Every crash point -/

section Along

variable {w w' u : Setting} {batches : src.Batches} {consistentPoint : Lsn}

theorem along_slotStmts {P : Database → Prop} (h : P w.db) :
    Along (Setting.exec srv) (fun u => P u.db) w (Source.slotStmts w.slot consistentPoint) := by
  refine along_invariant (fun u stmt u' hu hstmt hexec => ?_) h
  have hdb : u'.db = u.db := by
    rcases List.mem_append.1 hstmt with hstmt | hstmt
    · split_ifs at hstmt
      · obtain rfl := List.mem_singleton.1 hstmt
        simp only [Setting.exec, Option.ite_none_right_eq_some, Option.some.injEq] at hexec
        obtain ⟨-, rfl⟩ := hexec
        rfl
      · cases hstmt
    · obtain rfl := List.mem_singleton.1 hstmt
      simp only [Setting.exec, Option.ite_none_left_eq_some, Option.some.injEq] at hexec
      obtain ⟨-, rfl⟩ := hexec
      rfl
  rwa [hdb]

theorem Leftover.along_schemaStmts (h : Leftover srv src db) (hclear : src.Clear)
    (hstate : db.schema metaKey = some (.table metaTable)) :
    Along srv.execDdl (Leftover srv src) db src.schemaStmts := by
  refine Along.append ((h.rebuilt hstate).along_types rfl) fun db' hrun => ?_
  exact (((h.rebuilt hstate).of_run_types rfl hrun).along_tables hclear.1).mono
    fun _ h => h.leftover

/-- Every state up to the last `COPY`. -/
theorem Leftover.along_loadStmts (h : Leftover srv src w.db) (hclear : src.Clear)
    (hstate : w.db.schema metaKey = some (.table metaTable)) :
    Along (Setting.exec srv) (fun u => Leftover srv src u.db) w
      (src.loadStmts batches consistentPoint w) := by
  rw [Source.loadStmts, List.append_assoc]
  refine Along.append (along_slotStmts h) fun u hu => ?_
  obtain rfl := Option.some.inj ((run_slotStmts w consistentPoint).symm.trans hu)
  refine Along.append (Along.map (fun _ _ => rfl) (h.along_schemaStmts hclear hstate))
    fun u hu => ?_
  rw [run_ddl] at hu
  obtain ⟨db, hschema, rfl⟩ := Option.map_eq_some_iff.1 hu
  obtain ⟨db₁, htypes, htables⟩ := run_append_eq_some.1 hschema
  have hdb := ((h.rebuilt hstate).of_run_types rfl htypes).along_tables hclear.1 _ db
    List.prefix_rfl htables
  rw [copyStmts_eq]
  exact Along.map (fun _ _ => rfl) ((hdb.along_copy hclear.1 batches).mono fun _ h => h.leftover)

/-- What `reconcile_security` makes of what is left can be left. -/
theorem Leftover.withSecurity (h : Leftover srv src db) (hclear : src.Clear) {l : LocalSecurity}
    (hbegun : Begun src.security l) (hbuiltin : l.builtin = db.security.builtin)
    (htables : ∀ k, (k ∈ src.security.tables.map RlsFlag.key → db.isTable k = false) →
      l.tables k = db.security.tables k) : Leftover srv src { db with security := l } := by
  refine ⟨h.stateTable, h.types, h.tables, h.contents, fun k hk => ?_,
    hbuiltin.trans h.builtin, hbegun⟩
  refine (htables k fun hkey => ?_).trans (h.fresh k hk)
  rw [Database.isTable]
  cases he : db.schema k with
  | none => rfl
  | some e =>
    cases e with
    | type ty => rfl
    | table L =>
      rcases h.tables k L he with rfl | hmem
      · exact (hclear.2 hkey).elim
      · exact (hk hmem).elim

/-- Every state before `init_state`. -/
theorem Leftover.along_firstRunStmts (h : Leftover srv src w.db) (hclear : src.Clear)
    (hstate : w.db.schema metaKey = some (.table metaTable)) :
    Along (Setting.exec srv) (fun u => Leftover srv src u.db) w
      (src.firstRunStmts srv batches consistentPoint w) := by
  refine Along.append (h.along_loadStmts hclear hstate) fun u hu => ?_
  rw [hu, Option.elim_some]
  rw [run_loadStmts] at hu
  obtain ⟨db, hload, rfl⟩ := Option.map_eq_some_iff.1 hu
  have hdb := (h.load hclear hstate hload).1.leftover
  refine Along.map (exec_security (some consistentPoint) db)
    ((hdb.begun.along_reconcile src.roles_nodup).mono fun l hl => ?_)
  exact hdb.withSecurity hclear hl.1 hl.2.1 hl.2.2

/-- `ensure_meta_table`, on what is left. -/
theorem Leftover.run_metaStmts (h : Leftover srv src w.db) (hclear : src.Clear) : ∃ db,
    Source.FindsNone srv w ⟨w.slot, db⟩ ∧ Leftover srv src db ∧
      db.schema metaKey = some (.table metaTable) ∧
      db.security.roles = w.db.security.roles ∧ db.security.members = w.db.security.members ∧
      Along (Setting.exec srv) (fun u => Leftover srv src u.db) w Source.metaStmts := by
  obtain ⟨db, hcreate, hdb, hstate, hroles, hmembers⟩ := h.createMeta
  have hfirst : Setting.exec srv w .createMeta = some ⟨w.slot, db⟩ := by
    rw [Setting.exec, hcreate]
    rfl
  have hadd : ∀ name ∈ metaTable.columnNames, ∀ typeSql value,
      Setting.exec srv ⟨w.slot, db⟩ (.addMeta name typeSql value) = some ⟨w.slot, db⟩ := by
    intro name hname typeSql value
    rw [Setting.exec, addMeta_eq_self hstate hname]
    rfl
  have hversion := hadd "security_version" (by decide) "bigint" "0"
  have hfingerprint := hadd "security_fingerprint" (by decide) "text" ""
  refine ⟨db, ⟨?_, loadState_none hstate (hdb.contents metaKey hclear.1)⟩, hdb, hstate, hroles,
    hmembers, ?_⟩
  · exact run_cons_eq_some.2 ⟨_, hfirst, run_cons_eq_some.2 ⟨_, hversion,
      run_cons_eq_some.2 ⟨_, hfingerprint, rfl⟩⟩⟩
  · exact (along_cons hfirst).2 ⟨h, (along_cons hversion).2 ⟨hdb,
      (along_cons hfingerprint).2 ⟨hdb, along_nil.2 hdb⟩⟩⟩

/-- **Whatever** the earlier attempts came to, it is known what they leave. -/
theorem Source.Interrupted.leftover (h : src.Interrupted srv w) (hclear : src.Clear) :
    Leftover srv src w.db := by
  induction h with
  | empty slot => exact leftover_empty
  | ensuring _ hps hrun ih =>
    obtain ⟨-, -, -, -, -, -, halong⟩ := ih.run_metaStmts hclear
    exact halong _ _ hps hrun
  | running batches consistentPoint _ hfinds hps hrun ih =>
    obtain ⟨db, hfinds', hdb, hstate, -, -, -⟩ := ih.run_metaStmts hclear
    obtain rfl := Option.some.inj (hfinds'.1.symm.trans hfinds.1)
    exact hdb.along_firstRunStmts hclear hstate _ _ hps hrun

end Along

/-! ## The first run -/

section Completes

variable {w u : Setting} {batches : src.Batches} {consistentPoint : Lsn}

/-- The end of `reconcile_security`, which is the same with any roles and memberships. -/
def finish (src : Source) (consistentPoint : Lsn) (db : Database) : Option Setting :=
  (run (Server.execSecurity db.isTable) db.security.bare
    (src.security.reconcile db.security.bare)).map (withSecurity (some consistentPoint) db)

theorem finish_withRoles (consistentPoint : Lsn) (db : Database) (roles : List RoleDef)
    (members : List Membership) :
    finish src consistentPoint (db.withRoles roles members) = finish src consistentPoint db := rfl

/-- **`first_run`** loads and finishes. -/
theorem Leftover.run_firstRunStmts (h : Leftover srv src w.db) (hclear : src.Clear)
    (hstate : w.db.schema metaKey = some (.table metaTable)) :
    run (Setting.exec srv) w (src.firstRunStmts srv batches consistentPoint w) =
      (Replica.load srv batches w.db).bind (finish src consistentPoint) := by
  have hstmts : run (Setting.exec srv) w (src.loadStmts batches consistentPoint w) = _ :=
    run_loadStmts batches consistentPoint w
  apply Option.ext
  intro u
  rw [Source.firstRunStmts, run_append_eq_some, Option.bind_eq_some_iff]
  cases hload : Replica.load srv batches w.db with
  | none =>
    rw [hload] at hstmts
    rw [hstmts]
    constructor
    · rintro ⟨v, hv, -⟩
      cases hv
    · rintro ⟨v, hv, -⟩
      cases hv
  | some db =>
    rw [hload] at hstmts
    rw [hstmts, Option.map_some, Option.elim_some]
    have hdb := (h.load hclear hstate hload).1.leftover
    simp only [Option.some.injEq, exists_eq_left']
    rw [run_security, hdb.begun.run_reconcile src.roles_nodup]
    rfl

/-- **The first run can be restarted.** Wherever earlier attempts were interrupted, the next start
finds no state. If it completes, then its watermark is the consistent point of its own slot, each
published table has the rows of the upstream, and an attempt on an empty database ends in the very
same state. -/
theorem first_run_restarts (hclear : src.Clear) (h : src.Interrupted srv w) :
    (∃ w', Source.FindsNone srv w w') ∧
      ∀ cfg batches consistentPoint u, src.Completes srv cfg batches consistentPoint w u →
        u.slot = some consistentPoint ∧
        u.db.loadState = .ok (some (src.state cfg consistentPoint)) ∧
        (∀ t ∈ src.catalog.tables, u.db.contents t.key = src.rows t.key) ∧
        src.Completes srv cfg batches consistentPoint ⟨none, .empty srv.builtinRoles⟩ u := by
  obtain ⟨a, hfinds, ha, hstate, -⟩ := (h.leftover hclear).run_metaStmts hclear
  refine ⟨⟨_, hfinds⟩, ?_⟩
  rintro cfg batches consistentPoint u ⟨w', hfinds', hrun⟩
  obtain rfl := Option.some.inj (hfinds.1.symm.trans hfinds'.1)
  obtain ⟨v, hv, hstate'⟩ := run_append_eq_some.1 hrun
  rw [Leftover.run_firstRunStmts ha hclear hstate] at hv
  obtain ⟨a', hload, hfinish⟩ := Option.bind_eq_some_iff.1 hv
  obtain ⟨hrebuilt, hrows, hother⟩ := ha.load hclear hstate hload
  obtain ⟨l, -, rfl⟩ := Option.map_eq_some_iff.1 hfinish
  -- The state is written after everything else.
  have hstateTable : (withSecurity (some consistentPoint) a' l).db.schema metaKey =
      some (.table metaTable) := hrebuilt.stateTable
  obtain ⟨x, y, hinit, hbump, hloadState, hcontents⟩ := exists_written hstateTable
    (hrebuilt.leftover.contents metaKey hclear.1) (src.state cfg consistentPoint)
    src.security.fingerprint
  have hwritten : run (Setting.exec srv) (withSecurity (some consistentPoint) a' l)
      [.initState (src.state cfg consistentPoint), .bumpSecurity src.security.fingerprint] =
        some ⟨some consistentPoint, y⟩ := by
    refine run_cons_eq_some.2 ⟨⟨some consistentPoint, x⟩, ?_, run_cons_eq_some.2
      ⟨⟨some consistentPoint, y⟩, ?_, rfl⟩⟩
    · rw [Setting.exec, hinit]
      rfl
    · rw [Setting.exec, hbump]
      rfl
  obtain rfl := Option.some.inj (hwritten.symm.trans hstate')
  refine ⟨rfl, hloadState, fun t ht => ?_, ?_⟩
  · have hne : t.key ≠ metaKey := fun heq => hclear.1 (heq ▸ List.mem_map_of_mem ht)
    exact (hcontents t.key hne).trans (hrows t ht)
  · obtain ⟨b, hfindsb, hb, hstateb, -⟩ :=
      (Source.Interrupted.empty none : src.Interrupted srv _).leftover hclear |>.run_metaStmts hclear
    refine ⟨_, hfindsb, run_append_eq_some.2 ⟨_, ?_, hstate'⟩⟩
    rw [Leftover.run_firstRunStmts hb hclear hstateb, hother b hb hstateb, Option.bind_some,
      finish_withRoles]
    exact hfinish

/-- A server for types that are made of no others. -/
def plainServer : Server where
  builtinRoles := ["postgres"]
  typeNamed _ := none
  cascade db k := { db with schema := Function.update db.schema k none }
  accepts _ _ _ := true
  builtin := rfl
  cascade_self _ _ := Function.update_self ..
  cascade_frame _ _ _ hne _ := ⟨Function.update_of_ne hne _ _, rfl⟩
  cascade_kind db k j := by
    by_cases hj : j = k
    · subst hj
      simp
    · simp only [Function.update_of_ne hj]
      exact ⟨fun ty h => ⟨ty, h⟩, fun L h => ⟨L, h⟩⟩
  cascade_rows _ _ _ _ := rfl
  cascade_security _ _ := ⟨rfl, fun _ _ => rfl⟩

/-- A table of one row, with a type and a role. -/
def notesSource : Source where
  catalog :=
    { types := [.enum "public" "mood" ["calm", "busy"]]
      tables :=
        [{ schema := "public"
           name := "notes"
           columns := [⟨"id", "integer", 23, true⟩, ⟨"mood", "mood", 16400, false⟩]
           pk := ["id"]
           replicaIdentity := "d"
           rowFilter := none
           indexes := [] }]
      types_nodup := List.nodup_singleton _
      tables_nodup := List.nodup_singleton _
      disjoint := by decide }
  rows k := if k = ("public", "notes") then [setAll ∅ [("id", some "7")]] else []
  security := ⟨[⟨"alice", true⟩], [], [⟨"public", "notes", true, true⟩], [], []⟩
  roles_nodup := List.nodup_singleton _

/-- Everything in one batch. -/
def oneBatch (src : Source) : src.Batches where
  of k := [src.rows k]
  flatten _ := List.append_nil _

theorem clear_notes : notesSource.Clear :=
  ⟨by decide +kernel, by decide +kernel⟩

/-- An attempt that is interrupted after the rows are copied. -/
theorem exists_interrupted_notes : ∃ w, notesSource.Interrupted plainServer w ∧
    w.db.contents ("public", "notes") = notesSource.rows ("public", "notes") := by
  have hsome : ((run (Setting.exec plainServer) ⟨none, .empty plainServer.builtinRoles⟩ Source.metaStmts).bind fun w =>
      run (Setting.exec plainServer) w (notesSource.loadStmts (oneBatch notesSource) 16 w)).isSome =
        true := by decide +kernel
  obtain ⟨u, hu⟩ := Option.isSome_iff_exists.1 hsome
  obtain ⟨w, hw, hload⟩ := Option.bind_eq_some_iff.1 hu
  have hempty : notesSource.Interrupted plainServer ⟨none, .empty plainServer.builtinRoles⟩ := .empty none
  obtain ⟨a, hfinds, ha, hstate, -⟩ := (hempty.leftover clear_notes).run_metaStmts clear_notes
  obtain rfl := Option.some.inj (hfinds.1.symm.trans hw)
  refine ⟨u, .running (oneBatch notesSource) 16 hempty hfinds (List.prefix_append _ _) hload, ?_⟩
  rw [run_loadStmts] at hload
  obtain ⟨db, hdb, rfl⟩ := Option.map_eq_some_iff.1 hload
  exact (ha.load clear_notes hstate hdb).2.1 _ List.mem_cons_self

theorem first_run_restarts_notes : ∃ w, notesSource.Interrupted plainServer w ∧
    w.db.contents ("public", "notes") = notesSource.rows ("public", "notes") ∧
    (∃ w', Source.FindsNone plainServer w w') ∧
      ∀ cfg batches consistentPoint u,
        notesSource.Completes plainServer cfg batches consistentPoint w u →
          u.slot = some consistentPoint ∧
          u.db.loadState = .ok (some (notesSource.state cfg consistentPoint)) ∧
          (∀ t ∈ notesSource.catalog.tables, u.db.contents t.key = notesSource.rows t.key) ∧
          notesSource.Completes plainServer cfg batches consistentPoint ⟨none, .empty plainServer.builtinRoles⟩ u := by
  obtain ⟨w, hw, hrows⟩ := exists_interrupted_notes
  exact ⟨w, hw, hrows, first_run_restarts clear_notes hw⟩

/-- An upstream that is itself a replica, and publishes all its tables. -/
def chainedSource : Source where
  catalog :=
    { types := []
      tables :=
        [{ schema := "public"
           name := "_pglite_replica"
           columns :=
             [⟨"id", "integer", 23, true⟩, ⟨"slot_name", "text", 25, true⟩,
               ⟨"publication", "text", 25, true⟩, ⟨"watermark_lsn", "text", 25, true⟩,
               ⟨"fingerprint", "text", 25, true⟩, ⟨"security_version", "bigint", 20, true⟩,
               ⟨"security_fingerprint", "text", 25, true⟩,
               ⟨"updated_at", "timestamp with time zone", 1184, true⟩]
           pk := ["id"]
           replicaIdentity := "d"
           rowFilter := none
           indexes := [] }]
      types_nodup := List.nodup_nil
      tables_nodup := List.nodup_singleton _
      disjoint := by decide }
  rows k :=
    if k = metaKey then
      [setAll ∅ [("id", some "1"), ("slot_name", some "first"), ("publication", some "all"),
        ("watermark_lsn", some "0/10"), ("fingerprint", some "")]]
    else []
  security := ⟨[], [], [⟨"public", "_pglite_replica", false, false⟩], [], []⟩
  roles_nodup := List.nodup_nil

/-- **The state of the upstream** is copied over the state table. A start that is interrupted then
leaves it, and the next one takes it for its own. -/
theorem first_run_not_restarts_chained :
    ¬∀ w, chainedSource.Interrupted plainServer w → ∃ w', Source.FindsNone plainServer w w' := by
  intro h
  have hfound : ((run (Setting.exec plainServer) ⟨none, .empty plainServer.builtinRoles⟩ Source.metaStmts).bind fun w =>
      (run (Setting.exec plainServer) w
        (chainedSource.loadStmts (oneBatch chainedSource) 16 w)).bind fun u =>
          (run (Setting.exec plainServer) u Source.metaStmts).map fun u' =>
            (decide (w.db.loadState = .ok none), u'.db.loadState)) =
        some (true, .ok (some ⟨"first", "all", 16, ""⟩)) := by decide +kernel
  obtain ⟨w, hw, hfound⟩ := Option.bind_eq_some_iff.1 hfound
  obtain ⟨u, hu, hfound⟩ := Option.bind_eq_some_iff.1 hfound
  obtain ⟨u', hu', hstates⟩ := Option.map_eq_some_iff.1 hfound
  obtain ⟨hnone, hstate⟩ := Prod.mk.inj hstates
  have hinterrupted : chainedSource.Interrupted plainServer u :=
    .running (oneBatch chainedSource) 16 (.empty none) ⟨hw, of_decide_eq_true hnone⟩
      (List.prefix_append _ _) hu
  obtain ⟨v, hv, hvnone⟩ := h u hinterrupted
  obtain rfl := Option.some.inj (hu'.symm.trans hv)
  rw [hstate] at hvnone
  cases hvnone

end Completes

end Pglite.Replica
