import Pglite.Replica.SchemaRetry

/-!
# Schema changes on a database

The statements of a schema change on what the local server has beside types and tables.

* **Policies.** `DROP COLUMN` is refused on a column that a policy uses: only `DROP TABLE` comes
  with `CASCADE`, and takes the policies along that are on the table or read it.
* **Indexes.** An index has its name among those of the tables and composite types of the schema.
  `CREATE INDEX` is refused on a name that is taken, and so are `CREATE TABLE`, `DROP TABLE` and
  `CREATE TYPE … AS (…)` on the name of an index.
* **Rows.** A new column that refuses `NULL` is refused on a table that has rows.

What the texts in a statement mean, which come from the upstream, is a parameter (`DdlReader`). The
index behind a primary key is left out. The server makes up a free name for it (`users_pkey`), and
a catalog in which something else has that name is not considered. Nor is what an application may
have added to the local database, such as a view.
-/

namespace Pglite.Replica.Backfill

open Runs Records

/-- What the local server makes of the texts in a statement. -/
structure DdlReader where
  /-- The name that a `CREATE INDEX` gives. -/
  indexName : IndexDef → String
  /-- The types and functions in the statement are there, once the types of the catalog are. -/
  knows : String → Bool
  /-- The type is a domain that is `NOT NULL`. -/
  refusesNull : String → Bool

/-- A policy: the tables that it is on or reads, and the columns that it uses of them. -/
structure LocalPolicy where
  tables : List TableKey
  columns : List (TableKey × String)
  deriving DecidableEq

def TypeDef.isComposite : TypeDef → Bool
  | composite .. => true
  | _ => false

/-- A table or a composite type. An index cannot have its name. -/
def Entity.isRelation : Entity → Bool
  | type ty => ty.isComposite
  | table _ => true

/-- The name stands for a table or a composite type. -/
def LocalSchema.HasRelation (l : LocalSchema) (k : TableKey) : Prop :=
  ((l k).any Entity.isRelation) = true

instance LocalSchema.decidableHasRelation (l : LocalSchema) (k : TableKey) :
    Decidable (l.HasRelation k) :=
  inferInstanceAs (Decidable (_ = true))

/-- An index with the table that it is on. -/
abbrev TableIndex := TableKey × IndexDef

namespace Ddl

/-- The statement takes the index along, if it is there. -/
def DropsIndex (x : TableIndex) : Ddl → Prop
  | .dropTable t => x.1 = t
  | .alter t (.dropColumn name) => x.1 = t ∧ name ∈ x.2.columns
  | _ => False

instance decidableDropsIndex (x : TableIndex) : DecidablePred (DropsIndex x)
  | .dropTable _ => inferInstanceAs (Decidable (_ = _))
  | .alter _ (.dropColumn _) => inferInstanceAs (Decidable (_ ∧ _))
  | .alter _ (.createIndex _) => .isFalse id
  | .alter _ (.addColumn _ _) => .isFalse id
  | .createSchema _ => .isFalse id
  | .dropType _ => .isFalse id
  | .createType _ => .isFalse id
  | .createTable _ => .isFalse id

/-- What a statement does to the indexes by their names. -/
def onIndexes (read : DdlReader) (indexes : TableKey → Option TableIndex) (stmt : Ddl) :
    TableKey → Option TableIndex :=
  match stmt with
  | .alter t (.createIndex i) => Function.update indexes (t.1, read.indexName i) (some (t, i))
  | _ => fun k => (indexes k).filter fun x => decide (¬stmt.DropsIndex x)

def onPolicies (policies : List LocalPolicy) : Ddl → List LocalPolicy
  | .dropTable t => policies.filter fun p => decide (t ∉ p.tables)
  | _ => policies

/-- The statement neither drops nor makes the table. -/
def Keeps (k : TableKey) : Ddl → Prop
  | .dropTable t => t ≠ k
  | .createTable t => t.key ≠ k
  | _ => True

/-- The statement makes a relation of this name. -/
def MakesRelation (k : TableKey) : Ddl → Prop
  | .createTable t => t.key = k
  | .createType ty => ty.isComposite = true ∧ ty.key = k
  | _ => False

end Ddl

/-! ## Names and columns -/

section Statement

variable {l l' : LocalSchema} {stmt : Ddl} {k : TableKey}

/-- A relation that is there after a statement was there before, or the statement makes it. -/
theorem exec_hasRelation (h : l.exec stmt = some l') (hk : l'.HasRelation k) :
    (l.HasRelation k ∧ stmt ≠ .dropTable k) ∨ stmt.MakesRelation k := by
  unfold LocalSchema.HasRelation at hk ⊢
  rcases exec_apply h k with ⟨hkey, hsame⟩ | ⟨hkey, hat⟩
  · rw [hsame] at hk
    refine .inl ⟨hk, ?_⟩
    rintro rfl
    exact hkey rfl
  cases stmt with
  | createSchema schema => cases hkey
  | dropType ty =>
    simp only [execAt] at hat
    split at hat
    · cases hat
    · rw [← Option.some.inj hat] at hk
      cases hk
  | createType ty =>
    simp only [execAt, Option.ite_none_left_eq_some] at hat
    rw [← Option.some.inj hat.2] at hk
    exact .inr ⟨hk, Option.some.inj hkey⟩
  | dropTable t =>
    cases hkey
    simp only [execAt] at hat
    split at hat
    · cases hat
    · next ty hcomposite hty =>
      rw [← Option.some.inj hat, hty] at hk
      cases ty with
      | composite => exact (hcomposite _ _ _ rfl).elim
      | _ => cases hk
    · rw [← Option.some.inj hat] at hk
      cases hk
  | createTable t => exact .inr (Option.some.inj hkey)
  | alter t stmt =>
    simp only [execAt] at hat
    split at hat
    · next L hL =>
      rw [hL]
      exact .inl ⟨rfl, by simp⟩
    · cases hat

/-- A name that stands for something does so until a table is dropped. -/
theorem exec_isSome (h : l.exec stmt = some l') (hk : (l k).isSome) (hdrop : stmt ≠ .dropTable k)
    (htype : ∀ ty, stmt ≠ .dropType ty) : (l' k).isSome := by
  rcases exec_apply h k with ⟨hkey, hsame⟩ | ⟨hkey, hat⟩
  · rwa [hsame]
  cases stmt with
  | createSchema schema => cases hkey
  | dropType ty => exact absurd rfl (htype ty)
  | createType ty =>
    simp only [execAt, Option.ite_none_left_eq_some] at hat
    rw [← Option.some.inj hat.2]
    rfl
  | dropTable t =>
    cases hkey
    exact absurd rfl hdrop
  | createTable t =>
    simp only [execAt, Option.ite_none_right_eq_some] at hat
    rw [← Option.some.inj hat.2]
    rfl
  | alter t stmt =>
    simp only [execAt] at hat
    split at hat
    · obtain ⟨L, -, hL⟩ := Option.map_eq_some_iff.1 hat
      rw [← hL]
      rfl
    · cases hat

/-- A relation that is there stays until its table is dropped. -/
theorem hasRelation_exec (h : l.exec stmt = some l') (hk : l.HasRelation k)
    (hdrop : stmt ≠ .dropTable k) (htype : ∀ ty, stmt ≠ .dropType ty) : l'.HasRelation k := by
  unfold LocalSchema.HasRelation at hk ⊢
  rcases exec_apply h k with ⟨hkey, hsame⟩ | ⟨hkey, hat⟩
  · rwa [hsame]
  cases stmt with
  | createSchema schema => cases hkey
  | dropType ty => exact absurd rfl (htype ty)
  | createType ty =>
    simp only [execAt, Option.ite_none_left_eq_some, Option.not_isSome_iff_eq_none] at hat
    rw [hat.1] at hk
    cases hk
  | dropTable t =>
    cases hkey
    exact absurd rfl hdrop
  | createTable t =>
    simp only [execAt, Option.ite_none_right_eq_some, Option.isNone_iff_eq_none] at hat
    rw [hat.1.1] at hk
    cases hk
  | alter t stmt =>
    simp only [execAt] at hat
    split at hat
    · obtain ⟨L, -, hL⟩ := Option.map_eq_some_iff.1 hat
      rw [← hL]
      rfl
    · cases hat

/-- What becomes of a column, as long as its table is neither dropped nor made. -/
theorem exec_has_iff (h : l.exec stmt = some l') (hkeeps : stmt.Keeps k) (name : String) :
    l'.Has k [name] ↔ (l.Has k [name] ∨ ∃ typeSql, stmt = .alter k (.addColumn name typeSql)) ∧
      stmt ≠ .alter k (.dropColumn name) := by
  rcases exec_apply h k with ⟨hkey, hsame⟩ | ⟨hkey, hat⟩
  · have hne : ∀ a : TableDdl, stmt ≠ .alter k a := by
      rintro a rfl
      exact hkey rfl
    simp [LocalSchema.Has, hsame, hne]
  cases stmt with
  | createSchema schema => cases hkey
  | dropType ty =>
    simp only [execAt] at hat
    split at hat
    · cases hat
    · next hno =>
      have hnot : ∀ L, l k ≠ some (.table L) := hno
      simp [LocalSchema.Has, ← Option.some.inj hat, hnot]
  | createType ty =>
    simp only [execAt, Option.ite_none_left_eq_some, Option.not_isSome_iff_eq_none] at hat
    simp [LocalSchema.Has, ← Option.some.inj hat.2, hat.1]
  | dropTable t => exact absurd (Option.some.inj hkey) hkeeps
  | createTable t => exact absurd (Option.some.inj hkey) hkeeps
  | alter t stmt =>
    cases hkey
    simp only [execAt] at hat
    split at hat
    · next L hL =>
      obtain ⟨M, hM, hl'⟩ := Option.map_eq_some_iff.1 hat
      have hbefore : l.Has k [name] ↔ name ∈ L.columnNames := by
        simp [LocalSchema.Has, hL]
      have hafter : l'.Has k [name] ↔ name ∈ M.columnNames := by
        simp [LocalSchema.Has, ← hl']
      rw [hbefore, hafter]
      cases stmt with
      | createIndex i =>
        simp only [LocalTable.exec, Option.ite_none_right_eq_some] at hM
        rw [← Option.some.inj hM.2]
        simp [LocalTable.columnNames]
      | addColumn n typeSql =>
        obtain rfl := Option.some.inj hM
        rw [columnNames_addColumn]
        simp [eq_comm]
      | dropColumn n =>
        obtain rfl := Option.some.inj hM
        simp only [LocalTable.columnNames, LocalTable.dropColumn, List.mem_map, List.mem_filter,
          decide_eq_true_iff]
        constructor
        · rintro ⟨c, ⟨hc, hne⟩, rfl⟩
          refine ⟨.inl ⟨c, hc, rfl⟩, ?_⟩
          rintro ⟨⟩
          exact hne rfl
        · rintro ⟨⟨c, hc, rfl⟩ | ⟨typeSql, hadd⟩, hdrop⟩
          · refine ⟨c, ⟨hc, ?_⟩, rfl⟩
            rintro rfl
            exact hdrop rfl
          · cases hadd
    · cases hat

end Statement

/-! ## Statements on the database -/

/-- The local database. -/
@[ext] structure LocalDatabase (read : DdlReader) where
  schema : LocalSchema
  rows : Contents
  indexes : TableKey → Option TableIndex
  policies : List LocalPolicy
  /-- An index and a relation have different names. -/
  index_none : ∀ k, schema.HasRelation k → indexes k = none

namespace LocalDatabase

variable {read : DdlReader} (db : LocalDatabase read)

/-- What the server looks at beside types and tables before it executes a statement. -/
def Accepts : Ddl → Prop
  | .createSchema _ => True
  | .dropType _ => True
  | .createType ty =>
    read.knows ty.createSql = true ∧ (ty.isComposite = true → (db.indexes ty.key).isNone = true)
  | .dropTable t => (db.indexes t).isNone = true
  | .createTable t =>
    read.knows (createTableSql t) = true ∧ (db.indexes t.key).isNone = true
  | .alter t (.createIndex i) =>
    read.knows i.sql = true ∧ (db.indexes (t.1, read.indexName i)).isNone = true ∧
      ¬db.schema.HasRelation (t.1, read.indexName i)
  | .alter t (.addColumn name typeSql) =>
    db.schema.Has t [name] ∨ read.knows ((TableDdl.addColumn name typeSql).sql t) = true ∧
      (read.refusesNull typeSql = true → (db.rows t).isEmpty = true)
  | .alter t (.dropColumn name) =>
    db.schema.Has t [name] → ∀ p ∈ db.policies, (t, name) ∉ p.columns

instance decidableAccepts : DecidablePred db.Accepts
  | .createSchema _ => .isTrue trivial
  | .dropType _ => .isTrue trivial
  | .createType _ => inferInstanceAs (Decidable (_ ∧ (_ → _)))
  | .dropTable _ => inferInstanceAs (Decidable (_ = _))
  | .createTable _ => inferInstanceAs (Decidable (_ ∧ _))
  | .alter _ (.createIndex _) => inferInstanceAs (Decidable (_ ∧ _ ∧ ¬_))
  | .alter _ (.addColumn _ _) => inferInstanceAs (Decidable (_ ∨ _ ∧ (_ → _)))
  | .alter _ (.dropColumn _) => inferInstanceAs (Decidable (_ → ∀ _ ∈ _, _))

variable {db}

theorem index_none_of_exec {stmt : Ddl} {l : LocalSchema} (haccepts : db.Accepts stmt)
    (h : db.schema.exec stmt = some l) (k : TableKey) (hk : l.HasRelation k) :
    stmt.onIndexes read db.indexes k = none := by
  have hfilter : ∀ f : TableIndex → Bool, db.indexes k = none →
      (db.indexes k).filter f = none := by
    intro f hnone
    rw [hnone]
    rfl
  rcases exec_hasRelation h hk with ⟨hbefore, -⟩ | hmakes
  · have hnone := db.index_none k hbefore
    unfold Ddl.onIndexes
    split
    · next t i =>
      have hne : k ≠ (t.1, read.indexName i) := by
        rintro rfl
        exact haccepts.2.2 hbefore
      rwa [Function.update_of_ne hne]
    · exact hfilter _ hnone
  · cases stmt with
    | createType ty =>
      obtain ⟨hcomposite, rfl⟩ := hmakes
      exact hfilter _ (Option.isNone_iff_eq_none.1 (haccepts.2 hcomposite))
    | createTable t =>
      obtain rfl : t.key = k := hmakes
      exact hfilter _ (Option.isNone_iff_eq_none.1 haccepts.2)
    | _ => exact hmakes.elim

variable (db) in
/-- The server executes a statement, or refuses it. -/
def exec (stmt : Ddl) : Option (LocalDatabase read) :=
  if haccepts : db.Accepts stmt then
    match h : db.schema.exec stmt with
    | some l => some {
        schema := l
        rows := stmt.onRows db.rows
        indexes := stmt.onIndexes read db.indexes
        policies := stmt.onPolicies db.policies
        index_none := index_none_of_exec haccepts h }
    | none => none
  else none

/-- A statement that is executed was accepted, and works on each part by itself. -/
structure Executes (db : LocalDatabase read) (stmt : Ddl) (db' : LocalDatabase read) : Prop where
  accepts : db.Accepts stmt
  schema : db.schema.exec stmt = some db'.schema
  rows : db'.rows = stmt.onRows db.rows
  indexes : db'.indexes = stmt.onIndexes read db.indexes
  policies : db'.policies = stmt.onPolicies db.policies

theorem executes_of_exec {stmt : Ddl} {db' : LocalDatabase read} (h : db.exec stmt = some db') :
    db.Executes stmt db' := by
  unfold exec at h
  split at h
  · next haccepts =>
    split at h
    · next l hl =>
      cases h
      exact ⟨haccepts, hl, rfl, rfl, rfl⟩
    · cases h
  · cases h

theorem exec_isSome_of {stmt : Ddl} (haccepts : db.Accepts stmt)
    (h : (db.schema.exec stmt).isSome) : (db.exec stmt).isSome := by
  unfold exec
  rw [dif_pos haccepts]
  split
  · rfl
  · next hnone =>
    rw [hnone] at h
    cases h

instance server : DdlServer (LocalDatabase read) where
  exec := exec
  schema := schema
  exec_schema h := (executes_of_exec h).schema

/-! ## A run of statements -/

section Runs

variable {db' : LocalDatabase read} {stmts : List Ddl}

/-- A policy that is there after the statements was there before, and none of its tables was
dropped. -/
theorem run_policies (h : run DdlServer.exec db stmts = some db') :
    db'.policies = db.policies.filter fun p => decide (∀ t ∈ p.tables, Ddl.dropTable t ∉ stmts) := by
  induction stmts generalizing db with
  | nil =>
    obtain rfl : db = db' := by simpa using h
    simp
  | cons stmt stmts ih =>
    obtain ⟨u, hu, h⟩ := run_cons_eq_some.1 h
    have hstep : u.policies = db.policies.filter fun p =>
        decide (∀ t ∈ p.tables, Ddl.dropTable t ≠ stmt) := by
      rw [(executes_of_exec hu).policies]
      cases stmt with
      | dropTable t =>
        refine List.filter_congr fun p _ => decide_eq_decide.2 ⟨?_, ?_⟩
        · rintro ht t' ht' ⟨⟩
          exact ht ht'
        · exact fun hall ht => hall t ht rfl
      | _ => simp [Ddl.onPolicies]
    rw [ih h, hstep, List.filter_filter]
    refine List.filter_congr fun p _ => ?_
    rw [← Bool.decide_and, decide_eq_decide]
    simp only [List.mem_cons, not_or]
    exact ⟨fun hall t ht => ⟨hall.2 t ht, hall.1 t ht⟩,
      fun hall => ⟨fun t ht => (hall t ht).2, fun t ht => (hall t ht).1⟩⟩

theorem Executes.indexes_iff {stmt : Ddl} (h : db.Executes stmt db') {k : TableKey}
    {x : TableIndex} : db'.indexes k = some x ↔ (db.indexes k = some x ∧ ¬stmt.DropsIndex x) ∨
      (stmt = .alter x.1 (.createIndex x.2) ∧ k = (x.1.1, read.indexName x.2)) := by
  have haccepts := h.accepts
  rw [h.indexes]
  unfold Ddl.onIndexes
  split
  · next t i =>
    have hfree : db.indexes (t.1, read.indexName i) = none :=
      Option.isNone_iff_eq_none.1 haccepts.2.1
    by_cases hk : k = (t.1, read.indexName i)
    · subst hk
      rw [Function.update_self, hfree, Option.some.injEq]
      constructor
      · rintro rfl
        exact .inr ⟨rfl, rfl⟩
      · rintro (⟨⟨⟩, -⟩ | ⟨hstmt, -⟩)
        cases hstmt
        rfl
    · rw [Function.update_of_ne hk]
      constructor
      · exact fun hx => .inl ⟨hx, id⟩
      · rintro (⟨hx, -⟩ | ⟨hstmt, rfl⟩)
        · exact hx
        · cases hstmt
          exact absurd rfl hk
  · next hno =>
    rw [Option.filter_eq_some_iff, decide_eq_true_iff]
    constructor
    · exact .inl
    · rintro (hx | ⟨rfl, -⟩)
      · exact hx
      · exact absurd rfl (hno _ _)

/-- An index that is there after the statements was there before or is made by one of them, and
is not dropped from then on. -/
theorem run_indexes_iff (h : run DdlServer.exec db stmts = some db') {k : TableKey}
    {x : TableIndex} : db'.indexes k = some x ↔
      (db.indexes k = some x ∧ ∀ stmt ∈ stmts, ¬stmt.DropsIndex x) ∨
      ∃ as bs, stmts = as ++ .alter x.1 (.createIndex x.2) :: bs ∧
        k = (x.1.1, read.indexName x.2) ∧ ∀ stmt ∈ bs, ¬stmt.DropsIndex x := by
  induction stmts generalizing db with
  | nil =>
    obtain rfl : db = db' := by simpa using h
    simp
  | cons stmt stmts ih =>
    obtain ⟨u, hu, h⟩ := run_cons_eq_some.1 h
    rw [ih h, (executes_of_exec hu).indexes_iff, List.forall_mem_cons]
    constructor
    · rintro (⟨⟨hx, hfirst⟩ | ⟨rfl, hk⟩, hrest⟩ | ⟨as, bs, rfl, hk, hrest⟩)
      · exact .inl ⟨hx, hfirst, hrest⟩
      · exact .inr ⟨[], stmts, rfl, hk, hrest⟩
      · exact .inr ⟨stmt :: as, bs, rfl, hk, hrest⟩
    · rintro (⟨hx, hfirst, hrest⟩ | ⟨as, bs, hsplit, hk, hrest⟩)
      · exact .inl ⟨.inl ⟨hx, hfirst⟩, hrest⟩
      · cases as with
        | nil =>
          obtain ⟨rfl, rfl⟩ := List.cons.inj hsplit
          exact .inl ⟨.inr ⟨rfl, hk⟩, hrest⟩
        | cons a as =>
          obtain ⟨rfl, rfl⟩ := List.cons.inj hsplit
          exact .inr ⟨as, bs, rfl, hk, hrest⟩

theorem run_rows (h : run DdlServer.exec db stmts = some db') :
    db'.rows = stmts.foldl Ddl.onRows db.rows := by
  induction stmts generalizing db with
  | nil =>
    obtain rfl : db = db' := by simpa using h
    rfl
  | cons stmt stmts ih =>
    obtain ⟨u, hu, h⟩ := run_cons_eq_some.1 h
    rw [ih h, (executes_of_exec hu).rows, List.foldl_cons]

end Runs

end LocalDatabase

section Run

variable {l l' : LocalSchema} {stmts : List Ddl} {k : TableKey}

theorem run_hasRelation (h : run LocalSchema.exec l stmts = some l') (hk : l'.HasRelation k) :
    (l.HasRelation k ∧ .dropTable k ∉ stmts) ∨ ∃ stmt ∈ stmts, stmt.MakesRelation k := by
  induction stmts generalizing l with
  | nil =>
    obtain rfl : l = l' := by simpa using h
    exact .inl ⟨hk, List.not_mem_nil⟩
  | cons stmt stmts ih =>
    obtain ⟨u, hu, h⟩ := run_cons_eq_some.1 h
    rcases ih h with ⟨hbefore, hdrop⟩ | ⟨made, hmem, hmakes⟩
    · rcases exec_hasRelation hu hbefore with ⟨hfirst, hne⟩ | hmakes
      · exact .inl ⟨hfirst, fun hmem => (List.mem_cons.1 hmem).elim (fun heq => hne heq.symm) hdrop⟩
      · exact .inr ⟨stmt, List.mem_cons_self, hmakes⟩
    · exact .inr ⟨made, List.mem_cons_of_mem _ hmem, hmakes⟩

theorem hasRelation_run (h : run LocalSchema.exec l stmts = some l') (hk : l.HasRelation k)
    (hdrop : .dropTable k ∉ stmts) (htype : ∀ ty, .dropType ty ∉ stmts) : l'.HasRelation k := by
  induction stmts generalizing l with
  | nil =>
    obtain rfl : l = l' := by simpa using h
    exact hk
  | cons stmt stmts ih =>
    obtain ⟨u, hu, h⟩ := run_cons_eq_some.1 h
    simp only [List.mem_cons, not_or] at hdrop htype
    exact ih h (hasRelation_exec hu hk (Ne.symm hdrop.1) fun ty => Ne.symm (htype ty).1) hdrop.2
      fun ty => (htype ty).2

theorem run_isSome (h : run LocalSchema.exec l stmts = some l') (hk : (l k).isSome)
    (hdrop : .dropTable k ∉ stmts) (htype : ∀ ty, .dropType ty ∉ stmts) : (l' k).isSome := by
  induction stmts generalizing l with
  | nil =>
    obtain rfl : l = l' := by simpa using h
    exact hk
  | cons stmt stmts ih =>
    obtain ⟨u, hu, h⟩ := run_cons_eq_some.1 h
    simp only [List.mem_cons, not_or] at hdrop htype
    exact ih h (exec_isSome hu hk (Ne.symm hdrop.1) fun ty => Ne.symm (htype ty).1) hdrop.2
      fun ty => (htype ty).2

/-- A column of a table that is kept was there before, or it is added. -/
theorem run_has (h : run LocalSchema.exec l stmts = some l') (hkeeps : ∀ stmt ∈ stmts, stmt.Keeps k)
    {name : String} (hname : l'.Has k [name]) :
    l.Has k [name] ∨ ∃ typeSql, .alter k (.addColumn name typeSql) ∈ stmts := by
  induction stmts generalizing l with
  | nil =>
    obtain rfl : l = l' := by simpa using h
    exact .inl hname
  | cons stmt stmts ih =>
    obtain ⟨u, hu, h⟩ := run_cons_eq_some.1 h
    rw [List.forall_mem_cons] at hkeeps
    rcases ih h hkeeps.2 with hbefore | ⟨typeSql, hmem⟩
    · rcases ((exec_has_iff hu hkeeps.1 name).1 hbefore).1 with hfirst | ⟨typeSql, rfl⟩
      · exact .inl hfirst
      · exact .inr ⟨typeSql, List.mem_cons_self⟩
    · exact .inr ⟨typeSql, List.mem_cons_of_mem _ hmem⟩

theorem has_run (h : run LocalSchema.exec l stmts = some l') (hkeeps : ∀ stmt ∈ stmts, stmt.Keeps k)
    {name : String} (hname : l.Has k [name]) (hdrop : .alter k (.dropColumn name) ∉ stmts) :
    l'.Has k [name] := by
  induction stmts generalizing l with
  | nil =>
    obtain rfl : l = l' := by simpa using h
    exact hname
  | cons stmt stmts ih =>
    obtain ⟨u, hu, h⟩ := run_cons_eq_some.1 h
    rw [List.forall_mem_cons] at hkeeps
    rw [List.mem_cons, not_or] at hdrop
    exact ih h hkeeps.2 ((exec_has_iff hu hkeeps.1 name).2 ⟨.inl hname, Ne.symm hdrop.1⟩) hdrop.2

/-- The columns that the statements drop from a table. -/
def droppedColumns (k : TableKey) (stmts : List Ddl) : List String :=
  stmts.filterMap fun
    | .alter t (.dropColumn name) => if t = k then some name else none
    | _ => none

theorem mem_droppedColumns {name : String} :
    name ∈ droppedColumns k stmts ↔ .alter k (.dropColumn name) ∈ stmts := by
  rw [droppedColumns, List.mem_filterMap]
  constructor
  · rintro ⟨stmt, hmem, hname⟩
    split at hname
    · split_ifs at hname with hk
      cases hname
      rwa [← hk]
    · cases hname
  · exact fun hmem => ⟨_, hmem, if_pos rfl⟩

/-- The rows of a table that is kept lose the cells of the columns that are dropped. -/
theorem rows_of_keeps (C : Contents) (hkeeps : ∀ stmt ∈ stmts, stmt.Keeps k) :
    stmts.foldl Ddl.onRows C k = (C k).map (clear (droppedColumns k stmts)) := by
  induction stmts generalizing C with
  | nil => exact (List.map_id' _).symm
  | cons stmt stmts ih =>
    rw [List.forall_mem_cons] at hkeeps
    rw [List.foldl_cons, ih _ hkeeps.2]
    cases stmt with
    | dropTable t => simp [Ddl.onRows, droppedColumns, Function.update_of_ne (Ne.symm hkeeps.1)]
    | createTable t => simp [Ddl.onRows, droppedColumns, Function.update_of_ne (Ne.symm hkeeps.1)]
    | alter t stmt =>
      cases stmt with
      | dropColumn name =>
        by_cases hk : t = k
        · subst hk
          have hcons : droppedColumns t (.alter t (.dropColumn name) :: stmts) =
              name :: droppedColumns t stmts := by
            simp [droppedColumns]
          rw [hcons, Ddl.onRows, Function.update_self, List.map_map]
          rfl
        · simp [Ddl.onRows, droppedColumns, hk, Function.update_of_ne (Ne.symm hk)]
      | _ => rfl
    | _ => rfl

/-- A table that is dropped has no rows, also when it is made anew. -/
theorem rows_of_dropTable (C : Contents) (hdrop : .dropTable k ∈ stmts) :
    stmts.foldl Ddl.onRows C k = [] := by
  have hempty : ∀ (stmts : List Ddl) (C : Contents), C k = [] →
      stmts.foldl Ddl.onRows C k = [] := by
    intro stmts
    induction stmts with
    | nil => exact fun C hC => hC
    | cons stmt stmts ih =>
      intro C hC
      refine ih _ ?_
      unfold Ddl.onRows
      split
      all_goals simp [Function.update_apply, hC]
      all_goals (rintro rfl; exact hC)
  obtain ⟨as, bs, rfl⟩ := List.append_of_mem hdrop
  rw [List.foldl_append, List.foldl_cons]
  exact hempty bs _ (Function.update_self ..)

end Run

end Pglite.Replica.Backfill
