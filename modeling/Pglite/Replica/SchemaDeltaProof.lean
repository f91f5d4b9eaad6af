import Pglite.Replica.SchemaDelta

/-!
# What a schema change leads to

`apply_schema_delta` on the schema that `bootstrap_schema` made of an old catalog, against
`bootstrap_schema` on the new catalog. The first alters by name and looks at nothing but names and
type OIDs, so that the two agree exactly when the new catalog is one that such changes lead to
(`Catalog.AltersTo`).

* `bootstrapSchema_eq_some`: what is there after `bootstrap_schema`.
* `applySchemaDelta_type`, `applySchemaDelta_table`: what becomes of each type and table.
* `apply_schema_delta_rebuilds`: when that is what a rebuild makes.
-/

namespace Pglite.Replica.Backfill

open Runs

variable {l l' : LocalSchema}

/-! ## Statements -/

/-- The statement makes and drops no type. -/
def Ddl.sparesTypes : Ddl → Prop
  | .dropType _ | .createType _ => False
  | _ => True

/-- No other statement touches a type. -/
theorem exec_type {stmt : Ddl} (hstmt : stmt.sparesTypes) (h : l.exec stmt = some l')
    (k : TableKey) (ty : TypeDef) : l' k = some (.type ty) ↔ l k = some (.type ty) := by
  cases stmt with
  | createSchema schema =>
    cases h
    rfl
  | dropType ty => exact hstmt.elim
  | createType ty => exact hstmt.elim
  | dropTable t =>
    simp only [LocalSchema.exec] at h
    split at h
    · cases h
    · cases h
      rfl
    · next hcomposite htype =>
      cases h
      by_cases hk : k = t
      · subst hk
        simp only [Function.update_self, reduceCtorEq, false_iff]
        intro hk
        exact htype ty hk
      · rw [Function.update_of_ne hk]
  | createTable t =>
    simp only [LocalSchema.exec, Option.ite_none_right_eq_some, Option.some.injEq] at h
    obtain ⟨⟨hfree, -⟩, rfl⟩ := h
    by_cases hk : k = t.key
    · subst hk
      simp [Option.isNone_iff_eq_none.1 hfree]
    · rw [Function.update_of_ne hk]
  | alter t stmt =>
    simp only [LocalSchema.exec] at h
    split at h
    · next L hL =>
      obtain ⟨L', -, rfl⟩ := Option.map_eq_some_iff.1 h
      by_cases hk : k = t
      · subst hk
        simp [hL]
      · rw [Function.update_of_ne hk]
    · cases h

theorem run_type {stmts : List Ddl} (hstmts : ∀ stmt ∈ stmts, stmt.sparesTypes)
    (hrun : run LocalSchema.exec l stmts = some l') (k : TableKey) (ty : TypeDef) :
    l' k = some (.type ty) ↔ l k = some (.type ty) := by
  induction stmts generalizing l with
  | nil =>
    obtain rfl : l = l' := by simpa using hrun
    rfl
  | cons stmt stmts ih =>
    rw [List.forall_mem_cons] at hstmts
    obtain ⟨u, hu, hl'⟩ := run_cons_eq_some.1 hrun
    rw [ih hstmts.2 hl', exec_type hstmts.1 hu]

theorem run_schemaDdl (schema : String) (l : LocalSchema) :
    run LocalSchema.exec l (schemaDdl schema) = some l := by
  unfold schemaDdl
  split <;> rfl

theorem exec_alter (l : LocalSchema) (k : TableKey) (L : LocalTable) (stmt : TableDdl) :
    LocalSchema.exec (Function.update l k (some (.table L))) (.alter k stmt) =
      (L.exec stmt).map fun L' => Function.update l k (some (.table L')) := by
  simp [LocalSchema.exec]

/-- The statements on one table are a run on that table. -/
theorem run_alter {k : TableKey} {L : LocalTable} (hL : l k = some (.table L))
    (stmts : List TableDdl) :
    run LocalSchema.exec l (stmts.map (.alter k)) =
      (run LocalTable.exec L stmts).map fun L' => Function.update l k (some (.table L')) := by
  have hrun := run_map (exec_alter l k) L stmts
  rwa [← hL, Function.update_eq_self] at hrun

/-- Without a table, only no statement at all succeeds. -/
theorem run_alter_none {k : TableKey} (hk : ∀ L, l k ≠ some (.table L)) {stmts : List TableDdl}
    (hrun : run LocalSchema.exec l (stmts.map (.alter k)) = some l') : stmts = [] := by
  cases stmts with
  | nil => rfl
  | cons stmt stmts =>
    obtain ⟨u, hu, -⟩ := run_cons_eq_some.1 hrun
    simp only [LocalSchema.exec] at hu
    cases hl : l k with
    | none => simp only [reduceCtorEq] at hu
    | some e =>
      cases e with
      | type ty => simp only [reduceCtorEq] at hu
      | table L => exact absurd hl (hk L)

/-! ## One type, one table -/

theorem run_typeDdl {ty : TypeDef} (h : run LocalSchema.exec l (typeDdl ty) = some l') :
    l' = Function.update l ty.key (some (.type ty)) := by
  unfold typeDdl at h
  obtain ⟨u, hu, h⟩ := run_append_eq_some.1 h
  obtain rfl : l = u := by simpa [run_schemaDdl] using hu
  obtain ⟨v, hv, h⟩ := run_cons_eq_some.1 h
  have hv : v = Function.update l ty.key none := by
    simp only [LocalSchema.exec] at hv
    split at hv
    · cases hv
    · cases hv
      rfl
  subst hv
  simpa [run, LocalSchema.exec, eq_comm] using h

theorem run_createIndexes {L L' : LocalTable} {indexes : List IndexDef}
    (h : run LocalTable.exec L (indexes.map .createIndex) = some L') :
    L' = { L with indexes := L.indexes ++ indexes } ∧
      (L.indexes.Nodup → (L.indexes ++ indexes).Nodup) := by
  induction indexes generalizing L with
  | nil =>
    obtain rfl : L = L' := by simpa using h
    simp
  | cons i indexes ih =>
    obtain ⟨M, hM, hL'⟩ := run_cons_eq_some.1 h
    simp only [LocalTable.exec, Option.ite_none_right_eq_some, Option.some.injEq] at hM
    obtain ⟨⟨-, hnew⟩, rfl⟩ := hM
    obtain ⟨rfl, hnodup⟩ := ih hL'
    simp only [List.append_assoc, List.singleton_append] at hnodup ⊢
    refine ⟨trivial, fun hL => hnodup ?_⟩
    rw [← List.concat_eq_append, List.nodup_concat]
    exact ⟨hnew, hL⟩

/-- What `CREATE TABLE` and its `CREATE INDEX` statements accept. -/
structure TableDef.Creatable (t : TableDef) : Prop where
  wellFormed : t.WellFormed
  indexes_nodup : t.indexes.Nodup

theorem run_tableDdl {t : TableDef} (h : run LocalSchema.exec l (tableDdl t) = some l') :
    (∀ ty, l t.key ≠ some (.type ty)) ∧ t.Creatable ∧
      l' = Function.update l t.key (some (.table t.full)) := by
  unfold tableDdl at h
  obtain ⟨w, hw, h⟩ := run_append_eq_some.1 h
  obtain ⟨u, hu, hw⟩ := run_append_eq_some.1 hw
  obtain rfl : l = u := by simpa [run_schemaDdl] using hu
  obtain ⟨v, hv, hw⟩ := run_cons_eq_some.1 hw
  simp only [run_cons_eq_some, LocalSchema.exec, run_nil, Option.ite_none_right_eq_some,
    Option.some.injEq, exists_eq_right] at hw
  obtain ⟨⟨hfree, hwf⟩, rfl⟩ := hw
  have htype : ∀ ty, l t.key ≠ some (.type ty) := by
    intro ty hty
    have hspares : (Ddl.dropTable t.key).sparesTypes := trivial
    rw [← exec_type hspares hv, Option.isNone_iff_eq_none.1 hfree] at hty
    cases hty
  have hv : v = Function.update l t.key none := by
    simp only [LocalSchema.exec] at hv
    split at hv
    · cases hv
    · next ty _ hty => exact absurd hty (htype ty)
    · cases hv
      rfl
  subst hv
  rw [Function.update_idem] at h
  have hbare : Function.update l t.key (some (.table t.bare)) t.key = some (.table t.bare) :=
    Function.update_self ..
  have h : run LocalSchema.exec (Function.update l t.key (some (.table t.bare)))
      ((t.indexes.map .createIndex).map (.alter t.key)) = some l' := by
    rw [List.map_map]
    exact h
  rw [run_alter hbare] at h
  obtain ⟨L, hL, rfl⟩ := Option.map_eq_some_iff.1 h
  obtain ⟨rfl, hnodup⟩ := run_createIndexes hL
  refine ⟨htype, ⟨hwf, hnodup List.nodup_nil⟩, ?_⟩
  rw [Function.update_idem]
  rfl

/-! ## Building from scratch -/

theorem run_types {types : List TypeDef} (hnodup : (types.map TypeDef.key).Nodup)
    (h : run LocalSchema.exec l (types.flatMap typeDdl) = some l') :
    (∀ ty ∈ types, l' ty.key = some (.type ty)) ∧
      ∀ k ∉ types.map TypeDef.key, l' k = l k := by
  rw [run_flatMap] at h
  constructor
  · intro ty hty
    exact run_update (f := fun ty _ => some (.type ty)) (fun m ty m' => run_typeDdl) hnodup h hty
  · intro k hk
    refine run_frame (fun m ty m' hm k hk => ?_) hk h
    rw [run_typeDdl hm, Function.update_of_ne hk]

theorem run_tables {tables : List TableDef} (hnodup : (tables.map TableDef.key).Nodup)
    (h : run LocalSchema.exec l (tables.flatMap tableDdl) = some l') :
    (∀ t ∈ tables, t.Creatable ∧ (∀ ty, l t.key ≠ some (.type ty)) ∧
      l' t.key = some (.table t.full)) ∧
      ∀ k ∉ tables.map TableDef.key, l' k = l k := by
  rw [run_flatMap] at h
  have hframe : ∀ (m : LocalSchema) t m', run LocalSchema.exec m (tableDdl t) = some m' →
      ∀ k, k ≠ t.key → m' k = m k := by
    intro m t m' hm k hk
    rw [(run_tableDdl hm).2.2, Function.update_of_ne hk]
  refine ⟨?_, fun k hk => run_frame hframe hk h⟩
  induction tables generalizing l with
  | nil => simp
  | cons t tables ih =>
    obtain ⟨u, hu, hl'⟩ := run_cons_eq_some.1 h
    rw [List.map_cons, List.nodup_cons] at hnodup
    obtain ⟨htype, hcreatable, rfl⟩ := run_tableDdl hu
    rw [List.forall_mem_cons]
    refine ⟨⟨hcreatable, htype, ?_⟩, ?_⟩
    · rw [run_frame hframe hnodup.1 hl', Function.update_self]
    · intro t' ht'
      obtain ⟨hcreatable', htype', hfull⟩ := ih hnodup.2 hl' t' ht'
      have hkey : t'.key ≠ t.key := by
        intro hkey
        exact hnodup.1 (hkey ▸ List.mem_map_of_mem ht')
      rw [Function.update_of_ne hkey] at htype'
      exact ⟨hcreatable', htype', hfull⟩

/-- What `bootstrap_schema` makes of a catalog on an empty database. -/
structure Catalog.Built (c : Catalog) (l : LocalSchema) : Prop where
  type : ∀ ty ∈ c.types, l ty.key = some (.type ty)
  table : ∀ t ∈ c.tables, l t.key = some (.table t.full)
  creatable : ∀ t ∈ c.tables, t.Creatable
  free : ∀ k, k ∉ c.types.map TypeDef.key → k ∉ c.tables.map TableDef.key → l k = none

theorem built_of_bootstrapSchema {c : Catalog}
    (h : bootstrapSchema c.types c.tables .empty = some l) : c.Built l := by
  obtain ⟨u, hu, hl⟩ := run_append_eq_some.1 h
  obtain ⟨htype, hfree⟩ := run_types c.types_nodup hu
  obtain ⟨htable, hframe⟩ := run_tables c.tables_nodup hl
  refine ⟨?_, fun t ht => (htable t ht).2.2, fun t ht => (htable t ht).1, ?_⟩
  · intro ty hty
    rw [hframe, htype ty hty]
    intro hkey
    obtain ⟨t, ht, hkey⟩ := List.mem_map.1 hkey
    exact (htable t ht).2.1 ty (hkey ▸ htype ty hty)
  · intro k hk hk'
    rw [hframe k hk', hfree k hk]
    rfl

namespace Catalog.Built

variable {c : Catalog}

theorem type_iff (h : c.Built l) (k : TableKey) (ty : TypeDef) :
    l k = some (.type ty) ↔ ty ∈ c.types ∧ ty.key = k := by
  constructor
  · intro hk
    by_cases htype : k ∈ c.types.map TypeDef.key
    · obtain ⟨ty', hty', rfl⟩ := List.mem_map.1 htype
      rw [h.type ty' hty', Option.some.injEq, Entity.type.injEq] at hk
      exact hk ▸ ⟨hty', rfl⟩
    by_cases htable : k ∈ c.tables.map TableDef.key
    · obtain ⟨t, ht, rfl⟩ := List.mem_map.1 htable
      simp [h.table t ht] at hk
    · simp [h.free k htype htable] at hk
  · rintro ⟨hty, rfl⟩
    exact h.type ty hty

theorem table_iff (h : c.Built l) (k : TableKey) (L : LocalTable) :
    l k = some (.table L) ↔ ∃ t ∈ c.tables, t.key = k ∧ L = t.full := by
  constructor
  · intro hk
    by_cases htype : k ∈ c.types.map TypeDef.key
    · obtain ⟨ty, hty, rfl⟩ := List.mem_map.1 htype
      simp [h.type ty hty] at hk
    by_cases htable : k ∈ c.tables.map TableDef.key
    · obtain ⟨t, ht, rfl⟩ := List.mem_map.1 htable
      rw [h.table t ht, Option.some.injEq, Entity.table.injEq] at hk
      exact ⟨t, ht, rfl, hk.symm⟩
    · simp [h.free k htype htable] at hk
  · rintro ⟨t, ht, rfl, rfl⟩
    exact h.table t ht

theorem free_iff (h : c.Built l) (k : TableKey) :
    l k = none ↔ k ∉ c.types.map TypeDef.key ∧ k ∉ c.tables.map TableDef.key := by
  constructor
  · intro hk
    constructor
    · intro htype
      obtain ⟨ty, hty, rfl⟩ := List.mem_map.1 htype
      simp [h.type ty hty] at hk
    · intro htable
      obtain ⟨t, ht, rfl⟩ := List.mem_map.1 htable
      simp [h.table t ht] at hk
  · rintro ⟨htype, htable⟩
    exact h.free k htype htable

end Catalog.Built

/-! ## Altering -/

theorem execAll_ok_iff {S : Type} [DdlServer S] {s s' : S} {stmts : List Ddl} :
    execAll s stmts = .ok s' ↔ run DdlServer.exec s stmts = some s' := by
  unfold execAll
  cases run DdlServer.exec s stmts <;> simp

theorem execAll_eq_ok {stmts : List Ddl} :
    execAll l stmts = .ok l' ↔ run LocalSchema.exec l stmts = some l' :=
  execAll_ok_iff

/-! ## On any server -/

section Servers

variable {S : Type} [DdlServer S]

theorem run_schema {s s' : S} {stmts : List Ddl} (h : run DdlServer.exec s stmts = some s') :
    run LocalSchema.exec (DdlServer.schema s) stmts = some (DdlServer.schema s') := by
  induction stmts generalizing s with
  | nil =>
    obtain rfl : s = s' := by simpa using h
    rfl
  | cons stmt stmts ih =>
    obtain ⟨u, hu, h⟩ := run_cons_eq_some.1 h
    exact run_cons_eq_some.2 ⟨DdlServer.schema u, DdlServer.exec_schema hu, ih h⟩

/-- What the first comes to with `Ok`, the second comes to on the names alone. -/
def OnNames (f : S → Except Failure S) (g : LocalSchema → Except Failure LocalSchema) : Prop :=
  ∀ s s', f s = .ok s' → g (DdlServer.schema s) = .ok (DdlServer.schema s')

theorem OnNames.ok : OnNames (.ok : S → Except Failure S) .ok := by
  rintro s s' h
  cases h
  rfl

theorem OnNames.bind {f f' : S → Except Failure S}
    {g g' : LocalSchema → Except Failure LocalSchema} (h : OnNames f g) (h' : OnNames f' g') :
    OnNames (fun s => (f s).bind f') fun l => (g l).bind g' := by
  rintro s s' hs'
  obtain ⟨u, hu, hs'⟩ := bind_eq_ok.1 hs'
  exact bind_eq_ok.2 ⟨_, h s u hu, h' u s' hs'⟩

theorem OnNames.execAll (stmts : List Ddl) :
    OnNames (fun s : S => execAll s stmts) fun l => execAll l stmts := by
  intro s s' h
  exact execAll_eq_ok.2 (run_schema (execAll_ok_iff.1 h))

theorem OnNames.ensureTypes (types : List TypeDef) :
    OnNames (S := S) (ensureTypes types) (ensureTypes types) := by
  induction types with
  | nil => exact OnNames.ok
  | cons ty types ih =>
    intro s s' h
    unfold Backfill.ensureTypes at h ⊢
    rw [LocalSchema.schema_self]
    split_ifs at h ⊢ with hsome
    · exact ih s s' h
    · exact (OnNames.execAll _).bind ih s s' h

theorem OnNames.dropColumns (t : TableDef) (oldCols : List (String × Nat)) :
    OnNames (S := S) (dropColumns t oldCols) (dropColumns t oldCols) := by
  induction oldCols with
  | nil => exact OnNames.ok
  | cons p oldCols ih =>
    obtain ⟨name, oldOid⟩ := p
    intro s s' h
    unfold Backfill.dropColumns at h ⊢
    split_ifs at h ⊢ with hstays hother
    · exact ih s s' h
    · exact (OnNames.execAll _).bind ih s s' h

theorem OnNames.applyTables (old : OldColumns) (tables : List TableDef) :
    OnNames (S := S) (applyTables old tables) (applyTables old tables) := by
  induction tables with
  | nil => exact OnNames.ok
  | cons t tables ih =>
    refine OnNames.bind (f := applyTable old t) (g := applyTable old t) ?_ ih
    unfold applyTable
    cases old.lookup t.key with
    | none => exact OnNames.execAll _
    | some oldCols => exact (OnNames.execAll _).bind (OnNames.dropColumns t oldCols)

/-- **Names alone.** What `apply_schema_delta` makes of the types and tables of a server when it
returns `Ok` does not depend on what else the server has. -/
theorem applySchemaDelta_schema {types : List TypeDef} {tables : List TableDef}
    {lines : List String} {s s' : S} (h : applySchemaDelta types tables lines s = .ok s') :
    applySchemaDelta types tables lines (DdlServer.schema s) = .ok (DdlServer.schema s') :=
  (OnNames.ensureTypes types).bind
    ((OnNames.execAll _).bind (OnNames.applyTables (oldColumns lines) tables)) s s' h

end Servers

theorem ok_of_toOption {α : Type} {x : Except Failure α} {a : α} (h : x.toOption = some a) :
    x = .ok a := by
  cases x with
  | error e => cases h
  | ok b =>
    cases h
    rfl

/-- A new type is created where its name is free, and nothing else happens to it. -/
theorem ensureTypes_eq_ok {types : List TypeDef} (hnodup : (types.map TypeDef.key).Nodup)
    (h : ensureTypes types l = .ok l') :
    (∀ ty ∈ types, l' ty.key = some ((l ty.key).getD (.type ty))) ∧
      ∀ k ∉ types.map TypeDef.key, l' k = l k := by
  have hrun : run (fun (m : LocalSchema) (ty : TypeDef) =>
      some (Function.update m ty.key (some ((m ty.key).getD (.type ty))))) l types = some l' := by
    clear hnodup
    induction types generalizing l with
    | nil =>
      cases h
      rfl
    | cons ty types ih =>
      rw [ensureTypes, LocalSchema.schema_self] at h
      rw [run, Option.bind_some]
      split at h
      · next hsome =>
        obtain ⟨e, he⟩ := Option.isSome_iff_exists.1 hsome
        rw [he, Option.getD_some, ← he, Function.update_eq_self]
        exact ih h
      · next hnone =>
        obtain ⟨u, hu, hl'⟩ := bind_eq_ok.1 h
        rw [execAll_eq_ok, run_append_eq_some] at hu
        obtain ⟨v, hv, hu⟩ := hu
        obtain rfl : l = v := by simpa [run_schemaDdl] using hv
        obtain rfl : Function.update l ty.key (some (.type ty)) = u := by
          simpa [run, LocalSchema.exec, hnone] using hu
        rw [Option.not_isSome_iff_eq_none.1 hnone, Option.getD_none]
        exact ih hl'
  exact run_sets (f := fun ty e => some (e.getD (Entity.type ty))) hnodup hrun

theorem run_dropTables {keys : List TableKey} {k : TableKey} (hk : k ∉ keys)
    (h : run LocalSchema.exec l (keys.map .dropTable) = some l') : l' k = l k := by
  induction keys generalizing l with
  | nil =>
    obtain rfl : l = l' := by simpa using h
    rfl
  | cons t keys ih =>
    obtain ⟨u, hu, hl'⟩ := run_cons_eq_some.1 h
    rw [List.mem_cons, not_or] at hk
    rw [ih hk.2 hl']
    simp only [LocalSchema.exec] at hu
    split at hu
    · cases hu
    · cases hu
      rfl
    · cases hu
      rw [Function.update_of_ne hk.1]

/-- A table that is still there was not dropped. -/
theorem run_dropTables_table {keys : List TableKey} {k : TableKey} {L : LocalTable}
    (h : run LocalSchema.exec l (keys.map .dropTable) = some l') (hL : l' k = some (.table L)) :
    l k = some (.table L) := by
  induction keys generalizing l with
  | nil =>
    obtain rfl : l = l' := by simpa using h
    exact hL
  | cons t keys ih =>
    obtain ⟨u, hu, hl'⟩ := run_cons_eq_some.1 h
    have hu' := ih hl'
    simp only [LocalSchema.exec] at hu
    split at hu
    · cases hu
    · cases hu
      exact hu'
    · cases hu
      by_cases hk : k = t
      · subst hk
        simp at hu'
      · rwa [Function.update_of_ne hk] at hu'

/-- `ADD COLUMN` for each of these columns. -/
def LocalTable.addColumns (L : LocalTable) (cs : List ColDef) : LocalTable :=
  cs.foldl (fun L c => L.addColumn c.name c.typeSql) L

/-- A table of the old lines after the new columns are added and the old ones dropped. -/
def LocalTable.altered (L : LocalTable) (t : TableDef) (oldCols : List (String × Nat)) :
    LocalTable :=
  (goneColumns t oldCols).foldl LocalTable.dropColumn (L.addColumns (addedColumns t oldCols))

/-- What becomes of the table `t`. -/
def tableAfter (old : OldColumns) (t : TableDef) (e : Option Entity) : Option Entity :=
  match old.lookup t.key, e with
  | none, _ => some (.table t.full)
  | some oldCols, some (.table L) => some (.table (L.altered t oldCols))
  | some _, e => e

/-- The loop over the old columns is the `DROP COLUMN` of those that are gone. -/
theorem dropColumns_eq_ok {t : TableDef} {oldCols : List (String × Nat)}
    (h : dropColumns t oldCols l = .ok l') :
    run LocalSchema.exec l
      (((goneColumns t oldCols).map TableDdl.dropColumn).map (.alter t.key)) = some l' := by
  induction oldCols generalizing l with
  | nil =>
    cases h
    rfl
  | cons c oldCols ih =>
    obtain ⟨name, oldOid⟩ := c
    rw [dropColumns] at h
    split at h
    · next hgone =>
      obtain ⟨u, hu, hl'⟩ := bind_eq_ok.1 h
      have hgone' : goneColumns t ((name, oldOid) :: oldCols) = name :: goneColumns t oldCols := by
        simp [goneColumns, hgone]
      obtain ⟨v, hv, hnil⟩ := run_cons_eq_some.1 (execAll_eq_ok.1 hu)
      obtain rfl : v = u := by simpa using hnil
      rw [hgone', List.map_cons, List.map_cons]
      exact run_cons_eq_some.2 ⟨v, hv, ih hl'⟩
    · next hstays =>
      have hgone' : goneColumns t ((name, oldOid) :: oldCols) = goneColumns t oldCols := by
        rw [not_not] at hstays
        simp [goneColumns, hstays]
      rw [hgone']
      split at h
      · cases h
      · exact ih h

theorem run_addColumns (L : LocalTable) (cs : List ColDef) :
    run LocalTable.exec L (cs.map fun c => .addColumn c.name c.typeSql) =
      some (L.addColumns cs) := by
  induction cs generalizing L with
  | nil => rfl
  | cons c cs ih => exact ih (L.addColumn c.name c.typeSql)

theorem run_dropColumns (L : LocalTable) (names : List String) :
    run LocalTable.exec L (names.map .dropColumn) = some (names.foldl LocalTable.dropColumn L) := by
  induction names generalizing L with
  | nil => rfl
  | cons name names ih => exact ih (L.dropColumn name)

theorem run_alterStmts (L : LocalTable) (t : TableDef) (oldCols : List (String × Nat)) :
    run LocalTable.exec L (alterStmts t oldCols) = some (L.altered t oldCols) :=
  run_append_eq_some.2 ⟨_, run_addColumns .., run_dropColumns ..⟩

/-- The loops over the columns of a table are one run of its statements. -/
theorem run_tableStmts {old : OldColumns} {t : TableDef} (h : applyTable old t l = .ok l') :
    run LocalSchema.exec l (tableStmts old t) = some l' := by
  unfold applyTable at h
  unfold tableStmts
  cases hold : old.lookup t.key with
  | none =>
    rw [hold] at h
    exact execAll_eq_ok.1 h
  | some oldCols =>
    rw [hold] at h
    obtain ⟨u, hu, hl'⟩ := bind_eq_ok.1 h
    dsimp only
    rw [alterStmts, List.map_append, List.map_map]
    exact run_append_eq_some.2 ⟨u, execAll_eq_ok.1 hu, dropColumns_eq_ok hl'⟩

theorem applyTable_eq_ok {old : OldColumns} {t : TableDef} (h : applyTable old t l = .ok l') :
    l' = Function.update l t.key (tableAfter old t (l t.key)) := by
  have hrun := run_tableStmts h
  unfold tableStmts at hrun
  unfold tableAfter
  cases hold : old.lookup t.key with
  | none =>
    rw [hold] at hrun
    exact (run_tableDdl hrun).2.2
  | some oldCols =>
    rw [hold] at hrun
    dsimp only at hrun ⊢
    by_cases htable : ∃ L, l t.key = some (.table L)
    · obtain ⟨L, hL⟩ := htable
      rw [run_alter hL, run_alterStmts, Option.map_some, Option.some.injEq] at hrun
      rw [← hrun, hL]
    · have hnone : ∀ L, l t.key ≠ some (.table L) := fun L hL => htable ⟨L, hL⟩
      rw [run_alter_none hnone hrun] at hrun
      obtain rfl : l = l' := by simpa using hrun
      cases he : l t.key with
      | none => exact (Function.update_eq_self_iff.2 he.symm).symm
      | some e =>
        cases e with
        | type ty => exact (Function.update_eq_self_iff.2 he.symm).symm
        | table L => exact absurd he (hnone L)

theorem applyTables_eq_ok {old : OldColumns} {tables : List TableDef}
    (hnodup : (tables.map TableDef.key).Nodup) (h : applyTables old tables l = .ok l') :
    (∀ t ∈ tables, l' t.key = tableAfter old t (l t.key)) ∧
      ∀ k ∉ tables.map TableDef.key, l' k = l k := by
  have hrun : run (fun (m : LocalSchema) (t : TableDef) =>
      some (Function.update m t.key (tableAfter old t (m t.key)))) l tables = some l' := by
    clear hnodup
    induction tables generalizing l with
    | nil =>
      cases h
      rfl
    | cons t tables ih =>
      obtain ⟨u, hu, hl'⟩ := bind_eq_ok.1 h
      rw [applyTable_eq_ok hu] at hl'
      exact ih hl'
  exact run_sets (f := tableAfter old) hnodup hrun

section Delta

variable {types : List TypeDef} {tables : List TableDef} {lines : List String}

/-- A type is created where its name is free, and left alone otherwise. -/
theorem applySchemaDelta_type (htypes : (types.map TypeDef.key).Nodup)
    (htables : (tables.map TableDef.key).Nodup)
    (hdisjoint : ∀ t ∈ tables, ∀ ty ∈ types, ty.key ≠ t.key)
    (h : applySchemaDelta types tables lines l = .ok l') {ty : TypeDef} (hty : ty ∈ types) :
    l' ty.key = some (.type ty) ↔ l ty.key = none ∨ l ty.key = some (.type ty) := by
  obtain ⟨u, hu, h⟩ := bind_eq_ok.1 h
  obtain ⟨v, hv, hl'⟩ := bind_eq_ok.1 h
  have hdrops : ∀ stmt ∈ (droppedTables (oldColumns lines) tables).map Ddl.dropTable,
      stmt.sparesTypes := by
    intro stmt hstmt
    obtain ⟨t, -, rfl⟩ := List.mem_map.1 hstmt
    trivial
  have hlast : l' ty.key = v ty.key := by
    refine (applyTables_eq_ok htables hl').2 ty.key ?_
    rw [List.mem_map]
    rintro ⟨t, ht, hkey⟩
    exact hdisjoint t ht ty hty hkey.symm
  rw [hlast, run_type hdrops (execAll_eq_ok.1 hv), (ensureTypes_eq_ok htypes hu).1 ty hty]
  cases l ty.key <;> simp

/-- A table is altered, or made anew when no old line lists it. The types only come in its way
where its name is free. -/
theorem applySchemaDelta_table (htypes : (types.map TypeDef.key).Nodup)
    (htables : (tables.map TableDef.key).Nodup)
    (h : applySchemaDelta types tables lines l = .ok l') {t : TableDef} (ht : t ∈ tables) :
    ∃ e, l' t.key = tableAfter (oldColumns lines) t e ∧
      ((l t.key).isSome ∨ (∀ ty ∈ types, ty.key ≠ t.key) → e = l t.key) := by
  obtain ⟨u, hu, h⟩ := bind_eq_ok.1 h
  obtain ⟨v, hv, hl'⟩ := bind_eq_ok.1 h
  have hkept : v t.key = u t.key := by
    refine run_dropTables ?_ (execAll_eq_ok.1 hv)
    rw [droppedTables, List.mem_filter, not_and, decide_eq_true_iff, not_not]
    intro _
    exact List.mem_map_of_mem ht
  refine ⟨u t.key, ?_, fun hfirst => ?_⟩
  · rw [(applyTables_eq_ok htables hl').1 t ht, hkept]
  · obtain ⟨hset, hframe⟩ := ensureTypes_eq_ok htypes hu
    by_cases hkey : t.key ∈ types.map TypeDef.key
    · obtain ⟨ty, hty, hkey⟩ := List.mem_map.1 hkey
      rcases hfirst with hsome | hdisjoint
      · obtain ⟨e, he⟩ := Option.isSome_iff_exists.1 hsome
        rw [← hkey, hset ty hty, hkey, he, Option.getD_some]
      · exact absurd hkey (hdisjoint ty hty)
    · exact hframe t.key hkey

/-- A table that is not in the new catalog stays as it is, or goes. -/
theorem applySchemaDelta_frame (htypes : (types.map TypeDef.key).Nodup)
    (htables : (tables.map TableDef.key).Nodup)
    (h : applySchemaDelta types tables lines l = .ok l') {k : TableKey}
    (hk : k ∉ tables.map TableDef.key) {L : LocalTable} (hL : l' k = some (.table L)) :
    l k = some (.table L) := by
  obtain ⟨u, hu, h⟩ := bind_eq_ok.1 h
  obtain ⟨v, hv, hl'⟩ := bind_eq_ok.1 h
  rw [(applyTables_eq_ok htables hl').2 k hk] at hL
  have hu' : u k = some (.table L) := run_dropTables_table (execAll_eq_ok.1 hv) hL
  obtain ⟨hset, hframe⟩ := ensureTypes_eq_ok htypes hu
  by_cases hkey : k ∈ types.map TypeDef.key
  · obtain ⟨ty, hty, rfl⟩ := List.mem_map.1 hkey
    rw [hset ty hty] at hu'
    cases hl : l ty.key with
    | none => simp [hl] at hu'
    | some e => simpa [hl] using hu'
  · rwa [hframe k hkey] at hu'

end Delta

theorem run_tablesStmts {old : OldColumns} {tables : List TableDef}
    (h : applyTables old tables l = .ok l') :
    run LocalSchema.exec l (tables.flatMap (tableStmts old)) = some l' := by
  rw [run_flatMap]
  induction tables generalizing l with
  | nil =>
    cases h
    rfl
  | cons t tables ih =>
    obtain ⟨u, hu, hl'⟩ := bind_eq_ok.1 h
    exact run_cons_eq_some.2 ⟨u, run_tableStmts hu, ih hl'⟩

/-- After the types, `apply_schema_delta` issues its statements on tables. -/
theorem run_deltaStmts {types : List TypeDef} {tables : List TableDef} {lines : List String}
    (h : applySchemaDelta types tables lines l = .ok l') :
    ∃ u, ensureTypes types l = .ok u ∧
      run LocalSchema.exec u (deltaStmts (oldColumns lines) tables) = some l' := by
  obtain ⟨u, hu, h⟩ := bind_eq_ok.1 h
  obtain ⟨v, hv, hl'⟩ := bind_eq_ok.1 h
  exact ⟨u, hu, run_append_eq_some.2 ⟨v, execAll_eq_ok.1 hv, run_tablesStmts hl'⟩⟩

/-! ## The altered table -/

theorem columnNames_addColumn (L : LocalTable) (name typeSql n : String) :
    n ∈ (L.addColumn name typeSql).columnNames ↔ n ∈ L.columnNames ∨ n = name := by
  unfold LocalTable.addColumn
  by_cases hname : name ∈ L.columnNames
  · rw [if_pos hname]
    constructor
    · exact .inl
    · intro h
      rcases h with h | rfl
      · exact h
      · exact hname
  · rw [if_neg hname]
    simp [LocalTable.columnNames]

theorem columnNames_addColumns (L : LocalTable) (cs : List ColDef) (n : String) :
    n ∈ (L.addColumns cs).columnNames ↔ n ∈ L.columnNames ∨ n ∈ cs.map ColDef.name := by
  induction cs generalizing L with
  | nil => simp [LocalTable.addColumns]
  | cons c cs ih =>
    have hstep : L.addColumns (c :: cs) = (L.addColumn c.name c.typeSql).addColumns cs := rfl
    rw [hstep, ih, columnNames_addColumn, List.map_cons, List.mem_cons, or_assoc]

theorem nodup_addColumn {L : LocalTable} (h : L.columnNames.Nodup) (name typeSql : String) :
    (L.addColumn name typeSql).columnNames.Nodup := by
  unfold LocalTable.addColumn
  by_cases hname : name ∈ L.columnNames
  · rwa [if_pos hname]
  · rw [if_neg hname, LocalTable.columnNames, List.map_append, List.map_singleton,
      ← List.concat_eq_append, List.nodup_concat]
    exact ⟨hname, h⟩

theorem pk_addColumn (L : LocalTable) (name typeSql : String) :
    (L.addColumn name typeSql).pk = L.pk := by
  unfold LocalTable.addColumn
  split <;> rfl

theorem indexes_addColumn (L : LocalTable) (name typeSql : String) :
    (L.addColumn name typeSql).indexes = L.indexes := by
  unfold LocalTable.addColumn
  split <;> rfl

theorem addColumns_pk_indexes (L : LocalTable) (cs : List ColDef) :
    (L.addColumns cs).pk = L.pk ∧ (L.addColumns cs).indexes = L.indexes := by
  induction cs generalizing L with
  | nil => exact ⟨rfl, rfl⟩
  | cons c cs ih =>
    obtain ⟨hpk, hindexes⟩ := ih (L.addColumn c.name c.typeSql)
    exact ⟨hpk.trans (pk_addColumn ..), hindexes.trans (indexes_addColumn ..)⟩

theorem nodup_addColumns {L : LocalTable} (h : L.columnNames.Nodup) (cs : List ColDef) :
    (L.addColumns cs).columnNames.Nodup := by
  induction cs generalizing L with
  | nil => exact h
  | cons c cs ih => exact ih (nodup_addColumn h c.name c.typeSql)

theorem mem_addColumns {L : LocalTable} {cs : List ColDef} (hnodup : (cs.map ColDef.name).Nodup)
    (x : LocalColumn) : x ∈ (L.addColumns cs).columns ↔ x ∈ L.columns ∨
      ∃ c ∈ cs, c.name ∉ L.columnNames ∧ x = ⟨c.name, c.typeSql, false⟩ := by
  induction cs generalizing L with
  | nil => simp [LocalTable.addColumns]
  | cons c cs ih =>
    rw [List.map_cons, List.nodup_cons] at hnodup
    have hfirst : x ∈ (L.addColumn c.name c.typeSql).columns ↔ x ∈ L.columns ∨
        c.name ∉ L.columnNames ∧ x = ⟨c.name, c.typeSql, false⟩ := by
      unfold LocalTable.addColumn
      by_cases hname : c.name ∈ L.columnNames
      · simp [hname]
      · simp [hname]
    -- The columns that follow have other names.
    have hrest : ∀ c' ∈ cs, (c'.name ∉ (L.addColumn c.name c.typeSql).columnNames ↔
        c'.name ∉ L.columnNames) := by
      intro c' hc'
      have hne : c'.name ≠ c.name := by
        intro heq
        exact hnodup.1 (heq ▸ List.mem_map_of_mem hc')
      rw [columnNames_addColumn]
      simp [hne]
    have hstep : L.addColumns (c :: cs) = (L.addColumn c.name c.typeSql).addColumns cs := rfl
    rw [hstep, ih hnodup.2, hfirst, List.exists_mem_cons_iff, or_assoc]
    refine or_congr_right (or_congr_right (exists_congr fun c' => and_congr_right fun hc' => ?_))
    rw [hrest c' hc']

theorem foldl_dropColumn (L : LocalTable) (names : List String) :
    names.foldl LocalTable.dropColumn L =
      { columns := L.columns.filter fun c => decide (c.name ∉ names)
        pk := if ∃ name ∈ L.pk, name ∈ names then [] else L.pk
        indexes := L.indexes.filter fun i => decide (∀ name ∈ i.columns, name ∉ names) } := by
  induction names generalizing L with
  | nil => simp
  | cons name names ih =>
    rw [List.foldl_cons, ih, LocalTable.dropColumn]
    congr 1
    · rw [List.filter_filter]
      refine List.filter_congr fun c _ => ?_
      simp [Bool.and_comm]
    · by_cases hname : name ∈ L.pk
      · have hgone : ∃ n ∈ L.pk, n ∈ name :: names := ⟨name, hname, List.mem_cons_self⟩
        rw [if_pos hname, if_pos hgone, ite_self]
      · have hgone : (∃ n ∈ L.pk, n ∈ name :: names) ↔ ∃ n ∈ L.pk, n ∈ names := by
          refine exists_congr fun n => and_congr_right fun hn => ?_
          rw [List.mem_cons, or_iff_right]
          rintro rfl
          exact hname hn
        simp only [if_neg hname, hgone]
    · rw [List.filter_filter]
      refine List.filter_congr fun i _ => ?_
      rw [← Bool.decide_and, decide_eq_decide]
      constructor
      · rintro ⟨hnames, hname⟩ n hn
        rw [List.mem_cons, not_or]
        exact ⟨fun heq => hname (heq ▸ hn), hnames n hn⟩
      · intro h
        refine ⟨fun n hn hmem => h n hn (List.mem_cons_of_mem name hmem), fun hname => ?_⟩
        exact h name hname List.mem_cons_self

/-! ## Agreeing with a rebuild -/

/-- The same table, the order of its columns and indexes aside. -/
structure LocalTable.Same (L R : LocalTable) : Prop where
  columns : L.columns.Perm R.columns
  pk : L.pk = R.pk
  indexes : L.indexes.Perm R.indexes

/-- The types and the tables of a catalog are the same in two databases. -/
structure Catalog.SameIn (c : Catalog) (l r : LocalSchema) : Prop where
  type : ∀ ty ∈ c.types, l ty.key = r ty.key
  table : ∀ t ∈ c.tables, ∃ L R, l t.key = some (.table L) ∧ r t.key = some (.table R) ∧ L.Same R

/-- The changes of a table that `apply_schema_delta` carries over: columns that are dropped and
new columns that may be `NULL`. -/
structure TableDef.AltersTo (o t : TableDef) (oldCols : List (String × Nat)) : Prop where
  kept : ∀ c ∈ o.columns, c.name ∉ goneColumns t oldCols →
    o.localColumn c ∈ t.columns.map t.localColumn
  added : ∀ c ∈ t.columns, c.name ∉ o.columnNames →
    c.name ∉ oldCols.map Prod.fst ∧ (t.localColumn c).notNull = false
  pk : t.pk = if ∃ name ∈ o.pk, name ∈ goneColumns t oldCols then [] else o.pk
  indexes : ∀ i, i ∈ t.indexes ↔ i ∈ o.indexes ∧ ∀ name ∈ i.columns, name ∉ goneColumns t oldCols

/-- The lines that `resync_schema` passes on after the catalog was published. -/
def Catalog.lines (c : Catalog) : List String :=
  (Expected.ofFingerprint (fingerprint (c.tables.map TableDef.recorded))).values

/-- The changes of a catalog that `apply_schema_delta` carries over. Types stay as they are, unless
they are new under a free name. -/
structure Catalog.AltersTo (c c' : Catalog) : Prop where
  type : ∀ ty ∈ c'.types, ty ∈ c.types ∨
    ty.key ∉ c.types.map TypeDef.key ∧ ty.key ∉ c.tables.map TableDef.key
  table : ∀ t ∈ c'.tables, ∀ oldCols, (oldColumns c.lines).lookup t.key = some oldCols →
    ∃ o ∈ c.tables, o.key = t.key ∧ o.AltersTo t oldCols

theorem localColumn_injOn {t : TableDef} (h : t.columnNames.Nodup) {c c' : ColDef}
    (hc : c ∈ t.columns) (hc' : c' ∈ t.columns) (hname : c.name = c'.name) : c = c' :=
  List.inj_on_of_nodup_map h hc hc' hname

theorem columnNames_full (t : TableDef) : t.full.columnNames = t.columnNames := by
  simp [LocalTable.columnNames, TableDef.columnNames, TableDef.full, TableDef.bare,
    TableDef.localColumn, Function.comp_def]

theorem full_indexes (t : TableDef) : t.full.indexes = t.indexes := rfl

/-- A column of the new table is not gone. -/
theorem not_mem_goneColumns {t : TableDef} {name : String} (h : name ∈ t.columnNames)
    (oldCols : List (String × Nat)) : name ∉ goneColumns t oldCols := by
  rw [goneColumns, List.mem_filter, decide_eq_true_iff, not_and, not_not]
  intro _
  exact h

theorem nodup_of_columnNames {L : LocalTable} (h : L.columnNames.Nodup) : L.columns.Nodup :=
  h.of_map

theorem mem_altered (o : TableDef) {t : TableDef} (ht : t.columnNames.Nodup)
    (oldCols : List (String × Nat)) (x : LocalColumn) : x ∈ (o.full.altered t oldCols).columns ↔
      (∃ c ∈ o.columns, c.name ∉ goneColumns t oldCols ∧ x = o.localColumn c) ∨
      ∃ c ∈ t.columns, c.name ∉ oldCols.map Prod.fst ∧ c.name ∉ o.columnNames ∧
        x = ⟨c.name, c.typeSql, false⟩ := by
  have hadded : ((addedColumns t oldCols).map ColDef.name).Nodup :=
    ht.sublist (List.filter_sublist.map ColDef.name)
  rw [LocalTable.altered, foldl_dropColumn, List.mem_filter, mem_addColumns hadded,
    columnNames_full, decide_eq_true_iff]
  constructor
  · rintro ⟨hx | ⟨c, hc, hname, rfl⟩, hstays⟩
    · obtain ⟨c, hc, rfl⟩ := List.mem_map.1 hx
      exact .inl ⟨c, hc, hstays, rfl⟩
    · rw [addedColumns, List.mem_filter, decide_eq_true_iff] at hc
      exact .inr ⟨c, hc.1, hc.2, hname, rfl⟩
  · rintro (⟨c, hc, hstays, rfl⟩ | ⟨c, hc, hnew, hname, rfl⟩)
    · exact ⟨.inl (List.mem_map_of_mem hc), hstays⟩
    · refine ⟨.inr ⟨c, ?_, hname, rfl⟩, ?_⟩
      · rw [addedColumns, List.mem_filter, decide_eq_true_iff]
        exact ⟨hc, hnew⟩
      · exact not_mem_goneColumns (List.mem_map_of_mem hc) oldCols

/-- An altered table is the new one exactly for the changes that are carried over. -/
theorem same_altered_iff {o t : TableDef} (ho : o.Creatable) (ht : t.Creatable)
    (oldCols : List (String × Nat)) :
    (o.full.altered t oldCols).Same t.full ↔ o.AltersTo t oldCols := by
  obtain ⟨⟨honodup, -⟩, hoindexes⟩ := ho
  obtain ⟨⟨htnodup, -⟩, htindexes⟩ := ht
  have hcolumns : (o.full.altered t oldCols).columns.Nodup := by
    rw [LocalTable.altered, foldl_dropColumn]
    have hadd := nodup_addColumns ((columnNames_full o).symm ▸ honodup) (addedColumns t oldCols)
    exact (nodup_of_columnNames hadd).filter _
  have hfull : t.full.columns.Nodup :=
    nodup_of_columnNames ((columnNames_full t).symm ▸ htnodup)
  have hpk : (o.full.altered t oldCols).pk =
      if ∃ name ∈ o.pk, name ∈ goneColumns t oldCols then [] else o.pk := by
    rw [LocalTable.altered, foldl_dropColumn, (addColumns_pk_indexes ..).1]
    rfl
  have hindexes : (o.full.altered t oldCols).indexes =
      o.indexes.filter fun i => decide (∀ name ∈ i.columns, name ∉ goneColumns t oldCols) := by
    rw [LocalTable.altered, foldl_dropColumn, (addColumns_pk_indexes ..).2]
    rfl
  have hmem := mem_altered o htnodup oldCols
  constructor
  · intro h
    refine ⟨?_, ?_, ?_, ?_⟩
    · intro c hc hstays
      exact h.columns.subset ((hmem _).2 (.inl ⟨c, hc, hstays, rfl⟩))
    · intro c hc hname
      have hin := h.columns.symm.subset (List.mem_map_of_mem hc)
      rcases (hmem _).1 hin with ⟨c', hc', -, heq⟩ | ⟨c', -, hnew, -, heq⟩
      · have hnames : c.name = c'.name := congrArg LocalColumn.name heq
        exact absurd (hnames ▸ List.mem_map_of_mem hc') hname
      · have hnames : c.name = c'.name := congrArg LocalColumn.name heq
        exact ⟨hnames ▸ hnew, congrArg LocalColumn.notNull heq⟩
    · exact h.pk.symm.trans hpk
    · intro i
      have hi := h.indexes.mem_iff (a := i)
      rw [hindexes, List.mem_filter, decide_eq_true_iff] at hi
      exact hi.symm
  · intro h
    refine ⟨?_, hpk.trans h.pk.symm, ?_⟩
    · rw [List.perm_ext_iff_of_nodup hcolumns hfull]
      intro x
      rw [hmem]
      constructor
      · rintro (⟨c, hc, hstays, rfl⟩ | ⟨c, hc, -, hname, rfl⟩)
        · exact h.kept c hc hstays
        · have hnull := (h.added c hc hname).2
          refine List.mem_map.2 ⟨c, hc, ?_⟩
          rw [← hnull]
          rfl
      · intro hx
        obtain ⟨c, hc, rfl⟩ := List.mem_map.1 hx
        by_cases hname : c.name ∈ o.columnNames
        · -- The old column of that name is there still, and there is one of the name only.
          obtain ⟨c', hc', hnames⟩ := List.mem_map.1 hname
          have hstays : c'.name ∉ goneColumns t oldCols :=
            not_mem_goneColumns (hnames ▸ List.mem_map_of_mem hc) oldCols
          obtain ⟨c'', hc'', heq⟩ := List.mem_map.1 (h.kept c' hc' hstays)
          have hnames' : c''.name = c'.name := congrArg LocalColumn.name heq
          obtain rfl := localColumn_injOn htnodup hc'' hc (hnames'.trans hnames)
          exact .inl ⟨c', hc', hstays, heq⟩
        · obtain ⟨hnew, hnull⟩ := h.added c hc hname
          refine .inr ⟨c, hc, hnew, hname, ?_⟩
          rw [← hnull]
          rfl
    · rw [hindexes, full_indexes, List.perm_ext_iff_of_nodup (hoindexes.filter _) htindexes]
      intro i
      rw [List.mem_filter, decide_eq_true_iff, h.indexes]

/-- **Resync and rebuild.** The replica mirrors the old catalog as `bootstrap_schema` made it, and
`apply_schema_delta` returns without an error. The types and tables of the new catalog are then
what `bootstrap_schema` would make of it on an empty database, if and only if the new catalog is
one that dropped columns, new columns that may be `NULL`, new tables and new types lead to. -/
theorem apply_schema_delta_rebuilds {c c' : Catalog} {r : LocalSchema}
    (mirrored : bootstrapSchema c.types c.tables .empty = some l)
    (rebuilt : bootstrapSchema c'.types c'.tables .empty = some r)
    (applied : applySchemaDelta c'.types c'.tables c.lines l = .ok l') :
    c'.SameIn l' r ↔ c.AltersTo c' := by
  have hl := built_of_bootstrapSchema mirrored
  have hr := built_of_bootstrapSchema rebuilt
  have hdisjoint : ∀ t ∈ c'.tables, ∀ ty ∈ c'.types, ty.key ≠ t.key := by
    intro t ht ty hty hkey
    have htype := hr.type ty hty
    simp [hkey, hr.table t ht] at htype
  have htype : ∀ ty ∈ c'.types, (l' ty.key = r ty.key ↔ ty ∈ c.types ∨
      ty.key ∉ c.types.map TypeDef.key ∧ ty.key ∉ c.tables.map TableDef.key) := by
    intro ty hty
    rw [hr.type ty hty, applySchemaDelta_type c'.types_nodup c'.tables_nodup hdisjoint applied hty,
      hl.free_iff, hl.type_iff, or_comm]
    simp
  have htable : ∀ t ∈ c'.tables, ((∃ L R, l' t.key = some (.table L) ∧
      r t.key = some (.table R) ∧ L.Same R) ↔
        ∀ oldCols, (oldColumns c.lines).lookup t.key = some oldCols →
          ∃ o ∈ c.tables, o.key = t.key ∧ o.AltersTo t oldCols) := by
    intro t ht
    obtain ⟨e, hafter, hfirst⟩ :=
      applySchemaDelta_table c'.types_nodup c'.tables_nodup applied ht
    have ht' := hr.creatable t ht
    rw [hr.table t ht, hafter, hfirst (.inr (hdisjoint t ht))]
    unfold tableAfter
    cases hold : (oldColumns c.lines).lookup t.key with
    | none => simpa using ⟨.refl _, rfl, .refl _⟩
    | some oldCols =>
      simp only [Option.some.injEq, Entity.table.injEq, forall_eq']
      constructor
      · rintro ⟨L', R, hL', rfl, hsame⟩
        cases he : l t.key with
        | none => simp [he] at hL'
        | some e =>
          cases e with
          | type ty => simp [he] at hL'
          | table L =>
            obtain ⟨o, ho, hkey, rfl⟩ := (hl.table_iff t.key L).1 he
            obtain rfl : o.full.altered t oldCols = L' := by simpa [he] using hL'
            exact ⟨o, ho, hkey, (same_altered_iff (hl.creatable o ho) ht' oldCols).1 hsame⟩
      · rintro ⟨o, ho, hkey, halters⟩
        have he := (hl.table_iff t.key o.full).2 ⟨o, ho, hkey, rfl⟩
        refine ⟨o.full.altered t oldCols, t.full, by simp [he], rfl, ?_⟩
        exact (same_altered_iff (hl.creatable o ho) ht' oldCols).2 halters
  constructor
  · intro h
    exact ⟨fun ty hty => (htype ty hty).1 (h.type ty hty),
      fun t ht => (htable t ht).1 (h.table t ht)⟩
  · intro h
    exact ⟨fun ty hty => (htype ty hty).2 (h.type ty hty),
      fun t ht => (htable t ht).2 (h.table t ht)⟩

/-- A table with an index, and an enum that one of its columns has. -/
def published : Catalog where
  types := [.enum "public" "mood" ["sad", "ok"]]
  tables :=
    [{ schema := "public"
       name := "t"
       columns :=
        [⟨"id", "integer", 23, true⟩, ⟨"size", "character varying(10)", 1043, false⟩,
          ⟨"mood", "mood", 16401, false⟩]
       pk := ["id"]
       replicaIdentity := "d"
       rowFilter := none
       indexes := [⟨"CREATE INDEX t_size_idx ON public.t USING btree (size)", ["size"]⟩] }]
  types_nodup := by decide
  tables_nodup := by decide

/-- `size` is dropped, `note` is added, and a domain and a table are new. -/
def extended : Catalog where
  types := [.enum "public" "mood" ["sad", "ok"], .domain "public" "percent" "integer" false []]
  tables :=
    [{ schema := "public"
       name := "t"
       columns :=
        [⟨"id", "integer", 23, true⟩, ⟨"mood", "mood", 16401, false⟩, ⟨"note", "text", 25, false⟩]
       pk := ["id"]
       replicaIdentity := "d"
       rowFilter := none
       indexes := [] },
     { schema := "public"
       name := "u"
       columns := [⟨"share", "percent", 16410, true⟩]
       pk := []
       replicaIdentity := "f"
       rowFilter := none
       indexes := [] }]
  types_nodup := by decide
  tables_nodup := by decide

theorem published_altersTo_extended : published.AltersTo extended := by
  have hold : (oldColumns published.lines).lookup ("public", "t") =
      some [("id", 23), ("size", 1043), ("mood", 16401)] := by decide +kernel
  have hnew : (oldColumns published.lines).lookup ("public", "u") = none := by decide +kernel
  refine ⟨by decide, ?_⟩
  simp only [extended, List.forall_mem_cons, List.not_mem_nil, false_imp_iff, implies_true,
    and_true]
  constructor
  · intro oldCols hcols
    obtain rfl := Option.some.inj (hold.symm.trans hcols)
    refine ⟨_, List.mem_cons_self, rfl, by decide, by decide, by decide, ?_⟩
    intro i
    constructor
    · intro hi
      cases hi
    · rintro ⟨hi, hstays⟩
      obtain rfl := List.mem_singleton.1 hi
      exact absurd (by decide) (hstays "size" List.mem_cons_self)
  · intro oldCols hcols
    cases hnew.symm.trans hcols

theorem apply_schema_delta_rebuilds_extended : ∃ l r l',
    bootstrapSchema published.types published.tables .empty = some l ∧
    bootstrapSchema extended.types extended.tables .empty = some r ∧
    applySchemaDelta extended.types extended.tables published.lines l = .ok l' ∧
    extended.SameIn l' r := by
  have hrebuilt : (bootstrapSchema extended.types extended.tables .empty).isSome := by
    decide +kernel
  have hrun : ((bootstrapSchema published.types published.tables .empty).bind fun l =>
      (applySchemaDelta extended.types extended.tables published.lines l).toOption).isSome := by
    decide +kernel
  obtain ⟨r, hr⟩ := Option.isSome_iff_exists.1 hrebuilt
  obtain ⟨l', hl'⟩ := Option.isSome_iff_exists.1 hrun
  obtain ⟨l, hl, happly⟩ := Option.bind_eq_some_iff.1 hl'
  have hrebuilds := apply_schema_delta_rebuilds hl hr (ok_of_toOption happly)
  exact ⟨l, r, l', hl, hr, ok_of_toOption happly, hrebuilds.2 published_altersTo_extended⟩

/-- `size` of `published` is made wider, which leaves its type OID as it is. -/
def widened : Catalog where
  types := [.enum "public" "mood" ["sad", "ok"]]
  tables :=
    [{ schema := "public"
       name := "t"
       columns :=
        [⟨"id", "integer", 23, true⟩, ⟨"size", "character varying(20)", 1043, false⟩,
          ⟨"mood", "mood", 16401, false⟩]
       pk := ["id"]
       replicaIdentity := "d"
       rowFilter := none
       indexes := [⟨"CREATE INDEX t_size_idx ON public.t USING btree (size)", ["size"]⟩] }]
  types_nodup := by decide
  tables_nodup := by decide

/-- The resync leaves the narrow column, and a rebuild would have made the wide one. -/
theorem apply_schema_delta_keeps_modifier :
    ¬ ∀ (c c' : Catalog) (l r l' : LocalSchema),
      bootstrapSchema c.types c.tables .empty = some l →
      bootstrapSchema c'.types c'.tables .empty = some r →
      applySchemaDelta c'.types c'.tables c.lines l = .ok l' → c'.SameIn l' r := by
  intro h
  have hrun : ((bootstrapSchema published.types published.tables .empty).bind fun l =>
      (applySchemaDelta widened.types widened.tables published.lines l).toOption.map fun l' =>
        l' ("public", "t")) = some ((published.tables.head?).map fun t => .table t.full) := by
    decide +kernel
  have hrebuilt : ((bootstrapSchema widened.types widened.tables .empty).map fun r =>
      r ("public", "t")) = some ((widened.tables.head?).map fun t => .table t.full) := by
    decide +kernel
  obtain ⟨l, hl, happly⟩ := Option.bind_eq_some_iff.1 hrun
  obtain ⟨l', hl', hleft⟩ := Option.map_eq_some_iff.1 happly
  obtain ⟨r, hr, hmade⟩ := Option.map_eq_some_iff.1 hrebuilt
  have hok := ok_of_toOption hl'
  obtain ⟨L, R, hL, hR, hsame⟩ := (h published widened l r l' hl hr hok).table _ List.mem_cons_self
  have hL : some (Entity.table L) = published.tables.head?.map fun t => .table t.full :=
    hL.symm.trans hleft
  have hR : some (Entity.table R) = widened.tables.head?.map fun t => .table t.full :=
    hR.symm.trans hmade
  cases hL
  cases hR
  exact absurd hsame.columns (by decide)

end Pglite.Replica.Backfill
