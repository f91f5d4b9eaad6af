import Pglite.Replica.Rows
import Pglite.Replica.SchemaDeltaProof

/-!
# Repeating a schema change

`apply_schema_delta` runs its statements one by one, outside a transaction. When it fails,
`resync_schema` leaves the stored fingerprint as it was, and the next attempt starts again from
the same old lines, on what the statements so far have made of the local schema.

This module is about the types and tables alone, on which every statement works by one name. An
attempt is then one run for each name: of an altered table, of a new one, of one that is dropped,
of a new type. A name that has two of these parts at once is where a repetition may go wrong. A
type is only created when its name is not in `pg_type`, where the row type of a table also is.
Where a type takes the name of a table that is dropped, the first attempt leaves the type out and
the next one creates it, right before it drops the table.

* `applySchemaDeltaIn_eq`: an attempt is its statements, on any server.
* `FitsNames`: when the names of a catalog fit. `FitsNames.repeats` says that a repetition then comes
  to the end of an attempt in one go, `fitsNames_of_run` that nothing less will do.
-/

namespace Pglite.Replica.Backfill

open Runs

/-! ## The statements of an attempt -/

/-- A catalog of the upstream, where a type and a table have different names. -/
structure UpstreamCatalog extends Catalog where
  disjoint : ∀ t ∈ tables, ∀ ty ∈ types, ty.key ≠ t.key

/-- The loop over the new types, on the local schema it starts from. -/
def typeStmts (l : LocalSchema) (types : List TypeDef) : List Ddl :=
  types.flatMap fun ty => if (l ty.key).isSome then [] else schemaDdl ty.schema ++ [.createType ty]

/-- The statements of `apply_schema_delta` on this local schema, when it drops tables in the order
`drops`. -/
def callStmts (c : UpstreamCatalog) (lines : List String) (drops : List TableKey)
    (l : LocalSchema) : List Ddl :=
  typeStmts l c.types ++ drops.map .dropTable ++
    c.tables.flatMap (tableStmts (oldColumns lines))

section Servers

variable {S : Type} [DdlServer S]

/-- `apply_schema_delta`, when the keys of its map come in the order `drops`. -/
def applySchemaDeltaIn (drops : List TableKey) (newTypes : List TypeDef)
    (newTables : List TableDef) (oldLines : List String) (s : S) : Except Failure S :=
  let old := oldColumns oldLines
  (ensureTypes newTypes s).bind fun s =>
    (execAll s (drops.map .dropTable)).bind (applyTables old newTables)

theorem applySchemaDelta_eq (types : List TypeDef) (tables : List TableDef) (lines : List String)
    (s : S) : applySchemaDelta types tables lines s =
      applySchemaDeltaIn (droppedTables (oldColumns lines) tables) types tables lines s := rfl

end Servers

/-- No column that stays has another type. -/
def Compatible (old : OldColumns) (t : TableDef) : Prop :=
  ∀ oldCols ∈ old.lookup t.key, ∀ p ∈ oldCols, ∀ c ∈ t.columns,
    c.name = p.1 → c.typeOid.toNat = p.2

section Statements

variable {S : Type} [DdlServer S] {s : S} {l : LocalSchema} {types : List TypeDef}
  {tables : List TableDef} {old : OldColumns}

theorem execAll_append (s : S) (as bs : List Ddl) :
    execAll s (as ++ bs) = (execAll s as).bind fun u => execAll u bs := by
  induction as generalizing s with
  | nil => rfl
  | cons a as ih =>
    unfold execAll at ih ⊢
    rw [List.cons_append, run, run]
    cases DdlServer.exec s a with
    | none => rfl
    | some u => exact ih u

theorem execAll_cons (s : S) (a : Ddl) (as : List Ddl) :
    execAll s (a :: as) = (execAll s [a]).bind fun u => execAll u as :=
  execAll_append s [a] as

theorem typeStmts_update {ty : TypeDef} (h : ty.key ∉ types.map TypeDef.key) (e : Option Entity) :
    typeStmts (Function.update l ty.key e) types = typeStmts l types := by
  refine List.flatMap_congr fun ty' hty' => ?_
  have hne : ty'.key ≠ ty.key := fun heq => h (heq ▸ List.mem_map_of_mem hty')
  rw [Function.update_of_ne hne]

/-- A type that is created is there, and nothing else is another. -/
theorem schema_createType {s u : S} {ty : TypeDef}
    (h : execAll s (schemaDdl ty.schema ++ [.createType ty]) = .ok u) :
    DdlServer.schema u = Function.update (DdlServer.schema s) ty.key (some (.type ty)) := by
  obtain ⟨v, hv, hu⟩ := run_append_eq_some.1 (run_schema (execAll_ok_iff.1 h))
  obtain rfl : DdlServer.schema s = v := by simpa [run_schemaDdl] using hv
  simp only [run_cons_eq_some, run_nil, LocalSchema.exec, Option.some.injEq,
    exists_eq_right] at hu
  split_ifs at hu
  exact (Option.some.inj hu).symm

theorem ensureTypes_eq (hnodup : (types.map TypeDef.key).Nodup) :
    ensureTypes types s = execAll s (typeStmts (DdlServer.schema s) types) := by
  induction types generalizing s with
  | nil => rfl
  | cons ty types ih =>
    rw [List.map_cons, List.nodup_cons] at hnodup
    have hcons : typeStmts (DdlServer.schema s) (ty :: types) =
        (if (DdlServer.schema s ty.key).isSome then []
          else schemaDdl ty.schema ++ [.createType ty]) ++
            typeStmts (DdlServer.schema s) types := rfl
    rw [ensureTypes, hcons]
    split_ifs with hsome
    · exact ih hnodup.2
    · rw [execAll_append s (schemaDdl ty.schema ++ _)]
      cases hcreate : execAll s (schemaDdl ty.schema ++ [.createType ty]) with
      | error e => rfl
      | ok u =>
        refine (ih hnodup.2).trans ?_
        rw [schema_createType hcreate, typeStmts_update hnodup.1]
        rfl

theorem dropColumns_eq {t : TableDef} {oldCols : List (String × Nat)}
    (h : ∀ p ∈ oldCols, ∀ c ∈ t.columns, c.name = p.1 → c.typeOid.toNat = p.2) :
    dropColumns t oldCols s =
      execAll s (((goneColumns t oldCols).map TableDdl.dropColumn).map (.alter t.key)) := by
  induction oldCols generalizing s with
  | nil => rfl
  | cons p oldCols ih =>
    obtain ⟨name, oldOid⟩ := p
    rw [List.forall_mem_cons] at h
    have hsame : ¬∃ c ∈ t.columns, c.name = name ∧ c.typeOid.toNat ≠ oldOid := by
      rintro ⟨c, hc, hname, hne⟩
      exact hne (h.1 c hc hname)
    by_cases hgone : name ∉ t.columnNames
    · have hcons : goneColumns t ((name, oldOid) :: oldCols) = name :: goneColumns t oldCols := by
        simp [goneColumns, hgone]
      rw [dropColumns, if_pos hgone, hcons, List.map_cons, List.map_cons]
      refine Eq.trans ?_ (execAll_cons s _ _).symm
      exact congrArg _ (funext fun u => ih h.2)
    · have hcons : goneColumns t ((name, oldOid) :: oldCols) = goneColumns t oldCols := by
        simp [goneColumns, not_not.1 hgone]
      rw [dropColumns, if_neg hgone, if_neg hsame, hcons]
      exact ih h.2

theorem applyTable_eq {t : TableDef} (h : Compatible old t) :
    applyTable old t s = execAll s (tableStmts old t) := by
  unfold applyTable tableStmts
  cases hold : old.lookup t.key with
  | none => rfl
  | some oldCols =>
    dsimp only
    rw [alterStmts, List.map_append, execAll_append, List.map_map]
    exact congrArg _ (funext fun u => dropColumns_eq (h oldCols hold))

theorem applyTables_eq (h : ∀ t ∈ tables, Compatible old t) :
    applyTables old tables s = execAll s (tables.flatMap (tableStmts old)) := by
  induction tables generalizing s with
  | nil => rfl
  | cons t tables ih =>
    rw [List.forall_mem_cons] at h
    rw [applyTables, applyTable_eq h.1, List.flatMap_cons, execAll_append]
    exact congrArg _ (funext fun u => ih h.2)

/-- **An attempt is its statements**, one after the other. -/
theorem applySchemaDeltaIn_eq {c : UpstreamCatalog} {lines : List String}
    (h : ∀ t ∈ c.tables, Compatible (oldColumns lines) t) (drops : List TableKey) :
    applySchemaDeltaIn drops c.types c.tables lines s =
      execAll s (callStmts c lines drops (DdlServer.schema s)) := by
  unfold applySchemaDeltaIn callStmts
  rw [ensureTypes_eq c.types_nodup, List.append_assoc, execAll_append]
  refine congrArg _ (funext fun u => Eq.trans ?_ (execAll_append u _ _).symm)
  exact congrArg _ (funext fun v => applyTables_eq h)

end Statements

/-! ## Name by name -/

/-- The name that a statement works on. A schema has none. -/
def Ddl.key : Ddl → Option TableKey
  | .createSchema _ => none
  | .dropType ty => some ty.key
  | .createType ty => some ty.key
  | .dropTable t => some t
  | .createTable t => some t.key
  | .alter t _ => some t

/-- What a statement makes of what its name stands for. -/
def execAt (e : Option Entity) : Ddl → Option (Option Entity)
  | .createSchema _ => some e
  | .dropType _ =>
    match e with
    | some (.table _) => none
    | _ => some none
  | .createType ty => if e.isSome then none else some (some (.type ty))
  | .dropTable _ =>
    match e with
    | some (.type (.composite ..)) => none
    | some (.type _) => some e
    | _ => some none
  | .createTable t => if e.isNone ∧ t.WellFormed then some (some (.table t.bare)) else none
  | .alter _ stmt =>
    match e with
    | some (.table L) => (L.exec stmt).map fun L => some (.table L)
    | _ => none

theorem exec_eq_keyedStep : LocalSchema.exec = keyedStep Ddl.key execAt := by
  funext l stmt
  cases stmt with
  | createSchema schema => rfl
  | dropType ty =>
    simp only [LocalSchema.exec, keyedStep, Ddl.key, execAt]
    cases l ty.key with
    | none => rfl
    | some e => cases e <;> rfl
  | createType ty =>
    simp only [LocalSchema.exec, keyedStep, Ddl.key, execAt]
    split_ifs <;> rfl
  | dropTable t =>
    simp only [LocalSchema.exec, keyedStep, Ddl.key, execAt]
    cases ht : l t with
    | none => rfl
    | some e =>
      cases e with
      | table L => rfl
      | type ty => cases ty <;> simp [← ht]
  | createTable t =>
    simp only [LocalSchema.exec, keyedStep, Ddl.key, execAt]
    split_ifs <;> rfl
  | alter t stmt =>
    simp only [LocalSchema.exec, keyedStep, Ddl.key, execAt]
    cases l t with
    | none => rfl
    | some e =>
      cases e with
      | type ty => rfl
      | table L => simp [Function.comp_def]

/-- A statement works on its own name. -/
theorem exec_apply {l l' : LocalSchema} {stmt : Ddl} (h : l.exec stmt = some l') (k : TableKey) :
    (stmt.key ≠ some k ∧ l' k = l k) ∨
      (stmt.key = some k ∧ execAt (l k) stmt = some (l' k)) := by
  rw [exec_eq_keyedStep] at h
  by_cases hkey : stmt.key = some k
  · refine .inr ⟨hkey, ?_⟩
    rw [keyedStep, hkey] at h
    obtain ⟨e, he, rfl⟩ := Option.map_eq_some_iff.1 h
    rw [he, Function.update_self]
  · exact .inl ⟨hkey, keyedStep_of_ne hkey h⟩

/-- The statements on a name. -/
def onName (k : TableKey) (stmts : List Ddl) : List Ddl :=
  stmts.filter fun stmt => decide (stmt.key = some k)

theorem run_iff_onName {l l' : LocalSchema} {stmts : List Ddl} :
    run LocalSchema.exec l stmts = some l' ↔ ∀ k, run execAt (l k) (onName k stmts) = some (l' k) := by
  rw [exec_eq_keyedStep]
  exact run_keyedStep_iff

theorem onName_schemaDdl (k : TableKey) (schema : String) : onName k (schemaDdl schema) = [] := by
  unfold schemaDdl
  split_ifs
  · rfl
  · rfl

theorem onName_append (k : TableKey) (as bs : List Ddl) : onName k (as ++ bs) = onName k as ++ onName k bs :=
  List.filter_append ..

/-- Statements that are all on this name. -/
theorem onName_eq_self {k : TableKey} {stmts : List Ddl} (h : ∀ stmt ∈ stmts, stmt.key = some k) :
    onName k stmts = stmts :=
  List.filter_eq_self.2 fun stmt hstmt => by simpa using h stmt hstmt

section Names

variable {c : UpstreamCatalog} {lines : List String} {drops : List TableKey} {l : LocalSchema}
  {old : OldColumns} {k : TableKey}

theorem key_typeStmts {ty : TypeDef} (k : TableKey) : ∀ stmt ∈ (if (l ty.key).isSome then []
    else schemaDdl ty.schema ++ [Ddl.createType ty]), stmt.key = some k → k = ty.key := by
  intro stmt hstmt hkey
  split_ifs at hstmt
  · cases hstmt
  · rcases List.mem_append.1 hstmt with hschema | hcreate
    · unfold schemaDdl at hschema
      split_ifs at hschema
      · cases hschema
      · obtain rfl := List.mem_singleton.1 hschema
        cases hkey
    · obtain rfl := List.mem_singleton.1 hcreate
      exact (Option.some.inj hkey).symm

theorem key_tableStmts {t : TableDef} (k : TableKey) :
    ∀ stmt ∈ tableStmts old t, stmt.key = some k → k = t.key := by
  intro stmt hstmt hkey
  unfold tableStmts at hstmt
  cases hold : old.lookup t.key with
  | none =>
    simp only [hold, tableDdl, schemaDdl, List.mem_append, List.mem_map, List.mem_cons,
      List.not_mem_nil, or_false] at hstmt
    rcases hstmt with (hschema | rfl | rfl) | ⟨i, -, rfl⟩
    · split_ifs at hschema
      · cases hschema
      · obtain rfl := List.mem_singleton.1 hschema
        cases hkey
    · exact (Option.some.inj hkey).symm
    · exact (Option.some.inj hkey).symm
    · exact (Option.some.inj hkey).symm
  | some oldCols =>
    simp only [hold, List.mem_map] at hstmt
    obtain ⟨stmt, -, rfl⟩ := hstmt
    exact (Option.some.inj hkey).symm

theorem onName_dropTables (h : drops.Nodup) :
    onName k (drops.map .dropTable) = if k ∈ drops then [.dropTable k] else [] := by
  have hown : ∀ t ∈ drops, ∀ stmt ∈ [Ddl.dropTable t], ∀ k, stmt.key = some k → k = t := by
    intro t _ stmt hstmt k hkey
    obtain rfl := List.mem_singleton.1 hstmt
    exact (Option.some.inj hkey).symm
  rw [onName, List.map_eq_flatMap]
  split_ifs with hk
  · refine (filter_flatMap_key (by rwa [List.map_id']) hown hk).trans ?_
    simp [Ddl.key]
  · exact filter_flatMap_key_eq_nil hown (by rwa [List.map_id'])

/-- The tables that are dropped, in any order. -/
theorem drops_iff (h : drops.Perm (droppedTables (oldColumns lines) c.tables)) :
    drops.Nodup ∧ ∀ k, k ∈ drops ↔ k ∈ oldColumns lines ∧ k ∉ c.tables.map TableDef.key := by
  constructor
  · exact h.nodup_iff.2 ((oldColumns lines).keys_nodup.filter _)
  · intro k
    rw [h.mem_iff, droppedTables, List.mem_filter, decide_eq_true_iff]
    rfl

/-- The statements on a name, part by part. -/
theorem onName_callStmts (k : TableKey) : onName k (callStmts c lines drops l) =
    onName k (typeStmts l c.types) ++ onName k (drops.map .dropTable) ++
      onName k (c.tables.flatMap (tableStmts (oldColumns lines))) := by
  rw [callStmts, onName_append, onName_append]

theorem onName_typeStmts {ty : TypeDef} (hty : ty ∈ c.types) :
    onName ty.key (typeStmts l c.types) = if (l ty.key).isSome then [] else [.createType ty] := by
  refine (filter_flatMap_key c.types_nodup (fun ty _ stmt hstmt k => key_typeStmts k stmt hstmt)
    hty).trans ?_
  show onName ty.key _ = _
  split_ifs with hsome
  · rfl
  · rw [onName_append, onName_schemaDdl]
    exact onName_eq_self (by simp [Ddl.key])

theorem onName_typeStmts_eq_nil (hk : k ∉ c.types.map TypeDef.key) :
    onName k (typeStmts l c.types) = [] :=
  filter_flatMap_key_eq_nil (fun _ _ stmt hstmt k => key_typeStmts k stmt hstmt) hk

theorem onName_tablesStmts {t : TableDef} (ht : t ∈ c.tables) :
    onName t.key (c.tables.flatMap (tableStmts old)) = onName t.key (tableStmts old t) :=
  filter_flatMap_key c.tables_nodup (fun _ _ stmt hstmt k => key_tableStmts k stmt hstmt) ht

theorem onName_tablesStmts_eq_nil (hk : k ∉ c.tables.map TableDef.key) :
    onName k (c.tables.flatMap (tableStmts old)) = [] :=
  filter_flatMap_key_eq_nil (fun _ _ stmt hstmt k => key_tableStmts k stmt hstmt) hk

end Names

/-! ## Repeating on one name -/

/-- After any beginning of the statements for this entity, the statements for what is then there
come to the same end. -/
def Repeats (stmts : Option Entity → List Ddl) (e : Option Entity) : Prop :=
  ∃ e', ∀ qs w, qs <+: stmts e → run execAt e qs = some w → run execAt w (stmts w) = some e'

/-- A type that is created when there is nothing. -/
theorem repeats_createType (ty : TypeDef) (e : Option Entity) :
    Repeats (fun e => if e.isSome then [] else [.createType ty]) e := by
  refine ⟨some (e.getD (.type ty)), fun qs w hqs hw => ?_⟩
  cases e with
  | some e =>
    obtain rfl : qs = [] := by simpa using hqs
    obtain rfl : some e = w := by simpa using hw
    rfl
  | none =>
    rcases List.prefix_cons_iff.1 (by simpa using hqs) with rfl | ⟨rest, rfl, hrest⟩
    · obtain rfl : none = w := by simpa using hw
      rfl
    · obtain rfl := List.prefix_nil.1 hrest
      obtain rfl : some (.type ty) = w := by simpa [run, execAt] using hw
      rfl

/-- A table that is dropped. -/
theorem repeats_dropTable (k : TableKey) (L : LocalTable) :
    Repeats (fun _ => [.dropTable k]) (some (.table L)) := by
  refine ⟨none, fun qs w hqs hw => ?_⟩
  rcases List.prefix_cons_iff.1 hqs with rfl | ⟨rest, rfl, hrest⟩
  · obtain rfl : some (.table L) = w := by simpa using hw
    rfl
  · obtain rfl := List.prefix_nil.1 hrest
    obtain rfl : none = w := by simpa [run, execAt] using hw
    rfl

theorem repeats_nil (e : Option Entity) : Repeats (fun _ => []) e := by
  refine ⟨e, fun qs w hqs hw => ?_⟩
  obtain rfl := List.prefix_nil.1 hqs
  exact hw.symm

/-- The definition of a new table, as `CREATE TABLE` and the index statements accept it. -/
structure TableDef.Buildable (t : TableDef) : Prop extends t.Creatable where
  indexed : ∀ i ∈ t.indexes, i.columns ⊆ t.columnNames

/-- The statements of a new table, the one for its schema apart. -/
def newStmts (t : TableDef) : List Ddl :=
  [.dropTable t.key, .createTable t] ++ t.indexes.map fun index => .alter t.key (.createIndex index)

theorem onName_tableDdl (t : TableDef) : onName t.key (tableDdl t) = newStmts t := by
  rw [tableDdl, List.append_assoc, onName_append, onName_schemaDdl, List.nil_append]
  refine onName_eq_self fun stmt hstmt => ?_
  simp only [List.mem_append, List.mem_cons, List.not_mem_nil, or_false, List.mem_map] at hstmt
  rcases hstmt with (rfl | rfl) | ⟨i, -, rfl⟩ <;> rfl

theorem run_execAt_alter (k : TableKey) (L : LocalTable) (stmts : List TableDdl) :
    run execAt (some (.table L)) (stmts.map (.alter k)) =
      (run LocalTable.exec L stmts).map fun L => some (.table L) := by
  have hstep : ∀ (L : LocalTable) (stmt : TableDdl), execAt (some (.table L)) (.alter k stmt) =
      (L.exec stmt).map fun L => some (.table L) := fun _ _ => rfl
  exact run_map hstep L stmts

theorem run_createIndexes_iff {L L' : LocalTable} {indexes : List IndexDef}
    (hL : L.indexes.Nodup) : run LocalTable.exec L (indexes.map .createIndex) = some L' ↔
      ((L.indexes ++ indexes).Nodup ∧ ∀ i ∈ indexes, i.columns ⊆ L.columnNames) ∧
        L' = { L with indexes := L.indexes ++ indexes } := by
  induction indexes generalizing L with
  | nil => simp [hL, eq_comm]
  | cons i indexes ih =>
    have hexec : ∀ M, L.exec (.createIndex i) = some M ↔
        (i.columns ⊆ L.columnNames ∧ i ∉ L.indexes) ∧
          M = { L with indexes := L.indexes ++ [i] } := by
      intro M
      simp [LocalTable.exec, eq_comm]
    have hsplit : L.indexes ++ i :: indexes = L.indexes ++ [i] ++ indexes := by simp
    rw [List.map_cons, run_cons_eq_some, List.forall_mem_cons, hsplit]
    constructor
    · rintro ⟨M, hM, hrun⟩
      obtain ⟨⟨hcolumns, hnew⟩, rfl⟩ := (hexec M).1 hM
      obtain ⟨⟨hnodup, hall⟩, rfl⟩ := (ih (List.nodup_append.2 ⟨hL, List.nodup_singleton i, by
        rintro a ha b hb rfl
        exact hnew (List.mem_singleton.1 hb ▸ ha)⟩)).1 hrun
      exact ⟨⟨hnodup, hcolumns, hall⟩, rfl⟩
    · rintro ⟨⟨hnodup, hcolumns, hall⟩, rfl⟩
      have hfirst := (List.nodup_append.1 hnodup).1
      have hnew : i ∉ L.indexes := fun hi =>
        (List.nodup_append.1 hfirst).2.2 i hi i List.mem_cons_self rfl
      exact ⟨_, (hexec _).2 ⟨⟨hcolumns, hnew⟩, rfl⟩, (ih hfirst).2 ⟨⟨hnodup, hall⟩, rfl⟩⟩

theorem columnNames_bare (t : TableDef) : t.bare.columnNames = t.columnNames :=
  columnNames_full t

/-- A new table is built when no type has its name. -/
theorem run_newStmts_iff {t : TableDef} {e e' : Option Entity} :
    run execAt e (newStmts t) = some e' ↔
      (∀ ty, e ≠ some (.type ty)) ∧ t.Buildable ∧ e' = some (.table t.full) := by
  have hindexes : ∀ e', run execAt (some (.table t.bare))
      (t.indexes.map fun index => Ddl.alter t.key (.createIndex index)) = some e' ↔
      (t.indexes.Nodup ∧ ∀ i ∈ t.indexes, i.columns ⊆ t.columnNames) ∧
        e' = some (.table t.full) := by
    intro e'
    have hmap : (t.indexes.map fun index => Ddl.alter t.key (.createIndex index)) =
        (t.indexes.map TableDdl.createIndex).map (.alter t.key) := by
      rw [List.map_map]
      rfl
    rw [hmap, run_execAt_alter, Option.map_eq_some_iff]
    constructor
    · rintro ⟨L, hL, rfl⟩
      obtain ⟨hok, rfl⟩ := (run_createIndexes_iff List.nodup_nil).1 hL
      exact ⟨columnNames_bare t ▸ hok, rfl⟩
    · rintro ⟨hok, rfl⟩
      exact ⟨_, (run_createIndexes_iff List.nodup_nil).2 ⟨(columnNames_bare t).symm ▸ hok, rfl⟩,
        rfl⟩
  have hfree : run execAt none ((Ddl.createTable t) ::
      t.indexes.map fun index => .alter t.key (.createIndex index)) = some e' ↔
      t.Buildable ∧ e' = some (.table t.full) := by
    rw [run_cons_eq_some]
    constructor
    · rintro ⟨u, hu, hrun⟩
      obtain ⟨hwf, rfl⟩ : t.WellFormed ∧ some (.table t.bare) = u := by
        simpa [execAt] using hu
      obtain ⟨⟨hnodup, hcolumns⟩, he'⟩ := (hindexes e').1 hrun
      exact ⟨⟨⟨hwf, hnodup⟩, hcolumns⟩, he'⟩
    · rintro ⟨hbuild, he'⟩
      refine ⟨some (.table t.bare), ?_, (hindexes e').2
        ⟨⟨hbuild.indexes_nodup, hbuild.indexed⟩, he'⟩⟩
      simp [execAt, hbuild.wellFormed]
  rw [newStmts, List.cons_append, run_cons_eq_some]
  cases e with
  | none => simpa [execAt] using hfree
  | some e =>
    cases e with
    | table L => simpa [execAt] using hfree
    | type ty =>
      constructor
      · rintro ⟨u, hu, hrun⟩
        have hu : some (.type ty) = u := by
          cases ty with
          | composite => simp [execAt] at hu
          | _ => simpa [execAt] using hu
        subst hu
        obtain ⟨v, hv, -⟩ := run_cons_eq_some.1 hrun
        simp [execAt] at hv
      · rintro ⟨htype, -⟩
        exact absurd rfl (htype ty)

theorem run_execAt_type {e e' : Option Entity} {stmts : List Ddl}
    (hstmts : ∀ stmt ∈ stmts, stmt.sparesTypes) (hrun : run execAt e stmts = some e')
    (ty : TypeDef) (he : e ≠ some (.type ty)) : e' ≠ some (.type ty) := by
  induction stmts generalizing e with
  | nil =>
    obtain rfl : e = e' := by simpa using hrun
    exact he
  | cons stmt stmts ih =>
    rw [List.forall_mem_cons] at hstmts
    obtain ⟨u, hu, hrun⟩ := run_cons_eq_some.1 hrun
    refine ih hstmts.2 hrun ?_
    cases stmt with
    | createSchema schema =>
      obtain rfl : e = u := by simpa [execAt] using hu
      exact he
    | dropType ty => exact hstmts.1.elim
    | createType ty => exact hstmts.1.elim
    | dropTable t =>
      simp only [execAt] at hu
      split at hu
      · cases hu
      · cases hu
        exact he
      · cases hu
        simp
    | createTable t =>
      simp only [execAt, Option.ite_none_right_eq_some, Option.some.injEq] at hu
      obtain ⟨-, rfl⟩ := hu
      simp
    | alter t stmt =>
      simp only [execAt] at hu
      split at hu
      · obtain ⟨L', -, rfl⟩ := Option.map_eq_some_iff.1 hu
        simp
      · cases hu

theorem newStmts_sparesTypes (t : TableDef) : ∀ stmt ∈ newStmts t, stmt.sparesTypes := by
  intro stmt hstmt
  simp only [newStmts, List.mem_append, List.mem_cons, List.not_mem_nil, or_false,
    List.mem_map] at hstmt
  rcases hstmt with (rfl | rfl) | ⟨i, -, rfl⟩ <;> trivial

/-- A new table is dropped and made anew. -/
theorem repeats_newStmts {t : TableDef} (ht : t.Buildable) {e : Option Entity}
    (he : ∀ ty, e ≠ some (.type ty)) : Repeats (fun _ => newStmts t) e := by
  refine ⟨some (.table t.full), fun qs w hqs hw => run_newStmts_iff.2 ⟨fun ty => ?_, ht, rfl⟩⟩
  exact run_execAt_type (fun stmt hstmt => newStmts_sparesTypes t stmt (hqs.subset hstmt)) hw ty
    (he ty)

/-! ## Repeating on the columns of a table -/

namespace LocalTable

variable {L : LocalTable}

/-- Columns that are there are not added. -/
theorem addColumns_eq_self {cs : List ColDef} (h : ∀ c ∈ cs, c.name ∈ L.columnNames) :
    L.addColumns cs = L := by
  induction cs with
  | nil => rfl
  | cons c cs ih =>
    rw [List.forall_mem_cons] at h
    have hcons : L.addColumns (c :: cs) = (L.addColumn c.name c.typeSql).addColumns cs := rfl
    rw [hcons, addColumn, if_pos h.1]
    exact ih h.2

theorem addColumns_append (L : LocalTable) (cs ds : List ColDef) :
    L.addColumns (cs ++ ds) = (L.addColumns cs).addColumns ds :=
  List.foldl_append

/-- No trace of a column. -/
structure Free (L : LocalTable) (name : String) : Prop where
  columns : name ∉ L.columnNames
  pk : name ∉ L.pk
  indexes : ∀ i ∈ L.indexes, name ∉ i.columns

theorem dropColumn_free (L : LocalTable) (name : String) : (L.dropColumn name).Free name where
  columns := by
    simp [columnNames, dropColumn]
  pk := by
    unfold dropColumn
    dsimp only
    split_ifs with h
    · simp
    · exact h
  indexes := by
    intro i hi
    simpa using (List.mem_filter.1 hi).2

theorem Free.dropColumn {name : String} (h : L.Free name) (other : String) :
    (L.dropColumn other).Free name where
  columns := by
    intro hname
    obtain ⟨c, hc, rfl⟩ := List.mem_map.1 hname
    exact h.columns (List.mem_map_of_mem (List.mem_of_mem_filter hc))
  pk := by
    unfold LocalTable.dropColumn
    dsimp only
    split_ifs
    · simp
    · exact h.pk
  indexes := fun i hi => h.indexes i (List.mem_of_mem_filter hi)

theorem Free.dropColumn_eq {name : String} (h : L.Free name) : L.dropColumn name = L := by
  have hcolumns : (L.columns.filter fun c => decide (c.name ≠ name)) = L.columns := by
    refine List.filter_eq_self.2 fun c hc => ?_
    rw [decide_eq_true_iff]
    rintro rfl
    exact h.columns (List.mem_map_of_mem hc)
  have hindexes : (L.indexes.filter fun i => decide (name ∉ i.columns)) = L.indexes :=
    List.filter_eq_self.2 fun i hi => decide_eq_true (h.indexes i hi)
  rw [LocalTable.dropColumn, hcolumns, hindexes, if_neg h.pk]

/-- `DROP COLUMN` for each of these names. -/
def dropColumns (L : LocalTable) (names : List String) : LocalTable :=
  names.foldl dropColumn L

theorem Free.dropColumns {name : String} (h : L.Free name) (names : List String) :
    (L.dropColumns names).Free name := by
  induction names generalizing L with
  | nil => exact h
  | cons n names ih => exact ih (h.dropColumn n)

theorem dropColumns_free {names : List String} {name : String} (h : name ∈ names) :
    (L.dropColumns names).Free name := by
  induction names generalizing L with
  | nil => cases h
  | cons n names ih =>
    rcases List.mem_cons.1 h with rfl | h
    · exact (dropColumn_free L name).dropColumns names
    · exact ih h

/-- Columns that are gone are not dropped. -/
theorem dropColumns_eq_self {names : List String} (h : ∀ name ∈ names, L.Free name) :
    L.dropColumns names = L := by
  induction names with
  | nil => rfl
  | cons n names ih =>
    rw [List.forall_mem_cons] at h
    have hcons : L.dropColumns (n :: names) = (L.dropColumn n).dropColumns names := rfl
    rw [hcons, h.1.dropColumn_eq]
    exact ih h.2

theorem dropColumns_append (L : LocalTable) (ms ns : List String) :
    L.dropColumns (ms ++ ns) = (L.dropColumns ms).dropColumns ns :=
  List.foldl_append

theorem columnNames_dropColumns {names : List String} {name : String} (h : name ∉ names) :
    name ∈ (L.dropColumns names).columnNames ↔ name ∈ L.columnNames := by
  induction names generalizing L with
  | nil => rfl
  | cons n names ih =>
    rw [List.mem_cons, not_or] at h
    have hcons : L.dropColumns (n :: names) = (L.dropColumn n).dropColumns names := rfl
    rw [hcons, ih h.2]
    constructor
    · intro hname
      obtain ⟨c, hc, rfl⟩ := List.mem_map.1 hname
      exact List.mem_map_of_mem (List.mem_of_mem_filter hc)
    · intro hname
      obtain ⟨c, hc, rfl⟩ := List.mem_map.1 hname
      exact List.mem_map_of_mem (List.mem_filter.2 ⟨hc, by simpa using h.1⟩)

/-- **The columns** that are added before the interruption are not added again, nor are those
dropped that were dropped. -/
theorem altered_repeat (t : TableDef) (oldCols : List (String × Nat)) {qs : List TableDdl}
    (hqs : qs <+: alterStmts t oldCols) {M : LocalTable} (hM : run LocalTable.exec L qs = some M) :
    M.altered t oldCols = L.altered t oldCols := by
  have haltered : ∀ L : LocalTable, L.altered t oldCols =
      (L.addColumns (addedColumns t oldCols)).dropColumns (goneColumns t oldCols) := fun _ => rfl
  rw [haltered, haltered]
  rcases List.prefix_or_prefix_of_prefix hqs (List.prefix_append _ _) with hadds | ⟨rest, rfl⟩
  · obtain ⟨cs, ⟨cs', hcs⟩, rfl⟩ := List.prefix_map_iff.1 hadds
    obtain rfl : L.addColumns cs = M := by rwa [run_addColumns, Option.some.injEq] at hM
    have hpresent : (L.addColumns cs).addColumns cs = L.addColumns cs :=
      addColumns_eq_self fun c hc =>
        (columnNames_addColumns L cs c.name).2 (.inr (List.mem_map_of_mem hc))
    rw [← hcs, addColumns_append, hpresent, addColumns_append]
  · obtain ⟨ds, ⟨ds', hds⟩, rfl⟩ :=
      List.prefix_map_iff.1 ((List.prefix_append_right_inj _).1 hqs)
    have hsub : ∀ name ∈ ds, name ∈ oldCols.map Prod.fst := fun name hname =>
      List.mem_of_mem_filter (hds ▸ List.mem_append_left ds' hname)
    obtain ⟨N, hN, hM⟩ := run_append_eq_some.1 hM
    obtain rfl : L.addColumns (addedColumns t oldCols) = N := by
      rwa [run_addColumns, Option.some.injEq] at hN
    obtain rfl : (L.addColumns (addedColumns t oldCols)).dropColumns ds = M := by
      rwa [run_dropColumns, Option.some.injEq] at hM
    rw [addColumns_eq_self, ← hds, dropColumns_append]
    · rw [dropColumns_eq_self (fun name hname => dropColumns_free hname), dropColumns_append]
    · intro c hc
      have hnew : c.name ∉ oldCols.map Prod.fst := by simpa using (List.mem_filter.1 hc).2
      exact (columnNames_dropColumns fun hname => hnew (hsub _ hname)).2
        ((columnNames_addColumns L _ c.name).2 (.inr (List.mem_map_of_mem hc)))

end LocalTable

/-- A table that is altered. -/
theorem repeats_alterStmts (t : TableDef) (oldCols : List (String × Nat)) (L : LocalTable) :
    Repeats (fun _ => (alterStmts t oldCols).map (.alter t.key)) (some (.table L)) := by
  refine ⟨some (.table (L.altered t oldCols)), fun qs w hqs hw => ?_⟩
  obtain ⟨stmts, hstmts, rfl⟩ := List.prefix_map_iff.1 hqs
  rw [run_execAt_alter, Option.map_eq_some_iff] at hw
  obtain ⟨M, hM, rfl⟩ := hw
  rw [run_execAt_alter, run_alterStmts, LocalTable.altered_repeat t oldCols hstmts hM]
  rfl

/-! ## Repeating the whole -/

/-- The order is one in which the keys of the map may come. -/
def DropOrder (c : UpstreamCatalog) (lines : List String) (drops : List TableKey) : Prop :=
  drops.Perm (droppedTables (oldColumns lines) c.tables)

/-- No new type has the name of a table of the old lines, and the tables that are in no old line
can be built. -/
structure FitsNames (c : UpstreamCatalog) (lines : List String) (l : LocalSchema) : Prop where
  types : ∀ ty ∈ c.types, ty.key ∉ oldColumns lines
  tables : ∀ t ∈ c.tables, t.key ∉ oldColumns lines →
    (∀ ty, l t.key ≠ some (.type ty)) ∧ t.Buildable

section Attempts

variable {c : UpstreamCatalog} {lines : List String} {drops : List TableKey} {l : LocalSchema}
  {k : TableKey}

theorem onName_type {ty : TypeDef} (hty : ty ∈ c.types) (hdrops : DropOrder c lines drops) :
    onName ty.key (callStmts c lines drops l) =
      (if (l ty.key).isSome then [] else [.createType ty]) ++
        if ty.key ∈ oldColumns lines then [.dropTable ty.key] else [] := by
  have htable : ty.key ∉ c.tables.map TableDef.key := by
    intro hmem
    obtain ⟨t, ht, hkey⟩ := List.mem_map.1 hmem
    exact c.disjoint t ht ty hty hkey.symm
  obtain ⟨hnodup, hmem⟩ := drops_iff hdrops
  rw [onName_callStmts, onName_typeStmts hty, onName_dropTables hnodup,
    onName_tablesStmts_eq_nil htable, List.append_nil]
  congr 1
  simp only [hmem, htable, not_false_eq_true, and_true]

theorem onName_table {t : TableDef} (ht : t ∈ c.tables) (hdrops : DropOrder c lines drops) :
    onName t.key (callStmts c lines drops l) =
      onName t.key (tableStmts (oldColumns lines) t) := by
  have htype : t.key ∉ c.types.map TypeDef.key := by
    intro hmem
    obtain ⟨ty, hty, hkey⟩ := List.mem_map.1 hmem
    exact c.disjoint t ht ty hty hkey
  obtain ⟨hnodup, hmem⟩ := drops_iff hdrops
  have hdrop : t.key ∉ drops := fun h => ((hmem t.key).1 h).2 (List.mem_map_of_mem ht)
  rw [onName_callStmts, onName_typeStmts_eq_nil htype, onName_dropTables hnodup, if_neg hdrop,
    onName_tablesStmts ht]
  rfl

theorem onName_other (htype : k ∉ c.types.map TypeDef.key) (htable : k ∉ c.tables.map TableDef.key)
    (hdrops : DropOrder c lines drops) : onName k (callStmts c lines drops l) =
      if k ∈ oldColumns lines then [.dropTable k] else [] := by
  obtain ⟨hnodup, hmem⟩ := drops_iff hdrops
  rw [onName_callStmts, onName_typeStmts_eq_nil htype, onName_dropTables hnodup,
    onName_tablesStmts_eq_nil htable, List.append_nil, List.nil_append]
  simp only [hmem, htable, not_false_eq_true, and_true]

theorem onName_newTable {t : TableDef} (ht : t ∈ c.tables) (hnew : t.key ∉ oldColumns lines)
    (hdrops : DropOrder c lines drops) :
    onName t.key (callStmts c lines drops l) = newStmts t := by
  rw [onName_table ht hdrops, tableStmts, AList.lookup_eq_none.2 hnew]
  exact onName_tableDdl t

theorem onName_oldTable {t : TableDef} (ht : t ∈ c.tables) {oldCols : List (String × Nat)}
    (hold : (oldColumns lines).lookup t.key = some oldCols) (hdrops : DropOrder c lines drops) :
    onName t.key (callStmts c lines drops l) = (alterStmts t oldCols).map (.alter t.key) := by
  rw [onName_table ht hdrops, tableStmts, hold]
  refine onName_eq_self fun stmt hstmt => ?_
  obtain ⟨stmt, -, rfl⟩ := List.mem_map.1 hstmt
  rfl

/-- The attempts on one name. -/
theorem repeats_name (hold : ∀ key ∈ oldColumns lines, ∃ L, l key = some (.table L))
    (h : FitsNames c lines l) (k : TableKey) :
    ∃ stmts : Option Entity → List Ddl, Repeats stmts (l k) ∧
      ∀ drops u, DropOrder c lines drops →
        onName k (callStmts c lines drops u) = stmts (u k) := by
  by_cases htype : k ∈ c.types.map TypeDef.key
  · obtain ⟨ty, hty, rfl⟩ := List.mem_map.1 htype
    refine ⟨_, repeats_createType ty _, fun drops u hdrops => ?_⟩
    rw [onName_type hty hdrops, if_neg (h.types ty hty), List.append_nil]
  by_cases htable : k ∈ c.tables.map TableDef.key
  · obtain ⟨t, ht, rfl⟩ := List.mem_map.1 htable
    cases hlookup : (oldColumns lines).lookup t.key with
    | none =>
      have hnew := AList.lookup_eq_none.1 hlookup
      obtain ⟨hfree, hbuild⟩ := h.tables t ht hnew
      exact ⟨_, repeats_newStmts hbuild hfree, fun drops u hdrops =>
        onName_newTable ht hnew hdrops⟩
    | some oldCols =>
      have hmem : t.key ∈ oldColumns lines :=
        AList.lookup_isSome.1 (Option.isSome_iff_exists.2 ⟨oldCols, hlookup⟩)
      obtain ⟨L, hL⟩ := hold t.key hmem
      rw [hL]
      exact ⟨_, repeats_alterStmts t oldCols L, fun drops u hdrops =>
        onName_oldTable ht hlookup hdrops⟩
  by_cases hk : k ∈ oldColumns lines
  · obtain ⟨L, hL⟩ := hold k hk
    rw [hL]
    refine ⟨_, repeats_dropTable k L, fun drops u hdrops => ?_⟩
    rw [onName_other htype htable hdrops, if_pos hk]
  · refine ⟨_, repeats_nil _, fun drops u hdrops => ?_⟩
    rw [onName_other htype htable hdrops, if_neg hk]

/-- **An attempt after an interrupted one** comes to the end of an uninterrupted one. -/
theorem FitsNames.repeats (h : FitsNames c lines l)
    (hold : ∀ key ∈ oldColumns lines, ∃ L, l key = some (.table L)) :
    ∃ r, ∀ drops drops', DropOrder c lines drops → DropOrder c lines drops' →
      ∀ ps u, ps <+: callStmts c lines drops l → run LocalSchema.exec l ps = some u →
        run LocalSchema.exec u (callStmts c lines drops' u) = some r := by
  choose stmts hrepeats hon using repeats_name hold h
  choose r hr using hrepeats
  refine ⟨r, fun drops drops' hdrops hdrops' ps u hps hu => run_iff_onName.2 fun k => ?_⟩
  rw [hon k drops' u hdrops']
  refine hr k (onName k ps) (u k) ?_ (run_iff_onName.1 hu k)
  rw [← hon k drops l hdrops]
  exact hps.filter _

section Converse

variable {r : LocalSchema} (hdrops : DropOrder c lines drops)
  (hold : ∀ key ∈ oldColumns lines, ∃ L, l key = some (.table L))
  (hfirst : run LocalSchema.exec l (callStmts c lines drops l) = some r)

include hdrops hold hfirst

/-- A type with the name of a table that is dropped is created by the second attempt only. -/
theorem type_not_old {u : LocalSchema}
    (hu : run LocalSchema.exec l (typeStmts l c.types ++ drops.map .dropTable) = some u)
    (hsecond : run LocalSchema.exec u (callStmts c lines drops u) = some r) {ty : TypeDef}
    (hty : ty ∈ c.types) : ty.key ∉ oldColumns lines := by
  intro hmem
  obtain ⟨L, hL⟩ := hold ty.key hmem
  have hnone : none = r ty.key := by
    have hrun := run_iff_onName.1 hfirst ty.key
    rw [onName_type hty hdrops, hL, if_pos hmem] at hrun
    simpa [run, execAt] using hrun
  have hdropped : ty.key ∈ drops := by
    refine ((drops_iff hdrops).2 _).2 ⟨hmem, fun htable => ?_⟩
    obtain ⟨t, ht, hkey⟩ := List.mem_map.1 htable
    exact c.disjoint t ht ty hty hkey.symm
  have hgone : u ty.key = none := by
    have hrun := run_iff_onName.1 hu ty.key
    rw [onName_append, onName_typeStmts hty, onName_dropTables (drops_iff hdrops).1,
      if_pos hdropped, hL] at hrun
    simpa [run, execAt, eq_comm] using hrun
  have hrun := run_iff_onName.1 hsecond ty.key
  rw [onName_type hty hdrops, hgone, if_pos hmem, ← hnone] at hrun
  obtain ⟨v, hv, hrun⟩ := run_cons_eq_some.1 hrun
  obtain rfl : some (.type ty) = v := by simpa [execAt] using hv
  cases ty <;> simp [run, execAt] at hrun

/-- An attempt in one go and one after the tables were dropped come to the same end only where the
names fit. -/
theorem fitsNames_of_run
    (hsecond : ∀ u, run LocalSchema.exec l (typeStmts l c.types ++ drops.map .dropTable) = some u →
      run LocalSchema.exec u (callStmts c lines drops u) = some r) : FitsNames c lines l := by
  constructor
  · obtain ⟨u, hu⟩ := run_prefix hfirst (List.prefix_append _ _)
    exact fun ty hty => type_not_old hdrops hold hfirst hu (hsecond u hu) hty
  · intro t ht hnew
    have hrun := run_iff_onName.1 hfirst t.key
    rw [onName_newTable ht hnew hdrops] at hrun
    obtain ⟨hfree, hbuild, -⟩ := run_newStmts_iff.1 hrun
    exact ⟨hfree, hbuild⟩

end Converse

end Attempts

end Pglite.Replica.Backfill
