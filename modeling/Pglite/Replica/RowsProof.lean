import Pglite.Replica.Rows
import Pglite.Replica.SchemaSessionProof

/-!
# Row changes and schema changes on the rows of one table

* `applyChanges_eq_rowsAfter`: the statements of a transaction, table by table.
* `Renders.rowsAfter_perm`: the statement of a message does to the local rows what the message says
  was done to the upstream's, when it identifies one row only.
* `rowsAfter_clear`: a statement does not mind columns that it does not name.
* `foldl_deltaStmts`: the statements of a schema change, table by table.
-/

namespace Pglite.Replica

open Text Records Backfill

/-! ## Changes -/

namespace RowChange

variable {change : RowChange} {rows rows' : List Row}

/-- The statement does not mind columns that it does not name. -/
theorem onRows_clear {names : List String} (h : ∀ name ∈ change.columns, name ∉ names)
    (rows : List Row) :
    change.onRows (rows.map (clear names)) = (change.onRows rows).map (clear names) := by
  cases change with
  | insert schema table row =>
    have hrow : ∀ p ∈ row, p.1 ∉ names := fun p hp => h p.1 (List.mem_map_of_mem hp)
    rw [onRows, onRows, List.map_cons, clear_setAll hrow, clear_empty]
  | update schema table key row =>
    have hkey : ∀ p ∈ key, p.1 ∉ names :=
      fun p hp => h p.1 (List.mem_append_left _ (List.mem_map_of_mem hp))
    have hrow : ∀ p ∈ row, p.1 ∉ names :=
      fun p hp => h p.1 (List.mem_append_right _ (List.mem_map_of_mem hp))
    rw [onRows, onRows, List.map_map, List.map_map]
    refine List.map_congr_left fun r _ => ?_
    by_cases hm : Matches key r
    · have hm' : Matches key (clear names r) := (matches_clear hkey r).2 hm
      rw [Function.comp_apply, Function.comp_apply, if_pos hm, if_pos hm', clear_setAll hrow]
    · have hm' : ¬ Matches key (clear names r) := fun h => hm ((matches_clear hkey r).1 h)
      rw [Function.comp_apply, Function.comp_apply, if_neg hm, if_neg hm']
  | delete schema table key =>
    have hkey : ∀ p ∈ key, p.1 ∉ names := fun p hp => h p.1 (List.mem_map_of_mem hp)
    rw [onRows, onRows, List.filter_map]
    refine congrArg _ (List.filter_congr fun r _ => ?_)
    rw [Function.comp_apply, decide_eq_decide, matches_clear hkey]
  | truncate schema table => rfl

theorem withRow_row (change : RowChange) : change.withRow change.row = change := by
  cases change <;> rfl

theorem row_subset (change : RowChange) : change.row.map Prod.fst ⊆ change.columns := by
  cases change with
  | insert schema table row => exact List.Subset.refl _
  | update schema table key row => exact List.subset_append_right _ _
  | delete schema table key => exact List.nil_subset _
  | truncate schema table => exact List.nil_subset _

variable {store : String → String → String} {l : LocalSchema}

/-- Nothing is converted when the local columns keep the values. -/
theorem stored_eq (h : l.Keeps store change.table change.row) :
    change.stored store l = change := by
  have hrow : change.row.map (fun p => (p.1, p.2.map (l.convert store change.table p.1))) =
      change.row := by
    refine (List.map_congr_left fun p hp => ?_).trans (List.map_id _)
    obtain ⟨name, v⟩ := p
    cases v with
    | none => rfl
    | some v =>
      rw [Option.map_some, h (name, some v) hp v rfl]
      rfl
  rw [stored, hrow, withRow_row]

end RowChange

/-- The rows of a table after the statements among `changes` that are about it. -/
def rowsAfter (changes : List RowChange) (k : TableKey) (rows : List Row) : List Row :=
  changes.foldl (fun rows change => if change.table = k then change.onRows rows else rows) rows

section RowsAfter

variable {changes : List RowChange} {k : TableKey} {rows rows' : List Row}

theorem rowsAfter_append (changes more : List RowChange) (k : TableKey) (rows : List Row) :
    rowsAfter (changes ++ more) k rows = rowsAfter more k (rowsAfter changes k rows) :=
  List.foldl_append

theorem rowsAfter_singleton (change : RowChange) (k : TableKey) (rows : List Row) :
    rowsAfter [change] k rows = if change.table = k then change.onRows rows else rows := rfl

/-- Statements about other tables leave the rows alone. -/
theorem rowsAfter_of_ne (h : ∀ change ∈ changes, change.table ≠ k) (rows : List Row) :
    rowsAfter changes k rows = rows := by
  induction changes with
  | nil => rfl
  | cons change changes ih =>
    rw [List.forall_mem_cons] at h
    have hstep : rowsAfter (change :: changes) k rows =
        rowsAfter changes k (if change.table = k then change.onRows rows else rows) := rfl
    rw [hstep, if_neg h.1, ih h.2]

/-- Columns that no statement on the table names can be cleared before or after. -/
theorem rowsAfter_clear {names : List String}
    (h : ∀ change ∈ changes, change.table = k → ∀ name ∈ change.columns, name ∉ names)
    (rows : List Row) :
    rowsAfter changes k (rows.map (clear names)) =
      (rowsAfter changes k rows).map (clear names) := by
  induction changes generalizing rows with
  | nil => rfl
  | cons change changes ih =>
    rw [List.forall_mem_cons] at h
    have hstep : ∀ rows, rowsAfter (change :: changes) k rows =
        rowsAfter changes k (if change.table = k then change.onRows rows else rows) := fun _ => rfl
    rw [hstep, hstep, ← ih h.2]
    by_cases hk : change.table = k
    · rw [if_pos hk, if_pos hk, RowChange.onRows_clear (h.1 hk)]
    · rw [if_neg hk, if_neg hk]

/-- A transaction on the whole database is, on each table, its statements on that table. -/
theorem applyChanges_eq_rowsAfter {store : String → String → String} {l : LocalSchema}
    (h : ∀ change ∈ changes, l.Keeps store change.table change.row) (C : Contents) (k : TableKey) :
    applyChanges store l changes C k = rowsAfter changes k (C k) := by
  induction changes generalizing C with
  | nil => rfl
  | cons change changes ih =>
    rw [List.forall_mem_cons] at h
    have hstep : applyChanges store l (change :: changes) C =
        applyChanges store l changes ((change.stored store l).apply C) := rfl
    have hrows : rowsAfter (change :: changes) k (C k) =
        rowsAfter changes k (if change.table = k then change.onRows (C k) else C k) := rfl
    rw [hstep, hrows, ih h.2, RowChange.stored_eq h.1, RowChange.apply]
    by_cases hk : change.table = k
    · subst hk
      rw [if_pos rfl, Function.update_self]
    · rw [if_neg hk, Function.update_of_ne (Ne.symm hk)]

end RowsAfter

/-! ## Messages -/

namespace Rel

variable {rel : Rel} {rows up up' : List Row}

/-- What the text of an `INSERT` is said to do has all the values of the tuple. -/
theorem insertSql_change {new : TupleData} {stmt : String} {change : RowChange}
    (h : rel.insertSql new = .ok (stmt, change)) :
    change = .insert rel.schema rel.name (rel.values new) := by
  obtain ⟨-, -, h⟩ := bind_eq_ok.1 h
  obtain ⟨cells, hcells, h⟩ := bind_eq_ok.1 h
  obtain ⟨-, rfl⟩ := Prod.mk.inj (Except.ok.inj h)
  have hrow : cells.map (fun c => c.2.2) = rel.values new := by
    unfold values
    generalize rel.columns.zip new = cs at hcells
    have hall := mapM_eq_ok hcells
    clear * - hall
    induction hall with
    | nil => rfl
    | @cons p cell cs cells hcell hrest ih =>
      obtain ⟨col, v⟩ := p
      dsimp only at hcell
      split at hcell
      · cases hcell
      · next hv =>
        cases hcell
        simp [ih, hv]
  rw [hrow]

theorem keyCond_pair {p : RelColumn × CellValue} {cond : String × String × Option String}
    (h : rel.keyCond p = .ok cond) : cond.2 = (p.1.name, cellValue p.2) := by
  obtain ⟨col, cell⟩ := p
  cases cell with
  | unchangedToast => cases h
  | null =>
    cases h
    rfl
  | text s =>
    cases h
    rfl

theorem keyCond_pairs {cs : List (RelColumn × CellValue)}
    {conds : List (String × String × Option String)}
    (h : List.Forall₂ (fun p cond => rel.keyCond p = .ok cond) cs conds) :
    conds.map (fun c => c.2) = cs.map fun (col, cell) => (col.name, cellValue cell) := by
  induction h with
  | nil => rfl
  | cons hcond _ ih => rw [List.map_cons, List.map_cons, keyCond_pair hcond, ih]

/-- The pairs of a `WHERE` clause are the identity that the message gives. -/
theorem whereClause_identity {key old new : Option TupleData} {sql : String} {pairs : ColPairs}
    (h : rel.whereClause key old new = .ok (sql, pairs)) :
    rel.identity key old new = some pairs := by
  unfold whereClause at h
  unfold identity
  cases old with
  | some old =>
    obtain ⟨-, -, h⟩ := bind_eq_ok.1 h
    dsimp only at h ⊢
    split at h
    · cases h
    · obtain ⟨-, rfl⟩ := Prod.mk.inj (Except.ok.inj h)
      rfl
  | none =>
    cases hkey : key.or new with
    | none =>
      rw [hkey] at h
      obtain ⟨source, herror, -⟩ := bind_eq_ok.1 h
      cases herror
    | some source =>
      rw [hkey] at h
      obtain ⟨_, hsource, h⟩ := bind_eq_ok.1 h
      cases hsource
      obtain ⟨-, -, h⟩ := bind_eq_ok.1 h
      obtain ⟨conds, hconds, h⟩ := bind_eq_ok.1 h
      split at h
      · cases h
      · obtain ⟨-, rfl⟩ := Prod.mk.inj (Except.ok.inj h)
        rw [Option.map_some, Option.some.injEq]
        exact (keyCond_pairs (mapM_eq_ok hconds)).symm

theorem updateSql_change {key old : Option TupleData} {new : TupleData} {stmt : String}
    {change : RowChange} (h : rel.updateSql key old new = .ok (stmt, change)) :
    ∃ pairs, rel.identity key old (some new) = some pairs ∧
      change = .update rel.schema rel.name pairs (rel.values new) := by
  obtain ⟨-, -, h⟩ := bind_eq_ok.1 h
  obtain ⟨⟨whereSql, pairs⟩, hwhere, h⟩ := bind_eq_ok.1 h
  dsimp only at h
  split at h
  · cases h
  · obtain ⟨-, rfl⟩ := Prod.mk.inj (Except.ok.inj h)
    exact ⟨pairs, whereClause_identity hwhere, rfl⟩

theorem deleteSql_change {key old : Option TupleData} {stmt : String} {change : RowChange}
    (h : rel.deleteSql key old = .ok (stmt, change)) :
    ∃ pairs, rel.identity key old none = some pairs ∧
      change = .delete rel.schema rel.name pairs := by
  obtain ⟨⟨whereSql, pairs⟩, hwhere, h⟩ := bind_eq_ok.1 h
  obtain ⟨-, rfl⟩ := Prod.mk.inj (Except.ok.inj h)
  exact ⟨pairs, whereClause_identity hwhere, rfl⟩

theorem identifies_iff {key old new : Option TupleData} {pairs : ColPairs}
    (h : rel.identity key old new = some pairs) (r : Row) :
    rel.Identifies key old new r ↔ Matches pairs r := by
  simp [Identifies, h]

theorem filter_identifies {key old new : Option TupleData} {pairs : ColPairs}
    (h : rel.identity key old new = some pairs) (rows : List Row) :
    (rows.filter fun r => decide (rel.Identifies key old new r)) =
      rows.filter fun r => decide (Matches pairs r) :=
  List.filter_congr fun r _ => decide_eq_decide.2 (identifies_iff h r)

/-- One more row on both sides. -/
theorem perm_of_insertSql {relId : UInt32} {new : TupleData} {stmt : String} {change : RowChange}
    (h : rel.insertSql new = .ok (stmt, change)) (hrows : rows.Perm up)
    (htells : rel.Tells up up' (.insert relId new)) : (change.onRows rows).Perm up' := by
  rw [insertSql_change h]
  exact (hrows.cons _).trans (.symm htells)

/-- The one row that the message identifies is the one that the `UPDATE` finds. -/
theorem perm_of_updateSql {relId : UInt32} {key old : Option TupleData} {new : TupleData}
    {stmt : String} {change : RowChange} (h : rel.updateSql key old new = .ok (stmt, change))
    (hrows : rows.Perm up) (htells : rel.Tells up up' (.update relId key old new))
    (hsingle : rel.Singles up (.update relId key old new)) : (change.onRows rows).Perm up' := by
  obtain ⟨pairs, hpairs, rfl⟩ := updateSql_change h
  obtain ⟨r, hr, hid, hup'⟩ := htells
  have hmatch := (identifies_iff hpairs r).1 hid
  rw [Singles, filter_identifies hpairs] at hsingle
  have hone := perm_map_ite (fun r => setAll r (rel.values new)) hr hmatch hsingle
  exact ((hrows.map _).trans hone).trans hup'.symm

/-- The same for a `DELETE`. -/
theorem perm_of_deleteSql {relId : UInt32} {key old : Option TupleData} {stmt : String}
    {change : RowChange} (h : rel.deleteSql key old = .ok (stmt, change)) (hrows : rows.Perm up)
    (htells : rel.Tells up up' (.delete relId key old))
    (hsingle : rel.Singles up (.delete relId key old)) : (change.onRows rows).Perm up' := by
  obtain ⟨pairs, hpairs, rfl⟩ := deleteSql_change h
  obtain ⟨r, hr, hid, hup'⟩ := htells
  have hmatch := (identifies_iff hpairs r).1 hid
  rw [Singles, filter_identifies hpairs] at hsingle
  exact ((hrows.filter _).trans (perm_filter_not hr hmatch hsingle)).trans hup'.symm

end Rel

section Renders

variable {known : UInt32 → Option Rel} {m : PgOutputMsg} {k : TableKey} {rows up up' : List Row}

/-- A message with one relation: its statement matters for the table of that relation only. -/
theorem rowsAfter_one {change : RowChange} {relId : UInt32} {rel : Rel}
    (hrel : known relId = some rel) (hids : m.relIds = [relId]) (htable : change.table = rel.key)
    (hrows : rows.Perm up) (htells : m.Tells known k up up')
    (hone : rel.key = k → rel.Tells up up' m → (change.onRows rows).Perm up') :
    (rowsAfter [change] k rows).Perm up' := by
  have hmem : relId ∈ m.relIds := hids ▸ List.mem_singleton_self relId
  rw [rowsAfter_singleton, htable]
  by_cases hk : rel.key = k
  · rw [if_pos hk]
    exact hone hk (htells.1 relId hmem rel hrel hk)
  · rw [if_neg hk]
    refine hrows.trans (htells.2 ?_).symm
    intro relId' hmem' rel' hrel'
    rw [hids, List.mem_singleton] at hmem'
    subst hmem'
    obtain rfl : rel = rel' := Option.some.inj (hrel.symm.trans hrel')
    exact hk

/-- A `TRUNCATE` may list a table more than once. -/
theorem rowsAfter_truncate {rels : List Rel} (h : ∃ rel ∈ rels, rel.key = k) (rows : List Row) :
    rowsAfter (rels.map Rel.truncateChange) k rows = [] := by
  induction rels generalizing rows with
  | nil =>
    obtain ⟨rel, hrel, -⟩ := h
    cases hrel
  | cons rel rels ih =>
    have hstep : rowsAfter ((rel :: rels).map Rel.truncateChange) k rows =
        rowsAfter (rels.map Rel.truncateChange) k (if rel.key = k then [] else rows) := rfl
    rw [hstep]
    by_cases hrest : ∃ rel ∈ rels, rel.key = k
    · exact ih hrest _
    · rw [rowsAfter_of_ne]
      · obtain ⟨rel', hrel', hk⟩ := h
        rcases List.mem_cons.1 hrel' with rfl | hmem
        · exact if_pos hk
        · exact absurd ⟨rel', hmem, hk⟩ hrest
      · intro change hchange
        obtain ⟨rel', hrel', rfl⟩ := List.mem_map.1 hchange
        exact fun hk => hrest ⟨rel', hrel', hk⟩

/-- The statement of a message does to the local rows what was done to the upstream's. -/
theorem Renders.rowsAfter_perm {stmt : String} {changes : List RowChange}
    (h : Renders known m stmt changes) (hrows : rows.Perm up) (htells : m.Tells known k up up')
    (hsingle : ∀ relId ∈ m.relIds, ∀ rel ∈ known relId, rel.key = k → rel.Singles up m) :
    (rowsAfter changes k rows).Perm up' := by
  cases h with
  | insert hrel hsql =>
    exact rowsAfter_one hrel rfl (Rel.insertSql_names hsql).1 hrows htells
      fun _ ht => Rel.perm_of_insertSql hsql hrows ht
  | @update relId key old new rel stmt change hrel hsql =>
    refine rowsAfter_one hrel rfl (Rel.updateSql_names hsql).1 hrows htells fun hk ht => ?_
    exact Rel.perm_of_updateSql hsql hrows ht
      (hsingle relId (List.mem_singleton_self _) rel hrel hk)
  | @delete relId key old rel stmt change hrel hsql =>
    refine rowsAfter_one hrel rfl (Rel.deleteSql_names hsql).1 hrows htells fun hk ht => ?_
    exact Rel.perm_of_deleteSql hsql hrows ht
      (hsingle relId (List.mem_singleton_self _) rel hrel hk)
  | @truncate relIds rels hrels =>
    by_cases hk : ∃ rel ∈ rels, rel.key = k
    · rw [rowsAfter_truncate hk]
      obtain ⟨rel, hrel, hk⟩ := hk
      obtain ⟨relId, hmem, hknown⟩ := exists_of_forall₂ hrels hrel
      have hempty : up' = [] := htells.1 relId hmem rel hknown hk
      rw [hempty]
    · rw [rowsAfter_of_ne]
      · refine hrows.trans (htells.2 ?_).symm
        intro relId hmem rel hknown hkey
        obtain ⟨rel', hrel', hknown'⟩ := exists_of_forall₂ hrels.flip hmem
        obtain rfl : rel' = rel := Option.some.inj (hknown'.symm.trans hknown)
        exact hk ⟨rel', hrel', hkey⟩
      · intro change hchange
        obtain ⟨rel, hrel, rfl⟩ := List.mem_map.1 hchange
        exact fun hkey => hk ⟨rel, hrel, hkey⟩

/-- The statement writes the values of the message. -/
theorem Renders.keeps {store : String → String → String} {l : LocalSchema} {stmt : String}
    {changes : List RowChange} (h : Renders known m stmt changes)
    (hkeeps : ∀ relId ∈ m.relIds, ∀ rel ∈ known relId,
      l.Keeps store rel.key (rel.newValues m)) :
    ∀ change ∈ changes, l.Keeps store change.table change.row := by
  intro change hchange
  cases h with
  | @insert relId new rel stmt change' hrel hsql =>
    obtain rfl := List.mem_singleton.1 hchange
    rw [Rel.insertSql_change hsql]
    exact hkeeps relId (List.mem_singleton_self _) rel hrel
  | @update relId key old new rel stmt change' hrel hsql =>
    obtain rfl := List.mem_singleton.1 hchange
    obtain ⟨pairs, -, rfl⟩ := Rel.updateSql_change hsql
    exact hkeeps relId (List.mem_singleton_self _) rel hrel
  | delete hrel hsql =>
    obtain rfl := List.mem_singleton.1 hchange
    obtain ⟨pairs, -, rfl⟩ := Rel.deleteSql_change hsql
    intro p hp
    cases hp
  | truncate hrels =>
    obtain ⟨rel, -, rfl⟩ := List.mem_map.1 hchange
    intro p hp
    cases hp

end Renders

/-! ## Schema changes -/

namespace Backfill

/-- The table whose rows the statement may change. -/
def Ddl.table : Ddl → Option TableKey
  | .dropTable t => some t
  | .createTable t => some t.key
  | .alter t _ => some t
  | _ => none

variable {C : Contents} {k : TableKey}

/-- A statement on another table keeps the rows. -/
theorem onRows_of_ne {stmt : Ddl} (h : stmt.table ≠ some k) : stmt.onRows C k = C k := by
  cases stmt with
  | dropTable t => exact Function.update_of_ne (fun hk => h (congrArg some hk.symm)) _ _
  | createTable t => exact Function.update_of_ne (fun hk => h (congrArg some hk.symm)) _ _
  | alter t stmt =>
    cases stmt with
    | dropColumn name => exact Function.update_of_ne (fun hk => h (congrArg some hk.symm)) _ _
    | createIndex index => rfl
    | addColumn name typeSql => rfl
  | _ => rfl

theorem foldl_onRows_of_ne {stmts : List Ddl} (h : ∀ stmt ∈ stmts, stmt.table ≠ some k) :
    stmts.foldl Ddl.onRows C k = C k := by
  induction stmts generalizing C with
  | nil => rfl
  | cons stmt stmts ih =>
    rw [List.forall_mem_cons] at h
    rw [List.foldl_cons, ih h.2, onRows_of_ne h.1]

/-- The statements for a table are on that table, or make its schema. -/
theorem table_of_mem_tableStmts {old : OldColumns} {t : TableDef} {stmt : Ddl}
    (h : stmt ∈ tableStmts old t) : stmt.table = none ∨ stmt.table = some t.key := by
  unfold tableStmts at h
  split at h
  · rw [tableDdl, List.mem_append, List.mem_append] at h
    rcases h with (hschema | htable) | hindex
    · refine .inl ?_
      unfold schemaDdl at hschema
      split at hschema
      · cases hschema
      · rw [List.mem_singleton.1 hschema]
        rfl
    · refine .inr ?_
      rw [List.mem_cons, List.mem_singleton] at htable
      rcases htable with rfl | rfl <;> rfl
    · obtain ⟨index, -, rfl⟩ := List.mem_map.1 hindex
      exact .inr rfl
  · obtain ⟨stmt', -, rfl⟩ := List.mem_map.1 h
    exact .inr rfl

/-- The rows after each of the columns is dropped. -/
theorem foldl_dropColumn_onRows (names : List String) :
    ((names.map TableDdl.dropColumn).map (Ddl.alter k)).foldl Ddl.onRows C k =
      (C k).map (clear names) := by
  induction names generalizing C with
  | nil => exact (List.map_id _).symm
  | cons name names ih =>
    have hstep : Ddl.onRows C (.alter k (.dropColumn name)) k =
        (C k).map fun r => r.erase name := Function.update_self ..
    rw [List.map_cons, List.map_cons, List.foldl_cons, ih, hstep, List.map_map]
    rfl

/-- What the statements on a table leave of its rows. -/
theorem foldl_tableStmts (old : OldColumns) (t : TableDef) :
    (tableStmts old t).foldl Ddl.onRows C t.key =
      match old.lookup t.key with
      | none => []
      | some oldCols => (C t.key).map (clear (goneColumns t oldCols)) := by
  unfold tableStmts
  cases old.lookup t.key with
  | none =>
    have hindexes : ∀ (D : Contents), (t.indexes.map fun index =>
        Ddl.alter t.key (.createIndex index)).foldl Ddl.onRows D = D := by
      intro D
      induction t.indexes with
      | nil => rfl
      | cons index indexes ih => exact ih
    dsimp only
    rw [tableDdl, List.foldl_append, List.foldl_append, hindexes]
    exact Function.update_self ..
  | some oldCols =>
    have hadded : ∀ (cs : List ColDef) (D : Contents),
        ((cs.map fun c => TableDdl.addColumn c.name c.typeSql).map (Ddl.alter t.key)).foldl
          Ddl.onRows D = D := by
      intro cs D
      induction cs with
      | nil => rfl
      | cons c cs ih => exact ih
    dsimp only
    rw [alterStmts, List.map_append, List.foldl_append, hadded, foldl_dropColumn_onRows]

/-- What a schema change leaves of the rows of a published table. A table that no old line lists
is empty. -/
theorem foldl_deltaStmts (old : OldColumns) {tables : List TableDef}
    (hnodup : (tables.map TableDef.key).Nodup) {t : TableDef} (ht : t ∈ tables) :
    (deltaStmts old tables).foldl Ddl.onRows C t.key =
      match old.lookup t.key with
      | none => []
      | some oldCols => (C t.key).map (clear (goneColumns t oldCols)) := by
  obtain ⟨before, after, rfl⟩ := List.append_of_mem ht
  rw [List.map_append, List.map_cons, List.nodup_append, List.nodup_cons] at hnodup
  obtain ⟨-, ⟨hafter, -⟩, hbefore⟩ := hnodup
  have hspares : ∀ ts : List TableDef, t.key ∉ ts.map TableDef.key →
      ∀ stmt ∈ ts.flatMap (tableStmts old), stmt.table ≠ some t.key := by
    intro ts hts stmt hstmt
    obtain ⟨t', ht', hmem⟩ := List.mem_flatMap.1 hstmt
    rcases table_of_mem_tableStmts hmem with hnone | hsome
    · simp [hnone]
    · rw [hsome, ne_eq, Option.some.injEq]
      exact fun hkey => hts (List.mem_map.2 ⟨t', ht', hkey⟩)
  have hdropped : ∀ stmt ∈ (droppedTables old (before ++ t :: after)).map Ddl.dropTable,
      stmt.table ≠ some t.key := by
    intro stmt hstmt
    obtain ⟨key, hkey, rfl⟩ := List.mem_map.1 hstmt
    rw [droppedTables, List.mem_filter, decide_eq_true_iff] at hkey
    rw [Ddl.table, ne_eq, Option.some.injEq]
    rintro rfl
    exact hkey.2 (List.mem_map_of_mem ht)
  have hkey : t.key ∉ before.map TableDef.key := by
    intro hmem
    exact hbefore t.key hmem t.key List.mem_cons_self rfl
  rw [deltaStmts, List.flatMap_append, List.flatMap_cons, List.foldl_append, List.foldl_append,
    List.foldl_append, foldl_onRows_of_ne (hspares after hafter), foldl_tableStmts,
    foldl_onRows_of_ne (hspares before hkey), foldl_onRows_of_ne hdropped]

/-! The columns that stay keep their types. -/

section Types

variable {L : LocalTable} {n : String}

theorem typeOf_addColumn (h : n ∈ L.columnNames) (name typeSql : String) :
    (L.addColumn name typeSql).typeOf n = L.typeOf n := by
  unfold LocalTable.addColumn
  by_cases hname : name ∈ L.columnNames
  · rw [if_pos hname]
  · have hsome : (L.columns.find? fun c => decide (c.name = n)).isSome := by
      rw [List.find?_isSome]
      obtain ⟨c, hc, rfl⟩ := List.mem_map.1 h
      exact ⟨c, hc, decide_eq_true rfl⟩
    obtain ⟨c, hc⟩ := Option.isSome_iff_exists.1 hsome
    rw [if_neg hname, LocalTable.typeOf, LocalTable.typeOf, List.find?_append, hc]
    rfl

theorem typeOf_addColumns (h : n ∈ L.columnNames) (cs : List ColDef) :
    (L.addColumns cs).typeOf n = L.typeOf n := by
  induction cs generalizing L with
  | nil => rfl
  | cons c cs ih =>
    have hstep : L.addColumns (c :: cs) = (L.addColumn c.name c.typeSql).addColumns cs := rfl
    rw [hstep, ih ((columnNames_addColumn L c.name c.typeSql n).2 (.inl h)), typeOf_addColumn h]

theorem typeOf_dropColumn {name : String} (h : n ≠ name) :
    (L.dropColumn name).typeOf n = L.typeOf n := by
  have hsame : (fun c : LocalColumn =>
      decide (decide (c.name ≠ name) = true ∧ decide (c.name = n) = true)) =
        fun c => decide (c.name = n) := by
    funext c
    by_cases hc : c.name = n
    · simp [hc, h]
    · simp [hc]
  rw [LocalTable.typeOf, LocalTable.typeOf, LocalTable.dropColumn, List.find?_filter, hsame]

theorem typeOf_dropColumns {names : List String} (h : n ∉ names) :
    (names.foldl LocalTable.dropColumn L).typeOf n = L.typeOf n := by
  induction names generalizing L with
  | nil => rfl
  | cons name names ih =>
    rw [List.mem_cons, not_or] at h
    rw [List.foldl_cons, ih h.2, typeOf_dropColumn h.1]

theorem typeOf_altered {t : TableDef} {oldCols : List (String × Nat)} (h : n ∈ L.columnNames)
    (hstays : n ∉ goneColumns t oldCols) : (L.altered t oldCols).typeOf n = L.typeOf n := by
  rw [LocalTable.altered, typeOf_dropColumns hstays, typeOf_addColumns h]

end Types

end Backfill

end Pglite.Replica
