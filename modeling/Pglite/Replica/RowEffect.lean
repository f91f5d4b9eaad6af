import Pglite.Replica.RowStatement

/-!
# The effect of a row statement

The upstream changes one row of a table and sends a message. The statement that is made of it runs
against a local table with the same rows.

* `runSql`: a text is read as row statements and these are executed. What `=` says of two texts
  depends on the type of the column (`Equality`), and some types have no such operator.
  Both servers are assumed to print and to read values alike, with the same `DateStyle` and
  `IntervalStyle` and all digits of a float, so a value is stored as the text that came.
* `Rel.Sends`: the messages for a change of one row, by the replica identity of the table.
* `Rel.Replays`: the statement turns the rows before the change into those after it.

`row_change_exact_iff`: with a key the statement does so. With the old row as a whole it does so
exactly when all of its values can be compared and no other row that is equal to it is touched.
-/

namespace Pglite.Replica

open Text Records SqlLexer

/-! ## Execution -/

/-- What `=` says of two texts in a column of a table. The type of the column may have no such
operator. -/
abbrev Equality := TableKey → String → Option (String → String → Bool)

/-- Every text is equal to itself. -/
def Equality.Reflexive (eq : Equality) : Prop :=
  ∀ k column, ∀ same ∈ eq k column, ∀ v, same v v = true

/-- Each text is equal to itself only. -/
def textEquality : Equality := fun _ _ => some fun v w => v == w

theorem textEquality_reflexive : textEquality.Reflexive := by
  rintro k column same ⟨⟩ v
  exact beq_self_eq_true v

section Execution

variable (ops : String → Option (String → String → Bool))

/-- Two values of a column are not distinct. -/
def sameValue (same : Option (String → String → Bool)) : Option String → Option String → Bool
  | none, none => true
  | some v, some w => same.any fun same => same v w
  | _, _ => false

/-- The condition can be evaluated: a text is compared only where there is an operator. -/
def Cond.comparable (c : Cond) : Bool :=
  c.pair.2.isNone || (ops c.pair.1).isSome

/-- The condition is true of a row. A comparison with a null by `=` is not. -/
def Cond.holds (r : Row) : Cond → Bool
  | isNull column => (r.lookup column).isNone
  | equals column value =>
    (r.lookup column).any fun v => (ops column).any fun same => same v value
  | notDistinct column value => sameValue (ops column) (r.lookup column) value

/-- The `WHERE` clause is true of a row. -/
def whereHolds (conds : List Cond) (r : Row) : Bool :=
  conds.all (Cond.holds ops r)

/-- What the statement does to the rows of its table, unless it is refused. -/
def RowStatement.onRows (rows : List Row) : RowStatement → Option (List Row)
  | insert _ _ columns values =>
    if columns.length = values.length then some (setAll ∅ (columns.zip values) :: rows) else none
  | update _ _ sets conds =>
    if conds.all (Cond.comparable ops) then
      some (rows.map fun r => if whereHolds ops conds r then setAll r sets else r)
    else none
  | delete _ _ conds =>
    if conds.all (Cond.comparable ops) then
      some (rows.filter fun r => decide (¬ whereHolds ops conds r))
    else none

end Execution

/-- The table of the statement. -/
def RowStatement.table : RowStatement → TableKey
  | insert schema table _ _ => (schema, table)
  | update schema table _ _ => (schema, table)
  | delete schema table _ => (schema, table)

/-- What the statement does to the database. -/
def RowStatement.run (eq : Equality) (C : Contents) (stmt : RowStatement) : Option Contents :=
  (stmt.onRows (eq stmt.table) (C stmt.table)).map (Function.update C stmt.table)

/-- The text is executed. One that cannot be read is refused. -/
def runSql (eq : Equality) (C : Contents) (sql : String) : Option Contents :=
  (readRowSql sql).bind fun stmts => stmts.foldlM (RowStatement.run eq) C

/-! ## The upstream -/

/-- The column belongs to the replica identity. -/
def RelColumn.isKey (col : RelColumn) : Bool :=
  decide (col.flags &&& 1 ≠ 0)

/-- The cell of a column in a tuple of the row. -/
def RelColumn.cell (col : RelColumn) (r : Row) : CellValue :=
  match r.lookup col.name with
  | none => .null
  | some v => .text v

theorem cellValue_cell (col : RelColumn) (r : Row) : cellValue (col.cell r) = r.lookup col.name := by
  unfold RelColumn.cell
  cases r.lookup col.name <;> rfl

theorem cell_ne_unchangedToast (col : RelColumn) (r : Row) : col.cell r ≠ .unchangedToast := by
  unfold RelColumn.cell
  cases r.lookup col.name <;> exact nofun

namespace Rel

variable (rel : Rel)

/-- The row as a tuple. -/
def tuple (r : Row) : TupleData :=
  rel.columns.map fun col => col.cell r

/-- The key of the row as a tuple. -/
def keyTuple (r : Row) : TupleData :=
  rel.columns.map fun col => if col.isKey then col.cell r else .null

/-- The row has no values but those of the columns. -/
def Fits (r : Row) : Prop :=
  ∀ name, name ∉ rel.columns.map RelColumn.name → r.lookup name = none

/-- A new tuple: the cell of a column that may be toasted, and is the same in both rows, may be
left out. -/
def NewTuple (toast : RelColumn → Prop) (r r' : Row) (new : TupleData) : Prop :=
  List.Forall₂ (fun col cell => cell = col.cell r' ∨
    (cell = .unchangedToast ∧ r.lookup col.name = r'.lookup col.name ∧ toast col)) rel.columns new

section Keys

variable (ops : String → Option (String → String → Bool))

/-- Two rows are the same in some of the columns. -/
def Same (among : RelColumn → Bool) (s r : Row) : Prop :=
  ∀ col ∈ rel.columns, among col →
    sameValue (ops col.name) (s.lookup col.name) (r.lookup col.name)

/-- All values of a row in some of the columns can be compared. -/
def Comparable (among : RelColumn → Bool) (r : Row) : Prop :=
  ∀ col ∈ rel.columns, among col → r.lookup col.name = none ∨ (ops col.name).isSome

/-- The replica identity is a unique index: its columns can be compared, and no two rows have the
same key. -/
structure Keyed (rows : List Row) : Prop where
  key : ∃ col ∈ rel.columns, col.isKey
  comparable : ∀ col ∈ rel.columns, col.isKey → (ops col.name).isSome
  unique : ∀ r ∈ rows, ∀ s ∈ rows.erase r, ¬ rel.Same ops RelColumn.isKey s r

/-- **One row is changed.** The messages that the upstream sends when one row is inserted, updated
or deleted, and the rows after it. The old row is identified by all of its values, by its key, or,
when the key stays the same, by the key of the new row. -/
inductive Sends (relId : UInt32) (up : List Row) : List Row → PgOutputMsg → Prop
  | insert {r : Row} (hr : rel.Fits r) : Sends relId up (r :: up) (.insert relId (rel.tuple r))
  | updateOld {r r' : Row} {new : TupleData} (hr : r ∈ up) (hr' : rel.Fits r')
      (hnew : rel.NewTuple (fun _ => True) r r' new) :
      Sends relId up (r' :: up.erase r) (.update relId none (some (rel.tuple r)) new)
  | updateKey {r r' : Row} {new : TupleData} (hr : r ∈ up) (hr' : rel.Fits r')
      (hnew : rel.NewTuple (fun col => ¬ col.isKey) r r' new) (hkeyed : rel.Keyed ops up) :
      Sends relId up (r' :: up.erase r) (.update relId (some (rel.keyTuple r)) none new)
  | updateNew {r r' : Row} {new : TupleData} (hr : r ∈ up) (hr' : rel.Fits r')
      (hnew : rel.NewTuple (fun col => ¬ col.isKey) r r' new) (hkeyed : rel.Keyed ops up)
      (hkey : ∀ col ∈ rel.columns, col.isKey → r.lookup col.name = r'.lookup col.name) :
      Sends relId up (r' :: up.erase r) (.update relId none none new)
  | deleteOld {r : Row} (hr : r ∈ up) :
      Sends relId up (up.erase r) (.delete relId none (some (rel.tuple r)))
  | deleteKey {r : Row} (hr : r ∈ up) (hkeyed : rel.Keyed ops up) :
      Sends relId up (up.erase r) (.delete relId (some (rel.keyTuple r)) none)

/-- The old row of a message, from its old tuple. -/
def oldRow (old : TupleData) : Row :=
  setAll ∅ (rel.values old)

/-- The condition on a message and the rows before it. There is a column to insert into; and a change
that is told by the old row as a whole has something to set, compares no text without an operator
for it, and meets no other row that is the same and that it would change. -/
def Exact (up : List Row) : PgOutputMsg → Prop
  | .insert _ _ => rel.columns ≠ []
  | .update _ _ (some old) new =>
    rel.values new ≠ [] ∧ rel.Comparable ops (fun _ => true) (rel.oldRow old) ∧
      ∀ s ∈ up.erase (rel.oldRow old), rel.Same ops (fun _ => true) s (rel.oldRow old) →
        setAll s (rel.values new) = s
  | .delete _ _ (some old) =>
    rel.columns ≠ [] ∧ rel.Comparable ops (fun _ => true) (rel.oldRow old) ∧
      ∀ s ∈ up.erase (rel.oldRow old), ¬ rel.Same ops (fun _ => true) s (rel.oldRow old)
  | _ => True

end Keys

/-- The statement of a message, as `stream_loop` asks for it. -/
def rowSql : PgOutputMsg → Except Error (String × RowChange)
  | .insert _ new => rel.insertSql new
  | .update _ key old new => rel.updateSql key old new
  | .delete _ key old => rel.deleteSql key old
  | _ => .error (.protocol "no row change")

/-- The statement of the message turns the rows of its table into `up'`, and leaves the others
alone. -/
def Replays (eq : Equality) (C : Contents) (up' : List Row) (m : PgOutputMsg) : Prop :=
  ∃ sql change C', rel.rowSql m = .ok (sql, change) ∧ runSql eq C sql = some C' ∧
    (C' rel.key).Perm up' ∧ ∀ k ≠ rel.key, C' k = C k

/-- The table and its columns have names. -/
structure Titled : Prop where
  schema : rel.schema ≠ ""
  name : rel.name ≠ ""
  column : ∀ col ∈ rel.columns, col.name ≠ ""

end Rel

/-! ## Conditions -/

section Conditions

variable {ops : String → Option (String → String → Bool)} {r s : Row} {c : Cond}

theorem sameValue_self {same : Option (String → String → Bool)} {v : Option String}
    (hsame : ∀ f ∈ same, ∀ v, f v v = true) (h : v = none ∨ same.isSome) :
    sameValue same v v := by
  cases v with
  | none => rfl
  | some v =>
    cases same with
    | none => simp at h
    | some f => exact hsame f rfl v

/-- All conditions are true of the same rows when they are on the same values. -/
theorem Cond.holds_eq (c : Cond) (r : Row) :
    c.holds ops r = sameValue (ops c.pair.1) (r.lookup c.pair.1) c.pair.2 := by
  cases c with
  | isNull column =>
    change (r.lookup column).isNone = sameValue (ops column) (r.lookup column) none
    cases r.lookup column <;> rfl
  | equals column value =>
    change ((r.lookup column).any fun v => (ops column).any fun same => same v value) =
      sameValue (ops column) (r.lookup column) (some value)
    cases r.lookup column <;> rfl
  | notDistinct column value => rfl

namespace Rel

variable {rel : Rel} {among : RelColumn → Bool}

/-- The values of a row in some of the columns. -/
def pairs (rel : Rel) (among : RelColumn → Bool) (r : Row) : ColPairs :=
  (rel.columns.filter among).map fun col => (col.name, r.lookup col.name)

variable {conds : List Cond} (h : conds.map Cond.pair = rel.pairs among r)
include h

theorem whereHolds_iff : whereHolds ops conds s ↔ rel.Same ops among s r := by
  have hall : whereHolds ops conds s = (conds.map Cond.pair).all fun p =>
      sameValue (ops p.1) (s.lookup p.1) p.2 := by
    rw [List.all_map, whereHolds]
    exact List.all_congr rfl fun c => c.holds_eq s
  rw [hall, h, pairs, List.all_map, List.all_eq_true]
  simp [Same, List.mem_filter]

theorem comparable_iff : conds.all (Cond.comparable ops) ↔ rel.Comparable ops among r := by
  have hall : conds.all (Cond.comparable ops) = (conds.map Cond.pair).all fun p =>
      p.2.isNone || (ops p.1).isSome := by
    rw [List.all_map]
    rfl
  rw [hall, h, pairs, List.all_map, List.all_eq_true]
  simp [Comparable, List.mem_filter]

end Rel

end Conditions

/-! ## Tuples -/

namespace Rel

variable {rel : Rel} {r r' : Row} {key old new : Option TupleData}

theorem zip_tuple (rel : Rel) (r : Row) :
    rel.columns.zip (rel.tuple r) = rel.columns.map fun col => (col, col.cell r) :=
  List.map_prod_left_eq_zip.symm

theorem length_tuple (rel : Rel) (r : Row) : (rel.tuple r).length = rel.columns.length :=
  List.length_map _

/-- Nothing is left out of a tuple. -/
theorem filter_zip_tuple (rel : Rel) (r : Row) :
    ((rel.columns.zip (rel.tuple r)).filter fun (_, cell) => cell ≠ .unchangedToast) =
      rel.columns.map fun col => (col, col.cell r) := by
  rw [zip_tuple, List.filter_eq_self]
  intro p hp
  obtain ⟨col, -, rfl⟩ := List.mem_map.1 hp
  simpa using cell_ne_unchangedToast col r

theorem values_tuple (rel : Rel) (r : Row) :
    rel.values (rel.tuple r) = rel.pairs (fun _ => true) r := by
  rw [values, filter_zip_tuple, pairs, List.filter_true, List.map_map]
  exact List.map_congr_left fun col _ => by simp [cellValue_cell]

/-- The row is read back from its tuple. -/
theorem setAll_pairs (h : rel.Fits r) : setAll ∅ (rel.pairs (fun _ => true) r) = r := by
  refine setAll_eq ?_ ?_
  · intro p hp
    obtain ⟨col, -, rfl⟩ := List.mem_map.1 hp
    rfl
  · intro name hname
    rw [Finmap.lookup_empty, h name]
    simpa [pairs] using hname

theorem oldRow_tuple (h : rel.Fits r) : rel.oldRow (rel.tuple r) = r := by
  rw [oldRow, values_tuple, setAll_pairs h]

/-- The values of the new tuple make the new row of the old one. -/
theorem setAll_values {toast : RelColumn → Prop} {new : TupleData}
    (hnew : rel.NewTuple toast r r' new) (hr : rel.Fits r) (hr' : rel.Fits r') :
    setAll r (rel.values new) = r' := by
  obtain ⟨hlen, hcells⟩ := List.forall₂_iff_zip.1 hnew
  refine setAll_eq ?_ ?_
  · intro p hp
    obtain ⟨⟨col, cell⟩, hmem, rfl⟩ := List.mem_map.1 hp
    obtain ⟨hzip, htoast⟩ := List.mem_filter.1 hmem
    rcases hcells hzip with rfl | ⟨rfl, -⟩
    · exact (cellValue_cell col r').symm
    · simp at htoast
  · intro name hname
    by_cases hmem : name ∈ rel.columns.map RelColumn.name
    · obtain ⟨col, hcol, rfl⟩ := List.mem_map.1 hmem
      have hfst : (rel.columns.zip new).map Prod.fst = rel.columns :=
        List.map_fst_zip (by omega)
      rw [← hfst] at hcol
      obtain ⟨⟨col', cell⟩, hzip, rfl⟩ := List.mem_map.1 hcol
      rcases hcells hzip with rfl | ⟨-, hsame, -⟩
      · have hset : (col'.name, cellValue (col'.cell r')) ∈ rel.values new := by
          refine List.mem_map.2 ⟨(col', col'.cell r'), List.mem_filter.2 ⟨hzip, ?_⟩, rfl⟩
          simpa using cell_ne_unchangedToast col' r'
        exact absurd (List.mem_map_of_mem hset) hname
      · exact hsame
    · rw [hr name hmem, hr' name hmem]

/-! ## Where clauses -/

/-- The tuple has the key of the row. -/
def HasKey (rel : Rel) (r : Row) (source : TupleData) : Prop :=
  List.Forall₂ (fun col cell => col.isKey → cell = RelColumn.cell col r) rel.columns source

theorem hasKey_keyTuple (rel : Rel) (r : Row) : rel.HasKey r (rel.keyTuple r) := by
  rw [HasKey, keyTuple, List.forall₂_map_right_iff, List.forall₂_same]
  intro col _ hkey
  rw [if_pos hkey]

theorem hasKey_newTuple {new : TupleData}
    (hnew : rel.NewTuple (fun col => ¬ col.isKey) r r' new)
    (hkey : ∀ col ∈ rel.columns, col.isKey → r.lookup col.name = r'.lookup col.name) :
    rel.HasKey r new := by
  obtain ⟨hlen, hcells⟩ := List.forall₂_iff_zip.1 hnew
  refine List.forall₂_iff_zip.2 ⟨hlen, fun {col cell} hzip hcol => ?_⟩
  rcases hcells hzip with rfl | ⟨-, -, hno⟩
  · unfold RelColumn.cell
    rw [hkey col (List.of_mem_zip hzip).1 hcol]
  · exact absurd hcol hno

theorem filter_zip_key {source : TupleData} (h : rel.HasKey r source) :
    ((rel.columns.zip source).filter fun (col, _) => col.flags &&& 1 ≠ 0) =
      (rel.columns.filter RelColumn.isKey).map fun col => (col, col.cell r) := by
  unfold HasKey at h
  generalize rel.columns = columns at h ⊢
  induction h with
  | nil => rfl
  | @cons col cell columns cells hcell _ ih =>
    by_cases hkey : col.isKey
    · have hflag : col.flags &&& 1 ≠ 0 := of_decide_eq_true hkey
      rw [List.zip_cons_cons, List.filter_cons_of_pos (by simpa using hflag), ih,
        List.filter_cons_of_pos hkey, List.map_cons, hcell hkey]
    · have hflag : ¬ col.flags &&& 1 ≠ 0 := fun h => hkey (decide_eq_true h)
      rw [List.zip_cons_cons, List.filter_cons_of_neg (by simpa using hflag), ih,
        List.filter_cons_of_neg hkey]

/-- What the conditions ask for, with the old row. -/
theorem conds_old (rel : Rel) (r : Row) (key new : Option TupleData) :
    (rel.conds key (some (rel.tuple r)) new).map Cond.pair = rel.pairs (fun _ => true) r := by
  rw [← values_tuple, conds, values, List.map_map]
  rfl

/-- What the conditions ask for, with a key. -/
theorem conds_key {source : TupleData} (hsource : key.or new = some source)
    (h : rel.HasKey r source) :
    (rel.conds key none new).map Cond.pair = rel.pairs RelColumn.isKey r := by
  rw [conds, hsource, Option.getD_some, filter_zip_key h, pairs, List.map_map, List.map_map]
  refine List.map_congr_left fun col _ => ?_
  rw [Function.comp_apply, Function.comp_apply]
  dsimp only
  rw [cellValue_cell]
  cases r.lookup col.name <;> rfl

end Rel

/-! ## Statements -/

theorem mapM_ok {ε α β : Type} {f : α → Except ε β} {xs : List α} (h : ∀ x ∈ xs, ∃ y, f x = .ok y) :
    ∃ ys, xs.mapM f = .ok ys ∧ ys.length = xs.length := by
  induction xs with
  | nil => exact ⟨[], rfl, rfl⟩
  | cons x xs ih =>
    rw [List.forall_mem_cons] at h
    obtain ⟨y, hy⟩ := h.1
    obtain ⟨ys, hys, hlen⟩ := ih h.2
    refine ⟨y :: ys, ?_, by rw [List.length_cons, List.length_cons, hlen]⟩
    rw [List.mapM_cons, hy, hys]
    rfl

namespace Rel

variable {rel : Rel} {r r' : Row} {key old new : Option TupleData}

theorem checkArity_of_length {tuple : TupleData} (h : tuple.length = rel.columns.length) :
    rel.checkArity tuple = .ok () := by
  rw [checkArity, if_neg (not_not.2 h)]

theorem insertSql_ok (rel : Rel) (r : Row) : ∃ p, rel.insertSql (rel.tuple r) = .ok p := by
  have hcells : ∀ p ∈ rel.columns.zip (rel.tuple r), ∃ y, (fun (col, cell) =>
      if cell = CellValue.unchangedToast then
        Except.error (Error.protocol ("unchanged-toast cell in insert into " ++ rel.label))
      else .ok (ident col.name, cellLit cell, col.name, cellValue cell)) p = .ok y := by
    rw [zip_tuple]
    intro p hp
    obtain ⟨col, -, rfl⟩ := List.mem_map.1 hp
    exact ⟨_, if_neg (cell_ne_unchangedToast col r)⟩
  obtain ⟨cells, hcells, -⟩ := mapM_ok hcells
  rw [insertSql, checkArity_of_length (length_tuple rel r)]
  exact ⟨_, bind_eq_ok.2 ⟨(), rfl, bind_eq_ok.2 ⟨cells, hcells, rfl⟩⟩⟩

/-- With the old row as a whole there is a `WHERE` clause when there is a column. -/
theorem whereClause_old (h : rel.columns ≠ []) (r : Row) (key new : Option TupleData) :
    ∃ p, rel.whereClause key (some (rel.tuple r)) new = .ok p := by
  have hcells : ((rel.columns.zip (rel.tuple r)).filter fun (_, cell) =>
      cell ≠ .unchangedToast) ≠ [] := by
    rw [filter_zip_tuple]
    simpa using h
  exact ⟨_, bind_eq_ok.2 ⟨(), checkArity_of_length (length_tuple rel r),
    if_neg (by simpa using hcells)⟩⟩

/-- With a key there is one when a column belongs to it. -/
theorem whereClause_key {source : TupleData} (hsource : key.or new = some source)
    (h : rel.HasKey r source) (hkey : ∃ col ∈ rel.columns, col.isKey) :
    ∃ p, rel.whereClause key none new = .ok p := by
  have hconds : ∀ p ∈ (rel.columns.zip source).filter fun (col, _) => col.flags &&& 1 ≠ 0,
      ∃ y, rel.keyCond p = .ok y := by
    rw [filter_zip_key h]
    intro p hp
    obtain ⟨col, -, rfl⟩ := List.mem_map.1 hp
    unfold RelColumn.cell
    cases r.lookup col.name <;> exact ⟨_, rfl⟩
  obtain ⟨conds, hok, hlen⟩ := mapM_ok hconds
  have hne : conds ≠ [] := by
    obtain ⟨col, hcol, hkey⟩ := hkey
    rw [filter_zip_key h, List.length_map] at hlen
    rw [← List.length_pos_iff, hlen]
    exact List.length_pos_of_mem (List.mem_filter.2 ⟨hcol, hkey⟩)
  rw [whereClause, hsource]
  refine ⟨_, bind_eq_ok.2 ⟨source, rfl, bind_eq_ok.2 ⟨(), checkArity_of_length h.length_eq.symm,
    bind_eq_ok.2 ⟨conds, hok, if_neg hne⟩⟩⟩⟩

theorem updateSql_ok {tuple : TupleData} (hlen : tuple.length = rel.columns.length)
    (hwhere : ∃ p, rel.whereClause key old (some tuple) = .ok p) (hset : rel.values tuple ≠ []) :
    ∃ p, rel.updateSql key old tuple = .ok p := by
  obtain ⟨⟨whereSql, pairs⟩, hwhere⟩ := hwhere
  refine ⟨_, bind_eq_ok.2 ⟨(), checkArity_of_length hlen, bind_eq_ok.2 ⟨_, hwhere, if_neg ?_⟩⟩⟩
  simpa [values] using hset

theorem deleteSql_ok (hwhere : ∃ p, rel.whereClause key old none = .ok p) :
    ∃ p, rel.deleteSql key old = .ok p := by
  obtain ⟨⟨whereSql, pairs⟩, hwhere⟩ := hwhere
  exact ⟨_, bind_eq_ok.2 ⟨_, hwhere, rfl⟩⟩

/-! ## Running them -/

section Run

variable {eq : Equality} {C : Contents} {up up' : List Row} {m : PgOutputMsg}

/-- The message's statement is run when it can be made and read. -/
theorem replays_iff_onRows {p : String × RowChange} {stmt : RowStatement}
    (hsql : rel.rowSql m = .ok p) (hread : readRowSql p.1 = some [stmt])
    (htable : stmt.table = rel.key) :
    rel.Replays eq C up' m ↔
      ∃ rows, stmt.onRows (eq rel.key) (C rel.key) = some rows ∧ rows.Perm up' := by
  have hrun : runSql eq C p.1 = stmt.run eq C := by
    rw [runSql, hread, Option.bind_some, List.foldlM_cons]
    cases stmt.run eq C <;> rfl
  constructor
  · rintro ⟨sql, change, C', hsql', hrun', hperm, -⟩
    obtain rfl : p = (sql, change) := Except.ok.inj (hsql.symm.trans hsql')
    rw [hrun, RowStatement.run, htable] at hrun'
    obtain ⟨rows, hrows, rfl⟩ := Option.map_eq_some_iff.1 hrun'
    rw [Function.update_self] at hperm
    exact ⟨rows, hrows, hperm⟩
  · rintro ⟨rows, hrows, hperm⟩
    refine ⟨p.1, p.2, Function.update C rel.key rows, hsql, ?_, ?_, ?_⟩
    · rw [hrun, RowStatement.run, htable, hrows]
      rfl
    · rw [Function.update_self]
      exact hperm
    · exact fun k hk => Function.update_of_ne hk _ _

theorem not_replays (h : ∀ sql change, rel.rowSql m = .ok (sql, change) → readRowSql sql = none) :
    ¬ rel.Replays eq C up' m := by
  rintro ⟨sql, change, C', hsql, hrun, -, -⟩
  rw [runSql, h sql change hsql] at hrun
  cases hrun

end Run

/-! ## Each kind of change -/

section Kinds

variable {eq : Equality} (heq : eq.Reflexive) {C : Contents} {up : List Row} {relId : UInt32}
  {among : RelColumn → Bool} (hC : (C rel.key).Perm up)

theorem Titled.named (h : rel.Titled) (hne : rel.columns ≠ []) : rel.Named :=
  ⟨h.schema, h.name, hne, h.column⟩

theorem same_self (heq : eq.Reflexive) {r : Row} (h : rel.Comparable (eq rel.key) among r) :
    rel.Same (eq rel.key) among r r :=
  fun col hcol hamong => sameValue_self (heq rel.key col.name) (h col hcol hamong)

/-- An `INSERT` without columns is not SQL. -/
theorem readRowSql_insert_nil {schema table : String} (hschema : schema ≠ "") (htable : table ≠ "") :
    readRowSql (RowStatement.insert schema table [] []).sql = none := by
  have hinsert : Reads "INSERT".toList [.word "insert"] := reads_word (by decide)
  have hinto : Reads "INTO".toList [.word "into"] := reads_word (by decide)
  have hvalues : Reads "VALUES".toList [.word "values"] := reads_word (by decide)
  have hclose := (reads_nil.sep (c := ')') (by decide) reads_nil).delimiter (c := '(') (by decide)
  have hbehind := (hvalues.space hclose).delimiter (c := ' ') (by decide)
  have hcolumns := (reads_nil.sep (c := ')') (by decide) hbehind).delimiter (c := '(') (by decide)
  have htext := hinsert.space (hinto.space ((reads_table hschema htable).space hcolumns))
  rw [readRowSql, readScript_eq readRow (by simpa [RowStatement.sql, delimiterTokens] using htext)
    (by simp) (by simp)]
  simp [readRow, cutAt, readList, readColumn]

include hC in
theorem replays_insert_iff (h : rel.Titled) {r : Row} (hr : rel.Fits r) :
    rel.Replays eq C (r :: up) (.insert relId (rel.tuple r)) ↔ rel.columns ≠ [] := by
  obtain ⟨p, hsql⟩ := insertSql_ok rel r
  by_cases hne : rel.columns = []
  · refine iff_of_false (not_replays fun sql change hsql => ?_) (not_not.2 hne)
    obtain ⟨-, rfl, -⟩ := insertSql_text hsql
    rw [tuple, hne]
    exact readRowSql_insert_nil h.schema h.name
  · refine iff_of_true ?_ hne
    have hread := (h.named hne).readRowSql_insertSql hsql
    have hmessage : rel.rowSql (.insert relId (rel.tuple r)) = .ok p := hsql
    refine (replays_iff_onRows hmessage hread rfl).2 ⟨r :: C rel.key, ?_, hC.cons r⟩
    have hrow : (rel.columns.map RelColumn.name).zip ((rel.tuple r).map cellValue) =
        rel.pairs (fun _ => true) r := by
      rw [← values_tuple, List.zip_map, zip_tuple, values, filter_zip_tuple]
      rfl
    rw [RowStatement.onRows, if_pos (by simp [tuple]), hrow, setAll_pairs hr]

include heq hC in
theorem replays_update_iff (h : rel.Named) {new : TupleData} {p : String × RowChange}
    (hsql : rel.updateSql key old new = .ok p)
    (hconds : (rel.conds key old (some new)).map Cond.pair = rel.pairs among r) (hr : r ∈ up)
    (hnew : setAll r (rel.values new) = r') :
    rel.Replays eq C (r' :: up.erase r) (.update relId key old new) ↔
      rel.Comparable (eq rel.key) among r ∧
        ∀ s ∈ up.erase r, rel.Same (eq rel.key) among s r → setAll s (rel.values new) = s := by
  have hmessage : rel.rowSql (.update relId key old new) = .ok p := hsql
  rw [replays_iff_onRows hmessage (h.readRowSql_updateSql hsql) rfl, RowStatement.onRows,
    ← comparable_iff hconds]
  by_cases hcomparable : (rel.conds key old (some new)).all (Cond.comparable (eq rel.key))
  · have hself := (whereHolds_iff hconds).2 (same_self heq ((comparable_iff hconds).1 hcomparable))
    have hone := perm_map_ite_iff
      (m := fun s => whereHolds (eq rel.key) (rel.conds key old (some new)) s)
      (f := fun s => setAll s (rel.values new)) (fun s => setAll_setAll s _) hr hself
    have hlocal := hC.map fun s => if whereHolds (eq rel.key) (rel.conds key old (some new)) s then
      setAll s (rel.values new) else s
    rw [if_pos hcomparable, ← hnew]
    simp only [hcomparable, true_and, Option.some.injEq, exists_eq_left', hlocal.congr_left, hone,
      whereHolds_iff hconds]
  · simp [hcomparable]

include heq hC in
theorem replays_delete_iff (h : rel.Named) {p : String × RowChange}
    (hsql : rel.deleteSql key old = .ok p)
    (hconds : (rel.conds key old none).map Cond.pair = rel.pairs among r) (hr : r ∈ up) :
    rel.Replays eq C (up.erase r) (.delete relId key old) ↔
      rel.Comparable (eq rel.key) among r ∧
        ∀ s ∈ up.erase r, ¬ rel.Same (eq rel.key) among s r := by
  have hmessage : rel.rowSql (.delete relId key old) = .ok p := hsql
  rw [replays_iff_onRows hmessage (h.readRowSql_deleteSql hsql) rfl, RowStatement.onRows,
    ← comparable_iff hconds]
  by_cases hcomparable : (rel.conds key old none).all (Cond.comparable (eq rel.key))
  · have hself := (whereHolds_iff hconds).2 (same_self heq ((comparable_iff hconds).1 hcomparable))
    have hone := perm_filter_not_iff (m := fun s =>
      whereHolds (eq rel.key) (rel.conds key old none) s) hr hself
    have hlocal := hC.filter fun s =>
      decide (¬ whereHolds (eq rel.key) (rel.conds key old none) s)
    rw [if_pos hcomparable]
    simp only [hcomparable, true_and, Option.some.injEq, exists_eq_left', hlocal.congr_left, hone,
      whereHolds_iff hconds]
  · simp [hcomparable]

/-- Every update of a keyed table sets its key. -/
theorem values_ne_nil {new : TupleData} (hnew : rel.NewTuple (fun col => ¬ col.isKey) r r' new)
    (hkey : ∃ col ∈ rel.columns, col.isKey) : rel.values new ≠ [] := by
  obtain ⟨col, hcol, hkey⟩ := hkey
  obtain ⟨hlen, hcells⟩ := List.forall₂_iff_zip.1 hnew
  have hfst : (rel.columns.zip new).map Prod.fst = rel.columns := List.map_fst_zip (by omega)
  rw [← hfst] at hcol
  obtain ⟨⟨col', cell⟩, hzip, rfl⟩ := List.mem_map.1 hcol
  have hcell : cell ≠ .unchangedToast := by
    rcases hcells hzip with rfl | ⟨-, -, hno⟩
    · exact cell_ne_unchangedToast col' r'
    · exact absurd hkey hno
  have hset : (col'.name, cellValue cell) ∈ rel.values new :=
    List.mem_map.2 ⟨(col', cell), List.mem_filter.2 ⟨hzip, by simpa using hcell⟩, rfl⟩
  exact List.ne_nil_of_mem hset

theorem Keyed.columns_ne_nil {ops : String → Option (String → String → Bool)} {rows : List Row}
    (h : rel.Keyed ops rows) : rel.columns ≠ [] := by
  obtain ⟨col, hcol, -⟩ := h.key
  exact List.ne_nil_of_mem hcol

include heq hC in
/-- With a key, an update is always replayed. -/
theorem replays_update_of_keyed (h : rel.Titled) {new source : TupleData}
    (hsource : key.or (some new) = some source) (hhas : rel.HasKey r source)
    (hkeyed : rel.Keyed (eq rel.key) up) (hr : r ∈ up) (hfits : rel.Fits r) (hr' : rel.Fits r')
    (hnew : rel.NewTuple (fun col => ¬ col.isKey) r r' new) :
    rel.Replays eq C (r' :: up.erase r) (.update relId key none new) := by
  obtain ⟨p, hsql⟩ := updateSql_ok hnew.length_eq.symm (whereClause_key hsource hhas hkeyed.key)
    (values_ne_nil hnew hkeyed.key)
  refine (replays_update_iff heq hC (h.named hkeyed.columns_ne_nil) hsql
    (conds_key hsource hhas) hr (setAll_values hnew hfits hr')).2 ⟨?_, ?_⟩
  · exact fun col hcol hkey => .inr (hkeyed.comparable col hcol hkey)
  · exact fun s hs hsame => absurd hsame (hkeyed.unique r hr s hs)

include heq hC in
theorem replays_delete_of_keyed (h : rel.Titled) (hkeyed : rel.Keyed (eq rel.key) up)
    (hr : r ∈ up) :
    rel.Replays eq C (up.erase r) (.delete relId (some (rel.keyTuple r)) none) := by
  have hhas := hasKey_keyTuple rel r
  have hsource : (some (rel.keyTuple r)).or none = some (rel.keyTuple r) := rfl
  obtain ⟨p, hsql⟩ := deleteSql_ok (whereClause_key hsource hhas hkeyed.key)
  refine (replays_delete_iff heq hC (h.named hkeyed.columns_ne_nil) hsql
    (conds_key hsource hhas) hr).2 ⟨?_, ?_⟩
  · exact fun col hcol hkey => .inr (hkeyed.comparable col hcol hkey)
  · exact fun s hs hsame => hkeyed.unique r hr s hs hsame

include heq hC in
theorem replays_updateOld_iff (h : rel.Titled) {new : TupleData} (hr : r ∈ up)
    (hfits : rel.Fits r) (hr' : rel.Fits r') (hnew : rel.NewTuple (fun _ => True) r r' new) :
    rel.Replays eq C (r' :: up.erase r) (.update relId none (some (rel.tuple r)) new) ↔
      rel.values new ≠ [] ∧ rel.Comparable (eq rel.key) (fun _ => true) r ∧
        ∀ s ∈ up.erase r, rel.Same (eq rel.key) (fun _ => true) s r →
          setAll s (rel.values new) = s := by
  by_cases hset : rel.values new = []
  · refine iff_of_false (not_replays fun sql change hsql => ?_) fun hexact => hexact.1 hset
    exact absurd hset (updateSql_text hsql).2.2.1
  · have hne : rel.columns ≠ [] := by
      intro hnil
      simp [values, hnil] at hset
    obtain ⟨p, hsql⟩ := updateSql_ok hnew.length_eq.symm (whereClause_old hne r none _) hset
    rw [replays_update_iff heq hC (h.named hne) hsql (conds_old rel r _ _) hr
      (setAll_values hnew hfits hr')]
    exact (and_iff_right hset).symm

include heq hC in
theorem replays_deleteOld_iff (h : rel.Titled) (hr : r ∈ up) :
    rel.Replays eq C (up.erase r) (.delete relId none (some (rel.tuple r))) ↔
      rel.columns ≠ [] ∧ rel.Comparable (eq rel.key) (fun _ => true) r ∧
        ∀ s ∈ up.erase r, ¬ rel.Same (eq rel.key) (fun _ => true) s r := by
  by_cases hne : rel.columns = []
  · refine iff_of_false (not_replays fun sql change hsql => ?_) fun hexact => hexact.1 hne
    refine absurd ?_ (deleteSql_text hsql).2.2
    simp [conds, hne]
  · obtain ⟨p, hsql⟩ := deleteSql_ok (whereClause_old hne r none none)
    rw [replays_delete_iff heq hC (h.named hne) hsql (conds_old rel r _ _) hr]
    exact (and_iff_right hne).symm

end Kinds

/-- The statement of a message has the effect of the change in these cases. -/
theorem Sends.replays_iff {up up' : List Row} {m : PgOutputMsg} {relId : UInt32} {eq : Equality}
    (hsends : rel.Sends (eq rel.key) relId up up' m) (heq : eq.Reflexive) (h : rel.Titled)
    (hfits : ∀ r ∈ up, rel.Fits r) {C : Contents} (hC : (C rel.key).Perm up) :
    rel.Replays eq C up' m ↔ rel.Exact (eq rel.key) up m := by
  cases hsends with
  | insert hr => exact replays_insert_iff hC h hr
  | @updateOld r r' new hr hr' hnew =>
    rw [Exact, oldRow_tuple (hfits r hr)]
    exact replays_updateOld_iff heq hC h hr (hfits r hr) hr' hnew
  | @updateKey r r' new hr hr' hnew hkeyed =>
    exact iff_of_true (replays_update_of_keyed heq hC h rfl (hasKey_keyTuple rel r) hkeyed
      hr (hfits r hr) hr' hnew) trivial
  | @updateNew r r' new hr hr' hnew hkeyed hkey =>
    exact iff_of_true (replays_update_of_keyed heq hC h rfl (hasKey_newTuple hnew hkey)
      hkeyed hr (hfits r hr) hr' hnew) trivial
  | @deleteOld r hr =>
    rw [Exact, oldRow_tuple (hfits r hr)]
    exact replays_deleteOld_iff heq hC h hr
  | deleteKey hr hkeyed =>
    exact iff_of_true (replays_delete_of_keyed heq hC h hkeyed hr) trivial

end Rel

/-- **A row change touches its row only**, in these cases and no others. The rows of the local
table are those of the upstream's before the change, in any order. -/
theorem row_change_exact_iff {eq : Equality} (heq : eq.Reflexive) {rel : Rel} (h : rel.Titled)
    {relId : UInt32} {up up' : List Row} {m : PgOutputMsg} (hfits : ∀ r ∈ up, rel.Fits r)
    (hsends : rel.Sends (eq rel.key) relId up up' m) {C : Contents}
    (hC : (C rel.key).Perm up) :
    rel.Replays eq C up' m ↔ rel.Exact (eq rel.key) up m := by
  exact hsends.replays_iff heq h hfits hC

/-- A table with one column whose replica identity is the row as a whole. -/
def fullRel : Rel :=
  ⟨"public", "repl_nopk", [⟨1, "a", 23, -1⟩]⟩

/-- A row of it. -/
def fullRow : Row :=
  setAll ∅ [("a", some "1")]

/-- Of two equal rows one is deleted upstream, and both are locally. -/
theorem row_change_exact_duplicates :
    fullRel.Sends (textEquality fullRel.key) 1 [fullRow, fullRow] [fullRow]
        (.delete 1 none (some [.text "1"])) ∧
      ¬ fullRel.Replays textEquality (fun _ => [fullRow, fullRow]) [fullRow]
        (.delete 1 none (some [.text "1"])) := by
  have htitled : fullRel.Titled := ⟨by decide, by decide, by decide⟩
  have hmem : fullRow ∈ [fullRow, fullRow] := List.mem_cons_self
  have herase : [fullRow, fullRow].erase fullRow = [fullRow] := List.erase_cons_head ..
  have htuple : [CellValue.text "1"] = fullRel.tuple fullRow := by decide +kernel
  have hsends : fullRel.Sends (textEquality fullRel.key) 1 [fullRow, fullRow]
      ([fullRow, fullRow].erase fullRow) (.delete 1 none (some (fullRel.tuple fullRow))) :=
    .deleteOld hmem
  have hiff : fullRel.Replays textEquality (fun _ => [fullRow, fullRow])
      ([fullRow, fullRow].erase fullRow) (.delete 1 none (some (fullRel.tuple fullRow))) ↔ _ :=
    Rel.replays_deleteOld_iff textEquality_reflexive (.refl _) htitled hmem
  rw [herase] at hsends hiff
  rw [htuple]
  refine ⟨hsends, fun hreplays => ?_⟩
  obtain ⟨-, hcomparable, hother⟩ := hiff.1 hreplays
  exact hother fullRow (List.mem_singleton_self _)
    (Rel.same_self textEquality_reflexive hcomparable)

/-- A table with a key, and two rows of it. -/
def keyedRel : Rel :=
  ⟨"public", "repl_todos", [⟨1, "id", 23, -1⟩, ⟨0, "title", 25, -1⟩]⟩

def keyedRow (id title : String) : Row :=
  setAll ∅ [("id", some id), ("title", some title)]

/-- The title of one row is toasted, and the statement leaves it alone. -/
theorem row_change_exact_keyed :
    keyedRel.Replays textEquality (fun _ => [keyedRow "2" "two", keyedRow "1" "one"])
      [keyedRow "1" "one", keyedRow "2" "two"]
      (.update 1 none none [.text "1", .unchangedToast]) := by
  have hfits : ∀ id title, keyedRel.Fits (keyedRow id title) := by
    intro id title name hname
    have hne : name ≠ "id" ∧ name ≠ "title" := by simpa [keyedRel] using hname
    rw [keyedRow, lookup_setAll]
    simp [List.lookup_cons, beq_false_of_ne hne.1, beq_false_of_ne hne.2]
  have hkeyed : keyedRel.Keyed (textEquality keyedRel.key)
      [keyedRow "1" "one", keyedRow "2" "two"] := by
    refine ⟨by decide, by decide, ?_⟩
    unfold Rel.Same
    decide +kernel
  have hnew : keyedRel.NewTuple (fun col => ¬ col.isKey) (keyedRow "1" "one")
      (keyedRow "1" "one") [.text "1", .unchangedToast] :=
    .cons (.inl (by decide +kernel)) (.cons (.inr ⟨rfl, rfl, by decide⟩) .nil)
  have hsends : keyedRel.Sends (textEquality keyedRel.key) 1 _ _ (.update 1 none none _) :=
    .updateNew List.mem_cons_self (hfits "1" "one") hnew hkeyed fun _ _ _ => rfl
  refine (row_change_exact_iff textEquality_reflexive ⟨by decide, by decide, by decide⟩ ?_ hsends
    (.swap ..)).2 trivial
  intro r hr
  rcases List.mem_pair.1 hr with rfl | rfl
  · exact hfits "1" "one"
  · exact hfits "2" "two"

end Pglite.Replica
