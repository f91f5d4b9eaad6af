import Pglite.SqlLexer
import Pglite.Replica.RowsProof

/-!
# Reading row statements

The server's side of a row statement: the text is cut into tokens, and these are read as an
`INSERT`, an `UPDATE` or a `DELETE` of the forms that `Rel` writes. Upstream data is in every text,
as a name or as a constant, and none of it changes what is read (`row_statements_read`).
-/

namespace Pglite.Replica

open Text SqlLexer

/-! ## Statements -/

/-- A condition of a `WHERE` clause. -/
inductive Cond
  | isNull (column : String)
  | equals (column value : String)
  | notDistinct (column : String) (value : Option String)
deriving DecidableEq

/-- A statement that changes rows. -/
inductive RowStatement
  | insert (schema table : String) (columns : List String) (values : List (Option String))
  | update (schema table : String) (sets : ColPairs) (conds : List Cond)
  | delete (schema table : String) (conds : List Cond)
deriving DecidableEq

/-- The column of a condition with the value that it asks for. -/
def Cond.pair : Cond → String × Option String
  | isNull column => (column, none)
  | equals column value => (column, some value)
  | notDistinct column value => (column, value)

/-! ## Reading -/

def readColumn : List Token → Option String
  | [.name column] => some column
  | _ => none

def readValue : List Token → Option (Option String)
  | [.word "null"] => some none
  | [.const s] => some (some s)
  | _ => none

def readSet : List Token → Option (String × Option String)
  | .name column :: .symbol '=' :: ts => (readValue ts).map fun value => (column, value)
  | _ => none

def readCond : List Token → Option Cond
  | [.name column, .word "is", .word "null"] => some (.isNull column)
  | [.name column, .symbol '=', .const s] => some (.equals column s)
  | .name column :: .word "is" :: .word "not" :: .word "distinct" :: .word "from" :: ts =>
    (readValue ts).map (.notDistinct column)
  | _ => none

/-- The part of an `INSERT` behind the column list. -/
def readValues : List Token → Option (List (Option String))
  | .word "values" :: .symbol '(' :: ts => do
    let (values, rest) ← cutAt (.symbol ')') ts
    if rest = [] then readList (.symbol ',') readValue values else none
  | _ => none

/-- The tokens of a row statement. -/
def readRow : List Token → Option RowStatement
  | .word "insert" :: .word "into" :: .name schema :: .symbol '.' :: .name table ::
      .symbol '(' :: ts => do
    let (columns, rest) ← cutAt (.symbol ')') ts
    let columns ← readList (.symbol ',') readColumn columns
    let values ← readValues rest
    some (.insert schema table columns values)
  | .word "update" :: .name schema :: .symbol '.' :: .name table :: .word "set" :: ts => do
    let (sets, conds) ← cutAt (.word "where") ts
    let sets ← readList (.symbol ',') readSet sets
    let conds ← readList (.word "and") readCond conds
    some (.update schema table sets conds)
  | .word "delete" :: .word "from" :: .name schema :: .symbol '.' :: .name table ::
      .word "where" :: ts => do
    let conds ← readList (.word "and") readCond ts
    some (.delete schema table conds)
  | _ => none

/-- The row statements of a text. -/
def readRowSql (sql : String) : Option (List RowStatement) :=
  readScript readRow sql

/-! ## What is written -/

namespace Rel

variable (rel : Rel)

/-- The conditions of a `WHERE` clause: the old row as a whole, or the key. -/
def conds (key old new : Option TupleData) : List Cond :=
  match old with
  | some old => ((rel.columns.zip old).filter fun (_, cell) => cell ≠ .unchangedToast).map
      fun (col, cell) => .notDistinct col.name (cellValue cell)
  | none => ((rel.columns.zip ((key.or new).getD [])).filter fun (col, _) =>
      col.flags &&& 1 ≠ 0).map fun (col, cell) =>
        match cellValue cell with
        | none => .isNull col.name
        | some s => .equals col.name s

/-- The names are names: the table and its columns have some, and there is a column. -/
structure Named : Prop where
  schema : rel.schema ≠ ""
  name : rel.name ≠ ""
  columns : rel.columns ≠ []
  column : ∀ col ∈ rel.columns, col.name ≠ ""

end Rel

/-- The text of a value. -/
def valueSql : Option String → String
  | none => "NULL"
  | some s => lit s

/-- The text of an assignment. -/
def setSql (p : String × Option String) : String :=
  ident p.1 ++ " = " ++ valueSql p.2

/-- The text of a condition. -/
def Cond.sql : Cond → String
  | isNull column => ident column ++ " IS NULL"
  | equals column value => ident column ++ " = " ++ lit value
  | notDistinct column value => ident column ++ " IS NOT DISTINCT FROM " ++ valueSql value

/-- The text of a statement. -/
def RowStatement.sql : RowStatement → String
  | insert schema table columns values =>
    "INSERT INTO " ++ (ident schema ++ "." ++ ident table) ++ " (" ++
      ", ".intercalate (columns.map ident) ++ ") VALUES (" ++
      ", ".intercalate (values.map valueSql) ++ ")"
  | update schema table sets conds =>
    "UPDATE " ++ (ident schema ++ "." ++ ident table) ++ " SET " ++
      ", ".intercalate (sets.map setSql) ++ " WHERE " ++
      " AND ".intercalate (conds.map Cond.sql)
  | delete schema table conds =>
    "DELETE FROM " ++ (ident schema ++ "." ++ ident table) ++ " WHERE " ++
      " AND ".intercalate (conds.map Cond.sql)

/-- No name is empty, and no list is. -/
def RowStatement.Named : RowStatement → Prop
  | insert schema table columns values =>
    schema ≠ "" ∧ table ≠ "" ∧ columns ≠ [] ∧ values ≠ [] ∧ ∀ c ∈ columns, c ≠ ""
  | update schema table sets conds =>
    schema ≠ "" ∧ table ≠ "" ∧ sets ≠ [] ∧ conds ≠ [] ∧ (∀ p ∈ sets, p.1 ≠ "") ∧
      ∀ c ∈ conds, c.pair.1 ≠ ""
  | delete schema table conds =>
    schema ≠ "" ∧ table ≠ "" ∧ conds ≠ [] ∧ ∀ c ∈ conds, c.pair.1 ≠ ""

theorem cellLit_eq (cell : CellValue) : cellLit cell = valueSql (cellValue cell) := by
  cases cell <;> rfl

/-! ## Tokens -/

def valueTokens : Option String → List Token
  | none => [.word "null"]
  | some s => [.const s]

def Cond.tokens : Cond → List Token
  | isNull column => [.name column, .word "is", .word "null"]
  | equals column value => [.name column, .symbol '=', .const value]
  | notDistinct column value =>
    .name column :: .word "is" :: .word "not" :: .word "distinct" :: .word "from" ::
      valueTokens value

theorem reads_ident {s : String} (h : s ≠ "") : Reads (ident s).toList [.name s] := by
  have hquoted : (ident s).toList = quoted doubleQuote s := by
    simp [ident, quoted, quote, doubleQuote]
  rw [hquoted]
  exact reads_name h

theorem reads_lit (s : String) : Reads (lit s).toList [.const s] := by
  have hquoted : (lit s).toList = quoted singleQuote s := by
    simp [lit, quoted, apostrophe, singleQuote]
  rw [hquoted]
  exact reads_const s

theorem reads_value (value : Option String) :
    Reads (valueSql value).toList (valueTokens value) := by
  cases value with
  | none => exact reads_word (by decide)
  | some s => exact reads_lit s

theorem readValue_tokens (value : Option String) : readValue (valueTokens value) = some value := by
  cases value <;> rfl

theorem reads_equals : Reads ['='] [.symbol '='] :=
  reads_piece (m := .symbol) rfl rfl (by decide) rfl

/-- `column = value`, as in the `SET` list and in a condition. -/
theorem reads_assign {column : String} (h : column ≠ "") {value : String} {ts : List Token}
    (hvalue : Reads value.toList ts) :
    Reads (ident column ++ " = " ++ value).toList (.name column :: .symbol '=' :: ts) := by
  have := (reads_ident h).space (reads_equals.space hvalue)
  simpa using this

theorem reads_cond {cond : Cond} (h : cond.pair.1 ≠ "") : Reads cond.sql.toList cond.tokens := by
  cases cond with
  | isNull column =>
    have hcolumn : column ≠ "" := h
    have hnull : Reads "NULL".toList [.word "null"] := reads_word (by decide)
    have his : Reads "IS".toList [.word "is"] := reads_word (by decide)
    simpa [Cond.sql, Cond.tokens] using (reads_ident hcolumn).space (his.space hnull)
  | equals column value => exact reads_assign h (reads_lit value)
  | notDistinct column value =>
    have hcolumn : column ≠ "" := h
    have his : Reads "IS".toList [.word "is"] := reads_word (by decide)
    have hnot : Reads "NOT".toList [.word "not"] := reads_word (by decide)
    have hdistinct : Reads "DISTINCT".toList [.word "distinct"] := reads_word (by decide)
    have hfrom : Reads "FROM".toList [.word "from"] := reads_word (by decide)
    simpa [Cond.sql, Cond.tokens] using (reads_ident hcolumn).space
      (his.space (hnot.space (hdistinct.space (hfrom.space (reads_value value)))))

theorem readCond_tokens (cond : Cond) : readCond cond.tokens = some cond := by
  cases cond with
  | isNull column => rfl
  | equals column value => rfl
  | notDistinct column value =>
    change (readValue (valueTokens value)).map (Cond.notDistinct column) = _
    rw [readValue_tokens]
    rfl

/-! ## Reading them -/

/-- Items with commas in between. -/
theorem reads_commas {α : Type*} (text : α → String) (ts : α → List Token) {xs : List α}
    (h : ∀ x ∈ xs, Reads (text x).toList (ts x)) :
    Reads (", ".intercalate (xs.map text)).toList ([.symbol ','].intercalate (xs.map ts)) := by
  rw [String.toList_intercalate, List.map_map]
  exact reads_intercalate separates_comma h

/-- Conditions with `AND` in between. -/
theorem reads_conds {conds : List Cond} (h : ∀ c ∈ conds, c.pair.1 ≠ "") :
    Reads (" AND ".intercalate (conds.map Cond.sql)).toList
      ([.word "and"].intercalate (conds.map Cond.tokens)) := by
  rw [String.toList_intercalate, List.map_map]
  exact reads_intercalate (separates_word "AND".toList (by decide))
    fun c hc => reads_cond (h c hc)

/-- The tokens that names, values, assignments and conditions are made of. No key word between
the lists of a statement is one, and no separator. -/
def isItem : Token → Bool
  | .name _ => true
  | .const _ => true
  | .symbol c => c = '='
  | .word s => s ∈ ["null", "is", "not", "distinct", "from"]
  | .other _ => false

/-- The tokens of an assignment. -/
def setTokens (p : String × Option String) : List Token :=
  .name p.1 :: .symbol '=' :: valueTokens p.2

theorem isItem_valueTokens (value : Option String) : ∀ t ∈ valueTokens value, isItem t := by
  cases value <;> simp [valueTokens, isItem]

theorem isItem_setTokens (p : String × Option String) : ∀ t ∈ setTokens p, isItem t := by
  simpa [setTokens, isItem] using isItem_valueTokens p.2

theorem isItem_condTokens (cond : Cond) : ∀ t ∈ cond.tokens, isItem t := by
  cases cond with
  | isNull column => simp [Cond.tokens, isItem]
  | equals column value => simp [Cond.tokens, isItem]
  | notDistinct column value => simpa [Cond.tokens, isItem] using isItem_valueTokens value

section Items

variable {α : Type} (sep : Token) {ts : α → List Token}

/-- A list of items holds no other token but its separator. -/
theorem not_mem_items (h : ∀ x, ∀ t ∈ ts x, isItem t) {t : Token} (ht : isItem t = false)
    (hsep : t ≠ sep) (xs : List α) : t ∉ [sep].intercalate (xs.map ts) := by
  intro hmem
  rcases mem_intercalate hmem with heq | ⟨us, hus, hmem⟩
  · exact hsep heq
  · obtain ⟨x, -, rfl⟩ := List.mem_map.1 hus
    rw [h x t hmem] at ht
    cases ht

/-- A list of items is read back, item by item. -/
theorem readList_items (item : List Token → Option α) (h : ∀ x, ∀ t ∈ ts x, isItem t)
    (hsep : isItem sep = false) (hitem : ∀ x, item (ts x) = some x) {xs : List α}
    (hne : xs ≠ []) : readList sep item ([sep].intercalate (xs.map ts)) = some xs := by
  have hnotMem : ∀ x ∈ xs, sep ∉ ts x := by
    intro x _ hmem
    rw [h x sep hmem] at hsep
    cases hsep
  have hread := readList_intercalate (f := id) hne hnotMem fun x _ => hitem x
  rwa [List.map_id] at hread

end Items

/-- The name of a table with its schema. -/
theorem reads_table {schema table : String} (hschema : schema ≠ "") (htable : table ≠ "") :
    Reads (ident schema ++ "." ++ ident table).toList
      [.name schema, .symbol '.', .name table] := by
  have hreads := (reads_ident hschema).sep (c := '.') (by decide) (reads_ident htable)
  simpa [delimiterTokens] using hreads

theorem readRowSql_insert {schema table : String} {columns : List String}
    {values : List (Option String)} (h : (RowStatement.insert schema table columns values).Named) :
    readRowSql (RowStatement.insert schema table columns values).sql =
      some [.insert schema table columns values] := by
  obtain ⟨hschema, htable, hcolumns, hvalues, hnames⟩ := h
  have hnameTokens := reads_commas ident (fun c => [.name c]) fun c hc => reads_ident (hnames c hc)
  have hvalueTokens := reads_commas valueSql valueTokens fun v (_ : v ∈ values) => reads_value v
  have hinsert : Reads "INSERT".toList [.word "insert"] := reads_word (by decide)
  have hinto : Reads "INTO".toList [.word "into"] := reads_word (by decide)
  have hwvalues : Reads "VALUES".toList [.word "values"] := reads_word (by decide)
  have hclose := (hvalueTokens.sep (c := ')') (by decide) reads_nil).delimiter (c := '(')
    (by decide)
  have hbehind := (hwvalues.space hclose).delimiter (c := ' ') (by decide)
  have hcolumnList := (hnameTokens.sep (c := ')') (by decide) hbehind).delimiter (c := '(')
    (by decide)
  have htext := hinsert.space (hinto.space ((reads_table hschema htable).space hcolumnList))
  have hcolumnItem : ∀ c, ∀ t ∈ [Token.name c], isItem t := by simp [isItem]
  have hreadColumns := readList_items (.symbol ',') readColumn hcolumnItem
    (by decide) (fun c => rfl) hcolumns
  have hreadValues := readList_items (.symbol ',') readValue isItem_valueTokens (by decide)
    readValue_tokens hvalues
  have hcutColumns := not_mem_items (.symbol ',') (t := .symbol ')') hcolumnItem
    (by decide) (by decide) columns
  have hcutValues := not_mem_items (.symbol ',') (t := .symbol ')') isItem_valueTokens
    (by decide) (by decide) values
  refine readScript_one (by simpa [RowStatement.sql, delimiterTokens] using htext) ?_ ?_
    (by simp)
  · have hcolumnSemi := not_mem_items (.symbol ',') (t := .symbol ';') hcolumnItem
      (by decide) (by decide) columns
    have hvalueSemi := not_mem_items (.symbol ',') (t := .symbol ';') isItem_valueTokens
      (by decide) (by decide) values
    simp [hcolumnSemi, hvalueSemi]
  · simp [readRow, readValues, cutAt_append hcutColumns, cutAt_append hcutValues, hreadColumns,
      hreadValues]

theorem readRowSql_update {schema table : String} {sets : ColPairs} {conds : List Cond}
    (h : (RowStatement.update schema table sets conds).Named) :
    readRowSql (RowStatement.update schema table sets conds).sql =
      some [.update schema table sets conds] := by
  obtain ⟨hschema, htable, hsets, hconds, hnames, hcolumns⟩ := h
  have hsetTokens := reads_commas setSql setTokens
    fun p hp => reads_assign (hnames p hp) (reads_value p.2)
  have hupdate : Reads "UPDATE".toList [.word "update"] := reads_word (by decide)
  have hset : Reads "SET".toList [.word "set"] := reads_word (by decide)
  have hwhere : Reads "WHERE".toList [.word "where"] := reads_word (by decide)
  have htext := hupdate.space ((reads_table hschema htable).space
    (hset.space (hsetTokens.space (hwhere.space (reads_conds hcolumns)))))
  have hreadSet : ∀ p, readSet (setTokens p) = some p := by
    intro p
    simp [setTokens, readSet, readValue_tokens]
  have hreadSets := readList_items (.symbol ',') readSet isItem_setTokens (by decide) hreadSet hsets
  have hreadConds := readList_items (.word "and") readCond isItem_condTokens (by decide)
    readCond_tokens hconds
  have hcut := not_mem_items (.symbol ',') (t := .word "where") isItem_setTokens
    (by decide) (by decide) sets
  refine readScript_one (by simpa [RowStatement.sql] using htext) ?_ ?_ (by simp)
  · have hsetSemi := not_mem_items (.symbol ',') (t := .symbol ';') isItem_setTokens
      (by decide) (by decide) sets
    have hcondSemi := not_mem_items (.word "and") (t := .symbol ';') isItem_condTokens
      (by decide) (by decide) conds
    simp [hsetSemi, hcondSemi]
  · simp [readRow, cutAt_append hcut, hreadSets, hreadConds]

theorem readRowSql_delete {schema table : String} {conds : List Cond}
    (h : (RowStatement.delete schema table conds).Named) :
    readRowSql (RowStatement.delete schema table conds).sql =
      some [.delete schema table conds] := by
  obtain ⟨hschema, htable, hconds, hcolumns⟩ := h
  have hdelete : Reads "DELETE".toList [.word "delete"] := reads_word (by decide)
  have hfrom : Reads "FROM".toList [.word "from"] := reads_word (by decide)
  have hwhere : Reads "WHERE".toList [.word "where"] := reads_word (by decide)
  have htext := hdelete.space (hfrom.space ((reads_table hschema htable).space
    (hwhere.space (reads_conds hcolumns))))
  have hreadConds := readList_items (.word "and") readCond isItem_condTokens (by decide)
    readCond_tokens hconds
  refine readScript_one (by simpa [RowStatement.sql] using htext) ?_ ?_ (by simp)
  · have hcondSemi := not_mem_items (.word "and") (t := .symbol ';') isItem_condTokens
      (by decide) (by decide) conds
    simp [hcondSemi]
  · simp [readRow, hreadConds]

/-- **A statement is read back from its text**, and is the only one in it. -/
theorem readRowSql_sql {stmt : RowStatement} (h : stmt.Named) :
    readRowSql stmt.sql = some [stmt] := by
  cases stmt with
  | insert schema table columns values => exact readRowSql_insert h
  | update schema table sets conds => exact readRowSql_update h
  | delete schema table conds => exact readRowSql_delete h

/-! ## The statements as text -/

namespace Rel

variable {rel : Rel}

theorem checkArity_ok {tuple : TupleData} {u : Unit} (h : rel.checkArity tuple = .ok u) :
    tuple.length = rel.columns.length := by
  unfold checkArity at h
  split at h
  · cases h
  · next hlen => exact not_not.1 hlen

/-- The statement of an insert. -/
theorem insertSql_text {new : TupleData} {sql : String} {change : RowChange}
    (h : rel.insertSql new = .ok (sql, change)) :
    new.length = rel.columns.length ∧
      sql = (RowStatement.insert rel.schema rel.name (rel.columns.map RelColumn.name)
        (new.map cellValue)).sql ∧
      change = .insert rel.schema rel.name
        ((rel.columns.map RelColumn.name).zip (new.map cellValue)) := by
  obtain ⟨_, harity, h⟩ := bind_eq_ok.1 h
  obtain ⟨cells, hcells, h⟩ := bind_eq_ok.1 h
  obtain ⟨hsql, hchange⟩ := Prod.mk.inj (Except.ok.inj h)
  have hlen := checkArity_ok harity
  have hcells' : cells = (rel.columns.zip new).map fun p =>
      (ident p.1.name, cellLit p.2, p.1.name, cellValue p.2) := by
    generalize rel.columns.zip new = cs at hcells
    have hall := mapM_eq_ok hcells
    clear * - hall
    induction hall with
    | nil => rfl
    | @cons p cell cs cells hcell _ ih =>
      dsimp only at hcell
      split at hcell
      · cases hcell
      · cases hcell
        rw [ih, List.map_cons]
  have hfst : (rel.columns.zip new).map Prod.fst = rel.columns := List.map_fst_zip (by omega)
  have hsnd : (rel.columns.zip new).map Prod.snd = new := List.map_snd_zip (by omega)
  have hnames : cells.map (fun c => c.1) = (rel.columns.map RelColumn.name).map ident := by
    conv_rhs => rw [← hfst]
    rw [hcells', List.map_map, List.map_map, List.map_map]
    rfl
  have hvalues : cells.map (fun c => c.2.1) = (new.map cellValue).map valueSql := by
    conv_rhs => rw [← hsnd]
    rw [hcells', List.map_map, List.map_map, List.map_map]
    exact List.map_congr_left fun p _ => cellLit_eq p.2
  refine ⟨hlen, ?_, ?_⟩
  · rw [← hsql, hnames, hvalues]
    rfl
  · rw [← hchange, hcells', List.map_map, List.zip_map]
    rfl

/-- What a `WHERE` clause is made of. -/
theorem whereClause_text {key old new : Option TupleData} {sql : String} {pairs : ColPairs}
    (h : rel.whereClause key old new = .ok (sql, pairs)) :
    sql = " AND ".intercalate ((rel.conds key old new).map Cond.sql) ∧
      pairs = (rel.conds key old new).map Cond.pair ∧ rel.conds key old new ≠ [] := by
  unfold whereClause at h
  unfold conds
  cases old with
  | some old =>
    obtain ⟨-, -, h⟩ := bind_eq_ok.1 h
    dsimp only at h ⊢
    split at h
    · cases h
    · next hne =>
      obtain ⟨hsql, hpairs⟩ := Prod.mk.inj (Except.ok.inj h)
      refine ⟨?_, ?_, by simpa using hne⟩
      · rw [← hsql, List.map_map]
        congr 1
        exact List.map_congr_left fun p _ => by simp [Cond.sql, cellLit_eq]
      · rw [← hpairs, List.map_map]
        rfl
  | none =>
    cases hkey : key.or new with
    | none =>
      rw [hkey] at h
      obtain ⟨source, herror, -⟩ := bind_eq_ok.1 h
      cases herror
    | some source =>
      rw [hkey] at h
      obtain ⟨_, hsource, h⟩ := bind_eq_ok.1 h
      cases hsource
      obtain ⟨-, -, h⟩ := bind_eq_ok.1 h
      obtain ⟨cells, hcells, h⟩ := bind_eq_ok.1 h
      split at h
      · cases h
      · next hne =>
        obtain ⟨hsql, hpairs⟩ := Prod.mk.inj (Except.ok.inj h)
        have hall := mapM_eq_ok hcells
        rw [Option.getD_some]
        generalize (rel.columns.zip source).filter _ = cs at hall ⊢
        have hconds : cells = (cs.map fun (col, cell) => match cellValue cell with
            | none => Cond.isNull col.name
            | some s => Cond.equals col.name s).map fun c => (c.sql, c.pair) := by
          clear * - hall
          induction hall with
          | nil => rfl
          | @cons p cell cs cells hcell _ ih =>
            obtain ⟨col, v⟩ := p
            cases v with
            | unchangedToast => cases hcell
            | null =>
              cases hcell
              rw [ih]
              rfl
            | text s =>
              cases hcell
              rw [ih]
              rfl
        subst hconds
        refine ⟨?_, ?_, by simpa using hne⟩
        · rw [← hsql, List.map_map]
          rfl
        · rw [← hpairs, List.map_map]
          rfl

theorem updateSql_text {key old : Option TupleData} {new : TupleData} {sql : String}
    {change : RowChange} (h : rel.updateSql key old new = .ok (sql, change)) :
    sql = (RowStatement.update rel.schema rel.name (rel.values new)
        (rel.conds key old (some new))).sql ∧
      change = .update rel.schema rel.name ((rel.conds key old (some new)).map Cond.pair)
        (rel.values new) ∧
      rel.values new ≠ [] ∧ rel.conds key old (some new) ≠ [] := by
  obtain ⟨-, -, h⟩ := bind_eq_ok.1 h
  obtain ⟨⟨whereSql, pairs⟩, hwhere, h⟩ := bind_eq_ok.1 h
  obtain ⟨rfl, rfl, hne⟩ := whereClause_text hwhere
  dsimp only at h
  split at h
  · cases h
  · next hsets =>
    obtain ⟨hsql, hchange⟩ := Prod.mk.inj (Except.ok.inj h)
    refine ⟨?_, hchange.symm, by simpa [values] using hsets, hne⟩
    have hsetSql : ((rel.columns.zip new).filter fun (_, cell) => cell ≠ .unchangedToast).map
        (fun (col, cell) => ident col.name ++ " = " ++ cellLit cell) =
          (rel.values new).map setSql := by
      rw [values, List.map_map]
      exact List.map_congr_left fun p _ => by simp [setSql, cellLit_eq]
    rw [← hsql, hsetSql]
    rfl

theorem deleteSql_text {key old : Option TupleData} {sql : String} {change : RowChange}
    (h : rel.deleteSql key old = .ok (sql, change)) :
    sql = (RowStatement.delete rel.schema rel.name (rel.conds key old none)).sql ∧
      change = .delete rel.schema rel.name ((rel.conds key old none).map Cond.pair) ∧
      rel.conds key old none ≠ [] := by
  obtain ⟨⟨whereSql, pairs⟩, hwhere, h⟩ := bind_eq_ok.1 h
  obtain ⟨rfl, rfl, hne⟩ := whereClause_text hwhere
  obtain ⟨hsql, hchange⟩ := Prod.mk.inj (Except.ok.inj h)
  exact ⟨hsql.symm, hchange.symm, hne⟩

end Rel

namespace Rel

variable {rel : Rel}

theorem Named.values_ne (h : rel.Named) {tuple : TupleData} {p : String × Option String}
    (hp : p ∈ rel.values tuple) : p.1 ≠ "" := by
  obtain ⟨⟨col, cell⟩, hmem, rfl⟩ := List.mem_map.1 hp
  exact h.column col (List.of_mem_zip (List.mem_of_mem_filter hmem)).1

theorem Named.conds_ne (h : rel.Named) {key old new : Option TupleData} {c : Cond}
    (hc : c ∈ rel.conds key old new) : c.pair.1 ≠ "" := by
  unfold conds at hc
  cases old with
  | some old =>
    obtain ⟨⟨col, cell⟩, hmem, rfl⟩ := List.mem_map.1 hc
    exact h.column col (List.of_mem_zip (List.mem_of_mem_filter hmem)).1
  | none =>
    obtain ⟨⟨col, cell⟩, hmem, rfl⟩ := List.mem_map.1 hc
    have hcol := h.column col (List.of_mem_zip (List.mem_of_mem_filter hmem)).1
    dsimp only
    split <;> exact hcol

theorem Named.readRowSql_insertSql (h : rel.Named) {new : TupleData} {sql : String}
    {change : RowChange} (hsql : rel.insertSql new = .ok (sql, change)) :
    readRowSql sql = some [.insert rel.schema rel.name (rel.columns.map RelColumn.name)
      (new.map cellValue)] := by
  obtain ⟨hlen, rfl, -⟩ := insertSql_text hsql
  have hnew : new ≠ [] := fun hnil => h.columns (List.length_eq_zero_iff.1 (by simp_all))
  have hnames : ∀ c ∈ rel.columns.map RelColumn.name, c ≠ "" := by
    intro c hc
    obtain ⟨col, hcol, rfl⟩ := List.mem_map.1 hc
    exact h.column col hcol
  have hnamed : (RowStatement.insert rel.schema rel.name (rel.columns.map RelColumn.name)
      (new.map cellValue)).Named :=
    ⟨h.schema, h.name, by simpa using h.columns, by simpa using hnew, hnames⟩
  exact readRowSql_sql hnamed

theorem Named.readRowSql_updateSql (h : rel.Named) {key old : Option TupleData}
    {new : TupleData} {sql : String} {change : RowChange}
    (hsql : rel.updateSql key old new = .ok (sql, change)) :
    readRowSql sql = some [.update rel.schema rel.name (rel.values new)
      (rel.conds key old (some new))] := by
  obtain ⟨rfl, -, hsets, hconds⟩ := updateSql_text hsql
  have hnamed : (RowStatement.update rel.schema rel.name (rel.values new)
      (rel.conds key old (some new))).Named :=
    ⟨h.schema, h.name, hsets, hconds, fun p hp => h.values_ne hp, fun c hc => h.conds_ne hc⟩
  exact readRowSql_sql hnamed

theorem Named.readRowSql_deleteSql (h : rel.Named) {key old : Option TupleData}
    {sql : String} {change : RowChange} (hsql : rel.deleteSql key old = .ok (sql, change)) :
    readRowSql sql = some [.delete rel.schema rel.name (rel.conds key old none)] := by
  obtain ⟨rfl, -, hconds⟩ := deleteSql_text hsql
  have hnamed : (RowStatement.delete rel.schema rel.name (rel.conds key old none)).Named :=
    ⟨h.schema, h.name, hconds, fun c hc => h.conds_ne hc⟩
  exact readRowSql_sql hnamed

end Rel

/-- **Row statements cannot be misread.** Whatever names the relation has and whatever texts are in
the tuples, a statement that is made of them is read as that one statement, of the names and the
values in their order, and the row change beside it has the same ones. -/
theorem row_statements_read {rel : Rel} (h : rel.Named) :
    (∀ new sql change, rel.insertSql new = .ok (sql, change) →
      readRowSql sql = some [.insert rel.schema rel.name (rel.columns.map RelColumn.name)
        (new.map cellValue)] ∧
      change = .insert rel.schema rel.name
        ((rel.columns.map RelColumn.name).zip (new.map cellValue))) ∧
    (∀ key old new sql change, rel.updateSql key old new = .ok (sql, change) →
      readRowSql sql = some [.update rel.schema rel.name (rel.values new)
        (rel.conds key old (some new))] ∧
      change = .update rel.schema rel.name ((rel.conds key old (some new)).map Cond.pair)
        (rel.values new)) ∧
    ∀ key old sql change, rel.deleteSql key old = .ok (sql, change) →
      readRowSql sql = some [.delete rel.schema rel.name (rel.conds key old none)] ∧
      change = .delete rel.schema rel.name ((rel.conds key old none).map Cond.pair) := by
  refine ⟨?_, ?_, ?_⟩
  · intro new sql change hsql
    exact ⟨h.readRowSql_insertSql hsql, (Rel.insertSql_text hsql).2.2⟩
  · intro key old new sql change hsql
    exact ⟨h.readRowSql_updateSql hsql, (Rel.updateSql_text hsql).2.1⟩
  · intro key old sql change hsql
    exact ⟨h.readRowSql_deleteSql hsql, (Rel.deleteSql_text hsql).2.1⟩

/-- A table and a text with quotes, a semicolon and a comment sign. -/
def quotedRel : Rel :=
  ⟨"my\"schema", "t\"; --", [⟨1, "id", 23, -1⟩, ⟨0, "no\"te", 25, -1⟩]⟩

theorem row_statements_read_quotes : ∃ sql change,
    quotedRel.insertSql [.text "1", .text "it's'); DELETE FROM t --"] = .ok (sql, change) ∧
      readRowSql sql = some [.insert "my\"schema" "t\"; --" ["id", "no\"te"]
        [some "1", some "it's'); DELETE FROM t --"]] := by
  have hnamed : quotedRel.Named := ⟨by decide, by decide, by decide, by decide⟩
  have hok : quotedRel.insertSql [.text "1", .text "it's'); DELETE FROM t --"] =
      .ok (_, _) := rfl
  exact ⟨_, _, hok, ((row_statements_read hnamed).1 _ _ _ hok).1⟩

end Pglite.Replica
