import Pglite.Replica.RowEffect
import Pglite.Replica.SchemaDelta

/-!
# Local constraints

A table of the upstream has constraints, and `introspect`, `create_table_sql` and the replicated
index definitions bring them to the local table. On the way a deferrable constraint becomes one that
is checked at every statement, and the columns that a primary key only includes become part of it.

* `UpRun`: the row changes of a transaction of the upstream. What is not deferrable is checked after
  each of them.
* `applyAll`: the statements of the transaction on the local tables. Everything is checked after
  each of them.

`replay_violates_iff`: no statement violates a local constraint exactly when the constraints that
the upstream would not check are also kept after each row change (`UpTable.Midway`).
-/

namespace Pglite.Replica.Backfill

open Text Records SqlLexer

/-! ## Constraints -/

/-- The columns of a unique index, and whether two nulls are the same in it. -/
structure UniqueKey where
  columns : List String
  nullsNotDistinct : Bool
deriving DecidableEq

section Tables

variable (ops : String → Option (String → String → Bool))

/-- Two rows have the same key. -/
def UniqueKey.Clash (key : UniqueKey) (s r : Row) : Prop :=
  ∀ name ∈ key.columns, sameValue (ops name) (s.lookup name) (r.lookup name) ∧
    (key.nullsNotDistinct ∨ r.lookup name ≠ none)

instance UniqueKey.decidableClash (key : UniqueKey) (s r : Row) : Decidable (key.Clash ops s r) :=
  inferInstanceAs (Decidable (∀ name ∈ key.columns, _))

/-- No two rows have the same key. -/
def UniqueKey.Unique (key : UniqueKey) (rows : List Row) : Prop :=
  ∀ r ∈ rows, ∀ s ∈ rows.erase r, ¬ key.Clash ops s r

instance UniqueKey.decidableUnique (key : UniqueKey) (rows : List Row) :
    Decidable (key.Unique ops rows) :=
  inferInstanceAs (Decidable (∀ r ∈ rows, ∀ s ∈ rows.erase r, ¬ key.Clash ops s r))

/-- No row has a null in the column. -/
def NonNull (name : String) (rows : List Row) : Prop :=
  ∀ r ∈ rows, r.lookup name ≠ none

instance decidableNonNull (name : String) (rows : List Row) : Decidable (NonNull name rows) :=
  inferInstanceAs (Decidable (∀ r ∈ rows, r.lookup name ≠ none))

/-- The constraints of a local table. `keyOf` is what the server makes of an index definition, the
key of a unique index. -/
def LocalTable.Holds (keyOf : IndexDef → Option UniqueKey) (L : LocalTable) (rows : List Row) :
    Prop :=
  (∀ c ∈ L.columns, c.notNull → NonNull c.name rows) ∧
    (L.pk ≠ [] → (UniqueKey.mk L.pk false).Unique ops rows) ∧
    ∀ i ∈ L.indexes, ∀ key ∈ keyOf i, key.Unique ops rows

instance LocalTable.decidableHolds (keyOf : IndexDef → Option UniqueKey) (L : LocalTable)
    (rows : List Row) : Decidable (L.Holds ops keyOf rows) :=
  inferInstanceAs (Decidable (_ ∧ _ ∧ _))

/-! ## The upstream -/

/-- A row of `pg_index`: what `pg_get_indexdef` gives, the key columns and those that are included,
and whether it is checked at once. The index of a deferrable constraint is not. -/
structure PgIndex where
  definition : IndexDef
  columns : List String
  included : List String
  unique : Bool
  nullsNotDistinct : Bool
  immediate : Bool

def PgIndex.key (i : PgIndex) : UniqueKey :=
  ⟨i.columns, i.nullsNotDistinct⟩

/-- A published table, with the indexes that `introspect` asks for. -/
structure UpTable where
  schema : String
  name : String
  columns : List ColDef
  replicaIdentity : String
  rowFilter : Option String
  primary : Option PgIndex
  indexes : List PgIndex

namespace UpTable

variable (t : UpTable)

def key : TableKey := (t.schema, t.name)

/-- What `introspect` reads as the primary key: `indkey` has the included columns as well, and the
rows come in the order of the table's columns. -/
def pk : List String :=
  match t.primary with
  | none => []
  | some i => (t.columns.map ColDef.name).filter fun name => decide (name ∈ i.columns ++ i.included)

/-- The table as `introspect` describes it. -/
def introspected : TableDef :=
  ⟨t.schema, t.name, t.columns, t.pk, t.replicaIdentity, t.rowFilter,
    t.indexes.map PgIndex.definition⟩

/-- The table that `bootstrap_schema` makes of it. -/
def localTable : LocalTable :=
  t.introspected.full

/-- The primary key has columns, and they are published. -/
def WellFormed : Prop :=
  ∀ i ∈ t.primary, i.columns ≠ [] ∧ i.columns ++ i.included ⊆ t.columns.map ColDef.name

/-- What is checked at each row change. -/
structure Checked (rows : List Row) : Prop where
  notNull : ∀ c ∈ t.columns, c.notNull → NonNull c.name rows
  key : ∀ i ∈ t.primary, ∀ name ∈ i.columns, NonNull name rows
  primary : ∀ i ∈ t.primary, i.immediate → i.key.Unique ops rows
  unique : ∀ i ∈ t.indexes, i.unique → i.immediate → i.key.Unique ops rows

/-- What is checked at the commit. -/
structure Holds (rows : List Row) : Prop extends t.Checked ops rows where
  deferredPrimary : ∀ i ∈ t.primary, i.key.Unique ops rows
  deferredUnique : ∀ i ∈ t.indexes, i.unique → i.key.Unique ops rows

/-- What the local table asks for on top of what is checked at each row change: the deferrable
constraints are kept, and the columns that the primary key includes are not null. -/
structure Midway (rows : List Row) : Prop where
  unique : ∀ i ∈ t.indexes, i.unique → ¬ i.immediate → i.key.Unique ops rows
  primary : ∀ i ∈ t.primary, ¬ i.immediate →
    (UniqueKey.mk (i.columns ++ i.included) false).Unique ops rows
  included : ∀ i ∈ t.primary, ∀ name ∈ i.included, NonNull name rows

end UpTable

end Tables

/-- `pg_get_indexdef` gives a plain `CREATE UNIQUE INDEX` for a unique index: nothing in it says that
a constraint behind the index is deferrable. -/
def PlainDefinitions (keyOf : IndexDef → Option UniqueKey) (tables : List UpTable) : Prop :=
  ∀ t ∈ tables, ∀ i ∈ t.indexes, keyOf i.definition = if i.unique then some i.key else none

/-! ## Statements -/

def readTable : List Token → Option TableKey
  | [.name schema, .symbol '.', .name table] => some (schema, table)
  | _ => none

def readTruncate : List Token → Option (List TableKey)
  | .word "truncate" :: ts => readList (.symbol ',') readTable ts
  | _ => none

/-- The tables without their rows. -/
def truncated (C : Contents) (keys : List TableKey) : Contents :=
  fun k => if k ∈ keys then [] else C k

/-- A text is executed that may also be a `TRUNCATE`. -/
def runStatement (eq : Equality) (C : Contents) (sql : String) : Option Contents :=
  (runSql eq C sql).or ((readScript readTruncate sql).map (List.foldl truncated C))

/-- What comes of a list of statements. One that fails ends them. -/
inductive Outcome
  | done (C : Contents)
  | violation
  | refused

section Apply

variable (eq : Equality) (keyOf : IndexDef → Option UniqueKey) (tables : List UpTable)

/-- All constraints of the local tables are kept. -/
def LocalHolds (C : Contents) : Prop :=
  ∀ t ∈ tables, t.localTable.Holds (eq t.key) keyOf (C t.key)

instance decidableLocalHolds (C : Contents) : Decidable (LocalHolds eq keyOf tables C) :=
  inferInstanceAs (Decidable (∀ t ∈ tables, t.localTable.Holds (eq t.key) keyOf (C t.key)))

/-- A statement is executed, and the constraints are checked. -/
def execStatement (C : Contents) (sql : String) : Outcome :=
  match runStatement eq C sql with
  | none => .refused
  | some C' => if LocalHolds eq keyOf tables C' then .done C' else .violation

/-- The loop over the statements in `Replica::apply`. -/
def applyAll : List String → Contents → Outcome
  | [], C => .done C
  | sql :: stmts, C =>
    match execStatement eq keyOf tables C sql with
    | .done C' => applyAll stmts C'
    | failed => failed

end Apply

/-! ## Transactions -/

section Run

variable (eq : Equality) (tables : List UpTable) (known : UInt32 → Option Rel)

/-- One row change of a published table, or the truncation of some, with the message of it. The
upstream has checked what it checks at once. -/
inductive UpStep (U : Contents) : PgOutputMsg → Contents → Prop
  | row {m : PgOutputMsg} {relId : UInt32} {rel : Rel} {rows : List Row}
      (hrel : known relId = some rel) (htable : ∃ t ∈ tables, t.key = rel.key)
      (htitled : rel.Titled) (hfits : ∀ r ∈ U rel.key, rel.Fits r)
      (hsends : rel.Sends (eq rel.key) relId (U rel.key) rows m)
      (hchecked : ∀ t ∈ tables, t.key = rel.key → t.Checked (eq t.key) rows) :
      UpStep U m (Function.update U rel.key rows)
  | truncate {relIds : List UInt32} {rels : List Rel} (hne : rels ≠ [])
      (hrels : List.Forall₂ (fun i r => known i = some r) relIds rels)
      (htitled : ∀ rel ∈ rels, rel.Titled) :
      UpStep U (.truncate relIds) (truncated U (rels.map Rel.key))

/-- The changes of a transaction, with the tables after each. -/
inductive UpRun : Contents → List PgOutputMsg → List Contents → Prop
  | nil (U : Contents) : UpRun U [] []
  | cons {U U' : Contents} {m : PgOutputMsg} {ms : List PgOutputMsg} {Us : List Contents}
      (hstep : UpStep eq tables known U m U') (hrest : UpRun U' ms Us) :
      UpRun U (m :: ms) (U' :: Us)

/-- A transaction that committed. All constraints hold before it and after it. -/
structure Committed (U : Contents) (ms : List PgOutputMsg) (Us : List Contents) : Prop where
  run : UpRun eq tables known U ms Us
  before : ∀ t ∈ tables, t.Holds (eq t.key) (U t.key)
  after : ∀ U' ∈ Us.getLast?, ∀ t ∈ tables, t.Holds (eq t.key) (U' t.key)

/-- The statement of each change touches its row only. -/
def AllExact : Contents → List PgOutputMsg → List Contents → Prop
  | U, m :: ms, U' :: Us =>
    (∀ relId ∈ m.relIds, ∀ rel ∈ known relId, rel.Exact (eq rel.key) (U rel.key) m) ∧
      AllExact U' ms Us
  | _, _, _ => True

end Run

/-! ## Local constraints and those of the upstream -/

section Constraints

variable {ops : String → Option (String → String → Bool)} {rows rows' : List Row}

theorem UniqueKey.Unique.perm {key : UniqueKey} (h : key.Unique ops rows)
    (hrows : rows.Perm rows') : key.Unique ops rows' := by
  intro r hr s hs
  exact h r (hrows.mem_iff.2 hr) s ((hrows.erase r).mem_iff.2 hs)

/-- More columns, or nulls that are distinct, are less to ask for. -/
theorem UniqueKey.Unique.mono {key key' : UniqueKey} (h : key.Unique ops rows)
    (hclash : ∀ s r, key'.Clash ops s r → key.Clash ops s r) : key'.Unique ops rows :=
  fun r hr s hs hclashes => h r hr s hs (hclash s r hclashes)

theorem NonNull.perm {name : String} (h : NonNull name rows) (hrows : rows.Perm rows') :
    NonNull name rows' :=
  fun r hr => h r (hrows.mem_iff.2 hr)

theorem LocalTable.Holds.perm {keyOf : IndexDef → Option UniqueKey} {L : LocalTable}
    (h : L.Holds ops keyOf rows) (hrows : rows.Perm rows') : L.Holds ops keyOf rows' := by
  obtain ⟨hnull, hpk, hindexes⟩ := h
  refine ⟨?_, ?_, ?_⟩
  · exact fun c hc hnotNull => (hnull c hc hnotNull).perm hrows
  · exact fun hne => (hpk hne).perm hrows
  · exact fun i hi key hkey => (hindexes i hi key hkey).perm hrows

namespace UpTable

variable {t : UpTable} {keyOf : IndexDef → Option UniqueKey}

theorem mem_pk (h : t.WellFormed) {name : String} :
    name ∈ t.pk ↔ ∃ i ∈ t.primary, name ∈ i.columns ++ i.included := by
  unfold pk
  cases hprimary : t.primary with
  | none => simp
  | some i =>
    have hsubset := (h i hprimary).2
    simp only [List.mem_filter, decide_eq_true_iff, Option.mem_some_iff, exists_eq_left']
    exact and_iff_right_of_imp fun hmem => hsubset hmem

/-- A local column is the one of the upstream, and not null when it is in the primary key. -/
theorem mem_localColumns {c' : LocalColumn} :
    c' ∈ t.localTable.columns ↔
      ∃ c ∈ t.columns, c' = ⟨c.name, c.typeSql, c.notNull || decide (c.name ∈ t.pk)⟩ := by
  change c' ∈ t.columns.map t.introspected.localColumn ↔ _
  rw [List.mem_map]
  constructor
  · rintro ⟨c, hc, rfl⟩
    exact ⟨c, hc, rfl⟩
  · rintro ⟨c, hc, rfl⟩
    exact ⟨c, hc, rfl⟩

theorem mem_localIndexes {d : IndexDef} :
    d ∈ t.localTable.indexes ↔ ∃ i ∈ t.indexes, i.definition = d :=
  List.mem_map

/-- The local primary key has the columns of the upstream's, and those that it includes. -/
theorem clash_pk_iff (h : t.WellFormed) {i : PgIndex} (hi : i ∈ t.primary) (s r : Row) :
    (UniqueKey.mk t.pk false).Clash ops s r ↔
      (UniqueKey.mk (i.columns ++ i.included) false).Clash ops s r := by
  have hmem : ∀ name, name ∈ t.pk ↔ name ∈ i.columns ++ i.included := by
    intro name
    rw [mem_pk h]
    constructor
    · rintro ⟨i', hi', hname⟩
      obtain rfl := Option.mem_unique hi hi'
      exact hname
    · exact fun hname => ⟨i, hi, hname⟩
  unfold UniqueKey.Clash
  simp only [hmem]

/-- What is checked upstream at each row change and the rest that the local table asks for are all of
its constraints. -/
theorem holds_of_midway (h : t.WellFormed)
    (hplain : ∀ i ∈ t.indexes, keyOf i.definition = if i.unique then some i.key else none)
    (hchecked : t.Checked ops rows) (hmidway : t.Midway ops rows) :
    t.localTable.Holds ops keyOf rows := by
  refine ⟨?_, ?_, ?_⟩
  · intro c' hc' hnotNull
    obtain ⟨c, hc, rfl⟩ := mem_localColumns.1 hc'
    rw [Bool.or_eq_true, decide_eq_true_iff] at hnotNull
    rcases hnotNull with hnotNull | hpk
    · exact hchecked.notNull c hc hnotNull
    · obtain ⟨i, hi, hmem⟩ := (mem_pk h).1 hpk
      rcases List.mem_append.1 hmem with hkey | hincluded
      · exact hchecked.key i hi c.name hkey
      · exact hmidway.included i hi c.name hincluded
  · intro hne
    obtain ⟨name, hname⟩ := List.exists_mem_of_ne_nil t.pk hne
    obtain ⟨i, hi, -⟩ := (mem_pk h).1 hname
    by_cases himmediate : i.immediate
    · refine (hchecked.primary i hi himmediate).mono fun s r hclash name hmem => ?_
      have hboth := (clash_pk_iff h hi s r).1 hclash name (List.mem_append_left _ hmem)
      exact ⟨hboth.1, .inr (by simpa using hboth.2)⟩
    · exact (hmidway.primary i hi himmediate).mono fun s r => (clash_pk_iff h hi s r).1
  · intro d hd key hkey
    obtain ⟨i, hi, rfl⟩ := mem_localIndexes.1 hd
    rw [hplain i hi] at hkey
    split_ifs at hkey with hunique
    · obtain rfl := Option.mem_some_iff.1 hkey
      by_cases himmediate : i.immediate
      · exact hchecked.unique i hi hunique himmediate
      · exact hmidway.unique i hi hunique himmediate
    · cases hkey

theorem midway_of_holds (h : t.WellFormed)
    (hplain : ∀ i ∈ t.indexes, keyOf i.definition = if i.unique then some i.key else none)
    (hholds : t.localTable.Holds ops keyOf rows) : t.Midway ops rows := by
  obtain ⟨hnull, hpk, hindexes⟩ := hholds
  refine ⟨?_, ?_, ?_⟩
  · intro i hi hunique _
    refine hindexes i.definition (mem_localIndexes.2 ⟨i, hi, rfl⟩) i.key ?_
    rw [hplain i hi, if_pos hunique]
    rfl
  · intro i hi _
    obtain ⟨name, hname⟩ := List.exists_mem_of_ne_nil i.columns (h i hi).1
    have hne : t.pk ≠ [] :=
      List.ne_nil_of_mem ((mem_pk h).2 ⟨i, hi, List.mem_append_left _ hname⟩)
    exact (hpk hne).mono fun s r => (clash_pk_iff h hi s r).2
  · intro i hi name hname
    have hmem : name ∈ i.columns ++ i.included := List.mem_append_right _ hname
    obtain ⟨c, hc, rfl⟩ := List.mem_map.1 ((h i hi).2 hmem)
    refine hnull ⟨c.name, c.typeSql, c.notNull || decide (c.name ∈ t.pk)⟩
      (mem_localColumns.2 ⟨c, hc, rfl⟩) ?_
    rw [Bool.or_eq_true, decide_eq_true_iff]
    exact .inr ((mem_pk h).2 ⟨i, hi, hmem⟩)

/-- An empty table keeps every constraint. -/
theorem holds_nil (t : UpTable) : t.localTable.Holds ops keyOf [] :=
  ⟨fun _ _ _ _ hr => absurd hr List.not_mem_nil, fun _ _ hr => absurd hr List.not_mem_nil,
    fun _ _ _ _ _ hr => absurd hr List.not_mem_nil⟩

end UpTable

end Constraints

/-! ## Truncation -/

section Truncate

variable {eq : Equality} {C : Contents} {rels : List Rel}

/-- The text of a `TRUNCATE` is read back. -/
theorem readScript_truncate {α : Type} (statement : List Token → Option α)
    (h : ∀ rel ∈ rels, rel.Titled) : readScript statement (Rel.truncateSql rels) =
      (statement (.word "truncate" :: [.symbol ','].intercalate
        (rels.map fun rel => [.name rel.schema, .symbol '.', .name rel.name]))).map
          fun stmt => [stmt] := by
  have hword : Reads "TRUNCATE".toList [.word "truncate"] := reads_word (by decide)
  have htables := reads_commas Rel.target
    (fun rel => [.name rel.schema, .symbol '.', .name rel.name])
    fun rel (hrel : rel ∈ rels) => reads_table (h rel hrel).schema (h rel hrel).name
  have hsemi : Token.symbol ';' ∉ [Token.symbol ','].intercalate
      (rels.map fun rel => [Token.name rel.schema, .symbol '.', .name rel.name]) := by
    intro hmem
    rcases mem_intercalate hmem with hcomma | ⟨ts, hts, hmem⟩
    · simp at hcomma
    · obtain ⟨rel, -, rfl⟩ := List.mem_map.1 hts
      simp at hmem
  refine readScript_eq statement ?_ (by simpa using hsemi) (by simp)
  simpa [Rel.truncateSql] using hword.space htables

theorem runStatement_truncate (hne : rels ≠ []) (h : ∀ rel ∈ rels, rel.Titled) :
    runStatement eq C (Rel.truncateSql rels) = some (truncated C (rels.map Rel.key)) := by
  have hrow : readRowSql (Rel.truncateSql rels) = none := by
    rw [readRowSql, readScript_truncate readRow h]
    rfl
  have hread : readList (.symbol ',') readTable ([.symbol ','].intercalate
      (rels.map fun rel => [.name rel.schema, .symbol '.', .name rel.name])) =
        some (rels.map Rel.key) :=
    readList_intercalate hne (by simp) fun rel _ => rfl
  rw [runStatement, runSql, hrow, readScript_truncate readTruncate h, readTruncate, hread]
  rfl

end Truncate

/-! ## Steps and runs -/

section Replay

variable {eq : Equality} {keyOf : IndexDef → Option UniqueKey} {tables : List UpTable}
  {known : UInt32 → Option Rel} {C U U' : Contents} {m : PgOutputMsg} {sql : String}

/-- The rows of the local tables are those of the upstream's. -/
def LocalOf (tables : List UpTable) (C U : Contents) : Prop :=
  ∀ t ∈ tables, (C t.key).Perm (U t.key)

/-- The message of a row change is about one relation. -/
theorem relIds_of_sends {ops : String → Option (String → String → Bool)} {relId : UInt32}
    {rel : Rel} {up up' : List Row} (h : rel.Sends ops relId up up' m) : m.relIds = [relId] := by
  cases h <;> rfl

/-- Its statement is the one of that relation. -/
theorem rowSql_of_renders {relId : UInt32} {rel : Rel} (hids : m.relIds = [relId])
    (hrel : known relId = some rel) (hrow : ∀ relIds, m ≠ .truncate relIds)
    {changes : List RowChange} (h : Renders known m sql changes) :
    ∃ change, rel.rowSql m = .ok (sql, change) := by
  cases h with
  | insert hrel' hsql =>
    obtain rfl := (List.cons.inj hids).1
    obtain rfl := Option.some.inj (hrel.symm.trans hrel')
    exact ⟨_, hsql⟩
  | update hrel' hsql =>
    obtain rfl := (List.cons.inj hids).1
    obtain rfl := Option.some.inj (hrel.symm.trans hrel')
    exact ⟨_, hsql⟩
  | delete hrel' hsql =>
    obtain rfl := (List.cons.inj hids).1
    obtain rfl := Option.some.inj (hrel.symm.trans hrel')
    exact ⟨_, hsql⟩
  | truncate hrels => exact absurd rfl (hrow _)

/-- **Step.** The statement of an exact row change has its effect. A table whose rows it changes is
empty afterwards, or was checked upstream. -/
theorem UpStep.runs (heq : eq.Reflexive) (h : UpStep eq tables known U m U')
    (hexact : ∀ relId ∈ m.relIds, ∀ rel ∈ known relId, rel.Exact (eq rel.key) (U rel.key) m)
    {changes : List RowChange} (hsql : Renders known m sql changes) (hlocal : LocalOf tables C U) :
    ∃ C', runStatement eq C sql = some C' ∧ LocalOf tables C' U' ∧
      ∀ t ∈ tables, C' t.key = C t.key ∨ C' t.key = [] ∨ t.Checked (eq t.key) (U' t.key) := by
  cases h with
  | @row m relId rel rows hrel htable htitled hfits hsends hchecked =>
    have hids := relIds_of_sends hsends
    have hrow : ∀ relIds, m ≠ .truncate relIds := by
      cases hsends <;> exact fun _ => nofun
    have hrelExact := hexact relId (hids ▸ List.mem_singleton_self relId) rel hrel
    have hrows : (C rel.key).Perm (U rel.key) := by
      obtain ⟨t, ht, hkey⟩ := htable
      exact hkey ▸ hlocal t ht
    obtain ⟨change, hrender⟩ := rowSql_of_renders hids hrel hrow hsql
    obtain ⟨sql', change', C', hrender', hrun, hperm, hframe⟩ :=
      (hsends.replays_iff heq htitled hfits hrows).2 hrelExact
    obtain ⟨rfl, -⟩ := Prod.mk.inj (Except.ok.inj (hrender.symm.trans hrender'))
    refine ⟨C', by rw [runStatement, hrun, Option.some_or], ?_, ?_⟩
    · intro t ht
      by_cases hkey : t.key = rel.key
      · rw [hkey, Function.update_self]
        exact hperm
      · rw [Function.update_of_ne hkey, hframe t.key hkey]
        exact hlocal t ht
    · intro t ht
      by_cases hkey : t.key = rel.key
      · refine .inr (.inr ?_)
        rw [show Function.update U rel.key rows t.key = rows by rw [hkey, Function.update_self]]
        exact hchecked t ht hkey
      · exact .inl (hframe t.key hkey)
  | @truncate relIds rels hne hrels htitled =>
    cases hsql with
    | @truncate _ rels' hrels' =>
      obtain rfl : rels = rels' := List.right_unique_forall₂'
        (fun _ _ _ hr hr' => Option.some.inj (hr.symm.trans hr')) hrels hrels'
      refine ⟨_, runStatement_truncate hne htitled, ?_, ?_⟩
      · intro t ht
        unfold truncated
        split_ifs
        · exact .refl _
        · exact hlocal t ht
      · intro t ht
        unfold truncated
        split_ifs
        · exact .inr (.inl rfl)
        · exact .inl rfl

section Steps

variable (heq : eq.Reflexive) (hwf : ∀ t ∈ tables, t.WellFormed)
  (hplain : PlainDefinitions keyOf tables)
include heq hwf hplain

/-- **Step, with the constraints.** The local tables keep theirs when the upstream's tables keep what
only the local ones ask for, and else the statement violates one. -/
theorem UpStep.exec (h : UpStep eq tables known U m U')
    (hexact : ∀ relId ∈ m.relIds, ∀ rel ∈ known relId, rel.Exact (eq rel.key) (U rel.key) m)
    {changes : List RowChange} (hsql : Renders known m sql changes) (hlocal : LocalOf tables C U)
    (hholds : LocalHolds eq keyOf tables C) :
    ∃ C', LocalOf tables C' U' ∧
      (LocalHolds eq keyOf tables C' ↔ ∀ t ∈ tables, t.Midway (eq t.key) (U' t.key)) ∧
      execStatement eq keyOf tables C sql =
        if LocalHolds eq keyOf tables C' then .done C' else .violation := by
  obtain ⟨C', hrun, hlocal', hcases⟩ := h.runs heq hexact hsql hlocal
  refine ⟨C', hlocal', ⟨?_, ?_⟩, by rw [execStatement, hrun]⟩
  · intro hholds' t ht
    exact UpTable.midway_of_holds (hwf t ht) (hplain t ht) ((hholds' t ht).perm (hlocal' t ht))
  · intro hmidway t ht
    rcases hcases t ht with hsame | hnil | hchecked
    · rw [hsame]
      exact hholds t ht
    · rw [hnil]
      exact t.holds_nil
    · exact (UpTable.holds_of_midway (hwf t ht) (hplain t ht) hchecked (hmidway t ht)).perm
        (hlocal' t ht).symm

/-- **Run.** -/
theorem UpRun.applyAll_iff {ms : List PgOutputMsg} {Us : List Contents}
    (hrun : UpRun eq tables known U ms Us) (hexact : AllExact eq known U ms Us)
    {stmts : List String} (hstmts : List.Forall₂ (fun m sql => ∃ changes, Renders known m sql changes)
      ms stmts) (hlocal : LocalOf tables C U) (hholds : LocalHolds eq keyOf tables C) :
    applyAll eq keyOf tables stmts C ≠ .violation ↔
      ∀ U' ∈ Us, ∀ t ∈ tables, t.Midway (eq t.key) (U' t.key) := by
  induction hrun generalizing C stmts with
  | nil U =>
    cases hstmts
    simp [applyAll]
  | @cons U U' m ms Us hstep hrest ih =>
    cases hstmts with
    | @cons _ sql _ stmts hrender hstmts =>
      obtain ⟨changes, hrender⟩ := hrender
      obtain ⟨C', hlocal', hiff, hexec⟩ :=
        hstep.exec heq hwf hplain hexact.1 hrender hlocal hholds
      rw [applyAll, hexec, List.forall_mem_cons, ← hiff]
      by_cases hholds' : LocalHolds eq keyOf tables C'
      · rw [if_pos hholds']
        exact (ih hexact.2 hstmts hlocal' hholds').trans (and_iff_right hholds').symm
      · rw [if_neg hholds']
        exact iff_of_false (fun h => h rfl) fun h => hholds' h.1

end Steps

end Replay

/-- **No local constraint is violated**, when each statement touches its row only, exactly if after
each row change the tables of the upstream keep also what is not checked there. -/
theorem replay_violates_iff {eq : Equality} (heq : eq.Reflexive)
    {keyOf : IndexDef → Option UniqueKey} {tables : List UpTable}
    (hwf : ∀ t ∈ tables, t.WellFormed) (hplain : PlainDefinitions keyOf tables)
    {known : UInt32 → Option Rel} {U : Contents} {ms : List PgOutputMsg} {Us : List Contents}
    (hcommitted : Committed eq tables known U ms Us) (hexact : AllExact eq known U ms Us)
    {stmts : List String} (hstmts : List.Forall₂ (fun m sql => ∃ changes, Renders known m sql changes)
      ms stmts) {C : Contents} (hlocal : LocalOf tables C U)
    (hholds : LocalHolds eq keyOf tables C) :
    applyAll eq keyOf tables stmts C ≠ .violation ↔
      ∀ U' ∈ Us, ∀ t ∈ tables, t.Midway (eq t.key) (U' t.key) :=
  hcommitted.run.applyAll_iff heq hwf hplain hexact hstmts hlocal hholds

/-! ## A deferrable constraint -/

/-- A table with a key and a column under a deferrable unique constraint. -/
def seatIndex : PgIndex :=
  ⟨⟨"CREATE UNIQUE INDEX seats_seat_key ON public.seats USING btree (seat)", ["seat"]⟩,
    ["seat"], [], true, false, false⟩

def seats : UpTable where
  schema := "public"
  name := "seats"
  columns := [⟨"id", "integer", 23, true⟩, ⟨"seat", "integer", 23, false⟩]
  replicaIdentity := "d"
  rowFilter := none
  primary := some ⟨⟨"CREATE UNIQUE INDEX seats_pkey ON public.seats USING btree (id)", ["id"]⟩,
    ["id"], [], true, false, true⟩
  indexes := [seatIndex]

def seatsRel : Rel :=
  ⟨"public", "seats", [⟨1, "id", 23, -1⟩, ⟨0, "seat", 23, -1⟩]⟩

def seatsKnown (relId : UInt32) : Option Rel :=
  if relId = 1 then some seatsRel else none

/-- What the server makes of the one index definition. -/
def seatsKeyOf (i : IndexDef) : Option UniqueKey :=
  if i = seatIndex.definition then some seatIndex.key else none

def seatRow (id seat : String) : Row :=
  setAll ∅ [("id", some id), ("seat", some seat)]

def seatRows (rows : List Row) : Contents :=
  fun _ => rows

theorem seatRow_fits (id seat : String) : seatsRel.Fits (seatRow id seat) := by
  intro name hname
  have hne : name ≠ "id" ∧ name ≠ "seat" := by simpa [seatsRel] using hname
  rw [seatRow, lookup_setAll]
  simp [List.lookup_cons, beq_false_of_ne hne.1, beq_false_of_ne hne.2]

/-- Somebody moves to another seat. -/
theorem seat_step {id seat seat' : String} {U : Contents} {rows rows' : List Row}
    (hU : U seats.key = rows) (hr : seatRow id seat ∈ rows) (hfits : ∀ r ∈ rows, seatsRel.Fits r)
    (hkeyed : seatsRel.Keyed (textEquality seats.key) rows)
    (hrows' : seatRow id seat' :: rows.erase (seatRow id seat) = rows')
    (hchecked : seats.Checked (textEquality seats.key) rows') :
    UpStep textEquality [seats] seatsKnown U (.update 1 none none [.text id, .text seat'])
      (Function.update U seats.key rows') := by
  subst hU hrows'
  have hid : ∀ seat, (seatRow id seat).lookup "id" = some id := by
    intro seat
    simp [seatRow, lookup_setAll, List.lookup_cons]
  have hseat : (seatRow id seat').lookup "seat" = some seat' := by
    simp [seatRow, lookup_setAll]
  have hnew : seatsRel.NewTuple (fun col => ¬ col.isKey) (seatRow id seat) (seatRow id seat')
      [.text id, .text seat'] := by
    refine .cons (.inl ?_) (.cons (.inl ?_) .nil)
    · simp [RelColumn.cell, hid]
    · simp [RelColumn.cell, hseat]
  have hrel : seatsKnown 1 = some seatsRel := rfl
  refine .row hrel ⟨seats, List.mem_singleton_self _, rfl⟩ ⟨by decide, by decide, by decide⟩ hfits
    (.updateNew hr (seatRow_fits id seat') hnew hkeyed ?_) ?_
  · intro col hcol hkey
    rcases List.mem_pair.1 hcol with rfl | rfl
    · rw [hid, hid]
    · simp [RelColumn.isKey] at hkey
  · intro t ht _
    obtain rfl := List.mem_singleton.1 ht
    exact hchecked

theorem seats_wellFormed : ∀ t ∈ [seats], t.WellFormed := by
  intro t ht
  obtain rfl := List.mem_singleton.1 ht
  rintro i ⟨⟩
  decide

theorem seats_plain : PlainDefinitions seatsKeyOf [seats] := by
  intro t ht i hi
  obtain rfl := List.mem_singleton.1 ht
  obtain rfl := List.mem_singleton.1 hi
  decide

/-- Two people on seats of their own. -/
def seated : Contents :=
  fun _ => [seatRow "1" "1", seatRow "2" "2"]

theorem seated_fits : ∀ r ∈ seated seats.key, seatsRel.Fits r := by
  intro r hr
  rcases List.mem_pair.1 hr with rfl | rfl
  · exact seatRow_fits "1" "1"
  · exact seatRow_fits "2" "2"

theorem seated_keyed : seatsRel.Keyed (textEquality seats.key) (seated seats.key) := by
  refine ⟨by decide, by decide, ?_⟩
  unfold Rel.Same
  decide +kernel

theorem seated_holds : ∀ t ∈ [seats], t.Holds (textEquality t.key) (seated t.key) := by
  intro t ht
  obtain rfl := List.mem_singleton.1 ht
  exact ⟨⟨by decide +kernel, by decide +kernel, by decide +kernel, by decide +kernel⟩,
    by decide +kernel, by decide +kernel⟩

theorem seated_localHolds : LocalHolds textEquality seatsKeyOf [seats] seated := by
  decide +kernel

/-- The two change seats. -/
def swapMsgs : List PgOutputMsg :=
  [.update 1 none none [.text "1", .text "2"], .update 1 none none [.text "2", .text "1"]]

/-- The first of the two meets the other. -/
theorem replay_violates_swap : ∃ (Us : List Contents) (stmts : List String),
    Committed textEquality [seats] seatsKnown seated swapMsgs Us ∧
      List.Forall₂ (fun m sql => ∃ changes, Renders seatsKnown m sql changes) swapMsgs stmts ∧
      applyAll textEquality seatsKeyOf [seats] stmts seated = .violation := by
  have hrel : seatsKnown 1 = some seatsRel := rfl
  have hmiddleFits : ∀ r ∈ [seatRow "1" "2", seatRow "2" "2"], seatsRel.Fits r := by
    intro r hr
    rcases List.mem_pair.1 hr with rfl | rfl
    · exact seatRow_fits "1" "2"
    · exact seatRow_fits "2" "2"
  have hmiddleKeyed : seatsRel.Keyed (textEquality seats.key)
      [seatRow "1" "2", seatRow "2" "2"] := by
    refine ⟨by decide, by decide, ?_⟩
    unfold Rel.Same
    decide +kernel
  have hfirst : UpStep textEquality [seats] seatsKnown seated
      (.update 1 none none [.text "1", .text "2"])
      (Function.update seated seats.key [seatRow "1" "2", seatRow "2" "2"]) :=
    seat_step rfl List.mem_cons_self seated_fits seated_keyed (by decide +kernel)
      ⟨by decide +kernel, by decide +kernel, by decide +kernel, by decide +kernel⟩
  have hsecond : UpStep textEquality [seats] seatsKnown _
      (.update 1 none none [.text "2", .text "1"])
      (Function.update _ seats.key [seatRow "2" "1", seatRow "1" "2"]) :=
    seat_step (Function.update_self seats.key [seatRow "1" "2", seatRow "2" "2"] seated)
      (List.mem_cons_of_mem _ List.mem_cons_self) hmiddleFits hmiddleKeyed (by decide +kernel)
      ⟨by decide +kernel, by decide +kernel, by decide +kernel, by decide +kernel⟩
  have hrun := UpRun.cons hfirst (.cons hsecond (.nil _))
  have hstmts : List.Forall₂ (fun m sql => ∃ changes, Renders seatsKnown m sql changes)
      swapMsgs [_, _] :=
    .cons ⟨_, .update hrel rfl⟩ (.cons ⟨_, .update hrel rfl⟩ .nil)
  refine ⟨_, _, ⟨hrun, seated_holds, ?_⟩, hstmts, ?_⟩
  · intro U hU t ht
    obtain rfl := List.mem_singleton.1 ht
    simp only [List.getLast?_cons_cons, List.getLast?_singleton, Option.mem_some_iff] at hU
    rw [← hU, Function.update_self]
    exact ⟨⟨by decide +kernel, by decide +kernel, by decide +kernel, by decide +kernel⟩,
      by decide +kernel, by decide +kernel⟩
  · refine not_not.1 fun hno => ?_
    have hmidway := (hrun.applyAll_iff textEquality_reflexive seats_wellFormed seats_plain
      ⟨fun _ _ _ _ => trivial, fun _ _ _ _ => trivial, trivial⟩ hstmts (fun _ _ => .refl _)
      seated_localHolds).1 hno _ List.mem_cons_self seats (List.mem_singleton_self _)
    have hunique := hmidway.unique seatIndex (List.mem_singleton_self _) rfl (by decide)
    rw [Function.update_self] at hunique
    exact absurd hunique (by decide +kernel)

/-- One of them moves to a free seat. -/
theorem replay_violates_move : ∃ stmts : List String,
    List.Forall₂ (fun m sql => ∃ changes, Renders seatsKnown m sql changes)
        [.update 1 none none [.text "1", .text "3"]] stmts ∧
      applyAll textEquality seatsKeyOf [seats] stmts seated ≠ .violation := by
  have hrel : seatsKnown 1 = some seatsRel := rfl
  have hstep : UpStep textEquality [seats] seatsKnown seated
      (.update 1 none none [.text "1", .text "3"])
      (Function.update seated seats.key [seatRow "1" "3", seatRow "2" "2"]) :=
    seat_step rfl List.mem_cons_self seated_fits seated_keyed (by decide +kernel)
      ⟨by decide +kernel, by decide +kernel, by decide +kernel, by decide +kernel⟩
  have hstmts : List.Forall₂ (fun m sql => ∃ changes, Renders seatsKnown m sql changes)
      [.update 1 none none [.text "1", .text "3"]] [_] :=
    .cons ⟨_, .update hrel rfl⟩ .nil
  have hafter : seats.Holds (textEquality seats.key) [seatRow "1" "3", seatRow "2" "2"] :=
    ⟨⟨by decide +kernel, by decide +kernel, by decide +kernel, by decide +kernel⟩,
      by decide +kernel, by decide +kernel⟩
  refine ⟨_, hstmts, (replay_violates_iff textEquality_reflexive seats_wellFormed seats_plain
    ⟨.cons hstep (.nil _), seated_holds, ?_⟩ ⟨fun _ _ _ _ => trivial, trivial⟩ hstmts
    (fun _ _ => .refl _) seated_localHolds).2 ?_⟩
  · intro U hU t ht
    obtain rfl := List.mem_singleton.1 ht
    rw [List.getLast?_singleton, Option.mem_some_iff] at hU
    rw [← hU, Function.update_self]
    exact hafter
  · intro U hU t ht
    obtain rfl := List.mem_singleton.1 ht
    rw [List.mem_singleton.1 hU, Function.update_self]
    exact ⟨by decide +kernel, by decide +kernel, by decide +kernel⟩

end Pglite.Replica.Backfill
