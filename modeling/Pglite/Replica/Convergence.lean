import Pglite.Replica.RowsProof

/-!
# The contents of the published tables

The upstream's rows at the position of the stream, next to the rows of the replica. A row change
waits in the open transaction, a schema change alters the local tables at once, and no rows are
copied for it. The two sides converge as long as every schema change is one that this can follow
(`Carries`): of each published table the rows keep what they have under the names that stay, and
have nothing under the new ones, and a table that is new is empty.

* `Mirror`: the session knows the published relations, and its schema has their columns.
* `Synced`: the buffered changes lead from the local rows to the upstream's.
* `step_converging`, `contents_converge`: one step, and a run.
* `carries_of_synced`: a schema change that is not followed is never made up for.
-/

namespace Pglite.Replica

open Text Runs Records Backfill

namespace SchemaSession.Session

variable (x : Session)

/-- The changes of the open transaction. -/
def pending : List RowChange :=
  match x.stream.txn with
  | some buf => buf.changes
  | none => []

/-- The rows after a `Commit`. -/
def committedRows (store : String → String → String) (endLsn : Lsn) (C : Contents) : Contents :=
  match x.stream.txn with
  | none => C
  | some buf =>
    if endLsn ≤ x.watermark ∨ buf.stmts = [] then C
    else if x.Accepts buf.changes then applyChanges store x.schema buf.changes C
    else C

/-- The rows after a DDL signal: those after the statements that a change which is accepted has issued
(`run_deltaStmts`). -/
def resyncedRows (seen : Backfill.Catalog) (C : Contents) : Contents :=
  match applySchemaDelta seen.types seen.tables x.stream.expected.values x.schema with
  | .error _ => C
  | .ok _ => (deltaStmts (oldColumns x.stream.expected.values) seen.tables).foldl Ddl.onRows C

end SchemaSession.Session

namespace Convergence

/-- A session, the upstream's rows at the position of the stream, and the local ones. -/
structure State where
  session : SchemaSession.State
  upstream : Contents
  replica : Contents

/-- A step of the upstream's history, with its rows afterwards. -/
structure Event where
  told : SchemaSession.Event
  upstream : Contents

/-- The local rows after a message. The columns that a `Relation` message adds are null. -/
def State.localRows (store : String → String → String) (σ : State) (e : SchemaSession.Event) :
    Contents :=
  match σ.session.result, e with
  | .next x, .commit _ endLsn _ => x.committedRows store endLsn σ.replica
  | .next x, .ddl _ _ seen => x.resyncedRows seen σ.replica
  | _, _ => σ.replica

def step (formatType : UInt32 → Int32 → String) (store : String → String → String) (σ : State)
    (e : Event) : Option State :=
  match SchemaSession.step formatType σ.session e.told with
  | none => none
  | some session => some ⟨session, e.upstream, σ.localRows store e.told⟩

/-! ## Histories -/

/-- The catalog has exactly the published relations. -/
structure Exact (seen : Backfill.Catalog) (tables : SchemaSession.Published) : Prop where
  published : ∀ t ∈ seen.tables, ∃ p ∈ tables.entries, p.2.key = t.key
  listed : ∀ p ∈ tables.entries, ∃ t ∈ seen.tables, t.key = p.2.key ∧
    t.columns.map (fun c => (c.name, c.typeOid)) = p.2.recorded

instance Exact.decidable (seen : Backfill.Catalog) (tables : SchemaSession.Published) :
    Decidable (Exact seen tables) :=
  decidable_of_iff ((∀ t ∈ seen.tables, ∃ p ∈ tables.entries, p.2.key = t.key) ∧
      ∀ p ∈ tables.entries, ∃ t ∈ seen.tables, t.key = p.2.key ∧
        t.columns.map (fun c => (c.name, c.typeOid)) = p.2.recorded)
    ⟨fun ⟨h, h'⟩ => ⟨h, h'⟩, fun ⟨h, h'⟩ => ⟨h, h'⟩⟩

/-- The rows of the published tables are the same. -/
def Unchanged (tables : SchemaSession.Published) (C C' : Contents) : Prop :=
  ∀ p ∈ tables.entries, (C' p.2.key).Perm (C p.2.key)

instance Unchanged.decidable (tables : SchemaSession.Published) (C C' : Contents) :
    Decidable (Unchanged tables C C') :=
  inferInstanceAs (Decidable (∀ p ∈ tables.entries, (C' p.2.key).Perm (C p.2.key)))

/-- What the upstream sends is what happened: a row change message tells the change of the rows, a
schema change comes with its signal and is introspected as of its position, and nothing else
changes rows. Transactions that have been applied are not sent again. -/
def Faithful (σ : State) (e : Event) : Prop :=
  match e.told with
  | .row m => ∀ p ∈ σ.session.upstream.tables.entries,
    m.Tells σ.session.upstream.tables.lookup p.2.key (σ.upstream p.2.key) (e.upstream p.2.key)
  | .ddl tables _ seen => Exact seen tables
  | .commit _ endLsn _ => Unchanged σ.session.upstream.tables σ.upstream e.upstream ∧
    match σ.session.result with
    | .next x => ¬ endLsn ≤ x.watermark
    | _ => True
  | _ => Unchanged σ.session.upstream.tables σ.upstream e.upstream

/-- The columns that a table loses. -/
def goneNames (rel rel' : Rel) : List String :=
  rel.columnNames.filter fun name => decide (name ∉ rel'.columnNames)

/-- A table that stays published keeps its rows. They lose the columns that are gone, and the new
ones are null. A table that is new has no rows. -/
def Carries (tables : SchemaSession.Published) (rel' : Rel) (C C' : Contents) : Prop :=
  (∀ p ∈ tables.entries, p.2.key = rel'.key →
    (C' rel'.key).Perm ((C rel'.key).map (clear (goneNames p.2 rel')))) ∧
  ((∀ p ∈ tables.entries, p.2.key ≠ rel'.key) → C' rel'.key = [])

instance Carries.decidable (tables : SchemaSession.Published) (rel' : Rel) (C C' : Contents) :
    Decidable (Carries tables rel' C C') :=
  inferInstanceAs (Decidable (_ ∧ _))

/-- The statement names no table that is new, and no column that is new. -/
def Spared (tables : SchemaSession.Published) (rel' : Rel) (change : RowChange) : Prop :=
  change.table = rel'.key → ∃ p ∈ tables.entries, p.2.key = rel'.key ∧
    ∀ name ∈ change.columns, name ∈ rel'.columnNames → name ∈ p.2.columnNames

instance Spared.decidable (tables : SchemaSession.Published) (rel' : Rel) (change : RowChange) :
    Decidable (Spared tables rel' change) :=
  inferInstanceAs (Decidable (_ → _))

/-- What the replica can follow. A message identifies one row, and the local columns take its
values as they are. A schema change carries the rows, and no buffered statement names what it
adds. -/
def Followed (store : String → String → String) (σ : State) (e : Event) : Prop :=
  match σ.session.result, e.told with
  | .next x, .row m => ∀ relId ∈ m.relIds, ∀ rel ∈ σ.session.upstream.tables.lookup relId,
    rel.Singles (σ.upstream rel.key) m ∧ x.schema.Keeps store rel.key (rel.newValues m)
  | .next x, .ddl tables _ seen => seen.Legible ∧ ∀ p ∈ tables.entries,
    Carries σ.session.upstream.tables p.2 σ.upstream e.upstream ∧
      ∀ change ∈ x.pending, Spared σ.session.upstream.tables p.2 change
  | _, _ => True

instance Faithful.decidable : ∀ σ e, Decidable (Faithful σ e)
  | σ, ⟨.row m, up'⟩ => inferInstanceAs (Decidable (∀ p ∈ σ.session.upstream.tables.entries,
      m.Tells σ.session.upstream.tables.lookup p.2.key (σ.upstream p.2.key) (up' p.2.key)))
  | _, ⟨.ddl tables _ seen, _⟩ => inferInstanceAs (Decidable (Exact seen tables))
  | ⟨⟨u, .next x⟩, up, _⟩, ⟨.commit _ endLsn _, up'⟩ =>
    inferInstanceAs (Decidable (Unchanged u.tables up up' ∧ ¬ endLsn ≤ x.watermark))
  | ⟨⟨u, .rejected _⟩, up, _⟩, ⟨.commit _ _ _, up'⟩ =>
    inferInstanceAs (Decidable (Unchanged u.tables up up' ∧ True))
  | ⟨⟨u, .ended⟩, up, _⟩, ⟨.commit _ _ _, up'⟩ =>
    inferInstanceAs (Decidable (Unchanged u.tables up up' ∧ True))
  | σ, ⟨.begin _ _ _, up'⟩ => Unchanged.decidable σ.session.upstream.tables σ.upstream up'
  | σ, ⟨.relation _ _, up'⟩ => Unchanged.decidable σ.session.upstream.tables σ.upstream up'
  | σ, ⟨.other _, up'⟩ => Unchanged.decidable σ.session.upstream.tables σ.upstream up'

instance Followed.decidable (store : String → String → String) :
    ∀ σ e, Decidable (Followed store σ e)
  | ⟨⟨u, .next x⟩, up, _⟩, ⟨.row m, _⟩ =>
    inferInstanceAs (Decidable (∀ relId ∈ m.relIds, ∀ rel ∈ u.tables.lookup relId,
      rel.Singles (up rel.key) m ∧ x.schema.Keeps store rel.key (rel.newValues m)))
  | ⟨⟨u, .next x⟩, up, _⟩, ⟨.ddl tables _ seen, up'⟩ =>
    inferInstanceAs (Decidable (seen.Legible ∧ ∀ p ∈ tables.entries,
      Carries u.tables p.2 up up' ∧ ∀ change ∈ x.pending, Spared u.tables p.2 change))
  | ⟨⟨_, .rejected _⟩, _, _⟩, _ => .isTrue trivial
  | ⟨⟨_, .ended⟩, _, _⟩, _ => .isTrue trivial
  | ⟨⟨_, .next _⟩, _, _⟩, ⟨.begin _ _ _, _⟩ => .isTrue trivial
  | ⟨⟨_, .next _⟩, _, _⟩, ⟨.relation _ _, _⟩ => .isTrue trivial
  | ⟨⟨_, .next _⟩, _, _⟩, ⟨.commit _ _ _, _⟩ => .isTrue trivial
  | ⟨⟨_, .next _⟩, _, _⟩, ⟨.other _, _⟩ => .isTrue trivial

/-- When nothing waits in an open transaction, every published table has the upstream's rows. -/
def State.Converged (σ : State) : Prop :=
  ∀ x, σ.session.result = .next x → x.stream.txn = none →
    ∀ p ∈ σ.session.upstream.tables.entries, (σ.replica p.2.key).Perm (σ.upstream p.2.key)

/-! ## The session and the catalog -/

variable {formatType : UInt32 → Int32 → String} {store : String → String → String}
  {u : SchemaSession.Upstream} {x x' : SchemaSession.Session} {seen : Backfill.Catalog}
  {tables : SchemaSession.Published}

/-- The session knows the published relations, and the local schema has their columns. -/
structure Mirror (u : SchemaSession.Upstream) (x : SchemaSession.Session) : Prop where
  keyed : x.stream.expected.Keyed
  lines : ∀ p ∈ u.tables.entries, x.stream.expected.lookup p.2.key = some p.2.line
  only : ∀ k line, x.stream.expected.lookup k = some line → ∃ p ∈ u.tables.entries, p.2.key = k
  columns : ∀ p ∈ u.tables.entries, (lineColumns p.2.line).map Prod.fst = p.2.columnNames
  has : ∀ p ∈ u.tables.entries, x.schema.Has p.2.key p.2.columnNames
  agrees : ∀ relId, u.announced relId = true → x.stream.rels relId = u.tables.lookup relId

namespace Exact

theorem table (h : Exact seen tables) {p : Σ _ : UInt32, Rel} (hp : p ∈ tables.entries) :
    ∃ t ∈ seen.tables, t.key = p.2.key ∧ t.columnNames = p.2.columnNames ∧ t.line = p.2.line := by
  obtain ⟨t, ht, hkey, hcolumns⟩ := h.listed p hp
  obtain ⟨hschema, hname⟩ := Prod.mk.inj hkey
  refine ⟨t, ht, hkey, ?_, ?_⟩
  · have hnames := congrArg (List.map Prod.fst) hcolumns
    simpa [Rel.recorded, TableDef.columnNames, Rel.columnNames, Function.comp_def] using hnames
  · rw [TableDef.line, hschema, hname, hcolumns, Rel.line]

end Exact

namespace Mirror

variable {p : Σ _ : UInt32, Rel}

/-- The old columns of a published table are those of its relation. -/
theorem oldColumns_eq (h : Mirror u x) (hp : p ∈ u.tables.entries) :
    ∃ oldCols, (oldColumns x.stream.expected.values).lookup p.2.key = some oldCols ∧
      oldCols.map Prod.fst = p.2.columnNames := by
  refine ⟨lineColumns p.2.line, ?_, h.columns p hp⟩
  rw [lookup_oldColumns h.keyed, h.lines p hp, Option.map_some]

theorem oldColumns_eq_none (h : Mirror u x) {k : TableKey}
    (hk : ∀ p ∈ u.tables.entries, p.2.key ≠ k) :
    (oldColumns x.stream.expected.values).lookup k = none := by
  rw [lookup_oldColumns h.keyed, Option.map_eq_none_iff]
  cases hline : x.stream.expected.lookup k with
  | none => rfl
  | some line =>
    obtain ⟨p, hp, hkey⟩ := h.only k line hline
    exact absurd hkey (hk p hp)

theorem has_old (h : Mirror u x) {k : TableKey} {oldCols : List (String × Nat)}
    (hold : (oldColumns x.stream.expected.values).lookup k = some oldCols) :
    x.schema.Has k (oldCols.map Prod.fst) := by
  rw [lookup_oldColumns h.keyed] at hold
  obtain ⟨line, hline, rfl⟩ := Option.map_eq_some_iff.1 hold
  obtain ⟨p, hp, rfl⟩ := h.only k line hline
  obtain rfl : p.2.line = line := Option.some.inj ((h.lines p hp).symm.trans hline)
  rw [h.columns p hp]
  exact h.has p hp

/-- A table has one list of columns. -/
theorem columnNames_eq (h : Mirror u x) {q : Σ _ : UInt32, Rel} (hp : p ∈ u.tables.entries)
    (hq : q ∈ u.tables.entries) (hkey : p.2.key = q.2.key) :
    q.2.columnNames = p.2.columnNames := by
  have hlines := h.lines p hp
  rw [hkey, h.lines q hq] at hlines
  rw [← h.columns p hp, ← h.columns q hq, Option.some.inj hlines]

/-- What the session is like when nothing of its schema changes. -/
theorem of_eq (h : Mirror u x) (hexpected : x'.stream.expected = x.stream.expected)
    (hrels : x'.stream.rels = x.stream.rels) (hschema : x'.schema = x.schema) : Mirror u x' where
  keyed := hexpected ▸ h.keyed
  lines := hexpected ▸ h.lines
  only := hexpected ▸ h.only
  columns := h.columns
  has := hschema ▸ h.has
  agrees := hrels ▸ h.agrees

/-- A published relation is the one that is expected, so that it only becomes known. -/
theorem onRelation (h : Mirror u x) {relId : UInt32} {rel : Rel}
    (hrel : u.tables.lookup relId = some rel)
    (hnext : x.onRelation formatType relId rel = .next x') :
    x' = { x with stream := x.stream.addRel relId rel } ∧ Mirror (u.announce relId) x' := by
  have hline := h.lines ⟨relId, rel⟩ (AList.mem_lookup_iff.1 hrel)
  unfold SchemaSession.Session.onRelation at hnext
  rw [hline] at hnext
  dsimp only at hnext
  rw [if_pos rfl] at hnext
  cases hnext
  refine ⟨rfl, ⟨h.keyed, h.lines, h.only, h.columns, h.has, ?_⟩⟩
  intro relId' hannounced
  by_cases heq : relId' = relId
  · subst heq
    exact (Function.update_self ..).trans hrel.symm
  · have hold : u.announced relId' = true :=
      (Function.update_of_ne heq _ _).symm.trans hannounced
    exact (Function.update_of_ne heq _ _).trans (h.agrees relId' hold)

/-- After a signal the lines are those of the catalog, and no relation that stays is forgotten. -/
theorem resyncSchema (h : Mirror u x) (hlegible : seen.Legible) {l : LocalSchema}
    (happly : applySchemaDelta seen.types seen.tables x.stream.expected.values x.schema = .ok l)
    (hnext : x.resyncSchema seen = .next x') :
    x'.schema = l ∧ x'.stream.txn = x.stream.txn ∧ x'.watermark = x.watermark ∧
      x'.stream.expected.Keyed ∧
      (∀ t ∈ seen.tables, x'.stream.expected.lookup t.key = some t.line) ∧
      (∀ k line, x'.stream.expected.lookup k = some line → line ∈ Text.lines seen.fingerprint) ∧
      ∀ relId, (∀ rel, x.stream.rels relId = some rel → rel.key ∈ seen.tables.map TableDef.key) →
        x'.stream.rels relId = x.stream.rels relId := by
  unfold SchemaSession.Session.resyncSchema at hnext
  rw [happly] at hnext
  dsimp only at hnext
  split at hnext
  · next hsame =>
    cases hnext
    have hmem : ∀ line, line ∈ Text.lines seen.fingerprint ↔ line ∈ x.stream.expected.values := by
      intro line
      rw [← mem_sorted, hsame, mem_sorted]
    refine ⟨rfl, rfl, rfl, h.keyed, ?_, ?_, fun _ _ => rfl⟩
    · intro t ht
      obtain ⟨k, hline⟩ := Expected.mem_values.1 ((hmem t.line).1 (hlegible.line_mem ht))
      have hkeys := (h.keyed k t.line hline).symm.trans (hlegible.key t ht)
      rw [← Option.some.inj hkeys, hline]
    · intro k line hline
      exact (hmem line).2 (Expected.mem_values.2 ⟨k, hline⟩)
  · cases hnext
    refine ⟨rfl, rfl, rfl, Expected.keyed_ofFingerprint _, ?_, ?_, ?_⟩
    · intro t ht
      exact hlegible.lookup_eq ht
    · intro k line hline
      rcases Expected.lookup_foldl hline with hmem | hempty
      · exact hmem
      · exact absurd hempty (by simp)
    · intro relId hstays
      cases hrel : x.stream.rels relId with
      | none => simp only [hrel, Option.filter_none]
      | some rel =>
        simp only [hrel, Option.filter_some, if_pos (hlegible.isSome_lookup (hstays rel hrel))]

theorem change (h : Mirror u x) (hlegible : seen.Legible) (hexact : Exact seen tables)
    (forgets : UInt32 → Bool) (hnext : x.resyncSchema seen = .next x') :
    Mirror (u.change tables forgets) x' ∧ x'.stream.txn = x.stream.txn ∧
      applySchemaDelta seen.types seen.tables x.stream.expected.values x.schema =
        .ok x'.schema := by
  cases happly : applySchemaDelta seen.types seen.tables x.stream.expected.values x.schema with
  | error e =>
    unfold SchemaSession.Session.resyncSchema at hnext
    rw [happly] at hnext
    cases hnext
  | ok l =>
    obtain ⟨rfl, htxn, -, hkeyed, hlines, hfrom, hrels⟩ := h.resyncSchema hlegible happly hnext
    refine ⟨⟨hkeyed, ?_, ?_, ?_, ?_, ?_⟩, htxn, rfl⟩
    · intro p hp
      obtain ⟨t, ht, hkey, -, hline⟩ := hexact.table hp
      rw [← hkey, hlines t ht, hline]
    · intro k line hline
      obtain ⟨t, ht, rfl, -⟩ := hlegible.exists_table (hfrom k line hline) (hkeyed k line hline)
      exact hexact.published t ht
    · intro p hp
      obtain ⟨t, ht, -, hcolumns, hline⟩ := hexact.table hp
      rw [← hline, hlegible.columns t ht, hcolumns]
    · intro p hp
      obtain ⟨t, ht, hkey, hcolumns, -⟩ := hexact.table hp
      rw [← hkey, ← hcolumns]
      exact has_of_applySchemaDelta happly ht fun oldCols hold => h.has_old hold
    · intro relId hnow
      simp only [SchemaSession.Upstream.change, Bool.and_eq_true, decide_eq_true_iff] at hnow
      obtain ⟨⟨hwas, hsame⟩, -⟩ := hnow
      have hknown := h.agrees relId hwas
      show x'.stream.rels relId = tables.lookup relId
      rw [hsame, ← hknown]
      refine hrels relId fun rel hrel => ?_
      rw [hknown, ← hsame] at hrel
      obtain ⟨t, ht, hkey, -⟩ := hexact.table (AList.mem_lookup_iff.1 hrel)
      exact List.mem_map.2 ⟨t, ht, hkey⟩

end Mirror

/-! ## Buffered changes and a schema change -/

section Buffered

variable {l : LocalSchema} {change : RowChange}

/-- What a buffered statement names was there before, when it is there afterwards. The columns
keep their types, and none of them is gone. -/
theorem Mirror.fits (h : Mirror u x) (hexact : Exact seen tables)
    (happly : applySchemaDelta seen.types seen.tables x.stream.expected.values x.schema = .ok l)
    (hspared : ∀ p ∈ tables.entries, Spared u.tables p.2 change)
    (hfits : l.Has change.table change.columns) :
    x.schema.Has change.table change.columns ∧
      (∀ name ∈ change.columns,
        l.columnType change.table name = x.schema.columnType change.table name) ∧
      ∀ t ∈ seen.tables, t.key = change.table → ∀ oldCols,
        (oldColumns x.stream.expected.values).lookup t.key = some oldCols →
          ∀ name ∈ change.columns, name ∉ goneColumns t oldCols := by
  obtain ⟨M, hM, hnames⟩ := hfits
  by_cases hkey : change.table ∈ seen.tables.map TableDef.key
  · obtain ⟨t, ht, hkey⟩ := List.mem_map.1 hkey
    obtain ⟨p', hp', hp'key⟩ := hexact.published t ht
    obtain ⟨t', ht', hkey', hcolumns, -⟩ := hexact.table hp'
    obtain rfl : t' = t :=
      List.inj_on_of_nodup_map seen.tables_nodup ht' ht (hkey'.trans hp'key)
    obtain ⟨p, hp, hpkey, hold⟩ := hspared p' hp' (hkey.symm.trans hp'key.symm)
    obtain ⟨oldCols, hlookup, hcols⟩ := h.oldColumns_eq hp
    have hpt : p.2.key = t'.key := hpkey.trans hp'key
    rw [hpt] at hlookup
    -- The table is the old one, altered.
    obtain ⟨L, hL, hLnames⟩ := h.has p hp
    rw [hpt] at hL
    obtain ⟨e, hafter, hfirst⟩ :=
      applySchemaDelta_table seen.types_nodup seen.tables_nodup happly ht
    obtain rfl := hfirst (.inl (by rw [hL]; rfl))
    simp only [tableAfter, hlookup, hL] at hafter
    rw [← hkey, hafter] at hM
    obtain rfl : L.altered t' oldCols = M := by simpa using hM
    have hstays : ∀ name ∈ change.columns,
        name ∈ L.columnNames ∧ name ∉ goneColumns t' oldCols := by
      intro name hname
      obtain ⟨hthere, hgone⟩ := (columnNames_altered L t' oldCols name).1 (hnames hname)
      refine ⟨?_, hgone⟩
      rcases hthere with hthere | hadded
      · exact hthere
      · refine hLnames (hold name hname ?_)
        rw [← hcolumns]
        obtain ⟨c, hc, rfl⟩ := List.mem_map.1 hadded
        exact List.mem_map_of_mem (List.mem_filter.1 hc).1
    refine ⟨⟨L, hkey ▸ hL, fun name hname => (hstays name hname).1⟩, ?_, ?_⟩
    · intro name hname
      rw [LocalSchema.columnType, LocalSchema.columnType, ← hkey, hafter, hL]
      exact typeOf_altered (hstays name hname).1 (hstays name hname).2
    · intro t ht hkey' oldCols' hlookup' name hname
      obtain rfl : t = t' :=
        List.inj_on_of_nodup_map seen.tables_nodup ht ht' (hkey'.trans hkey.symm)
      obtain rfl : oldCols = oldCols' := Option.some.inj (hlookup.symm.trans hlookup')
      exact (hstays name hname).2
  · have hL := applySchemaDelta_frame seen.types_nodup seen.tables_nodup happly hkey hM
    refine ⟨⟨M, hL, hnames⟩, ?_, ?_⟩
    · intro name hname
      rw [LocalSchema.columnType, LocalSchema.columnType, hM, hL]
    · intro t ht htable
      exact absurd (htable ▸ List.mem_map_of_mem ht) hkey

end Buffered

theorem pending_congr (htxn : x'.stream.txn = x.stream.txn) : x'.pending = x.pending := by
  rw [SchemaSession.Session.pending, SchemaSession.Session.pending, htxn]

theorem onRow_next {m : PgOutputMsg} (h : x.onRow m = .next x') :
    ∃ s, x.stream.onRow m = .ok s ∧ x' = { x with stream := s } := by
  unfold SchemaSession.Session.onRow at h
  split at h
  · cases h
  · cases hok : x.stream.onRow m with
    | error e =>
      rw [hok] at h
      cases h
    | ok s =>
      rw [hok] at h
      cases h
      exact ⟨s, rfl, rfl⟩

/-! ## What is kept -/

/-- The buffered changes lead from the local rows to the upstream's, unless one of them names what
is no longer there. -/
structure Synced (store : String → String → String) (u : SchemaSession.Upstream)
    (x : SchemaSession.Session) (up down : Contents) : Prop where
  stmts : ∀ buf, x.stream.txn = some buf → buf.stmts = [] → buf.changes = []
  keeps : x.Accepts x.pending →
    ∀ change ∈ x.pending, x.schema.Keeps store change.table change.row
  rows : x.Accepts x.pending → ∀ p ∈ u.tables.entries,
    (rowsAfter x.pending p.2.key (down p.2.key)).Perm (up p.2.key)

/-- The invariant. -/
def Converging (store : String → String → String) (σ : State) : Prop :=
  ∀ x, σ.session.result = .next x → Mirror σ.session.upstream x ∧
    Synced store σ.session.upstream x σ.upstream σ.replica

namespace Synced

variable {up up' down : Contents}

/-- Nothing happens to the session that matters for rows. -/
theorem of_eq (h : Synced store u x up down) {u' : SchemaSession.Upstream}
    (htables : u'.tables = u.tables) (htxn : x'.stream.txn = x.stream.txn)
    (hschema : x'.schema = x.schema) (hup : Unchanged u.tables up up') :
    Synced store u' x' up' down := by
  have hpending := pending_congr htxn
  have haccepts : x'.Accepts x'.pending ↔ x.Accepts x.pending := by
    rw [SchemaSession.Session.Accepts, SchemaSession.Session.Accepts, hpending, hschema]
  refine ⟨htxn ▸ h.stmts, ?_, ?_⟩
  · intro hfits
    rw [hpending, hschema]
    exact h.keeps (haccepts.1 hfits)
  · intro hfits p hp
    rw [htables] at hp
    rw [hpending]
    exact (h.rows (haccepts.1 hfits) p hp).trans (hup p hp).symm

/-- Without an open transaction the rows are the same. -/
theorem of_none (hnone : x.stream.txn = none)
    (hrows : ∀ p ∈ u.tables.entries, (down p.2.key).Perm (up p.2.key)) :
    Synced store u x up down := by
  have hpending : x.pending = [] := by rw [SchemaSession.Session.pending, hnone]
  refine ⟨?_, ?_, ?_⟩
  · intro buf hbuf
    rw [hnone] at hbuf
    cases hbuf
  · intro _ change hchange
    rw [hpending] at hchange
    cases hchange
  · intro _ p hp
    rw [hpending]
    exact hrows p hp

theorem rows_of_none (h : Synced store u x up down) (hnone : x.stream.txn = none) :
    ∀ p ∈ u.tables.entries, (down p.2.key).Perm (up p.2.key) := by
  have hpending : x.pending = [] := by rw [SchemaSession.Session.pending, hnone]
  have hfits : x.Accepts x.pending := by
    intro change hchange
    rw [hpending] at hchange
    cases hchange
  intro p hp
  have hrows := h.rows hfits p hp
  rwa [hpending] at hrows

theorem begin (h : Synced store u x up down) (hnone : x.stream.txn = none)
    (hup : Unchanged u.tables up up') (xid : UInt32) (commitTs : Int64) :
    Synced store u { x with stream := { x.stream with txn := some ⟨xid, commitTs, [], []⟩ } }
      up' down := by
  refine ⟨?_, ?_, ?_⟩
  · intro buf hbuf _
    rw [← Option.some.inj hbuf]
  · intro _ change hchange
    cases hchange
  · intro _ p hp
    exact (h.rows_of_none hnone p hp).trans (hup p hp).symm

theorem onRow {m : PgOutputMsg} (h : Synced store u x up down) (hmirror : Mirror u x)
    (hrow : m.isRow = true) (hknown : ∀ relId ∈ m.relIds, u.announced relId = true)
    (htells : ∀ p ∈ u.tables.entries,
      m.Tells u.tables.lookup p.2.key (up p.2.key) (up' p.2.key))
    (hfollowed : ∀ relId ∈ m.relIds, ∀ rel ∈ u.tables.lookup relId,
      rel.Singles (up rel.key) m ∧ x.schema.Keeps store rel.key (rel.newValues m))
    (hnext : x.onRow m = .next x') : Mirror u x' ∧ Synced store u x' up' down := by
  obtain ⟨s, hok, rfl⟩ := onRow_next hnext
  obtain ⟨buf, stmt, changes, htxn, hrenders, rfl⟩ := Stream.onRow_eq_ok hrow hok
  have hrels : ∀ relId ∈ m.relIds, x.stream.rels relId = u.tables.lookup relId :=
    fun relId hmem => hmirror.agrees relId (hknown relId hmem)
  have hpending : x.pending = buf.changes := by rw [SchemaSession.Session.pending, htxn]
  have hall : ∀ l : LocalSchema, (∀ change ∈ buf.changes ++ changes,
      l.Has change.table change.columns) → ∀ change ∈ buf.changes,
        l.Has change.table change.columns :=
    fun l hfits change hchange => hfits change (List.mem_append_left changes hchange)
  refine ⟨hmirror.of_eq rfl rfl rfl, ⟨?_, ?_, ?_⟩⟩
  · intro buf' hbuf' hnil
    obtain rfl : buf.push stmt changes = buf' := Option.some.inj hbuf'
    exact absurd hnil (by simp [TxnBuf.push])
  · intro hfits change hchange
    rcases List.mem_append.1 hchange with hold | hnew
    · exact h.keeps (hpending ▸ hall x.schema hfits) change (hpending ▸ hold)
    · refine hrenders.keeps (fun relId hmem rel hrel => ?_) change hnew
      rw [hrels relId hmem] at hrel
      exact (hfollowed relId hmem rel hrel).2
  · intro hfits p hp
    have hrows := h.rows (hpending ▸ hall x.schema hfits) p hp
    rw [hpending] at hrows
    have htells' : m.Tells x.stream.rels p.2.key (up p.2.key) (up' p.2.key) := by
      obtain ⟨habout, hothers⟩ := htells p hp
      refine ⟨fun relId hmem rel hrel => ?_, fun hne => hothers fun relId hmem rel hrel => ?_⟩
      · exact habout relId hmem rel ((hrels relId hmem).symm.trans hrel)
      · exact hne relId hmem rel ((hrels relId hmem).trans hrel)
    show (rowsAfter (buf.changes ++ changes) p.2.key (down p.2.key)).Perm (up' p.2.key)
    rw [rowsAfter_append]
    refine hrenders.rowsAfter_perm hrows htells' fun relId hmem rel hrel hkey => ?_
    rw [hrels relId hmem] at hrel
    exact hkey ▸ (hfollowed relId hmem rel hrel).1

/-- The transaction is applied. -/
theorem onCommit {endLsn : Lsn} (h : Synced store u x up down) (hmirror : Mirror u x)
    (hup : Unchanged u.tables up up') (hlater : ¬ endLsn ≤ x.watermark)
    (hnext : x.onCommit endLsn = .next x') :
    Mirror u x' ∧ Synced store u x' up' (x.committedRows store endLsn down) := by
  unfold SchemaSession.Session.onCommit at hnext
  unfold SchemaSession.Session.committedRows
  cases htxn : x.stream.txn with
  | none =>
    rw [htxn] at hnext
    cases hnext
  | some buf =>
    have hpending : x.pending = buf.changes := by rw [SchemaSession.Session.pending, htxn]
    rw [htxn] at hnext
    dsimp only at hnext ⊢
    by_cases hempty : endLsn ≤ x.watermark ∨ buf.stmts = []
    · rw [if_pos hempty] at hnext ⊢
      cases hnext
      have hnil : x.pending = [] := by
        rw [hpending]
        exact h.stmts buf htxn (hempty.resolve_left hlater)
      refine ⟨hmirror.of_eq rfl rfl rfl, of_none rfl fun p hp => ?_⟩
      have hrows := h.rows (by rw [hnil]; exact fun _ hchange => nomatch hchange) p hp
      rw [hnil] at hrows
      exact hrows.trans (hup p hp).symm
    · rw [if_neg hempty] at hnext ⊢
      cases hfind : buf.changes.find? fun change =>
          !decide (x.schema.Has change.table change.columns) with
      | some change =>
        rw [hfind] at hnext
        cases hnext
      | none =>
        rw [hfind] at hnext
        cases hnext
        have hfits : x.Accepts buf.changes := by
          intro change hchange
          have hhas := List.find?_eq_none.1 hfind change hchange
          simpa using hhas
        have hfits' : x.Accepts x.pending := hpending ▸ hfits
        rw [if_pos hfits]
        refine ⟨hmirror.of_eq rfl rfl rfl, of_none rfl fun p hp => ?_⟩
        have hkeeps := h.keeps hfits'
        have hrows := h.rows hfits' p hp
        rw [hpending] at hkeeps hrows
        rw [applyChanges_eq_rowsAfter hkeeps]
        exact hrows.trans (hup p hp).symm

/-- The rows of a published table after a signal. -/
theorem resyncedRows_eq (down : Contents) (h : Mirror u x) (hexact : Exact seen tables)
    (happly : applySchemaDelta seen.types seen.tables x.stream.expected.values x.schema =
      .ok x'.schema) {p' : Σ _ : UInt32, Rel} (hp' : p' ∈ tables.entries) :
    (∀ p ∈ u.tables.entries, p.2.key = p'.2.key → x.resyncedRows seen down p'.2.key =
      (down p'.2.key).map (clear (goneNames p.2 p'.2))) ∧
    ((∀ p ∈ u.tables.entries, p.2.key ≠ p'.2.key) → x.resyncedRows seen down p'.2.key = []) := by
  obtain ⟨t, ht, hkey, hcolumns, -⟩ := hexact.table hp'
  have hrows := foldl_deltaStmts (C := down) (oldColumns x.stream.expected.values)
    seen.tables_nodup ht
  have hresynced : x.resyncedRows seen down =
      (deltaStmts (oldColumns x.stream.expected.values) seen.tables).foldl Ddl.onRows down := by
    unfold SchemaSession.Session.resyncedRows
    rw [happly]
  rw [hresynced, ← hkey]
  refine ⟨fun p hp hpkey => ?_, fun hnone => ?_⟩
  · obtain ⟨oldCols, hlookup, hcols⟩ := h.oldColumns_eq hp
    rw [hpkey] at hlookup
    rw [hlookup] at hrows
    have hgone : goneColumns t oldCols = goneNames p.2 p'.2 := by
      rw [goneColumns, goneNames, hcols, hcolumns]
    rw [hrows, ← hgone]
  · rw [h.oldColumns_eq_none hnone] at hrows
    exact hrows

/-- What the buffered changes make of the rows after a signal. -/
theorem rows_change (h : Synced store u x up down) (hmirror : Mirror u x)
    (hexact : Exact seen tables)
    (happly : applySchemaDelta seen.types seen.tables x.stream.expected.values x.schema =
      .ok x'.schema)
    (hspared : ∀ p ∈ tables.entries, ∀ change ∈ x.pending, Spared u.tables p.2 change)
    (hfits : x'.Accepts x.pending) {p' : Σ _ : UInt32, Rel} (hp' : p' ∈ tables.entries) :
    (rowsAfter x.pending p'.2.key (x.resyncedRows seen down p'.2.key)).Perm (up' p'.2.key) ↔
      Carries u.tables p'.2 up up' := by
  have hbefore := fun change hchange => hmirror.fits hexact happly
    (fun p hp => hspared p hp change hchange) (hfits change hchange)
  have hfits' : x.Accepts x.pending := fun change hchange => (hbefore change hchange).1
  obtain ⟨hold, hnew⟩ := resyncedRows_eq down hmirror hexact happly hp'
  by_cases hthere : ∃ p ∈ u.tables.entries, p.2.key = p'.2.key
  · obtain ⟨p, hp, hpkey⟩ := hthere
    -- The buffered statements name no column that is gone.
    have hclear : ∀ change ∈ x.pending, change.table = p'.2.key →
        ∀ name ∈ change.columns, name ∉ goneNames p.2 p'.2 := by
      intro change hchange htable name hname
      obtain ⟨t, ht, hkey, hcolumns, -⟩ := hexact.table hp'
      obtain ⟨oldCols, hlookup, hcols⟩ := hmirror.oldColumns_eq hp
      rw [hpkey, ← hkey] at hlookup
      have hstays := (hbefore change hchange).2.2 t ht (hkey.trans htable.symm) oldCols hlookup
        name hname
      rwa [goneColumns, hcols, hcolumns] at hstays
    have hrows := (h.rows hfits' p hp).map (clear (goneNames p.2 p'.2))
    rw [hpkey, ← rowsAfter_clear hclear, ← hold p hp hpkey] at hrows
    constructor
    · intro hup
      refine ⟨fun q hq hqkey => ?_, fun hnone => absurd hpkey (hnone p hp)⟩
      have hsame : goneNames q.2 p'.2 = goneNames p.2 p'.2 := by
        rw [goneNames, goneNames, hmirror.columnNames_eq hp hq (hpkey.trans hqkey.symm)]
      rw [hsame]
      exact hup.symm.trans hrows
    · intro hcarries
      exact hrows.trans (hcarries.1 p hp hpkey).symm
  · have hnone : ∀ p ∈ u.tables.entries, p.2.key ≠ p'.2.key :=
      fun p hp hkey => hthere ⟨p, hp, hkey⟩
    have hspares : ∀ change ∈ x.pending, change.table ≠ p'.2.key := by
      intro change hchange htable
      obtain ⟨p, hp, hkey, -⟩ := hspared p' hp' change hchange htable
      exact hnone p hp hkey
    rw [rowsAfter_of_ne hspares, hnew hnone]
    constructor
    · intro hup
      exact ⟨fun p hp hkey => absurd hkey (hnone p hp), fun _ => hup.nil_eq.symm⟩
    · intro hcarries
      rw [hcarries.2 hnone]

/-- A schema change that is carried is followed. -/
theorem change (h : Synced store u x up down) (hmirror : Mirror u x) (hexact : Exact seen tables)
    (hlegible : seen.Legible) {forgets : UInt32 → Bool}
    (hfollowed : ∀ p ∈ tables.entries, Carries u.tables p.2 up up' ∧
      ∀ change ∈ x.pending, Spared u.tables p.2 change)
    (hnext : x.resyncSchema seen = .next x') : Mirror (u.change tables forgets) x' ∧
      Synced store (u.change tables forgets) x' up' (x.resyncedRows seen down) := by
  obtain ⟨hmirror', htxn, happly⟩ := hmirror.change hlegible hexact forgets hnext
  have hpending := pending_congr htxn
  have hspared := fun p hp => (hfollowed p hp).2
  refine ⟨hmirror', ⟨htxn ▸ h.stmts, ?_, ?_⟩⟩
  · rw [hpending]
    intro hfits change hchange
    obtain ⟨hhas, htypes, -⟩ := hmirror.fits hexact happly
      (fun p hp => hspared p hp change hchange) (hfits change hchange)
    have hfits' : x.Accepts x.pending := fun change hchange => (hmirror.fits hexact happly
      (fun p hp => hspared p hp change hchange) (hfits change hchange)).1
    intro p hp v hv
    have hkeeps := h.keeps hfits' change hchange p hp v hv
    rw [LocalSchema.convert] at hkeeps ⊢
    rwa [htypes p.1 (change.row_subset (List.mem_map_of_mem hp))]
  · rw [hpending]
    intro hfits p' hp'
    exact (h.rows_change hmirror hexact happly hspared hfits hp').2 (hfollowed p' hp').1

/-- A schema change that is not carried leaves the local rows behind. -/
theorem carries_of_synced (h : Synced store u x up down) (hmirror : Mirror u x)
    (hexact : Exact seen tables) (hlegible : seen.Legible) {forgets : UInt32 → Bool}
    (hspared : ∀ p ∈ tables.entries, ∀ change ∈ x.pending, Spared u.tables p.2 change)
    (hnext : x.resyncSchema seen = .next x') (hfits : x'.Accepts x'.pending)
    (h' : Synced store (u.change tables forgets) x' up' (x.resyncedRows seen down)) :
    ∀ p ∈ tables.entries, Carries u.tables p.2 up up' := by
  obtain ⟨-, htxn, happly⟩ := hmirror.change hlegible hexact forgets hnext
  have hpending := pending_congr htxn
  intro p hp
  have hrows := h'.rows hfits p hp
  rw [hpending] at hrows hfits
  exact (h.rows_change hmirror hexact happly hspared hfits hp).1 hrows

end Synced

/-! ## Runs -/

theorem step_converging {σ τ : State} {e : Event} (h : Converging store σ)
    (hok : Faithful σ e ∧ Followed store σ e) (hstep : step formatType store σ e = some τ) :
    Converging store τ := by
  obtain ⟨⟨u, r⟩, up, down⟩ := σ
  obtain ⟨told, up'⟩ := e
  obtain ⟨hfaithful, hfollowed⟩ := hok
  unfold step at hstep
  cases hsession : SchemaSession.step formatType ⟨u, r⟩ told with
  | none =>
    rw [hsession] at hstep
    cases hstep
  | some session =>
    rw [hsession] at hstep
    cases hstep
    cases r with
    | rejected what => cases hsession
    | ended => cases hsession
    | next x =>
      obtain ⟨hmirror, hsynced⟩ := h x rfl
      intro x' hx'
      cases told with
      | begin finalLsn commitTs xid =>
        simp only [SchemaSession.step, Option.ite_none_left_eq_some, Option.some.injEq] at hsession
        obtain ⟨htxn, rfl⟩ := hsession
        cases hx'
        refine ⟨hmirror.of_eq rfl rfl rfl, hsynced.begin ?_ hfaithful xid commitTs⟩
        simpa using htxn
      | relation relId replicaIdentity =>
        simp only [SchemaSession.step] at hsession
        cases hrel : u.tables.lookup relId with
        | none => simp [hrel] at hsession
        | some rel =>
          simp only [hrel, Option.ite_none_right_eq_some, Option.some.injEq] at hsession
          obtain ⟨-, rfl⟩ := hsession
          obtain ⟨rfl, hmirror'⟩ := hmirror.onRelation hrel hx'
          exact ⟨hmirror', hsynced.of_eq rfl rfl rfl hfaithful⟩
      | row m =>
        simp only [SchemaSession.step, Option.ite_none_right_eq_some, Option.some.injEq] at hsession
        obtain ⟨⟨-, hrow, hknown⟩, rfl⟩ := hsession
        dsimp only at hx'
        rw [SchemaSession.handle_row hrow] at hx'
        exact hsynced.onRow hmirror hrow hknown hfaithful hfollowed hx'
      | ddl tables forgets seen =>
        simp only [SchemaSession.step, Option.ite_none_right_eq_some, Option.some.injEq] at hsession
        obtain ⟨-, rfl⟩ := hsession
        exact hsynced.change hmirror hfaithful hfollowed.1 hfollowed.2 hx'
      | commit commitLsn endLsn commitTs =>
        simp only [SchemaSession.step, Option.ite_none_right_eq_some, Option.some.injEq] at hsession
        obtain ⟨-, rfl⟩ := hsession
        exact hsynced.onCommit hmirror hfaithful.1 hfaithful.2 hx'
      | other m =>
        simp only [SchemaSession.step, Option.ite_none_right_eq_some, Option.some.injEq] at hsession
        obtain ⟨hidle, rfl⟩ := hsession
        dsimp only at hx'
        rw [SchemaSession.handle_idle hidle] at hx'
        cases hx'
        exact ⟨hmirror, hsynced.of_eq rfl rfl rfl hfaithful⟩

/-- A replica whose session begins, and its upstream. -/
def State.start (tables : SchemaSession.Published) (c : Backfill.Catalog) (l : LocalSchema)
    (watermark : Lsn) (up down : Contents) : State :=
  ⟨.start tables c l watermark, up, down⟩

section Start

variable {c : Backfill.Catalog} {l : LocalSchema} {watermark : Lsn} {up down : Contents}

theorem start_converging (hlegible : c.Legible) (hexact : Exact c tables)
    (hmirrored : ∀ t ∈ c.tables, l.Has t.key t.columnNames)
    (hequal : ∀ p ∈ tables.entries, (down p.2.key).Perm (up p.2.key)) :
    Converging store (.start tables c l watermark up down) := by
  intro x hx
  cases hx
  refine ⟨⟨Expected.keyed_ofFingerprint _, ?_, ?_, ?_, ?_, ?_⟩, .of_none rfl hequal⟩
  · intro p hp
    obtain ⟨t, ht, hkey, -, hline⟩ := hexact.table hp
    rw [← hkey, ← hline]
    exact hlegible.lookup_eq ht
  · intro k line hline
    have hkeyed := Expected.keyed_ofFingerprint c.fingerprint k line hline
    rcases Expected.lookup_foldl hline with hmem | hempty
    · obtain ⟨t, ht, rfl, -⟩ := hlegible.exists_table hmem hkeyed
      exact hexact.published t ht
    · exact absurd hempty (by simp)
  · intro p hp
    obtain ⟨t, ht, -, hcolumns, hline⟩ := hexact.table hp
    rw [← hline, hlegible.columns t ht, hcolumns]
  · intro p hp
    obtain ⟨t, ht, hkey, hcolumns, -⟩ := hexact.table hp
    rw [← hkey, ← hcolumns]
    exact hmirrored t ht
  · intro relId hannounced
    cases hannounced

/-- **Contents converge.** A replica that has been built from the catalog starts with the
upstream's rows. In every run of a faithful upstream whose steps the replica can follow, every
published table has the upstream's rows whenever the stream is drained. -/
theorem contents_converge {es : List Event} {σ : State} (legible : c.Legible)
    (exact : Exact c tables) (built : bootstrapSchema c.types c.tables .empty = some l)
    (equal : ∀ p ∈ tables.entries, (down p.2.key).Perm (up p.2.key))
    (faithful : Guarded (step formatType store) Faithful
      (.start tables c l watermark up down) es)
    (followed : Guarded (step formatType store) (Followed store)
      (.start tables c l watermark up down) es)
    (hrun : run (step formatType store) (.start tables c l watermark up down) es = some σ) :
    σ.Converged := by
  have hstart : Converging store (.start tables c l watermark up down) :=
    start_converging legible exact (SchemaSession.mirrored_of_bootstrapSchema built) equal
  have hconverging := run_invariant (fun _ _ _ h hok hstep => step_converging h hok hstep) hstart
    (faithful.and followed) hrun
  intro x hx hnone
  exact (hconverging x hx).2.rows_of_none hnone

end Start

/-! ## A table that changes -/

/-- The contents with these rows in `todos`. -/
def todos (rows : List (List (String × String))) : Contents :=
  fun k => if k = ("public", "todos") then
    rows.map fun r => setAll ∅ (r.map fun p => (p.1, some p.2))
  else []

/-- A column is added without a default between two row changes of a transaction. -/
def addingNull : List Event :=
  [⟨.begin 0 0 7, todos [[("id", "1"), ("note", "a")]]⟩,
    ⟨.relation 1 0x64, todos [[("id", "1"), ("note", "a")]]⟩,
    ⟨.row (.insert 1 [.text "2", .text "b"]),
      todos [[("id", "1"), ("note", "a")], [("id", "2"), ("note", "b")]]⟩,
    ⟨.ddl (SchemaSession.todosRel 3) (fun _ => false) (SchemaSession.todosCatalog 3),
      todos [[("id", "1"), ("note", "a")], [("id", "2"), ("note", "b")]]⟩,
    ⟨.relation 1 0x64, todos [[("id", "1"), ("note", "a")], [("id", "2"), ("note", "b")]]⟩,
    ⟨.row (.update 1 none none [.text "1", .text "a", .text "c"]),
      todos [[("id", "1"), ("note", "a"), ("due", "c")], [("id", "2"), ("note", "b")]]⟩,
    ⟨.commit 16 24 0,
      todos [[("id", "1"), ("note", "a"), ("due", "c")], [("id", "2"), ("note", "b")]]⟩]

theorem contents_converge_adding : ∃ l σ,
    bootstrapSchema (SchemaSession.todosCatalog 2).types (SchemaSession.todosCatalog 2).tables
      .empty = some l ∧
    run (step (fun _ _ => "text") fun _ v => v) (.start (SchemaSession.todosRel 2)
      (SchemaSession.todosCatalog 2) l 0 (todos [[("id", "1"), ("note", "a")]])
      (todos [[("id", "1"), ("note", "a")]])) addingNull = some σ ∧ σ.Converged := by
  have hrun : ((bootstrapSchema (SchemaSession.todosCatalog 2).types
      (SchemaSession.todosCatalog 2).tables .empty).bind fun l =>
        let s : State := .start (SchemaSession.todosRel 2) (SchemaSession.todosCatalog 2) l 0
          (todos [[("id", "1"), ("note", "a")]]) (todos [[("id", "1"), ("note", "a")]])
        (run (step (fun _ _ => "text") fun _ v => v) s addingNull).map fun _ =>
          decide (Guarded (step (fun _ _ => "text") fun _ v => v) Faithful s addingNull ∧
            Guarded (step (fun _ _ => "text") fun _ v => v) (Followed fun _ v => v) s
              addingNull)) = some true := by
    decide +kernel
  obtain ⟨l, hl, hrun⟩ := Option.bind_eq_some_iff.1 hrun
  obtain ⟨σ, hσ, hguarded⟩ := Option.map_eq_some_iff.1 hrun
  obtain ⟨hfaithful, hfollowed⟩ := of_decide_eq_true hguarded
  exact ⟨l, σ, hl, hσ, contents_converge (by decide +kernel) (by decide +kernel) hl
    (fun _ _ => .refl _) hfaithful hfollowed hσ⟩

/-- A column is added with a default. -/
def addingDefault : List Event :=
  [⟨.begin 0 0 7, todos [[("id", "1"), ("note", "a")]]⟩,
    ⟨.ddl (SchemaSession.todosRel 3) (fun _ => false) (SchemaSession.todosCatalog 3),
      todos [[("id", "1"), ("note", "a"), ("due", "c")]]⟩,
    ⟨.commit 16 24 0, todos [[("id", "1"), ("note", "a"), ("due", "c")]]⟩]

/-- The row that is there has the default in the upstream, and a null in the replica. -/
theorem added_default_lost :
    ¬ ∀ (tables : SchemaSession.Published) (c : Backfill.Catalog) (l : LocalSchema)
      (up down : Contents) (es : List Event) (σ : State), c.Legible → Exact c tables →
      bootstrapSchema c.types c.tables .empty = some l →
      (∀ p ∈ tables.entries, (down p.2.key).Perm (up p.2.key)) →
      Guarded (step (fun _ _ => "text") fun _ v => v) Faithful (.start tables c l 0 up down) es →
      run (step (fun _ _ => "text") fun _ v => v) (.start tables c l 0 up down) es = some σ →
      σ.Converged := by
  intro h
  have hrun : ((bootstrapSchema (SchemaSession.todosCatalog 2).types
      (SchemaSession.todosCatalog 2).tables .empty).bind fun l =>
        let s : State := .start (SchemaSession.todosRel 2) (SchemaSession.todosCatalog 2) l 0
          (todos [[("id", "1"), ("note", "a")]]) (todos [[("id", "1"), ("note", "a")]])
        (run (step (fun _ _ => "text") fun _ v => v) s addingDefault).map fun σ =>
          decide (Guarded (step (fun _ _ => "text") fun _ v => v) Faithful s addingDefault) &&
            match σ.session.result with
            | .next x => x.stream.txn.isNone && decide (¬ ∀ p ∈ σ.session.upstream.tables.entries,
              (σ.replica p.2.key).Perm (σ.upstream p.2.key))
            | _ => false) = some true := by
    decide +kernel
  obtain ⟨l, hl, hrun⟩ := Option.bind_eq_some_iff.1 hrun
  obtain ⟨σ, hσ, hdiverged⟩ := Option.map_eq_some_iff.1 hrun
  rw [Bool.and_eq_true, decide_eq_true_iff] at hdiverged
  obtain ⟨hfaithful, hdiverged⟩ := hdiverged
  have hconverged := h (SchemaSession.todosRel 2) (SchemaSession.todosCatalog 2) l
    (todos [[("id", "1"), ("note", "a")]]) (todos [[("id", "1"), ("note", "a")]]) addingDefault σ
    (by decide +kernel) (by decide +kernel) hl (fun _ _ => .refl _) hfaithful hσ
  unfold State.Converged at hconverged
  cases hresult : σ.session.result with
  | rejected what => simp [hresult] at hdiverged
  | ended => simp [hresult] at hdiverged
  | next x =>
    rw [hresult] at hdiverged
    simp only [Bool.and_eq_true, decide_eq_true_iff, Option.isNone_iff_eq_none] at hdiverged
    exact hdiverged.2 (hconverged x hresult hdiverged.1)

end Convergence

end Pglite.Replica
