import Pglite.Replica.Convergence
import Pglite.Replica.FirstRunProof

/-!
# From the first run to the stream

`Replica::start` builds the published tables, however many attempts it takes, and the stream then
goes on from the consistent point of the slot of the last one. What it starts with is the state that
is stored and the tables that are there.

* `Completes.schema`: the tables are those of the catalog.
* `start_follows`: from there on the contents converge.
-/

namespace Pglite.Replica

open Runs Backfill Records

variable {srv : Server} {src : Source} {db db' : Database}

/-! ## The tables of the first run -/

theorem schema_withTables_of_not_mem {ts : List Backfill.TableDef} {k : TableKey}
    (hk : k ∉ ts.map TableDef.key) : (db.withTables ts).schema k = db.schema k := by
  induction ts generalizing db with
  | nil => rfl
  | cons t ts ih =>
    rw [List.map_cons, List.mem_cons, not_or] at hk
    exact (ih hk.2).trans (Function.update_of_ne hk.1 _ _)

theorem schema_withTables {ts : List Backfill.TableDef} (hnodup : (ts.map TableDef.key).Nodup)
    {t : Backfill.TableDef} (ht : t ∈ ts) :
    (db.withTables ts).schema t.key = some (.table t.full) := by
  induction ts generalizing db with
  | nil => cases ht
  | cons t' ts ih =>
    rw [List.map_cons, List.nodup_cons] at hnodup
    rcases List.mem_cons.1 ht with rfl | ht
    · exact (schema_withTables_of_not_mem hnodup.1).trans (Function.update_self ..)
    · exact ih hnodup.2 ht

theorem initState_schema {st : ReplicaState} (h : db.initState st = some db') :
    db'.schema = db.schema := by
  unfold Database.initState at h
  split at h
  · obtain ⟨-, h⟩ := Option.ite_none_right_eq_some.1 h
    cases h
    rfl
  · cases h

theorem bumpSecurity_schema {securityFp : String} (h : db.bumpSecurity securityFp = some db') :
    db'.schema = db.schema := by
  unfold Database.bumpSecurity at h
  split at h
  · obtain ⟨-, h⟩ := Option.ite_none_right_eq_some.1 h
    cases h
    rfl
  · cases h

/-- Loading leaves the tables of the catalog. -/
theorem Leftover.load_schema {batches : src.Batches} (h : Leftover srv src db)
    (hstate : db.schema metaKey = some (.table metaTable))
    (hload : Replica.load srv batches db = some db') {t : Backfill.TableDef}
    (ht : t ∈ src.catalog.tables) : db'.schema t.key = some (.table t.full) := by
  obtain ⟨a₂, hschema, hcopy⟩ := Option.bind_eq_some_iff.1 hload
  obtain ⟨a₁, htypes, htables⟩ := run_append_eq_some.1 hschema
  have ha₁ := (h.rebuilt hstate).of_run_types rfl htypes
  have hfree : ∀ t ∈ src.catalog.tables, ∀ ty, a₁.schema t.key ≠ some (.type ty) :=
    fun t ht ty => ha₁.leftover.not_type ht ty
  obtain ⟨-, rfl⟩ := (run_tables_iff hfree).1 htables
  rw [(run_copy_contents hcopy).1]
  exact schema_withTables src.catalog.tables_nodup ht

section Completes

variable {cfg : ReplicaConfig} {batches : src.Batches} {consistentPoint : Lsn} {w u : Setting}

/-- **The first run** leaves the tables of the catalog, with the rows of the upstream and a state
that is stored. -/
theorem Source.Completes.tables (h : src.Completes srv cfg batches consistentPoint w u)
    (hclear : src.Clear) (hinterrupted : src.Interrupted srv w) :
    u.db.loadState = .ok (some (src.state cfg consistentPoint)) ∧
      ∀ t ∈ src.catalog.tables, u.db.schema t.key = some (.table t.full) ∧
        u.db.contents t.key = src.rows t.key := by
  obtain ⟨w', hfinds', hrun⟩ := h
  obtain ⟨a, hfinds, ha, hstate, -⟩ := (hinterrupted.leftover hclear).run_metaStmts hclear
  obtain rfl := Option.some.inj (hfinds.1.symm.trans hfinds'.1)
  obtain ⟨v, hv, hwritten⟩ := run_append_eq_some.1 hrun
  rw [Leftover.run_firstRunStmts ha hclear hstate] at hv
  obtain ⟨a', hload, hfinish⟩ := Option.bind_eq_some_iff.1 hv
  obtain ⟨hrebuilt, hrows, -⟩ := ha.load hclear hstate hload
  obtain ⟨l, -, rfl⟩ := Option.map_eq_some_iff.1 hfinish
  have hstateTable : (withSecurity (some consistentPoint) a' l).db.schema metaKey =
      some (.table metaTable) := hrebuilt.stateTable
  obtain ⟨x, y, hinit, hbump, hloadState, hcontents⟩ := exists_written hstateTable
    (hrebuilt.leftover.contents metaKey hclear.1) (src.state cfg consistentPoint)
    src.security.fingerprint
  obtain ⟨v₁, hv₁, hrest⟩ := run_cons_eq_some.1 hwritten
  rw [Setting.exec, hinit] at hv₁
  obtain rfl := Option.some.inj hv₁
  obtain ⟨v₂, hv₂, hend⟩ := run_cons_eq_some.1 hrest
  rw [Setting.exec, hbump] at hv₂
  obtain rfl := Option.some.inj hv₂
  obtain rfl := Option.some.inj hend
  refine ⟨hloadState, fun t ht => ⟨?_, ?_⟩⟩
  · change y.schema t.key = _
    rw [bumpSecurity_schema hbump, initState_schema hinit]
    exact ha.load_schema hstate hload ht
  · have hne : t.key ≠ metaKey := fun heq => hclear.1 (heq ▸ List.mem_map_of_mem ht)
    exact (hcontents t.key hne).trans (hrows t ht)

/-! ## The stream -/

/-- The stream begins with what `load_state` returned, on the tables that are there. -/
def Convergence.State.resume (tables : SchemaSession.Published) (st : ReplicaState)
    (db : Database) (up : Contents) : Convergence.State where
  session :=
    { upstream := ⟨tables, fun _ => false⟩
      result := .next
        ⟨⟨.ofFingerprint st.fingerprint, fun _ => none, none⟩, db.schema, st.watermark⟩ }
  upstream := up
  replica := db.contents

variable {formatType : UInt32 → Int32 → String} {store : String → String → String}
  {tables : SchemaSession.Published} {up : Contents} {es : List Convergence.Event}
  {σ : Convergence.State}

/-- **From the first run on, the replica follows.** Wherever the attempts before it were
interrupted, the first run that completes stores the consistent point of its slot. A stream that
begins with this state has the upstream's rows in every published table whenever it is drained, in
every run of a faithful upstream whose steps the replica can follow. -/
theorem start_follows (hclear : src.Clear) (hinterrupted : src.Interrupted srv w)
    (completes : src.Completes srv cfg batches consistentPoint w u)
    (legible : src.catalog.toCatalog.Legible)
    (exact : Convergence.Exact src.catalog.toCatalog tables)
    (snapshot : ∀ p ∈ tables.entries, (src.rows p.2.key).Perm (up p.2.key)) :
    ∃ st, u.db.loadState = .ok (some st) ∧ st.slotName = cfg.slotName ∧
      st.publication = cfg.publication ∧ st.watermark = consistentPoint ∧
      (Guarded (Convergence.step formatType store) Convergence.Faithful
          (.resume tables st u.db up) es →
        Guarded (Convergence.step formatType store) (Convergence.Followed store)
          (.resume tables st u.db up) es →
        run (Convergence.step formatType store) (.resume tables st u.db up) es = some σ →
        σ.Converged) := by
  obtain ⟨hloadState, htables⟩ := completes.tables hclear hinterrupted
  refine ⟨_, hloadState, rfl, rfl, rfl, fun faithful followed hrun => ?_⟩
  have hstart : Convergence.Converging store
      (.resume tables (src.state cfg consistentPoint) u.db up) := by
    refine Convergence.start_converging legible exact (fun t ht => ?_) fun p hp => ?_
    · refine ⟨t.full, (htables t ht).1, ?_⟩
      rw [columnNames_full]
      exact List.Subset.refl _
    · obtain ⟨t, ht, hkey, -⟩ := exact.listed p hp
      have hsnapshot := snapshot p hp
      rw [← hkey] at hsnapshot ⊢
      rwa [(htables t ht).2]
  have hconverging := run_invariant
    (fun _ _ _ h hok hstep => Convergence.step_converging h hok hstep) hstart
    (faithful.and followed) hrun
  intro x hx hnone
  exact (hconverging x hx).2.rows_of_none hnone

end Completes

/-! ## The notes -/

/-- The relation of the notes. -/
def notesRel : SchemaSession.Published :=
  AList.singleton 1 ⟨"public", "notes", [⟨1, "id", 23, -1⟩, ⟨0, "mood", 16400, -1⟩]⟩

/-- The contents with these notes. -/
def notes (rows : List (List (String × String))) : Contents :=
  fun k => if k = ("public", "notes") then
    rows.map fun r => setAll ∅ (r.map fun p => (p.1, some p.2))
  else []

/-- Another note, after the first run. -/
def addingNote : List Convergence.Event :=
  [⟨.begin 0 0 7, notes [[("id", "7")]]⟩, ⟨.relation 1 0x64, notes [[("id", "7")]]⟩,
    ⟨.row (.insert 1 [.text "8", .text "busy"]),
      notes [[("id", "7")], [("id", "8"), ("mood", "busy")]]⟩,
    ⟨.commit 16 24 0, notes [[("id", "7")], [("id", "8"), ("mood", "busy")]]⟩]

def notesConfig : ReplicaConfig where
  slotName := "pglite"
  publication := "notes"

/-- The first attempt dies before it has stored its state. The second one completes. -/
theorem start_follows_notes : ∃ w u st σ, notesSource.Interrupted plainServer w ∧
    notesSource.Completes plainServer notesConfig (oneBatch notesSource) 16 w u ∧
    u.db.loadState = .ok (some st) ∧
    run (Convergence.step (fun _ _ => "text") fun _ v => v)
      (.resume notesRel st u.db (notes [[("id", "7")]])) addingNote = some σ ∧ σ.Converged := by
  let follows (u : Setting) : Option Bool :=
    let s : Convergence.State :=
      .resume notesRel (notesSource.state notesConfig 16) u.db (notes [[("id", "7")]])
    (run (Convergence.step (fun _ _ => "text") fun _ v => v) s addingNote).map fun _ =>
      decide (Guarded (Convergence.step (fun _ _ => "text") fun _ v => v) Convergence.Faithful s
          addingNote ∧
        Guarded (Convergence.step (fun _ _ => "text") fun _ v => v)
          (Convergence.Followed fun _ v => v) s addingNote)
  have hall : ((run (Setting.exec plainServer) ⟨none, .empty plainServer.builtinRoles⟩ Source.metaStmts).bind fun v =>
      (run (Setting.exec plainServer) v
        (notesSource.loadStmts (oneBatch notesSource) 8 v)).bind fun w =>
          (run (Setting.exec plainServer) w Source.metaStmts).bind fun w' =>
            (run (Setting.exec plainServer) w'
              (notesSource.firstRunStmts plainServer (oneBatch notesSource) 16 w' ++
                [.initState (notesSource.state notesConfig 16),
                  .bumpSecurity notesSource.security.fingerprint])).map fun u =>
                    (decide (v.db.loadState = .ok none), decide (w'.db.loadState = .ok none),
                      follows u)) = some (true, true, some true) := by
    decide +kernel
  obtain ⟨v, hv, hall⟩ := Option.bind_eq_some_iff.1 hall
  obtain ⟨w, hw, hall⟩ := Option.bind_eq_some_iff.1 hall
  obtain ⟨w', hw', hall⟩ := Option.bind_eq_some_iff.1 hall
  obtain ⟨u, hu, hall⟩ := Option.map_eq_some_iff.1 hall
  obtain ⟨hfirst, hall⟩ := Prod.mk.inj hall
  obtain ⟨hsecond, hfollows⟩ := Prod.mk.inj hall
  obtain ⟨σ, hσ, hguarded⟩ := Option.map_eq_some_iff.1 hfollows
  obtain ⟨hfaithful, hfollowed⟩ := of_decide_eq_true hguarded
  have hinterrupted : notesSource.Interrupted plainServer w :=
    .running (oneBatch notesSource) 8 (.empty none) ⟨hv, of_decide_eq_true hfirst⟩
      (List.prefix_append _ _) hw
  have hcompletes : notesSource.Completes plainServer notesConfig (oneBatch notesSource) 16 w u :=
    ⟨w', ⟨hw', of_decide_eq_true hsecond⟩, hu⟩
  obtain ⟨hstate, -⟩ := hcompletes.tables clear_notes hinterrupted
  have hexact : Convergence.Exact notesSource.catalog.toCatalog notesRel := by decide +kernel
  have hsnapshot : ∀ p ∈ notesRel.entries,
      (notesSource.rows p.2.key).Perm (notes [[("id", "7")]] p.2.key) := by decide +kernel
  obtain ⟨st, hst, -, -, -, hconverged⟩ := start_follows clear_notes hinterrupted hcompletes
    (by decide +kernel) hexact hsnapshot
  obtain rfl := Option.some.inj (Except.ok.inj (hstate.symm.trans hst))
  exact ⟨w, u, _, σ, hinterrupted, hcompletes, hst, hσ, hconverged hfaithful hfollowed hσ⟩

end Pglite.Replica
