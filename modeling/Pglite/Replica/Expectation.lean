import Pglite.Replica.ExactlyOnce
import Pglite.Replica.FingerprintProof

/-!
# The expected schema

Within a session the `expected` map and the stored fingerprint change together, and a restart
reads the stored fingerprint. But `run` hands every session the fingerprint that its thread
started with, so after a schema change has been stored the next session of the same run judges the
stream by the schema before it (`session_forgets_schema`).

**The record.** Beside a run stand the fingerprints that were stored since its thread started
(`World.record`). What the thread was given is the first of them (`Remembers`), and what is stored
is the last.

`expectation_kept`: the map holds exactly the stored lines after every step, and denotes the
stored fingerprint when a session starts, in a run in which no session starts after a schema change
was stored in its thread, unless the changes cancel out (`startsUnchanged`), and every fingerprint
that is stored can be read back (`storesReadable`).
-/

namespace Pglite.Replica

open Runs Text

variable {cfg : ReplicaConfig} {H : History} {es : List Event} {σ τ : World} {s : Stream}

/-! ## Conditions on a step -/

/-- The session of a phase. -/
def Phase.stream? : Phase → Option Stream
  | .streaming s => some s
  | .applying s _ _ => some s
  | _ => none

/-- The line that an added column puts in the place of the expected one. -/
def Stream.addedLine (s : Stream) (ns name : String) (columns : List RelColumn) :
    Option String :=
  let newCols := columns.map fun c => (c.name, c.typeOid)
  let line := fingerprintLine ns name newCols
  match s.expected.lookup (ns, name) with
  | some want =>
    if want = line then none
    else
      match classifySchemaChange want newCols with
      | .additive _ => some line
      | .incompatible _ => none
  | none => none

/-- A statement that stores a fingerprint takes effect, whatever it returns. -/
def Outcome.takesEffect : Outcome → Bool
  | .failed _ => false
  | _ => true

/-- The fingerprint that a message gives to `update_fingerprint`: that of an added column, which the
local table has taken, or of a schema that is introspected again and has changed. -/
def Stream.updates (s : Stream) (a : Answers) : PgOutputMsg → Option String
  | .relation _ ns name _ columns =>
    let newCols := columns.map fun c => (c.name, c.typeOid)
    let line := fingerprintLine ns name newCols
    match s.expected.lookup (ns, name) with
    | some want =>
      if want = line then none
      else
        match classifySchemaChange want newCols with
        | .additive oldCount =>
          match World.applyAddedColumns (columns.drop oldCount) a with
          | .ok () => some (Expected.toFingerprint (AList.insert (ns, name) line s.expected))
          | .error _ => none
        | .incompatible _ => none
    | none => none
  | .message msgPrefix _ =>
    match a.schemaDelta with
    | .ok tables =>
      if msgPrefix = ddlSignalPrefix ∧
        sorted (lines (fingerprint tables)) ≠ sorted s.expected.values then some (fingerprint tables)
      else none
    | .error _ => none
  | _ => none

/-- The fingerprint that a message stores. -/
def Stream.stores (s : Stream) (a : Answers) (m : PgOutputMsg) : Option String :=
  if a.updateFingerprint.takesEffect then s.updates a m else none

/-- The fingerprint that an event of a session stores. -/
def World.stores (σ : World) : Event → Option String
  | .deliver (.other m) a => σ.phase.stream?.bind fun s => s.stores a m
  | _ => none

/-- The fingerprints that are stored, from the start of the thread on: first the one that is there,
or that a first run stores. -/
def World.record (σ : World) (e : Event) (stored : List String) : List String :=
  match e with
  | .start _ tables => [(σ.db.row.map ReplicaRow.fingerprint).getD (fingerprint tables)]
  | e => stored ++ (σ.stores e).toList

/-- A session starts where nothing has been stored since the thread started, or the last one that
was stored has the lines of the first. -/
def startsUnchanged (stored : List String) : Event → Bool
  | .openStream =>
    match stored with
    | [] | [_] => true
    | first :: fp :: later => decide (SameLines first ((fp :: later).getLastD fp))
  | _ => true

/-- The fingerprint that a message makes the session store can be read back: the line of an added
column has no line break, and a schema that is introspected again has a readable fingerprint. -/
def Stream.storesReadable (s : Stream) (a : Answers) : PgOutputMsg → Bool
  | .relation _ ns name _ columns =>
    (s.addedLine ns name columns).all fun line => decide (Unbroken line)
  | .message msgPrefix _ =>
    match a.schemaDelta with
    | .ok tables =>
      decide (msgPrefix ≠ ddlSignalPrefix) ||
        decide (sorted (lines (fingerprint tables)) = sorted s.expected.values) ||
        decide (Readable (fingerprint tables))
    | .error _ => true
  | _ => true

/-- A fingerprint that is stored can be read back, on a first run and in a session. -/
def World.storesReadable (σ : World) : Event → Bool
  | .start _ tables => σ.db.row.isSome || decide (Readable (fingerprint tables))
  | .deliver (.other m) a => σ.phase.stream?.all fun s => s.storesReadable a m
  | _ => true

/-! ## The invariant -/

/-- The stored fingerprint can be read back. -/
def StoredReadable (db : Db) : Prop :=
  ∀ row, db.row = some row → Readable row.fingerprint

/-- The session expects what is stored. -/
def Expects (db : Db) (m : Expected) : Prop :=
  m.Keyed ∧ ∃ row, db.row = some row ∧ Mirrors m row.fingerprint

/-- The stored fingerprint can be read back, and a session expects what is stored. -/
structure Current (σ : World) : Prop where
  readable : StoredReadable σ.db
  expects : ∀ s, σ.phase.stream? = some s → Expects σ.db s.expected

theorem Current.sessionFails (h : StoredReadable σ.db) (e : Error) :
    Current (σ.sessionFails e) := by
  unfold World.sessionFails
  split
  · exact ⟨h, nofun⟩
  · exact ⟨h, nofun⟩

theorem Current.stream (h : StoredReadable σ.db) (hs : Expects σ.db s.expected) :
    Current (σ.goto (.streaming s)) := by
  refine ⟨h, fun s' hs' => ?_⟩
  obtain rfl := Option.some.inj hs'
  exact hs

/-- Storing a fingerprint that can be read back. -/
theorem storedReadable_store {fp : String} {o : Outcome} {r : Except Error Unit}
    (h : StoredReadable σ.db) (hfp : Readable fp) (hstore : σ.storeFingerprint fp o = (τ, r)) :
    StoredReadable τ.db := by
  have hnew : StoredReadable (σ.db.updateFingerprint fp) := by
    intro row hrow
    obtain ⟨row', -, rfl⟩ := Option.map_eq_some_iff.1 hrow
    exact hfp
  cases o <;> obtain ⟨rfl, -⟩ := Prod.mk.inj hstore
  · exact hnew
  · exact h
  · exact hnew

/-- A fingerprint that has been stored is what a map with its lines expects. -/
theorem expects_store {fp : String} {o : Outcome} {m m' : Expected} (h : Expects σ.db m)
    (hstore : σ.storeFingerprint fp o = (τ, .ok ())) (hkeyed : m'.Keyed)
    (hmirrors : Mirrors m' fp) : Expects τ.db m' := by
  obtain ⟨-, row, hrow, -⟩ := h
  cases o with
  | done =>
    obtain ⟨rfl, -⟩ := Prod.mk.inj hstore
    refine ⟨hkeyed, { row with fingerprint := fp }, ?_, hmirrors⟩
    simp [Db.updateFingerprint, hrow]
  | failed e => cases (Prod.mk.inj hstore).2
  | lost e => cases (Prod.mk.inj hstore).2

/-! ## Messages that change the schema -/

/-- The lines of a map that mirrors a readable fingerprint can be joined. -/
theorem Expects.unbroken (h : Expects σ.db s.expected) (hread : StoredReadable σ.db) :
    ∀ l ∈ s.expected.values, Unbroken l := by
  obtain ⟨-, row, hrow, hmirrors⟩ := h
  exact fun l hl => (hread row hrow).unbroken ((hmirrors l).1 hl)

/-- A column is added: the new line is filed where the old one was. -/
theorem keyed_addColumn {ns name want : String} (h : s.expected.Keyed)
    (hwant : s.expected.lookup (ns, name) = some want) (cols : List (String × UInt32)) :
    Expected.Keyed (AList.insert (ns, name) (fingerprintLine ns name cols) s.expected) := by
  obtain ⟨hns, hname⟩ := lineKey_eq_some (h _ _ hwant)
  exact h.insert (lineKey_fingerprintLine hns hname cols)

theorem unbroken_insert {m : Expected} {line : String} (h : ∀ l ∈ m.values, Unbroken l)
    (hline : Unbroken line) (key : String × String) :
    ∀ l ∈ Expected.values (AList.insert key line m), Unbroken l := by
  intro l hl
  obtain ⟨key', hl⟩ := Expected.mem_values.1 hl
  by_cases heq : key' = key
  · subst heq
    rw [AList.lookup_insert] at hl
    rwa [← Option.some.inj hl]
  · rw [AList.lookup_insert_ne heq] at hl
    exact h l (Expected.mem_values.2 ⟨key', hl⟩)

theorem onRelation_current {a : Answers} {relId : UInt32} {ns name : String}
    {columns : List RelColumn} (hread : StoredReadable σ.db) (hs : Expects σ.db s.expected)
    (hline : ∀ line, s.addedLine ns name columns = some line → Unbroken line) :
    Current (σ.onRelation s a relId ns name columns) := by
  unfold World.onRelation
  dsimp only
  split
  · rename_i want hwant
    split
    · exact .stream hread hs
    · rename_i hne
      split
      · rename_i oldCount hadditive
        have hnew : Unbroken (fingerprintLine ns name (columns.map fun c => (c.name, c.typeOid))) :=
          hline _ (by simp [Stream.addedLine, hwant, hne, hadditive])
        have hkeyed := keyed_addColumn hs.1 hwant (columns.map fun c => (c.name, c.typeOid))
        have hunbroken := unbroken_insert (hs.unbroken hread) hnew (ns, name)
        have hreadable := readable_toFingerprint hkeyed hunbroken
        split
        · exact .sessionFails hread _
        · split
          · rename_i hstore
            exact .sessionFails (storedReadable_store hread hreadable hstore) _
          · rename_i hstore
            exact .stream (storedReadable_store hread hreadable hstore)
              (expects_store hs hstore hkeyed (mirrors_toFingerprint hunbroken))
      · exact .sessionFails hread _
  · exact .sessionFails hread _

/-- The schema is introspected again: nothing has changed, or the map is built anew from what is
stored. -/
theorem resyncSchema_current {a : Answers} {τ : World} {r : Except Error Stream}
    (hread : StoredReadable σ.db) (hs : Expects σ.db s.expected)
    (hfp : ∀ tables, a.schemaDelta = .ok tables →
      sorted (lines (fingerprint tables)) ≠ sorted s.expected.values →
      Readable (fingerprint tables))
    (hresync : σ.resyncSchema s a = (τ, r)) :
    StoredReadable τ.db ∧ ∀ s', r = .ok s' → Expects τ.db s'.expected := by
  unfold World.resyncSchema at hresync
  split at hresync
  · obtain ⟨rfl, rfl⟩ := Prod.mk.inj hresync
    exact ⟨hread, nofun⟩
  · rename_i tables htables
    dsimp only at hresync
    split at hresync
    · obtain ⟨rfl, rfl⟩ := Prod.mk.inj hresync
      refine ⟨hread, fun s' hs' => ?_⟩
      obtain rfl := Except.ok.inj hs'
      exact hs
    · rename_i hne
      have hreadable := hfp tables htables hne
      split at hresync
      · rename_i hstore
        obtain ⟨rfl, rfl⟩ := Prod.mk.inj hresync
        exact ⟨storedReadable_store hread hreadable hstore, nofun⟩
      · rename_i hstore
        obtain ⟨rfl, rfl⟩ := Prod.mk.inj hresync
        refine ⟨storedReadable_store hread hreadable hstore, fun s' hs' => ?_⟩
        obtain rfl := Except.ok.inj hs'
        exact expects_store hs hstore (Expected.keyed_ofFingerprint _) hreadable.mirrors

theorem onSignal_current {a : Answers} {msgPrefix : String} (hread : StoredReadable σ.db)
    (hs : Expects σ.db s.expected)
    (hfp : msgPrefix = ddlSignalPrefix → ∀ tables, a.schemaDelta = .ok tables →
      sorted (lines (fingerprint tables)) ≠ sorted s.expected.values →
      Readable (fingerprint tables)) :
    Current (σ.onSignal s a msgPrefix) := by
  unfold World.onSignal
  split
  · rename_i hprefix
    split
    · rename_i hresync
      exact .sessionFails (resyncSchema_current hread hs (hfp hprefix) hresync).1 _
    · rename_i hresync
      obtain ⟨hread', hs'⟩ := resyncSchema_current hread hs (hfp hprefix) hresync
      split
      · exact .sessionFails hread' _
      · exact .stream hread' (hs' _ rfl)
  · exact .stream hread hs

theorem onCommit_current {commitLsn endLsn : Lsn} {commitTs : Int64}
    (hread : StoredReadable σ.db) (hs : Expects σ.db s.expected) :
    Current (σ.onCommit s commitLsn endLsn commitTs) := by
  unfold World.onCommit
  split
  · exact .sessionFails hread _
  · dsimp only
    split
    · exact .stream hread hs
    · split
      · exact .stream hread hs
      · refine ⟨hread, fun s' hs' => ?_⟩
        obtain rfl := Option.some.inj hs'
        exact hs

/-- A message leaves the session with the lines that are stored. -/
theorem onMessage_current {a : Answers} {m : PgOutputMsg} (hread : StoredReadable σ.db)
    (hs : Expects σ.db s.expected) (hm : s.storesReadable a m = true) :
    Current (σ.onMessage s a m) := by
  have hrow : m.isRow = true → Current (σ.onMessage s a m) := by
    intro hrow
    rw [onMessage_row _ _ _ hrow]
    cases hon : s.onRow m with
    | error e => exact .sessionFails hread e
    | ok s' =>
      obtain ⟨buf, stmt, changes, -, -, rfl⟩ := Stream.onRow_eq_ok hrow hon
      exact .stream hread hs
  cases m with
  | begin finalLsn commitTs xid => exact .stream hread hs
  | relation relId ns name replicaIdentity columns =>
    refine onRelation_current hread hs fun line hline => ?_
    simpa [Stream.storesReadable, hline] using hm
  | commit commitLsn endLsn commitTs => exact onCommit_current hread hs
  | message msgPrefix content =>
    refine onSignal_current hread hs fun hprefix tables htables hne => ?_
    simpa [Stream.storesReadable, htables, hprefix, hne] using hm
  | other => exact .stream hread hs
  | insert relId new => exact hrow rfl
  | update relId key old new => exact hrow rfl
  | delete relId key old => exact hrow rfl
  | truncate relIds => exact hrow rfl

/-! ## One step of a session -/

/-- The stored lines are those before. -/
theorem Current.of_eq (h : Current σ) (hdb : τ.db = σ.db)
    (hstream : ∀ s, τ.phase.stream? = some s → σ.phase.stream? = some s) : Current τ := by
  refine ⟨hdb ▸ h.readable, fun s hs => ?_⟩
  rw [hdb]
  exact h.expects s (hstream s hs)

/-- Where there is no session there is nothing to keep. -/
theorem Current.rest (h : Current σ) (hdb : τ.db = σ.db) (hstream : τ.phase.stream? = none) :
    Current τ := by
  refine h.of_eq hdb fun s hs => ?_
  rw [hstream] at hs
  cases hs

/-- A commit changes only the stored watermark. -/
theorem Current.commit (h : Current σ) {p : Pending} (hphase : σ.phase = .applying s p false) :
    Current { σ with db := σ.db.commit p.buf.stmts p.endLsn, phase := .applying s p true } := by
  refine ⟨fun row hrow => ?_, fun s' hs' => ?_⟩
  · obtain ⟨row', hrow', rfl⟩ := Option.map_eq_some_iff.1 hrow
    exact h.readable row' hrow'
  · obtain rfl := Option.some.inj hs'
    obtain ⟨hkeyed, row, hrow, hmirrors⟩ := h.expects s (by rw [hphase]; rfl)
    exact ⟨hkeyed, { row with watermarkLsn := p.endLsn.toPgStr }, by simp [Db.commit, hrow],
      hmirrors⟩

/-- A session starts with the lines that are stored. -/
theorem Current.openStream (h : Current σ) {row : ReplicaRow} (hrow : σ.db.row = some row)
    (hsame : SameLines σ.mem.fingerprint row.fingerprint) : Current σ.openStream := by
  have hreadable := h.readable row hrow
  refine ⟨h.readable, fun s hs => ?_⟩
  obtain rfl := Option.some.inj hs
  refine ⟨Expected.keyed_ofFingerprint _, row, hrow, fun l => ?_⟩
  rw [← hsame.mem_iff]
  exact (hreadable.of_sameLines hsame).mirrors l

/-- The replica starts with no session, and a first run stores a fingerprint that can be read. -/
theorem Current.start (h : Current σ) {cp start : Lsn} {tables : List TableDef} {fp : String}
    (hok : σ.storesReadable (.start cp tables) = true)
    (hprepare : σ.prepare cfg cp tables = .ok (τ, start, fp)) :
    Current { τ with mem := .boot start fp, phase := .connected } := by
  rcases prepare_cases hprepare with ⟨hrow, -, rfl, rfl⟩ | ⟨row, -, -, -, rfl⟩
  · refine ⟨fun row hrow' => ?_, nofun⟩
    obtain rfl := Option.some.inj hrow'
    simpa [World.storesReadable, hrow] using hok
  · exact ⟨h.readable, nofun⟩

/-- A message that can change the schema. -/
def PgOutputMsg.isSchema : PgOutputMsg → Bool
  | .relation _ _ _ _ _ | .message _ _ => true
  | _ => false

/-- What the feed sends of a transaction changes no schema. -/
theorem deliver_cases {d : Delivery} {m : PgOutputMsg} {f : Feed} (hw : WellFormed σ)
    (hdeliver : σ.feed.deliver H d = some (m, f)) :
    d = .other m ∨ (∀ m', d ≠ .other m') ∧ m.isSchema = false := by
  cases d with
  | begin t =>
    simp only [Feed.deliver, Option.ite_none_right_eq_some, Option.some.injEq,
      Prod.mk.injEq] at hdeliver
    obtain ⟨-, rfl, -⟩ := hdeliver
    exact .inr ⟨by simp, rfl⟩
  | next =>
    unfold Feed.deliver at hdeliver
    dsimp only at hdeliver
    split at hdeliver
    · cases hdeliver
    · obtain ⟨rfl, -⟩ := Prod.mk.inj (Option.some.inj hdeliver)
      exact .inr ⟨by simp, rfl⟩
    · rename_i t row rest hsending
      obtain ⟨rfl, -⟩ := Prod.mk.inj (Option.some.inj hdeliver)
      have hrow : row.isRow = true := hw.rows t _ hsending row List.mem_cons_self
      refine .inr ⟨by simp, ?_⟩
      cases row with
      | relation | message => cases hrow
      | _ => rfl
  | other m' =>
    simp only [Feed.deliver, Option.ite_none_right_eq_some, Option.some.injEq,
      Prod.mk.injEq] at hdeliver
    obtain ⟨-, rfl, -⟩ := hdeliver
    exact .inl rfl

theorem storesReadable_deliver {d : Delivery} {a : Answers} {m : PgOutputMsg} {f : Feed}
    (hw : WellFormed σ) (hphase : σ.phase = .streaming s)
    (hok : σ.storesReadable (.deliver d a) = true) (hdeliver : σ.feed.deliver H d = some (m, f)) :
    s.storesReadable a m = true := by
  rcases deliver_cases hw hdeliver with rfl | ⟨-, hm⟩
  · simpa [World.storesReadable, hphase, Phase.stream?] using hok
  · cases m with
    | relation | message => cases hm
    | _ => rfl

/-! ## The record -/

/-- What a step does to the two fingerprints: the thread's stays, and one may be stored. -/
structure Writes (σ τ : World) (fp : Option String) : Prop where
  given : τ.mem.fingerprint = σ.mem.fingerprint
  stored : τ.db.row.map ReplicaRow.fingerprint = fp.or (σ.db.row.map ReplicaRow.fingerprint)

theorem Writes.nothing (hmem : τ.mem.fingerprint = σ.mem.fingerprint) (hdb : τ.db = σ.db) :
    Writes σ τ none :=
  ⟨hmem, by rw [hdb]; rfl⟩

theorem Writes.sessionFails {fp : Option String} (h : Writes σ τ fp) (e : Error) :
    Writes σ (τ.sessionFails e) fp := by
  unfold World.sessionFails World.halt
  split
  · split <;> exact ⟨h.given, h.stored⟩
  · exact ⟨h.given, h.stored⟩

theorem Writes.goto {fp : Option String} (h : Writes σ τ fp) (ph : Phase) :
    Writes σ (τ.goto ph) fp :=
  ⟨h.given, h.stored⟩

theorem writes_store {fp : String} {o : Outcome} {r : Except Error Unit}
    (hrow : σ.db.row.isSome = true) (hstore : σ.storeFingerprint fp o = (τ, r)) :
    Writes σ τ (if o.takesEffect then some fp else none) := by
  obtain ⟨row, hrow⟩ := Option.isSome_iff_exists.1 hrow
  cases o <;> obtain ⟨rfl, -⟩ := Prod.mk.inj hstore
  all_goals exact ⟨rfl, by simp [Outcome.takesEffect, Db.updateFingerprint, hrow]⟩

theorem onRelation_writes (hrow : σ.db.row.isSome = true) (a : Answers) (relId : UInt32)
    (ns name : String) (identity : UInt8) (columns : List RelColumn) :
    Writes σ (σ.onRelation s a relId ns name columns)
      (s.stores a (.relation relId ns name identity columns)) := by
  -- Where nothing is given to `update_fingerprint`, nothing is stored.
  have hnone : s.updates a (.relation relId ns name identity columns) = none →
      s.stores a (.relation relId ns name identity columns) = none := by
    intro h
    rw [Stream.stores, h]
    split <;> rfl
  have hfails := fun e => (Writes.nothing (σ := σ) rfl rfl).sessionFails e
  unfold World.onRelation
  dsimp only
  cases hwant : s.expected.lookup (ns, name) with
  | none =>
    rw [hnone (by simp [Stream.updates, hwant])]
    exact hfails _
  | some want =>
    dsimp only
    split
    · next hsame =>
      rw [hnone (by simp [Stream.updates, hwant, hsame])]
      exact .nothing rfl rfl
    · next hne =>
      cases hchange : classifySchemaChange want (columns.map fun c => (c.name, c.typeOid)) with
      | incompatible reason =>
        rw [hnone (by simp [Stream.updates, hwant, hne, hchange])]
        exact hfails _
      | additive oldCount =>
        dsimp only
        cases hadded : World.applyAddedColumns (columns.drop oldCount) a with
        | error e =>
          rw [hnone (by simp [Stream.updates, hwant, hne, hchange, hadded])]
          exact hfails _
        | ok =>
          have hstores : s.stores a (.relation relId ns name identity columns) =
              if a.updateFingerprint.takesEffect then
                some (Expected.toFingerprint (AList.insert (ns, name)
                  (fingerprintLine ns name (columns.map fun c => (c.name, c.typeOid))) s.expected))
              else none := by
            simp [Stream.stores, Stream.updates, hwant, hne, hchange, hadded]
          rw [hstores]
          dsimp only
          split
          · next hstore => exact (writes_store hrow hstore).sessionFails _
          · next hstore => exact (writes_store hrow hstore).goto _

theorem resyncSchema_writes (hrow : σ.db.row.isSome = true) {a : Answers} (content : List UInt8)
    {r : Except Error Stream} (hresync : σ.resyncSchema s a = (τ, r)) :
    Writes σ τ (s.stores a (.message ddlSignalPrefix content)) := by
  unfold World.resyncSchema at hresync
  split at hresync
  · next e hdelta =>
    obtain ⟨rfl, -⟩ := Prod.mk.inj hresync
    have hnone : s.stores a (.message ddlSignalPrefix content) = none := by
      simp [Stream.stores, Stream.updates, hdelta]
    rw [hnone]
    exact .nothing rfl rfl
  · next tables hdelta =>
    dsimp only at hresync
    split at hresync
    · next hsame =>
      obtain ⟨rfl, -⟩ := Prod.mk.inj hresync
      have hnone : s.stores a (.message ddlSignalPrefix content) = none := by
        simp [Stream.stores, Stream.updates, hdelta, hsame]
      rw [hnone]
      exact .nothing rfl rfl
    · next hne =>
      have hstores : s.stores a (.message ddlSignalPrefix content) =
          if a.updateFingerprint.takesEffect then some (fingerprint tables) else none := by
        simp [Stream.stores, Stream.updates, hdelta, hne]
      rw [hstores]
      split at hresync
      all_goals
        next hstore =>
          obtain ⟨rfl, -⟩ := Prod.mk.inj hresync
          exact writes_store hrow hstore

theorem onSignal_writes (hrow : σ.db.row.isSome = true) (a : Answers) (msgPrefix : String)
    (content : List UInt8) :
    Writes σ (σ.onSignal s a msgPrefix) (s.stores a (.message msgPrefix content)) := by
  unfold World.onSignal
  by_cases hddl : msgPrefix = ddlSignalPrefix
  · subst hddl
    rw [if_pos rfl]
    cases hresync : σ.resyncSchema s a with
    | mk τ r =>
      have hwrites := resyncSchema_writes hrow content hresync
      cases r with
      | error e => exact hwrites.sessionFails e
      | ok s' =>
        dsimp only
        split
        · exact hwrites.sessionFails _
        · exact hwrites.goto _
  · rw [if_neg hddl]
    have hnone : s.stores a (.message msgPrefix content) = none := by
      simp only [Stream.stores, Stream.updates, hddl, false_and, if_false]
      split
      · split <;> rfl
      · rfl
    rw [hnone]
    exact .nothing rfl rfl

theorem onCommit_writes (commitLsn endLsn : Lsn) (commitTs : Int64) :
    Writes σ (σ.onCommit s commitLsn endLsn commitTs) none := by
  unfold World.onCommit
  cases s.txn with
  | none => exact (Writes.nothing rfl rfl).sessionFails _
  | some buf =>
    dsimp only
    split_ifs <;> exact .nothing rfl rfl

/-- A message stores what it is said to store. -/
theorem onMessage_writes (hrow : σ.db.row.isSome = true) (a : Answers) (m : PgOutputMsg) :
    Writes σ (σ.onMessage s a m) (s.stores a m) := by
  have hquiet : m.isRow = true → Writes σ (σ.onMessage s a m) none := by
    intro hm
    rw [onMessage_row _ _ _ hm]
    cases s.onRow m with
    | error e => exact (Writes.nothing rfl rfl).sessionFails _
    | ok s' => exact .nothing rfl rfl
  -- Only two kinds of messages have something to store.
  have hnone : ∀ {m}, s.updates a m = none → s.stores a m = none := by
    intro m h
    rw [Stream.stores, h]
    split <;> rfl
  cases m with
  | begin | other =>
    rw [hnone rfl]
    exact .nothing rfl rfl
  | relation => exact onRelation_writes hrow a _ _ _ _ _
  | commit =>
    rw [hnone rfl]
    exact onCommit_writes _ _ _
  | message => exact onSignal_writes hrow a _ _
  | insert | update | delete | truncate =>
    rw [hnone rfl]
    exact hquiet rfl

theorem stores_eq_none {a : Answers} {m : PgOutputMsg} (hm : m.isSchema = false) :
    s.stores a m = none := by
  cases m with
  | relation | message => cases hm
  | _ => exact ite_self _

theorem stores_deliver {d : Delivery} {a : Answers} {m : PgOutputMsg} {f : Feed}
    (hw : WellFormed σ) (hphase : σ.phase = .streaming s)
    (hdeliver : σ.feed.deliver H d = some (m, f)) : s.stores a m = σ.stores (.deliver d a) := by
  rcases deliver_cases hw hdeliver with rfl | ⟨hother, hm⟩
  · simp [World.stores, hphase, Phase.stream?]
  · rw [stores_eq_none hm]
    cases d with
    | begin | next => rfl
    | other m' => exact absurd rfl (hother m')

/-- While a thread runs, a step stores what it is said to store. -/
theorem Steps.writes {e : Event} (hw : WellFormed σ) (hlive : σ.phase.isDown = false)
    (h : Steps cfg H σ e τ) : Writes σ τ (σ.stores e) := by
  cases h with
  | startFails hphase | start hphase =>
    rw [hphase] at hlive
    cases hlive
  | connect | connectAgain | openStream | status | subscribe | dropReceiver | stop | quit | crash =>
    exact .nothing rfl rfl
  | @connectFails e _ hfatal =>
    have hhalt : σ.sessionFails e = σ.halt e := if_pos hfatal
    rw [← hhalt]
    exact (Writes.nothing rfl rfl).sessionFails e
  | readFails | fails | applyFails => exact (Writes.nothing rfl rfl).sessionFails _
  | keepalive =>
    dsimp only
    split <;> split <;> exact .nothing rfl rfl
  | @deliver s d a m f hphase hdeliver =>
    have hrow := hw.started (by simp [hphase, Phase.stage])
    rw [← stores_deliver hw hphase hdeliver]
    have hrow' : ({ σ with feed := f } : World).db.row.isSome = true := hrow
    have hwrites := onMessage_writes (s := s) hrow' a m
    exact ⟨hwrites.given, hwrites.stored⟩
  | @localCommit s p hphase =>
    obtain ⟨row, hrow⟩ := Option.isSome_iff_exists.1
      (hw.started (by simp [hphase, Phase.stage]))
    exact ⟨rfl, by simp [World.stores, Db.commit, hrow]⟩
  | applied =>
    unfold World.applied
    dsimp only
    split <;> exact .nothing rfl rfl

/-- While a thread runs, what it was given is the first of the record, and what is stored the
last. -/
def Remembers (σ : World) (stored : List String) : Prop :=
  σ.phase.isDown = false → stored.head? = some σ.mem.fingerprint ∧
    stored.getLast? = σ.db.row.map ReplicaRow.fingerprint

theorem remembers_step {e : Event} {stored : List String} (h : Remembers σ stored)
    (hw : WellFormed σ) (hstep : step cfg H σ e = some τ) :
    Remembers τ (σ.record e stored) := by
  have hsteps := steps_of_step hstep
  cases hdown : σ.phase.isDown with
  | false =>
    have hwrites := hsteps.writes hw hdown
    obtain ⟨hfirst, hlast⟩ := h hdown
    have hrecord : σ.record e stored = stored ++ (σ.stores e).toList := by
      cases hsteps with
      | startFails hphase | start hphase =>
        rw [hphase] at hdown
        cases hdown
      | _ => rfl
    rw [hrecord]
    refine fun _ => ⟨?_, ?_⟩
    · rw [List.head?_append, hfirst, hwrites.given]
      rfl
    · rw [hwrites.stored, ← hlast]
      cases σ.stores e with
      | none => simp
      | some fp => simp
  | true =>
    cases hsteps with
    | startFails hphase => exact fun hlive => by simp [hdown] at hlive
    | start hphase hprepare =>
      rcases prepare_cases hprepare with ⟨hrow, -, rfl, rfl⟩ | ⟨row, hrow, -, rfl, rfl⟩
      · simp [Remembers, World.record, hrow, Memory.boot, Db.initState]
      · simp [Remembers, World.record, hrow, Memory.boot]
    | dropReceiver | stop => exact fun hlive => by simp [hdown] at hlive
    | connect hphase | connectFails hphase | connectAgain hphase | openStream hphase
    | status hphase | keepalive hphase | deliver hphase | localCommit hphase | applied hphase
    | applyFails hphase =>
      rw [hphase] at hdown
      cases hdown
    | readFails hphase | fails hphase =>
      cases hσ : σ.phase <;> simp_all [Phase.isDown, Phase.InSession]
    | subscribe hlive | crash hlive => simp [hdown] at hlive
    | quit hphase => cases hσ : σ.phase <;> simp_all [Phase.isDown, Phase.LooksAtDone]

/-- The thread was given the stored lines, if nothing was stored since or it came back to them. -/
theorem Remembers.sameLines {stored : List String} (h : Remembers σ stored)
    (hlive : σ.phase.isDown = false) (hunchanged : startsUnchanged stored .openStream = true)
    {row : ReplicaRow} (hrow : σ.db.row = some row) :
    SameLines σ.mem.fingerprint row.fingerprint := by
  obtain ⟨hfirst, hlast⟩ := h hlive
  rw [hrow, Option.map_some] at hlast
  match stored with
  | [] => cases hfirst
  | [fp] =>
    obtain rfl : fp = σ.mem.fingerprint := Option.some.inj hfirst
    have heq : σ.mem.fingerprint = row.fingerprint := Option.some.inj hlast
    rw [heq]
    exact ⟨fun _ hl => hl, fun _ hl => hl⟩
  | first :: fp :: later =>
    obtain rfl : first = σ.mem.fingerprint := Option.some.inj hfirst
    rw [List.getLast?_cons_cons, List.getLast?_cons, Option.some.injEq] at hlast
    simpa [startsUnchanged, List.getLast?_cons, hlast] using hunchanged

/-! ## Steps -/

theorem Current.step {e : Event} {H : History} (h : Current σ) (hw : WellFormed σ)
    (hsame : e = .openStream → ∀ row, σ.phase.isDown = false → σ.db.row = some row →
      SameLines σ.mem.fingerprint row.fingerprint) (hreadable : σ.storesReadable e = true)
    (hstep : step cfg H σ e = some τ) : Current τ := by
  cases steps_of_step hstep with
  | startFails => exact h
  | start hphase hprepare => exact h.start hreadable hprepare
  | connect => exact h.rest rfl rfl
  | @connectFails e _ hfatal =>
    have hhalt : σ.sessionFails e = σ.halt e := if_pos hfatal
    rw [← hhalt]
    exact .sessionFails h.readable e
  | connectAgain => exact h
  | openStream hphase =>
    obtain ⟨row, hrow⟩ := Option.isSome_iff_exists.1
      (hw.started (by simp [hphase, Phase.stage]))
    exact h.openStream hrow (hsame rfl row (by rw [hphase]; rfl) hrow)
  | readFails => exact .sessionFails h.readable _
  | fails => exact .sessionFails h.readable _
  | status => exact h.of_eq rfl fun _ hs => hs
  | @keepalive s walEnd replyRequested hphase _ =>
    dsimp only
    split <;> split
    all_goals exact h.of_eq rfl fun _ hs => hs
  | @deliver s d a m f hphase hdeliver =>
    have hs : Expects σ.db s.expected := h.expects s (by rw [hphase]; rfl)
    exact onMessage_current (σ := { σ with feed := f }) h.readable hs
      (storesReadable_deliver hw hphase hreadable hdeliver)
  | localCommit hphase => exact h.commit hphase
  | @applied s p hphase =>
    have hs : Expects σ.db s.expected := h.expects s (by rw [hphase]; rfl)
    unfold World.applied
    dsimp only
    split
    · exact .stream h.readable hs
    · exact (Current.stream h.readable hs).of_eq rfl fun _ hs => hs
  | applyFails => exact .sessionFails h.readable _
  | subscribe => exact h.of_eq rfl fun _ hs => hs
  | dropReceiver => exact h.of_eq rfl fun _ hs => hs
  | stop => exact h.of_eq rfl fun _ hs => hs
  | quit => exact h.rest rfl rfl
  | crash => exact h.rest rfl rfl

/-! ## Runs -/

theorem current_blank : Current .blank :=
  ⟨nofun, nofun⟩

/-- The session's map holds exactly the stored lines. -/
def LinesKept (σ : World) : Prop :=
  ∀ s, σ.phase.stream? = some s →
    ∃ row, σ.db.row = some row ∧ Mirrors s.expected row.fingerprint

/-- A session has started, and its map is the one the stored fingerprint denotes. -/
def StartedCurrent (σ : World) : Prop :=
  ∃ s row, σ.phase = .streaming s ∧ σ.db.row = some row ∧
    ∀ key, s.expected.lookup key = (Expected.ofFingerprint row.fingerprint).lookup key

/-- A session that starts with the stored lines has the map they denote. -/
theorem startedCurrent_openStream (h : Current σ) (hw : WellFormed σ)
    (hsame : ∀ row, σ.phase.isDown = false → σ.db.row = some row →
      SameLines σ.mem.fingerprint row.fingerprint)
    (hstep : step cfg H σ .openStream = some τ) : StartedCurrent τ := by
  cases steps_of_step hstep with
  | openStream hphase =>
    obtain ⟨row, hrow⟩ := Option.isSome_iff_exists.1
      (hw.started (by simp [hphase, Phase.stage]))
    refine ⟨_, row, rfl, hrow, (h.readable row hrow).lookup_eq ?_⟩
    exact hsame row (by rw [hphase]; rfl) hrow

/-- The step with the record beside it. -/
abbrev recordedStep (cfg : ReplicaConfig) (H : History) : World × List String → Event →
    Option (World × List String) :=
  recorded (step cfg H) World.record

/-- What holds of a state and its record. -/
structure Tracks (p : World × List String) : Prop where
  wellFormed : WellFormed p.1
  current : Current p.1
  remembers : Remembers p.1 p.2

theorem Tracks.sameLines {p : World × List String} {e : Event} (h : Tracks p)
    (hunchanged : startsUnchanged p.2 e = true) : e = .openStream → ∀ row,
      p.1.phase.isDown = false → p.1.db.row = some row →
      SameLines p.1.mem.fingerprint row.fingerprint := by
  rintro rfl row hlive hrow
  exact h.remembers.sameLines hlive hunchanged hrow

theorem tracks_step (p : World × List String) (e : Event) (p' : World × List String)
    (h : Tracks p) (hok : startsUnchanged p.2 e = true ∧ p.1.storesReadable e = true)
    (hstep : recordedStep cfg H p e = some p') : Tracks p' := by
  obtain ⟨τ, hτ, rfl⟩ := Option.map_eq_some_iff.1 hstep
  exact ⟨h.wellFormed.step hτ, h.current.step h.wellFormed (h.sameLines hok.1) hok.2 hτ,
    remembers_step h.remembers h.wellFormed hτ⟩

theorem tracks_blank : Tracks (.blank, []) :=
  ⟨wellFormed_blank, current_blank, nofun⟩

/-- **Theorem.** After every step of a run the session's map holds exactly the lines stored in
`_pglite_replica`, and when a session starts its map is the one they denote, if no session starts
after its thread has stored another fingerprint, or only after the lines have become the first
again, and every fingerprint stored can be read back. -/
theorem expectation_kept
    (hg : Guarded (recordedStep cfg H)
      (fun p e => startsUnchanged p.2 e = true ∧ p.1.storesReadable e = true) (.blank, []) es)
    (hrun : run (step cfg H) .blank es = some σ) :
    LinesKept σ ∧ ∀ es', es = es' ++ [.openStream] → StartedCurrent σ := by
  obtain ⟨stored, hrecorded⟩ : ∃ stored, run (recordedStep cfg H) (.blank, []) es = some (σ, stored) :=
    run_recorded hrun []
  constructor
  · have htracks := run_invariant tracks_step tracks_blank hg hrecorded
    exact fun s hs => (htracks.current.expects s hs).2
  · rintro es' rfl
    obtain ⟨p, hp, hlast⟩ := run_append_eq_some.1 hrecorded
    obtain ⟨hg', hok⟩ := guarded_append hg hp
    have htracks := run_invariant tracks_step tracks_blank hg' hp
    obtain ⟨p', hstep, hp'⟩ := run_cons_eq_some.1 hlast
    obtain rfl : p' = (σ, stored) := by simpa using hp'
    obtain ⟨τ, hτ, heq⟩ := Option.map_eq_some_iff.1 hstep
    obtain rfl : τ = σ := (Prod.mk.inj heq).1
    exact startedCurrent_openStream htracks.current htracks.wellFormed
      (htracks.sameLines hok.1.1 rfl) hτ

/-- The first run, with a column added in the middle of the session. -/
def addColumn : List Event :=
  firstSession ++ [.deliver (.other (.relation 1 "public" "t" 0
    [⟨1, "id", 23, -1⟩, ⟨0, "x", 25, -1⟩])) .ok]

/-- A column is added, and the thread starts anew: the new session expects it. -/
theorem expectation_kept_restart :
    ∃ σ, run (step sampleConfig sampleHistory) .blank
        (addColumn ++ [.crash, .start 10 [], .openStream]) = some σ ∧
      (∃ row, σ.db.row = some row ∧ row.fingerprint = "public|t|id:23|x:25") ∧
      LinesKept σ ∧ StartedCurrent σ := by
  have hrow : (run (step sampleConfig sampleHistory) .blank
      (addColumn ++ [.crash, .start 10 [], .openStream])).map
        (fun σ => σ.db.row.map ReplicaRow.fingerprint) = some (some "public|t|id:23|x:25") := by
    decide
  obtain ⟨σ, hrun, hσ⟩ := Option.map_eq_some_iff.1 hrow
  obtain ⟨hkept, hstarted⟩ := expectation_kept (by decide) hrun
  exact ⟨σ, hrun, Option.map_eq_some_iff.1 hσ, hkept,
    hstarted (addColumn ++ [.crash, .start 10 []]) rfl⟩

/-- A column is added and stored, and the connection breaks: the new session of the same thread
expects the table without it. -/
theorem session_forgets_schema :
    ¬ ∀ (cfg : ReplicaConfig) (H : History) (es : List Event) (σ : World),
      run (step cfg H) .blank es = some σ →
        LinesKept σ ∧ ∀ es', es = es' ++ [.openStream] → StartedCurrent σ := by
  intro h
  have hlines : (run (step sampleConfig sampleHistory) .blank
      (addColumn ++ [.fails (.io "reset"), .connect (.ok ()), .openStream])).map
        (fun σ => (σ.phase.stream?.map fun s => s.expected.values,
          σ.db.row.map fun row => lines row.fingerprint)) =
      some (some ["public|t|id:23"], some ["public|t|id:23|x:25"]) := by
    decide
  obtain ⟨σ, hrun, hσ⟩ := Option.map_eq_some_iff.1 hlines
  obtain ⟨hvalues, hstored⟩ := Prod.mk.inj hσ
  obtain ⟨s, hs, hexpected⟩ := Option.map_eq_some_iff.1 hvalues
  obtain ⟨row, hrow, hmirrors⟩ := (h _ _ _ σ hrun).1 s hs
  rw [hrow] at hstored
  have hlines : lines row.fingerprint = ["public|t|id:23|x:25"] := Option.some.inj hstored
  have hmem : "public|t|id:23" ∈ lines row.fingerprint :=
    (hmirrors _).1 (by rw [hexpected]; exact List.mem_cons_self)
  rw [hlines] at hmem
  exact absurd hmem (by decide)

end Pglite.Replica
