import Pglite.Replica.LedgerProof

/-!
# The replica refines the ledger

Every step of the replica is, as far as positions go, some moves of the ledger
(`step_refines`): an event that touches none of them is no move, and the start of a session with
its status message is two. So the invariants of the ledger hold of the replica.
-/

namespace Pglite.Replica

open Runs

/-- The stage of a phase. -/
def Phase.stage : Phase → Stage
  | .down => .down
  | .connecting => .idle
  | .connected => .idle
  | .streaming s => .open s.txn
  | .applying _ p committed => .applying p committed
  | .ended => .ended

/-- The stored watermark. -/
def Db.durable (db : Db) : Option Lsn :=
  db.row.bind fun row => (Lsn.fromPgStr row.watermarkLsn).toOption

/-- The positions of the replica. -/
def World.ledger (σ : World) : Ledger where
  durable := σ.db.durable
  slot := σ.slot
  log := σ.db.log
  memory := σ.mem.watermark
  acked := σ.mem.ackPos
  stage := σ.phase.stage
  feed := σ.feed
  inbox := σ.inbox
  sent := σ.sent

variable {cfg : ReplicaConfig} {H : History} {lossy : Bool}

/-! ## What a step can do -/

/-- The phases in which a session can break. -/
def Phase.InSession : Phase → Prop
  | .connected => True
  | .streaming _ => True
  | _ => False

/-- The phases in which the thread looks at the `done` flag. -/
def Phase.LooksAtDone : Phase → Prop
  | .connecting => True
  | .connected => True
  | .streaming _ => True
  | _ => False

/-- The steps, one constructor for each outcome of an event. -/
inductive Steps (cfg : ReplicaConfig) (H : History) (σ : World) : Event → World → Prop
  | startFails {cp tables e} (hphase : σ.phase = .down)
      (hprepare : σ.prepare cfg cp tables = .error e) : Steps cfg H σ (.start cp tables) σ
  | start {cp tables σ' l fp} (hphase : σ.phase = .down)
      (hprepare : σ.prepare cfg cp tables = .ok (σ', l, fp)) :
      Steps cfg H σ (.start cp tables) { σ' with mem := .boot l fp, phase := .connected }
  | connect (hphase : σ.phase = .connecting) :
      Steps cfg H σ (.connect (.ok ())) (σ.goto .connected)
  | connectFails {e} (hphase : σ.phase = .connecting) (hfatal : isFatal e = true) :
      Steps cfg H σ (.connect (.error e)) (σ.halt e)
  | connectAgain {e} (hphase : σ.phase = .connecting) (hfatal : isFatal e = false) :
      Steps cfg H σ (.connect (.error e)) σ
  | openStream (hphase : σ.phase = .connected) : Steps cfg H σ .openStream σ.openStream
  | readFails {e} (hphase : σ.phase.InSession) :
      Steps cfg H σ (.readFails e) (σ.sessionFails (mapInvalidated cfg e))
  | fails {e} (hphase : σ.phase.InSession) : Steps cfg H σ (.fails e) (σ.sessionFails e)
  | status {s} (hphase : σ.phase = .streaming s) : Steps cfg H σ .status σ.sendStatus
  | keepalive {s walEnd replyRequested} (hphase : σ.phase = .streaming s)
      (hallows : σ.feed.AllowsKeepalive H walEnd) :
      Steps cfg H σ (.keepalive walEnd replyRequested)
        (let σ' := if s.txn.isNone then σ.ack walEnd else σ
        if replyRequested then σ'.sendStatus else σ')
  | deliver {s d a m f} (hphase : σ.phase = .streaming s)
      (hdeliver : σ.feed.deliver H d = some (m, f)) :
      Steps cfg H σ (.deliver d a) ({ σ with feed := f }.onMessage s a m)
  | localCommit {s p} (hphase : σ.phase = .applying s p false) :
      Steps cfg H σ .localCommit
        { σ with db := σ.db.commit p.buf.stmts p.endLsn, phase := .applying s p true }
  | applied {s p} (hphase : σ.phase = .applying s p true) :
      Steps cfg H σ (.applyReturns (.ok ())) (σ.applied s p)
  | applyFails {s p committed e} (hphase : σ.phase = .applying s p committed) :
      Steps cfg H σ (.applyReturns (.error e)) (σ.sessionFails e)
  | subscribe (hlive : σ.phase.isDown = false) :
      Steps cfg H σ .subscribe { σ with
        mem := { σ.mem with subscribers := σ.mem.subscribers ++ [σ.channels] }
        channels := σ.channels + 1 }
  | dropReceiver {k} :
      Steps cfg H σ (.dropReceiver k) { σ with hungUp := Function.update σ.hungUp k true }
  | stop : Steps cfg H σ .stop { σ with mem := { σ.mem with done := true } }
  | quit (hphase : σ.phase.LooksAtDone) : Steps cfg H σ .quit (σ.goto .ended)
  | crash (hlive : σ.phase.isDown = false) : Steps cfg H σ .crash (σ.goto .down)

theorem steps_of_step {σ σ' : World} {e : Event} (h : step cfg H σ e = some σ') :
    Steps cfg H σ e σ' := by
  cases e with
  | start cp tables =>
    cases hphase : σ.phase <;> simp only [step, hphase, reduceCtorEq] at h
    split at h <;> obtain rfl := Option.some.inj h
    · exact .startFails hphase ‹_›
    · exact .start hphase ‹_›
  | connect r =>
    cases hphase : σ.phase <;> cases r <;> simp only [step, hphase, reduceCtorEq] at h
    · split at h <;> obtain rfl := Option.some.inj h
      · exact .connectFails hphase ‹_›
      · exact .connectAgain hphase (Bool.eq_false_iff.2 ‹_›)
    · obtain rfl := Option.some.inj h
      exact .connect hphase
  | openStream =>
    cases hphase : σ.phase <;> simp only [step, hphase, reduceCtorEq] at h
    obtain rfl := Option.some.inj h
    exact .openStream hphase
  | readFails err =>
    cases hphase : σ.phase <;> simp only [step, hphase, reduceCtorEq] at h
    all_goals
      obtain rfl := Option.some.inj h
      exact .readFails (by rw [hphase]; trivial)
  | fails err =>
    cases hphase : σ.phase <;> simp only [step, hphase, reduceCtorEq] at h
    all_goals
      obtain rfl := Option.some.inj h
      exact .fails (by rw [hphase]; trivial)
  | status =>
    cases hphase : σ.phase <;> simp only [step, hphase, reduceCtorEq] at h
    obtain rfl := Option.some.inj h
    exact .status hphase
  | keepalive walEnd replyRequested =>
    cases hphase : σ.phase <;> simp only [step, hphase, reduceCtorEq] at h
    split at h
    · obtain rfl := Option.some.inj h
      exact .keepalive hphase ‹_›
    · cases h
  | deliver d a =>
    simp only [step] at h
    split at h
    · rename_i hphase
      obtain ⟨⟨m, f⟩, hdeliver, rfl⟩ := Option.map_eq_some_iff.1 h
      exact .deliver hphase hdeliver
    · cases h
  | localCommit =>
    cases hphase : σ.phase with
    | applying s p committed =>
      cases committed <;> simp only [step, hphase, reduceCtorEq] at h
      obtain rfl := Option.some.inj h
      exact .localCommit hphase
    | _ => simp [step, hphase] at h
  | applyReturns r =>
    cases hphase : σ.phase with
    | applying s p committed =>
      cases r <;> cases committed <;> simp only [step, hphase, reduceCtorEq] at h
      all_goals obtain rfl := Option.some.inj h
      · exact .applyFails hphase
      · exact .applyFails hphase
      · exact .applied hphase
    | _ => cases r <;> simp [step, hphase] at h
  | subscribe =>
    cases hdown : σ.phase.isDown <;> simp [step, hdown] at h
    subst h
    exact .subscribe hdown
  | dropReceiver k =>
    obtain rfl := Option.some.inj h
    exact .dropReceiver
  | stop =>
    obtain rfl := Option.some.inj h
    exact .stop
  | quit =>
    cases hdone : σ.mem.done <;> simp only [step, hdone, if_true, Bool.false_eq_true, if_false,
      reduceCtorEq] at h
    cases hphase : σ.phase <;> simp only [hphase, reduceCtorEq] at h
    all_goals
      obtain rfl := Option.some.inj h
      exact .quit (by rw [hphase]; trivial)
  | crash =>
    cases hdown : σ.phase.isDown <;> simp [step, hdown] at h
    subst h
    exact .crash hdown

/-! ## Positions -/

@[simp] theorem Db.durable_updateFingerprint (db : Db) (fp : String) :
    (db.updateFingerprint fp).durable = db.durable := by
  cases db with
  | mk row log => cases row <;> rfl

theorem Db.durable_initState (db : Db) (slotName publication fp : String) (l : Lsn) :
    (db.initState slotName publication l fp).durable = some l := by
  simp [Db.durable, Db.initState, Lsn.fromPgStr_toPgStr, Except.toOption]

theorem Db.durable_commit {db : Db} (hrow : db.row.isSome = true) (stmts : List String)
    (l : Lsn) : (db.commit stmts l).durable = some l := by
  obtain ⟨row, hrow⟩ := Option.isSome_iff_exists.1 hrow
  simp [Db.durable, Db.commit, hrow, Lsn.fromPgStr_toPgStr, Except.toOption]

/-! ## Well-formed worlds -/

/-- What is left to send of a transaction are row changes. -/
def Feed.RowsLeft (f : Feed) : Prop :=
  ∀ t rest, f.sending = some (t, rest) → ∀ m ∈ rest, m.isRow = true

/-- What the positions rest on: channels are distinct, a buffer is open exactly while the upstream
is sending a transaction, and the stored watermark is there once the replica has started, and can
be read. -/
structure WellFormed (σ : World) : Prop where
  nodup : σ.mem.subscribers.Nodup
  subscribed : ∀ k ∈ σ.mem.subscribers, k < σ.channels
  readable : ∀ row, σ.db.row = some row → ∃ l, Lsn.fromPgStr row.watermarkLsn = .ok l
  started : σ.phase.stage ≠ .down → σ.db.row.isSome = true
  rows : σ.feed.RowsLeft
  opened : ∀ s, σ.phase = .streaming s → s.txn.isSome = σ.feed.sending.isSome
  taken : ∀ s p committed, σ.phase = .applying s p committed →
    s.txn = none ∧ σ.feed.sending = none

theorem wellFormed_blank : WellFormed .blank :=
  ⟨List.nodup_nil, nofun, nofun, fun h => absurd rfl h, nofun, nofun, nofun⟩

namespace WellFormed

variable {σ τ : World}

/-- After an error nothing is said of the session any more. -/
theorem sessionFails (h : WellFormed σ) (hlive : σ.phase.stage ≠ .down) {f : Feed}
    (hrows : f.RowsLeft) (e : Error) : WellFormed ({ σ with feed := f }.sessionFails e) := by
  have hf : ∀ ph, (∀ s, ph ≠ .streaming s) → (∀ s p c, ph ≠ .applying s p c) →
      WellFormed { σ with feed := f, phase := ph } := fun ph hs ha =>
    ⟨h.nodup, h.subscribed, h.readable, fun _ => h.started hlive, hrows,
      fun s hph => absurd hph (hs s), fun s p c hph => absurd hph (ha s p c)⟩
  unfold World.sessionFails
  split
  · unfold World.halt
    split
    · exact { hf .ended nofun nofun with }
    · exact { hf .ended nofun nofun with }
  · exact { hf .connecting nofun nofun with }

theorem updateFingerprint (h : WellFormed σ) (fp : String) :
    WellFormed { σ with db := σ.db.updateFingerprint fp } := by
  refine { h with readable := ?_, started := fun hlive => ?_ }
  · intro row hrow
    obtain ⟨row', hrow', rfl⟩ := Option.map_eq_some_iff.1 hrow
    exact h.readable row' hrow'
  · simpa [Db.updateFingerprint] using h.started hlive

/-- The session goes on, with a feed that is sending something exactly if a buffer is open. -/
theorem stream (h : WellFormed σ) (hlive : σ.phase.stage ≠ .down) {f : Feed} {s : Stream}
    (hrows : f.RowsLeft)
    (hopened : s.txn.isSome = f.sending.isSome) :
    WellFormed ({ σ with feed := f }.goto (.streaming s)) := by
  refine ⟨h.nodup, h.subscribed, h.readable, fun _ => h.started hlive, hrows, ?_, nofun⟩
  intro s' hs'
  obtain rfl : s = s' := Phase.streaming.inj hs'
  exact hopened

theorem applied (h : WellFormed σ) {s : Stream} {p : Pending}
    (hphase : σ.phase = .applying s p true) : WellFormed (σ.applied s p) := by
  have hlive : σ.phase.stage ≠ .down := by simp [hphase, Phase.stage]
  obtain ⟨htxn, hsending⟩ := h.taken s p true hphase
  have hopened : ∀ s', Phase.streaming s = .streaming s' →
      s'.txn.isSome = σ.feed.sending.isSome := by
    intro s' hs'
    obtain rfl : s = s' := Phase.streaming.inj hs'
    rw [htxn, hsending]
    rfl
  unfold World.applied
  dsimp only
  split
  · exact ⟨h.nodup, h.subscribed, h.readable, fun _ => h.started hlive, h.rows, hopened, nofun⟩
  · refine ⟨h.nodup.filter _, ?_, h.readable, fun _ => h.started hlive, h.rows, hopened, nofun⟩
    exact fun k hk => h.subscribed k (List.mem_of_mem_filter hk)

end WellFormed

/-! ## Messages -/

/-- The same but for the stored fingerprint. -/
inductive Refingerprinted (σ : World) : World → Prop
  | same : Refingerprinted σ σ
  | stored (fp : String) : Refingerprinted σ { σ with db := σ.db.updateFingerprint fp }

theorem Refingerprinted.ledger {σ τ : World} (h : Refingerprinted σ τ) :
    τ.ledger = σ.ledger := by
  cases h with
  | same => rfl
  | stored fp =>
    show ({ σ.ledger with durable := (σ.db.updateFingerprint fp).durable } : Ledger) = σ.ledger
    rw [Db.durable_updateFingerprint]
    rfl

theorem Refingerprinted.phase {σ τ : World} (h : Refingerprinted σ τ) : τ.phase = σ.phase := by
  cases h <;> rfl

theorem Refingerprinted.wellFormed {σ τ : World} (h : Refingerprinted σ τ) (hw : WellFormed σ) :
    WellFormed τ := by
  cases h with
  | same => exact hw
  | stored fp => exact hw.updateFingerprint fp

theorem refingerprinted_of_store {σ τ : World} {fp : String} {o : Outcome}
    {r : Except Error Unit} (h : σ.storeFingerprint fp o = (τ, r)) : Refingerprinted σ τ := by
  cases o <;> obtain ⟨rfl, -⟩ := Prod.mk.inj h
  · exact .stored fp
  · exact .same
  · exact .stored fp

/-- The session fails, or goes on with the same open transaction; the stored fingerprint may have
changed. -/
inductive KeepsTxn (σ : World) (s : Stream) : World → Prop
  | fails {τ : World} (hτ : Refingerprinted σ τ) (e : Error) : KeepsTxn σ s (τ.sessionFails e)
  | continues {τ : World} (hτ : Refingerprinted σ τ) {s' : Stream} (htxn : s'.txn = s.txn) :
      KeepsTxn σ s (τ.goto (.streaming s'))

theorem onRelation_keepsTxn (σ : World) (s : Stream) (a : Answers) (relId : UInt32)
    (ns name : String) (columns : List RelColumn) :
    KeepsTxn σ s (σ.onRelation s a relId ns name columns) := by
  unfold World.onRelation
  dsimp only
  split
  · split
    · exact .continues .same rfl
    · split
      · split
        · exact .fails .same _
        · split
          · rename_i hstore
            exact .fails (refingerprinted_of_store hstore) _
          · rename_i hstore
            exact .continues (refingerprinted_of_store hstore) rfl
      · exact .fails .same _
  · exact .fails .same _

theorem resyncSchema_spec (σ : World) (s : Stream) (a : Answers) :
    Refingerprinted σ (σ.resyncSchema s a).1 ∧
      ∀ s', (σ.resyncSchema s a).2 = .ok s' → s'.txn = s.txn := by
  unfold World.resyncSchema
  split
  · exact ⟨.same, nofun⟩
  · dsimp only
    split
    · refine ⟨.same, fun s' hs' => ?_⟩
      obtain rfl : s = s' := by simpa using hs'
      rfl
    · split
      · rename_i hstore
        exact ⟨refingerprinted_of_store hstore, nofun⟩
      · rename_i hstore
        refine ⟨refingerprinted_of_store hstore, fun s' hs' => ?_⟩
        obtain rfl := Except.ok.inj hs'
        rfl

theorem onSignal_keepsTxn (σ : World) (s : Stream) (a : Answers) (msgPrefix : String) :
    KeepsTxn σ s (σ.onSignal s a msgPrefix) := by
  have hresync := resyncSchema_spec σ s a
  unfold World.onSignal
  split
  · split
    · rename_i heq
      rw [heq] at hresync
      exact .fails hresync.1 _
    · rename_i heq
      rw [heq] at hresync
      split
      · exact .fails hresync.1 _
      · exact .continues hresync.1 (hresync.2 _ rfl)
  · exact .continues .same rfl

/-! ## Steps -/

theorem ledger_halt (σ : World) (e : Error) :
    (σ.halt e).ledger = { σ.ledger with stage := .ended } := by
  unfold World.halt
  split <;> rfl

/-- An error ends the session: with a new one to come if it is not fatal, for good if it is. -/
theorem move_sessionFails {σ τ : World} {f : Feed} (e : Error)
    (hτ : τ.ledger = { σ.ledger with feed := f }) (hlive : σ.phase.stage ≠ .down)
    (hretry : isFatal e = false → σ.phase.stage.MayRetry lossy) :
    Move H lossy σ.ledger (τ.sessionFails e).ledger := by
  unfold World.sessionFails
  cases hfatal : isFatal e with
  | true =>
    rw [if_pos rfl, ledger_halt, hτ]
    exact .halt σ.ledger f hlive
  | false =>
    rw [if_neg Bool.false_ne_true]
    show Move H lossy σ.ledger { τ.ledger with acked := τ.ledger.memory, stage := .idle }
    rw [hτ]
    exact .retry σ.ledger f (hretry hfatal)

/-- An error in the middle of a session. -/
theorem moves_streamFails {σ τ : World} {s : Stream} {f : Feed} (hw : WellFormed τ)
    (hrows : f.RowsLeft) (e : Error) (hphase : σ.phase = .streaming s)
    (hτ : τ.ledger = σ.ledger) :
    Relation.ReflTransGen (Move H lossy) σ.ledger ({ τ with feed := f }.sessionFails e).ledger ∧
      WellFormed ({ τ with feed := f }.sessionFails e) := by
  have hstage : σ.phase.stage = .open s.txn := by rw [hphase]; rfl
  have hτstage : τ.phase.stage = .open s.txn := (congrArg Ledger.stage hτ).trans hstage
  have hfeed : ({ τ with feed := f } : World).ledger = { σ.ledger with feed := f } := by
    show ({ τ.ledger with feed := f } : Ledger) = _
    rw [hτ]
  refine ⟨.single (move_sessionFails e hfeed ?_ fun _ => ?_), hw.sessionFails ?_ hrows e⟩
  · simp [hstage]
  · rw [hstage]
    trivial
  · simp [hτstage]

theorem KeepsTxn.moves {σ σ' : World} {s : Stream} (h : KeepsTxn σ s σ') (hw : WellFormed σ)
    (hphase : σ.phase = .streaming s) :
    Relation.ReflTransGen (Move H lossy) σ.ledger σ'.ledger ∧ WellFormed σ' := by
  cases h with
  | fails hτ e =>
    exact moves_streamFails (hτ.wellFormed hw) (hτ.wellFormed hw).rows e hphase hτ.ledger
  | @continues τ hτ s' htxn =>
    have hlive : τ.phase.stage ≠ .down := by simp [hτ.phase, hphase, Phase.stage]
    have hfeed : τ.feed = σ.feed := congrArg Ledger.feed hτ.ledger
    constructor
    · have hsame : (τ.goto (.streaming s')).ledger = σ.ledger := by
        show ({ τ.ledger with stage := .open s'.txn } : Ledger) = σ.ledger
        rw [hτ.ledger, htxn]
        simp [World.ledger, hphase, Phase.stage]
      rw [hsame]
    · refine (hτ.wellFormed hw).stream hlive (hτ.wellFormed hw).rows ?_
      rw [htxn, hfeed]
      exact hw.opened s hphase

/-- A row change is handled by its own branch. -/
theorem onMessage_row (σ : World) (s : Stream) (a : Answers) {m : PgOutputMsg}
    (hm : m.isRow = true) :
    σ.onMessage s a m = match s.onRow m with
      | .error e => σ.sessionFails e
      | .ok s' => σ.goto (.streaming s') := by
  cases m <;> first | rfl | exact absurd hm Bool.false_ne_true

/-- The commit of the transaction whose buffer is open. -/
theorem onCommit_moves {σ : World} {s : Stream} {t : UpstreamTxn} (hw : WellFormed σ)
    (hphase : σ.phase = .streaming s) (hsending : σ.feed.sending = some (t, [])) :
    let σ' := { σ with feed := σ.feed.pass t }.onCommit s t.commitLsn t.endLsn t.commitTs
    Relation.ReflTransGen (Move H lossy) σ.ledger σ'.ledger ∧ WellFormed σ' := by
  have hlive : σ.phase.stage ≠ .down := by simp [hphase, Phase.stage]
  have hopened := hw.opened s hphase
  rw [hsending] at hopened
  obtain ⟨buf, hbuf⟩ := Option.isSome_iff_exists.1 hopened
  have hstage : σ.ledger.stage = .open (some buf) := by
    simp [World.ledger, hphase, Phase.stage, hbuf]
  have hrows : (σ.feed.pass t).RowsLeft := nofun
  intro σ'
  by_cases hle : t.endLsn ≤ σ.mem.watermark
  · have hσ' : σ' = { σ with feed := σ.feed.pass t }.goto
        (.streaming { s with txn := none }) := by
      simp [σ', World.onCommit, hbuf, hle]
    rw [hσ']
    exact ⟨.single (.skip σ.ledger buf t hstage hsending hle), hw.stream hlive hrows rfl⟩
  by_cases hstmts : buf.stmts = []
  · have hσ' : σ' = ({ σ with feed := σ.feed.pass t }.ack t.endLsn).goto
        (.streaming { s with txn := none }) := by
      simp [σ', World.onCommit, hbuf, hle, hstmts]
    rw [hσ']
    refine ⟨.single (.empty σ.ledger buf t hstage hsending (lt_of_not_ge hle) hstmts), ?_⟩
    exact { hw.stream (s := { s with txn := none }) hlive hrows rfl with }
  · have hσ' : σ' = { σ with feed := σ.feed.pass t }.goto
        (.applying { s with txn := none } ⟨buf, t.commitLsn, t.endLsn, t.commitTs⟩ false) := by
      simp [σ', World.onCommit, hbuf, hle, hstmts]
    rw [hσ']
    refine ⟨.single (.apply σ.ledger buf t hstage hsending (lt_of_not_ge hle) hstmts), ?_⟩
    refine ⟨hw.nodup, hw.subscribed, hw.readable, fun _ => hw.started hlive, hrows, nofun, ?_⟩
    intro s' p committed hs'
    obtain ⟨rfl, -, -⟩ := Phase.applying.inj hs'
    exact ⟨rfl, rfl⟩

/-- The next row change of the transaction whose buffer is open. -/
theorem onRow_moves {σ : World} {s : Stream} {a : Answers} {t : UpstreamTxn} {row : PgOutputMsg}
    {rest : List PgOutputMsg} (hw : WellFormed σ) (hphase : σ.phase = .streaming s)
    (hsending : σ.feed.sending = some (t, row :: rest)) :
    let σ' := { σ with feed := { σ.feed with sending := some (t, rest) } }.onMessage s a row
    Relation.ReflTransGen (Move H lossy) σ.ledger σ'.ledger ∧ WellFormed σ' := by
  have hlive : σ.phase.stage ≠ .down := by simp [hphase, Phase.stage]
  have hstage : σ.ledger.stage = .open s.txn := by simp [World.ledger, hphase, Phase.stage]
  have hrow : row.isRow = true := hw.rows t _ hsending row List.mem_cons_self
  have hleft : Feed.RowsLeft { σ.feed with sending := some (t, rest) } := by
    intro t' rest' hrest
    obtain ⟨rfl, rfl⟩ := Prod.mk.inj (Option.some.inj hrest)
    exact fun m hm => hw.rows t _ hsending m (List.mem_cons_of_mem _ hm)
  rw [onMessage_row _ _ _ hrow]
  cases hon : s.onRow row with
  | error e => exact moves_streamFails hw hleft e hphase rfl
  | ok s' =>
    obtain ⟨buf, stmt, changes, hbuf, hrenders, rfl⟩ := Stream.onRow_eq_ok hrow hon
    rw [hbuf] at hstage
    refine ⟨.single (.row σ.ledger buf t row rest s.rels stmt changes hstage hsending hrenders), ?_⟩
    exact hw.stream hlive hleft rfl

/-- A message that belongs to no transaction. -/
theorem onOther_moves {σ : World} {s : Stream} {a : Answers} {m : PgOutputMsg}
    (hw : WellFormed σ) (hphase : σ.phase = .streaming s)
    (hallows : σ.feed.allowsOther m = true) :
    Relation.ReflTransGen (Move H lossy) σ.ledger (σ.onMessage s a m).ledger ∧
      WellFormed (σ.onMessage s a m) := by
  have hopened := hw.opened s hphase
  -- A row change or a commit outside of a transaction finds no open buffer.
  have hnone : σ.feed.sending.isNone = true → s.txn = none := by
    intro hsending
    rw [Option.isNone_iff_eq_none.1 hsending] at hopened
    exact Option.isSome_eq_false_iff.1 hopened |> Option.isNone_iff_eq_none.1
  have hrow : m.isRow = true → σ.feed.sending.isNone = true →
      Relation.ReflTransGen (Move H lossy) σ.ledger (σ.onMessage s a m).ledger ∧
        WellFormed (σ.onMessage s a m) := by
    intro hrow hsending
    rw [onMessage_row _ _ _ hrow]
    cases hon : s.onRow m with
    | error e => exact moves_streamFails hw hw.rows e hphase rfl
    | ok s' =>
      obtain ⟨buf, _, _, hbuf, -, -⟩ := Stream.onRow_eq_ok hrow hon
      exact absurd (hbuf.symm.trans (hnone hsending)) nofun
  cases m with
  | begin finalLsn commitTs xid => cases hallows
  | relation relId ns name replicaIdentity columns =>
    exact (onRelation_keepsTxn σ s a relId ns name columns).moves hw hphase
  | message msgPrefix content => exact (onSignal_keepsTxn σ s a msgPrefix).moves hw hphase
  | other => exact KeepsTxn.moves (.continues .same rfl) hw hphase
  | commit commitLsn endLsn commitTs =>
    have hcommit : σ.onCommit s commitLsn endLsn commitTs =
        σ.sessionFails (.protocol "commit without begin on replication stream") := by
      simp [World.onCommit, hnone hallows]
    show Relation.ReflTransGen _ _ (σ.onCommit s commitLsn endLsn commitTs).ledger ∧
      WellFormed (σ.onCommit s commitLsn endLsn commitTs)
    rw [hcommit]
    exact moves_streamFails hw hw.rows _ hphase rfl
  | insert relId new => exact hrow rfl hallows
  | update relId key old new => exact hrow rfl hallows
  | delete relId key old => exact hrow rfl hallows
  | truncate relIds => exact hrow rfl hallows

/-- What one message does. -/
theorem deliver_moves {σ : World} {s : Stream} {d : Delivery} {a : Answers} {m : PgOutputMsg}
    {f : Feed} (hw : WellFormed σ) (hphase : σ.phase = .streaming s)
    (hdeliver : σ.feed.deliver H d = some (m, f)) :
    Relation.ReflTransGen (Move H lossy) σ.ledger ({ σ with feed := f }.onMessage s a m).ledger ∧
      WellFormed ({ σ with feed := f }.onMessage s a m) := by
  cases d with
  | begin t =>
    have hlive : σ.phase.stage ≠ .down := by simp [hphase, Phase.stage]
    have hstage : σ.ledger.stage = .open s.txn := by simp [World.ledger, hphase, Phase.stage]
    by_cases hmay : σ.feed.MayBegin H t
    · rw [Feed.deliver, if_pos hmay] at hdeliver
      obtain ⟨rfl, rfl⟩ := Prod.mk.inj (Option.some.inj hdeliver)
      refine ⟨.single (.begin σ.ledger s.txn t hstage hmay), hw.stream hlive ?_ rfl⟩
      rintro t' rest hsending
      obtain ⟨rfl, rfl⟩ := Prod.mk.inj (Option.some.inj hsending)
      exact t.rows_isRow
    · rw [Feed.deliver, if_neg hmay] at hdeliver
      cases hdeliver
  | next =>
    unfold Feed.deliver at hdeliver
    cases hsending : σ.feed.sending with
    | none => simp [hsending] at hdeliver
    | some sending =>
      obtain ⟨t, rest⟩ := sending
      rw [hsending] at hdeliver
      cases rest with
      | nil =>
        obtain ⟨rfl, rfl⟩ := Prod.mk.inj (Option.some.inj hdeliver)
        exact onCommit_moves hw hphase hsending
      | cons row rest =>
        obtain ⟨rfl, rfl⟩ := Prod.mk.inj (Option.some.inj hdeliver)
        exact onRow_moves hw hphase hsending
  | other m' =>
    cases hallows : σ.feed.allowsOther m' with
    | false => simp [Feed.deliver, hallows] at hdeliver
    | true =>
      simp only [Feed.deliver, hallows, if_true, Option.some.injEq, Prod.mk.injEq] at hdeliver
      obtain ⟨rfl, rfl⟩ := hdeliver
      exact onOther_moves hw hphase hallows

/-! ### Commits -/

/-- Each of distinct channels gets one more announcement. -/
theorem foldl_update_inbox (ct : CommittedTransaction) {ks : List Nat} (hks : ks.Nodup)
    (inbox : Nat → List CommittedTransaction) (k : Nat) :
    ks.foldl (fun inbox k => Function.update inbox k (inbox k ++ [ct])) inbox k =
      if k ∈ ks then inbox k ++ [ct] else inbox k := by
  induction ks generalizing inbox with
  | nil => simp
  | cons j js ih =>
    obtain ⟨hj, hjs⟩ := List.nodup_cons.1 hks
    rw [List.foldl_cons, ih hjs]
    by_cases hkj : k = j
    · subst hkj
      simp [hj]
    · simp [hkj]

theorem move_applied {σ : World} {s : Stream} {p : Pending} (hw : WellFormed σ)
    (hphase : σ.phase = .applying s p true) :
    Move H lossy σ.ledger (σ.applied s p).ledger := by
  have hstage : σ.ledger.stage = .applying p true := by simp [World.ledger, hphase, Phase.stage]
  have htxn : s.txn = none := (hw.taken s p true hphase).1
  by_cases hchanges : p.buf.changes = []
  · have hledger : (σ.applied s p).ledger = { σ.ledger with
        memory := p.endLsn, acked := max σ.mem.ackPos p.endLsn, inbox := σ.inbox
        stage := .open s.txn } := by
      unfold World.applied
      rw [if_pos hchanges]
      rfl
    rw [hledger, htxn]
    exact .finish σ.ledger p σ.inbox hstage fun k => .inl rfl
  · have hledger : (σ.applied s p).ledger = { σ.ledger with
        memory := p.endLsn, acked := max σ.mem.ackPos p.endLsn
        inbox := (σ.mem.subscribers.filter fun k => !σ.hungUp k).foldl
          (fun inbox k => Function.update inbox k (inbox k ++ [p.announcement])) σ.inbox
        stage := .open s.txn } := by
      unfold World.applied
      rw [if_neg hchanges]
      rfl
    rw [hledger, htxn]
    refine .finish σ.ledger p _ hstage fun k => ?_
    rw [foldl_update_inbox _ (hw.nodup.filter _)]
    split
    · exact .inr rfl
    · exact .inl rfl

/-! ### Starting -/

theorem loadState_eq_none {db : Db} (h : db.loadState = .ok none) : db.row = none := by
  unfold Db.loadState at h
  split at h
  · assumption
  · obtain ⟨l, -, h⟩ := bind_eq_ok.1 h
    exact absurd (Except.ok.inj h) nofun

theorem loadState_eq_some {db : Db} {st : ReplicaState} (h : db.loadState = .ok (some st)) :
    ∃ row, db.row = some row ∧ Lsn.fromPgStr row.watermarkLsn = .ok st.watermark ∧
      row.fingerprint = st.fingerprint := by
  unfold Db.loadState at h
  split at h
  · exact absurd (Except.ok.inj h) nofun
  · rename_i row hrow
    obtain ⟨l, hl, h⟩ := bind_eq_ok.1 h
    obtain rfl := Option.some.inj (Except.ok.inj h)
    exact ⟨row, hrow, hl, rfl⟩

/-- The world and the arguments with which the thread enters `run`. -/
theorem prepare_cases {σ σ' : World} {cp start : Lsn} {tables : List TableDef} {fp : String}
    (h : σ.prepare cfg cp tables = .ok (σ', start, fp)) :
    (σ.db.row = none ∧ start = cp ∧ fp = fingerprint tables ∧
      σ' = { σ with
        db := σ.db.initState cfg.slotName cfg.publication cp fp, slot := some cp }) ∨
    ∃ row, σ.db.row = some row ∧ Lsn.fromPgStr row.watermarkLsn = .ok start ∧
      row.fingerprint = fp ∧ σ = σ' := by
  obtain ⟨st, hload, h⟩ := bind_eq_ok.1 h
  cases st with
  | none =>
    obtain ⟨rfl, rfl, rfl⟩ : _ ∧ cp = start ∧ fingerprint tables = fp := by
      simpa using Except.ok.inj h
    exact .inl ⟨loadState_eq_none hload, rfl, rfl, rfl⟩
  | some st =>
    obtain ⟨row, hrow, hread, hfp⟩ := loadState_eq_some hload
    dsimp only at h
    split at h
    · cases h
    · obtain ⟨rfl, rfl, rfl⟩ : σ = σ' ∧ st.watermark = start ∧ st.fingerprint = fp := by
        simpa using Except.ok.inj h
      exact .inr ⟨row, hrow, hread, hfp, rfl⟩

/-- The thread goes on from the stored watermark, after storing one on a first run. -/
theorem start_moves {σ σ' : World} {cp start : Lsn} {tables : List TableDef} {fp : String}
    (hw : WellFormed σ) (hdown : σ.phase = .down)
    (hprepare : σ.prepare cfg cp tables = .ok (σ', start, fp)) :
    let τ : World := { σ' with mem := .boot start fp, phase := .connected }
    Relation.ReflTransGen (Move H lossy) σ.ledger τ.ledger ∧ WellFormed τ := by
  have hstage : σ.ledger.stage = .down := by simp [World.ledger, hdown, Phase.stage]
  intro τ
  rcases prepare_cases hprepare with ⟨hrow, rfl, rfl, rfl⟩ | ⟨row, hrow, hread, rfl, rfl⟩
  · have hdurable := Db.durable_initState σ.db cfg.slotName cfg.publication
      (fingerprint tables) start
    constructor
    · have hτ : τ.ledger = { σ.ledger with
          durable := some start, slot := some start, memory := start, acked := start
          stage := .idle } := by
        show ({ σ.ledger with
          durable := (σ.db.initState cfg.slotName cfg.publication start (fingerprint tables)).durable
          slot := some start, memory := start, acked := start, stage := .idle } : Ledger) = _
        rw [hdurable]
      rw [hτ]
      refine .tail (.single (.init σ.ledger start hstage ?_)) (.boot _ start hstage rfl)
      simp [World.ledger, Db.durable, hrow]
    · refine ⟨List.nodup_nil, nofun, ?_, fun _ => rfl, hw.rows, nofun, nofun⟩
      intro row' hrow'
      obtain rfl := Option.some.inj hrow'
      exact ⟨start, Lsn.fromPgStr_toPgStr start⟩
  · refine ⟨.single (.boot σ.ledger start hstage ?_), ?_⟩
    · simp [World.ledger, Db.durable, hrow, hread, Except.toOption]
    · refine ⟨List.nodup_nil, nofun, hw.readable, fun _ => ?_, hw.rows, nofun, nofun⟩
      show σ.db.row.isSome = true
      rw [hrow]
      rfl

/-! ### The step -/

/-- The step is an error of `apply` after its commit took effect. -/
def World.hidesCommit (σ : World) : Event → Bool
  | .applyReturns (.error _) =>
    match σ.phase with
    | .applying _ _ committed => committed
    | _ => false
  | _ => false

/-- The step is an error of `apply` after which `run` goes on. -/
def Event.retriesApply : Event → Bool
  | .applyReturns (.error e) => !isFatal e
  | _ => false

/-- The step is an error of `apply` that hides a commit and leads to a new session. -/
def World.losesCommit (σ : World) (e : Event) : Bool :=
  σ.hidesCommit e && e.retriesApply

/-- An error outside of a message. -/
theorem moves_fails {σ : World} (hw : WellFormed σ) (e : Error) (hlive : σ.phase.stage ≠ .down)
    (hretry : isFatal e = false → σ.phase.stage.MayRetry lossy) :
    Relation.ReflTransGen (Move H lossy) σ.ledger (σ.sessionFails e).ledger ∧
      WellFormed (σ.sessionFails e) :=
  ⟨.single (move_sessionFails e rfl hlive hretry), hw.sessionFails hlive hw.rows e⟩

/-- The thread ends, or loses or finds a connection. -/
theorem WellFormed.rest {σ : World} (h : WellFormed σ) (hlive : σ.phase.stage ≠ .down)
    {ph : Phase} (hs : ∀ s, ph ≠ .streaming s) (ha : ∀ s p c, ph ≠ .applying s p c) :
    WellFormed (σ.goto ph) :=
  ⟨h.nodup, h.subscribed, h.readable, fun _ => h.started hlive, h.rows,
    fun s hph => absurd hph (hs s), fun s p c hph => absurd hph (ha s p c)⟩

theorem keepalive_moves {σ : World} {s : Stream} {walEnd : Lsn} (hw : WellFormed σ)
    (hphase : σ.phase = .streaming s) (hallows : σ.feed.AllowsKeepalive H walEnd)
    (replyRequested : Bool) :
    let σ₁ := if s.txn.isNone then σ.ack walEnd else σ
    let σ' := if replyRequested then σ₁.sendStatus else σ₁
    Relation.ReflTransGen (Move H lossy) σ.ledger σ'.ledger ∧ WellFormed σ' := by
  have hlive : σ.phase.stage ≠ .down := by simp [hphase, Phase.stage]
  intro σ₁ σ'
  have hack : Relation.ReflTransGen (Move H lossy) σ.ledger σ₁.ledger ∧
      WellFormed σ₁ ∧ σ₁.phase = σ.phase := by
    cases htxn : s.txn with
    | none =>
      have hσ₁ : σ₁ = σ.ack walEnd := by simp [σ₁, htxn]
      rw [hσ₁]
      refine ⟨.single (.keepalive σ.ledger walEnd ?_ hallows), { hw with }, rfl⟩
      simp [World.ledger, hphase, Phase.stage, htxn]
    | some buf =>
      have hσ₁ : σ₁ = σ := by simp [σ₁, htxn]
      rw [hσ₁]
      exact ⟨.refl, hw, rfl⟩
  obtain ⟨hmoves, hw₁, hphase₁⟩ := hack
  cases replyRequested with
  | false => exact ⟨hmoves, hw₁⟩
  | true =>
    refine ⟨hmoves.tail (.report σ₁.ledger ?_), { hw₁ with }⟩
    rw [← hphase₁] at hlive
    exact hlive

theorem localCommit_moves {σ : World} {s : Stream} {p : Pending} (hw : WellFormed σ)
    (hphase : σ.phase = .applying s p false) :
    let σ' : World :=
      { σ with db := σ.db.commit p.buf.stmts p.endLsn, phase := .applying s p true }
    Relation.ReflTransGen (Move H lossy) σ.ledger σ'.ledger ∧ WellFormed σ' := by
  have hlive : σ.phase.stage ≠ .down := by simp [hphase, Phase.stage]
  have hstage : σ.ledger.stage = .applying p false := by
    simp [World.ledger, hphase, Phase.stage]
  have hrow := hw.started hlive
  intro σ'
  constructor
  · have hσ' : σ'.ledger = { σ.ledger with
        durable := some p.endLsn
        log := σ.ledger.log ++ [p.buf.stmts ++ [Db.watermarkStmt p.endLsn]]
        stage := .applying p true } := by
      rw [← Db.durable_commit hrow p.buf.stmts p.endLsn]
      rfl
    rw [hσ']
    exact .single (.commit σ.ledger p hstage)
  · refine ⟨hw.nodup, hw.subscribed, ?_, fun _ => ?_, hw.rows, nofun, ?_⟩
    · intro row hrow'
      obtain ⟨row', -, rfl⟩ := Option.map_eq_some_iff.1 hrow'
      exact ⟨p.endLsn, Lsn.fromPgStr_toPgStr _⟩
    · simpa [σ', Db.commit] using hrow
    · intro s' p' committed hs'
      obtain ⟨rfl, -, -⟩ := Phase.applying.inj hs'
      exact hw.taken s p false hphase

theorem Phase.InSession.live {ph : Phase} (h : ph.InSession) : ph.stage ≠ .down := by
  cases ph <;> first | exact h.elim | exact nofun

theorem Phase.InSession.mayRetry {ph : Phase} (h : ph.InSession) : ph.stage.MayRetry lossy := by
  cases ph <;> first | exact h.elim | trivial

theorem Phase.LooksAtDone.live {ph : Phase} (h : ph.LooksAtDone) : ph.stage ≠ .down := by
  cases ph <;> first | exact h.elim | exact nofun

variable (lossy) in
/-- **Refinement.** A step of the replica is some moves of the ledger. -/
theorem step_refines {σ σ' : World} {e : Event} (hw : WellFormed σ)
    (hlossy : lossy = false → σ.losesCommit e = false) (hstep : step cfg H σ e = some σ') :
    Relation.ReflTransGen (Move H lossy) σ.ledger σ'.ledger ∧ WellFormed σ' := by
  cases steps_of_step hstep with
  | startFails => exact ⟨.refl, hw⟩
  | start hphase hprepare => exact start_moves hw hphase hprepare
  | connect hphase =>
    have hlive : σ.phase.stage ≠ .down := by simp [hphase, Phase.stage]
    have hsame : (σ.goto .connected).ledger = σ.ledger := by
      simp [World.ledger, World.goto, hphase, Phase.stage]
    rw [hsame]
    exact ⟨.refl, hw.rest hlive nofun nofun⟩
  | @connectFails e hphase hfatal =>
    have hlive : σ.phase.stage ≠ .down := by simp [hphase, Phase.stage]
    have hhalt : σ.sessionFails e = σ.halt e := if_pos hfatal
    rw [← hhalt]
    exact moves_fails hw e hlive fun hf => absurd hfatal (by simp [hf])
  | connectAgain => exact ⟨.refl, hw⟩
  | openStream hphase =>
    have hlive : σ.phase.stage ≠ .down := by simp [hphase, Phase.stage]
    constructor
    · refine .tail (.single (.report σ.ledger hlive)) (.openStream _ ?_)
      simp [World.ledger, hphase, Phase.stage]
    · exact { hw.stream (s := ⟨.ofFingerprint σ.mem.fingerprint, fun _ => none, none⟩)
        (f := .startAfter σ.mem.watermark) hlive nofun rfl with }
  | readFails hphase => exact moves_fails hw _ hphase.live fun _ => hphase.mayRetry
  | fails hphase => exact moves_fails hw _ hphase.live fun _ => hphase.mayRetry
  | status hphase =>
    refine ⟨.single (.report σ.ledger ?_), { hw with }⟩
    simp [World.ledger, hphase, Phase.stage]
  | keepalive hphase hallows => exact keepalive_moves hw hphase hallows _
  | deliver hphase hdeliver => exact deliver_moves hw hphase hdeliver
  | localCommit hphase => exact localCommit_moves hw hphase
  | applied hphase => exact ⟨.single (move_applied hw hphase), hw.applied hphase⟩
  | @applyFails s p committed e hphase =>
    refine moves_fails hw e (by simp [hphase, Phase.stage]) fun hfatal => ?_
    rw [hphase]
    intro hcommitted
    cases lossy with
    | true => rfl
    | false =>
      have hloses := hlossy rfl
      simp [World.losesCommit, World.hidesCommit, Event.retriesApply, hphase, hcommitted,
        hfatal] at hloses
  | subscribe hlive =>
    refine ⟨.refl, { hw with nodup := ?_, subscribed := ?_ }⟩
    · refine List.nodup_append.2 ⟨hw.nodup, List.nodup_singleton _, ?_⟩
      intro k hk k' hk'
      obtain rfl := List.mem_singleton.1 hk'
      exact (hw.subscribed k hk).ne
    · intro k hk
      rcases List.mem_append.1 hk with hk | hk
      · exact (hw.subscribed k hk).trans (Nat.lt_succ_self _)
      · obtain rfl := List.mem_singleton.1 hk
        exact Nat.lt_succ_self _
  | dropReceiver => exact ⟨.refl, { hw with }⟩
  | stop => exact ⟨.refl, { hw with }⟩
  | quit hphase =>
    exact ⟨.single (.halt σ.ledger σ.feed hphase.live), hw.rest hphase.live nofun nofun⟩
  | crash =>
    refine ⟨.single (.crash σ.ledger), ?_⟩
    exact ⟨hw.nodup, hw.subscribed, hw.readable, fun hlive => absurd rfl hlive, hw.rows,
      nofun, nofun⟩

/-! ## Runs -/

theorem blank_ledger : Blank World.blank.ledger :=
  ⟨rfl, rfl, rfl, fun _ => rfl, rfl⟩

theorem WellFormed.step {σ σ' : World} {e : Event} (hw : WellFormed σ)
    (hstep : step cfg H σ e = some σ') : WellFormed σ' :=
  (step_refines true hw (fun h => nomatch h) hstep).2

/-- A run is some moves of the ledger. -/
theorem run_moves {es : List Event} {σ : World} (hrun : run (step cfg H) .blank es = some σ) :
    Relation.ReflTransGen (Move H true) World.blank.ledger σ.ledger ∧ WellFormed σ := by
  have hkeep : ∀ s e s', WellFormed s → step cfg H s e = some s' → WellFormed s' :=
    fun s e s' hw hs => hw.step hs
  have hall : Guarded (step cfg H) (fun _ _ => True) .blank es :=
    guarded_of_forall fun _ _ => trivial
  refine ⟨run_refines hkeep ?_ wellFormed_blank hall hrun,
    run_invariant' hkeep wellFormed_blank hrun⟩
  exact fun s e s' hw _ hs => (step_refines true hw (fun h => nomatch h) hs).1

/-- A run in which no error hides a commit and leads to a new session is some moves of a ledger
that is not lossy. -/
theorem run_moves_lossless {es : List Event} {σ : World}
    (hg : Guarded (step cfg H) (fun σ e => σ.losesCommit e = false) .blank es)
    (hrun : run (step cfg H) .blank es = some σ) :
    Relation.ReflTransGen (Move H false) World.blank.ledger σ.ledger := by
  refine run_refines (I := WellFormed) (fun s e s' hw hs => hw.step hs) ?_ wellFormed_blank hg hrun
  exact fun s e s' hw hok hs => (step_refines false hw (fun _ => hok) hs).1

end Pglite.Replica
