import Pglite.Replica.Stream

/-!
# The replica

`src/replica/mod.rs` and `src/replica/meta.rs`: `prepare`, `run`, `stream_loop`, `apply` and
`broadcast`, with the local database, the upstream's side of the session and the subscribers
around them. One event is one thing the replica thread does, or one thing that happens to it. The
event carries what is decided elsewhere: what the upstream sends, what the local database and the
upstream answer, when a connection breaks and when the process dies.

`apply` is two steps, so that a failure can strike before its `COMMIT` has taken effect or after.
The `done` flag is looked at between messages; here the thread may look at it late.

A first run whose `bump_security` fails leaves what a crash right after it leaves. Statements on
the replicated schema and on roles only show by whether they fail.
-/

namespace Pglite.Replica

open Text

/-! ## The local database -/

/-- What the replica looks at of its `ReplicaConfig`. -/
structure ReplicaConfig where
  slotName : String
  publication : String
  deriving DecidableEq

/-- The row of `_pglite_replica`. -/
structure ReplicaRow where
  slotName : String
  publication : String
  watermarkLsn : String
  fingerprint : String
  deriving DecidableEq

/-- `ReplicaState`. -/
structure ReplicaState where
  slotName : String
  publication : String
  watermark : Lsn
  fingerprint : String
  deriving DecidableEq

/-- The local database: the row of `_pglite_replica`, and the statements of each transaction that
`apply` has committed. -/
structure Db where
  row : Option ReplicaRow
  log : List (List String)
  deriving DecidableEq

namespace Db

variable (db : Db)

/-- `load_state`. -/
def loadState : Except Error (Option ReplicaState) :=
  match db.row with
  | none => .ok none
  | some row => do
    let watermark ← Lsn.fromPgStr row.watermarkLsn
    .ok (some ⟨row.slotName, row.publication, watermark, row.fingerprint⟩)

/-- `init_state`. -/
def initState (slotName publication : String) (watermark : Lsn) (fp : String) : Db :=
  { db with row := some ⟨slotName, publication, watermark.toPgStr, fp⟩ }

/-- `update_fingerprint`. -/
def updateFingerprint (fp : String) : Db :=
  { db with row := db.row.map fun row => { row with fingerprint := fp } }

/-- The last statement of `apply`. -/
def watermarkStmt (l : Lsn) : String :=
  "UPDATE _pglite_replica SET watermark_lsn = " ++ lit l.toPgStr ++
    ", updated_at = now() WHERE id = 1"

/-- The transaction of `apply` commits. -/
def commit (stmts : List String) (l : Lsn) : Db where
  row := db.row.map fun row => { row with watermarkLsn := l.toPgStr }
  log := db.log ++ [stmts ++ [watermarkStmt l]]

end Db

/-- What came of a statement that changes the local database: it was done, it failed without an
effect, or it took effect and an error was returned all the same. -/
inductive Outcome
  | done
  | failed (e : Error)
  | lost (e : Error)
  deriving DecidableEq

/-! ## State -/

/-- What the clones of a `Replica` share, and the fingerprint its thread passes to `run`. A
subscriber is the number of its channel. -/
structure Memory where
  done : Bool
  halted : Bool
  haltReason : Option String
  watermark : Lsn
  ackPos : Lsn
  subscribers : List Nat
  fingerprint : String

/-- A new `Replica` whose thread is about to enter `run`. -/
def Memory.boot (start : Lsn) (fp : String) : Memory where
  done := false
  halted := false
  haltReason := none
  watermark := start
  ackPos := start
  subscribers := []
  fingerprint := fp

/-- `Replica::feedback_lsn`. -/
def Memory.feedbackLsn (m : Memory) : Lsn :=
  max m.watermark m.ackPos

/-- The transaction that `stream_loop` gives to `apply`. -/
structure Pending where
  buf : TxnBuf
  commitLsn : Lsn
  endLsn : Lsn
  commitTs : Int64
  deriving DecidableEq

/-- What is broadcast of it. -/
def Pending.announcement (p : Pending) : CommittedTransaction where
  xid := p.buf.xid
  commitLsn := p.commitLsn
  endLsn := p.endLsn
  commitTs := if p.buf.commitTs ≠ 0 then p.buf.commitTs else p.commitTs
  changes := p.buf.changes

/-- Where the replica thread is. -/
inductive Phase
  /-- There is no replica. -/
  | down
  /-- `run`, without a connection. -/
  | connecting
  /-- `run`, with a connection on which no stream has started. -/
  | connected
  /-- The loop of `stream_loop`. -/
  | streaming (s : Stream)
  /-- In `apply`, and whether its `COMMIT` has taken effect. -/
  | applying (s : Stream) (p : Pending) (committed : Bool)
  /-- The thread has ended. -/
  | ended

/-- There is no replica. -/
def Phase.isDown : Phase → Bool
  | .down => true
  | _ => false

/-- A status message: what it reports, and what was committed locally when it was sent. -/
structure Status where
  reported : Lsn
  log : List (List String)

/-- The replica and everything around it. -/
structure World where
  db : Db
  /-- The consistent point of the replication slot. -/
  slot : Option Lsn
  mem : Memory
  phase : Phase
  feed : Feed
  /-- What each channel has received, whether its receiver is gone, and the number of channels. -/
  inbox : Nat → List CommittedTransaction
  hungUp : Nat → Bool
  channels : Nat
  /-- The status messages sent so far. -/
  sent : List Status

/-- Before the first start. -/
def World.blank : World where
  db := ⟨none, []⟩
  slot := none
  mem := .boot 0 ""
  phase := .down
  feed := .startAfter 0
  inbox := fun _ => []
  hungUp := fun _ => false
  channels := 0
  sent := []

/-- What the local database and the upstream answer while one message is handled. -/
structure Answers where
  addColumns : Except Error Unit
  schemaDelta : Except Error (List TableDef)
  updateFingerprint : Outcome
  security : Except Error Unit

/-- Everything is done, and no table is published. -/
def Answers.ok : Answers :=
  ⟨.ok (), .ok [], .done, .ok ()⟩

/-! ## Errors -/

/-- `Replica::is_fatal`. -/
def isFatal : Error → Bool
  | .io _ => false
  | .upstream _ => false
  | .database sqlstate _ _ _ => sqlstate ∉ ["55006", "57P01", "57P02", "57P03"]
  | _ => true

/-- `Replica::map_invalidated`. -/
def mapInvalidated (cfg : ReplicaConfig) (e : Error) : Error :=
  match e with
  | .database "55000" _ _ _ =>
    .replicaHalted ("replication slot '" ++ cfg.slotName ++ "' was invalidated (upstream WAL " ++
      "retention exceeded); run Replica::decommission and start again for a full resync")
  | e => e

namespace World

variable (σ : World)

/-- The thread moves on. -/
def goto (ph : Phase) : World :=
  { σ with phase := ph }

/-- `Replica::halt`. -/
def halt (e : Error) : World :=
  { σ with
    mem :=
      if e = .closed then { σ.mem with done := true }
      else { σ.mem with done := true, haltReason := some e.display, halted := true }
    phase := .ended }

/-- What `run` does when `stream_loop` returns an error. -/
def sessionFails (e : Error) : World :=
  if isFatal e then σ.halt e
  else { σ with mem := { σ.mem with ackPos := σ.mem.watermark }, phase := .connecting }

/-- `send_status` of the feedback position. -/
def sendStatus : World :=
  { σ with sent := σ.sent ++ [⟨σ.mem.feedbackLsn, σ.db.log⟩] }

/-- `ack_pos.fetch_max`. -/
def ack (l : Lsn) : World :=
  { σ with mem := { σ.mem with ackPos := max σ.mem.ackPos l } }

/-! ## Messages -/

/-- `update_fingerprint`, and what it returns. -/
def storeFingerprint (fp : String) : Outcome → World × Except Error Unit
  | .done => ({ σ with db := σ.db.updateFingerprint fp }, .ok ())
  | .failed e => (σ, .error e)
  | .lost e => ({ σ with db := σ.db.updateFingerprint fp }, .error e)

/-- `Replica::apply_added_columns`. -/
def applyAddedColumns (added : List RelColumn) (a : Answers) : Except Error Unit :=
  if added = [] then .ok () else a.addColumns

/-- The `Relation` branch. -/
def onRelation (s : Stream) (a : Answers) (relId : UInt32) (ns name : String)
    (columns : List RelColumn) : World :=
  let newCols := columns.map fun c => (c.name, c.typeOid)
  let line := fingerprintLine ns name newCols
  let s' := s.addRel relId ⟨ns, name, columns⟩
  match s.expected.lookup (ns, name) with
  | some want =>
    if want = line then σ.goto (.streaming s')
    else
      match classifySchemaChange want newCols with
      | .additive oldCount =>
        match applyAddedColumns (columns.drop oldCount) a with
        | .error e => σ.sessionFails e
        | .ok () =>
          let expected : Expected := s.expected.insert (ns, name) line
          match σ.storeFingerprint expected.toFingerprint a.updateFingerprint with
          | (σ', .error e) => σ'.sessionFails e
          | (σ', .ok ()) => σ'.goto (.streaming { s' with expected := expected })
      | .incompatible reason =>
        σ.sessionFails (.replicaHalted (s!"incompatible schema change on {ns}.{name}: {reason}; " ++
          "run Replica::decommission and start again for a full resync"))
  | none =>
    σ.sessionFails
      (.replicaHalted s!"relation {ns}.{name} is not part of the replicated fingerprint")

/-- `Replica::resync_schema`. -/
def resyncSchema (s : Stream) (a : Answers) : World × Except Error Stream :=
  match a.schemaDelta with
  | .error e => (σ, .error e)
  | .ok newTables =>
    let fp := fingerprint newTables
    if sorted (lines fp) = sorted s.expected.values then (σ, .ok s)
    else
      match σ.storeFingerprint fp a.updateFingerprint with
      | (σ', .error e) => (σ', .error e)
      | (σ', .ok ()) =>
        let expected : Expected := .ofFingerprint fp
        (σ', .ok { s with
          expected := expected
          rels := fun i => (s.rels i).filter fun r =>
            (expected.lookup (r.schema, r.name)).isSome })

/-- The `Message` branch. -/
def onSignal (s : Stream) (a : Answers) (msgPrefix : String) : World :=
  if msgPrefix = ddlSignalPrefix then
    match σ.resyncSchema s a with
    | (σ', .error e) => σ'.sessionFails e
    | (σ', .ok s') =>
      match a.security with
      | .error e => σ'.sessionFails e
      | .ok () => σ'.goto (.streaming s')
  else σ.goto (.streaming s)

/-- The `Commit` branch, up to the call of `apply`. -/
def onCommit (s : Stream) (commitLsn endLsn : Lsn) (commitTs : Int64) : World :=
  match s.txn with
  | none => σ.sessionFails (.protocol "commit without begin on replication stream")
  | some buf =>
    let s' := { s with txn := none }
    if endLsn ≤ σ.mem.watermark then σ.goto (.streaming s')
    else if buf.stmts = [] then (σ.ack endLsn).goto (.streaming s')
    else σ.goto (.applying s' ⟨buf, commitLsn, endLsn, commitTs⟩ false)

/-- One message of the stream. -/
def onMessage (s : Stream) (a : Answers) : PgOutputMsg → World
  | .begin _ commitTs xid => σ.goto (.streaming { s with txn := some ⟨xid, commitTs, [], []⟩ })
  | .relation relId ns name _ columns => σ.onRelation s a relId ns name columns
  | .commit commitLsn endLsn commitTs => σ.onCommit s commitLsn endLsn commitTs
  | .message msgPrefix _ => σ.onSignal s a msgPrefix
  | .other => σ.goto (.streaming s)
  | m =>
    match s.onRow m with
    | .error e => σ.sessionFails e
    | .ok s' => σ.goto (.streaming s')

/-! ## Commits -/

/-- `Replica::broadcast`: a subscriber whose receiver is gone is dropped. -/
def broadcast (ct : CommittedTransaction) : World :=
  let live := σ.mem.subscribers.filter fun k => !σ.hungUp k
  { σ with
    mem := { σ.mem with subscribers := live }
    inbox := live.foldl (fun inbox k => Function.update inbox k (inbox k ++ [ct])) σ.inbox }

/-- `stream_loop` after `apply` has returned `Ok`. -/
def applied (s : Stream) (p : Pending) : World :=
  let σ : World := { σ with mem := { σ.mem with watermark := p.endLsn } }
  let σ := (σ.ack p.endLsn).goto (.streaming s)
  if p.buf.changes = [] then σ else σ.broadcast p.announcement

/-! ## Starting -/

/-- `Replica::prepare`: the world, the position to start from and the fingerprint. On a first run
the slot's consistent point and the published tables are what the upstream says. -/
def prepare (cfg : ReplicaConfig) (consistentPoint : Lsn) (tables : List TableDef) :
    Except Error (World × Lsn × String) := do
  match ← σ.db.loadState with
  | some st =>
    if st.slotName ≠ cfg.slotName ∨ st.publication ≠ cfg.publication then
      .error (.replicaConfig (s!"replica meta mismatch: stored slot/publication " ++
        s!"{st.slotName}/{st.publication} differ from configured " ++
        s!"{cfg.slotName}/{cfg.publication}"))
    else .ok (σ, st.watermark, st.fingerprint)
  | none =>
    let fp := fingerprint tables
    let db := σ.db.initState cfg.slotName cfg.publication consistentPoint fp
    .ok ({ σ with db := db, slot := some consistentPoint }, consistentPoint, fp)

/-- `stream_loop` up to its loop, on a connection whose stream has started. -/
def openStream : World :=
  { σ.sendStatus with
    feed := .startAfter σ.mem.watermark
    phase := .streaming ⟨.ofFingerprint σ.mem.fingerprint, fun _ => none, none⟩ }

end World

/-! ## Steps -/

/-- What can happen next. -/
inductive Event
  /-- `Replica::start`, with what the upstream says on a first run. -/
  | start (consistentPoint : Lsn) (tables : List TableDef)
  /-- `connect_and_auth` in `run` returns. -/
  | connect (r : Except Error Unit)
  /-- The stream starts. -/
  | openStream
  /-- The stream cannot start, or reading from it fails. -/
  | readFails (e : Error)
  /-- Another step of `stream_loop` fails: sending a status, or the security poll. -/
  | fails (e : Error)
  /-- The status interval has passed. -/
  | status
  | keepalive (walEnd : Lsn) (replyRequested : Bool)
  | deliver (d : Delivery) (a : Answers)
  /-- The `COMMIT` of `apply` takes effect. -/
  | localCommit
  | applyReturns (r : Except Error Unit)
  | subscribe
  | dropReceiver (k : Nat)
  /-- `Replica::stop`. -/
  | stop
  /-- The thread finds the `done` flag set. -/
  | quit
  /-- The process dies. -/
  | crash

/-- One step. -/
def step (cfg : ReplicaConfig) (H : History) (σ : World) : Event → Option World
  | .start consistentPoint tables =>
    match σ.phase with
    | .down =>
      match σ.prepare cfg consistentPoint tables with
      | .error _ => some σ
      | .ok (σ', start, fp) => some { σ' with mem := .boot start fp, phase := .connected }
    | _ => none
  | .connect r =>
    match σ.phase, r with
    | .connecting, .ok () => some (σ.goto .connected)
    | .connecting, .error e => some (if isFatal e then σ.halt e else σ)
    | _, _ => none
  | .openStream =>
    match σ.phase with
    | .connected => some σ.openStream
    | _ => none
  | .readFails e =>
    match σ.phase with
    | .connected => some (σ.sessionFails (mapInvalidated cfg e))
    | .streaming _ => some (σ.sessionFails (mapInvalidated cfg e))
    | _ => none
  | .fails e =>
    match σ.phase with
    | .connected => some (σ.sessionFails e)
    | .streaming _ => some (σ.sessionFails e)
    | _ => none
  | .status =>
    match σ.phase with
    | .streaming _ => some σ.sendStatus
    | _ => none
  | .keepalive walEnd replyRequested =>
    match σ.phase with
    | .streaming s =>
      if σ.feed.AllowsKeepalive H walEnd then
        let σ' := if s.txn.isNone then σ.ack walEnd else σ
        some (if replyRequested then σ'.sendStatus else σ')
      else none
    | _ => none
  | .deliver d a =>
    match σ.phase with
    | .streaming s =>
      (σ.feed.deliver H d).map fun (m, feed) => { σ with feed := feed }.onMessage s a m
    | _ => none
  | .localCommit =>
    match σ.phase with
    | .applying s p false =>
      some { σ with db := σ.db.commit p.buf.stmts p.endLsn, phase := .applying s p true }
    | _ => none
  | .applyReturns r =>
    match σ.phase, r with
    | .applying s p true, .ok () => some (σ.applied s p)
    | .applying _ _ _, .error e => some (σ.sessionFails e)
    | _, _ => none
  | .subscribe =>
    if σ.phase.isDown then none
    else
      some { σ with
        mem := { σ.mem with subscribers := σ.mem.subscribers ++ [σ.channels] }
        channels := σ.channels + 1 }
  | .dropReceiver k => some { σ with hungUp := Function.update σ.hungUp k true }
  | .stop => some { σ with mem := { σ.mem with done := true } }
  | .quit =>
    if σ.mem.done then
      match σ.phase with
      | .connecting => some (σ.goto .ended)
      | .connected => some (σ.goto .ended)
      | .streaming _ => some (σ.goto .ended)
      | _ => none
    else none
  | .crash => if σ.phase.isDown then none else some (σ.goto .down)

end Pglite.Replica
