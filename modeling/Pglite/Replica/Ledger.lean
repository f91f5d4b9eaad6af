import Pglite.OrderedLog
import Pglite.Replica.Run

/-!
# The ledger

What the replica is for, without its schema handling: it takes the upstream's transactions one
after the other, commits each locally together with the new watermark, and tells the upstream how
far it has got. A `Move` is one thing that can happen to these positions. Whether a `COMMIT` that
took effect may be answered with an error after which the replica reconnects is the parameter
`lossy`.

`Core` holds with such answers or without: every transaction with row changes up to the stored
watermark is committed, and neither the memory's watermark nor the acknowledged position passes
one that is not. `Exact` needs that there are none: then the memory agrees with the table, and the
log is the list of the transactions owed up to the watermark.
-/

namespace Pglite.Replica

open OrderedLog

/-- Where the replica is, as far as positions go. -/
inductive Stage
  | down
  /-- Between sessions. -/
  | idle
  /-- In a session, with the open transaction. -/
  | open (txn : Option TxnBuf)
  | applying (p : Pending) (committed : Bool)
  | ended

/-- An error here leads to a new session. -/
def Stage.MayRetry (lossy : Bool) : Stage → Prop
  | .down => False
  | .idle => True
  | .open _ => True
  | .applying _ committed => committed = true → lossy = true
  | .ended => False

/-- The positions and what goes with them. -/
structure Ledger where
  /-- The watermark in `_pglite_replica`. -/
  durable : Option Lsn
  slot : Option Lsn
  log : List (List String)
  /-- The two counters in memory. -/
  memory : Lsn
  acked : Lsn
  stage : Stage
  feed : Feed
  inbox : Nat → List CommittedTransaction
  sent : List Status

/-- The feed after the commit of a transaction. -/
def Feed.pass (f : Feed) (t : UpstreamTxn) : Feed :=
  ⟨max f.cursor t.endLsn, none⟩

/-- One thing that happens to the positions. -/
inductive Move (H : History) (lossy : Bool) : Ledger → Ledger → Prop
  /-- The first run stores the consistent point. -/
  | init (l : Ledger) (cp : Lsn) (hstage : l.stage = .down) (hdurable : l.durable = none) :
      Move H lossy l { l with durable := some cp, slot := some cp }
  /-- The thread starts from the stored watermark. -/
  | boot (l : Ledger) (d : Lsn) (hstage : l.stage = .down) (hdurable : l.durable = some d) :
      Move H lossy l { l with memory := d, acked := d, stage := .idle }
  | report (l : Ledger) (hstage : l.stage ≠ .down) :
      Move H lossy l { l with sent := l.sent ++ [⟨max l.memory l.acked, l.log⟩] }
  | openStream (l : Ledger) (hstage : l.stage = .idle) :
      Move H lossy l { l with feed := .startAfter l.memory, stage := .open none }
  | keepalive (l : Ledger) (walEnd : Lsn) (hstage : l.stage = .open none)
      (hallows : l.feed.AllowsKeepalive H walEnd) :
      Move H lossy l { l with acked := max l.acked walEnd }
  | begin (l : Ledger) (txn : Option TxnBuf) (t : UpstreamTxn) (hstage : l.stage = .open txn)
      (hmay : l.feed.MayBegin H t) :
      Move H lossy l { l with
        feed := { l.feed with sending := some (t, t.rows) }
        stage := .open (some ⟨t.xid, t.commitTs, [], []⟩) }
  | row (l : Ledger) (buf : TxnBuf) (t : UpstreamTxn) (m : PgOutputMsg) (rest : List PgOutputMsg)
      (known : UInt32 → Option Rel) (stmt : String) (changes : List RowChange)
      (hstage : l.stage = .open (some buf)) (hsending : l.feed.sending = some (t, m :: rest))
      (hrenders : Renders known m stmt changes) :
      Move H lossy l { l with
        feed := { l.feed with sending := some (t, rest) }
        stage := .open (some (buf.push stmt changes)) }
  /-- The commit of a transaction that is not above the watermark. -/
  | skip (l : Ledger) (buf : TxnBuf) (t : UpstreamTxn) (hstage : l.stage = .open (some buf))
      (hsending : l.feed.sending = some (t, [])) (hle : t.endLsn ≤ l.memory) :
      Move H lossy l { l with feed := l.feed.pass t, stage := .open none }
  /-- The commit of a transaction without statements. -/
  | empty (l : Ledger) (buf : TxnBuf) (t : UpstreamTxn) (hstage : l.stage = .open (some buf))
      (hsending : l.feed.sending = some (t, [])) (hlt : l.memory < t.endLsn)
      (hstmts : buf.stmts = []) :
      Move H lossy l { l with
        acked := max l.acked t.endLsn, feed := l.feed.pass t, stage := .open none }
  | apply (l : Ledger) (buf : TxnBuf) (t : UpstreamTxn) (hstage : l.stage = .open (some buf))
      (hsending : l.feed.sending = some (t, [])) (hlt : l.memory < t.endLsn)
      (hstmts : buf.stmts ≠ []) :
      Move H lossy l { l with
        feed := l.feed.pass t
        stage := .applying ⟨buf, t.commitLsn, t.endLsn, t.commitTs⟩ false }
  | commit (l : Ledger) (p : Pending) (hstage : l.stage = .applying p false) :
      Move H lossy l { l with
        durable := some p.endLsn
        log := l.log ++ [p.buf.stmts ++ [Db.watermarkStmt p.endLsn]]
        stage := .applying p true }
  /-- `apply` has returned `Ok`, and every channel has got the announcement or not. -/
  | finish (l : Ledger) (p : Pending) (inbox : Nat → List CommittedTransaction)
      (hstage : l.stage = .applying p true)
      (hinbox : ∀ k, inbox k = l.inbox k ∨ inbox k = l.inbox k ++ [p.announcement]) :
      Move H lossy l { l with
        memory := p.endLsn, acked := max l.acked p.endLsn, inbox := inbox, stage := .open none }
  | retry (l : Ledger) (f : Feed) (hstage : l.stage.MayRetry lossy) :
      Move H lossy l { l with acked := l.memory, feed := f, stage := .idle }
  | halt (l : Ledger) (f : Feed) (hstage : l.stage ≠ .down) :
      Move H lossy l { l with feed := f, stage := .ended }
  | crash (l : Ledger) : Move H lossy l { l with stage := .down }

/-! ## Transactions -/

/-- The local transaction is that of the upstream transaction: a statement for each of its row
changes, and the new watermark. -/
def CommittedAs (t : UpstreamTxn) (entry : List String) : Prop :=
  ∃ stmts changes, Rendered t.rows stmts changes ∧ entry = stmts ++ [Db.watermarkStmt t.endLsn]

/-- What is broadcast of the upstream transaction. -/
structure Announces (t : UpstreamTxn) (ct : CommittedTransaction) : Prop where
  xid : ct.xid = t.xid
  commitLsn : ct.commitLsn = t.commitLsn
  endLsn : ct.endLsn = t.endLsn
  commitTs : ct.commitTs = t.commitTs
  changes : ∃ stmts, Rendered t.rows stmts ct.changes

/-- The local database has the transaction: the backfill copied what had been committed at the
consistent point, and the others are committed by `apply`. -/
def Settled (cp : Lsn) (log : List (List String)) (t : UpstreamTxn) : Prop :=
  t.endLsn ≤ cp ∨ ∃ entry ∈ log, CommittedAs t entry

theorem Settled.append {cp : Lsn} {log : List (List String)} {t : UpstreamTxn}
    (h : Settled cp log t) (entry : List String) : Settled cp (log ++ [entry]) t := by
  rcases h with h | ⟨e, he, hc⟩
  · exact .inl h
  · exact .inr ⟨e, List.mem_append_left _ he, hc⟩

/-- The transactions the replica has to commit: those with row changes above the consistent
point. -/
def History.owed (H : History) (cp : Lsn) : List UpstreamTxn :=
  H.txns.filter fun t => t.hasRows && decide (cp < t.endLsn)

theorem History.mem_owed {H : History} {cp : Lsn} {t : UpstreamTxn} :
    t ∈ H.owed cp ↔ t ∈ H.txns ∧ t.hasRows = true ∧ cp < t.endLsn := by
  simp [History.owed]

theorem History.owed_ordered (H : History) (cp : Lsn) :
    Ordered UpstreamTxn.endLsn (H.owed cp) :=
  Ordered.filter H.ordered _

/-- Every transaction with row changes that ends at or below `l` ends at or below `m`. -/
def NoRowsBetween (H : History) (m l : Lsn) : Prop :=
  ∀ t ∈ H.txns, t.hasRows = true → t.endLsn ≤ l → t.endLsn ≤ m

namespace NoRowsBetween

variable {H : History} {m m' l l' : Lsn}

theorem refl (H : History) (m : Lsn) : NoRowsBetween H m m :=
  fun _ _ _ hle => hle

theorem mono (h : NoRowsBetween H m l) (hm : m ≤ m') : NoRowsBetween H m' l :=
  fun t ht hrows hle => (h t ht hrows hle).trans hm

theorem max (h : NoRowsBetween H m l) (h' : NoRowsBetween H m l') :
    NoRowsBetween H m (max l l') := by
  intro t ht hrows hle
  rcases le_max_iff.1 hle with hle | hle
  · exact h t ht hrows hle
  · exact h' t ht hrows hle

end NoRowsBetween

/-! ## The open transaction -/

/-- The buffer holds what has been sent of the transaction. -/
structure BufferOf (t : UpstreamTxn) (rest : List PgOutputMsg) (buf : TxnBuf) : Prop where
  xid : buf.xid = t.xid
  commitTs : buf.commitTs = t.commitTs
  rendered : ∃ rows, t.rows = rows ++ rest ∧ Rendered rows buf.stmts buf.changes

/-- The buffer is that of the transaction the upstream is sending. -/
def Buffered (H : History) (f : Feed) : Option TxnBuf → Prop
  | none => f.sending = none
  | some buf => ∃ t rest, f.sending = some (t, rest) ∧ f.MayBegin H t ∧ BufferOf t rest buf

theorem BufferOf.start (t : UpstreamTxn) : BufferOf t t.rows ⟨t.xid, t.commitTs, [], []⟩ :=
  ⟨rfl, rfl, [], rfl, .nil⟩

theorem BufferOf.push {t : UpstreamTxn} {m : PgOutputMsg} {rest : List PgOutputMsg}
    {buf : TxnBuf} (h : BufferOf t (m :: rest) buf) {known : UInt32 → Option Rel} {stmt : String}
    {changes : List RowChange} (hm : Renders known m stmt changes) :
    BufferOf t rest (buf.push stmt changes) := by
  obtain ⟨rows, hrows, hr⟩ := h.rendered
  exact ⟨h.xid, h.commitTs, rows ++ [m], by simp [hrows], hr.snoc hm⟩

/-- The buffer of a transaction that has been sent whole. -/
theorem BufferOf.whole {t : UpstreamTxn} {buf : TxnBuf} (h : BufferOf t [] buf) :
    Rendered t.rows buf.stmts buf.changes := by
  obtain ⟨rows, hrows, hr⟩ := h.rendered
  rw [hrows, List.append_nil]
  exact hr

theorem BufferOf.hasRows_iff {t : UpstreamTxn} {buf : TxnBuf} (h : BufferOf t [] buf) :
    t.hasRows = true ↔ buf.stmts ≠ [] := by
  rw [Ne, h.whole.stmts_eq_nil_iff]
  simp [UpstreamTxn.hasRows]

/-- What is given to `apply` is the whole transaction. -/
structure PendingOf (t : UpstreamTxn) (p : Pending) : Prop where
  commitLsn : p.commitLsn = t.commitLsn
  endLsn : p.endLsn = t.endLsn
  commitTs : p.commitTs = t.commitTs
  buffer : BufferOf t [] p.buf

theorem PendingOf.committedAs {t : UpstreamTxn} {p : Pending} (h : PendingOf t p) :
    CommittedAs t (p.buf.stmts ++ [Db.watermarkStmt p.endLsn]) :=
  ⟨_, _, h.buffer.whole, by rw [h.endLsn]⟩

theorem PendingOf.announces {t : UpstreamTxn} {p : Pending} (h : PendingOf t p) :
    Announces t p.announcement where
  xid := h.buffer.xid
  commitLsn := h.commitLsn
  endLsn := h.endLsn
  commitTs := by
    simp only [Pending.announcement, h.buffer.commitTs, h.commitTs, ite_self]
  changes := ⟨_, h.buffer.whole⟩

/-- After the commit of a transaction nothing with row changes is behind the session but what was
behind it before, and the transaction itself. -/
theorem Feed.MayBegin.between {H : History} {f : Feed} {t : UpstreamTxn} (hmay : f.MayBegin H t)
    {m : Lsn} (h : NoRowsBetween H m f.cursor) {u : UpstreamTxn} (hu : u ∈ H.txns)
    (hrows : u.hasRows = true) (hle : u.endLsn ≤ (f.pass t).cursor) : u.endLsn ≤ m ∨ u = t := by
  by_cases hcursor : u.endLsn ≤ f.cursor
  · exact .inl (h u hu hrows hcursor)
  · right
    have hlt : f.cursor < u.endLsn := lt_of_not_ge hcursor
    have htu : t.endLsn ≤ u.endLsn := hmay.2 u hu hlt
    have hut : u.endLsn ≤ t.endLsn := (le_max_iff.1 hle).resolve_left hcursor
    exact Ordered.eq_of_key_eq H.ordered hu hmay.1 (le_antisymm hut htu)

end Pglite.Replica
