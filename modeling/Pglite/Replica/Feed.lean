import Pglite.Replica.RowSql

/-!
# The upstream

The upstream commits transactions at increasing end positions, and a stream session sends them in
that order. What the replica may count on is written into the steps of a `Feed`:

* a session that asked for a position sends every transaction after it, none left out, and may at
  any time send one it has sent before, or one before the position asked for;
* a keepalive shows a position below the end of every transaction that the session has yet to
  begin.

It may abandon a transaction it has begun by beginning another. Apart from the transactions it
may send any message that belongs to none.
-/

namespace Pglite.Replica

/-- A committed upstream transaction, with the row changes on published tables. -/
structure UpstreamTxn where
  xid : UInt32
  commitTs : Int64
  commitLsn : Lsn
  endLsn : Lsn
  rows : List PgOutputMsg
  rows_isRow : ∀ m ∈ rows, m.isRow = true
  deriving DecidableEq

/-- The transaction changes rows. -/
def UpstreamTxn.hasRows (t : UpstreamTxn) : Bool :=
  !t.rows.isEmpty

/-- The upstream's history, in commit order. -/
structure History where
  txns : List UpstreamTxn
  ordered : txns.Pairwise fun t u => t.endLsn < u.endLsn

/-- The upstream's side of a session: it has sent everything up to `cursor` that it owes, and of
the transaction it is sending these row changes are left. -/
structure Feed where
  cursor : Lsn
  sending : Option (UpstreamTxn × List PgOutputMsg)
  deriving DecidableEq

/-- What the upstream sends next. -/
inductive Delivery
  /-- It begins a transaction. -/
  | begin (t : UpstreamTxn)
  /-- It goes on with the transaction: the next row change, or the commit. -/
  | next
  /-- It sends another message. -/
  | other (m : PgOutputMsg)
  deriving DecidableEq

namespace Feed

variable (H : History) (f : Feed)

/-- The session starts after a position. -/
def startAfter (l : Lsn) : Feed :=
  ⟨l, none⟩

/-- The transaction is not behind one that is still owed. -/
def MayBegin (t : UpstreamTxn) : Prop :=
  t ∈ H.txns ∧ ∀ u ∈ H.txns, f.cursor < u.endLsn → t.endLsn ≤ u.endLsn

instance (t : UpstreamTxn) : Decidable (f.MayBegin H t) :=
  inferInstanceAs (Decidable (_ ∧ _))

/-- The message belongs to no transaction. A row change or a commit does so where none has
begun. -/
def allowsOther : PgOutputMsg → Bool
  | .begin _ _ _ => false
  | .relation _ _ _ _ _ => true
  | .message _ _ => true
  | .other => true
  | _ => f.sending.isNone

/-- The next message and the feed after it. -/
def deliver : Delivery → Option (PgOutputMsg × Feed)
  | .begin t =>
    if f.MayBegin H t then
      some (.begin t.commitLsn t.commitTs t.xid, { f with sending := some (t, t.rows) })
    else none
  | .next =>
    match f.sending with
    | none => none
    | some (t, []) =>
      some (.commit t.commitLsn t.endLsn t.commitTs, ⟨max f.cursor t.endLsn, none⟩)
    | some (t, m :: rest) => some (m, { f with sending := some (t, rest) })
  | .other m => if f.allowsOther m then some (m, f) else none

/-- A keepalive may show the position: the `Begin` of every transaction at or below it has been
sent. -/
def AllowsKeepalive (walEnd : Lsn) : Prop :=
  ∀ t ∈ H.txns, f.cursor < t.endLsn → f.sending.map Prod.fst ≠ some t → walEnd < t.endLsn

instance (walEnd : Lsn) : Decidable (f.AllowsKeepalive H walEnd) :=
  inferInstanceAs (Decidable (∀ t ∈ H.txns, _))

end Feed

end Pglite.Replica
