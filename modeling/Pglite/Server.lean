import Pglite.Message

/-!
# A server session

What the crate relies on from PostgreSQL: transaction blocks, the one unnamed prepared statement
of a session, and the shape of each response. A statement is an element of an arbitrary type
`α`; whether the server accepts it, and the rows it gives, are the server's choice and come with
each batch as a `Verdict`.

A block remembers who opened it, and the server keeps a record of every statement it ran with
the block it ran in, of what has been committed, and of how each block ended.
-/

namespace Pglite

/-! ## Transaction blocks -/

/-- The transaction status of a session. An open block remembers its opener. -/
inductive Block (ο : Type*)
  | idle
  | active (opener : ο)
  | failed (opener : ο)
  deriving DecidableEq, Repr

namespace Block

variable {ο : Type*}

/-- The opener of the block the session is in, if any. -/
def opener? : Block ο → Option ο
  | .idle => none
  | .active p => some p
  | .failed p => some p

/-- The status byte of `ReadyForQuery`. -/
def status : Block ο → Char
  | .idle => 'I'
  | .active _ => 'T'
  | .failed _ => 'E'

@[simp] theorem opener?_idle : (Block.idle : Block ο).opener? = none := rfl
@[simp] theorem opener?_active (p : ο) : (Block.active p).opener? = some p := rfl
@[simp] theorem opener?_failed (p : ο) : (Block.failed p).opener? = some p := rfl

@[simp] theorem opener?_eq_none {b : Block ο} : b.opener? = none ↔ b = .idle := by
  cases b <;> simp [opener?]

/-- A database error fails the block the session is in. -/
def fail : Block ο → Block ο
  | .idle => .idle
  | .active p => .failed p
  | .failed p => .failed p

@[simp] theorem opener?_fail (b : Block ο) : b.fail.opener? = b.opener? := by
  cases b <;> rfl

end Block

/-! ## Batches and sessions -/

/-- The batches of frontend messages the crate sends, up to and including the message that makes
the server answer: a simple `Query` with transaction control or a statement, `Parse`, `Describe`
and `Sync` of the unnamed statement, or `Bind`, `Execute` and `Sync` of it. -/
inductive Batch (α : Type*)
  | begin
  | commit
  | rollback
  | query (a : α)
  | parse (a : α)
  | bind
  deriving DecidableEq, Repr

/-- The batches of `exec` and `query`, which hold no transaction control. -/
def Batch.isStatement {α : Type*} : Batch α → Bool
  | .query _ => true
  | .parse _ => true
  | .bind => true
  | _ => false

/-- What the server says about a statement it parses: how many parameters it takes, and the
names and type OIDs of its columns. -/
structure Catalog (α : Type*) where
  params : α → Nat
  columns : α → List (String × Nat)

/-- Statements without parameters and columns. -/
def Catalog.plain : Catalog String := ⟨fun _ => 0, fun _ => []⟩

/-- The server's choice for one batch: the rows of a statement it accepts, or the fields of the
error it raises. -/
inductive Verdict
  | accept (rows : List (List (Option String)))
  | reject (fields : ErrorFields)
  deriving DecidableEq, Repr

structure Session (ο α : Type*) where
  block : Block ο
  /-- The statements run in the open block. -/
  pending : List α
  /-- The unnamed prepared statement. -/
  unnamed : Option α
  deriving DecidableEq, Repr

/-- A session just after its startup. -/
def Session.fresh (ο α : Type*) : Session ο α := ⟨.idle, [], none⟩

/-- The statement a batch makes the session run, if any. -/
def Session.runs {ο α : Type*} (s : Session ο α) : Batch α → Option α
  | .query a => match s.block with
    | .failed _ => none
    | _ => some a
  | .bind => match s.block with
    | .failed _ => none
    | _ => s.unnamed
  | _ => none

/-- One session, and what the server records. -/
structure Server (ο α : Type*) where
  session : Session ο α
  /-- The committed transactions, oldest first. -/
  store : List (List α)
  /-- The statements run, each with the block it ran in. -/
  ran : List (α × Block ο)
  /-- The openers of the blocks that ended, and whether they were committed. -/
  ended : List (ο × Bool)
  deriving DecidableEq, Repr

namespace Server

variable {ο α : Type*}

/-- The statements whose effects later queries see. -/
def visible (s : Server ο α) : List α := s.store.flatten

/-- `current transaction is aborted`. -/
def abortedFields : ErrorFields :=
  [('C', "25P02"),
    ('M', "current transaction is aborted, commands ignored until end of transaction block")]

/-- `unnamed prepared statement does not exist`. -/
def noStatementFields : ErrorFields :=
  [('C', "26000"), ('M', "unnamed prepared statement does not exist")]

/-- The end of every response. -/
def ready (s : Server ο α) (ms : List Message) : Server ο α × List Message :=
  (s, ms ++ [.readyForQuery s.session.block.status])

/-- The batch raises an error. -/
def raise (s : Server ο α) (fields : ErrorFields) : Server ο α × List Message :=
  ready { s with session.block := s.session.block.fail } [.errorResponse fields]

/-- The open block ends, with its effects kept or not. -/
def endBlock (s : Server ο α) (p : ο) (kept : Bool) : Server ο α :=
  { s with
    session := { s.session with block := .idle, pending := [] }
    store := if kept then s.store ++ [s.session.pending] else s.store
    ended := s.ended ++ [(p, kept)] }

/-- The server runs the statement `a`. -/
def runStmt (s : Server ο α) (a : α) (v : Verdict) (before : List Message) :
    Server ο α × List Message :=
  let s := { s with ran := s.ran ++ [(a, s.session.block)] }
  match v with
  | .reject fields => raise s fields
  | .accept rows =>
    let done := before ++ rows.map Message.dataRow ++ [.commandComplete "OK"]
    match s.session.block with
    | .idle => ready { s with store := s.store ++ [[a]] } done
    | _ => ready { s with session.pending := s.session.pending ++ [a] } done

/-- A simple query destroys the unnamed statement, and so does `Parse` before it makes a new one;
both do so in a failed block as well. -/
def dropUnnamed (s : Server ο α) : Batch α → Server ο α
  | .bind => s
  | _ => { s with session.unnamed := none }

@[simp] theorem dropUnnamed_bind (s : Server ο α) : s.dropUnnamed .bind = s := rfl

@[simp] theorem dropUnnamed_block (s : Server ο α) (b : Batch α) :
    (s.dropUnnamed b).session.block = s.session.block := by
  cases b <;> rfl

@[simp] theorem dropUnnamed_pending (s : Server ο α) (b : Batch α) :
    (s.dropUnnamed b).session.pending = s.session.pending := by
  cases b <;> rfl

@[simp] theorem dropUnnamed_store (s : Server ο α) (b : Batch α) :
    (s.dropUnnamed b).store = s.store := by
  cases b <;> rfl

@[simp] theorem dropUnnamed_ran (s : Server ο α) (b : Batch α) :
    (s.dropUnnamed b).ran = s.ran := by
  cases b <;> rfl

@[simp] theorem dropUnnamed_ended (s : Server ο α) (b : Batch α) :
    (s.dropUnnamed b).ended = s.ended := by
  cases b <;> rfl

/-- The server answers one batch. A block opened by it is opened by `o`. -/
def exec (d : Catalog α) (o : ο) (s : Server ο α) (b : Batch α) (v : Verdict) :
    Server ο α × List Message :=
  let s := s.dropUnnamed b
  match b, s.session.block with
  -- `COMMIT` outside a block is only a warning, and in a failed one it rolls back.
  | .commit, .idle => ready s [.commandComplete "COMMIT"]
  | .commit, .failed p => ready (s.endBlock p false) [.commandComplete "ROLLBACK"]
  | .commit, .active p =>
    match v with
    | .accept _ => ready (s.endBlock p true) [.commandComplete "COMMIT"]
    | .reject fields => ready (s.endBlock p false) [.errorResponse fields]
  | .rollback, .idle => ready s [.commandComplete "ROLLBACK"]
  | .rollback, .active p => ready (s.endBlock p false) [.commandComplete "ROLLBACK"]
  | .rollback, .failed p => ready (s.endBlock p false) [.commandComplete "ROLLBACK"]
  | _, .failed _ => raise s abortedFields
  | .begin, _ =>
    match v with
    | .reject fields => raise s fields
    | .accept _ =>
      let block := match s.session.block with
        | .idle => .active o
        | b => b
      ready { s with session.block := block } [.commandComplete "BEGIN"]
  | .query a, _ => runStmt s a v []
  | .parse a, _ =>
    match v with
    | .reject fields => raise s fields
    | .accept _ =>
      ready { s with session.unnamed := some a }
        [.parseComplete, .parameterDescription (List.replicate (d.params a) 0),
          .rowDescription (d.columns a)]
  | .bind, _ =>
    match s.session.unnamed with
    | none => raise s noStatementFields
    | some a => runStmt s a v [.bindComplete]

/-- The session is gone: the server rolls back what it had open. -/
def hangUp (s : Server ο α) : Server ο α :=
  { s with
    session := Session.fresh ο α
    ended := s.ended ++ (s.session.block.opener?.map fun p => (p, false)).toList }

end Server

end Pglite
