import Pglite.Replica.RowSql
import Pglite.Settings
import Pglite.Transaction

/-!
# A query under a role

`PGlite::query_as` runs one statement in a transaction, after `SET LOCAL` of the claims and the
role, and rolls back. The transaction holds the one session of the engine through `tx_lock`, or a
connection of the pool through a pin. What the session is sent it runs in order, also after the
future that sent it is dropped.

Other calls are whatever they make of the session: each of their statements is an arbitrary
function on it. `plain` is the session as it would be without the call of `query_as`, on which
only theirs are run.
-/

namespace Pglite.Replica

/-! ## The call -/

/-- What a statement does when it is accepted. Other than transaction control it changes settings,
for the session or for the transaction, or none. -/
inductive Sql
  | begin
  | commit (chain : Bool)
  | rollback (chain : Bool)
  | plain (f : Settings → Settings → Settings × Settings)

/-- The arguments of `query_as`. `sql` is what the statement `text` does. -/
structure QueryAs where
  role : String
  claims : Option String
  text : String
  sql : Sql

/-- The statements that `query_as` makes. -/
inductive AsStmt
  | claims (claims : String)
  | role (role : String)
  | sql (text : String) (sql : Sql)

/-- What it sends. `tx.query` sends a statement in two batches. -/
inductive AsBatch
  | begin
  | parse (stmt : AsStmt)
  | bind (stmt : AsStmt)
  | rollback

def AsStmt.text : AsStmt → String
  | .claims c => s!"SET LOCAL request.jwt.claims = {lit c}"
  | .role r => s!"SET LOCAL ROLE {ident r}"
  | .sql t _ => t

/-- `frontend::parse` takes no text with a zero byte. -/
def AsBatch.sendable : AsBatch → Bool
  | .parse stmt => stmt.text.toList.all fun c => decide (c.toNat ≠ 0)
  | _ => true

/-- The batch is one of the caller's SQL. -/
def AsBatch.isSql : AsBatch → Bool
  | .parse (.sql _ _) => true
  | .bind (.sql _ _) => true
  | _ => false

def QueryAs.stmts (q : QueryAs) : List AsStmt :=
  (q.claims.map AsStmt.claims).toList ++ [.role q.role, .sql q.text q.sql]

/-- What the call sends between `BEGIN` and `ROLLBACK`, each batch after the answer to the one
before it. -/
def QueryAs.script (q : QueryAs) : List AsBatch :=
  q.stmts.flatMap fun stmt => [.parse stmt, .bind stmt]

/-! ## The session -/

/-- The settings of a new session, and how the server reads what is not taken as it is: a literal
with backslashes when `standard_conforming_strings` is off, and an identifier of more than 63
bytes. -/
structure Cluster where
  startup : Settings
  unescape : String → String
  truncate : String → String

def Cluster.fresh (cl : Cluster) : Settings.Session := ⟨cl.startup, none⟩

/-- The value of the literal `lit s`. -/
def Cluster.literal (cl : Cluster) (cur : Settings) (s : String) : String :=
  if cur "standard_conforming_strings" = some "off" ∧ '\\' ∈ s.toList then cl.unescape s else s

/-- The role of `SET ROLE`. `none`, quoted or not, is the role of the session itself. -/
def Cluster.role (cl : Cluster) (name : String) : Option String :=
  if name = "none" then none
  else if name.utf8ByteSize ≤ 63 then some name else some (cl.truncate name)

/-- In a failed block only the end of the block is accepted. -/
def AsStmt.ends : AsStmt → Bool
  | .sql _ (.commit _) => true
  | .sql _ (.rollback _) => true
  | _ => false

def Sql.exec (s : Settings.Session) : Sql → Settings.Session
  | .begin => s.begin
  | .commit chain => if chain then s.commit.begin else s.commit
  | .rollback chain => if chain then s.rollback.begin else s.rollback
  | .plain f => s.change f

def AsStmt.exec (cl : Cluster) (s : Settings.Session) : AsStmt → Settings.Session
  | .claims c => s.setLocal "request.jwt.claims" (some (cl.literal s.cur c))
  | .role r => s.setLocal "role" (cl.role r)
  | .sql _ action => action.exec s

/-- The session runs a batch, which the server may accept or not, and whether it answers without
an error. -/
def AsBatch.exec (cl : Cluster) (s : Settings.Session) (b : AsBatch) (accept : Bool) : Settings.Session × Bool :=
  match b with
  | .rollback => (s.rollback, true)
  | .begin => if s.aborted || !accept then (s.fail, false) else (s.begin, true)
  | .parse stmt =>
    if (s.aborted && !stmt.ends) || !accept then (s.fail, false) else (s, true)
  | .bind stmt =>
    if (s.aborted && !stmt.ends) || !accept then (s.fail, false) else (stmt.exec cl s, true)

/-! ## The system -/

inductive Holder
  | free
  | other
  | own
deriving DecidableEq

/-- A statement of another call, or a batch of this one. -/
inductive Item
  | other (f : Settings.Session → Settings.Session)
  | own (b : AsBatch)

/-- The engine, or a connection of the pool with its worker. -/
structure Line where
  session : Settings.Session
  /-- The session as it would be without the call. -/
  plain : Settings.Session
  queue : List Item
  holder : Holder
  alive : Bool

/-- Where the future of the call is. -/
inductive AsPc
  /-- Awaiting `tx_lock`, or a connection. -/
  | waiting
  /-- Awaiting the answer to `BEGIN`. -/
  | begin
  /-- Awaiting the answer to the batch `b`, with `rest` still to send. -/
  | running (b : AsBatch) (rest : List AsBatch)
  /-- In `rollback`, awaiting the answer. -/
  | ending
  | done

/-- A statement of another call has been run under the settings `found`, which would have been
`plain`. -/
structure Seen where
  line : Nat
  found : Settings
  plain : Settings

structure AsSystem where
  lines : Nat → Line
  pc : AsPc
  /-- The line that the call holds, or has held. -/
  line : Nat
  /-- Whether the batch that the call awaits has been answered with `Ok`. -/
  reply : Option Bool
  seen : List Seen
  /-- The settings of the session each time the caller's SQL was sent to it or run on it. -/
  sent : List Settings

/-- What becomes of a batch: it is answered, and the call may fail to make sense of the answer; or
the connection is lost, before or after the batch was run, and the worker connects again or
not. -/
inductive LineOutcome
  | answered (accept understood : Bool)
  | lost (ran reconnects : Bool)

inductive AsEvent
  /-- Another call takes the lock or the connection, sends a statement, and gives it back. -/
  | otherAcquire (c : Nat)
  | otherSend (c : Nat) (f : Settings.Session → Settings.Session)
  | otherRelease (c : Nat)
  /-- The call takes the lock or the connection and sends `BEGIN`. -/
  | acquire (c : Nat)
  /-- The engine or the worker runs the next batch. -/
  | engine (c : Nat) (o : LineOutcome)
  /-- The awaited answer is there. -/
  | resume
  /-- The future of the call is dropped. -/
  | cancel

namespace Line

def send (l : Line) (item : Item) : Line :=
  { l with queue := l.queue ++ [item] }

def held (l : Line) (holder : Holder) : Line :=
  { l with holder := holder }

/-- The session is replaced, or gone for good. -/
def replace (l : Line) (cl : Cluster) (alive : Bool) : Line :=
  { l with session := cl.fresh, plain := cl.fresh, alive := alive }

end Line

/-- The engine has one session. -/
def serves (via : Via) (c : Nat) : Bool :=
  match via with
  | .backend => c == 0
  | .pin => true

namespace AsSystem

def start (sessions : Nat → Settings.Session) : AsSystem where
  lines c := ⟨sessions c, sessions c, [], .free, true⟩
  pc := .waiting
  line := 0
  reply := none
  seen := []
  sent := []

def update (s : AsSystem) (c : Nat) (l : Line) : AsSystem :=
  { s with lines := Function.update s.lines c l }

/-- The guard or the pin is dropped. -/
def leave (s : AsSystem) : AsSystem :=
  { s.update s.line ((s.lines s.line).held .free) with pc := .done }

/-- The `Transaction` is dropped before it is done. -/
def drop (s : AsSystem) : AsSystem :=
  { s.update s.line (((s.lines s.line).send (.own .rollback)).held .free) with pc := .done }

/-- The call ends where it awaits. In single-process mode the `Transaction` does not exist yet
while `begin` awaits the answer to `BEGIN`. -/
def abandon (via : Via) (s : AsSystem) : AsSystem :=
  match s.pc, via with
  | .waiting, _ => { s with pc := .done }
  | .begin, .backend => s.leave
  | .begin, .pin => s.drop
  | .running _ _, _ => s.drop
  | .ending, _ => s.leave
  | .done, _ => s

def sendOwn (s : AsSystem) (b : AsBatch) (pc : AsPc) : AsSystem :=
  { s.update s.line ((s.lines s.line).send (.own b)) with
    pc := pc
    reply := none
    sent := if b.isSql then s.sent ++ [(s.lines s.line).session.cur] else s.sent }

/-- The call goes on. -/
def next (s : AsSystem) : List AsBatch → AsSystem
  | [] => s.sendOwn .rollback .ending
  | b :: rest => if b.sendable then s.sendOwn b (.running b rest) else s.drop

/-- The answer to the call. A line that is gone answers everything with an error. -/
def answer (s : AsSystem) : Option Bool :=
  if (s.lines s.line).alive then s.reply else some false

def resume (via : Via) (q : QueryAs) (s : AsSystem) : Option AsSystem :=
  match s.pc, s.answer with
  | .begin, some true => some (s.next q.script)
  | .begin, some false => some (s.abandon via)
  | .running _ rest, some true => some (s.next rest)
  | .running _ _, some false => some (s.abandon via)
  | .ending, some _ => some s.leave
  | _, _ => none

/-- The line `c` runs the item, with `rest` left in its queue. -/
def exec (cl : Cluster) (via : Via) (s : AsSystem) (c : Nat) (item : Item) (rest : List Item)
    (o : LineOutcome) : AsSystem :=
  let l := { s.lines c with queue := rest }
  match item, o with
  | .other f, .answered _ _ =>
    { s.update c { l with session := f l.session, plain := f l.plain } with
      seen := s.seen ++ [⟨c, l.session.cur, l.plain.cur⟩] }
  | .other _, .lost ran reconnects =>
    { s.update c (l.replace cl (reconnects && decide (via = .pin))) with
      seen := if ran then s.seen ++ [⟨c, l.session.cur, l.plain.cur⟩] else s.seen }
  | .own b, .answered accept understood =>
    let (session, ok) := b.exec cl l.session accept
    { s.update c { l with session := session } with
      reply := some (ok && understood)
      sent := if b.isSql then s.sent ++ [l.session.cur] else s.sent }
  | .own b, .lost ran reconnects =>
    { s.update c (l.replace cl (reconnects && decide (via = .pin))) with
      reply := some false
      sent := if ran && b.isSql then s.sent ++ [l.session.cur] else s.sent }

def step (cl : Cluster) (via : Via) (q : QueryAs) (s : AsSystem) : AsEvent → Option AsSystem
  | .otherAcquire c =>
    if (s.lines c).holder = .free ∧ serves via c = true then
      some (s.update c ((s.lines c).held .other))
    else none
  | .otherSend c f =>
    if (s.lines c).holder = .other then some (s.update c ((s.lines c).send (.other f))) else none
  | .otherRelease c =>
    if (s.lines c).holder = .other then some (s.update c ((s.lines c).held .free)) else none
  | .acquire c =>
    match s.pc with
    | .waiting =>
      if (s.lines c).holder = .free ∧ serves via c = true then
        some ({ s.update c ((s.lines c).held .own) with line := c }.sendOwn .begin .begin)
      else none
    | _ => none
  | .engine c o =>
    match (s.lines c).alive, (s.lines c).queue with
    | true, item :: rest => some (s.exec cl via c item rest o)
    | _, _ => none
  | .resume => s.resume via q
  | .cancel =>
    match s.pc with
    | .done => none
    | _ => some (s.abandon via)

end AsSystem

end Pglite.Replica
