import Pglite.Server

/-!
# Single-process mode: one session behind `tx_lock`

`PGlite` of `src/db.rs` over `Backend::InProcess`, and `src/transaction.rs` without a pin. All
calls share the engine's one session. A call takes `tx_lock`, queues its commands for the engine
and awaits a reply after each; the engine thread runs the queue in order. A `Transaction` keeps
the lock until it ends.

Between two polls of its future a call is at an await point, where the future may be dropped;
from one await point to the next it runs without being interrupted, so each event takes one call
from one await point to another.
-/

namespace Pglite

variable {α : Type*}

/-! ## Calls -/

/-- Who sends commands to the engine: a call of the in-process API, or a client of the socket
gateway. -/
inductive Party
  | task (t : Nat)
  | client (k : Nat)
  deriving DecidableEq, Repr

/-- The calls of the API, each with the statement it makes. `last` says whether `unlisten_token`
removes the last callback of its channel. -/
inductive ApiCall (α : Type*)
  | exec (a : α)
  | query (a : α)
  | copyIn (a : α)
  | copyOut (a : α)
  | listen (a : α)
  | unlisten (a : α)
  | unlistenToken (a : α) (last : Bool)
  | transaction
  deriving DecidableEq, Repr

/-- The batches a call sends under the lock, each after the reply to the one before it. -/
def ApiCall.batches : ApiCall α → List (Batch α)
  | .exec a => [.query a]
  | .query a => [.parse a, .bind]
  | .copyIn a => [.query a]
  | .copyOut a => [.query a]
  | .listen a => [.query a]
  | .unlisten a => [.query a]
  | .unlistenToken a last => if last then [.query a] else []
  | .transaction => [.begin]

/-- Where the future of a call is. -/
inductive ApiPc (α : Type*)
  | lock
  /-- Awaiting the reply to the command `n`, with `rest` still to send. -/
  | reply (n : Nat) (rest : List (Batch α))
  | begin (n : Nat)
  | tx
  | ending (n : Nat)
  | done
  deriving DecidableEq, Repr

/-- What a call awaits after its first batch, sent as the command `n`. -/
def ApiCall.afterFirst : ApiCall α → Nat → List (Batch α) → ApiPc α
  | .transaction, n, _ => .begin n
  | _, n, rest => .reply n rest

structure Task (α : Type*) where
  call : ApiCall α
  pc : ApiPc α
  deriving DecidableEq, Repr

/-! ## State -/

/-- `EngineCommand::Exec`: batches that go to the engine together. -/
structure Command (α : Type*) where
  who : Party
  batches : List (Batch α)
  deriving DecidableEq, Repr

/-- A batch the engine ran, and the block it found the session in. -/
structure Found (α : Type*) where
  who : Party
  batch : Batch α
  block : Block Party
  deriving DecidableEq, Repr

/-- The lock and its holder, the commands sent so far, how many of them the engine has run and
what it answered, its session, and the calls. -/
structure Serial (α : Type*) where
  lock : Option Party
  sent : List (Command α)
  executed : Nat
  answers : List (List Message)
  server : Server Party α
  found : List (Found α)
  tasks : List (Task α)
  deriving DecidableEq, Repr

/-- The engine after its boot. -/
def Serial.start (α : Type*) : Serial α where
  lock := none
  sent := []
  executed := 0
  answers := []
  server := { session := Session.fresh Party α, store := [], ran := [], ended := [] }
  found := []
  tasks := []

namespace Serial

/-- The engine runs the batches of one command, until one of them fails. -/
def runBatches (d : Catalog α) (who : Party) (s : Server Party α) :
    List (Batch α) → List Verdict → Server Party α × List (Found α) × List Message
  | [], _ => (s, [], [])
  | b :: bs, vs =>
    let (s', response) := s.exec d who b (vs.headD (.accept []))
    let found := ⟨who, b, s.session.block⟩
    match (processResponse Listeners.none (response.map .ok)).2 with
    | .error _ => (s', [found], response)
    | .ok () =>
      let (s'', more, responses) := runBatches d who s' bs vs.tail
      (s'', found :: more, response ++ responses)

/-! ## Steps -/

/-- What can happen next. -/
inductive Event (α : Type*)
  | call (c : ApiCall α)
  /-- The call takes the lock and runs to its next await point. -/
  | acquire (t : Nat)
  | engine (vs : List Verdict)
  /-- The awaited reply is there, and the call goes on with its next batch, if `more` and if it
  has one, or returns. -/
  | resume (t : Nat) (more : Bool)
  /-- `exec` sends its statement through the `Transaction`, or `query` one of its two batches. -/
  | use (t : Nat) (b : Batch α)
  | commit (t : Nat)
  | rollback (t : Nat)
  /-- The `Transaction` is dropped, also inside a `commit` or `rollback` not yet polled. -/
  | drop (t : Nat)
  | cancel (t : Nat)
  deriving DecidableEq, Repr

/-- The call `t` is now at `pc`. -/
def goto (s : Serial α) (t : Nat) (task : Task α) (pc : ApiPc α) : Serial α :=
  { s with tasks := s.tasks.set t { task with pc := pc } }

/-- A command is queued for the engine. -/
def send (s : Serial α) (who : Party) (bs : List (Batch α)) : Serial α :=
  { s with sent := s.sent ++ [⟨who, bs⟩] }

/-- The guard is dropped. -/
def unlock (s : Serial α) : Serial α :=
  { s with lock := none }

/-- The engine runs its next command and answers it. -/
def engine (d : Catalog α) (s : Serial α) (cmd : Command α) (vs : List Verdict) : Serial α :=
  let (server, found, response) := runBatches d cmd.who s.server cmd.batches vs
  { s with
    executed := s.executed + 1
    answers := s.answers ++ [response]
    server := server
    found := s.found ++ found }

/-- One step of the calls and the engine. -/
def step (ls : Listeners) (d : Catalog α) (s : Serial α) : Event α → Option (Serial α)
  | .call c => some { s with tasks := s.tasks ++ [⟨c, .lock⟩] }
  | .acquire t =>
    match s.tasks[t]?, s.lock with
    | some ⟨c, .lock⟩, none =>
      match c.batches with
      | [] => some (s.goto t ⟨c, .lock⟩ .done)
      | b :: rest =>
        let s' := { s.send (.task t) [b] with lock := some (.task t) }
        some (s'.goto t ⟨c, .lock⟩ (c.afterFirst s.sent.length rest))
    | _, _ => none
  | .engine vs =>
    match s.sent[s.executed]? with
    | some cmd => some (s.engine d cmd vs)
    | none => none
  | .resume t more =>
    match s.tasks[t]? with
    | some ⟨c, .reply n rest⟩ =>
      if n < s.executed then
        match rest, more with
        | b :: rest, true =>
          some ((s.send (.task t) [b]).goto t ⟨c, .reply n rest⟩ (.reply s.sent.length rest))
        | _, _ => some (s.unlock.goto t ⟨c, .reply n rest⟩ .done)
      else none
    | some ⟨c, .begin n⟩ =>
      match s.answers[n]? with
      | none => none
      | some response =>
        match (processResponse ls (response.map .ok)).2 with
        | .ok () => some (s.goto t ⟨c, .begin n⟩ .tx)
        | .error _ => some (s.unlock.goto t ⟨c, .begin n⟩ .done)
    | some ⟨c, .ending n⟩ =>
      if n < s.executed then some (s.unlock.goto t ⟨c, .ending n⟩ .done) else none
    | _ => none
  | .use t b =>
    match s.tasks[t]? with
    | some ⟨_, .tx⟩ => if b.isStatement then some (s.send (.task t) [b]) else none
    | _ => none
  | .commit t =>
    match s.tasks[t]? with
    | some ⟨c, .tx⟩ =>
      some ((s.send (.task t) [.commit]).goto t ⟨c, .tx⟩ (.ending s.sent.length))
    | _ => none
  | .rollback t =>
    match s.tasks[t]? with
    | some ⟨c, .tx⟩ =>
      some ((s.send (.task t) [.rollback]).goto t ⟨c, .tx⟩ (.ending s.sent.length))
    | _ => none
  -- `Drop` queues the `ROLLBACK` before the fields, and with them the guard, are dropped.
  | .drop t =>
    match s.tasks[t]? with
    | some ⟨c, .tx⟩ => some ((s.send (.task t) [.rollback]).unlock.goto t ⟨c, .tx⟩ .done)
    | _ => none
  | .cancel t =>
    match s.tasks[t]? with
    | some ⟨c, .lock⟩ => some (s.goto t ⟨c, .lock⟩ .done)
    | some ⟨c, .reply n rest⟩ => some (s.unlock.goto t ⟨c, .reply n rest⟩ .done)
    -- The value whose `Drop` would roll back does not exist yet.
    | some ⟨c, .begin n⟩ => some (s.unlock.goto t ⟨c, .begin n⟩ .done)
    | some ⟨c, .ending n⟩ => some (s.unlock.goto t ⟨c, .ending n⟩ .done)
    | _ => none

end Serial

end Pglite
