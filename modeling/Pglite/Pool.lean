import Mathlib.Data.List.Basic

/-!
# The connection pool

`src/multiple_process/pool.rs`. The pool's state is behind one lock, so every critical section
is one step. A caller is a task with a program counter; between its critical sections anything
else may happen, and where its future awaits something it may be dropped. A waiting caller owns
the receiver of a one-shot channel, whose sender sits in `waiters` until `release` pops it.

A connection may die at any time (`dead`). A connection that no task, queue or channel holds any
more has been dropped by Rust, which closes it without telling the pool.
-/

namespace Pglite

/-! ## State -/

/-- `PoolConfig`. -/
structure PoolConfig where
  min : Nat
  max : Nat
  idleTtl : Nat
  deriving DecidableEq, Repr

/-- `Conn`: which connection it is, and when it was last released. -/
structure Conn where
  id : Nat
  lastUsed : Nat
  deriving DecidableEq, Repr

/-- What a caller does with a connection: `Pool::roundtrip` of some bytes, `Pool::checkout` of a
`PinnedConn`, or `Pool::fire_and_forget` of some bytes. -/
inductive Job (ω : Type*)
  | roundtrip (wire : ω)
  | checkout
  | fireAndForget (wire : ω)
  deriving DecidableEq, Repr

/-- Where a caller is. -/
inductive Pc (ω : Type*)
  /-- At the critical section of `acquire`, or at that of `fire_and_forget`. -/
  | acquire (j : Job ω)
  | create (j : Job ω)
  /-- In the `select!` of `acquire`, with the receiver of the channel `w`. -/
  | wait (j : Job ω) (w : Nat)
  /-- Owning a connection: awaiting the reply of a round trip, or holding a `PinnedConn`. -/
  | hold (j : Job ω) (c : Conn)
  | release (c : Conn)
  | done
  deriving DecidableEq, Repr

/-- A one-shot channel: its receiver is there, it carries a connection, or its receiver is gone. -/
inductive Chan
  | open
  | sent (c : Conn)
  | closed
  deriving DecidableEq, Repr

/-- `PoolState`, with the callers and channels around it. `idle` is listed from the front and
`waiters` in the order of `push`. `live` is an integer, so that an underflow would show. -/
structure Pool (ω : Type*) where
  idle : List Conn
  waiters : List Nat
  live : Int
  chans : List Chan
  tasks : List (Pc ω)
  dead : List Nat
  spawned : Nat
  deriving DecidableEq, Repr

variable {ω : Type*}

/-- `Pool::start` at the time `now`: `min` connections, all idle. -/
def Pool.start (ω : Type*) (cfg : PoolConfig) (now : Nat) : Pool ω where
  idle := (List.range cfg.min).map fun i => ⟨i, now⟩
  waiters := []
  live := cfg.min
  chans := []
  tasks := []
  dead := []
  spawned := cfg.min

namespace Pool

/-! ## Critical sections -/

/-- The task `t` moves on to `pc`. -/
def goto (s : Pool ω) (t : Nat) (pc : Pc ω) : Pool ω :=
  { s with tasks := s.tasks.set t pc }

/-- The `pop_back` loop of `acquire` over the idle connections, listed from the back: the first
that is alive, those left, and how many dead ones it dropped. -/
def popAlive (dead : List Nat) : List Conn → Option Conn × List Conn × Nat
  | [] => (none, [], 0)
  | c :: cs =>
    if c.id ∈ dead then
      let (got, rest, n) := popAlive dead cs
      (got, rest, n + 1)
    else (some c, cs, 0)

/-- The critical section of `acquire`. -/
def acquire (cfg : PoolConfig) (s : Pool ω) (t : Nat) (j : Job ω) : Pool ω :=
  let (got, rest, n) := popAlive s.dead s.idle.reverse
  let s : Pool ω := { s with idle := rest.reverse, live := s.live - n }
  match got with
  | some c => s.goto t (.hold j c)
  | none =>
    if s.live < (cfg.max : Int) then { s with live := s.live + 1 }.goto t (.create j)
    else
      let w := s.chans.length
      { s with chans := s.chans ++ [Chan.open], waiters := s.waiters ++ [w] }.goto t (.wait j w)

/-- The critical section of `fire_and_forget`, which does not look whether the connection is
alive and gives up at the cap. -/
def fireAndForget (cfg : PoolConfig) (s : Pool ω) (t : Nat) (j : Job ω) : Pool ω :=
  match s.idle.reverse with
  | c :: rest => { s with idle := rest.reverse }.goto t (.hold j c)
  | [] =>
    if s.live < (cfg.max : Int) then { s with live := s.live + 1 }.goto t (.create j)
    else s.goto t .done

/-- The loop of `release` over the waiters, listed from the back: a waiter whose receiver is
there gets the connection. -/
def handOff (c : Conn) : List Nat → List Chan → Bool × List Nat × List Chan
  | [], chans => (false, [], chans)
  | w :: ws, chans =>
    match chans[w]? with
    | some .open => (true, ws, chans.set w (.sent c))
    | _ => handOff c ws chans

/-- The critical section of `release` for a connection found alive. -/
def release (s : Pool ω) (t : Nat) (c : Conn) : Pool ω :=
  let (sent, ws, chans) := handOff c s.waiters.reverse s.chans
  let s : Pool ω := { s with waiters := ws.reverse, chans := chans }
  if sent then s.goto t .done else { s with idle := s.idle ++ [c] }.goto t .done

/-- The loop of one reaper pass over the idle connections: those left, and how many went. -/
def reapFront (cfg : PoolConfig) (dead : List Nat) (now : Nat) : List Conn → List Conn × Nat
  | [] => ([], 0)
  | c :: cs =>
    if cfg.min < (c :: cs).length ∧ (c.id ∈ dead ∨ cfg.idleTtl ≤ now - c.lastUsed) then
      let (rest, n) := reapFront cfg dead now cs
      (rest, n + 1)
    else (c :: cs, 0)

/-! ## Steps -/

/-- What can happen next. -/
inductive Event (ω : Type*)
  | call (j : Job ω)
  /-- The task takes the lock at the start of `acquire` or `fire_and_forget`. -/
  | lock (t : Nat)
  | created (t : Nat) (ok : Bool) (now : Nat)
  | receive (t : Nat)
  /-- The deadline of the waiting task fires, and `select!` takes that branch. -/
  | timeout (t : Nat)
  /-- The reply is there, or sending failed, or the `PinnedConn` is dropped: `release` begins. -/
  | finish (t : Nat) (now : Nat)
  | putBack (t : Nat)
  | cancel (t : Nat)
  | die (id : Nat)
  | reap (now : Nat)
  deriving DecidableEq, Repr

/-- One step of the pool. -/
def step (cfg : PoolConfig) (s : Pool ω) : Event ω → Option (Pool ω)
  | .call j => some { s with tasks := s.tasks ++ [.acquire j] }
  | .lock t =>
    match s.tasks[t]? with
    | some (.acquire (.fireAndForget wire)) => some (s.fireAndForget cfg t (.fireAndForget wire))
    | some (.acquire j) => some (s.acquire cfg t j)
    | _ => none
  | .created t ok now =>
    match s.tasks[t]? with
    | some (.create j) =>
      if ok then
        some ({ s with spawned := s.spawned + 1 }.goto t (.hold j ⟨s.spawned, now⟩))
      else some ({ s with live := s.live - 1 }.goto t .done)
    | _ => none
  | .receive t =>
    match s.tasks[t]? with
    | some (.wait j w) =>
      match s.chans[w]? with
      | some (.sent c) =>
        let s : Pool ω := { s with chans := s.chans.set w .closed }
        if c.id ∈ s.dead then some ({ s with live := s.live - 1 }.goto t (.acquire j))
        else some (s.goto t (.hold j c))
      | _ => none
    | _ => none
  | .timeout t =>
    match s.tasks[t]? with
    | some (.wait _ w) => some ({ s with chans := s.chans.set w .closed }.goto t .done)
    | _ => none
  | .finish t now =>
    match s.tasks[t]? with
    | some (.hold _ c) =>
      if c.id ∈ s.dead then some ({ s with live := s.live - 1 }.goto t .done)
      else some (s.goto t (.release { c with lastUsed := now }))
    | _ => none
  | .putBack t =>
    match s.tasks[t]? with
    | some (.release c) => some (s.release t c)
    | _ => none
  | .cancel t =>
    match s.tasks[t]? with
    | some (.wait _ w) => some ({ s with chans := s.chans.set w .closed }.goto t .done)
    | some (.hold (.roundtrip _) _) => some (s.goto t .done)
    | _ => none
  | .die id => some { s with dead := id :: s.dead }
  | .reap now =>
    let (rest, n) := reapFront cfg s.dead now s.idle
    some { s with idle := rest, live := s.live - n }

/-! ## Slots -/

end Pool

/-- The task owns a connection. -/
def Pc.holds : Pc ω → Bool
  | .hold _ _ => true
  | .release _ => true
  | _ => false

/-- The task has reserved a slot and makes its connection. -/
def Pc.creates : Pc ω → Bool
  | .create _ => true
  | _ => false

/-- A connection is in the channel. -/
def Chan.isSent : Chan → Bool
  | .sent _ => true
  | _ => false

/-- The slots in use: idle connections, connections callers hold, creations in progress, and
connections sent to a waiter that has not yet received them. -/
def Pool.used (s : Pool ω) : Nat :=
  s.idle.length + s.tasks.countP Pc.holds + s.tasks.countP Pc.creates + s.chans.countP Chan.isSent

end Pglite
