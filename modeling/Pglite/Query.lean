import Pglite.Pool
import Pglite.Transaction
import Mathlib.Logic.Function.Basic

/-!
# Concurrent queries

`PGlite::query` and `Transaction::query` run `query_via`, whose two batches go to the server in
two separate round trips. Any number of calls may be between them.

`Queries` has the calls and the sessions their round trips go to. Which session a round trip
goes to comes with the event: on a `Transaction` it is always the one it holds, and in
multi-process mode (`PooledQueries`) it is the connection that the pool gave to the round trip.

To tell apart what different calls prepare, a statement is sent tagged with its call.
-/

namespace Pglite

variable {α : Type*}

/-! ## Calls -/

/-- How far a call has come. Once its statement is described it remembers its columns, and, for
the statements below, on which session that was and after how many round trips on it. -/
inductive Stage
  | parse
  | described (c trip : Nat) (columns : List (String × Nat))
  | returned (res : Except Error (List Row))

/-- One call of `query`. -/
structure QueryCall (α : Type*) where
  stmt : α
  params : List Param
  stage : Stage

/-- A `Bind` batch the server saw: whose it was, what it made the session run, and the columns
its rows are decoded by. -/
structure Bound (α : Type*) where
  call : Nat
  stmt : α
  ran : Option (Nat × α)
  columns : List (String × Nat)

/-- The calls, the sessions and how many round trips each has carried, and the `Bind` batches
the servers saw. -/
structure Queries (α : Type*) where
  link : Nat → Link (Nat × α)
  trips : Nat → Nat
  calls : List (QueryCall α)
  bound : List (Bound α)

/-- The catalog for tagged statements. -/
def Catalog.tag (d : Catalog α) : Catalog (Nat × α) :=
  ⟨fun x => d.params x.2, fun x => d.columns x.2⟩

namespace Queries

/-- What can happen to the calls. -/
inductive Event (α : Type*)
  /-- A call starts. -/
  | start (a : α) (params : List Param)
  /-- The first round trip of the call `i` takes place on the session `c`. -/
  | parse (i c : Nat) (o : Outcome)
  /-- The second round trip of the call `i` takes place on the session `c`. -/
  | bind (i c : Nat) (o : Outcome)

/-- The call `i` reaches the given stage through a round trip on `c` that leaves the link `l`. -/
def advance (s : Queries α) (i c : Nat) (l : Link (Nat × α)) (call : QueryCall α) : Queries α :=
  { s with
    link := Function.update s.link c l
    trips := Function.update s.trips c (s.trips c + 1)
    calls := s.calls.set i call }

/-- One step of `query_via` in some call, as in `queryVia`. -/
def step (ls : Listeners) (d : Catalog α) (via : Via) (s : Queries α) :
    Event α → Option (Queries α)
  | .start a params => some { s with calls := s.calls ++ [⟨a, params, .parse⟩] }
  | .parse i c o =>
    match s.calls[i]? with
    | some ⟨a, params, .parse⟩ =>
      let (l, res) := route d.tag via (s.link c) (.parse (i, a)) o
      let stage := match res with
        | .error e => .returned (.error e)
        | .ok response =>
          match queryDescribed ls params response with
          | .error e => .returned (.error e)
          | .ok columns => .described c (s.trips c + 1) columns
      some (s.advance i c l ⟨a, params, stage⟩)
    | _ => none
  | .bind i c o =>
    match s.calls[i]? with
    | some ⟨a, params, .described _ _ columns⟩ =>
      let (l, res) := route d.tag via (s.link c) .bind o
      let res := match res with
        | .error e => .error e
        | .ok response => queryRows ls columns response
      let s' := s.advance i c l ⟨a, params, .returned res⟩
      if (s.link c).reached via o then
        let ran := (s.link c).server.session.runs .bind
        some { s' with bound := s.bound ++ [⟨i, a, ran, columns⟩] }
      else some s'
    | _ => none

/-! ## On a transaction -/

/-- No call yet on a transaction. -/
def ofTransaction (tx : Transaction (Nat × α)) : Queries α :=
  ⟨fun _ => tx.link, fun _ => 0, [], []⟩

/-- The session an event uses. -/
def Event.session? : Event α → Option Nat
  | .start _ _ => none
  | .parse _ c _ => some c
  | .bind _ c _ => some c

/-- Calls polled concurrently on one transaction have one session to go to. -/
def stepTransaction (ls : Listeners) (d : Catalog α) (via : Via) (s : Queries α) (e : Event α) :
    Option (Queries α) :=
  if e.session?.all (· = 0) then s.step ls d via e else none

end Queries

/-! ## In multi-process mode -/

/-- Which of its two batches a round trip carries. -/
inductive Half
  | parse
  | bind
  deriving DecidableEq, Repr

/-- The calls of `PGlite::query` with the pool their round trips go through. `trip` gives, for
each call, the task of its latest round trip and which half it carries. -/
structure PooledQueries (α : Type*) where
  pool : Pool (Nat × Half)
  queries : Queries α
  trip : List (Nat × Half)

namespace PooledQueries

/-- A new connection of the pool has a session of its own. -/
def start (α : Type*) (cfg : PoolConfig) (now : Nat) : PooledQueries α where
  pool := Pool.start _ cfg now
  queries := ⟨fun _ => Link.checkedOut [] none, fun _ => 0, [], []⟩
  trip := []

/-- What can happen next. -/
inductive Event (α : Type*)
  /-- `PGlite::query` is called. -/
  | query (a : α) (params : List Param)
  /-- The call `i` goes on to its second round trip. -/
  | again (i : Nat)
  /-- The round trip of the task `t` ends. -/
  | finish (t now : Nat) (o : Outcome)
  /-- Anything else in the pool. -/
  | pool (e : Pool.Event (Nat × Half))

/-- What an event does in the pool, if it can happen. A connection is marked dead by its worker
as it ends. -/
def poolEvent (s : PooledQueries α) : Event α → Option (Pool.Event (Nat × Half))
  | .query _ _ => some (.call (.roundtrip (s.queries.calls.length, .parse)))
  | .again i =>
    match s.queries.calls[i]?, s.trip[i]? with
    | some ⟨_, _, .described _ _ _⟩, some (t, .parse) =>
      if s.pool.tasks[t]? = some .done then some (.call (.roundtrip (i, .bind))) else none
    | _, _ => none
  | .finish t now _ => some (.finish t now)
  | .pool (.call _) => none
  | .pool (.finish _ _) => none
  | .pool (.die id) => if (s.queries.link id).alive then none else some (.die id)
  | .pool e => some e

/-- What an event does to the calls. -/
def queryEvent (s : PooledQueries α) : Event α → Option (Queries.Event α)
  | .query a params => some (.start a params)
  | .finish t _ o =>
    match s.pool.tasks[t]? with
    | some (.hold (.roundtrip (i, .parse)) c) => some (.parse i c.id o)
    | some (.hold (.roundtrip (i, .bind)) c) => some (.bind i c.id o)
    | _ => none
  | _ => none

/-- The round trips the calls are at after an event. -/
def nextTrip (s : PooledQueries α) : Event α → List (Nat × Half)
  | .query _ _ => s.trip ++ [(s.pool.tasks.length, .parse)]
  | .again i => s.trip.set i (s.pool.tasks.length, .bind)
  | _ => s.trip

/-- One step of the pool and the calls together. -/
def step (cfg : PoolConfig) (ls : Listeners) (d : Catalog α) (s : PooledQueries α) (e : Event α) :
    Option (PooledQueries α) :=
  match (s.poolEvent e).bind (s.pool.step cfg) with
  | none => none
  | some pool =>
    match s.queryEvent e with
    | none => some ⟨pool, s.queries, s.nextTrip e⟩
    | some q => (s.queries.step ls d .pin q).map fun queries => ⟨pool, queries, s.nextTrip e⟩

end PooledQueries

end Pglite
