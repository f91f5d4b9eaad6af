import Pglite.Server

/-!
# Round trips and transactions

`src/transaction.rs`, `exec_via`, `route` and `query_via` of `src/db.rs`, and the worker of a
pooled connection in `src/multiple_process/pool.rs`.

A `Link` is what a `Transaction` talks to: the engine's one session, or the worker thread of a
pinned connection together with the server session its socket leads to. Each round trip comes
with an `Outcome`, the choice of the server and of the socket. A worker that fails a round trip
answers with an error and then connects again, so the next command it takes runs on a fresh
session; `epoch` counts these replacements.
-/

namespace Pglite

/-! ## Round trips -/

/-- What happens to one round trip: the response arrives, or the I/O error `e` strikes after the
server ran the batch (with the verdict `ran`) or without its seeing it, and the worker's attempt
to connect again works or not. -/
inductive Outcome
  | answered (v : Verdict)
  | lost (ran : Option Verdict) (e : String) (reconnects : Bool)
  deriving DecidableEq, Repr

/-- The verdict of the server that ran the batch, if one did. -/
def Outcome.served : Outcome → Option Verdict
  | .answered v => some v
  | .lost ran _ _ => ran

/-- The far end of a round trip. -/
structure Link (α : Type*) where
  server : Server Nat α
  /-- How many times the worker has replaced its session. -/
  epoch : Nat
  /-- The worker, or the engine thread, still takes commands. -/
  alive : Bool
  deriving DecidableEq, Repr

/-- How a statement reaches the server: `Via` of `src/db.rs`. -/
inductive Via
  | backend
  | pin
  deriving DecidableEq, Repr

variable {α : Type*}

/-- One pass of the loop in `Conn::spawn`, seen from the caller of `Conn::send`. -/
def Conn.roundtrip (d : Catalog α) (l : Link α) (b : Batch α) (o : Outcome) :
    Link α × Except Error (List Message) :=
  if l.alive then
    match o with
    | .answered v =>
      let (s, response) := l.server.exec d l.epoch b v
      ({ l with server := s }, .ok response)
    | .lost ran e reconnects =>
      let s := match ran with
        | some v => (l.server.exec d l.epoch b v).1
        | none => l.server
      ({ server := s.hangUp, epoch := if reconnects then l.epoch + 1 else l.epoch,
         alive := reconnects }, .error (.io e))
  else (l, .error .closed)

/-- `Backend::roundtrip` on the engine thread, which has no socket to lose: a round trip is
answered, or the thread is gone. -/
def Engine.roundtrip (d : Catalog α) (l : Link α) (b : Batch α) (o : Outcome) :
    Link α × Except Error (List Message) :=
  if l.alive then
    match o with
    | .answered v =>
      let (s, response) := l.server.exec d l.epoch b v
      ({ l with server := s }, .ok response)
    | .lost _ _ _ => ({ l with server := l.server.hangUp, alive := false }, .error .closed)
  else (l, .error .closed)

/-- `PGlite::route`. -/
def route (d : Catalog α) : Via → Link α → Batch α → Outcome → Link α × Except Error (List Message)
  | .backend => Engine.roundtrip d
  | .pin => Conn.roundtrip d

/-- The server sees the batch of a round trip with this outcome. -/
def Link.reached (via : Via) (l : Link α) (o : Outcome) : Bool :=
  l.alive && match via, o with
    | _, .answered _ => true
    | .backend, .lost _ _ _ => false
    | .pin, .lost ran _ _ => ran.isSome

/-- `PGlite::exec_via`. The parser reads every message of this server. -/
def execVia (ls : Listeners) (d : Catalog α) (via : Via) (l : Link α) (b : Batch α) (o : Outcome) :
    Link α × Except Error Unit :=
  match route d via l b o with
  | (l', .error e) => (l', .error e)
  | (l', .ok response) => (l', (processResponse ls (response.map .ok)).2)

/-! ## Queries -/

/-- A parameter of a query: its binary form, or the reason it cannot be encoded. -/
abbrev Param := Except String (Option String)

/-- A row, with the columns it is decoded by. -/
structure Row where
  columns : List (String × Nat)
  cells : List (Option String)
  deriving DecidableEq, Repr

/-- `PGlite::parse_describe`: the last parameter and row descriptions of a response. -/
def parseDescribe (response : List Message) : List Nat × List (String × Nat) :=
  response.foldl (fun acc m => match m with
    | .parameterDescription oids => (oids, acc.2)
    | .rowDescription fields => (acc.1, fields)
    | _ => acc) ([], [])

/-- `query_via` between its round trips: the columns of the statement, when the parameters fit
it. -/
def queryDescribed (ls : Listeners) (params : List Param) (response : List Message) :
    Except Error (List (String × Nat)) := do
  (processResponse ls (response.map .ok)).2
  let (types, columns) := parseDescribe response
  if types.length ≠ params.length then
    throw (.protocol s!"statement takes {types.length} parameters, {params.length} given")
  match params.filterMap fun p => match p with | .error e => some e | .ok _ => none with
  | e :: _ => throw (.protocol e)
  | [] => return columns

/-- `query_via` after its second round trip: the rows of the response. -/
def queryRows (ls : Listeners) (columns : List (String × Nat)) (response : List Message) :
    Except Error (List Row) := do
  (processResponse ls (response.map .ok)).2
  return response.filterMap fun m => match m with
    | .dataRow cells => some ⟨columns, cells⟩
    | _ => none

/-- `PGlite::query_via`: two round trips. -/
def queryVia (ls : Listeners) (d : Catalog α) (via : Via) (l : Link α) (a : α)
    (params : List Param) (o₁ o₂ : Outcome) : Link α × Except Error (List Row) :=
  match route d via l (.parse a) o₁ with
  | (l', .error e) => (l', .error e)
  | (l', .ok response) =>
    match queryDescribed ls params response with
    | .error e => (l', .error e)
    | .ok columns =>
      match route d via l' .bind o₂ with
      | (l'', .error e) => (l'', .error e)
      | (l'', .ok response) => (l'', queryRows ls columns response)

/-! ## Transactions -/

/-- `Transaction`, with the link it holds. `returned` lists the statements whose call returned
`Ok`, which the program does not record. -/
structure Transaction (α : Type*) where
  via : Via
  link : Link α
  done : Bool
  returned : List α
  deriving DecidableEq, Repr

namespace Transaction

/-- `Transaction::begin`. When `BEGIN` fails on a pinned connection, the value built before it is
dropped, which queues a `ROLLBACK` with the outcome `oDrop`. -/
def begin (ls : Listeners) (d : Catalog α) (via : Via) (l : Link α) (o oDrop : Outcome) :
    Link α × Except Error (Transaction α) :=
  match execVia ls d via l .begin o with
  | (l', .ok ()) => (l', .ok { via := via, link := l', done := false, returned := [] })
  | (l', .error e) =>
    match via with
    | .pin => ((Conn.roundtrip d l' .rollback oDrop).1, .error e)
    | .backend => (l', .error e)

/-- `Transaction::exec`. -/
def exec (ls : Listeners) (d : Catalog α) (tx : Transaction α) (a : α) (o : Outcome) :
    Transaction α × Except Error Unit :=
  match execVia ls d tx.via tx.link (.query a) o with
  | (l, .ok ()) => ({ tx with link := l, returned := tx.returned ++ [a] }, .ok ())
  | (l, .error e) => ({ tx with link := l }, .error e)

/-- `Transaction::query`. -/
def query (ls : Listeners) (d : Catalog α) (tx : Transaction α) (a : α) (params : List Param)
    (o₁ o₂ : Outcome) : Transaction α × Except Error (List Row) :=
  match queryVia ls d tx.via tx.link a params o₁ o₂ with
  | (l, .ok rows) => ({ tx with link := l, returned := tx.returned ++ [a] }, .ok rows)
  | (l, .error e) => ({ tx with link := l }, .error e)

/-- `Transaction::commit`: the result is that of `process_response` on the answer. -/
def commit (ls : Listeners) (d : Catalog α) (tx : Transaction α) (o : Outcome) :
    Transaction α × Except Error Unit :=
  let (l, res) := execVia ls d tx.via tx.link .commit o
  ({ tx with link := l, done := true }, res)

/-- `Transaction::rollback`. -/
def rollback (ls : Listeners) (d : Catalog α) (tx : Transaction α) (o : Outcome) :
    Transaction α × Except Error Unit :=
  let (l, res) := execVia ls d tx.via tx.link .rollback o
  ({ tx with link := l, done := true }, res)

/-- `Drop for Transaction`: a `ROLLBACK` nobody waits for, unless the transaction is done. -/
def drop (d : Catalog α) (tx : Transaction α) (o : Outcome) : Link α :=
  if tx.done then tx.link else (route d tx.via tx.link .rollback o).1

end Transaction

/-! ## Calls -/

/-- A call on a transaction, with the outcomes of its round trips. -/
inductive Call (α : Type*)
  | exec (a : α) (o : Outcome)
  | query (a : α) (params : List Param) (o₁ o₂ : Outcome)

/-- The caller makes one call and ignores its result. -/
def Transaction.call (ls : Listeners) (d : Catalog α) (tx : Transaction α) : Call α →
    Transaction α
  | .exec a o => (tx.exec ls d a o).1
  | .query a params o₁ o₂ => (tx.query ls d a params o₁ o₂).1

/-- Calls as steps of a run. Every call is possible in every state. -/
def Transaction.callStep (ls : Listeners) (d : Catalog α) (tx : Transaction α) (c : Call α) :
    Option (Transaction α) :=
  some (tx.call ls d c)

/-- A connection just checked out, with nothing recorded yet: its session is in no block. -/
def Link.checkedOut (store : List (List α)) (unnamed : Option α) : Link α where
  server := { session := ⟨.idle, [], unnamed⟩, store := store, ran := [], ended := [] }
  epoch := 0
  alive := true

end Pglite
