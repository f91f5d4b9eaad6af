import Pglite.Serial

/-!
# The socket gateway

`src/socket/mod.rs`: in single-process mode the doorman thread serves one socket client at a
time. It collects the client's messages up to one that ends a batch, takes `tx_lock` for that
batch alone, forwards it to the engine and waits for the reply. The thread blocks in this, so it
cannot be cancelled. When the client goes, `serve_client` returns and nothing else happens.

A batch holds any SQL: a list of the batches of `Server`, with transaction control among them.
-/

namespace Pglite

variable {α : Type*}

/-- Where the doorman is: in `accept`, reading from the client `k`, waiting for `tx_lock` with a
batch of the client, or waiting for the reply to it. -/
inductive Doorman (α : Type*)
  | accepting
  | serving (k : Nat)
  | locking (k : Nat) (bs : List (Batch α))
  | reply (k n : Nat)
  deriving DecidableEq, Repr

/-- The client that is connected. -/
def Doorman.client? : Doorman α → Option Nat
  | .accepting => none
  | .serving k => some k
  | .locking k _ => some k
  | .reply k _ => some k

/-- The in-process API, the doorman, and how many clients there have been. -/
structure Gateway (α : Type*) where
  serial : Serial α
  doorman : Doorman α
  clients : Nat
  deriving DecidableEq, Repr

namespace Gateway

/-- The gateway just started, before any call. -/
def start (α : Type*) : Gateway α := ⟨Serial.start α, .accepting, 0⟩

/-- What can happen next. -/
inductive Event (α : Type*)
  /-- In-process calls and the engine. -/
  | inProcess (e : Serial.Event α)
  /-- A client connects and is greeted. -/
  | connect
  /-- The client completes a batch. -/
  | batch (bs : List (Batch α))
  /-- The doorman gets the lock and forwards the batch. -/
  | acquire
  /-- The reply arrives and goes to the client. -/
  | reply
  /-- The client is gone: it terminates, disconnects, or cannot be written to. -/
  | disconnect
  deriving DecidableEq, Repr

/-- One step of the calls, the engine and the doorman. -/
def step (ls : Listeners) (d : Catalog α) (s : Gateway α) : Event α → Option (Gateway α)
  | .inProcess e => (s.serial.step ls d e).map fun serial => { s with serial := serial }
  | .connect =>
    match s.doorman with
    | .accepting => some { s with doorman := .serving s.clients, clients := s.clients + 1 }
    | _ => none
  | .batch bs =>
    match s.doorman with
    | .serving k => some { s with doorman := .locking k bs }
    | _ => none
  | .acquire =>
    match s.doorman, s.serial.lock with
    | .locking k bs, none =>
      some { s with
        serial := { s.serial.send (.client k) bs with lock := some (.client k) }
        doorman := .reply k s.serial.sent.length }
    | _, _ => none
  | .reply =>
    match s.doorman with
    | .reply k n =>
      if n < s.serial.executed then some { s with serial := s.serial.unlock, doorman := .serving k }
      else none
    | _ => none
  | .disconnect =>
    match s.doorman with
    | .serving _ => some { s with doorman := .accepting }
    | _ => none

end Gateway

end Pglite
