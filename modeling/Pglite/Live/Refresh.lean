import Mathlib.Data.List.Basic
import Mathlib.Logic.Function.Basic
import Pglite.Live.Tables

/-!
# The refresher

The part of `live_query` after its trigger transaction has committed: it listens to the channel
of each watched table, runs the query once, and starts the thread that runs it again at every
wake-up. Other sessions commit at any moment in between.
-/

namespace Pglite.Live

variable {τ κ ρ : Type*}

/-! ## The model -/

/-- Where `live_query` stands, and later the refresher. -/
inductive Phase (ρ : Type*)
  /-- In the loop over `watched` that listens, or past it and before the first select. -/
  | listen
  | first (rows : ρ)
  | spawn
  | recv
  | drain
  | query
  | rerun (rows : ρ)
  | stopped

/-- The rows have been read: only a wake-up makes the refresher read again. -/
def Phase.hasRead : Phase ρ → Bool
  | .first _ | .spawn | .recv | .rerun _ => true
  | .listen | .drain | .query | .stopped => false

/-- `live_query` has returned. -/
def Phase.returned : Phase ρ → Bool
  | .recv | .drain | .query | .rerun _ | .stopped => true
  | .listen | .first _ | .spawn => false

/-- A statement on a table, with the contents it leaves. -/
structure Stmt (τ κ : Type*) where
  table : τ
  kind : Kind
  contents : κ

/-- One live query, the tables of the database and what is on its way between them. -/
structure LiveQuery (τ κ ρ : Type*) where
  phase : Phase ρ
  watched : List τ
  /-- The tables whose channel is listened to, one for each token. -/
  listened : List τ
  data : τ → κ
  /-- Notifications sent and not yet delivered, by the table of their channel. -/
  inFlight : List τ
  wake : Nat
  done : Bool
  /-- The rows last passed to the callback. -/
  last : Option ρ

inductive LiveQuery.Event (τ κ : Type*)
  | commit (stmts : List (Stmt τ κ))
  | deliver (i : Nat)
  /-- A wake-up of other origin: `refresh`, or a notification that reaches the callback before
  the answer to `LISTEN` because another live query listens to the same channel. -/
  | nudge
  | listen
  | select
  | callback
  | spawn
  | recv
  | tryRecv
  | query
  | unsubscribe

namespace LiveQuery

variable [DecidableEq τ]

def start (watched : List τ) (data : τ → κ) : LiveQuery τ κ ρ where
  phase := .listen
  watched := watched
  listened := []
  data := data
  inFlight := []
  wake := 0
  done := false
  last := none

/-- The contents of the tables after the statements. -/
def applyAll (data : τ → κ) (stmts : List (Stmt τ κ)) : τ → κ :=
  stmts.foldl (fun data x => Function.update data x.table x.contents) data

/-- Some statement on the table fires its trigger. -/
def notifies (stmts : List (Stmt τ κ)) (t : τ) : Bool :=
  stmts.any fun x => decide (x.table = t) && x.kind.fires

/-- The rows that the query gives on the tables as they are. -/
def rows (q : List κ → ρ) (s : LiveQuery τ κ ρ) : ρ :=
  q (s.watched.map s.data)

/-- The callback of a listener: it wakes the refresher unless the live query is done. -/
def wakeBy (s : LiveQuery τ κ ρ) (n : Nat) : LiveQuery τ κ ρ :=
  if s.done then s else { s with wake := s.wake + n }

/-- The query `q` reads the contents of the watched tables. A transaction sends one notification
for each channel, however many of its statements fire the trigger. -/
def step (q : List κ → ρ) (s : LiveQuery τ κ ρ) : Event τ κ → Option (LiveQuery τ κ ρ)
  | .commit stmts =>
    some { s with
      data := applyAll s.data stmts
      inFlight := s.inFlight ++ s.listened.filter (notifies stmts) }
  | .deliver i =>
    s.inFlight[i]?.map fun t =>
      wakeBy { s with inFlight := s.inFlight.eraseIdx i } (s.listened.count t)
  | .nudge => some (s.wakeBy 1)
  | .listen =>
    match s.phase with
    | .listen =>
      s.watched[s.listened.length]?.map fun t => { s with listened := s.listened ++ [t] }
    | _ => none
  | .select =>
    match s.phase with
    | .listen =>
      if s.listened.length = s.watched.length then some { s with phase := .first (s.rows q) }
      else none
    | _ => none
  | .callback =>
    match s.phase with
    | .first rows => some { s with phase := .spawn, last := some rows }
    | .rerun rows => some { s with phase := .recv, last := some rows }
    | _ => none
  | .spawn =>
    match s.phase with
    | .spawn => some { s with phase := .recv }
    | _ => none
  | .recv =>
    match s.phase with
    | .recv => if 0 < s.wake then some { s with wake := s.wake - 1, phase := .drain } else none
    | _ => none
  | .tryRecv =>
    match s.phase with
    | .drain =>
      if 0 < s.wake then some { s with wake := s.wake - 1 }
      else if s.done then some { s with phase := .stopped }
      else some { s with phase := .query }
    | _ => none
  | .query =>
    match s.phase with
    | .query => some { s with phase := .rerun (s.rows q) }
    | _ => none
  | .unsubscribe =>
    if s.phase.returned then some { s with done := true, wake := s.wake + 1 } else none

end LiveQuery

end Pglite.Live
