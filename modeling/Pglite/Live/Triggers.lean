import Mathlib.Data.List.Basic
import Mathlib.Logic.Function.Basic

/-!
# Counting live queries

All live queries on a table share its trigger. `live_triggers` counts them in memory: the call
that counts a table first creates the trigger inside its transaction, and the one that takes the
count back to zero drops it outside of any.

Calls of `live_query` and `unsubscribe` take turns at their await points, and every command they
issue may fail, before or after it took effect.

A run starts with the process, on a data directory without notify triggers. Those that an earlier
process left there are not part of it: the start sweeps the views of that process, not its triggers.
-/

namespace Pglite.Live

variable {τ : Type*}

/-- Where a call of `live_query` stands, and later the call of `unsubscribe` on its result. In
the loop of `live_query`, `seen` is what it has counted and `made` what it has created triggers
on. -/
inductive Pc (τ : Type*)
  /-- Before the tables are known. -/
  | opening
  | counting (seen made rest : List τ)
  /-- `CREATE TRIGGER` on `t` is sent, and `t` is counted. -/
  | creating (seen made : List τ) (t : τ) (rest : List τ)
  /-- `COMMIT` is sent. -/
  | committing (seen made : List τ)
  /-- It listens to each channel, runs the query and starts the refresher. -/
  | setup (watched : List τ)
  /-- `live_query` has returned `Ok`. -/
  | live (watched : List τ)
  /-- `unsubscribe` takes its listeners out. -/
  | unlistening (watched : List τ)
  | releasing (rest : List τ)
  /-- `DROP TRIGGER` on `t` is sent, and `t` is out of the map. -/
  | dropping (t : τ) (rest : List τ)
  /-- `DROP VIEW` is sent. -/
  | closing
  | ended

namespace Pc

/-- The tables this call has counted and not given back. -/
def holds : Pc τ → List τ
  | .counting seen _ _ | .committing seen _ => seen
  | .creating seen _ t _ => seen ++ [t]
  | .setup watched | .live watched | .unlistening watched => watched
  | .releasing rest | .dropping _ rest => rest
  | .opening | .closing | .ended => []

/-- The tables whose trigger its open transaction has created. -/
def made : Pc τ → List τ
  | .counting _ made _ | .creating _ made _ _ | .committing _ made => made
  | _ => []

/-- A live query that is there, or a call that is over. -/
def settled : Pc τ → Bool
  | .live _ | .ended => true
  | _ => false

variable [DecidableEq τ]

/-- `CREATE TRIGGER` on the table is sent. -/
def creates (t : τ) : Pc τ → Bool
  | .creating _ _ u _ => decide (u = t)
  | _ => false

/-- `DROP TRIGGER` on the table is sent. -/
def drops (t : τ) : Pc τ → Bool
  | .dropping u _ => decide (u = t)
  | _ => false

/-- A live query on the table. -/
def watches (t : τ) : Pc τ → Bool
  | .live watched => decide (t ∈ watched)
  | _ => false

end Pc

/-- `live_triggers` (no entry is a count of zero), the tables whose trigger exists outside of
open transactions, and the calls. -/
structure Triggers (τ : Type*) where
  count : τ → Nat
  trigger : τ → Bool
  tasks : List (Pc τ)

inductive Triggers.Event (τ : Type*)
  | call
  | opened (i : Nat) (watched : List τ)
  | count (i : Nat)
  | created (i : Nat)
  | committed (i : Nat)
  | ready (i : Nat)
  | unsubscribe (i : Nat)
  | unlistened (i : Nat)
  | release (i : Nat)
  | dropped (i : Nat)
  | closed (i : Nat)
  /-- The command the call waits for fails; `took` says whether it has taken effect. -/
  | fail (i : Nat) (took : Bool)

namespace Triggers

def goto (s : Triggers τ) (i : Nat) (pc : Pc τ) : Triggers τ :=
  { s with tasks := s.tasks.set i pc }

/-- The start of the process. No earlier one has left a trigger behind. -/
def start : Triggers τ where
  count _ := 0
  trigger _ := false
  tasks := []

variable [DecidableEq τ]

/-- Another open transaction has created the trigger of the table, and holds its lock. -/
def locked (s : Triggers τ) (i : Nat) (t : τ) : Bool :=
  (s.tasks.eraseIdx i).any fun pc => decide (t ∈ pc.made)

def create (s : Triggers τ) (made : List τ) : Triggers τ :=
  { s with trigger := fun u => s.trigger u || decide (u ∈ made) }

def drop (s : Triggers τ) (t : τ) : Triggers τ :=
  { s with trigger := Function.update s.trigger t false }

/-- What the failing command of a call leaves behind. A call that fails drops its transaction,
which rolls it back, and changes no count. -/
def failed (s : Triggers τ) (i : Nat) (took : Bool) : Pc τ → Option (Triggers τ)
  | .opening | .creating _ _ _ _ | .setup _ | .unlistening _ | .closing => some (s.goto i .ended)
  | .committing _ made => some ((if took then s.create made else s).goto i .ended)
  | .dropping t _ =>
    if took && s.locked i t then none else some ((if took then s.drop t else s).goto i .ended)
  | .counting _ _ _ | .live _ | .releasing _ | .ended => none

def step (s : Triggers τ) : Event τ → Option (Triggers τ)
  | .call => some { s with tasks := s.tasks ++ [.opening] }
  | .opened i watched =>
    match s.tasks[i]? with
    -- The query for the tables is a `SELECT DISTINCT`.
    | some .opening => if watched.Nodup then some (s.goto i (.counting [] [] watched)) else none
    | _ => none
  | .count i =>
    match s.tasks[i]? with
    | some (.counting seen made []) => some (s.goto i (.committing seen made))
    | some (.counting seen made (t :: rest)) =>
      let counted := { s with count := Function.update s.count t (s.count t + 1) }
      if s.count t = 0 then some (counted.goto i (.creating seen made t rest))
      else some (counted.goto i (.counting (seen ++ [t]) made rest))
    | _ => none
  | .created i =>
    match s.tasks[i]? with
    | some (.creating seen made t rest) =>
      if s.locked i t then none else some (s.goto i (.counting (seen ++ [t]) (made ++ [t]) rest))
    | _ => none
  | .committed i =>
    match s.tasks[i]? with
    | some (.committing seen made) => some ((s.create made).goto i (.setup seen))
    | _ => none
  | .ready i =>
    match s.tasks[i]? with
    | some (.setup watched) => some (s.goto i (.live watched))
    | _ => none
  | .unsubscribe i =>
    match s.tasks[i]? with
    | some (.live watched) => some (s.goto i (.unlistening watched))
    | _ => none
  | .unlistened i =>
    match s.tasks[i]? with
    | some (.unlistening watched) => some (s.goto i (.releasing watched))
    | _ => none
  | .release i =>
    match s.tasks[i]? with
    | some (.releasing []) => some (s.goto i .closing)
    | some (.releasing (t :: rest)) =>
      match s.count t with
      | 0 => some (s.goto i (.releasing rest))
      | 1 => some ({ s with count := Function.update s.count t 0 }.goto i (.dropping t rest))
      | n + 2 =>
        some ({ s with count := Function.update s.count t (n + 1) }.goto i (.releasing rest))
    | _ => none
  | .dropped i =>
    match s.tasks[i]? with
    | some (.dropping t rest) =>
      if s.locked i t then none else some ((s.drop t).goto i (.releasing rest))
    | _ => none
  | .closed i =>
    match s.tasks[i]? with
    | some .closing => some (s.goto i .ended)
    | _ => none
  | .fail i took => s.tasks[i]?.bind (s.failed i took)

end Triggers

end Pglite.Live
