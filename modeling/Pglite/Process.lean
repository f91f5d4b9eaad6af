import Pglite.Engine
import Pglite.Message
import Pglite.Runs

/-!
# The engine in its process

`open_inner`, `Backend` and `CloseOnDrop` of `src/db.rs`, and the thread of `src/engine.rs`. Two flags
guard the engine, which is global in its process: `OPEN` is set while a database is open, and `BOOTED`
for good. They are swapped and stored one by one, so calls interleave at each of these.

Any number of clones of a `Backend` may send commands, and so may the socket gateway. Commands are
numbered in the order in which the channel takes them. What a caller makes of its reply changes nothing
here, and neither does a caller that is gone.

Borrows are not modelled: a call of `close` may still wait after the last clone has been dropped.
-/

namespace Pglite.Engine

/-! ## The engine thread -/

inductive EngineCommand
  | exec (wire : List UInt8)
  | close

/-- What the receiver of a reply gets. -/
inductive Reply
  | response (bytes : List UInt8)
  | closed
  | dropped

inductive Phase (σ : Type)
  | booting
  | serving (s : σ)
  | ended

/-- A command that was executed, and its response. -/
structure Served where
  cmd : Nat
  wire : List UInt8
  response : List UInt8

/-- The thread and its channels. -/
structure EngineThread (σ : Type) where
  phase : Phase σ
  bootResult : Option (Except Error Unit)
  sent : List EngineCommand
  queue : List (Nat × EngineCommand)
  served : List Served
  resets : Nat
  replies : List (Nat × Reply)

/-- The message that `run` has for the backend at a `Close`. -/
def terminateWire : List UInt8 := [88, 0, 0, 0, 4]

namespace EngineThread

variable {σ : Type}

/-- `Engine::spawn`. -/
def spawn : EngineThread σ := ⟨.booting, none, [], [], [], 0, []⟩

/-- `cmd_tx.send`. -/
def send (t : EngineThread σ) (cmd : EngineCommand) : EngineThread σ :=
  let k := t.sent.length
  let t := { t with sent := t.sent ++ [cmd] }
  match t.phase with
  | .ended => { t with replies := t.replies ++ [(k, .dropped)] }
  | _ => { t with queue := t.queue ++ [(k, cmd)] }

/-- The thread returns, and what is in its channel is dropped. -/
def exit (t : EngineThread σ) : EngineThread σ :=
  { t with
    phase := .ended
    queue := []
    replies := t.replies ++ t.queue.map fun p => (p.1, .dropped) }

/-- `boot` comes to its end. Without a result the thread has died in it. -/
def boot (t : EngineThread σ) : Option (Except Error σ) → Option (EngineThread σ)
  | some (.ok s) =>
    match t.phase with
    | .booting => some { t with phase := .serving s, bootResult := some (.ok ()) }
    | _ => none
  | some (.error e) =>
    match t.phase with
    | .booting => some { t with bootResult := some (.error e) }.exit
    | _ => none
  | none =>
    match t.phase with
    | .booting =>
      some { t with bootResult := some (.error (.boot "engine thread died during boot")) }.exit
    | _ => none

/-- The loop of `run` takes a command. -/
def work (N : Native σ) (fuel : Nat) (t : EngineThread σ) : Option (EngineThread σ) :=
  match t.phase, t.queue with
  | .serving s, (k, .exec wire) :: queue =>
    match N.execProtocol fuel wire s with
    | none => none
    | some (out, s') =>
      some { t with
        phase := .serving s'
        queue
        served := t.served ++ [⟨k, wire, out⟩]
        replies := t.replies ++ [(k, .response out)] }
  | .serving s, (k, .close) :: queue =>
    match N.execProtocol fuel terminateWire s with
    | none => none
    | some _ =>
      some { t with
        queue
        resets := t.resets + 1
        replies := t.replies ++ [(k, Reply.closed)] }.exit
  | _, _ => none

/-- The loop of `run` finds no sender any more. -/
def hangup (t : EngineThread σ) : Option (EngineThread σ) :=
  match t.phase, t.queue with
  | .serving _, [] => some t.exit
  | _, _ => none

end EngineThread

/-! ## The process -/

/-- Where a call of `open_inner` is. -/
inductive OpenCall
  /-- It has found `OPEN` false. -/
  | swapped
  /-- It has found `BOOTED` true. -/
  | refused
  | booting (e : Nat)
  | sweeping (e : Nat)
  | returned (r : Except Error Unit)
  | dropped

/-- The call has a database that it has not returned yet. -/
def OpenCall.sweeps (e : Nat) : OpenCall → Bool
  | .sweeping e' => e == e'
  | _ => false

/-- The call has the sender that `spawn` has returned. -/
def OpenCall.hasSender (e : Nat) : OpenCall → Bool
  | .booting e' | .sweeping e' => e == e'
  | _ => false

/-- Where `CloseOnDrop` is. -/
inductive Closing
  | held
  | joining
  | done
deriving DecidableEq

/-- An engine and the handles to it. -/
structure Instance (σ : Type) where
  opener : Nat
  thread : EngineThread σ
  /-- How many clones of its `Backend` have been given out. -/
  clones : Nat
  closing : Closing
  /-- The commands of the calls of `close` that await their replies. -/
  closes : List Nat

structure Process (σ : Type) where
  isOpen : Bool
  booted : Bool
  calls : List OpenCall
  instances : List (Instance σ)

inductive Event (σ : Type)
  /-- `OPEN.swap`, in a new call of `open_inner`. -/
  | swapOpen
  | swapBooted (i : Nat)
  /-- The store in the second check. -/
  | giveBack (i : Nat)
  | boot (e : Nat) (r : Option (Except Error σ))
  | bootResult (i : Nat)
  | swept (i : Nat) (r : Except Error Unit)
  | abandon (i : Nat)
  /-- `roundtrip` or `fire_and_forget`. -/
  | send (e : Nat) (wire : List UInt8)
  | clone (e : Nat)
  | drop (e : Nat)
  | join (e : Nat)
  | close (e : Nat)
  /-- `close` goes on when its receiver has got something. -/
  | closed (e k : Nat)
  | abandonClose (e k : Nat)
  | work (e fuel : Nat)
  | hangup (e : Nat)

namespace Instance

variable {σ : Type}

/-- The last clone is dropped, and `CloseOnDrop` with it. -/
def dropLast (inst : Instance σ) : Instance σ :=
  { inst with clones := 0, thread := inst.thread.send .close, closing := .joining }

def drop (inst : Instance σ) : Option (Instance σ) :=
  match inst.clones with
  | 0 => none
  | 1 => some inst.dropLast
  | n + 2 => some { inst with clones := n + 1 }

/-- `close` up to its await point. There is no other one when the thread has returned. -/
def close (inst : Instance σ) : Option (Instance σ) :=
  match inst.clones, inst.thread.phase with
  | 0, _ => none
  | _, .ended => some { inst with thread := inst.thread.send .close }
  | _, _ =>
    some { inst with
      thread := inst.thread.send .close
      closes := inst.closes ++ [inst.thread.sent.length] }

end Instance

namespace Process

variable {σ : Type}

def start : Process σ := ⟨false, false, [], []⟩

def goto (p : Process σ) (i : Nat) (c : OpenCall) : Process σ :=
  { p with calls := p.calls.set i c }

def put (p : Process σ) (e : Nat) (inst : Instance σ) : Process σ :=
  { p with instances := p.instances.set e inst }

/-- A step of the engine thread. -/
def onThread (p : Process σ) (e : Nat) (f : EngineThread σ → Option (EngineThread σ)) :
    Option (Process σ) :=
  match p.instances[e]? with
  | none => none
  | some inst => (f inst.thread).map fun t => p.put e { inst with thread := t }

/-- A step of the handles. -/
def onInstance (p : Process σ) (e : Nat) (f : Instance σ → Option (Instance σ)) :
    Option (Process σ) :=
  match p.instances[e]? with
  | none => none
  | some inst => (f inst).map fun inst' => p.put e inst'

/-- The senders of the channel of an engine are all gone. -/
def noSender (p : Process σ) (e : Nat) (inst : Instance σ) : Bool :=
  inst.clones == 0 && inst.closing != .joining && p.calls.all fun c => !c.hasSender e

/-- `Engine::spawn`, in the call `i`. -/
def spawn (p : Process σ) (i : Nat) : Process σ :=
  { p with
    booted := true
    calls := p.calls.set i (.booting p.instances.length)
    instances := p.instances ++ [⟨i, .spawn, 0, .held, []⟩] }

def step (N : Native σ) (p : Process σ) : Event σ → Option (Process σ)
  | .swapOpen =>
    some <|
      if p.isOpen then { p with calls := p.calls ++ [.returned (.error .alreadyOpen)] }
      else { p with isOpen := true, calls := p.calls ++ [.swapped] }
  | .swapBooted i =>
    match p.calls[i]? with
    | some .swapped => some <| if p.booted then p.goto i .refused else p.spawn i
    | _ => none
  | .giveBack i =>
    match p.calls[i]? with
    | some .refused =>
      some { p.goto i (.returned (.error .reopenUnsupported)) with isOpen := false }
    | _ => none
  | .boot e r => p.onThread e fun t => t.boot r
  | .bootResult i =>
    match p.calls[i]? with
    | some (.booting e) =>
      match p.instances[e]? with
      | none => none
      | some inst =>
        match inst.thread.bootResult with
        | none => none
        | some (.ok ()) => some (p.goto i (.sweeping e))
        | some (.error err) => some { p.goto i (.returned (.error err)) with isOpen := false }
    | _ => none
  | .swept i (.ok ()) =>
    match p.calls[i]? with
    | some (.sweeping e) =>
      (p.goto i (.returned (.ok ()))).onInstance e fun inst => some { inst with clones := 1 }
    | _ => none
  | .swept i (.error err) =>
    match p.calls[i]? with
    | some (.sweeping e) =>
      (p.goto i (.returned (.error err))).onInstance e fun inst => some inst.dropLast
    | _ => none
  | .abandon i =>
    match p.calls[i]? with
    | some (.booting _) => some (p.goto i .dropped)
    | some (.sweeping e) => (p.goto i .dropped).onInstance e fun inst => some inst.dropLast
    | _ => none
  | .send e wire =>
    p.onInstance e fun inst =>
      if inst.clones = 0 ∧ p.calls.all fun c => !c.sweeps e then none
      else some { inst with thread := inst.thread.send (.exec wire) }
  | .clone e =>
    p.onInstance e fun inst =>
      if inst.clones = 0 then none else some { inst with clones := inst.clones + 1 }
  | .drop e => p.onInstance e Instance.drop
  | .join e =>
    match p.instances[e]? with
    | none => none
    | some inst =>
      match inst.closing, inst.thread.phase with
      | .joining, .ended => some { p.put e { inst with closing := .done } with isOpen := false }
      | _, _ => none
  | .close e => p.onInstance e Instance.close
  | .closed e k =>
    match p.instances[e]? with
    | none => none
    | some inst =>
      if k ∈ inst.closes ∧ k ∈ inst.thread.replies.map Prod.fst then
        some { p.put e { inst with closes := inst.closes.erase k } with isOpen := false }
      else none
  | .abandonClose e k => p.onInstance e fun inst => some { inst with closes := inst.closes.erase k }
  | .work e fuel => p.onThread e fun t => t.work N fuel
  | .hangup e =>
    match p.instances[e]? with
    | none => none
    | some inst => if p.noSender e inst then p.onThread e EngineThread.hangup else none

end Process

end Pglite.Engine
