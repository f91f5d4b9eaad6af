import Mathlib.Logic.Function.Basic
import Pglite.Frames
import Pglite.Message
import Pglite.Runs

/-!
# The notification connection

`NotifyConn` of `src/multiple_process/notify.rs`. A call of `command` puts the sender of its reply
into a queue and writes its statement, both under the lock of the writer. The reader loop gives the
front of the queue a reply at each `ReadyForQuery`: the error it has read since the one before, if any.

**The step** (`NotifyConn.step`). Each call moves between its lock, its place in the queue, its write
and its reply, the server sends frames for what was written, and the reader handles a frame or comes to
the end of the stream. Once the stream is closed every write fails, and none before.

**The specification** (`answers`). What was read, cut at each `ReadyForQuery`.

**The invariant** (`NotifyConn.Inv`).

* *wire*: what the server has sent was read or is on its way, in the order it was sent.
* *queue*: it starts with the commands that were written and not answered, in the order of the writes.
* *replies*: the `i`-th written command has the error of the `i`-th answer.

`replies_reach_commands` is the result.
-/

namespace Pglite.NotifyReader

open Frames Runs

/-! ## State -/

/-- Where a call of `command` is. -/
inductive Pc
  | idle
  /-- It holds `writer`. -/
  | locked
  /-- Its sender is in `pending`. -/
  | pushed
  /-- All of its bytes have arrived. -/
  | written
  /-- At `rx.await`. -/
  | waiting
  /-- The write has failed. -/
  | failed (e : String)
  /-- Dropped while it was waiting. -/
  | gone
deriving DecidableEq

namespace Pc

/-- The call holds `writer`. -/
def holds : Pc → Bool
  | .locked | .pushed | .written => true
  | _ => false

/-- The server has its statement. -/
def arrived : Pc → Bool
  | .written | .waiting | .gone => true
  | _ => false

/-- Its sender is in the queue, and the server does not have its statement. -/
def unwritten : Pc → Bool
  | .pushed | .failed _ => true
  | _ => false

end Pc

/-- `NotifyConn`, its reader, and the other end of the stream. Calls are numbered. -/
structure NotifyConn where
  writer : Option Nat
  pending : List Nat
  pc : Nat → Pc
  /-- What was sent to the receivers: the error of the command, if any. -/
  replies : Nat → Option (Option Error)
  staged : Option Error
  listeners : Listeners
  callbacks : List (Nat × String)
  /-- `reader_loop` has returned. -/
  ended : Bool
  unread : List UInt8
  closed : Bool
  /-- The messages that the server has sent, `none` for what cannot be parsed. -/
  sent : List (Option Message)
  /-- The calls whose bytes were written, in their order. -/
  commands : List Nat
  /-- Those of them that were read. -/
  read : List (Option Message)

def start (ls : Listeners) : NotifyConn :=
  ⟨none, [], fun _ => .idle, fun _ => none, none, ls, [], false, [], false, [], [], []⟩

def isReady : Option Message → Bool
  | some (.readyForQuery _) => true
  | _ => false

def error? : Option Message → Option Error
  | some (.errorResponse fields) => some (Error.fromErrorFields fields)
  | _ => none

namespace NotifyConn

/-- What `reader_loop` does with a message. -/
def handle (s : NotifyConn) (m : Option Message) : NotifyConn :=
  match m with
  | some (.notificationResponse (.ok channel) (.ok payload)) =>
    { s with callbacks := s.callbacks ++ s.listeners.fire channel payload }
  | some (.errorResponse fields) => { s with staged := some (Error.fromErrorFields fields) }
  | some (.readyForQuery _) =>
    match s.pending with
    | k :: pending =>
      { s with pending, staged := none, replies := Function.update s.replies k (some s.staged) }
    | [] => s
  | _ => s

/-- The end of `reader_loop`. -/
def drain (s : NotifyConn) : NotifyConn :=
  { s with
    ended := true
    pending := []
    replies := fun k => if k ∈ s.pending then some (some .closed) else s.replies k }

/-- What a call of `command` returns. -/
def result (s : NotifyConn) (k : Nat) : Option (Except Error Unit) :=
  match s.pc k with
  | .waiting =>
    match s.replies k with
    | none => none
    | some none => some (.ok ())
    | some (some e) => some (.error e)
  | .failed e => some (.error (.io e))
  | _ => none

end NotifyConn

/-! ## Steps -/

inductive Event
  | lock (k : Nat)
  | push (k : Nat)
  | write (k : Nat)
  | fail (k : Nat) (e : String)
  | unlock (k : Nat)
  | leave (k : Nat)
  /-- The server sends a frame. -/
  | send (f : Frame)
  /-- The stream is closed, after a part of a frame. -/
  | close (f : Frame) (n : Nat)
  /-- The reader handles a frame. -/
  | read
  /-- The reader comes to the end of the stream. -/
  | finish
  | listen (ls : Listeners)

/-- A step, with what `Message::parse` makes of the bytes of a frame. The server sends one
`ReadyForQuery` for a command. -/
def NotifyConn.step (parse : List UInt8 → Option Message) (s : NotifyConn) :
    Event → Option NotifyConn
  | .lock k =>
    if s.writer = none ∧ s.pc k = .idle then
      some { s with writer := some k, pc := Function.update s.pc k .locked }
    else none
  | .push k =>
    if s.pc k = .locked then
      some { s with pending := s.pending ++ [k], pc := Function.update s.pc k .pushed }
    else none
  | .write k =>
    if s.pc k = .pushed ∧ s.closed = false then
      some { s with commands := s.commands ++ [k], pc := Function.update s.pc k .written }
    else none
  | .fail k e =>
    if s.pc k = .pushed ∧ s.closed = true then
      some { s with writer := none, pc := Function.update s.pc k (.failed e) }
    else none
  | .unlock k =>
    if s.pc k = .written then
      some { s with writer := none, pc := Function.update s.pc k .waiting }
    else none
  | .leave k =>
    if s.pc k = .waiting then some { s with pc := Function.update s.pc k .gone } else none
  | .send f =>
    if s.closed = false ∧ f.Fits ∧ (isReady (parse f.encode) = true → s.sent.countP isReady < s.commands.length)
    then
      some { s with unread := s.unread ++ f.encode, sent := s.sent ++ [parse f.encode] }
    else none
  | .close f n =>
    if s.closed = false ∧ f.Fits ∧ n < f.encode.length then
      some { s with closed := true, unread := s.unread ++ f.encode.take n }
    else none
  | .read =>
    if s.ended = true then none
    else
      match readFrame s.unread with
      | none => none
      | some (frame, unread) =>
        some ({ s with unread, read := s.read ++ [parse frame] }.handle (parse frame))
  | .finish =>
    if s.ended = false ∧ s.closed = true ∧ readFrame s.unread = none then some s.drain else none
  | .listen ls => some { s with listeners := ls }

/-! ## What was read, cut into answers -/

/-- The complete answers so far, and the messages behind them. -/
def cutAt (st : List (List (Option Message)) × List (Option Message)) (m : Option Message) :
    List (List (Option Message)) × List (Option Message) :=
  if isReady m then (st.1 ++ [st.2], []) else (st.1, st.2 ++ [m])

def cut (ms : List (Option Message)) : List (List (Option Message)) × List (Option Message) :=
  ms.foldl cutAt ([], [])

/-- What comes before each `ReadyForQuery`. -/
def answers (ms : List (Option Message)) : List (List (Option Message)) := (cut ms).1

/-- The last error of an answer. -/
def errorOf (answer : List (Option Message)) : Option Error := (answer.filterMap error?).getLast?

theorem cut_append (ms : List (Option Message)) (m : Option Message) :
    cut (ms ++ [m]) = cutAt (cut ms) m := by
  simp [cut]

theorem answers_append (ms : List (Option Message)) (m : Option Message) :
    answers (ms ++ [m]) = if isReady m then answers ms ++ [(cut ms).2] else answers ms := by
  rw [answers, cut_append, cutAt]
  split <;> rfl

theorem length_answers (ms : List (Option Message)) : (answers ms).length = ms.countP isReady := by
  induction ms using List.reverseRecOn with
  | nil => rfl
  | append_singleton ms m ih =>
    rw [answers_append, List.countP_append, List.countP_singleton]
    split
    · rw [List.length_append, ih]
      rfl
    · exact ih

/-- Further messages leave the complete answers as they are. -/
theorem answers_prefix (ms more : List (Option Message)) : answers ms <+: answers (ms ++ more) := by
  induction more using List.reverseRecOn with
  | nil => simp
  | append_singleton more m ih =>
    rw [← List.append_assoc, answers_append]
    split
    · exact ih.trans (List.prefix_append _ _)
    · exact ih

theorem cut_middle {before middle : List (Option Message)} (hbefore : (cut before).2 = [])
    (hmiddle : ∀ m ∈ middle, isReady m = false) :
    cut (before ++ middle) = (answers before, middle) := by
  induction middle using List.reverseRecOn with
  | nil => rw [List.append_nil, ← hbefore, answers]
  | append_singleton middle m ih =>
    obtain ⟨hinit, hlast⟩ := List.forall_mem_append.1 hmiddle
    have hm : isReady m = false := hlast m List.mem_cons_self
    rw [← List.append_assoc, cut_append, ih hinit, cutAt, if_neg (by rw [hm]; decide)]

/-- Nothing, or what ends with a `ReadyForQuery`. -/
def Complete (ms : List (Option Message)) : Prop := ∀ m ∈ ms.getLast?, isReady m = true

theorem Complete.cut {ms : List (Option Message)} (h : Complete ms) : (cut ms).2 = [] := by
  induction ms using List.reverseRecOn with
  | nil => rfl
  | append_singleton ms m ih =>
    have hm : isReady m = true := h m (by simp)
    rw [cut_append, cutAt, if_pos hm]

/-- The answer between two `ReadyForQuery`. -/
theorem getElem?_answers {before middle : List (Option Message)} {m : Option Message}
    (hbefore : Complete before) (hmiddle : ∀ x ∈ middle, isReady x = false)
    (hm : isReady m = true) (after : List (Option Message)) :
    (answers (before ++ middle ++ m :: after))[before.countP isReady]? = some middle := by
  have hcut := cut_middle hbefore.cut hmiddle
  have hanswers : answers (before ++ middle ++ [m]) = answers before ++ [middle] := by
    rw [answers_append, if_pos hm, answers, hcut]
  obtain ⟨rest, hrest⟩ := answers_prefix (before ++ middle ++ [m]) after
  have hsplit : before ++ middle ++ m :: after = before ++ middle ++ [m] ++ after := by simp
  rw [hsplit, ← hrest, hanswers, ← length_answers]
  simp

theorem errorOf_append (answer : List (Option Message)) (m : Option Message) :
    errorOf (answer ++ [m]) = (error? m).or (errorOf answer) := by
  rw [errorOf, List.filterMap_append]
  cases hm : error? m with
  | none => simp [hm, errorOf]
  | some e => simp [hm]

/-! ## The invariant -/

/-- The call that is about to write. -/
def toWrite (s : NotifyConn) : List Nat := s.writer.toList.filter fun k => s.pc k = .pushed

/-- What was sent was read or is on its way, and nothing else is. -/
structure Wire (parse : List UInt8 → Option Message) (unread : List UInt8) (closed : Bool)
    (read sent : List (Option Message)) (frames : List Frame) (part : List UInt8) : Prop where
  bytes : unread = encodeAll frames ++ part
  fits : ∀ f ∈ frames, f.Fits
  short : readFrame part = none
  whole : closed = false → part = []
  order : read ++ frames.map (fun f => parse f.encode) = sent

/-- The queue: what was written and not answered, and what will not be answered. -/
structure Queue (s : NotifyConn) (extra : List Nat) : Prop where
  pending : s.pending = s.commands.drop (s.read.countP isReady) ++ extra
  unwritten : ∀ k ∈ extra, (s.pc k).unwritten = true
  live : s.closed = false → extra = toWrite s

/-- What the `i`-th command that was written has got. -/
def replyTo (s : NotifyConn) (i : Nat) : Option (Option Error) :=
  match (answers s.read)[i]? with
  | some answer => some (errorOf answer)
  | none => if s.ended then some (some .closed) else none

structure Inv (parse : List UInt8 → Option Message) (s : NotifyConn) : Prop where
  holder : ∀ k, (s.pc k).holds = true ↔ s.writer = some k
  arrived : ∀ k, (s.pc k).arrived = true ↔ k ∈ s.commands
  nodup : s.commands.Nodup
  wire : ∃ frames part, Wire parse s.unread s.closed s.read s.sent frames part
  served : s.sent.countP isReady ≤ s.commands.length
  queue : s.ended = false → ∃ extra, Queue s extra
  staged : s.staged = errorOf (cut s.read).2
  replies : ∀ (i k : Nat), s.commands[i]? = some k → s.replies k = replyTo s i
  unanswered : s.ended = false → ∀ k ∉ s.commands, s.replies k = none
  ended : s.ended = true → s.closed = true

variable {parse : List UInt8 → Option Message} {s s' : NotifyConn}

theorem inv_start (ls : Listeners) : Inv parse (start ls) :=
  ⟨by simp [start, Pc.holds], by simp [start, Pc.arrived], .nil,
    ⟨[], [], rfl, nofun, rfl, fun _ => rfl, rfl⟩, le_rfl,
    fun _ => ⟨[], rfl, nofun, fun _ => rfl⟩, rfl, nofun, fun _ _ _ => rfl, nofun⟩

/-! ## The calls -/

theorem holder_update {pc : Nat → Pc} {writer writer' : Option Nat} {k : Nat} {p : Pc}
    (h : ∀ j, (pc j).holds = true ↔ writer = some j) (hk : p.holds = true ↔ writer' = some k)
    (hother : ∀ j, j ≠ k → (writer = some j ↔ writer' = some j)) (j : Nat) :
    (Function.update pc k p j).holds = true ↔ writer' = some j := by
  by_cases hj : j = k
  · subst hj
    rw [Function.update_self, hk]
  · rw [Function.update_of_ne hj, h, hother j hj]

theorem arrived_update {pc : Nat → Pc} {commands commands' : List Nat} {k : Nat} {p : Pc}
    (h : ∀ j, (pc j).arrived = true ↔ j ∈ commands) (hk : p.arrived = true ↔ k ∈ commands')
    (hother : ∀ j, j ≠ k → (j ∈ commands ↔ j ∈ commands')) (j : Nat) :
    (Function.update pc k p j).arrived = true ↔ j ∈ commands' := by
  by_cases hj : j = k
  · subst hj
    rw [Function.update_self, hk]
  · rw [Function.update_of_ne hj, h, hother j hj]

theorem unwritten_update {pc : Nat → Pc} {extra : List Nat} {k : Nat} {p : Pc}
    (h : ∀ j ∈ extra, (pc j).unwritten = true)
    (hk : (pc k).unwritten = true → p.unwritten = true) :
    ∀ j ∈ extra, (Function.update pc k p j).unwritten = true := by
  intro j hj
  by_cases hjk : j = k
  · subst hjk
    rw [Function.update_self]
    exact hk (h j hj)
  · rw [Function.update_of_ne hjk]
    exact h j hj

/-- The lock changes hands. -/
theorem Inv.lock {k : Nat} (h : Inv parse s) (hstep : s.step parse (.lock k) = some s') :
    Inv parse s' := by
  rw [NotifyConn.step] at hstep
  split_ifs at hstep with hen
  obtain ⟨hfree, hidle⟩ := hen
  obtain rfl := Option.some.inj hstep
  have hnot : k ∉ s.commands := by
    rw [← h.arrived, hidle]
    decide
  refine ⟨?_, ?_, h.nodup, h.wire, h.served, fun hended => ?_, h.staged, h.replies, h.unanswered,
    h.ended⟩
  · refine holder_update h.holder (by simp [Pc.holds]) fun j hj => ?_
    simp [hfree, Ne.symm hj]
  · exact arrived_update h.arrived (by simp [Pc.arrived, hnot]) fun _ _ => Iff.rfl
  · obtain ⟨extra, hqueue⟩ := h.queue hended
    refine ⟨extra, hqueue.pending, unwritten_update hqueue.unwritten (by simp [hidle, Pc.unwritten]),
      fun hclosed => ?_⟩
    rw [hqueue.live hclosed]
    simp [toWrite, hfree]

theorem Inv.push {k : Nat} (h : Inv parse s) (hstep : s.step parse (.push k) = some s') :
    Inv parse s' := by
  rw [NotifyConn.step] at hstep
  split_ifs at hstep with hlocked
  obtain rfl := Option.some.inj hstep
  have hwriter : s.writer = some k := (h.holder k).1 (by simp [hlocked, Pc.holds])
  have hnot : k ∉ s.commands := by
    rw [← h.arrived, hlocked]
    decide
  refine ⟨?_, ?_, h.nodup, h.wire, h.served, fun hended => ?_, h.staged, h.replies, h.unanswered,
    h.ended⟩
  · exact holder_update h.holder (by simp [Pc.holds, hwriter]) fun _ _ => Iff.rfl
  · exact arrived_update h.arrived (by simp [Pc.arrived, hnot]) fun _ _ => Iff.rfl
  · obtain ⟨extra, hqueue⟩ := h.queue hended
    refine ⟨extra ++ [k], ?_, fun j hj => ?_, fun hclosed => ?_⟩
    · dsimp only
      rw [hqueue.pending, List.append_assoc]
    · rcases List.mem_append.1 hj with hj | hj
      · exact unwritten_update hqueue.unwritten (by simp [hlocked, Pc.unwritten]) j hj
      · obtain rfl := List.mem_singleton.1 hj
        simp [Pc.unwritten]
    · rw [hqueue.live hclosed]
      simp [toWrite, hwriter, hlocked]

/-- The bytes arrive: the front of what was not written becomes the last command. -/
theorem Inv.write {k : Nat} (h : Inv parse s) (hstep : s.step parse (.write k) = some s') :
    Inv parse s' := by
  rw [NotifyConn.step] at hstep
  split_ifs at hstep with hen
  obtain ⟨hpushed, hopen⟩ := hen
  obtain rfl := Option.some.inj hstep
  have hwriter : s.writer = some k := (h.holder k).1 (by simp [hpushed, Pc.holds])
  have hnot : k ∉ s.commands := by
    rw [← h.arrived, hpushed]
    decide
  have hended : s.ended = false := by
    cases hended : s.ended with
    | false => rfl
    | true => rw [h.ended hended] at hopen; cases hopen
  have hread : s.read.countP isReady ≤ s.commands.length := by
    obtain ⟨frames, part, hwire⟩ := h.wire
    have hserved := h.served
    rw [← hwire.order, List.countP_append] at hserved
    omega
  refine ⟨?_, ?_, ?_, h.wire, ?_, fun _ => ?_, h.staged, ?_, ?_, h.ended⟩
  · exact holder_update h.holder (by simp [Pc.holds, hwriter]) fun _ _ => Iff.rfl
  · refine arrived_update h.arrived (by simp [Pc.arrived]) fun j hj => ?_
    simp [hj]
  · exact List.nodup_append.2 ⟨h.nodup, by simp, fun a ha b hb heq =>
      hnot (List.mem_singleton.1 hb ▸ heq ▸ ha)⟩
  · rw [List.length_append]
    exact Nat.le_succ_of_le h.served
  · obtain ⟨extra, hqueue⟩ := h.queue hended
    have hextra : extra = [k] := by
      rw [hqueue.live hopen]
      simp [toWrite, hwriter, hpushed]
    refine ⟨[], ?_, nofun, fun _ => ?_⟩
    · dsimp only
      rw [hqueue.pending, hextra, List.append_nil, List.drop_append_of_le_length hread]
    · simp [toWrite, hwriter]
  · intro i j hj
    rw [List.getElem?_append] at hj
    split_ifs at hj with hi
    · exact h.replies i j hj
    · -- The new command has no answer yet.
      have hlast := List.getElem?_eq_some_iff.1 hj
      obtain ⟨hlt, hjk⟩ := hlast
      obtain rfl : k = j := by simpa using hjk
      have hnone : (answers s.read)[i]? = none := by
        rw [List.getElem?_eq_none_iff, length_answers]
        omega
      rw [h.unanswered hended k hnot]
      simp [replyTo, hnone, hended]
  · intro hended j hj
    exact h.unanswered hended j fun hmem => hj (List.mem_append_left _ hmem)

theorem Inv.fail {k : Nat} {e : String} (h : Inv parse s)
    (hstep : s.step parse (.fail k e) = some s') : Inv parse s' := by
  rw [NotifyConn.step] at hstep
  split_ifs at hstep with hen
  obtain ⟨hpushed, hclosed⟩ := hen
  obtain rfl := Option.some.inj hstep
  have hwriter : s.writer = some k := (h.holder k).1 (by simp [hpushed, Pc.holds])
  have hnot : k ∉ s.commands := by
    rw [← h.arrived, hpushed]
    decide
  refine ⟨?_, ?_, h.nodup, h.wire, h.served, fun hended => ?_, h.staged, h.replies, h.unanswered,
    h.ended⟩
  · refine holder_update h.holder (by simp [Pc.holds]) fun j hj => ?_
    simp [hwriter, Ne.symm hj]
  · exact arrived_update h.arrived (by simp [Pc.arrived, hnot]) fun _ _ => Iff.rfl
  · obtain ⟨extra, hqueue⟩ := h.queue hended
    refine ⟨extra, hqueue.pending, unwritten_update hqueue.unwritten (by simp [Pc.unwritten]),
      fun hopen => ?_⟩
    dsimp only at hopen
    rw [hclosed] at hopen
    cases hopen

theorem Inv.unlock {k : Nat} (h : Inv parse s) (hstep : s.step parse (.unlock k) = some s') :
    Inv parse s' := by
  rw [NotifyConn.step] at hstep
  split_ifs at hstep with hwritten
  obtain rfl := Option.some.inj hstep
  have hwriter : s.writer = some k := (h.holder k).1 (by simp [hwritten, Pc.holds])
  have hmem : k ∈ s.commands := by
    rw [← h.arrived, hwritten]
    decide
  refine ⟨?_, ?_, h.nodup, h.wire, h.served, fun hended => ?_, h.staged, h.replies, h.unanswered,
    h.ended⟩
  · refine holder_update h.holder (by simp [Pc.holds]) fun j hj => ?_
    simp [hwriter, Ne.symm hj]
  · exact arrived_update h.arrived (by simp [Pc.arrived, hmem]) fun _ _ => Iff.rfl
  · obtain ⟨extra, hqueue⟩ := h.queue hended
    refine ⟨extra, hqueue.pending,
      unwritten_update hqueue.unwritten (by simp [hwritten, Pc.unwritten]), fun hopen => ?_⟩
    rw [hqueue.live hopen]
    simp [toWrite, hwriter, hwritten]

theorem Inv.leave {k : Nat} (h : Inv parse s) (hstep : s.step parse (.leave k) = some s') :
    Inv parse s' := by
  rw [NotifyConn.step] at hstep
  split_ifs at hstep with hwaiting
  obtain rfl := Option.some.inj hstep
  have hmem : k ∈ s.commands := by
    rw [← h.arrived, hwaiting]
    decide
  have hwriter : s.writer ≠ some k := by
    rw [ne_eq, ← h.holder, hwaiting]
    decide
  refine ⟨?_, ?_, h.nodup, h.wire, h.served, fun hended => ?_, h.staged, h.replies, h.unanswered,
    h.ended⟩
  · exact holder_update h.holder (by simp [Pc.holds, hwriter]) fun _ _ => Iff.rfl
  · exact arrived_update h.arrived (by simp [Pc.arrived, hmem]) fun _ _ => Iff.rfl
  · obtain ⟨extra, hqueue⟩ := h.queue hended
    refine ⟨extra, hqueue.pending,
      unwritten_update hqueue.unwritten (by simp [hwaiting, Pc.unwritten]), fun hopen => ?_⟩
    rw [hqueue.live hopen, toWrite, toWrite]
    refine List.filter_congr fun j hj => ?_
    have hjk : j ≠ k := by
      rintro rfl
      exact hwriter (Option.mem_toList.1 hj)
    simp [hjk]

/-! ## The stream -/

theorem Inv.send {f : Frame} (h : Inv parse s) (hstep : s.step parse (.send f) = some s') :
    Inv parse s' := by
  rw [NotifyConn.step] at hstep
  split_ifs at hstep with hen
  obtain ⟨hopen, hfits, hready⟩ := hen
  obtain rfl := Option.some.inj hstep
  have hqueue : s.ended = false → ∃ extra, Queue s extra := h.queue
  refine ⟨h.holder, h.arrived, h.nodup, ?_, ?_, fun hended => ?_, h.staged, h.replies,
    h.unanswered, h.ended⟩
  · obtain ⟨frames, part, hwire⟩ := h.wire
    obtain rfl := hwire.whole hopen
    refine ⟨frames ++ [f], [], ?_, ?_, rfl, fun _ => rfl, ?_⟩
    · dsimp only
      rw [hwire.bytes]
      simp [encodeAll_append]
    · exact List.forall_mem_append.2 ⟨hwire.fits, by simpa using hfits⟩
    · dsimp only
      rw [← hwire.order, List.map_append, List.map_singleton, List.append_assoc]
  · dsimp only
    rw [List.countP_append, List.countP_singleton]
    have hserved := h.served
    split_ifs with hm
    · exact hready hm
    · exact hserved
  · obtain ⟨extra, hextra⟩ := hqueue hended
    exact ⟨extra, hextra.pending, hextra.unwritten, hextra.live⟩

theorem Inv.close {f : Frame} {n : Nat} (h : Inv parse s)
    (hstep : s.step parse (.close f n) = some s') : Inv parse s' := by
  rw [NotifyConn.step] at hstep
  split_ifs at hstep with hen
  obtain ⟨hopen, hfits, hn⟩ := hen
  obtain rfl := Option.some.inj hstep
  refine ⟨h.holder, h.arrived, h.nodup, ?_, h.served, fun hended => ?_, h.staged, h.replies,
    h.unanswered, fun _ => rfl⟩
  · obtain ⟨frames, part, hwire⟩ := h.wire
    obtain rfl := hwire.whole hopen
    have hcut : f.encode.take n ≠ f.encode := by
      intro heq
      have hlen := congrArg List.length heq
      rw [List.length_take] at hlen
      omega
    refine ⟨frames, f.encode.take n, ?_, hwire.fits,
      readFrame_eq_none (parse_cut hfits (List.take_prefix _ _) hcut), nofun, hwire.order⟩
    dsimp only
    rw [hwire.bytes, List.append_nil]
  · obtain ⟨extra, hqueue⟩ := h.queue hended
    exact ⟨extra, hqueue.pending, hqueue.unwritten, nofun⟩

theorem Inv.listen {ls : Listeners} (h : Inv parse s)
    (hstep : s.step parse (.listen ls) = some s') : Inv parse s' := by
  obtain rfl := Option.some.inj hstep
  refine ⟨h.holder, h.arrived, h.nodup, h.wire, h.served, fun hended => ?_, h.staged, h.replies,
    h.unanswered, h.ended⟩
  obtain ⟨extra, hqueue⟩ := h.queue hended
  exact ⟨extra, hqueue.pending, hqueue.unwritten, hqueue.live⟩

/-! ## The reader -/

/-- A message that is no `ReadyForQuery` changes only what is staged, and the calls of callbacks. -/
theorem handle_other {m : Option Message} (hm : isReady m = false) :
    ∃ callbacks, s.handle m = { s with staged := (error? m).or s.staged, callbacks } := by
  match m with
  | none | some .noticeResponse | some .parameterStatus | some .parseComplete
  | some .bindComplete | some (.parameterDescription _) | some (.rowDescription _) | some .noData
  | some (.dataRow _) | some (.commandComplete _) | some .emptyQueryResponse
  | some .copyInResponse | some .copyOutResponse | some (.copyData _) | some .copyDone =>
    exact ⟨s.callbacks, rfl⟩
  | some (.errorResponse fields) => exact ⟨s.callbacks, rfl⟩
  | some (.notificationResponse (.ok channel) (.ok payload)) => exact ⟨_, rfl⟩
  | some (.notificationResponse (.error _) _)
  | some (.notificationResponse (.ok _) (.error _)) => exact ⟨s.callbacks, rfl⟩
  | some (.readyForQuery st) => cases hm

/-- A `ReadyForQuery` gives the front of the queue what is staged. -/
theorem handle_ready {m : Option Message} (hm : isReady m = true) {k : Nat} {pending : List Nat}
    (hpending : s.pending = k :: pending) :
    s.handle m = { s with
      pending, staged := none,
      replies := Function.update s.replies k (some s.staged) } := by
  match m, hm with
  | some (.readyForQuery st), _ => simp [NotifyConn.handle, hpending]

theorem handle_keeps (s : NotifyConn) (m : Option Message) :
    (s.handle m).closed = s.closed ∧ (s.handle m).ended = s.ended ∧
      (s.handle m).unread = s.unread ∧ (s.handle m).sent = s.sent := by
  cases hm : isReady m with
  | false =>
    obtain ⟨callbacks, hhandle⟩ := handle_other (s := s) hm
    rw [hhandle]
    exact ⟨rfl, rfl, rfl, rfl⟩
  | true =>
    match m, hm with
    | some (.readyForQuery st), _ =>
      simp only [NotifyConn.handle]
      split <;> exact ⟨rfl, rfl, rfl, rfl⟩

/-- The first frame that was sent is read. -/
theorem Inv.nextFrame {frame unread : List UInt8} (h : Inv parse s)
    (hframe : readFrame s.unread = some (frame, unread)) :
    ∃ f frames part, frame = f.encode ∧ Wire parse s.unread s.closed s.read s.sent (f :: frames) part ∧
      Wire parse unread s.closed (s.read ++ [parse f.encode]) s.sent frames part := by
  obtain ⟨frames, part, hwire⟩ := h.wire
  rw [hwire.bytes] at hframe
  cases frames with
  | nil =>
    rw [encodeAll_nil, List.nil_append, hwire.short] at hframe
    cases hframe
  | cons f frames =>
    obtain ⟨hf, hfits⟩ := List.forall_mem_cons.1 hwire.fits
    rw [encodeAll_cons, List.append_assoc, readFrame_encode hf] at hframe
    obtain ⟨rfl, rfl⟩ := Prod.mk.inj (Option.some.inj hframe)
    refine ⟨f, frames, part, rfl, hwire, rfl, hfits, hwire.short, hwire.whole, ?_⟩
    rw [← hwire.order, List.map_cons, List.append_assoc, List.singleton_append]

theorem Inv.readOther {f : Frame} {frames : List Frame} {unread part : List UInt8}
    (h : Inv parse s) (hm : isReady (parse f.encode) = false)
    (hwire : Wire parse unread s.closed (s.read ++ [parse f.encode]) s.sent frames part) :
    Inv parse ({ s with unread, read := s.read ++ [parse f.encode] }.handle (parse f.encode)) := by
  obtain ⟨callbacks, hhandle⟩ := handle_other (s := { s with unread, read := s.read ++ [parse f.encode] }) hm
  have hanswers : answers (s.read ++ [parse f.encode]) = answers s.read := by
    rw [answers_append, if_neg (by rw [hm]; decide)]
  have hcount : (s.read ++ [parse f.encode]).countP isReady = s.read.countP isReady := by
    rw [← length_answers, hanswers, length_answers]
  rw [hhandle]
  refine ⟨h.holder, h.arrived, h.nodup, ⟨frames, part, hwire⟩, h.served, fun hended => ?_, ?_, ?_,
    h.unanswered, h.ended⟩
  · obtain ⟨extra, hqueue⟩ := h.queue hended
    refine ⟨extra, ?_, hqueue.unwritten, hqueue.live⟩
    dsimp only
    rw [hqueue.pending, hcount]
  · dsimp only
    rw [cut_append, cutAt, if_neg (by rw [hm]; decide), errorOf_append, h.staged]
  · intro i k hk
    rw [h.replies i k hk]
    simp only [replyTo, hanswers]

theorem Inv.readReady {f : Frame} {frames : List Frame} {unread part : List UInt8}
    (h : Inv parse s) (hended : s.ended = false) (hm : isReady (parse f.encode) = true)
    (hlt : s.read.countP isReady < s.commands.length)
    (hwire : Wire parse unread s.closed (s.read ++ [parse f.encode]) s.sent frames part) :
    Inv parse ({ s with unread, read := s.read ++ [parse f.encode] }.handle (parse f.encode)) := by
  obtain ⟨extra, hqueue⟩ := h.queue hended
  obtain ⟨front, hfront⟩ : ∃ front, s.commands[s.read.countP isReady]? = some front :=
    ⟨_, List.getElem?_eq_getElem hlt⟩
  have hget := (List.getElem?_eq_some_iff.1 hfront).2
  have hpending : { s with unread, read := s.read ++ [parse f.encode] }.pending =
      front :: (s.commands.drop (s.read.countP isReady + 1) ++ extra) := by
    dsimp only
    rw [hqueue.pending, List.drop_eq_getElem_cons hlt, hget, List.cons_append]
  have hanswers : answers (s.read ++ [parse f.encode]) = answers s.read ++ [(cut s.read).2] := by
    rw [answers_append, if_pos hm]
  have hcount : (s.read ++ [parse f.encode]).countP isReady = s.read.countP isReady + 1 := by
    rw [← length_answers, hanswers, List.length_append, length_answers]
    rfl
  rw [handle_ready hm hpending]
  refine ⟨h.holder, h.arrived, h.nodup, ⟨frames, part, hwire⟩, h.served, fun _ => ?_, ?_, ?_, ?_,
    h.ended⟩
  · refine ⟨extra, ?_, hqueue.unwritten, hqueue.live⟩
    dsimp only
    rw [hcount]
  · dsimp only
    rw [cut_append, cutAt, if_pos hm]
    rfl
  · intro i k hk
    dsimp only at hk
    simp only [replyTo, hanswers]
    by_cases hi : i = s.read.countP isReady
    · obtain rfl : front = k := by
        rw [hi, hfront] at hk
        exact Option.some.inj hk
      rw [Function.update_self, hi, ← length_answers]
      simp [h.staged]
    · -- Another command keeps what it has.
      have hne : k ≠ front := by
        rintro rfl
        have hlen := (List.getElem?_eq_some_iff.1 hk).1
        exact hi ((List.getElem?_inj hlen h.nodup).1 (hk.trans hfront.symm))
      rw [Function.update_of_ne hne, h.replies i k hk, replyTo]
      rcases Nat.lt_or_gt_of_ne hi with hlt' | hgt
      · rw [List.getElem?_append_left (by rw [length_answers]; exact hlt')]
      · have hold : (answers s.read)[i]? = none := by
          rw [List.getElem?_eq_none_iff, length_answers]
          exact Nat.le_of_lt hgt
        have hnew : (answers s.read ++ [(cut s.read).2])[i]? = none := by
          rw [List.getElem?_eq_none_iff, List.length_append, length_answers]
          exact hgt
        rw [hold, hnew]
  · intro _ k hk
    have hne : k ≠ front := by
      rintro rfl
      exact hk (List.mem_of_getElem? hfront)
    dsimp only
    rw [Function.update_of_ne hne]
    exact h.unanswered hended k hk

theorem Inv.read (h : Inv parse s) (hstep : s.step parse .read = some s') : Inv parse s' := by
  rw [NotifyConn.step] at hstep
  split_ifs at hstep with hended
  rw [Bool.not_eq_true] at hended
  cases hframe : readFrame s.unread with
  | none =>
    rw [hframe] at hstep
    cases hstep
  | some out =>
    obtain ⟨frame, unread⟩ := out
    rw [hframe] at hstep
    obtain rfl := Option.some.inj hstep
    obtain ⟨f, frames, part, rfl, hbefore, hwire⟩ := h.nextFrame hframe
    cases hm : isReady (parse f.encode) with
    | false => exact h.readOther hm hwire
    | true =>
      refine h.readReady hended hm ?_ hwire
      have hserved := h.served
      rw [← hbefore.order, List.map_cons, List.countP_append, List.countP_cons, if_pos hm] at hserved
      omega

theorem mem_drop_iff {l : List Nat} (hnodup : l.Nodup) {i n k : Nat} (h : l[i]? = some k) :
    k ∈ l.drop n ↔ n ≤ i := by
  rw [List.mem_iff_getElem?]
  simp only [List.getElem?_drop]
  constructor
  · rintro ⟨j, hj⟩
    have hlen := (List.getElem?_eq_some_iff.1 h).1
    have hij := (List.getElem?_inj hlen hnodup).1 (h.trans hj.symm)
    omega
  · exact fun hle => ⟨i - n, by rw [Nat.add_sub_cancel' hle]; exact h⟩

/-- At the end of the stream, who waits gets `Closed`. -/
theorem Inv.finish (h : Inv parse s) (hstep : s.step parse .finish = some s') : Inv parse s' := by
  rw [NotifyConn.step] at hstep
  split_ifs at hstep with hen
  obtain ⟨hended, hclosed, -⟩ := hen
  obtain rfl := Option.some.inj hstep
  obtain ⟨extra, hqueue⟩ := h.queue hended
  refine ⟨h.holder, h.arrived, h.nodup, h.wire, h.served, nofun, h.staged, ?_, nofun,
    fun _ => hclosed⟩
  intro i k hk
  have hextra : k ∉ extra := by
    intro hmem
    have hunwritten := hqueue.unwritten k hmem
    have harrived := (h.arrived k).2 (List.mem_of_getElem? hk)
    cases hpc : s.pc k <;> simp [hpc, Pc.unwritten, Pc.arrived] at hunwritten harrived
  have hpending : k ∈ s.pending ↔ (answers s.read).length ≤ i := by
    rw [hqueue.pending, List.mem_append, or_iff_left hextra, mem_drop_iff h.nodup hk, length_answers]
  have hreply := h.replies i k hk
  by_cases hanswered : i < (answers s.read).length
  · have hnot : k ∉ s.pending := by
      rw [hpending]
      omega
    rw [replyTo, List.getElem?_eq_getElem hanswered] at hreply
    simp [NotifyConn.drain, hnot, hreply, replyTo, List.getElem?_eq_getElem hanswered]
  · have hnone : (answers s.read)[i]? = none := List.getElem?_eq_none (Nat.le_of_not_lt hanswered)
    have hmem : k ∈ s.pending := hpending.2 (Nat.le_of_not_lt hanswered)
    simp [NotifyConn.drain, hmem, replyTo, hnone]

theorem Inv.step {e : Event} (h : Inv parse s) (hstep : s.step parse e = some s') :
    Inv parse s' := by
  cases e with
  | lock k => exact h.lock hstep
  | push k => exact h.push hstep
  | write k => exact h.write hstep
  | fail k e => exact h.fail hstep
  | unlock k => exact h.unlock hstep
  | leave k => exact h.leave hstep
  | send f => exact h.send hstep
  | close f n => exact h.close hstep
  | read => exact h.read hstep
  | finish => exact h.finish hstep
  | listen ls => exact h.listen hstep

/-! ## A whole run -/

/-- What the server sends in a step. -/
def Event.sends (parse : List UInt8 → Option Message) : Event → List (Option Message)
  | .send f => [parse f.encode]
  | _ => []

theorem step_sent {e : Event} (hstep : s.step parse e = some s') :
    s'.sent = s.sent ++ e.sends parse := by
  cases e with
  | read =>
    rw [NotifyConn.step] at hstep
    split_ifs at hstep
    cases hframe : readFrame s.unread with
    | none =>
      rw [hframe] at hstep
      cases hstep
    | some out =>
      rw [hframe] at hstep
      obtain rfl := Option.some.inj hstep
      exact (handle_keeps _ _).2.2.2.trans (List.append_nil _).symm
  | listen ls =>
    obtain rfl := Option.some.inj hstep
    exact (List.append_nil _).symm
  | send f =>
    obtain ⟨-, hstep⟩ := Option.ite_none_right_eq_some.1 hstep
    obtain rfl := Option.some.inj hstep
    rfl
  | lock | push | write | fail | unlock | leave | close | finish =>
    obtain ⟨-, hstep⟩ := Option.ite_none_right_eq_some.1 hstep
    obtain rfl := Option.some.inj hstep
    exact (List.append_nil _).symm

theorem run_sent {events : List Event} (hrun : run (NotifyConn.step parse) s events = some s') :
    s'.sent = s.sent ++ events.flatMap (Event.sends parse) := by
  induction events generalizing s with
  | nil =>
    obtain rfl := Option.some.inj hrun
    exact (List.append_nil _).symm
  | cons e events ih =>
    obtain ⟨u, hu, hrun⟩ := run_cons_eq_some.1 hrun
    rw [ih hrun, step_sent hu, List.flatMap_cons, List.append_assoc]

/-- When the stream is closed, the reader comes to its end. -/
theorem finishes (parse : List UInt8 → Option Message) {s : NotifyConn}
    (hclosed : s.closed = true) (hended : s.ended = false) :
    ∃ n t, run (NotifyConn.step parse) s (List.replicate n .read ++ [.finish]) = some t := by
  induction hlen : s.unread.length using Nat.strong_induction_on generalizing s with
  | _ len ih =>
    cases hframe : readFrame s.unread with
    | none =>
      refine ⟨0, s.drain, ?_⟩
      have hfinish : s.step parse .finish = some s.drain := if_pos ⟨hended, hclosed, hframe⟩
      rw [List.replicate_zero, List.nil_append, run_cons_eq_some]
      exact ⟨_, hfinish, rfl⟩
    | some out =>
      obtain ⟨frame, unread⟩ := out
      have hread : s.step parse .read =
          some ({ s with unread, read := s.read ++ [parse frame] }.handle (parse frame)) := by
        rw [NotifyConn.step, if_neg (by rw [hended]; decide), hframe]
      obtain ⟨hclosed', hended', hunread, -⟩ :=
        handle_keeps { s with unread, read := s.read ++ [parse frame] } (parse frame)
      obtain ⟨n, t, hrun⟩ := ih _ (by rw [hunread, ← hlen]; exact readFrame_lt hframe)
        (hclosed'.trans hclosed) (hended'.trans hended) rfl
      refine ⟨n + 1, t, ?_⟩
      rw [List.replicate_succ, List.cons_append, run_cons_eq_some]
      exact ⟨_, hread, hrun⟩

/-- What a call returns for a reply. -/
def returned : Option Error → Except Error Unit
  | none => .ok ()
  | some e => .error e

theorem result_of_reply {k : Nat} {reply : Option Error} (hpc : s.pc k = .waiting)
    (h : s.replies k = some reply) : s.result k = some (returned reply) := by
  unfold NotifyConn.result
  rw [hpc, h]
  cases reply <;> rfl

/-- **Replies reach their own command.** In every state of every run, what was read is a beginning of
what the server has sent, and the command that was written at some place gets the error of the answer
at that place, if it has one. When the stream has ended the others get `Closed`; while it has not they
wait, and when it is closed the reader comes to its end. -/
theorem replies_reach_commands (parse : List UInt8 → Option Message) (ls : Listeners)
    (events : List Event) (s : NotifyConn)
    (hrun : run (NotifyConn.step parse) (start ls) events = some s) :
    (∃ frames part, Wire parse s.unread s.closed s.read (events.flatMap (Event.sends parse))
      frames part) ∧
    (∀ before middle m after k, s.read = before ++ middle ++ m :: after → Complete before →
      (∀ x ∈ middle, isReady x = false) → isReady m = true →
      s.commands[before.countP isReady]? = some k →
      s.replies k = some (errorOf middle) ∧
        (s.pc k = .waiting → s.result k = some (returned (errorOf middle)))) ∧
    (∀ (i k : Nat), s.commands[i]? = some k → s.read.countP isReady ≤ i →
      (s.ended = true → s.replies k = some (some .closed) ∧
        (s.pc k = .waiting → s.result k = some (.error .closed))) ∧
      (s.ended = false → s.replies k = none)) ∧
    (s.closed = true → s.ended = false →
      ∃ n t, run (NotifyConn.step parse) s (List.replicate n .read ++ [.finish]) = some t ∧
        t.ended = true) := by
  have hinv : Inv parse s := run_invariant' (fun _ _ _ h hstep => h.step hstep) (inv_start ls) hrun
  refine ⟨?_, fun before middle m after k hread hbefore hmiddle hm hk => ?_, fun i k hk hi => ?_,
    fun hclosed hended => ?_⟩
  · have hsent : s.sent = events.flatMap (Event.sends parse) := run_sent hrun
    exact hsent ▸ hinv.wire
  · have hanswer := getElem?_answers hbefore hmiddle hm after
    have hreply : s.replies k = some (errorOf middle) := by
      rw [hinv.replies _ k hk, replyTo, hread, hanswer]
    exact ⟨hreply, fun hpc => result_of_reply hpc hreply⟩
  · have hnone : (answers s.read)[i]? = none := by
      rw [List.getElem?_eq_none_iff, length_answers]
      exact hi
    have hreply := hinv.replies i k hk
    rw [replyTo, hnone] at hreply
    refine ⟨fun hended => ?_, fun hended => ?_⟩
    · rw [hended] at hreply
      exact ⟨hreply, fun hpc => result_of_reply hpc hreply⟩
    · rw [hended] at hreply
      exact hreply
  · obtain ⟨n, t, hfinish⟩ := finishes parse hclosed hended
    obtain ⟨u, -, hlast⟩ := run_append_eq_some.1 hfinish
    obtain ⟨t', hstep, ht⟩ := run_cons_eq_some.1 hlast
    obtain rfl := Option.some.inj ht
    rw [NotifyConn.step] at hstep
    split_ifs at hstep
    obtain rfl := Option.some.inj hstep
    exact ⟨n, _, hfinish, rfl⟩

/-- The server fails the first command and not the second. -/
def firstFails (bytes : List UInt8) : Option Message :=
  match bytes.head? with
  | some 0x5A => some (.readyForQuery 'I')
  | some 0x45 => some (.errorResponse [('C', "42601")])
  | _ => none

def twoCommands : List Event :=
  [.lock 0, .push 0, .write 0, .unlock 0, .lock 1, .push 1, .send ⟨0x45, [0]⟩,
    .send ⟨0x5A, [0x49]⟩, .read, .write 1, .send ⟨0x5A, [0x49]⟩, .read, .read, .unlock 1]

theorem replies_reach_commands_two :
    ∃ s, run (NotifyConn.step firstFails) (start Listeners.none) twoCommands = some s ∧
      s.result 0 = some (.error (Error.fromErrorFields [('C', "42601")])) ∧
      s.result 1 = some (.ok ()) := by
  obtain ⟨s, hrun, hread, hcommands, hfirst, hsecond⟩ :
      ∃ s, run (NotifyConn.step firstFails) (start Listeners.none) twoCommands = some s ∧
        s.read = [some (.errorResponse [('C', "42601")]), some (.readyForQuery 'I'),
          some (.readyForQuery 'I')] ∧ s.commands = [0, 1] ∧
        s.pc 0 = .waiting ∧ s.pc 1 = .waiting :=
    ⟨_, rfl, rfl, rfl, rfl, rfl⟩
  obtain ⟨-, hreplies, -⟩ :=
    replies_reach_commands firstFails Listeners.none twoCommands s hrun
  have hfailed := hreplies [] [some (.errorResponse [('C', "42601")])] (some (.readyForQuery 'I'))
    [some (.readyForQuery 'I')] 0 hread (by simp [Complete]) (by simp [isReady]) rfl
    (by rw [hcommands]; rfl)
  have hdone := hreplies
    [some (.errorResponse [('C', "42601")]), some (.readyForQuery 'I')] []
    (some (.readyForQuery 'I')) [] 1 hread (by simp [Complete, isReady]) nofun rfl
    (by rw [hcommands]; rfl)
  exact ⟨s, hrun, hfailed.2 hfirst, hdone.2 hsecond⟩

end Pglite.NotifyReader
