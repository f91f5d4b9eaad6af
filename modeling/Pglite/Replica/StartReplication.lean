import Pglite.GatewayFilter
import Pglite.Replica.Run

/-!
# Starting the replication

`start_replication` of `src/replica/wire.rs` and `start_replication_with_retry` of
`src/replica/mod.rs`. While another session holds the slot the upstream answers with the error 55006,
and the replica asks again on the same connection, with the same buffer.

**The connection** (`ReplConn`). What was read and not used, what the upstream has sent and was not
read, and what it will answer to the next requests. A read gives some of the bytes that are there.

**The position.** `start_replication` returns right after the frame it was looking for
(`awaitCopyBoth_copyBoth`, `awaitCopyBoth_error`). Behind an error that is in the middle of an
answer: its `ReadyForQuery` is still to come, and the next attempt takes it for a protocol error
(`awaitCopyBoth_ready`).

`waits_for_slot_iff` is the result: all is well exactly when the first answer is not 55006.
-/

namespace Pglite.Replica.StartReplication

open Frames Text

/-! ## The connection -/

/-- `ReplConn`, with the other end of its stream. -/
structure ReplConn where
  buf : List UInt8
  /-- Sent by the upstream and not read. -/
  inFlight : List UInt8
  /-- What the upstream sends for the next requests. -/
  answers : List (List UInt8)
  /-- How many reads there were. -/
  reads : Nat
  sent : List String

namespace ReplConn

/-- Nothing is on its way. -/
def fresh (answers : List (List UInt8)) : ReplConn := ⟨[], [], answers, 0, []⟩

/-- What will be read, as it stands. -/
def unread (c : ReplConn) : List UInt8 := c.buf ++ c.inFlight

/-- `frontend::query` and `write_all`. -/
def write (c : ReplConn) (sql : String) : ReplConn :=
  { c with
    inFlight := c.inFlight ++ c.answers.headD []
    answers := c.answers.tail
    sent := c.sent ++ [sql] }

/-- `fill`: the `i`-th read gives at most `size i + 1` bytes. It waits when there are none. -/
def fill (size : Nat → Nat) (c : ReplConn) : Option ReplConn :=
  if c.inFlight = [] then none
  else
    let n := min 8192 (size c.reads + 1)
    some { c with
      buf := c.buf ++ c.inFlight.take n
      inFlight := c.inFlight.drop n
      reads := c.reads + 1 }

theorem fill_lt {size : Nat → Nat} {c c' : ReplConn} (h : c.fill size = some c') :
    c'.inFlight.length < c.inFlight.length := by
  unfold fill at h
  split_ifs at h with hempty
  cases h
  have hpos := List.length_pos_iff.2 hempty
  simp only [List.length_drop]
  omega

theorem fill_spec (size : Nat → Nat) {c : ReplConn} (h : c.inFlight ≠ []) :
    ∃ c', c.fill size = some c' ∧ c'.unread = c.unread ∧ c'.answers = c.answers ∧
      c'.sent = c.sent := by
  refine ⟨_, if_neg h, ?_, rfl, rfl⟩
  simp [unread]

end ReplConn

/-! ## The code -/

section
variable (fields : List UInt8 → ErrorFields) (size : Nat → Nat)

/-- The loop of `start_replication`. `fields` reads the body of an error. There is no result while it
waits for bytes. -/
def awaitCopyBoth (c : ReplConn) : Option (Except Error Unit × ReplConn) :=
  match _hparse : parse c.buf with
  | .error () =>
    some (.error (.protocol "invalid message length: header length < 4"), c)
  | .ok none =>
    match _hfill : c.fill size with
    | none => none
    | some c' => awaitCopyBoth c'
  | .ok (some (f, rest)) =>
    if f.tag = tag 'W' then some (.ok (), { c with buf := rest })
    else if f.tag = tag 'E' then
      some (.error (Error.fromErrorFields (fields f.body)), { c with buf := rest })
    else if f.tag = tag 'N' then awaitCopyBoth { c with buf := rest }
    else
      some (.error (.protocol ("unexpected message " ++ String.singleton (Char.ofNat f.tag.toNat) ++
        " awaiting CopyBothResponse")), c)
termination_by (c.inFlight.length, c.buf.length)
decreasing_by
  · exact .left _ _ (ReplConn.fill_lt _hfill)
  · refine .right _ ?_
    obtain ⟨-, hbuf⟩ := parse_eq_some _hparse
    rw [hbuf, List.length_append, Frame.length_encode]
    omega

/-- The text of the request. -/
def startReplicationSql (slot : String) (start : Lsn) (publication : String) : String :=
  "START_REPLICATION SLOT \"" ++ double quote slot ++ "\" LOGICAL " ++ start.toPgStr ++
    " (proto_version '1', publication_names '\"" ++ double quote publication ++
    "\"', messages 'true')"

/-- `start_replication`. -/
def startReplication (slot : String) (start : Lsn) (publication : String) (c : ReplConn) :
    Option (Except Error Unit × ReplConn) :=
  awaitCopyBoth fields size (c.write (startReplicationSql slot start publication))

/-- Another session holds the slot. -/
def isBusy : Error → Bool
  | .database sqlstate _ _ _ => sqlstate = "55006"
  | _ => false

variable (cfg : ReplicaConfig) (watermark : Nat → Lsn) (done : Nat → Bool)

/-- `start_replication_with_retry`, with the watermark at each attempt, and whether a stop is seen
while it waits for the next one. -/
def startReplicationWithRetry (attempts : Nat) (c : ReplConn) :
    Option (Except Error Unit × ReplConn) :=
  match startReplication fields size cfg.slotName (watermark attempts) cfg.publication c with
  | none => none
  | some (.ok (), c) => some (.ok (), c)
  | some (.error e, c) =>
    if isBusy e ∧ attempts < 5 then
      if done attempts then
        some (.error (.upstream "stopped while waiting for the replication slot"), c)
      else startReplicationWithRetry (attempts + 1) c
    else some (.error (mapInvalidated cfg e), c)
termination_by 5 - attempts

end

/-! ## What the upstream answers -/

inductive Reply
  /-- `CopyBothResponse`, and the bytes of the stream behind it. -/
  | copyBoth (body stream : List UInt8)
  /-- `ErrorResponse`, then `ReadyForQuery`, with notices between them. -/
  | error (body : List UInt8) (notices : List (List UInt8)) (status : List UInt8)

/-- The answer to one request. -/
structure Answer where
  notices : List (List UInt8)
  reply : Reply

def noticeFrames (notices : List (List UInt8)) : List Frame := notices.map (Frame.mk (tag 'N'))

namespace Reply

def frames : Reply → List Frame
  | .copyBoth body _ => [⟨tag 'W', body⟩]
  | .error body notices status => ⟨tag 'E', body⟩ :: (noticeFrames notices ++ [⟨tag 'Z', status⟩])

/-- What comes behind the answer. -/
def behind : Reply → List UInt8
  | .copyBoth _ stream => stream
  | .error _ _ _ => []

end Reply

namespace Answer

def frames (a : Answer) : List Frame := noticeFrames a.notices ++ a.reply.frames

def bytes (a : Answer) : List UInt8 := encodeAll a.frames ++ a.reply.behind

/-- Every message of it has a length. -/
def Fits (a : Answer) : Prop := ∀ f ∈ a.frames, f.Fits

end Answer

/-! ## Reading the frames of an answer -/

section
variable (fields : List UInt8 → ErrorFields) (size : Nat → Nat)

/-- However the bytes come, the first frame is found. -/
theorem awaitCopyBoth_reaches {f : Frame} (hf : f.Fits) {more : List UInt8} {c : ReplConn}
    (h : c.unread = f.encode ++ more) :
    ∃ c' rest, parse c'.buf = .ok (some (f, rest)) ∧ rest ++ c'.inFlight = more ∧
      c'.answers = c.answers ∧ awaitCopyBoth fields size c = awaitCopyBoth fields size c' := by
  induction hn : c.inFlight.length using Nat.strong_induction_on generalizing c with
  | _ n ih =>
    by_cases hcomplete : f.encode <+: c.buf
    · obtain ⟨rest, hbuf⟩ := hcomplete
      refine ⟨c, rest, hbuf ▸ parse_encode hf rest, ?_, rfl, rfl⟩
      rw [ReplConn.unread, ← hbuf, List.append_assoc] at h
      exact List.append_cancel_left h
    · -- What was read is a part of the frame.
      have hcut : c.buf <+: f.encode := by
        have hbuf : c.buf <+: c.unread := ⟨c.inFlight, rfl⟩
        have hframe : f.encode <+: c.unread := ⟨more, h.symm⟩
        exact (List.prefix_or_prefix_of_prefix hbuf hframe).resolve_right hcomplete
      have hparse : parse c.buf = .ok none :=
        parse_cut hf hcut fun heq => hcomplete (heq ▸ List.prefix_rfl)
      have hleft : c.inFlight ≠ [] := by
        intro hempty
        rw [ReplConn.unread, hempty, List.append_nil] at h
        exact hcomplete ⟨more, h.symm⟩
      obtain ⟨c', hfill, hunread, hanswers, -⟩ := ReplConn.fill_spec size hleft
      obtain ⟨c₁, rest, hfound, hrest, hanswers', hrun⟩ :=
        ih _ (hn ▸ ReplConn.fill_lt hfill) (hunread.trans h) rfl
      refine ⟨c₁, rest, hfound, hrest, hanswers'.trans hanswers, ?_⟩
      rw [← hrun, awaitCopyBoth]
      split
      · next heq => rw [hparse] at heq; cases heq
      · split
        · next heq => rw [hfill] at heq; cases heq
        · next heq => rw [hfill] at heq; cases heq; rfl
      · next heq => rw [hparse] at heq; cases heq

/-- It waits when there is nothing to read. -/
theorem awaitCopyBoth_nothing {c : ReplConn} (h : c.unread = []) :
    awaitCopyBoth fields size c = none := by
  obtain ⟨hbuf, hempty⟩ := List.append_eq_nil_iff.1 h
  have hfill : c.fill size = none := if_pos hempty
  rw [awaitCopyBoth]
  split
  · next heq => rw [hbuf] at heq; cases heq
  · split
    · rfl
    · next heq => rw [hfill] at heq; cases heq
  · next heq => rw [hbuf] at heq; cases heq

/-- What is done with a frame that is complete. -/
theorem awaitCopyBoth_frame {f : Frame} {rest : List UInt8} {c : ReplConn}
    (h : parse c.buf = .ok (some (f, rest))) :
    awaitCopyBoth fields size c =
      if f.tag = tag 'W' then some (.ok (), { c with buf := rest })
      else if f.tag = tag 'E' then
        some (.error (Error.fromErrorFields (fields f.body)), { c with buf := rest })
      else if f.tag = tag 'N' then awaitCopyBoth fields size { c with buf := rest }
      else
        some (.error (.protocol ("unexpected message " ++
          String.singleton (Char.ofNat f.tag.toNat) ++ " awaiting CopyBothResponse")), c) := by
  rw [awaitCopyBoth]
  split
  · next heq => rw [h] at heq; cases heq
  · next heq => rw [h] at heq; cases heq
  · next heq => rw [h] at heq; cases heq; rfl

theorem awaitCopyBoth_notice {body more : List UInt8} {c : ReplConn}
    (hfits : Frame.Fits ⟨tag 'N', body⟩) (h : c.unread = Frame.encode ⟨tag 'N', body⟩ ++ more) :
    ∃ c', c'.unread = more ∧ c'.answers = c.answers ∧
      awaitCopyBoth fields size c = awaitCopyBoth fields size c' := by
  obtain ⟨c₁, rest, hfound, hrest, hanswers, hrun⟩ := awaitCopyBoth_reaches fields size hfits h
  have hcopyBoth : ¬ tag 'N' = tag 'W' := by decide
  have herror : ¬ tag 'N' = tag 'E' := by decide
  refine ⟨{ c₁ with buf := rest }, hrest, hanswers, ?_⟩
  rw [hrun, awaitCopyBoth_frame fields size hfound, if_neg hcopyBoth, if_neg herror, if_pos rfl]

theorem awaitCopyBoth_notices {notices : List (List UInt8)} {more : List UInt8} {c : ReplConn}
    (hfits : ∀ f ∈ noticeFrames notices, f.Fits)
    (h : c.unread = encodeAll (noticeFrames notices) ++ more) :
    ∃ c', c'.unread = more ∧ c'.answers = c.answers ∧
      awaitCopyBoth fields size c = awaitCopyBoth fields size c' := by
  induction notices generalizing c with
  | nil => exact ⟨c, h, rfl, rfl⟩
  | cons body notices ih =>
    obtain ⟨hbody, hnotices⟩ := List.forall_mem_cons.1 hfits
    rw [noticeFrames, List.map_cons, encodeAll_cons, List.append_assoc] at h
    obtain ⟨c₁, hunread, hanswers, hrun⟩ := awaitCopyBoth_notice fields size hbody h
    obtain ⟨c', hunread', hanswers', hrun'⟩ := ih hnotices hunread
    exact ⟨c', hunread', hanswers'.trans hanswers, hrun.trans hrun'⟩

/-- It returns right behind the `CopyBothResponse`. -/
theorem awaitCopyBoth_copyBoth {body more : List UInt8} {c : ReplConn}
    (hfits : Frame.Fits ⟨tag 'W', body⟩) (h : c.unread = Frame.encode ⟨tag 'W', body⟩ ++ more) :
    ∃ c', c'.unread = more ∧ awaitCopyBoth fields size c = some (.ok (), c') := by
  obtain ⟨c₁, rest, hfound, hrest, -, hrun⟩ := awaitCopyBoth_reaches fields size hfits h
  refine ⟨{ c₁ with buf := rest }, hrest, ?_⟩
  rw [hrun, awaitCopyBoth_frame fields size hfound, if_pos rfl]

/-- It returns right behind the `ErrorResponse`. -/
theorem awaitCopyBoth_error {body more : List UInt8} {c : ReplConn}
    (hfits : Frame.Fits ⟨tag 'E', body⟩) (h : c.unread = Frame.encode ⟨tag 'E', body⟩ ++ more) :
    ∃ c', c'.unread = more ∧ c'.answers = c.answers ∧
      awaitCopyBoth fields size c = some (.error (Error.fromErrorFields (fields body)), c') := by
  obtain ⟨c₁, rest, hfound, hrest, hanswers, hrun⟩ := awaitCopyBoth_reaches fields size hfits h
  have hcopyBoth : ¬ tag 'E' = tag 'W' := by decide
  refine ⟨{ c₁ with buf := rest }, hrest, hanswers, ?_⟩
  rw [hrun, awaitCopyBoth_frame fields size hfound, if_neg hcopyBoth, if_pos rfl]

/-- A `ReadyForQuery` is not expected. -/
theorem awaitCopyBoth_ready {status more : List UInt8} {c : ReplConn}
    (hfits : Frame.Fits ⟨tag 'Z', status⟩)
    (h : c.unread = Frame.encode ⟨tag 'Z', status⟩ ++ more) :
    ∃ msg c', awaitCopyBoth fields size c = some (.error (.protocol msg), c') := by
  obtain ⟨c₁, rest, hfound, -, -, hrun⟩ := awaitCopyBoth_reaches fields size hfits h
  have hcopyBoth : ¬ tag 'Z' = tag 'W' := by decide
  have herror : ¬ tag 'Z' = tag 'E' := by decide
  have hnotice : ¬ tag 'Z' = tag 'N' := by decide
  have hframe := awaitCopyBoth_frame fields size hfound
  rw [if_neg hcopyBoth, if_neg herror, if_neg hnotice] at hframe
  exact ⟨_, c₁, hrun.trans hframe⟩

/-! ## One attempt -/

/-- What an answer comes to. -/
theorem awaitCopyBoth_answer {a : Answer} (hfits : a.Fits) {c : ReplConn}
    (h : c.unread = a.bytes) :
    match a.reply with
    | .copyBoth _ stream =>
      ∃ c', c'.unread = stream ∧ awaitCopyBoth fields size c = some (.ok (), c')
    | .error body notices status =>
      ∃ c', c'.unread = encodeAll (noticeFrames notices) ++ Frame.encode ⟨tag 'Z', status⟩ ∧
        c'.answers = c.answers ∧
        awaitCopyBoth fields size c = some (.error (Error.fromErrorFields (fields body)), c') := by
  obtain ⟨notices, reply⟩ := a
  have hnotices : ∀ f ∈ noticeFrames notices, f.Fits := fun f hf =>
    hfits f (List.mem_append_left _ hf)
  have hreply : ∀ f ∈ reply.frames, f.Fits := fun f hf => hfits f (List.mem_append_right _ hf)
  rw [Answer.bytes, Answer.frames, encodeAll_append, List.append_assoc] at h
  obtain ⟨c₁, hunread, hanswers, hrun⟩ := awaitCopyBoth_notices fields size hnotices h
  cases reply with
  | copyBoth body stream =>
    have hunread' : c₁.unread = Frame.encode ⟨tag 'W', body⟩ ++ stream := by
      rw [hunread]
      simp [Reply.frames, Reply.behind]
    obtain ⟨c', hstream, hrun'⟩ := awaitCopyBoth_copyBoth fields size (hreply _ List.mem_cons_self) hunread'
    exact ⟨c', hstream, hrun.trans hrun'⟩
  | error body later status =>
    have hunread' : c₁.unread = Frame.encode ⟨tag 'E', body⟩ ++
        (encodeAll (noticeFrames later) ++ Frame.encode ⟨tag 'Z', status⟩) := by
      rw [hunread]
      simp [Reply.frames, Reply.behind, encodeAll_append]
    obtain ⟨c', hlater, hanswers', hrun'⟩ :=
      awaitCopyBoth_error fields size (hreply _ List.mem_cons_self) hunread'
    exact ⟨c', hlater, hanswers'.trans hanswers, hrun.trans hrun'⟩

/-- Behind an error every attempt fails with a protocol error. -/
theorem startReplication_behind_error {notices : List (List UInt8)} {status : List UInt8}
    (hnotices : ∀ f ∈ noticeFrames notices, f.Fits) (hready : Frame.Fits ⟨tag 'Z', status⟩)
    {c : ReplConn}
    (h : c.unread = encodeAll (noticeFrames notices) ++ Frame.encode ⟨tag 'Z', status⟩)
    (slot : String) (start : Lsn) (publication : String) :
    ∃ msg c', startReplication fields size slot start publication c =
      some (.error (.protocol msg), c') := by
  have hwritten : (c.write (startReplicationSql slot start publication)).unread =
      encodeAll (noticeFrames notices) ++
        (Frame.encode ⟨tag 'Z', status⟩ ++ c.answers.headD []) := by
    rw [← List.append_assoc, ← h]
    simp [ReplConn.write, ReplConn.unread]
  obtain ⟨c₁, hunread, -, hrun⟩ := awaitCopyBoth_notices fields size hnotices hwritten
  obtain ⟨msg, c', hrun'⟩ := awaitCopyBoth_ready fields size hready hunread
  exact ⟨msg, c', hrun.trans hrun'⟩

end

/-! ## The retries -/

section
variable (fields : List UInt8 → ErrorFields) (cfg : ReplicaConfig)

/-- What the replica is meant to come to. -/
inductive Outcome
  /-- The stream has started, and this is what is read next. -/
  | started (stream : List UInt8)
  | failed (e : Error)

/-- What is meant with these answers. -/
def expected : Nat → List Answer → Option Outcome
  | _, [] => none
  | attempts, a :: answers =>
    match a.reply with
    | .copyBoth _ stream => some (.started stream)
    | .error body _ _ =>
      let e := Error.fromErrorFields (fields body)
      if isBusy e ∧ attempts < 5 then expected (attempts + 1) answers
      else some (.failed (mapInvalidated cfg e))

def Outcome.Is : Outcome → Except Error Unit × ReplConn → Prop
  | .started stream, (result, c) => result = .ok () ∧ c.unread = stream
  | .failed e, (result, _) => result = .error e

/-- The run comes to what is meant, and to no protocol error. -/
structure WaitsForSlot (answers : List Answer) (run : Option (Except Error Unit × ReplConn)) :
    Prop where
  returns : ∀ o ∈ expected fields cfg 0 answers, ∃ out ∈ run, o.Is out
  noProtocolError : ∀ out ∈ run, ∀ msg, out.1 ≠ .error (.protocol msg)

/-- The answer is that another session holds the slot. -/
def Answer.Busy (a : Answer) : Prop :=
  ∃ body notices status, a.reply = .error body notices status ∧
    isBusy (Error.fromErrorFields (fields body)) = true

end

section
variable (fields : List UInt8 → ErrorFields) (size : Nat → Nat) (cfg : ReplicaConfig)
variable (watermark : Nat → Lsn) {done : Nat → Bool}

theorem mapInvalidated_ne_protocol (fs : ErrorFields) (msg : String) :
    mapInvalidated cfg (Error.fromErrorFields fs) ≠ .protocol msg := by
  obtain ⟨c, m, d, h, heq⟩ := Error.fromErrorFields_eq_database fs
  rw [heq]
  unfold mapInvalidated
  split
  · exact nofun
  · exact nofun

/-- The first attempt reads the first answer. -/
theorem startReplication_first {a : Answer} (answers : List Answer) (slot : String) (start : Lsn)
    (publication : String) :
    ((ReplConn.fresh ((a :: answers).map Answer.bytes)).write
      (startReplicationSql slot start publication)).unread = a.bytes := rfl

/-- A busy slot comes to a protocol error. -/
theorem busy_protocolError (answers : List Answer) (hdone : ∀ i, done i = false) {a : Answer}
    (hfits : a.Fits) (hbusy : a.Busy fields) :
    ∃ msg c, startReplicationWithRetry fields size cfg watermark done 0
      (.fresh ((a :: answers).map Answer.bytes)) = some (.error (.protocol msg), c) := by
  obtain ⟨body, notices, status, hreply, hisBusy⟩ := hbusy
  have hfirst := awaitCopyBoth_answer fields size hfits
    (startReplication_first answers cfg.slotName (watermark 0) cfg.publication)
  rw [hreply] at hfirst
  obtain ⟨c₁, hunread, -, hrun⟩ := hfirst
  have hmem : ∀ f ∈ (⟨tag 'E', body⟩ :: (noticeFrames notices ++ [⟨tag 'Z', status⟩]) : List Frame),
      f.Fits := fun f hf => hfits f (List.mem_append_right _ (hreply ▸ hf))
  obtain ⟨-, hlater⟩ := List.forall_mem_cons.1 hmem
  obtain ⟨hnotices, hready⟩ := List.forall_mem_append.1 hlater
  obtain ⟨msg, c₂, hsecond⟩ := startReplication_behind_error fields size
    hnotices (hready _ List.mem_cons_self) hunread cfg.slotName (watermark 1) cfg.publication
  refine ⟨msg, c₂, ?_⟩
  rw [startReplicationWithRetry, startReplication, hrun]
  dsimp only
  rw [if_pos ⟨hisBusy, by decide⟩, hdone, if_neg (by decide), startReplicationWithRetry, hsecond]
  exact if_neg fun h => by cases h.1

/-- **A busy slot.** With an upstream that answers each request, the replica waits for the slot
exactly when it need not: when the first answer is not that another session holds it. -/
theorem waits_for_slot_iff (done : Nat → Bool) (hdone : ∀ i, done i = false) (answers : List Answer) (hfits : ∀ a ∈ answers, a.Fits) :
    WaitsForSlot fields cfg answers (startReplicationWithRetry fields size cfg watermark done 0
      (.fresh (answers.map Answer.bytes))) ↔ ∀ a ∈ answers.head?, ¬ a.Busy fields := by
  cases answers with
  | nil =>
    refine ⟨fun _ => nofun, fun _ => ⟨nofun, fun out hout => ?_⟩⟩
    rw [startReplicationWithRetry, startReplication, awaitCopyBoth_nothing fields size rfl] at hout
    cases hout
  | cons a answers =>
    have ha := hfits a List.mem_cons_self
    constructor
    · intro hwaits first hfirst hbusy
      obtain rfl : a = first := Option.some.inj hfirst
      obtain ⟨msg, c, hrun⟩ := busy_protocolError fields size cfg watermark answers hdone ha hbusy
      exact hwaits.noProtocolError _ hrun msg rfl
    · intro hnot
      have hfirst := awaitCopyBoth_answer fields size ha
        (startReplication_first answers cfg.slotName (watermark 0) cfg.publication)
      obtain ⟨notices, reply⟩ := a
      cases reply with
      | copyBoth body stream =>
        obtain ⟨c, hunread, hrun⟩ := hfirst
        rw [startReplicationWithRetry, startReplication, hrun]
        refine ⟨fun o ho => ⟨_, rfl, ?_⟩, fun out hout msg => ?_⟩
        · obtain rfl : .started stream = o := Option.some.inj ho
          exact ⟨rfl, hunread⟩
        · obtain rfl := Option.some.inj hout
          exact nofun
      | error body later status =>
        obtain ⟨c, hunread, -, hrun⟩ := hfirst
        have hother : ¬ (isBusy (Error.fromErrorFields (fields body)) ∧ 0 < 5) := fun h =>
          hnot _ rfl ⟨body, later, status, rfl, h.1⟩
        rw [startReplicationWithRetry, startReplication, hrun]
        dsimp only
        rw [if_neg hother]
        refine ⟨fun o ho => ⟨_, rfl, ?_⟩, fun out hout msg => ?_⟩
        · rw [expected] at ho
          dsimp only at ho
          rw [if_neg hother] at ho
          obtain rfl := Option.some.inj ho
          rfl
        · obtain rfl := Option.some.inj hout
          exact fun heq => mapInvalidated_ne_protocol cfg _ _ (Except.error.inj heq)

end

/-! ## One refusal -/

/-- The body of an error with only the code 55006, and its fields. -/
def busyBody : List UInt8 := [0x43, 0x35, 0x35, 0x30, 0x30, 0x36, 0x00, 0x00]

def busyFields (body : List UInt8) : ErrorFields :=
  if body = busyBody then [('C', "55006")] else []

/-- The slot is free at once. -/
theorem waits_for_slot_free :
    (∀ i, (fun _ => false : Nat → Bool) i = false) ∧
      (∀ a ∈ [(⟨[], .copyBoth [0, 0, 0] []⟩ : Answer)], a.Fits) ∧
      WaitsForSlot busyFields ⟨"slot", "pub"⟩ [⟨[], .copyBoth [0, 0, 0] []⟩]
        (startReplicationWithRetry busyFields (fun _ => 3) ⟨"slot", "pub"⟩ (fun _ => 0)
          (fun _ => false) 0
          (.fresh ([⟨[], .copyBoth [0, 0, 0] []⟩].map Answer.bytes))) := by
  have hfits : ∀ a ∈ [(⟨[], .copyBoth [0, 0, 0] []⟩ : Answer)], a.Fits := by
    simp [Answer.Fits, Answer.frames, noticeFrames, Reply.frames, Frame.Fits, Frame.len]
  refine ⟨fun _ => rfl, hfits, ?_⟩
  refine (waits_for_slot_iff busyFields _ ⟨"slot", "pub"⟩ _ _ (fun _ => rfl) _ hfits).2 ?_
  rintro a ha ⟨body, notices, status, hreply, -⟩
  obtain rfl := Option.some.inj ha
  cases hreply

/-- The slot is free at the second attempt, and the replica sees a protocol error. -/
theorem waits_for_slot_busy :
    expected busyFields ⟨"slot", "pub"⟩ 0
        [⟨[], .error busyBody [] [0x49]⟩, ⟨[], .copyBoth [0, 0, 0] []⟩] = some (.started []) ∧
      ¬ WaitsForSlot busyFields ⟨"slot", "pub"⟩
        [⟨[], .error busyBody [] [0x49]⟩, ⟨[], .copyBoth [0, 0, 0] []⟩]
        (startReplicationWithRetry busyFields (fun _ => 3) ⟨"slot", "pub"⟩ (fun _ => 0)
          (fun _ => false) 0
          (.fresh ([⟨[], .error busyBody [] [0x49]⟩, ⟨[], .copyBoth [0, 0, 0] []⟩].map
            Answer.bytes))) := by
  have hbusy : isBusy (Error.fromErrorFields (busyFields busyBody)) = true := by decide +kernel
  refine ⟨?_, fun h => ?_⟩
  · simp [expected, hbusy]
  · have hfits : Answer.Fits ⟨[], .error busyBody [] [0x49]⟩ := by
      simp [Answer.Fits, Answer.frames, noticeFrames, Reply.frames, Frame.Fits, Frame.len, busyBody]
    obtain ⟨msg, c, hrun⟩ := busy_protocolError busyFields (fun _ => 3) ⟨"slot", "pub"⟩ (fun _ => 0)
      [⟨[], .copyBoth [0, 0, 0] []⟩] (fun _ => rfl) hfits ⟨_, _, _, rfl, hbusy⟩
    exact h.noProtocolError _ hrun msg rfl

end Pglite.Replica.StartReplication
