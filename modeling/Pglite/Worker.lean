import Pglite.GatewayFilter
import Pglite.Message
import Pglite.Runs

/-!
# The worker of a pooled connection

`Conn` of `src/multiple_process/pool.rs`. A worker thread takes one command after the other from a
queue, writes its bytes and reads the response up to its `ReadyForQuery`. After a failure it makes a
new connection, or ends.

**The server** (`Server`). What each session sends at its start, and what it sends for a command, after
the commands before. Writing and reading may fail at any byte.

**The run** (`Conn.step`). Holders queue commands, callers go away, the worker takes a turn.

**The invariant** (`Conn.Inv`). Before a command nothing is left to read. `readResponse_answer` and
`readResponse_append` keep it, whatever part of an answer comes.

`replies_are_answers` is the result.
-/

namespace Pglite.Worker

open Frames ByteReader Runs

/-! ## Reading a response -/

/-- `read_response` on the bytes that come: the response, and what is behind it. There is none when
they run out before its end. -/
def readResponse (bytes : List UInt8) : Option (List UInt8 × List UInt8) :=
  match _hframe : readFrame bytes with
  | none => none
  | some (frame, rest) =>
    if frame.head? = some (tag 'Z') then some (frame, rest)
    else (readResponse rest).map fun out => (frame ++ out.1, out.2)
termination_by bytes.length
decreasing_by exact readFrame_lt _hframe

theorem readResponse_none {bytes : List UInt8} (h : readFrame bytes = none) :
    readResponse bytes = none := by
  rw [readResponse]
  split
  · rfl
  · next heq => rw [h] at heq; cases heq

theorem readResponse_some {bytes frame rest : List UInt8} (h : readFrame bytes = some (frame, rest)) :
    readResponse bytes =
      if frame.head? = some (tag 'Z') then some (frame, rest)
      else (readResponse rest).map fun out => (frame ++ out.1, out.2) := by
  rw [readResponse]
  split
  · next heq => rw [h] at heq; cases heq
  · next heq =>
    rw [h] at heq
    obtain ⟨rfl, rfl⟩ := Prod.mk.inj (Option.some.inj heq)
    rfl

/-- What happens to a request and its response. -/
inductive Fate
  | fine
  /-- The write fails, whatever part of the request has arrived. -/
  | writeFails (e : String)
  /-- The reads fail after so many bytes. -/
  | readFails (n : Nat) (e : String)

/-- `read_response` on a stream with these bytes, and what is left in the stream. There is no result
while it waits. -/
def receive (fate : Fate) (unread : List UInt8) : Option (Except Error (List UInt8) × List UInt8) :=
  match fate with
  | .readFails n e =>
    match readResponse (unread.take n) with
    | some (out, left) => some (.ok out, left ++ unread.drop n)
    | none => some (.error (.io e), unread.drop n)
  | _ => (readResponse unread).map fun (out, left) => (.ok out, left)

/-! ## The server -/

structure Server where
  /-- What the session with this number sends when it starts. -/
  greeting : Nat → List UInt8
  /-- What a session sends for a command, after these commands. -/
  answer : Nat → List (List UInt8) → List UInt8 → List UInt8

/-- The other end of a `UnixStream`. -/
structure Stream where
  session : Nat
  history : List (List UInt8)
  unread : List UInt8

/-- How a connection is made. -/
inductive Dial
  | refused (e : String)
  | connected (fate : Fate)

/-- What `connect_and_handshake` makes of the response to the startup packet. -/
def greeted (lossy : List UInt8 → String) (session : Nat) :
    Except Error (List UInt8) × List UInt8 → Except Error Stream
  | (.error e, _) => .error e
  | (.ok response, unread) =>
    if response.head? = some (tag 'E') then
      .error (.protocol ("server rejected connection: " ++ lossy response))
    else .ok ⟨session, [], unread⟩

/-- `connect_and_handshake`. -/
def connectAndHandshake (srv : Server) (lossy : List UInt8 → String) (session : Nat) :
    Dial → Option (Except Error Stream)
  | .refused e => some (.error (.io e))
  | .connected (.writeFails e) => some (.error (.io e))
  | .connected fate => (receive fate (srv.greeting session)).map (greeted lossy session)

/-- `write_all` and `read_response`. -/
def roundtrip (srv : Server) (fate : Fate) (wire : List UInt8) (st : Stream) :
    Option (Except Error (List UInt8) × Stream) :=
  match fate with
  | .writeFails e => some (.error (.io e), st)
  | fate =>
    let unread := st.unread ++ srv.answer st.session st.history wire
    (receive fate unread).map fun (result, unread) =>
      (result, { st with history := st.history ++ [wire], unread })

/-! ## The connection -/

/-- What became of a command: the session it was written to, and the commands before it there. -/
structure Served where
  cmd : Nat
  wire : List UInt8
  session : Nat
  history : List (List UInt8)
  result : Except Error (List UInt8)

/-- Where the worker is. -/
inductive Phase
  /-- At `recv`. -/
  | ready (st : Stream)
  /-- After a failure, before `connect_and_handshake`. -/
  | broken
  | ended

/-- `Conn`, with its worker. Commands are numbered in the order in which they were sent. -/
structure Conn where
  sent : List (List UInt8)
  queue : List (Nat × List UInt8)
  /-- The callers that are gone. -/
  gone : List Nat
  phase : Phase
  /-- How many connections were made. -/
  sessions : Nat
  served : List Served
  /-- What the callers got. -/
  replies : List (Nat × Except Error (List UInt8))

namespace Conn

/-- `reply.send`. -/
def reply (c : Conn) (k : Nat) (result : Except Error (List UInt8)) : Conn :=
  if k ∈ c.gone then c else { c with replies := c.replies ++ [(k, result)] }

/-- `Conn::send`. -/
def send (c : Conn) (wire : List UInt8) : Conn :=
  let k := c.sent.length
  let c := { c with sent := c.sent ++ [wire] }
  match c.phase with
  | .ended => c.reply k (.error .closed)
  | _ => { c with queue := c.queue ++ [(k, wire)] }

/-- The worker returns, and the senders of the replies are dropped. -/
def exit (c : Conn) : Conn :=
  { c with
    phase := .ended
    queue := []
    replies := c.replies ++
      (c.queue.filter fun p => p.1 ∉ c.gone).map fun p => (p.1, .error .closed) }

/-- The worker handles a command. -/
def work (srv : Server) (fate : Fate) (c : Conn) : Option Conn :=
  match c.phase, c.queue with
  | .ready st, (k, wire) :: queue =>
    match roundtrip srv fate wire st with
    | none => none
    | some (result, st') =>
      let served := c.served ++ [⟨k, wire, st.session, st.history, result⟩]
      let phase := match result with
        | .ok _ => .ready st'
        | .error _ => .broken
      some ({ c with queue, phase, served }.reply k result)
  | _, _ => none

/-- The worker makes a new connection. -/
def reconnect (srv : Server) (lossy : List UInt8 → String) (dial : Dial) (c : Conn) : Option Conn :=
  match c.phase with
  | .broken =>
    let c' := { c with sessions := c.sessions + 1 }
    match connectAndHandshake srv lossy c.sessions dial with
    | none => none
    | some (.ok fresh) => some { c' with phase := .ready fresh }
    | some (.error _) => some c'.exit
  | _ => none

/-- `Conn::spawn`. -/
def spawn (srv : Server) (lossy : List UInt8 → String) (dial : Dial) : Option (Except Error Conn) :=
  match connectAndHandshake srv lossy 0 dial with
  | none => none
  | some (.error e) => some (.error e)
  | some (.ok st) => some (.ok ⟨[], [], [], .ready st, 1, [], []⟩)

end Conn

/-! ## Runs -/

inductive Event
  /-- Some holder sends a command. -/
  | send (wire : List UInt8)
  /-- The caller of this command goes away. -/
  | leave (k : Nat)
  | work (fate : Fate)
  | reconnect (dial : Dial)

def Conn.step (srv : Server) (lossy : List UInt8 → String) (c : Conn) : Event → Option Conn
  | .send wire => some (c.send wire)
  | .leave k => some { c with gone := k :: c.gone }
  | .work fate => c.work srv fate
  | .reconnect dial => c.reconnect srv lossy dial

/-! ## Answers -/

/-- One `ReadyForQuery`, as the last message. -/
def IsAnswer (bytes : List UInt8) : Prop :=
  ∃ fs status, bytes = encodeAll (fs ++ [⟨tag 'Z', status⟩]) ∧
    (∀ f ∈ fs, f.tag ≠ tag 'Z') ∧ ∀ f ∈ fs ++ [⟨tag 'Z', status⟩], f.Fits

/-- The commands that this server answers with one `ReadyForQuery`. -/
def Server.Answers (srv : Server) (wire : List UInt8) : Prop :=
  ∀ session history, IsAnswer (srv.answer session history wire)

/-- No message follows the first `ReadyForQuery`. -/
def IsGreeting (bytes : List UInt8) : Prop :=
  ∃ fs, bytes = encodeAll fs ∧ (∀ f ∈ fs.dropLast, f.tag ≠ tag 'Z') ∧ ∀ f ∈ fs, f.Fits

/-- A frame at the head of the bytes is read. -/
theorem readResponse_frame {f : Frame} (hf : f.Fits) (rest : List UInt8) :
    readResponse (f.encode ++ rest) =
      if f.tag = tag 'Z' then some (f.encode, rest)
      else (readResponse rest).map fun out => (f.encode ++ out.1, out.2) := by
  rw [readResponse_some (readFrame_encode hf rest)]
  simp [Frame.encode]

/-- An answer is read to its end, and no further. -/
theorem readResponse_answer {bytes : List UInt8} (h : IsAnswer bytes) (more : List UInt8) :
    readResponse (bytes ++ more) = some (bytes, more) := by
  obtain ⟨fs, status, rfl, hnot, hfits⟩ := h
  induction fs with
  | nil =>
    rw [List.nil_append, encodeAll_cons, encodeAll_nil, List.append_nil,
      readResponse_frame (hfits _ List.mem_cons_self), if_pos rfl]
  | cons f fs ih =>
    obtain ⟨hf, hfs⟩ := List.forall_mem_cons.1 hfits
    obtain ⟨hne, hnot⟩ := List.forall_mem_cons.1 hnot
    rw [List.cons_append, encodeAll_cons, List.append_assoc, readResponse_frame hf, if_neg hne,
      ih hnot hfs]
    rfl

/-- More bytes behind a response change nothing. -/
theorem readResponse_append {avail out left : List UInt8} (h : readResponse avail = some (out, left))
    (more : List UInt8) : readResponse (avail ++ more) = some (out, left ++ more) := by
  induction hn : avail.length using Nat.strong_induction_on generalizing avail out with
  | _ n ih =>
    match hframe : readFrame avail with
    | none =>
      rw [readResponse_none hframe] at h
      cases h
    | some (frame, rest) =>
      rw [readResponse_some hframe] at h
      rw [readResponse_some (readFrame_append hframe more)]
      split_ifs at h ⊢ with hready
      · obtain ⟨rfl, rfl⟩ := Prod.mk.inj (Option.some.inj h)
        rfl
      · obtain ⟨⟨out', left'⟩, hrest, heq⟩ := Option.map_eq_some_iff.1 h
        obtain ⟨rfl, rfl⟩ := Prod.mk.inj heq
        rw [ih _ (hn ▸ readFrame_lt hframe) hrest rfl]
        rfl

theorem readResponse_greeting {bytes out left : List UInt8} (h : IsGreeting bytes)
    (hread : readResponse bytes = some (out, left)) : left = [] := by
  obtain ⟨fs, rfl, hnot, hfits⟩ := h
  induction fs generalizing out with
  | nil =>
    rw [encodeAll_nil, readResponse_none rfl] at hread
    cases hread
  | cons f fs ih =>
    obtain ⟨hf, hfs⟩ := List.forall_mem_cons.1 hfits
    rw [encodeAll_cons, readResponse_frame hf] at hread
    cases fs with
    | nil =>
      by_cases hready : f.tag = tag 'Z'
      · rw [if_pos hready] at hread
        exact (Prod.mk.inj (Option.some.inj hread)).2.symm
      · rw [if_neg hready, encodeAll_nil, readResponse_none rfl] at hread
        cases hread
    | cons g fs =>
      obtain ⟨hne, hnot⟩ := List.forall_mem_cons.1 hnot
      rw [if_neg hne] at hread
      obtain ⟨⟨out', left'⟩, hrest, heq⟩ := Option.map_eq_some_iff.1 hread
      obtain ⟨-, rfl⟩ := Prod.mk.inj heq
      exact ih hrest hnot hfs

/-- What `receive` gives is what `readResponse` finds in all of the bytes. -/
theorem receive_ok {fate : Fate} {unread bytes left : List UInt8}
    (h : receive fate unread = some (.ok bytes, left)) :
    readResponse unread = some (bytes, left) := by
  have hwhole : (readResponse unread).map (fun p => ((.ok p.1 : Except Error (List UInt8)), p.2)) =
      some (.ok bytes, left) → readResponse unread = some (bytes, left) := by
    intro h
    obtain ⟨⟨out, left'⟩, hread, heq⟩ := Option.map_eq_some_iff.1 h
    obtain ⟨hout, rfl⟩ := Prod.mk.inj heq
    obtain rfl := Except.ok.inj hout
    exact hread
  cases fate with
  | fine | writeFails => exact hwhole h
  | readFails n e =>
    rw [receive] at h
    cases hread : readResponse (unread.take n) with
    | none =>
      rw [hread] at h
      cases h
    | some out =>
      rw [hread] at h
      obtain ⟨hout, rfl⟩ := Prod.mk.inj (Option.some.inj h)
      obtain rfl := Except.ok.inj hout
      have hmore := readResponse_append hread (unread.drop n)
      rwa [List.take_append_drop] at hmore

/-- A connection that is made has nothing left to read. -/
theorem connectAndHandshake_ok {srv : Server} {lossy : List UInt8 → String} {session : Nat}
    (hgreeting : IsGreeting (srv.greeting session)) {dial : Dial} {st : Stream}
    (h : connectAndHandshake srv lossy session dial = some (.ok st)) : st = ⟨session, [], []⟩ := by
  have hread : ∀ fate, (receive fate (srv.greeting session)).map (greeted lossy session) =
      some (.ok st) → st = ⟨session, [], []⟩ := by
    intro fate hst
    obtain ⟨⟨result, unread⟩, hreceive, hgreeted⟩ := Option.map_eq_some_iff.1 hst
    cases result with
    | error e => cases hgreeted
    | ok response =>
      rw [greeted] at hgreeted
      split_ifs at hgreeted
      obtain rfl := Except.ok.inj hgreeted
      rw [readResponse_greeting hgreeting (receive_ok hreceive)]
  cases dial with
  | refused e => cases h
  | connected fate =>
    cases fate with
    | writeFails e => cases h
    | fine | readFails => exact hread _ h

/-- With nothing left to read, what is read is the answer, and nothing is left again. -/
theorem roundtrip_ok {srv : Server} {fate : Fate} {wire bytes : List UInt8} {st st' : Stream}
    (hempty : st.unread = []) (hanswer : IsAnswer (srv.answer st.session st.history wire))
    (h : roundtrip srv fate wire st = some (.ok bytes, st')) :
    bytes = srv.answer st.session st.history wire ∧
      st' = ⟨st.session, st.history ++ [wire], []⟩ := by
  have hread : (receive fate (st.unread ++ srv.answer st.session st.history wire)).map
      (fun p => (p.1, (⟨st.session, st.history ++ [wire], p.2⟩ : Stream))) =
        some (.ok bytes, st') → bytes = srv.answer st.session st.history wire ∧
      st' = ⟨st.session, st.history ++ [wire], []⟩ := by
    intro h
    obtain ⟨⟨result, left⟩, hreceive, heq⟩ := Option.map_eq_some_iff.1 h
    obtain ⟨rfl, rfl⟩ := Prod.mk.inj heq
    have hout := receive_ok hreceive
    have hwhole := readResponse_answer hanswer []
    rw [List.append_nil] at hwhole
    rw [hempty, List.nil_append, hwhole] at hout
    obtain ⟨rfl, rfl⟩ := Prod.mk.inj (Option.some.inj hout)
    exact ⟨rfl, rfl⟩
  cases fate with
  | writeFails e => cases h
  | fine | readFails => exact hread h

/-! ## The invariant -/

/-- The commands that a session has handled. -/
def commandsOf (session : Nat) (served : List Served) : List (List UInt8) :=
  (served.filter fun r => r.session = session).map Served.wire

/-- The one is handled before the other, and on an older session when it fails. -/
def Served.Before (r r' : Served) : Prop :=
  r.cmd < r'.cmd ∧ r.session ≤ r'.session ∧ ∀ e, r.result = .error e → r.session < r'.session

/-- The commands that were handled got their answers, in their order. -/
structure Answered (srv : Server) (sent : List (List UInt8)) (served : List Served) : Prop where
  wires : ∀ r ∈ served, sent[r.cmd]? = some r.wire
  answers : ∀ r ∈ served, ∀ bytes, r.result = .ok bytes →
    bytes = srv.answer r.session r.history r.wire
  histories : ∀ before r after, served = before ++ r :: after →
    r.history = commandsOf r.session before
  order : served.Pairwise Served.Before

/-- The commands that wait. -/
structure Waiting (srv : Server) (sent : List (List UInt8)) (served : List Served)
    (queue : List (Nat × List UInt8)) : Prop where
  wires : ∀ p ∈ queue, sent[p.1]? = some p.2
  answers : ∀ p ∈ queue, srv.Answers p.2
  order : (queue.map Prod.fst).Pairwise (· < ·)
  later : ∀ r ∈ served, ∀ p ∈ queue, r.cmd < p.1

/-- Nothing is left to read in a stream that is in use. -/
structure Boundary (served : List Served) (sessions : Nat) (st : Stream) : Prop where
  unread : st.unread = []
  session : st.session < sessions
  history : st.history = commandsOf st.session served
  older : ∀ r ∈ served, r.session ≤ st.session ∧ ∀ e, r.result = .error e → r.session < st.session

structure Conn.Inv (srv : Server) (c : Conn) : Prop where
  answered : Answered srv c.sent c.served
  waiting : Waiting srv c.sent c.served c.queue
  sessions : ∀ r ∈ c.served, r.session < c.sessions
  boundary : ∀ st, c.phase = .ready st → Boundary c.served c.sessions st
  replies : ∀ p ∈ c.replies, p.2 = .error .closed ∨ ∃ r ∈ c.served, r.cmd = p.1 ∧ r.result = p.2

theorem commandsOf_append (session : Nat) (served served' : List Served) :
    commandsOf session (served ++ served') = commandsOf session served ++ commandsOf session served' := by
  simp [commandsOf]

/-- A new session has handled nothing. -/
theorem commandsOf_new {session : Nat} {served : List Served}
    (h : ∀ r ∈ served, r.session < session) : commandsOf session served = [] := by
  have hnone : served.filter (fun r => r.session = session) = [] := by
    refine List.filter_eq_nil_iff.2 fun r hr => ?_
    simp [Nat.ne_of_lt (h r hr)]
  rw [commandsOf, hnone]
  rfl

theorem getElem?_sent {sent : List (List UInt8)} {k : Nat} {w : List UInt8} (h : sent[k]? = some w)
    (wire : List UInt8) : (sent ++ [wire])[k]? = some w := by
  rw [List.getElem?_append_left (List.getElem?_eq_some_iff.1 h).1, h]

theorem Answered.send {srv : Server} {sent : List (List UInt8)} {served : List Served}
    (h : Answered srv sent served) (wire : List UInt8) : Answered srv (sent ++ [wire]) served :=
  ⟨fun r hr => getElem?_sent (h.wires r hr) wire, h.answers, h.histories, h.order⟩

theorem Waiting.send {srv : Server} {sent : List (List UInt8)} {served : List Served}
    {queue : List (Nat × List UInt8)} (h : Waiting srv sent served queue)
    (hserved : Answered srv sent served) {wire : List UInt8}
    (hwire : srv.Answers wire) :
    Waiting srv (sent ++ [wire]) served (queue ++ [(sent.length, wire)]) := by
  have hlt : ∀ p ∈ queue, p.1 < sent.length := fun p hp =>
    (List.getElem?_eq_some_iff.1 (h.wires p hp)).1
  refine ⟨fun p hp => ?_, fun p hp => ?_, ?_, fun r hr p hp => ?_⟩
  · rcases List.mem_append.1 hp with hp | hp
    · exact getElem?_sent (h.wires p hp) wire
    · obtain rfl := List.mem_singleton.1 hp
      simp
  · rcases List.mem_append.1 hp with hp | hp
    · exact h.answers p hp
    · obtain rfl := List.mem_singleton.1 hp
      exact hwire
  · rw [List.map_append, List.pairwise_append]
    refine ⟨h.order, List.pairwise_singleton _ _, fun k hk l hl => ?_⟩
    obtain ⟨p, hp, rfl⟩ := List.mem_map.1 hk
    obtain rfl := List.mem_singleton.1 hl
    exact hlt p hp
  · rcases List.mem_append.1 hp with hp | hp
    · exact h.later r hr p hp
    · obtain rfl := List.mem_singleton.1 hp
      exact (List.getElem?_eq_some_iff.1 (hserved.wires r hr)).1

/-- The first waiting command is handled. -/
theorem Answered.serve {srv : Server} {sent : List (List UInt8)} {served : List Served}
    (h : Answered srv sent served) {r : Served} (hwire : sent[r.cmd]? = some r.wire)
    (hanswer : ∀ bytes, r.result = .ok bytes → bytes = srv.answer r.session r.history r.wire)
    (hhistory : r.history = commandsOf r.session served) (hbefore : ∀ r' ∈ served, r'.Before r) :
    Answered srv sent (served ++ [r]) := by
  refine ⟨fun r' hr' => ?_, fun r' hr' => ?_, fun before r' after heq => ?_, ?_⟩
  · rcases List.mem_append.1 hr' with hr' | hr'
    · exact h.wires r' hr'
    · obtain rfl := List.mem_singleton.1 hr'
      exact hwire
  · rcases List.mem_append.1 hr' with hr' | hr'
    · exact h.answers r' hr'
    · obtain rfl := List.mem_singleton.1 hr'
      exact hanswer
  · rcases List.eq_nil_or_concat after with rfl | ⟨after, last, rfl⟩
    · obtain ⟨rfl, hlast⟩ := List.append_inj' heq rfl
      obtain ⟨rfl, -⟩ := List.cons.inj hlast
      exact hhistory
    · rw [List.concat_eq_append, ← List.cons_append, ← List.append_assoc] at heq
      exact h.histories before r' after (List.append_inj_left' heq rfl)
  · refine List.pairwise_append.2 ⟨h.order, List.pairwise_singleton _ _, fun r' hr' r'' hr'' => ?_⟩
    obtain rfl := List.mem_singleton.1 hr''
    exact hbefore r' hr'

theorem Waiting.serve {srv : Server} {sent : List (List UInt8)} {served : List Served}
    {p : Nat × List UInt8} {queue : List (Nat × List UInt8)}
    (h : Waiting srv sent served (p :: queue)) {r : Served} (hr : r.cmd = p.1) :
    Waiting srv sent (served ++ [r]) queue := by
  obtain ⟨hfirst, horder⟩ := List.pairwise_cons.1 h.order
  refine ⟨fun q hq => h.wires q (List.mem_cons_of_mem _ hq), fun q hq =>
    h.answers q (List.mem_cons_of_mem _ hq), horder, fun r' hr' q hq => ?_⟩
  rcases List.mem_append.1 hr' with hr' | hr'
  · exact h.later r' hr' q (List.mem_cons_of_mem _ hq)
  · obtain rfl := List.mem_singleton.1 hr'
    rw [hr]
    exact hfirst q.1 (List.mem_map_of_mem hq)

/-- A reply changes only what the callers got. -/
theorem Conn.Inv.reply {srv : Server} {c : Conn} (h : c.Inv srv) {k : Nat}
    {result : Except Error (List UInt8)}
    (hresult : result = .error .closed ∨ ∃ r ∈ c.served, r.cmd = k ∧ r.result = result) :
    (c.reply k result).Inv srv := by
  unfold Conn.reply
  split
  · exact h
  · refine ⟨h.answered, h.waiting, h.sessions, h.boundary, fun p hp => ?_⟩
    rcases List.mem_append.1 hp with hp | hp
    · exact h.replies p hp
    · obtain rfl := List.mem_singleton.1 hp
      exact hresult

theorem Conn.Inv.send {srv : Server} {c : Conn} (h : c.Inv srv) {wire : List UInt8}
    (hwire : srv.Answers wire) :
    (c.send wire).Inv srv := by
  have hqueued : Conn.Inv srv { c with
      sent := c.sent ++ [wire], queue := c.queue ++ [(c.sent.length, wire)] } :=
    ⟨h.answered.send wire, h.waiting.send h.answered hwire, h.sessions, h.boundary, h.replies⟩
  have hkept : Conn.Inv srv { c with sent := c.sent ++ [wire] } := by
    refine ⟨h.answered.send wire, ⟨fun p hp => ?_, h.waiting.answers, h.waiting.order,
      h.waiting.later⟩, h.sessions, h.boundary, h.replies⟩
    exact getElem?_sent (h.waiting.wires p hp) wire
  unfold Conn.send
  dsimp only
  split
  · exact hkept.reply (.inl rfl)
  · exact hqueued

theorem Conn.Inv.exit {srv : Server} {c : Conn} (h : c.Inv srv) : c.exit.Inv srv := by
  refine ⟨h.answered, ⟨nofun, nofun, .nil, nofun⟩, h.sessions, nofun, fun p hp => ?_⟩
  rcases List.mem_append.1 hp with hp | hp
  · exact h.replies p hp
  · obtain ⟨q, -, rfl⟩ := List.mem_map.1 hp
    exact .inl rfl

theorem Conn.Inv.work {srv : Server} {c c' : Conn} (h : c.Inv srv) {fate : Fate}
    (hwork : c.work srv fate = some c') : c'.Inv srv := by
  obtain ⟨sent, queue, gone, phase, sessions, served, replies⟩ := c
  cases phase with
  | broken | ended => cases hwork
  | ready st =>
    cases queue with
    | nil => cases hwork
    | cons p queue =>
      obtain ⟨k, wire⟩ := p
      have hst := h.boundary st rfl
      cases hround : roundtrip srv fate wire st with
      | none =>
        simp only [Conn.work, hround] at hwork
        cases hwork
      | some out =>
        obtain ⟨result, st'⟩ := out
        simp only [Conn.work, hround] at hwork
        obtain rfl := Option.some.inj hwork
        have hread : ∀ bytes, result = .ok bytes → bytes = srv.answer st.session st.history wire ∧
            st' = ⟨st.session, st.history ++ [wire], []⟩ := by
          rintro bytes rfl
          exact roundtrip_ok hst.unread (h.waiting.answers _ List.mem_cons_self _ _) hround
        have hbefore : ∀ r ∈ served, r.Before ⟨k, wire, st.session, st.history, result⟩ :=
          fun r hr => ⟨h.waiting.later r hr _ List.mem_cons_self, hst.older r hr⟩
        refine Conn.Inv.reply ⟨?_, ?_, ?_, ?_, ?_⟩ (.inr ⟨_, List.mem_concat_self, rfl, rfl⟩)
        · exact h.answered.serve (h.waiting.wires _ List.mem_cons_self)
            (fun bytes hbytes => (hread bytes hbytes).1) hst.history hbefore
        · exact h.waiting.serve rfl
        · intro r hr
          rcases List.mem_append.1 hr with hr | hr
          · exact h.sessions r hr
          · obtain rfl := List.mem_singleton.1 hr
            exact hst.session
        · -- The stream stays in use only after an answer.
          intro next hnext
          cases result with
          | error e => cases hnext
          | ok bytes =>
            obtain rfl := Phase.ready.inj hnext
            obtain ⟨-, rfl⟩ := hread bytes rfl
            refine ⟨rfl, hst.session, ?_, fun r hr => ?_⟩
            · rw [commandsOf_append, ← hst.history]
              simp [commandsOf]
            · rcases List.mem_append.1 hr with hr | hr
              · exact hst.older r hr
              · obtain rfl := List.mem_singleton.1 hr
                exact ⟨le_rfl, nofun⟩
        · intro p hp
          refine (h.replies p hp).imp_right fun ⟨r, hr, hreply⟩ => ?_
          exact ⟨r, List.mem_append_left _ hr, hreply⟩

theorem Conn.Inv.reconnect {srv : Server} {lossy : List UInt8 → String}
    (hgreeting : ∀ session, IsGreeting (srv.greeting session)) {c c' : Conn} (h : c.Inv srv)
    {dial : Dial} (hdial : c.reconnect srv lossy dial = some c') : c'.Inv srv := by
  obtain ⟨sent, queue, gone, phase, sessions, served, replies⟩ := c
  have hnext : ∀ r ∈ served, r.session < sessions + 1 := fun r hr =>
    Nat.lt_succ_of_lt (h.sessions r hr)
  cases phase with
  | ready | ended => cases hdial
  | broken =>
    cases hfresh : connectAndHandshake srv lossy sessions dial with
    | none =>
      simp only [Conn.reconnect, hfresh] at hdial
      cases hdial
    | some out =>
      simp only [Conn.reconnect, hfresh] at hdial
      cases out with
      | error e =>
        obtain rfl := Option.some.inj hdial
        exact Conn.Inv.exit ⟨h.answered, h.waiting, hnext, nofun, h.replies⟩
      | ok fresh =>
        obtain rfl := Option.some.inj hdial
        refine ⟨h.answered, h.waiting, hnext, fun st hst => ?_, h.replies⟩
        obtain rfl := Phase.ready.inj hst
        obtain rfl := connectAndHandshake_ok (hgreeting sessions) hfresh
        refine ⟨rfl, Nat.lt_succ_self _, (commandsOf_new h.sessions).symm, fun r hr => ?_⟩
        exact ⟨Nat.le_of_lt (h.sessions r hr), fun _ _ => h.sessions r hr⟩

/-! ## A whole run -/

theorem Conn.Inv.step {srv : Server} {lossy : List UInt8 → String}
    (hgreeting : ∀ session, IsGreeting (srv.greeting session)) {c c' : Conn} (h : c.Inv srv)
    {e : Event} (hwire : ∀ wire, e = .send wire → srv.Answers wire)
    (hstep : c.step srv lossy e = some c') : c'.Inv srv := by
  cases e with
  | send wire =>
    obtain rfl := Option.some.inj hstep
    exact h.send (hwire wire rfl)
  | leave k =>
    obtain rfl := Option.some.inj hstep
    exact ⟨h.answered, h.waiting, h.sessions, h.boundary, h.replies⟩
  | work fate => exact h.work hstep
  | reconnect dial => exact h.reconnect hgreeting hstep

theorem Conn.Inv.spawn {srv : Server} {lossy : List UInt8 → String}
    (hgreeting : ∀ session, IsGreeting (srv.greeting session)) {dial : Dial} {c : Conn}
    (hspawn : Conn.spawn srv lossy dial = some (.ok c)) : c.Inv srv := by
  unfold Conn.spawn at hspawn
  cases hfresh : connectAndHandshake srv lossy 0 dial with
  | none =>
    rw [hfresh] at hspawn
    cases hspawn
  | some out =>
    rw [hfresh] at hspawn
    cases out with
    | error e => cases hspawn
    | ok st =>
      obtain rfl := Except.ok.inj (Option.some.inj hspawn)
      obtain rfl := connectAndHandshake_ok (hgreeting 0) hfresh
      refine ⟨⟨nofun, nofun, fun before r after heq => ?_, .nil⟩, ⟨nofun, nofun, .nil, nofun⟩,
        nofun, fun st hst => ?_, nofun⟩
      · cases before <;> cases heq
      · obtain rfl := Phase.ready.inj hst
        exact ⟨rfl, Nat.zero_lt_one, rfl, nofun⟩

/-- **Every reply is the answer to its own command.** What a caller gets as `Ok` is all that the
server sent for this command, in the session it was written to and after the commands that were
handled there. The sessions go up, and no command after a failure is on the session that failed. -/
theorem replies_are_answers (srv : Server) (lossy : List UInt8 → String)
    (hgreeting : ∀ session, IsGreeting (srv.greeting session)) (dial : Dial) (events : List Event)
    (hwires : ∀ wire, .send wire ∈ events → srv.Answers wire) (c c' : Conn)
    (hspawn : Conn.spawn srv lossy dial = some (.ok c))
    (hrun : run (Conn.step srv lossy) c events = some c') :
    (∀ k bytes, (k, .ok bytes) ∈ c'.replies →
      ∃ r ∈ c'.served, r.cmd = k ∧ r.result = .ok bytes ∧ c'.sent[k]? = some r.wire ∧
        bytes = srv.answer r.session r.history r.wire) ∧
    (∀ before r after, c'.served = before ++ r :: after →
      r.history = commandsOf r.session before) ∧
    c'.served.Pairwise fun r r' =>
      r.cmd < r'.cmd ∧ r.session ≤ r'.session ∧ ∀ e, r.result = .error e → r.session < r'.session := by
  have hguarded : Guarded (Conn.step srv lossy)
      (fun _ e => ∀ wire, e = .send wire → srv.Answers wire) c events :=
    guarded_of_forall fun e he wire hsend => hwires wire (hsend ▸ he)
  have hinv : c'.Inv srv := run_invariant (fun _ _ _ h hwire hstep => h.step hgreeting hwire hstep)
    (Conn.Inv.spawn hgreeting hspawn) hguarded hrun
  refine ⟨fun k bytes hreply => ?_, hinv.answered.histories, hinv.answered.order⟩
  rcases hinv.replies _ hreply with hclosed | ⟨r, hr, rfl, hresult⟩
  · cases hclosed
  · exact ⟨r, hr, rfl, hresult, hinv.answered.wires r hr, hinv.answered.answers r hr bytes hresult⟩

/-- A server that sends only `ReadyForQuery`. -/
def readyServer : Server where
  greeting _ := [0x5A, 0, 0, 0, 5, 0x49]
  answer _ history _ := [0x5A, 0, 0, 0, 5, if history = [] then 0x49 else 0x54]

/-- The write of the second of three commands fails, and the third is on a new connection. -/
def failsOnce : List Event :=
  [.send [0x53, 0, 0, 0, 4], .send [0x48, 0, 0, 0, 4], .send [0x51, 0, 0, 0, 4], .work .fine,
    .work (.writeFails "broken pipe"), .reconnect (.connected .fine), .work .fine]

/-- Every `ReadyForQuery` is an answer. -/
theorem isAnswer_ready (status : UInt8) : IsAnswer [0x5A, 0, 0, 0, 5, status] :=
  ⟨[], [status], by simp [encodeAll, Frame.encode, Frame.len, tag, toBe], nofun,
    by simp [Frame.Fits, Frame.len]⟩

theorem readResponse_ready (status : UInt8) :
    readResponse [0x5A, 0, 0, 0, 5, status] = some ([0x5A, 0, 0, 0, 5, status], []) :=
  readResponse_answer (isAnswer_ready status) []

theorem replies_are_answers_ready :
    ∃ c c', Conn.spawn readyServer (fun _ => "") (.connected .fine) = some (.ok c) ∧
      run (Conn.step readyServer fun _ => "") c failsOnce = some c' ∧
      c'.replies = [(0, .ok [0x5A, 0, 0, 0, 5, 0x49]), (1, .error (.io "broken pipe")),
        (2, .ok [0x5A, 0, 0, 0, 5, 0x49])] ∧
      (∃ r ∈ c'.served, r.cmd = 2 ∧ r.result = .ok [0x5A, 0, 0, 0, 5, 0x49] ∧
        c'.sent[2]? = some r.wire ∧
        [0x5A, 0, 0, 0, 5, 0x49] = readyServer.answer r.session r.history r.wire) ∧
      c'.served.Pairwise fun r r' => r.cmd < r'.cmd ∧ r.session ≤ r'.session ∧
        ∀ e, r.result = .error e → r.session < r'.session := by
  have hgreeting : IsGreeting [0x5A, 0, 0, 0, 5, 0x49] :=
    ⟨[⟨tag 'Z', [0x49]⟩], by decide, nofun, by decide⟩
  have hspawn : Conn.spawn readyServer (fun _ => "") (.connected .fine) =
      some (.ok ⟨[], [], [], .ready ⟨0, [], []⟩, 1, [], []⟩) := by
    simp [Conn.spawn, connectAndHandshake, receive, readyServer, readResponse_ready, greeted, tag]
  have hrun : ∃ c', run (Conn.step readyServer fun _ => "")
      ⟨[], [], [], .ready ⟨0, [], []⟩, 1, [], []⟩ failsOnce = some c' ∧
      c'.replies = [(0, .ok [0x5A, 0, 0, 0, 5, 0x49]), (1, .error (.io "broken pipe")),
        (2, .ok [0x5A, 0, 0, 0, 5, 0x49])] := by
    simp [failsOnce, run, Conn.step, Conn.send, Conn.work, Conn.reconnect, connectAndHandshake, greeted,
      tag, roundtrip, receive, readyServer, readResponse_ready, Conn.reply]
  obtain ⟨c', hrun, hreplies⟩ := hrun
  obtain ⟨hanswers, -, horder⟩ := replies_are_answers readyServer (fun _ => "") (fun _ => hgreeting)
    (.connected .fine) failsOnce (fun _ _ _ _ => isAnswer_ready _) _ c' hspawn hrun
  exact ⟨_, c', hspawn, hrun, hreplies, hanswers 2 _ (by rw [hreplies]; simp), horder⟩

end Pglite.Worker
