import Pglite.Frames

/-!
# The engine's protocol loop

`exec_protocol` of `src/engine.rs`. The bytes of a command are put where `read_cb` finds them, the
backend is pumped until it has used all of them, and what it gave to `write_cb` is the reply.

**The backend** (`Native`). Code that is linked in. Each of its functions reads and writes as it likes
before it returns (`Act`).

**The session** (`Machine`). The backend at the level of messages. A turn handles the first message,
and may take some of those behind it along, as `COPY` does with its data.

**The reply** (`execProtocol_eq`). However a backend that runs a session (`Native.Runs`) cuts its reads,
reads ahead and holds back what it writes, the reply is what the session says to the messages of the
command. The loop ends (`execProtocol_returns`).
-/

namespace Pglite.Engine

open Frames

/-! ## The callbacks -/

structure EngineIo where
  input : List UInt8
  inputOff : Nat
  output : List UInt8

namespace EngineIo

/-- What `read_cb` has not given yet. -/
def left (io : EngineIo) : List UInt8 := io.input.drop io.inputOff

/-- `read_cb`: what it puts into the buffer. -/
def readCb (maxLength : Nat) (io : EngineIo) : List UInt8 × EngineIo :=
  let n := min (io.input.length - io.inputOff) maxLength
  ((io.input.drop io.inputOff).take n, { io with inputOff := io.inputOff + n })

/-- `write_cb`. -/
def writeCb (buffer : List UInt8) (io : EngineIo) : EngineIo :=
  { io with output := io.output ++ buffer }

/-- The start of `exec_protocol`. -/
def load (wire : List UInt8) : EngineIo := ⟨wire, 0, []⟩

@[simp] theorem left_load (wire : List UInt8) : (load wire).left = wire := rfl

theorem left_eq_nil {io : EngineIo} : io.left = [] ↔ io.input.length ≤ io.inputOff :=
  List.drop_eq_nil_iff

/-- A read gives the next bytes, each once. -/
theorem readCb_left (maxLength : Nat) (io : EngineIo) :
    io.left = (io.readCb maxLength).1 ++ (io.readCb maxLength).2.left := by
  simp only [left, readCb, ← List.drop_drop]
  exact (List.take_append_drop _ _).symm

@[simp] theorem readCb_output (maxLength : Nat) (io : EngineIo) :
    (io.readCb maxLength).2.output = io.output := rfl

@[simp] theorem writeCb_left (buffer : List UInt8) (io : EngineIo) :
    (io.writeCb buffer).left = io.left := rfl

/-- A read of what is there gives all of it that was asked for. -/
theorem readCb_of_left {io : EngineIo} {bs rest : List UInt8} (h : io.left = bs ++ rest) :
    (io.readCb bs.length).1 = bs ∧ (io.readCb bs.length).2.left = rest := by
  have hlen : io.input.length - io.inputOff = bs.length + rest.length := by
    rw [← List.length_append, ← h, left, List.length_drop]
  have hgot : (io.readCb bs.length).1 = bs := by
    show (io.left).take (min (io.input.length - io.inputOff) bs.length) = bs
    rw [h, hlen, Nat.min_eq_right (Nat.le_add_right _ _), List.take_left]
  have hcut := readCb_left bs.length io
  rw [h, hgot] at hcut
  exact ⟨hgot, (List.append_cancel_left hcut).symm⟩

end EngineIo

/-! ## The backend -/

/-- What a function of the backend does before it returns. -/
inductive Act (β : Type)
  | ret (b : β)
  | read (maxLength : Nat) (k : List UInt8 → Act β)
  | write (buffer : List UInt8) (next : Act β)

def Act.run {β : Type} : Act β → EngineIo → β × EngineIo
  | .ret b, io => (b, io)
  | .read maxLength k, io => (k (io.readCb maxLength).1).run (io.readCb maxLength).2
  | .write buffer next, io => next.run (io.writeCb buffer)

/-- The functions of `pglite_sys` that `exec_protocol` calls, on a backend in a state of type `σ`. -/
structure Native (σ : Type) where
  /-- `pq_buffer_remaining_data`. -/
  bufferRemaining : σ → Int
  /-- `pgl_native_pump`. -/
  pump : σ → Act (Int × σ)
  /-- `PostgresMainLongJmp`. -/
  mainLongJmp : σ → Act σ
  /-- `PostgresSendReadyForQueryIfNecessary`. -/
  sendReadyForQueryIfNecessary : σ → Act σ
  /-- `pgl_pq_flush`. -/
  pqFlush : σ → Act σ

namespace Native

variable {σ : Type}

/-- The body of the loop of `exec_protocol`. -/
def turn (N : Native σ) (st : σ × EngineIo) : σ × EngineIo :=
  let ((rc, s), io) := (N.pump st.1).run st.2
  if rc = 100 then (N.mainLongJmp s).run io else (s, io)

/-- The loop of `exec_protocol`, for so many turns. -/
def execLoop (N : Native σ) : Nat → σ × EngineIo → Option (σ × EngineIo)
  | 0, _ => none
  | fuel + 1, st =>
    if st.2.input.length ≤ st.2.inputOff ∧ N.bufferRemaining st.1 ≤ 0 then some st
    else N.execLoop fuel (N.turn st)

/-- `exec_protocol`: the reply, and what is there afterwards. -/
def execProtocol (N : Native σ) (fuel : Nat) (wire : List UInt8) (s : σ) :
    Option (List UInt8 × σ) :=
  match N.execLoop fuel (s, EngineIo.load wire) with
  | none => none
  | some (s, io) =>
    let (s, io) := (N.sendReadyForQueryIfNecessary s).run io
    let (s, io) := (N.pqFlush s).run io
    some (io.output, s)

/-- More turns make no difference to a loop that has ended. -/
theorem execLoop_mono (N : Native σ) {fuel fuel' : Nat} {st st' : σ × EngineIo}
    (h : N.execLoop fuel st = some st') (hle : fuel ≤ fuel') : N.execLoop fuel' st = some st' := by
  induction fuel generalizing st fuel' with
  | zero => cases h
  | succ fuel ih =>
    obtain ⟨fuel', rfl⟩ : ∃ n, fuel' = n + 1 := ⟨fuel' - 1, by omega⟩
    rw [execLoop] at h ⊢
    split_ifs at h ⊢ with hdone
    · exact h
    · exact ih h (by omega)

end Native

/-! ## The session -/

/-- A session takes messages in turns. A turn handles the first message and may take some of those
behind it: what is left is the end of the others. -/
structure Machine (τ : Type) where
  turn : τ → Frame → List Frame → τ × List UInt8 × List Frame
  turn_suffix : ∀ m f rest, (turn m f rest).2.2 <:+ rest
  /-- A `ReadyForQuery`, if one is still due. -/
  ready : τ → τ × List UInt8

namespace Machine

variable {τ : Type}

/-- What the session says to messages. -/
def work (M : Machine τ) (m : τ) : List Frame → τ × List UInt8
  | [] => (m, [])
  | f :: rest =>
    let after := M.work (M.turn m f rest).1 (M.turn m f rest).2.2
    (after.1, (M.turn m f rest).2.1 ++ after.2)
termination_by fs => fs.length
decreasing_by exact Nat.lt_succ_of_le (M.turn_suffix m f rest).length_le

theorem work_nil (M : Machine τ) (m : τ) : M.work m [] = (m, []) := by
  rw [work]

theorem work_cons (M : Machine τ) (m : τ) (f : Frame) (rest : List Frame) :
    M.work m (f :: rest) =
      ((M.work (M.turn m f rest).1 (M.turn m f rest).2.2).1,
        (M.turn m f rest).2.1 ++ (M.work (M.turn m f rest).1 (M.turn m f rest).2.2).2) := by
  rw [work]

/-- The answer to the messages of a command. -/
def respond (M : Machine τ) (m : τ) (fs : List Frame) : τ × List UInt8 :=
  let said := M.work m fs
  let due := M.ready said.1
  (due.1, said.2 ++ due.2)

/-- The answers to commands, and the session behind them. -/
def respondAll (M : Machine τ) (m : τ) : List (List Frame) → τ × List (List UInt8)
  | [] => (m, [])
  | fs :: fss =>
    let after := M.respondAll (M.respond m fs).1 fss
    (after.1, (M.respond m fs).2 :: after.2)

theorem respondAll_append_single (M : Machine τ) (m : τ) (fss : List (List Frame))
    (fs : List Frame) :
    M.respondAll m (fss ++ [fs]) =
      ((M.respond (M.respondAll m fss).1 fs).1,
        (M.respondAll m fss).2 ++ [(M.respond (M.respondAll m fss).1 fs).2]) := by
  induction fss generalizing m with
  | nil => rfl
  | cons gs fss ih =>
    rw [List.cons_append, respondAll, respondAll, ih]
    rfl

end Machine

/-- The backend runs a session. It may have read ahead, and may hold back what it has to write. -/
structure Native.Runs {σ τ : Type} (N : Native σ) (M : Machine τ) where
  session : σ → τ
  /-- Read, and not used. -/
  buffered : σ → List UInt8
  /-- Not written yet. -/
  held : σ → List UInt8
  remaining : ∀ s, N.bufferRemaining s = (buffered s).length
  turn : ∀ s io f rest, (∀ g ∈ f :: rest, g.Fits) → buffered s ++ io.left = encodeAll (f :: rest) →
    session (N.turn (s, io)).1 = (M.turn (session s) f rest).1 ∧
    buffered (N.turn (s, io)).1 ++ (N.turn (s, io)).2.left =
      encodeAll (M.turn (session s) f rest).2.2 ∧
    (N.turn (s, io)).2.output ++ held (N.turn (s, io)).1 =
      io.output ++ held s ++ (M.turn (session s) f rest).2.1
  ready : ∀ s io, let st := (N.sendReadyForQueryIfNecessary s).run io
    session st.1 = (M.ready (session s)).1 ∧ buffered st.1 = buffered s ∧
    st.2.output ++ held st.1 = io.output ++ held s ++ (M.ready (session s)).2
  flush : ∀ s io, let st := (N.pqFlush s).run io
    session st.1 = session s ∧ buffered st.1 = buffered s ∧ held st.1 = [] ∧
    st.2.output = io.output ++ held s

namespace Native.Runs

variable {σ τ : Type} {N : Native σ} {M : Machine τ}

/-- The loop ends when the messages are used up, and not before. -/
theorem execLoop_eq (R : N.Runs M) (fs : List Frame) (hfits : ∀ f ∈ fs, f.Fits) (s : σ)
    (io : EngineIo) (hin : R.buffered s ++ io.left = encodeAll fs) :
    ∃ st, N.execLoop (fs.length + 1) (s, io) = some st ∧
      R.session st.1 = (M.work (R.session s) fs).1 ∧ R.buffered st.1 = [] ∧ st.2.left = [] ∧
      st.2.output ++ R.held st.1 = io.output ++ R.held s ++ (M.work (R.session s) fs).2 := by
  induction hn : fs.length using Nat.strong_induction_on generalizing fs s io with
  | _ n ih =>
    have hguard : (io.input.length ≤ io.inputOff ∧ N.bufferRemaining s ≤ 0) ↔ fs = [] := by
      rw [← EngineIo.left_eq_nil, R.remaining]
      have hempty : encodeAll fs = [] ↔ fs = [] := by
        cases fs with
        | nil => simp
        | cons f fs => simp [Frame.encode]
      have hzero : ((R.buffered s).length : Int) ≤ 0 ↔ R.buffered s = [] := by
        rw [← List.length_eq_zero_iff]
        omega
      rw [← hempty, ← hin, List.append_eq_nil_iff, hzero, and_comm]
    cases fs with
    | nil =>
      obtain ⟨hbuf, hleft⟩ := List.append_eq_nil_iff.1 hin
      refine ⟨(s, io), ?_, ?_, hbuf, hleft, ?_⟩
      · rw [← hn, execLoop, if_pos (hguard.2 rfl)]
      · rw [Machine.work_nil]
      · rw [Machine.work_nil, List.append_nil]
    | cons f rest =>
      obtain ⟨hsession, hrest, hout⟩ := R.turn s io f rest hfits hin
      have hsuffix := M.turn_suffix (R.session s) f rest
      have hlt : (M.turn (R.session s) f rest).2.2.length < n := by
        rw [← hn]
        exact Nat.lt_succ_of_le hsuffix.length_le
      obtain ⟨st, hloop, hst, hbuf, hleft, hwritten⟩ :=
        ih _ hlt (M.turn (R.session s) f rest).2.2
          (fun g hg => hfits g (List.mem_cons_of_mem _ (hsuffix.mem hg)))
          (N.turn (s, io)).1 (N.turn (s, io)).2 hrest rfl
      refine ⟨st, ?_, ?_, hbuf, hleft, ?_⟩
      · rw [execLoop, if_neg (mt hguard.1 (List.cons_ne_nil f rest))]
        exact N.execLoop_mono hloop hlt
      · rw [Machine.work_cons, hst, hsession]
      · rw [Machine.work_cons, hwritten, hout, hsession]
        simp only [List.append_assoc]

/-- Between commands. -/
structure Idle (R : N.Runs M) (s : σ) : Prop where
  buffered : R.buffered s = []
  held : R.held s = []

/-- The loop comes to an end, after as many turns as the command has messages at most. -/
theorem execProtocol_returns (R : N.Runs M) {s : σ} (hs : R.Idle s) {fs : List Frame}
    (hfits : ∀ f ∈ fs, f.Fits) {fuel : Nat} (hfuel : fs.length < fuel) :
    ∃ out s', N.execProtocol fuel (encodeAll fs) s = some (out, s') := by
  obtain ⟨st, hloop, -⟩ :=
    R.execLoop_eq fs hfits s (EngineIo.load (encodeAll fs)) (by simp [hs.buffered])
  rw [execProtocol, N.execLoop_mono hloop hfuel]
  exact ⟨_, _, rfl⟩

/-- **Spec of `exec_protocol`.** -/
theorem execProtocol_eq (R : N.Runs M) {s : σ} (hs : R.Idle s) {fs : List Frame}
    (hfits : ∀ f ∈ fs, f.Fits) {fuel : Nat} {out : List UInt8} {s' : σ}
    (h : N.execProtocol fuel (encodeAll fs) s = some (out, s')) :
    out = (M.respond (R.session s) fs).2 ∧ R.session s' = (M.respond (R.session s) fs).1 ∧
      R.Idle s' := by
  obtain ⟨st, hloop, hsession, hbuf, -, hwritten⟩ :=
    R.execLoop_eq fs hfits s (EngineIo.load (encodeAll fs)) (by simp [hs.buffered])
  rw [execProtocol] at h
  cases hend : N.execLoop fuel (s, EngineIo.load (encodeAll fs)) with
  | none =>
    rw [hend] at h
    cases h
  | some st' =>
  obtain rfl : st = st' := by
    have hlong := N.execLoop_mono hend (Nat.le_max_left fuel (fs.length + 1))
    rw [N.execLoop_mono hloop (Nat.le_max_right fuel (fs.length + 1))] at hlong
    exact Option.some.inj hlong
  rw [hend] at h
  obtain ⟨rfl, rfl⟩ := Prod.mk.inj (Option.some.inj h)
  obtain ⟨hready, hbuf', hdue⟩ := R.ready st.1 st.2
  obtain ⟨hsame, hbuf'', hheld, hflushed⟩ :=
    R.flush ((N.sendReadyForQueryIfNecessary st.1).run st.2).1
      ((N.sendReadyForQueryIfNecessary st.1).run st.2).2
  refine ⟨?_, ?_, ?_, hheld⟩
  · calc _ = st.2.output ++ R.held st.1 ++ (M.ready (R.session st.1)).2 := hflushed.trans hdue
      _ = (M.respond (R.session s) fs).2 := by
        rw [hwritten, hsession, hs.held]
        rfl
  · rw [hsame, hready, hsession]
    rfl
  · rw [hbuf'', hbuf', hbuf]

end Native.Runs

end Pglite.Engine
