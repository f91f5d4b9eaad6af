import Pglite.Frames
import Pglite.Replica.ExactlyOnce
import Pglite.Replica.PgOutput

/-!
# What the upstream reads of the feedback

`send_status` of `src/replica/wire.rs` reports a position as written, flushed and applied. The
upstream keeps what comes after the flushed one. It reads the messages from whatever part of the
bytes has come through.

`confirmed_settled` is the result: the upstream has read just the messages that have come through
completely, and a transaction at or below the position of one of them was in the local database when
that one was sent.
-/

namespace Pglite.Replica

open Runs
open ByteReader (toBe Codes)

/-! ## The message -/

/-- The payload of `send_status`. -/
def statusPayload (watermark : Lsn) (clock : Int64) (reply : Bool) : List UInt8 :=
  [Decoder.byte 'r'] ++ (toBe 8 watermark.val ++ (toBe 8 watermark.val ++ (toBe 8 watermark.val ++
    (toBe 8 clock.toUInt64.toNat ++ [if reply then 1 else 0]))))

/-- What `send_status` writes. -/
def statusBytes (watermark : Lsn) (clock : Int64) (reply : Bool) : List UInt8 :=
  let payload := statusPayload watermark clock reply
  [Decoder.byte 'd'] ++ toBe 4 (4 + payload.length) ++ payload

/-- A standby status update, as the protocol has it. -/
structure StandbyStatus where
  written : Lsn
  flushed : Lsn
  applied : Lsn
  clock : Int64
  replyRequested : UInt8
  deriving DecidableEq

/-- The fields of a standby status update. -/
def standbyStatus : Decoder StandbyStatus := do
  let kind ← Decoder.u8
  if kind = Decoder.byte 'r' then
    let written ← Decoder.u64
    let flushed ← Decoder.u64
    let applied ← Decoder.u64
    let clock ← Decoder.i64
    let replyRequested ← Decoder.u8
    pure ⟨written, flushed, applied, clock, replyRequested⟩
  else ByteReader.fail (.protocol "unexpected message")

/-- What the upstream makes of a message. -/
def receiveStatus (f : Frames.Frame) : Except String StandbyStatus :=
  if f.tag = Decoder.byte 'd' then
    match standbyStatus ⟨f.body, 0⟩ with
    | .ok (status, _) => .ok status
    | .error _ => .error "unexpected message"
  else .error "unexpected message"

/-- The upstream reads messages from what has come through. -/
def statusParser : Incremental.Parser UInt8 StandbyStatus String :=
  Frames.parser receiveStatus "invalid message length"

/-- The message that reports a position. -/
def reporting (watermark : Lsn) (clock : Int64) (reply : Bool) : StandbyStatus :=
  ⟨watermark, watermark, watermark, clock, if reply then 1 else 0⟩

theorem codes_standbyStatus (watermark : Lsn) (clock : Int64) (reply : Bool) :
    Codes standbyStatus (statusPayload watermark clock reply)
      (reporting watermark clock reply) := by
  refine (Decoder.codes_u8 _).bind ?_
  rw [if_pos rfl]
  refine (Decoder.codes_u64 watermark).bind ((Decoder.codes_u64 watermark).bind
    ((Decoder.codes_u64 watermark).bind ((Decoder.codes_i64 clock).bind ?_)))
  exact (Decoder.codes_u8 _).map fun reply => (⟨watermark, watermark, watermark, clock, reply⟩ :
    StandbyStatus)

/-- A status message is one message of the copy stream. -/
theorem statusBytes_eq (watermark : Lsn) (clock : Int64) (reply : Bool) :
    ∃ f : Frames.Frame, f.Fits ∧ f.tag = Decoder.byte 'd' ∧
      f.body = statusPayload watermark clock reply ∧ statusBytes watermark clock reply = f.encode := by
  have hlength : (statusPayload watermark clock reply).length = 34 := by
    simp [statusPayload, ByteReader.length_toBe]
  refine ⟨⟨Decoder.byte 'd', statusPayload watermark clock reply⟩, ?_, rfl, rfl, ?_⟩
  · simp only [Frames.Frame.Fits, Frames.Frame.len, hlength]
    omega
  · simp [statusBytes, Frames.Frame.encode, Frames.Frame.len, Nat.add_comm]

/-- **A status message** is read as it was written. -/
theorem parse_statusBytes (watermark : Lsn) (clock : Int64) (reply : Bool) (rest : List UInt8) :
    statusParser.parse (statusBytes watermark clock reply ++ rest) =
      .ok (some (reporting watermark clock reply, rest)) := by
  obtain ⟨f, hfits, htag, hbody, hencode⟩ := statusBytes_eq watermark clock reply
  have hreads := (codes_standbyStatus watermark clock reply).reads [] []
  rw [List.append_nil, List.nil_append, List.length_nil] at hreads
  have hreceive : receiveStatus f = .ok (reporting watermark clock reply) := by
    rw [receiveStatus, if_pos htag, hbody, hreads]
  rw [hencode]
  simp [statusParser, Frames.parser, Frames.parse_encode hfits, hreceive, Except.map]

/-- It is not read before it is there. -/
theorem parse_statusBytes_cut (watermark : Lsn) (clock : Int64) (reply : Bool) {cut : List UInt8}
    (hcut : cut <+: statusBytes watermark clock reply)
    (hne : cut ≠ statusBytes watermark clock reply) : statusParser.parse cut = .ok none := by
  obtain ⟨f, hfits, -, -, hencode⟩ := statusBytes_eq watermark clock reply
  rw [hencode] at hcut hne
  simp [statusParser, Frames.parser, Frames.parse_cut hfits hcut hne]

/-! ## The feedback of a run -/

variable {cfg : ReplicaConfig} {H : History} {es : List Event} {σ : World}

/-- **What the upstream may forget.** The statuses of a session, with the times at which they were
sent, in any run. Of whatever part of their bytes has come through, the upstream has read just the
messages that are complete in it. Every transaction with row changes at or below the position of one
of these was committed locally, or in the backfill, before this message was sent. -/
theorem confirmed_settled {session : List (Status × Int64)} {bytes : List UInt8}
    (hrun : run (step cfg H) .blank es = some σ) (hsent : session.map Prod.fst <:+: σ.sent)
    (hbytes : bytes <+: session.flatMap fun p => statusBytes p.1.reported p.2 false) :
    ∃ found missing cut, session = found ++ missing ∧
      bytes = (found.flatMap fun p => statusBytes p.1.reported p.2 false) ++ cut ∧
      (∀ p ∈ missing.head?, cut.length < (statusBytes p.1.reported p.2 false).length) ∧
      statusParser.items bytes = (found.map fun p => reporting p.1.reported p.2 false, .cut cut) ∧
      ∀ p ∈ found, ∀ t ∈ H.txns, t.hasRows = true → t.endLsn ≤ p.1.reported →
        ∃ cp, σ.slot = some cp ∧ Settled cp p.1.log t := by
  obtain ⟨found, missing, cut, hsession, hparts, hcut, hitems⟩ := Incremental.Parser.items_cut
    (fun (p : Status × Int64) (_ : p ∈ session) => parse_statusBytes p.1.reported p.2 false)
    (fun p _ _ => parse_statusBytes_cut p.1.reported p.2 false) rfl hbytes
  refine ⟨found, missing, cut, hsession, hparts, hcut, hitems, fun p hp t ht hrows hle => ?_⟩
  have hmem : p.1 ∈ σ.sent := by
    refine hsent.subset (List.mem_map_of_mem ?_)
    rw [hsession]
    exact List.mem_append_left _ hp
  rcases core_of_moves blank_ledger (run_moves hrun).1 with hblank | ⟨cp, d, hcore⟩
  · have hempty : σ.sent = [] := hblank.sent
    rw [hempty] at hmem
    cases hmem
  · exact ⟨cp, hcore.slot, hcore.sent p.1 hmem t ht hrows hle⟩

/-- The second of two statuses is still on its way. -/
theorem confirmed_settled_cut :
    ∃ σ x y, run (step sampleConfig sampleHistory) .blank
        (firstSession ++ sendInsert ++ applyInsert ++ sendEmpty ++ [.status]) = some σ ∧
      σ.sent = [x, y] ∧ x.reported = 10 ∧ y.reported = 30 ∧
      statusParser.items (statusBytes 10 0 false ++ (statusBytes 30 0 false).take 20) =
        ([reporting 10 0 false], .cut ((statusBytes 30 0 false).take 20)) ∧
      ∀ t ∈ sampleHistory.txns, t.hasRows = true → t.endLsn ≤ 10 →
        ∃ cp, σ.slot = some cp ∧ Settled cp x.log t := by
  have hsent : (run (step sampleConfig sampleHistory) .blank
      (firstSession ++ sendInsert ++ applyInsert ++ sendEmpty ++ [.status])).map
        (fun σ => σ.sent.map Status.reported) = some [10, 30] := by
    decide
  obtain ⟨σ, hrun, hreported⟩ := Option.map_eq_some_iff.1 hsent
  obtain ⟨x, xs, hsent, hx, hrest⟩ := List.map_eq_cons_iff.1 hreported
  obtain ⟨y, ys, rfl, hy, hnone⟩ := List.map_eq_cons_iff.1 hrest
  obtain rfl := List.map_eq_nil_iff.1 hnone
  have hsession : ([(x, 0), (y, 0)] : List (Status × Int64)).map Prod.fst <:+: σ.sent :=
    hsent ▸ List.infix_rfl
  have hbytes : statusBytes 10 0 false ++ (statusBytes 30 0 false).take 20 <+:
      ([(x, 0), (y, 0)] : List (Status × Int64)).flatMap
        fun p => statusBytes p.1.reported p.2 false := by
    rw [List.flatMap_cons, List.flatMap_cons, List.flatMap_nil, List.append_nil, hx, hy]
    exact (List.prefix_append_right_inj _).2 (List.take_prefix _ _)
  have hcut : (statusBytes 30 0 false).take 20 ≠ statusBytes 30 0 false := by decide
  have hread : statusParser.items (statusBytes 10 0 false ++ (statusBytes 30 0 false).take 20) =
      ([reporting 10 0 false], .cut ((statusBytes 30 0 false).take 20)) := by
    rw [Incremental.Parser.items_of_found (parse_statusBytes 10 0 false _),
      Incremental.Parser.items_of_none (parse_statusBytes_cut 30 0 false (List.take_prefix _ _) hcut)]
  obtain ⟨found, missing, cut, hparts, -, -, hitems, hsettled⟩ :=
    confirmed_settled hrun hsession hbytes
  rw [hread] at hitems
  obtain ⟨p, rfl, -⟩ := List.map_eq_singleton_iff.1 (Prod.mk.inj hitems).1.symm
  obtain ⟨rfl, -⟩ := List.cons.inj hparts
  refine ⟨σ, x, y, hrun, hsent, hx, hy, hread, ?_⟩
  have hfirst := hsettled (x, 0) List.mem_cons_self
  rw [hx] at hfirst
  exact hfirst

end Pglite.Replica
