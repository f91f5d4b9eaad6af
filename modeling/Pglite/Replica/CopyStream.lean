import Pglite.Frames
import Pglite.Replica.Wire

/-!
# The replication stream, byte by byte

`read_copy_message` is called again and again, with reads that bring any piece of the stream, or time
out in the middle of a message. The calls return the messages of the upstream, each of them once and
in their order.

* `replMsgs`: what the messages of the upstream come to.
* `Reads`: calls of `read_copy_message`, and `Reads.delivers`, what they have in common with the text.
* `stream_in_order`: for an upstream that sends pgoutput messages.
-/

namespace Pglite.Replica.Wire

open Incremental
open ByteReader (fromBe toBe length_toBe fromBe_toBe)

variable (w : World)

/-! ## The messages of a text -/

/-- What the messages of the upstream come to, up to the first error. -/
def replMsgs : List BackendMessage → List (Except Error ReplMsg)
  | [] => []
  | m :: ms =>
    match copyStep () m with
    | .inl () => replMsgs ms
    | .inr (.ok msg) => .ok msg :: replMsgs ms
    | .inr (.error e) => [.error e]

theorem replMsgs_skipped {as : List BackendMessage} {s : Unit}
    (h : Parser.skipAll copyStep () as = some s) (ms : List BackendMessage) :
    replMsgs (as ++ ms) = replMsgs ms := by
  induction as with
  | nil => rfl
  | cons a as ih =>
    rw [Parser.skipAll] at h
    rw [List.cons_append, replMsgs]
    cases hstep : copyStep () a with
    | inl u =>
      rw [hstep] at h
      exact ih h
    | inr r =>
      rw [hstep] at h
      cases h

/-- What is still to come. -/
def ahead (c : Inflow UInt8 String) : List (Except Error ReplMsg) :=
  replMsgs (w.parser.items c.unread).1

def isTimeout : Arrival UInt8 String → Bool
  | .timeout => true
  | _ => false

/-- How often a read times out. -/
def timeouts (c : Inflow UInt8 String) : Nat := c.arrivals.countP isTimeout

/-- The stream does not end, and its text is not refused. -/
structure Intact (c : Inflow UInt8 String) : Prop where
  goes_on : ∀ x ∈ c.arrivals, (∃ bs, x = .chunk bs) ∨ x = .timeout
  read : ∃ rest, (w.parser.items c.unread).2 = .cut rest

/-! ## One call -/

/-- What a call of `read_copy_message` has to do with what is still to come. -/
def Returns (c : Inflow UInt8 String) :
    Option (Except Error (Option ReplMsg) × Inflow UInt8 String) → Prop
  | none => ahead w c = []
  | some (.ok (some msg), c') => ahead w c = .ok msg :: ahead w c' ∧ timeouts c = timeouts c'
  | some (.ok none, c') => ahead w c = ahead w c' ∧ timeouts c = timeouts c' + 1
  | some (.error e, _) => ahead w c = [.error e] ∨ ahead w c = [] ∧ ¬Intact w c

theorem timeouts_of_arrivals {c c' : Inflow UInt8 String} {pieces : List (List UInt8)}
    {ended : List (Arrival UInt8 String)}
    (h : c.arrivals = pieces.map .chunk ++ (ended ++ c'.arrivals)) :
    timeouts c = ended.countP isTimeout + timeouts c' := by
  have hpieces : (pieces.map (Arrival.chunk (ε := String))).countP isTimeout = 0 := by
    rw [List.countP_eq_zero]
    intro x hx
    obtain ⟨bs, -, rfl⟩ := List.mem_map.1 hx
    exact Bool.false_ne_true
  rw [timeouts, h, List.countP_append, hpieces, List.countP_append, Nat.zero_add, timeouts]

/-- **One call** returns the first message that is still to come, or there is none. -/
theorem readCopyMessage_returns (c : Inflow UInt8 String) :
    Returns w c (readCopyMessage w c) := by
  have hspec : ∃ as s', Parser.skipAll copyStep () as = some s' ∧
      w.parser.Consumes copyStep c as s' (w.parser.consume copyStep () c) :=
    Parser.consume_spec () c
  obtain ⟨as, ⟨⟩, hskip, hconsumes⟩ := hspec
  have hskipped : ∀ ms, replMsgs (as ++ ms) = replMsgs ms := replMsgs_skipped hskip
  have hnothing : ∀ tail, w.parser.items c.unread = (as, tail) → ahead w c = [] := by
    intro tail htail
    have hnil := hskipped []
    rw [List.append_nil] at hnil
    rw [ahead, htail]
    exact hnil
  unfold readCopyMessage
  cases hr : w.parser.consume copyStep () c with
  | none =>
    rw [hr] at hconsumes
    obtain ⟨rest, hrest⟩ := hconsumes
    exact hnothing _ hrest
  | some p =>
    obtain ⟨r, c'⟩ := p
    obtain ⟨pieces, harrivals⟩ := Parser.consume_arrivals hr
    have htimeouts := timeouts_of_arrivals harrivals
    rw [hr] at hconsumes
    cases r with
    | ok r =>
      obtain ⟨a, ha, hitems⟩ := hconsumes
      have hahead : ahead w c = replMsgs (a :: (w.parser.items c'.unread).1) := by
        rw [ahead, hitems, hskipped]
      cases r with
      | ok msg =>
        refine ⟨?_, ?_⟩
        · rw [hahead, replMsgs, ha]
          rfl
        · rw [htimeouts]
          exact Nat.zero_add _
      | error e =>
        refine .inl ?_
        rw [hahead, replMsgs, ha]
    | error stop =>
      obtain ⟨stop, ⟨⟩⟩ := stop
      cases stop with
      | refused e =>
        obtain ⟨-, hitems⟩ := hconsumes
        refine .inr ⟨hnothing _ hitems, fun hintact => ?_⟩
        obtain ⟨rest, hrest⟩ := hintact.read
        rw [hitems] at hrest
        cases hrest
      | timeout =>
        obtain ⟨-, hitems⟩ := hconsumes
        refine ⟨?_, ?_⟩
        · rw [ahead, hitems, hskipped, ahead]
        · rw [htimeouts, Nat.add_comm]
          rfl
      | closed | failed =>
        obtain ⟨-, rest, hrest⟩ := hconsumes
        refine .inr ⟨hnothing _ hrest, fun hintact => ?_⟩
        have hmem := hintact.goes_on
        rw [harrivals] at hmem
        rcases hmem _ (List.mem_append_right _ (List.mem_append_left _ List.mem_cons_self)) with
          ⟨bs, hbs⟩ | hbs
        · cases hbs
        · cases hbs

/-! ## Many calls -/

/-- Calls of `read_copy_message`, one after the other, and what they returned. -/
inductive Reads : Inflow UInt8 String → List (Option ReplMsg) → Inflow UInt8 String → Prop
  | nil (c) : Reads c [] c
  | cons {c c₁ c' r rs} : readCopyMessage w c = some (.ok r, c₁) → Reads c₁ rs c' →
    Reads c (r :: rs) c'

variable {w}

/-- **The calls** return what the text has, in its order. One of them returns nothing for each read
that times out. -/
theorem Reads.delivers {c c' : Inflow UInt8 String} {rs : List (Option ReplMsg)}
    (h : Reads w c rs c') : ahead w c = (rs.filterMap id).map .ok ++ ahead w c' ∧
      timeouts c = rs.countP Option.isNone + timeouts c' := by
  induction h with
  | nil c => exact ⟨rfl, (Nat.zero_add _).symm⟩
  | @cons c c₁ c' r rs hcall _ ih =>
    have hreturns := readCopyMessage_returns w c
    rw [hcall] at hreturns
    obtain ⟨hahead, htimeouts⟩ := ih
    cases r with
    | none =>
      refine ⟨hreturns.1.trans hahead, ?_⟩
      rw [hreturns.2, htimeouts, List.countP_cons_of_pos rfl]
      omega
    | some msg =>
      refine ⟨hreturns.1.trans (congrArg _ hahead), ?_⟩
      rw [hreturns.2, htimeouts, List.countP_cons_of_neg Bool.false_ne_true]

/-- The calls end, with one that does not come back or fails. -/
theorem exists_reads (w : World) (c : Inflow UInt8 String) : ∃ rs c', Reads w c rs c' ∧
    (readCopyMessage w c' = none ∨ ∃ e c₁, readCopyMessage w c' = some (.error e, c₁)) := by
  induction hn : (ahead w c).length + timeouts c using Nat.strong_induction_on generalizing c with
  | _ n ih =>
    have hreturns := readCopyMessage_returns w c
    cases hcall : readCopyMessage w c with
    | none => exact ⟨[], c, .nil c, .inl hcall⟩
    | some p =>
      obtain ⟨r, c₁⟩ := p
      rw [hcall] at hreturns
      cases r with
      | error e => exact ⟨[], c, .nil c, .inr ⟨e, c₁, hcall⟩⟩
      | ok r =>
        have hlt : (ahead w c₁).length + timeouts c₁ < n := by
          cases r with
          | none =>
            rw [← hn, hreturns.1, hreturns.2]
            omega
          | some msg =>
            rw [← hn, hreturns.1, hreturns.2, List.length_cons]
            omega
        obtain ⟨rs, c', hreads, hends⟩ := ih _ hlt c₁ rfl
        exact ⟨r :: rs, c', .cons hcall hreads, hends⟩

/-! ## What the upstream sends -/

/-- A message of the upstream on the replication stream. -/
inductive Sent
  | xLogData (walStart walEnd : Lsn) (clock : Int64) (skipped : Skipped) (m : PgOutputMsg)
  | keepalive (walEnd : Lsn) (clock : Int64) (replyRequested : Bool)
  | parameterStatus (name value : String)
  | notice (body : List UInt8)

namespace Sent

def payload : Sent → List UInt8
  | .xLogData walStart walEnd clock skipped m =>
    Decoder.byte 'w' :: (toBe 8 walStart.val ++ (toBe 8 walEnd.val ++
      (toBe 8 clock.toUInt64.toNat ++ m.encode skipped)))
  | .keepalive walEnd clock replyRequested =>
    Decoder.byte 'k' :: (toBe 8 walEnd.val ++ (toBe 8 clock.toUInt64.toNat ++
      [if replyRequested then 1 else 0]))
  | .parameterStatus name value => cstrBytes name ++ cstrBytes value
  | .notice body => body

def frame (e : Sent) : Frames.Frame where
  tag :=
    match e with
    | .xLogData .. => Decoder.byte 'd'
    | .keepalive .. => Decoder.byte 'd'
    | .parameterStatus .. => Decoder.byte 'S'
    | .notice _ => Decoder.byte 'N'
  body := e.payload

/-- The message, as it is parsed. -/
def message : Sent → BackendMessage
  | .xLogData walStart walEnd clock skipped m =>
    .copyData (payload (.xLogData walStart walEnd clock skipped m))
  | .keepalive walEnd clock replyRequested =>
    .copyData (payload (.keepalive walEnd clock replyRequested))
  | .parameterStatus _ _ => .parameterStatus
  | .notice _ => .noticeResponse

/-- What the replica gets of it. -/
def replMsg? : Sent → Option ReplMsg
  | .xLogData _ _ _ skipped m => some (.xLogData (m.encode skipped))
  | .keepalive walEnd _ replyRequested => some (.keepalive walEnd replyRequested)
  | .parameterStatus _ _ => none
  | .notice _ => none

def pgOutput? : Sent → Option PgOutputMsg
  | .xLogData _ _ _ _ m => some m
  | _ => none

/-- It can be written. -/
structure Fits (e : Sent) : Prop where
  frame : e.frame.Fits
  pgOutput : ∀ m ∈ e.pgOutput?, m.Fits
  names : ∀ name value, e = .parameterStatus name value → NulFree name ∧ NulFree value

end Sent

theorem replMsg_xLogData (walStart walEnd : Lsn) (clock : Int64) (skipped : Skipped)
    (m : PgOutputMsg) : replMsg (Sent.payload (.xLogData walStart walEnd clock skipped m)) =
      .ok (.xLogData (m.encode skipped)) := by
  have hlen : ¬ (Sent.payload (.xLogData walStart walEnd clock skipped m)).length < 25 := by
    simp only [Sent.payload, List.length_cons, List.length_append, length_toBe]
    omega
  have hdrop : (Sent.payload (.xLogData walStart walEnd clock skipped m)).drop 25 =
      m.encode skipped := by
    have hheader : (Decoder.byte 'w' :: (toBe 8 walStart.val ++ (toBe 8 walEnd.val ++
        toBe 8 clock.toUInt64.toNat))).length = 25 := by
      simp [length_toBe]
    have hsplit : Sent.payload (.xLogData walStart walEnd clock skipped m) =
        (Decoder.byte 'w' :: (toBe 8 walStart.val ++ (toBe 8 walEnd.val ++
          toBe 8 clock.toUInt64.toNat))) ++ m.encode skipped := by
      simp [Sent.payload]
    rw [hsplit]
    exact List.drop_left' hheader
  have hhead : (Sent.payload (.xLogData walStart walEnd clock skipped m)).head? =
      some (Decoder.byte 'w') := rfl
  rw [replMsg, hhead]
  dsimp only
  rw [if_pos rfl, if_neg hlen, hdrop]

theorem replMsg_keepalive (walEnd : Lsn) (clock : Int64) (replyRequested : Bool) :
    replMsg (Sent.payload (.keepalive walEnd clock replyRequested)) =
      .ok (.keepalive walEnd replyRequested) := by
  have hlen : (Sent.payload (.keepalive walEnd clock replyRequested)).length = 18 := by
    simp [Sent.payload, length_toBe]
  have hhead : (Sent.payload (.keepalive walEnd clock replyRequested)).head? =
      some (Decoder.byte 'k') := rfl
  have hw : ¬ Decoder.byte 'k' = Decoder.byte 'w' := by decide
  have hwalEnd : ((Sent.payload (.keepalive walEnd clock replyRequested)).drop 1).take 8 =
      toBe 8 walEnd.val := by
    have hfield : (toBe 8 walEnd.val).length = 8 := length_toBe 8 _
    rw [Sent.payload, List.drop_one, List.tail_cons, List.take_append_of_le_length (by omega),
      List.take_of_length_le (by omega)]
  have hreply : (Sent.payload (.keepalive walEnd clock replyRequested)).getD 17 0 =
      if replyRequested then 1 else 0 := by
    have hheader : (Decoder.byte 'k' :: (toBe 8 walEnd.val ++ toBe 8 clock.toUInt64.toNat)).length =
        17 := by
      simp [length_toBe]
    have hsplit : Sent.payload (.keepalive walEnd clock replyRequested) =
        (Decoder.byte 'k' :: (toBe 8 walEnd.val ++ toBe 8 clock.toUInt64.toNat)) ++
          [if replyRequested then 1 else 0] := by
      simp [Sent.payload]
    rw [hsplit, List.getD_eq_getElem?_getD, List.getElem?_append_right (by omega), hheader]
    rfl
  have hofNat : Fin.ofNat (2 ^ 64) walEnd.val = walEnd := Fin.ext (Nat.mod_eq_of_lt walEnd.isLt)
  rw [replMsg, hhead]
  dsimp only
  rw [if_neg hw, if_pos rfl, if_neg (by omega), hwalEnd, hreply, fromBe_toBe walEnd.isLt, hofNat]
  cases replyRequested with
  | false => rfl
  | true => rfl

theorem replMsgs_sent (es : List Sent) :
    replMsgs (es.map Sent.message) = (es.filterMap Sent.replMsg?).map .ok := by
  induction es with
  | nil => rfl
  | cons e es ih =>
    rw [List.map_cons, replMsgs]
    cases e with
    | xLogData walStart walEnd clock skipped m =>
      rw [Sent.message, copyStep, replMsg_xLogData]
      exact congrArg _ ih
    | keepalive walEnd clock replyRequested =>
      rw [Sent.message, copyStep, replMsg_keepalive]
      exact congrArg _ ih
    | parameterStatus name value => exact ih
    | notice body => exact ih

/-! ## The changes -/

/-- What `stream_loop` decodes of a message. A message that was received as a whole reserves no more
room than it has taken itself, and the allocator has that. -/
def decoded : ReplMsg → Option (Except (ByteReader.Stop Error) PgOutputMsg)
  | .xLogData data => some (decode .plenty data)
  | _ => none

theorem decode_encode (skipped : Skipped) {m : PgOutputMsg} (h : m.Fits) :
    decode .plenty (m.encode skipped) = .ok m :=
  (inverts_of_codes (Decoder.codes_body .plenty skipped h fun _ _ => rfl)).1

theorem decoded_sent {es : List Sent} (h : ∀ e ∈ es, e.Fits) :
    (es.filterMap Sent.replMsg?).filterMap decoded = (es.filterMap Sent.pgOutput?).map .ok := by
  induction es with
  | nil => rfl
  | cons e es ih =>
    obtain ⟨he, hes⟩ := List.forall_mem_cons.1 h
    cases e with
    | xLogData walStart walEnd clock skipped m =>
      have hm : decoded (.xLogData (m.encode skipped)) = some (.ok m) :=
        congrArg some (decode_encode skipped (he.pgOutput m rfl))
      simp [Sent.replMsg?, Sent.pgOutput?, hm, ih hes]
    | keepalive walEnd clock replyRequested => exact ih hes
    | parameterStatus name value => exact ih hes
    | notice body => exact ih hes

/-- `Message::parse` knows these messages. -/
structure Speaks (P : Parser UInt8 BackendMessage String) : Prop where
  nothing : P.parse [] = .ok none
  copyData : ∀ payload, Frames.Frame.Fits ⟨Decoder.byte 'd', payload⟩ → ∀ rest,
    P.parse (Frames.Frame.encode ⟨Decoder.byte 'd', payload⟩ ++ rest) =
      .ok (some (.copyData payload, rest))
  parameterStatus : ∀ name value, NulFree name → NulFree value →
    Frames.Frame.Fits ⟨Decoder.byte 'S', cstrBytes name ++ cstrBytes value⟩ → ∀ rest,
    P.parse (Frames.Frame.encode ⟨Decoder.byte 'S', cstrBytes name ++ cstrBytes value⟩ ++ rest) =
      .ok (some (.parameterStatus, rest))
  notice : ∀ body, Frames.Frame.Fits ⟨Decoder.byte 'N', body⟩ → ∀ rest,
    P.parse (Frames.Frame.encode ⟨Decoder.byte 'N', body⟩ ++ rest) =
      .ok (some (.noticeResponse, rest))

theorem Speaks.parse_frame {P : Parser UInt8 BackendMessage String} (h : Speaks P) {e : Sent}
    (he : e.Fits) (rest : List UInt8) :
    P.parse (e.frame.encode ++ rest) = .ok (some (e.message, rest)) := by
  cases e with
  | xLogData walStart walEnd clock skipped m => exact h.copyData _ he.frame rest
  | keepalive walEnd clock replyRequested => exact h.copyData _ he.frame rest
  | parameterStatus name value =>
    obtain ⟨hname, hvalue⟩ := he.names name value rfl
    exact h.parameterStatus name value hname hvalue he.frame rest
  | notice body => exact h.notice body he.frame rest

/-- **The stream comes in order.** The upstream has sent messages and the beginning of another one.
However the reads cut its bytes and whenever they time out, the calls of `read_copy_message` return
these messages, each of them once, and the changes are decoded as they were sent. Nothing is returned
for a read that timed out, and for no other reason. When a call does not come back or fails, all of
the messages have been returned. -/
theorem stream_in_order {es : List Sent} {cut : List UInt8} {c c' : Inflow UInt8 String}
    {rs : List (Option ReplMsg)} (speaks : Speaks w.parser) (fits : ∀ e ∈ es, e.Fits)
    (sent : c.unread = es.flatMap (fun e => e.frame.encode) ++ cut)
    (incomplete : w.parser.parse cut = .ok none) (reads : Reads w c rs c') :
    rs.filterMap id <+: es.filterMap Sent.replMsg? ∧
      (rs.filterMap id).filterMap decoded <+: (es.filterMap Sent.pgOutput?).map .ok ∧
      rs.countP Option.isNone ≤ timeouts c ∧
      (readCopyMessage w c' = none ∨ (∃ e c₁, readCopyMessage w c' = some (.error e, c₁)) →
        rs.filterMap id = es.filterMap Sent.replMsg? ∧
        (rs.filterMap id).filterMap decoded = (es.filterMap Sent.pgOutput?).map .ok) := by
  obtain ⟨hdelivers, htimeouts⟩ := reads.delivers
  have hahead : ahead w c = (es.filterMap Sent.replMsg?).map .ok := by
    have hitems := Parser.items_flatMap (fun e he => speaks.parse_frame (fits e he)) cut
    rw [ahead, sent, hitems, Parser.items_of_none incomplete, List.append_nil, replMsgs_sent]
  rw [hahead] at hdelivers
  obtain ⟨done, later, hall, hdone, hlater⟩ := List.map_eq_append_iff.1 hdelivers
  have hinj : Function.Injective (Except.ok : ReplMsg → Except Error ReplMsg) :=
    fun _ _ h => Except.ok.inj h
  obtain rfl := List.map_injective_iff.2 hinj hdone
  have hdecoded := decoded_sent fits
  rw [hall, List.filterMap_append] at hdecoded
  refine ⟨⟨later, hall.symm⟩, ⟨_, hdecoded⟩, by omega, fun hends => ?_⟩
  have hreturns := readCopyMessage_returns w c'
  have hnil : ahead w c' = [] := by
    rcases hends with hnone | ⟨e, c₁, herror⟩
    · rw [hnone] at hreturns
      exact hreturns
    · rw [herror] at hreturns
      refine hreturns.elim (fun he => ?_) And.left
      rw [he] at hlater
      cases later with
      | nil => cases hlater
      | cons m ms => cases hlater
  rw [hnil, List.map_eq_nil_iff] at hlater
  obtain rfl := hlater
  rw [List.append_nil] at hall
  rw [List.filterMap_nil, List.append_nil] at hdecoded
  exact ⟨hall.symm, hdecoded⟩

/-! ## A stream that is cut -/

/-- The messages of a stream. -/
def decodeFrame (f : Frames.Frame) : Except String BackendMessage :=
  if f.tag = Decoder.byte 'd' then .ok (.copyData f.body)
  else if f.tag = Decoder.byte 'S' then .ok .parameterStatus
  else if f.tag = Decoder.byte 'N' then .ok .noticeResponse
  else if f.tag = Decoder.byte 'c' then .ok .copyDone
  else .error "unknown message tag"

def plainWorld : World where
  parser := Frames.parser decodeFrame "invalid message length"
  send _ _ := .ok ()
  timedOut := "timed out"

theorem speaks_plainWorld : Speaks plainWorld.parser := by
  have hparse : ∀ (f : Frames.Frame) (m : BackendMessage), f.Fits → decodeFrame f = .ok m →
      ∀ rest, plainWorld.parser.parse (f.encode ++ rest) = .ok (some (m, rest)) := by
    intro f m hfits hdecode rest
    simp [plainWorld, Frames.parser, Frames.parse_encode hfits, hdecode, Except.map]
  refine ⟨rfl, fun payload hfits rest => hparse _ _ hfits rfl rest,
    fun name value _ _ hfits rest => hparse _ _ hfits ?_ rest,
    fun body hfits rest => hparse _ _ hfits ?_ rest⟩
  · have hd : ¬ Decoder.byte 'S' = Decoder.byte 'd' := by decide
    simp [decodeFrame, hd]
  · have hd : ¬ Decoder.byte 'N' = Decoder.byte 'd' := by decide
    have hs : ¬ Decoder.byte 'N' = Decoder.byte 'S' := by decide
    simp [decodeFrame, hd, hs]

/-- A transaction without changes, between two keepalives. -/
def sentSample : List Sent :=
  [.keepalive 8 0 false, .xLogData 8 16 0 ⟨0, 0, 0⟩ (.begin 16 0 7), .notice [],
    .xLogData 16 16 0 ⟨0, 0, 0⟩ (.commit 16 24 0), .keepalive 24 0 true]

/-- The reads cut it in the middle of a message, where one of them times out. -/
def inflowSample : Inflow UInt8 String where
  buf := []
  arrivals :=
    [.timeout, .chunk ((sentSample.flatMap fun e => e.frame.encode).take 30), .timeout,
      .chunk ((sentSample.flatMap fun e => e.frame.encode).drop 30)]

theorem stream_in_order_cut : ∃ rs c', Reads plainWorld inflowSample rs c' ∧
    (rs.filterMap id).filterMap decoded = [.ok (.begin 16 0 7), .ok (.commit 16 24 0)] ∧
    rs.countP Option.isNone ≤ 2 := by
  have hfits : ∀ e ∈ sentSample, e.Fits := by
    intro e he
    simp only [sentSample, List.mem_cons, List.not_mem_nil, or_false] at he
    rcases he with rfl | rfl | rfl | rfl | rfl
    all_goals refine ⟨by decide +kernel, fun m hm => ?_, fun name value h => by cases h⟩
    all_goals cases hm
    all_goals trivial
  have hunread : inflowSample.unread = sentSample.flatMap (fun e => e.frame.encode) ++ [] := by
    simp [inflowSample, Inflow.unread, text]
  obtain ⟨rs, c', hreads, hends⟩ := exists_reads plainWorld inflowSample
  obtain ⟨-, -, htimeouts, hall⟩ :=
    stream_in_order speaks_plainWorld hfits hunread speaks_plainWorld.nothing hreads
  exact ⟨rs, c', hreads, (hall hends).2, htimeouts⟩

end Pglite.Replica.Wire
