import Pglite.Incremental
import Pglite.Lossy
import Pglite.Replica.PgOutput

/-!
# The connection to the upstream

`ReplConn` of `src/replica/wire.rs`: messages are read from a buffer that is filled with whatever
arrives.

* `readCopyMessage`: the messages of the replication stream.
* `simpleQuery`, `copyOut`: requests that are answered up to a `ReadyForQuery`.

`Message::parse` is a parameter `P`: it finds the first message of the buffer.
-/

namespace Pglite.Replica.Wire

open Incremental
open ByteReader (fromBe toBe length_toBe fromBe_toBe)

/-! ## Messages -/

/-- The messages of the upstream, as far as they are told apart. What an iterator over a body may come
to is its result. -/
inductive BackendMessage
  | authenticationOk
  | authenticationCleartextPassword
  | authenticationMd5Password (salt : List UInt8)
  | authenticationSasl (mechanisms : Except String (List String))
  | authenticationSaslContinue (data : List UInt8)
  | authenticationSaslFinal (data : List UInt8)
  | backendKeyData
  | parameterStatus
  | noticeResponse
  | errorResponse (fields : ErrorFields)
  | rowDescription
  | dataRow (cells : Except String (List (Option (List UInt8))))
  | commandComplete
  | emptyQueryResponse
  | copyOutResponse
  | copyData (data : List UInt8)
  | copyDone
  | readyForQuery
  | other
  deriving DecidableEq

/-- The requests. -/
inductive Request
  | startup (params : List (String × String))
  | password (password : List UInt8)
  | saslInitialResponse (mechanism : String) (data : List UInt8)
  | saslResponse (data : List UInt8)
  | query (sql : String)
  | copyData (payload : List UInt8)
  | terminate

/-- `ReplConn`, and what was written to it. The payload of a failed read is the text of the error. -/
structure ReplConn where
  conn : Inflow UInt8 String
  sent : List Request

/-- How the other side, and the socket, behave. -/
structure World where
  /-- `Message::parse`. -/
  parser : Parser UInt8 BackendMessage String
  /-- Whether a request can be encoded and written. -/
  send : List Request → Request → Except Error Unit
  /-- The text of an error for a read that timed out. -/
  timedOut : String

variable (w : World)

/-- Encoding and `write_all`. -/
def ReplConn.write (c : ReplConn) (r : Request) : Except Error Unit × ReplConn :=
  (w.send c.sent r, { c with sent := c.sent ++ [r] })

/-- What `read_message` fails with. -/
def stopError : Stop String String → Error
  | .refused e => .protocol e
  | .timeout => .io w.timedOut
  | .closed => .upstream "connection closed by upstream"
  | .failed e => .io e

/-! ## Queries -/

/-- A row of an answer. The cells are the bytes of their texts. -/
abbrev Cells := List (Option (List UInt8))

/-- The loop of `simple_query`, with the rows and the error so far. -/
def queryStep : List Cells × Option Error → BackendMessage →
    (List Cells × Option Error) ⊕ Except Error (List Cells)
  | (rows, error), .dataRow cells =>
    match cells with
    | .error e => .inr (.error (.protocol e))
    | .ok cells => .inl (rows ++ [cells.map (Option.map Lossy.lossy)], error)
  | s, .rowDescription => .inl s
  | s, .commandComplete => .inl s
  | s, .emptyQueryResponse => .inl s
  | s, .parameterStatus => .inl s
  | s, .noticeResponse => .inl s
  | (rows, _), .errorResponse fields => .inl (rows, some (Error.fromErrorFields fields))
  | (rows, error), .readyForQuery =>
    match error with
    | some e => .inr (.error e)
    | none => .inr (.ok rows)
  | _, _ => .inr (.error (.protocol "unexpected message during simple query"))

/-- `simple_query`. -/
def simpleQuery (sql : String) (c : ReplConn) : Option (Except Error (List Cells) × ReplConn) :=
  match c.write w (.query sql) with
  | (.error e, c) => some (.error e, c)
  | (.ok (), c) =>
    (w.parser.consume queryStep ([], none) c.conn).map fun
      | (.ok r, conn) => (r, { c with conn := conn })
      | (.error (stop, _), conn) => (.error (stopError w stop), { c with conn := conn })

section CopyOut

variable {σ : Type} (onChunk : σ → List UInt8 → Except Error Unit × σ)

/-- The loop of `copy_out`, with the state of the callback and the error so far. -/
def copyOutStep : σ × Option Error → BackendMessage → (σ × Option Error) ⊕ (Except Error Unit × σ)
  | s, .copyOutResponse => .inl s
  | (x, error), .copyData data =>
    match error with
    | some e => .inl (x, some e)
    | none =>
      match onChunk x data with
      | (.error e, x) => .inl (x, some e)
      | (.ok (), x) => .inl (x, none)
  | s, .copyDone => .inl s
  | s, .commandComplete => .inl s
  | s, .parameterStatus => .inl s
  | s, .noticeResponse => .inl s
  | (x, _), .errorResponse fields => .inl (x, some (Error.fromErrorFields fields))
  | (x, error), .readyForQuery =>
    match error with
    | some e => .inr (.error e, x)
    | none => .inr (.ok (), x)
  | (x, _), _ => .inr (.error (.protocol "unexpected message during COPY OUT"), x)

/-- `copy_out`. -/
def copyOut (sql : String) (x : σ) (c : ReplConn) : Option (Except Error Unit × σ × ReplConn) :=
  match c.write w (.query sql) with
  | (.error e, c) => some (.error e, x, c)
  | (.ok (), c) =>
    (w.parser.consume (copyOutStep onChunk) (x, none) c.conn).map fun
      | (.ok (r, x), conn) => (r, x, { c with conn := conn })
      | (.error (stop, x, _), conn) => (.error (stopError w stop), x, { c with conn := conn })

end CopyOut

/-! ## The replication stream -/

/-- `ReplMsg`. -/
inductive ReplMsg
  | xLogData (data : List UInt8)
  | keepalive (walEnd : Lsn) (replyRequested : Bool)
  | copyDone

/-- The `Debug` text of a byte as a character. -/
def debugChar (b : UInt8) : String :=
  let escaped :=
    if b = 0 then "\\0"
    else if b = 9 then "\\t"
    else if b = 10 then "\\n"
    else if b = 13 then "\\r"
    else if b = 39 then "\\'"
    else if b = 92 then "\\\\"
    else if b < 32 ∨ 127 ≤ b ∧ b ≤ 160 ∨ b = 173 then
      "\\u\x7b" ++ String.ofList (Nat.toDigits 16 b.toNat) ++ "\x7d"
    else String.singleton (Char.ofNat b.toNat)
  "'" ++ escaped ++ "'"

/-- The payload of a `CopyData`. -/
def replMsg (payload : List UInt8) : Except Error ReplMsg :=
  match payload.head? with
  | some b =>
    if b = Decoder.byte 'w' then
      if payload.length < 25 then .error (.protocol "truncated XLogData")
      else .ok (.xLogData (payload.drop 25))
    else if b = Decoder.byte 'k' then
      if payload.length < 18 then .error (.protocol "truncated keepalive")
      else .ok (.keepalive (Fin.ofNat _ (fromBe ((payload.drop 1).take 8)))
        (decide (payload.getD 17 0 ≠ 0)))
    else .error (.protocol ("unknown replication submessage: Some(" ++ debugChar b ++ ")"))
  | none => .error (.protocol "unknown replication submessage: None")

/-- The loop of `read_copy_message`. -/
def copyStep : Unit → BackendMessage → Unit ⊕ Except Error ReplMsg
  | (), .copyData payload => .inr (replMsg payload)
  | (), .copyDone => .inr (.ok .copyDone)
  | (), .errorResponse fields => .inr (.error (Error.fromErrorFields fields))
  | (), .parameterStatus => .inl ()
  | (), .noticeResponse => .inl ()
  | (), _ => .inr (.error (.protocol "unexpected message on replication stream"))

/-- `read_copy_message`. A read that times out is no error. -/
def readCopyMessage (c : Inflow UInt8 String) :
    Option (Except Error (Option ReplMsg) × Inflow UInt8 String) :=
  (w.parser.consume copyStep () c).map fun
    | (.ok r, c) => (r.map some, c)
    | (.error (.refused e, ()), c) => (.error (.protocol e), c)
    | (.error (.timeout, ()), c) => (.ok none, c)
    | (.error (.closed, ()), c) => (.error (.upstream "connection closed by upstream"), c)
    | (.error (.failed e, ()), c) => (.error (.io e), c)

end Pglite.Replica.Wire
