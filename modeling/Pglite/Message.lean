import Mathlib.Data.List.Basic

/-!
# Errors and backend messages

`src/error.rs` and the part of `src/db.rs` that reads a response. A response is the list of
backend messages its bytes hold, some of which `Message::parse` may reject, and `processResponse`
folds it: the first `ErrorResponse` ends it with an error, as does a message that cannot be read,
and every `NotificationResponse` before that runs the callbacks of its channel. The completion tag
of a command is never looked at.
-/

namespace Pglite

/-! ## Errors -/

/-- `Error` of `src/error.rs`. The payload of `io` is the text of the I/O error. -/
inductive Error
  | database (sqlstate message : String) (detail hint : Option String)
  | alreadyOpen
  | reopenUnsupported
  | closed
  | io (e : String)
  | protocol (msg : String)
  | boot (msg : String)
  | postmasterStart (msg : String)
  | poolExhausted
  | replicaConfig (msg : String)
  | upstream (msg : String)
  | replicaHalted (msg : String)
  | lsn (s : String)
  deriving DecidableEq, Repr

/-- A computation that may fail succeeds when its parts do. -/
theorem bind_eq_ok {ε α β : Type} {x : Except ε α} {f : α → Except ε β} {b : β} :
    (x >>= f) = .ok b ↔ ∃ a, x = .ok a ∧ f a = .ok b := by
  cases x with
  | error e => simp [bind, Except.bind]
  | ok a => simp [bind, Except.bind]

/-- The `Display` text of an error. -/
def Error.display : Error → String
  | .database sqlstate message _ _ => s!"database error {sqlstate}: {message}"
  | .alreadyOpen => "a PGlite instance is already open in this process"
  | .reopenUnsupported =>
    "PGlite cannot reopen after close within the same process; spawn a new process to reopen"
  | .closed => "the PGlite instance is closed"
  | .io e => e
  | .protocol msg => s!"protocol error: {msg}"
  | .boot msg => s!"boot failed: {msg}"
  | .postmasterStart msg => s!"postmaster failed to start: {msg}"
  | .poolExhausted =>
    "connection pool exhausted: no connection became free within the acquire timeout"
  | .replicaConfig msg => s!"replica config error: {msg}"
  | .upstream msg => s!"upstream error: {msg}"
  | .replicaHalted msg => s!"replica halted: {msg}"
  | .lsn s => s!"invalid lsn: {s}"

/-- The fields of an `ErrorResponse`: a type byte and a value each. -/
abbrev ErrorFields := List (Char × String)

/-- One field of an `ErrorResponse`, folded into the error read so far. -/
def Error.addField : Error → Char × String → Error
  | .database _ m d h, ('C', v) => .database v m d h
  | .database c _ d h, ('M', v) => .database c v d h
  | .database c m _ h, ('D', v) => .database c m (some v) h
  | .database c m d _, ('H', v) => .database c m d (some v)
  | e, _ => e

/-- `Error::from_error_fields`. -/
def Error.fromErrorFields (fields : ErrorFields) : Error :=
  fields.foldl Error.addField (.database "" "" none none)

/-- An error response always becomes a database error. -/
theorem Error.fromErrorFields_eq_database (fields : ErrorFields) :
    ∃ c m d h, Error.fromErrorFields fields = .database c m d h := by
  have fold : ∀ (fs : ErrorFields) (e : Error), (∃ c m d h, e = .database c m d h) →
      ∃ c m d h, fs.foldl Error.addField e = .database c m d h := by
    intro fs
    induction fs with
    | nil => exact fun e he => he
    | cons f fs ih =>
      rintro e ⟨c, m, d, h, rfl⟩
      refine ih _ ?_
      unfold Error.addField
      split <;> simp_all
  exact fold fields _ ⟨_, _, _, _, rfl⟩

/-! ## Messages -/

/-- The backend messages the crate tells apart. The channel and the payload of a notification are
bytes, with what `channel()` and `message()` make of them: an error where they are not UTF-8. -/
inductive Message
  | errorResponse (fields : ErrorFields)
  | notificationResponse (channel payload : Except String String)
  | noticeResponse
  | parameterStatus
  | parseComplete
  | bindComplete
  | parameterDescription (oids : List Nat)
  | rowDescription (fields : List (String × Nat))
  | noData
  | dataRow (cells : List (Option String))
  | commandComplete (tag : String)
  | emptyQueryResponse
  | copyInResponse
  | copyOutResponse
  | copyData (data : List UInt8)
  | copyDone
  | readyForQuery (status : Char)
  deriving DecidableEq, Repr

/-- The callbacks registered for each channel, and the lowering of channel names
(`str::to_lowercase`) under which they are filed. -/
structure Listeners where
  toLowercase : String → String
  callbacks : String → List Nat

/-- No channel has a callback. -/
def Listeners.none : Listeners := ⟨id, fun _ => []⟩

/-- The callback calls one notification causes, as pairs of a token and a payload. -/
def Listeners.fire (ls : Listeners) (channel payload : String) : List (Nat × String) :=
  (ls.callbacks (ls.toLowercase channel)).map fun token => (token, payload)

/-- One message of a response: what `Message::parse` makes of it, or its error. The parser knows
most of what the protocol has, and not all. -/
abbrev Parsed := Except String Message

/-- `PGlite::process_response`: the callback calls made, and the result. -/
def processResponse (ls : Listeners) : List Parsed → List (Nat × String) × Except Error Unit
  | [] => ([], .ok ())
  | .error e :: _ => ([], .error (.protocol e))
  | .ok (.errorResponse fields) :: _ => ([], .error (Error.fromErrorFields fields))
  | .ok (.notificationResponse (.error e) _) :: _ => ([], .error (.protocol e))
  | .ok (.notificationResponse (.ok _) (.error e)) :: _ => ([], .error (.protocol e))
  | .ok (.notificationResponse (.ok channel) (.ok payload)) :: ms =>
    let (calls, res) := processResponse ls ms
    (ls.fire channel payload ++ calls, res)
  | .ok _ :: ms => processResponse ls ms

end Pglite
