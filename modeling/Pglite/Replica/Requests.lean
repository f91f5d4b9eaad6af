import Pglite.Frames
import Pglite.Replica.Wire

/-!
# Requests and answers

`simple_query` and `copy_out` read up to a `ReadyForQuery`, whatever comes before it. So each request
gets its own answer, also where an answer before it was an error, and the connection is behind the
last one.

* `queryAnswer`, `copyAnswer`: what an answer says.
* `queryStep_answer`, `copyOutStep_answer`: what the loops make of it.
* `requests_answered`: any number of requests on one connection.
-/

namespace Pglite.Replica.Wire

open Incremental

variable (w : World)

/-! ## What an answer says -/

/-- The error of a message. -/
def BackendMessage.error? : BackendMessage → Option Error
  | .errorResponse fields => some (Error.fromErrorFields fields)
  | _ => none

/-- The row of a message, with a replacement for what is not UTF-8. -/
def BackendMessage.cells? : BackendMessage → Option Cells
  | .dataRow (.ok cells) => some (cells.map (Option.map Lossy.lossy))
  | _ => none

def BackendMessage.chunk? : BackendMessage → Option (List UInt8)
  | .copyData data => some data
  | _ => none

/-- The last error of an answer. -/
def lastError (body : List BackendMessage) : Option Error :=
  (body.filterMap BackendMessage.error?).getLast?

/-- The rows, if there is no error. -/
def queryAnswer (body : List BackendMessage) : Except Error (List Cells) :=
  (lastError body).elim (.ok (body.filterMap BackendMessage.cells?)) .error

section CopyOut

variable {σ : Type} (onChunk : σ → List UInt8 → Except Error Unit × σ)

/-- The callback is called until it fails. -/
def callBack : σ → List (List UInt8) → Option Error × σ
  | x, [] => (none, x)
  | x, chunk :: chunks =>
    match onChunk x chunk with
    | (.error e, x) => (some e, x)
    | (.ok (), x) => callBack x chunks

/-- The chunks before the first error. -/
def chunksOf (body : List BackendMessage) : List (List UInt8) :=
  (body.takeWhile fun m => m.error?.isNone).filterMap BackendMessage.chunk?

/-- The callback gets the chunks before the first error. The last error of the answer counts, or the
one of the callback. -/
def copyAnswer (x : σ) (body : List BackendMessage) : Except Error Unit × σ :=
  let (error, x) := callBack onChunk x (chunksOf body)
  (((lastError body).or error).elim (.ok ()) .error, x)

end CopyOut

/-- A message of the answer to a query. -/
def BackendMessage.ofQuery : BackendMessage → Bool
  | .dataRow (.ok _) => true
  | .rowDescription => true
  | .commandComplete => true
  | .emptyQueryResponse => true
  | .parameterStatus => true
  | .noticeResponse => true
  | .errorResponse _ => true
  | _ => false

/-- A message of the answer to a `COPY … TO STDOUT`. -/
def BackendMessage.ofCopy : BackendMessage → Bool
  | .copyOutResponse => true
  | .copyData _ => true
  | .copyDone => true
  | .commandComplete => true
  | .parameterStatus => true
  | .noticeResponse => true
  | .errorResponse _ => true
  | _ => false

/-! ## The loops -/

theorem lastError_cons (m : BackendMessage) (body : List BackendMessage) :
    lastError (m :: body) = (lastError body).or m.error? := by
  unfold lastError
  cases hm : m.error? with
  | none => simp [hm]
  | some e =>
    rw [List.filterMap_cons_some hm, List.getLast?_cons]
    cases (body.filterMap BackendMessage.error?).getLast? <;> rfl

/-- The end of `simple_query`. -/
theorem queryStep_answer {body : List BackendMessage}
    (hbody : ∀ m ∈ body, m.ofQuery = true) (rows : List Cells) (error : Option Error)
    (rest : List BackendMessage) :
    Parser.consumeItems queryStep (rows, error) (body ++ .readyForQuery :: rest) =
      some (((lastError body).or error).elim
        (.ok (rows ++ body.filterMap BackendMessage.cells?)) .error, rest) := by
  induction body generalizing rows error with
  | nil => cases error <;> simp [Parser.consumeItems, queryStep, lastError]
  | cons m body ih =>
    obtain ⟨hm, hrest⟩ := List.forall_mem_cons.1 hbody
    have hstep : ∃ rows' error', queryStep (rows, error) m = .inl (rows', error') ∧
        rows' = rows ++ (m.cells?).toList ∧ error' = m.error?.or error := by
      cases m with
      | dataRow cells =>
        cases cells with
        | error e => cases hm
        | ok cells => exact ⟨_, _, rfl, rfl, rfl⟩
      | rowDescription | commandComplete | emptyQueryResponse | parameterStatus | noticeResponse
      | errorResponse => exact ⟨_, _, rfl, (List.append_nil _).symm, rfl⟩
      | _ => cases hm
    obtain ⟨rows', error', hstep, rfl, rfl⟩ := hstep
    rw [List.cons_append, Parser.consumeItems, hstep]
    dsimp only
    rw [ih hrest, lastError_cons, Option.or_assoc]
    cases hcells : m.cells? <;> simp [hcells]

section CopyOut

variable {σ : Type} {onChunk : σ → List UInt8 → Except Error Unit × σ}

/-- After an error the callback is not called. -/
theorem copyOutStep_failed {body : List BackendMessage} (hbody : ∀ m ∈ body, m.ofCopy = true)
    (x : σ) (e : Error) (rest : List BackendMessage) :
    Parser.consumeItems (copyOutStep onChunk) (x, some e) (body ++ .readyForQuery :: rest) =
      some ((.error ((lastError body).getD e), x), rest) := by
  induction body generalizing e with
  | nil => rfl
  | cons m body ih =>
    obtain ⟨hm, hrest⟩ := List.forall_mem_cons.1 hbody
    have hstep : copyOutStep onChunk (x, some e) m = .inl (x, some (m.error?.getD e)) := by
      cases m with
      | copyOutResponse | copyData | copyDone | commandComplete | parameterStatus | noticeResponse
      | errorResponse => rfl
      | _ => cases hm
    rw [List.cons_append, Parser.consumeItems, hstep]
    dsimp only
    rw [ih hrest, lastError_cons]
    cases lastError body <;> cases m.error? <;> rfl

/-- The end of `copy_out`. -/
theorem copyOutStep_answer {body : List BackendMessage} (hbody : ∀ m ∈ body, m.ofCopy = true)
    (x : σ) (rest : List BackendMessage) :
    Parser.consumeItems (copyOutStep onChunk) (x, none) (body ++ .readyForQuery :: rest) =
      some (copyAnswer onChunk x body, rest) := by
  induction body generalizing x with
  | nil => rfl
  | cons m body ih =>
    obtain ⟨hm, hrest⟩ := List.forall_mem_cons.1 hbody
    rw [List.cons_append]
    have hskip : copyOutStep onChunk (x, none) m = .inl (x, none) → m.error? = none →
        m.chunk? = none → Parser.consumeItems (copyOutStep onChunk) (x, none)
          (m :: (body ++ .readyForQuery :: rest)) =
        some (copyAnswer onChunk x (m :: body), rest) := by
      intro hstep herror hchunk
      rw [Parser.consumeItems, hstep]
      dsimp only
      rw [ih hrest]
      simp [copyAnswer, lastError_cons, chunksOf, herror, hchunk]
    cases m with
    | copyOutResponse | copyDone | commandComplete | parameterStatus | noticeResponse =>
      exact hskip rfl rfl rfl
    | copyData data =>
      have hchunks : chunksOf (.copyData data :: body) = data :: chunksOf body := rfl
      cases hcall : onChunk x data with
      | mk result x' =>
        cases result with
        | error e =>
          simp only [Parser.consumeItems, copyOutStep, hcall]
          rw [copyOutStep_failed hrest, copyAnswer, hchunks, lastError_cons]
          simp only [callBack, hcall]
          cases lastError body <;> rfl
        | ok u =>
          simp only [Parser.consumeItems, copyOutStep, hcall]
          rw [ih hrest, copyAnswer, copyAnswer, hchunks, lastError_cons]
          simp only [callBack, hcall]
          cases lastError body <;> rfl
    | errorResponse fields =>
      have hchunks : chunksOf (.errorResponse fields :: body) = [] := rfl
      simp only [Parser.consumeItems, copyOutStep]
      rw [copyOutStep_failed hrest, copyAnswer, hchunks, lastError_cons]
      simp only [callBack]
      cases lastError body <;> rfl
    | _ => cases hm

end CopyOut

/-! ## Many requests -/

inductive Call
  | query (sql : String)
  | copy (sql : String)

def Call.sql : Call → String
  | .query sql => sql
  | .copy sql => sql

/-- A message of the answer to the request. -/
def Call.admits : Call → BackendMessage → Bool
  | .query _ => BackendMessage.ofQuery
  | .copy _ => BackendMessage.ofCopy

section Requests

variable {σ : Type} (onChunk : σ → List UInt8 → Except Error Unit × σ)

/-- One request. A `COPY` has no rows. -/
def request (x : σ) (c : ReplConn) : Call → Option (Except Error (List Cells) × σ × ReplConn)
  | .query sql => (simpleQuery w sql c).map fun (r, c) => (r, x, c)
  | .copy sql => (copyOut w onChunk sql x c).map fun (r, x, c) => (r.map fun () => [], x, c)

/-- Requests on one connection, whatever becomes of them. -/
def requests : List Call → σ → ReplConn →
    Option (List (Except Error (List Cells)) × σ × ReplConn)
  | [], x, c => some ([], x, c)
  | call :: calls, x, c =>
    (request w onChunk x c call).bind fun (r, x, c) =>
      (requests calls x c).map fun (rs, x, c) => (r :: rs, x, c)

/-- The result of a request whose answer this is. -/
def Call.result (x : σ) (body : List BackendMessage) :
    Call → Except Error (List Cells) × σ
  | .query _ => (queryAnswer body, x)
  | .copy _ => ((copyAnswer onChunk x body).1.map fun () => [], (copyAnswer onChunk x body).2)

/-- The results of requests with their own answers. -/
def results : List (Call × List BackendMessage) → σ → List (Except Error (List Cells)) × σ
  | [], x => ([], x)
  | (call, body) :: exchanges, x =>
    let (r, x) := call.result onChunk x body
    let (rs, x) := results exchanges x
    (r :: rs, x)

variable {w} {onChunk}

theorem request_answered {c : ReplConn} (writes : ∀ sent r, w.send sent r = .ok ())
    (steady : c.conn.Steady) {call : Call} {body rest : List BackendMessage}
    (proper : ∀ m ∈ body, call.admits m = true) {tail : Tail UInt8 String}
    (answer : w.parser.items c.conn.unread = (body ++ .readyForQuery :: rest, tail)) (x : σ) :
    ∃ c', request w onChunk x c call =
        some ((call.result onChunk x body).1, (call.result onChunk x body).2, c') ∧
      c'.conn.Steady ∧ w.parser.items c'.conn.unread = (rest, tail) ∧
      c'.sent = c.sent ++ [.query call.sql] := by
  cases call with
  | query sql =>
    have hitems : Parser.consumeItems queryStep ([], none) (w.parser.items c.conn.unread).1 =
        some (queryAnswer body, rest) := by
      rw [answer, queryStep_answer proper, Option.or_none]
      rfl
    obtain ⟨conn, hconsume, hsteady, hrest⟩ := Parser.consume_items steady hitems
    refine ⟨⟨conn, c.sent ++ [.query sql]⟩, ?_, hsteady, ?_, rfl⟩
    · simp [request, simpleQuery, ReplConn.write, writes, hconsume, Call.result]
    · rw [hrest, answer]
  | copy sql =>
    have hitems : Parser.consumeItems (copyOutStep onChunk) (x, none)
        (w.parser.items c.conn.unread).1 = some (copyAnswer onChunk x body, rest) := by
      rw [answer, copyOutStep_answer proper]
    obtain ⟨conn, hconsume, hsteady, hrest⟩ := Parser.consume_items steady hitems
    refine ⟨⟨conn, c.sent ++ [.query sql]⟩, ?_, hsteady, ?_, rfl⟩
    · simp [request, copyOut, ReplConn.write, writes, hconsume, Call.result]
    · rw [hrest, answer]

/-- **Each request gets its own answer.** The upstream answers requests in their order, each up to a
`ReadyForQuery`, and with as many errors as it likes. Wherever the reads cut the bytes, the results
are those of the answers, and the connection is right behind the last one. -/
theorem requests_answered {exchanges : List (Call × List BackendMessage)} {c : ReplConn}
    {rest : List BackendMessage} {tail : Tail UInt8 String}
    (writes : ∀ sent r, w.send sent r = .ok ()) (steady : c.conn.Steady)
    (proper : ∀ p ∈ exchanges, ∀ m ∈ p.2, p.1.admits m = true)
    (answers : w.parser.items c.conn.unread =
      (exchanges.flatMap (fun p => p.2 ++ [.readyForQuery]) ++ rest, tail)) (x : σ) :
    ∃ c', requests w onChunk (exchanges.map Prod.fst) x c =
        some ((results onChunk exchanges x).1, (results onChunk exchanges x).2, c') ∧
      c'.conn.Steady ∧ w.parser.items c'.conn.unread = (rest, tail) ∧
      c'.sent = c.sent ++ exchanges.map fun p => .query p.1.sql := by
  induction exchanges generalizing x c with
  | nil => exact ⟨c, rfl, steady, answers, (List.append_nil _).symm⟩
  | cons p exchanges ih =>
    obtain ⟨call, body⟩ := p
    obtain ⟨hproper, hrest⟩ := List.forall_mem_cons.1 proper
    rw [List.flatMap_cons, List.append_assoc, List.append_assoc, List.singleton_append] at answers
    obtain ⟨c₁, hrequest, hsteady, hitems, hsent⟩ :=
      request_answered writes steady hproper answers x
    obtain ⟨c', hrequests, hsteady', hitems', hsent'⟩ := ih hsteady hrest hitems
      (call.result onChunk x body).2
    refine ⟨c', ?_, hsteady', hitems', ?_⟩
    · rw [List.map_cons, requests, hrequest, Option.bind_some]
      dsimp only
      rw [hrequests]
      rfl
    · rw [hsent', hsent, List.append_assoc]
      rfl

end Requests

/-! ## Three requests -/

/-- The cells of a row. -/
def decodeCells : Nat → List UInt8 → Except String (List (Option (List UInt8)))
  | 0, _ => .ok []
  | n + 1, a :: b :: c :: d :: rest =>
    let len := ByteReader.fromBe [a, b, c, d]
    if 2 ^ 31 ≤ len then (decodeCells n rest).map (none :: ·)
    else if len ≤ rest.length then
      (decodeCells n (rest.drop len)).map (some (rest.take len) :: ·)
    else .error "unexpected end of file"
  | _ + 1, _ => .error "unexpected end of file"

/-- The messages of answers. -/
def decodeAnswer (f : Frames.Frame) : Except String BackendMessage :=
  if f.tag = Decoder.byte 'T' then .ok .rowDescription
  else if f.tag = Decoder.byte 'D' then
    .ok (.dataRow (decodeCells (ByteReader.fromBe (f.body.take 2)) (f.body.drop 2)))
  else if f.tag = Decoder.byte 'C' then .ok .commandComplete
  else if f.tag = Decoder.byte 'E' then
    .ok (.errorResponse ((f.body.splitOn 0).filterMap fun
      | [] => none
      | t :: value => some (Char.ofNat t.toNat, (Decoder.fromUtf8 value).getD "")))
  else if f.tag = Decoder.byte 'H' then .ok .copyOutResponse
  else if f.tag = Decoder.byte 'd' then .ok (.copyData f.body)
  else if f.tag = Decoder.byte 'c' then .ok .copyDone
  else if f.tag = Decoder.byte 'Z' then .ok .readyForQuery
  else .error "unknown message tag"

def answeringWorld : World where
  parser := Frames.parser decodeAnswer "invalid message length"
  send _ _ := .ok ()
  timedOut := "timed out"

/-- A request that fails, one that has a row, and a `COPY`. -/
def exchangesSample : List (Call × List BackendMessage) :=
  [(.query "SELEC 1", [.errorResponse [('C', "42601"), ('M', "syntax error")]]),
    (.query "SHOW server_version_num",
      [.rowDescription, .dataRow (.ok [some (utf8 "150004")]), .commandComplete]),
    (.copy "COPY t TO STDOUT",
      [.copyOutResponse, .copyData (utf8 "7\n"), .copyDone, .commandComplete])]

/-- The answers. -/
def answerFrames : List Frames.Frame :=
  [⟨Decoder.byte 'E', Decoder.byte 'C' :: cstrBytes "42601" ++
      Decoder.byte 'M' :: cstrBytes "syntax error" ++ [0]⟩,
    ⟨Decoder.byte 'Z', [Decoder.byte 'I']⟩,
    ⟨Decoder.byte 'T', [0, 0]⟩, ⟨Decoder.byte 'D', [0, 1, 0, 0, 0, 6] ++ utf8 "150004"⟩,
    ⟨Decoder.byte 'C', cstrBytes "SHOW"⟩, ⟨Decoder.byte 'Z', [Decoder.byte 'I']⟩,
    ⟨Decoder.byte 'H', [0, 0, 0]⟩, ⟨Decoder.byte 'd', utf8 "7\n"⟩, ⟨Decoder.byte 'c', []⟩,
    ⟨Decoder.byte 'C', cstrBytes "COPY 1"⟩, ⟨Decoder.byte 'Z', [Decoder.byte 'I']⟩]

/-- The chunks are collected. -/
def collect (chunks : List (List UInt8)) (chunk : List UInt8) :
    Except Error Unit × List (List UInt8) :=
  (.ok (), chunks ++ [chunk])

/-- The bytes come in two pieces, and one of the messages is cut. -/
def answeringConn : ReplConn where
  conn :=
    { buf := []
      arrivals := [.chunk ((Frames.encodeAll answerFrames).take 50),
        .chunk ((Frames.encodeAll answerFrames).drop 50)] }
  sent := []

theorem requests_answered_cut : ∃ c', requests answeringWorld collect
    (exchangesSample.map Prod.fst) [] answeringConn =
      some ([.error (.database "42601" "syntax error" none none),
        .ok [[some (utf8 "150004")]], .ok []], [utf8 "7\n"], c') ∧ c'.sent.length = 3 := by
  have hdecode : answerFrames.map decodeAnswer =
      (exchangesSample.flatMap fun p => p.2 ++ [.readyForQuery]).map .ok := by decide +kernel
  have hfits : ∀ f ∈ answerFrames, f.Fits := by decide +kernel
  have hunread : answeringConn.conn.unread = Frames.encodeAll answerFrames ++ [] := by
    simp [answeringConn, Inflow.unread, text]
  have hanswers : answeringWorld.parser.items answeringConn.conn.unread =
      (exchangesSample.flatMap (fun p => p.2 ++ [.readyForQuery]) ++
        (answeringWorld.parser.items []).1, (answeringWorld.parser.items []).2) := by
    rw [hunread]
    exact Frames.items_encodeAll hfits hdecode []
  have hsteady : answeringConn.conn.Steady := by
    intro x hx
    simp only [answeringConn, List.mem_cons, List.not_mem_nil, or_false] at hx
    rcases hx with rfl | rfl
    · exact ⟨_, rfl⟩
    · exact ⟨_, rfl⟩
  have hproper : ∀ p ∈ exchangesSample, ∀ m ∈ p.2, p.1.admits m = true := by decide +kernel
  have hanswered : ∃ c', requests answeringWorld collect (exchangesSample.map Prod.fst) []
      answeringConn = some ((results collect exchangesSample []).1,
        (results collect exchangesSample []).2, c') ∧ c'.conn.Steady ∧ _ ∧ c'.sent = _ :=
    requests_answered (fun _ _ => rfl) hsteady hproper hanswers []
  obtain ⟨c', hrequests, -, -, hsent⟩ := hanswered
  have hresults : results collect exchangesSample [] =
      ([.error (.database "42601" "syntax error" none none),
        .ok [[some (Lossy.lossy (utf8 "150004"))]], .ok []], [utf8 "7\n"]) := rfl
  have hascii : Lossy.lossy (utf8 "150004") = utf8 "150004" := Lossy.lossy_ascii (by decide +kernel)
  refine ⟨c', ?_, by rw [hsent]; rfl⟩
  rw [hrequests, hresults, hascii]

end Pglite.Replica.Wire
