import Mathlib.Data.List.Forall2
import Pglite.Message
import Pglite.Replica.RowSql
import Pglite.Replica.TableDef

/-!
# Copying the tables

`copy_tables` of `src/replica/backfill.rs` copies each table with a `COPY` on the upstream and
`copy_in` calls on the local database. `copy_out` of `src/replica/wire.rs` reads the answer of the
upstream and calls back with each chunk; the callback collects chunks and copies them in when there
are enough of them.

**The log.** What was sent, read and copied in, in its order. The answers of both servers may depend
on all of it.

* `copyOutLoop_spec`: either everything went well, up to the `ReadyForQuery`, or something failed and
  nothing was copied in after that.
* `copyTables_spec`: the same for all of the tables.

`backfill_exact` is about a whole run.
-/

namespace Pglite.Replica

/-! ## The statements -/

namespace TableDef

variable (t : TableDef)

def target : String :=
  ident t.schema ++ "." ++ ident t.name

def colList : String :=
  ", ".intercalate (t.columnNames.map ident)

def copyInSql : String :=
  "COPY " ++ t.target ++ " (" ++ t.colList ++ ") FROM STDIN"

def copyOutSql : String :=
  match t.rowFilter with
  | some filter =>
    "COPY (SELECT " ++ t.colList ++ " FROM " ++ t.target ++ " WHERE " ++ filter ++ ") TO STDOUT"
  | none => "COPY " ++ t.target ++ " (" ++ t.colList ++ ") TO STDOUT"

end TableDef

namespace CopyTables

open Text

/-- `COPY_BATCH_BYTES`. -/
def copyBatchBytes : Nat := 2 ^ 20

/-! ## The log -/

/-- What `read_message` gives. -/
abbrev Item := Except Error Message

inductive Event
  /-- A query for the upstream was written. -/
  | queried (sql : String) (result : Except Error Unit)
  | received (item : Item)
  /-- A call of `copy_in`. -/
  | copied (sql : String) (payload : List UInt8) (result : Except Error Unit)

/-- How the two servers and the connections to them behave. -/
structure World where
  send : List Event → String → Except Error Unit
  copyIn : List Event → String → List UInt8 → Except Error Unit

/-- The batch that is being filled, and the log. -/
structure State where
  batch : List UInt8
  log : List Event

def State.note (s : State) (e : Event) : State := { s with log := s.log ++ [e] }

/-! ## The code -/

/-- The loop of `copy_out`, with the error it has seen so far. There is no result while it waits for
a message. -/
def copyOutLoop (onChunk : State → List UInt8 → Except Error Unit × State) :
    Option Error → State → List Item → Option (Except Error Unit × State × List Item)
  | _, _, [] => none
  | _, s, .error e :: rest => some (.error e, s.note (.received (.error e)), rest)
  | error, s, .ok m :: rest =>
    let s := s.note (.received (.ok m))
    match m with
    | .copyData data =>
      match error with
      | none =>
        match onChunk s data with
        | (.error e, s) => copyOutLoop onChunk (some e) s rest
        | (.ok (), s) => copyOutLoop onChunk none s rest
      | some e => copyOutLoop onChunk (some e) s rest
    | .copyOutResponse | .copyDone | .commandComplete _ | .parameterStatus | .noticeResponse =>
      copyOutLoop onChunk error s rest
    | .errorResponse fields => copyOutLoop onChunk (some (Error.fromErrorFields fields)) s rest
    | .readyForQuery _ =>
      match error with
      | some e => some (.error e, s, rest)
      | none => some (.ok (), s, rest)
    | _ => some (.error (.protocol "unexpected message during COPY OUT"), s, rest)

/-- `copy_out`. -/
def copyOut (w : World) (sql : String) (onChunk : State → List UInt8 → Except Error Unit × State)
    (s : State) (incoming : List Item) : Option (Except Error Unit × State × List Item) :=
  let result := w.send s.log sql
  let s := s.note (.queried sql result)
  match result with
  | .error e => some (.error e, s, incoming)
  | .ok () => copyOutLoop onChunk none s incoming

/-- `copy_in` of the batch. -/
def copyIn (w : World) (sql : String) (s : State) : Except Error Unit × State :=
  let result := w.copyIn s.log sql s.batch
  (result, s.note (.copied sql s.batch result))

/-- The callback of `copy_tables`. -/
def onChunk (w : World) (sql : String) (s : State) (chunk : List UInt8) :
    Except Error Unit × State :=
  let s := { s with batch := s.batch ++ chunk }
  if copyBatchBytes ≤ s.batch.length then
    match copyIn w sql s with
    | (.error e, s) => (.error e, s)
    | (.ok (), s) => (.ok (), { s with batch := [] })
  else (.ok (), s)

/-- The body of the loop of `copy_tables`. -/
def copyTable (w : World) (t : TableDef) (s : State) (incoming : List Item) :
    Option (Except Error Unit × State × List Item) :=
  match copyOut w t.copyOutSql (onChunk w t.copyInSql) { s with batch := [] } incoming with
  | none => none
  | some (.error e, s, rest) => some (.error e, s, rest)
  | some (.ok (), s, rest) =>
    if s.batch ≠ [] then
      let (result, s) := copyIn w t.copyInSql s
      some (result, s, rest)
    else some (.ok (), s, rest)

/-- `copy_tables`. -/
def copyTables (w : World) :
    List TableDef → State → List Item → Option (Except Error Unit × State × List Item)
  | [], s, incoming => some (.ok (), s, incoming)
  | t :: ts, s, incoming =>
    match copyTable w t s incoming with
    | none => none
    | some (.error e, s, rest) => some (.error e, s, rest)
    | some (.ok (), s, rest) => copyTables w ts s rest

/-! ## Reading the log -/

/-- A message that `copy_out` takes in its stride. -/
def isExpected : Message → Bool
  | .copyOutResponse | .copyData _ | .copyDone | .commandComplete _ | .parameterStatus
  | .noticeResponse | .readyForQuery _ => true
  | _ => false

def isReady : Item → Bool
  | .ok (.readyForQuery _) => true
  | _ => false

namespace Event

/-- The upstream fails, or the connection to it. -/
def upstreamFails : Event → Bool
  | .queried _ (.error _) | .received (.error _) => true
  | .received (.ok m) => !isExpected m
  | _ => false

def localFails : Event → Bool
  | .copied _ _ (.error _) => true
  | _ => false

def fails (e : Event) : Bool := e.upstreamFails || e.localFails

def isCopied : Event → Bool
  | .copied _ _ _ => true
  | _ => false

def isQueried : Event → Bool
  | .queried _ _ => true
  | _ => false

def item? : Event → Option Item
  | .received item => some item
  | _ => none

def chunk? : Event → Option (List UInt8)
  | .received (.ok (.copyData data)) => some data
  | _ => none

def payload? : Event → Option (List UInt8)
  | .copied _ payload _ => some payload
  | _ => none

end Event

/-- What was read. -/
def items (log : List Event) : List Item := log.filterMap Event.item?

/-- The chunks that were read. -/
def chunks (log : List Event) : List (List UInt8) := log.filterMap Event.chunk?

/-- The payloads of the calls of `copy_in`. -/
def payloads (log : List Event) : List (List UInt8) := log.filterMap Event.payload?

@[simp] theorem items_append (l l' : List Event) : items (l ++ l') = items l ++ items l' :=
  List.filterMap_append

@[simp] theorem chunks_append (l l' : List Event) : chunks (l ++ l') = chunks l ++ chunks l' :=
  List.filterMap_append

@[simp] theorem payloads_append (l l' : List Event) :
    payloads (l ++ l') = payloads l ++ payloads l' :=
  List.filterMap_append

@[simp] theorem items_received (item : Item) (l : List Event) :
    items (.received item :: l) = item :: items l := rfl

@[simp] theorem note_log (s : State) (e : Event) : (s.note e).log = s.log ++ [e] := rfl

@[simp] theorem note_batch (s : State) (e : Event) : (s.note e).batch = s.batch := rfl

/-! ## One answer of the upstream -/

/-- The answer was read to its end: up to the first `ReadyForQuery`. -/
def ReadToReady (log : List Event) : Prop :=
  ∃ before st, items log = before ++ [.ok (.readyForQuery st)] ∧ ∀ i ∈ before, isReady i = false

/-- The first failure, with nothing copied in after it. When the upstream did not fail, its last
answer was read to its end. -/
structure Failed (log : List Event) : Prop where
  first : ∃ before e after, log = before ++ e :: after ∧ (∀ x ∈ before, x.fails = false) ∧
    e.fails = true ∧ ∀ x ∈ after, x.isCopied = false
  drained : (∀ x ∈ log, x.upstreamFails = false) →
    ∃ item ∈ (items log).getLast?, isReady item = true

/-- The chunks in groups that were copied in one after the other, from some that were waiting before
to those that wait after. -/
def Grouped (waiting : List (List UInt8)) (log : List Event) (waiting' : List (List UInt8)) : Prop :=
  ∃ groups : List (List (List UInt8)), groups.map List.flatten = payloads log ∧
    groups.flatten ++ waiting' = waiting ++ chunks log

/-- Every call of `copy_in` is for this statement. -/
def ForSql (sql : String) (log : List Event) : Prop :=
  ∀ sql' payload result, .copied sql' payload result ∈ log → sql' = sql

/-- What reading an answer can do: all goes well, or something fails. -/
structure Outcome (sql : String) (waiting : List (List UInt8)) (read : List Event)
    (result : Except Error Unit) (batch : List UInt8) : Prop where
  sqls : ForSql sql read
  cases : (result = .ok () ∧ (∀ x ∈ read, x.fails = false) ∧ ReadToReady read ∧
      ∃ waiting', Grouped waiting read waiting' ∧ waiting'.flatten = batch) ∨
    ((∃ e, result = .error e) ∧ Failed read)

/-- While an error is pending the rest of the answer is read, and nothing is copied in. -/
theorem copyOutLoop_drains {f : State → List UInt8 → Except Error Unit × State} {e : Error}
    {s s' : State} {incoming rest : List Item} {result : Except Error Unit}
    (h : copyOutLoop f (some e) s incoming = some (result, s', rest)) :
    (∃ e', result = .error e') ∧ ∃ read, incoming = items read ++ rest ∧
      s'.log = s.log ++ read ∧ (∀ x ∈ read, x.isCopied = false) ∧
      ((∀ x ∈ read, x.upstreamFails = false) →
        ∃ item ∈ (items read).getLast?, isReady item = true) := by
  induction incoming generalizing e s with
  | nil => cases h
  | cons item incoming ih =>
    cases item with
    | error e' =>
      obtain ⟨rfl, rfl, rfl⟩ : .error e' = result ∧ s.note (.received (.error e')) = s' ∧
        incoming = rest := by simpa [copyOutLoop] using h
      refine ⟨⟨e', rfl⟩, [.received (.error e')], rfl, rfl, by simp [Event.isCopied], fun hall => ?_⟩
      exact absurd (hall _ List.mem_cons_self) (by simp [Event.upstreamFails])
    | ok m =>
      -- The turn reads one message and goes on, with some error pending.
      have hgo : ∀ e', copyOutLoop f (some e') (s.note (.received (.ok m))) incoming =
          some (result, s', rest) → (∃ e', result = .error e') ∧ ∃ read,
            .ok m :: incoming = items read ++ rest ∧ s'.log = s.log ++ read ∧
            (∀ x ∈ read, x.isCopied = false) ∧
            ((∀ x ∈ read, x.upstreamFails = false) →
              ∃ item ∈ (items read).getLast?, isReady item = true) := by
        intro e' he'
        obtain ⟨herror, read, hincoming, hlog, hcopied, hready⟩ := ih he'
        refine ⟨herror, .received (.ok m) :: read, ?_, ?_, ?_, ?_⟩
        · rw [items_received, List.cons_append, ← hincoming]
        · rw [hlog, note_log, List.append_assoc, List.singleton_append]
        · exact List.forall_mem_cons.2 ⟨rfl, hcopied⟩
        · intro hall
          obtain ⟨item, hitem, hisReady⟩ := hready (List.forall_mem_cons.1 hall).2
          refine ⟨item, ?_, hisReady⟩
          rw [items_received, List.getLast?_cons]
          rw [Option.mem_def] at hitem ⊢
          simp [hitem]
      cases m with
      | copyData | copyOutResponse | copyDone | commandComplete | parameterStatus
      | noticeResponse => exact hgo e h
      | errorResponse fields => exact hgo _ h
      | readyForQuery st =>
        obtain ⟨rfl, rfl, rfl⟩ : .error e = result ∧
          s.note (.received (.ok (.readyForQuery st))) = s' ∧ incoming = rest := by
            simpa [copyOutLoop] using h
        exact ⟨⟨e, rfl⟩, [.received (.ok (.readyForQuery st))], rfl, rfl, by simp [Event.isCopied],
          fun _ => ⟨_, rfl, rfl⟩⟩
      | _ =>
        obtain ⟨hresult, hlast⟩ := Prod.mk.inj (Option.some.inj h)
        obtain ⟨rfl, rfl⟩ := Prod.mk.inj hlast
        refine ⟨⟨_, hresult.symm⟩, [.received (.ok _)], rfl, rfl, by simp [Event.isCopied],
          fun hall => ?_⟩
        exact absurd (hall _ List.mem_cons_self) (by simp [Event.upstreamFails, isExpected])

theorem Grouped.trans {a b c : List (List UInt8)} {l l' : List Event} (h : Grouped a l b)
    (h' : Grouped b l' c) : Grouped a (l ++ l') c := by
  obtain ⟨groups, hpayloads, hchunks⟩ := h
  obtain ⟨groups', hpayloads', hchunks'⟩ := h'
  refine ⟨groups ++ groups', ?_, ?_⟩
  · rw [List.map_append, hpayloads, hpayloads', payloads_append]
  · rw [List.flatten_append, List.append_assoc, hchunks', ← List.append_assoc, hchunks,
      chunks_append, List.append_assoc]

theorem Failed.cons {pre log : List Event} (hpre : ∀ x ∈ pre, x.fails = false) (h : Failed log) :
    Failed (pre ++ log) := by
  obtain ⟨before, e, after, rfl, hbefore, he, hafter⟩ := h.first
  refine ⟨⟨pre ++ before, e, after, by simp, ?_, he, hafter⟩, fun hall => ?_⟩
  · intro x hx
    rcases List.mem_append.1 hx with hx | hx
    · exact hpre x hx
    · exact hbefore x hx
  · obtain ⟨item, hitem, hready⟩ := h.drained fun x hx => hall x (List.mem_append_right _ hx)
    refine ⟨item, ?_, hready⟩
    rw [Option.mem_def] at hitem ⊢
    rw [items_append, List.getLast?_append, hitem]
    rfl

/-- Some events before, that fail in nothing and end no answer. -/
theorem Outcome.after {sql : String} {a b : List (List UInt8)} {pre read : List Event}
    {result : Except Error Unit} {batch : List UInt8} (hsqls : ForSql sql pre)
    (hpre : ∀ x ∈ pre, x.fails = false) (hready : ∀ i ∈ items pre, isReady i = false)
    (hgroups : Grouped a pre b) (h : Outcome sql b read result batch) :
    Outcome sql a (pre ++ read) result batch := by
  refine ⟨fun sql' payload r hmem => ?_, ?_⟩
  · rcases List.mem_append.1 hmem with hmem | hmem
    · exact hsqls _ _ _ hmem
    · exact h.sqls _ _ _ hmem
  · rcases h.cases with ⟨hok, hfine, ⟨before, st, hitems, hbefore⟩, waiting', hgrouped, hbatch⟩ |
      ⟨herror, hfailed⟩
    · refine .inl ⟨hok, ?_, ⟨items pre ++ before, st, ?_, ?_⟩, waiting', hgroups.trans hgrouped, hbatch⟩
      · intro x hx
        rcases List.mem_append.1 hx with hx | hx
        · exact hpre x hx
        · exact hfine x hx
      · rw [items_append, hitems, List.append_assoc]
      · intro i hi
        rcases List.mem_append.1 hi with hi | hi
        · exact hready i hi
        · exact hbefore i hi
    · exact .inr ⟨herror, hfailed.cons hpre⟩

/-- What the callback does: it collects the chunk, or copies it in with those before it. -/
theorem onChunk_cases (w : World) (sql : String) (s : State) (chunk : List UInt8) :
    onChunk w sql s chunk = (.ok (), { s with batch := s.batch ++ chunk }) ∨
      onChunk w sql s chunk = (.ok (),
        ⟨[], s.log ++ [.copied sql (s.batch ++ chunk) (.ok ())]⟩) ∨
      ∃ e, onChunk w sql s chunk = (.error e,
        ⟨s.batch ++ chunk, s.log ++ [.copied sql (s.batch ++ chunk) (.error e)]⟩) := by
  unfold onChunk copyIn
  dsimp only
  by_cases hfull : copyBatchBytes ≤ (s.batch ++ chunk).length
  · rw [if_pos hfull]
    cases hresult : w.copyIn s.log sql (s.batch ++ chunk) with
    | ok => exact .inr (.inl rfl)
    | error e => exact .inr (.inr ⟨e, rfl⟩)
  · exact .inl (if_neg hfull)

/-- **Spec of the loop of `copy_out`** with the callback of `copy_tables`. -/
theorem copyOutLoop_spec {w : World} {sql : String} {s s' : State} {incoming rest : List Item}
    {result : Except Error Unit} {waiting : List (List UInt8)} (hbatch : waiting.flatten = s.batch)
    (h : copyOutLoop (onChunk w sql) none s incoming = some (result, s', rest)) :
    ∃ read, s'.log = s.log ++ read ∧ incoming = items read ++ rest ∧
      Outcome sql waiting read result s'.batch := by
  induction incoming generalizing s waiting with
  | nil => cases h
  | cons item incoming ih =>
    cases item with
    | error e =>
      obtain ⟨rfl, rfl, rfl⟩ : .error e = result ∧ s.note (.received (.error e)) = s' ∧
        incoming = rest := by simpa [copyOutLoop] using h
      refine ⟨[.received (.error e)], rfl, rfl, ⟨?_, .inr ⟨⟨e, rfl⟩, ?_, ?_⟩⟩⟩
      · intro sql' payload r hmem
        simp at hmem
      · exact ⟨[], _, [], rfl, by simp, rfl, by simp⟩
      · intro hall
        exact absurd (hall _ List.mem_cons_self) (by simp [Event.upstreamFails])
    | ok m =>
      -- A message that changes nothing.
      have hquiet : isExpected m = true → isReady (.ok m) = false →
          Event.chunk? (.received (.ok m)) = none →
          copyOutLoop (onChunk w sql) none (s.note (.received (.ok m))) incoming =
            some (result, s', rest) →
          ∃ read, s'.log = s.log ++ read ∧ .ok m :: incoming = items read ++ rest ∧
            Outcome sql waiting read result s'.batch := by
        intro hexpected hready hchunk hrun
        have hbatch' : waiting.flatten = (s.note (.received (.ok m))).batch := hbatch
        obtain ⟨read, hlog, hincoming, hout⟩ := ih hbatch' hrun
        refine ⟨[.received (.ok m)] ++ read, ?_, ?_, ?_⟩
        · rw [hlog, note_log, List.append_assoc]
        · rw [hincoming]
          rfl
        · refine hout.after (fun _ _ _ hmem => by simp at hmem) ?_ ?_ ⟨[], rfl, ?_⟩
          · simp [Event.fails, Event.upstreamFails, Event.localFails, hexpected]
          · simpa [items, Event.item?] using hready
          · simp [chunks, hchunk]
      cases m with
      | copyOutResponse | copyDone | commandComplete | parameterStatus | noticeResponse =>
        exact hquiet rfl rfl rfl h
      | copyData data =>
        have hfine : ∀ x ∈ [Event.received (.ok (.copyData data))], x.fails = false := by
          simp [Event.fails, Event.upstreamFails, Event.localFails, isExpected]
        have hfull : (waiting ++ [data]).flatten = s.batch ++ data := by simp [hbatch]
        rcases onChunk_cases w sql (s.note (.received (.ok (.copyData data)))) data with
          hchunk | hchunk | ⟨e, hchunk⟩
        · rw [copyOutLoop, hchunk] at h
          obtain ⟨read, hlog, hincoming, hout⟩ := ih hfull h
          refine ⟨[.received (.ok (.copyData data))] ++ read, ?_, ?_, ?_⟩
          · rw [hlog, note_log, List.append_assoc]
          · rw [hincoming]
            rfl
          · exact hout.after (fun _ _ _ hmem => by simp at hmem) hfine (by simp [items, Event.item?,
              isReady]) ⟨[], rfl, rfl⟩
        · rw [copyOutLoop, hchunk] at h
          have hempty : ([] : List (List UInt8)).flatten = [] := rfl
          obtain ⟨read, hlog, hincoming, hout⟩ := ih hempty h
          refine ⟨[.received (.ok (.copyData data)), .copied sql (s.batch ++ data) (.ok ())] ++ read,
            ?_, ?_, ?_⟩
          · rw [hlog]
            simp
          · rw [hincoming]
            rfl
          · refine hout.after (fun sql' p r hmem => ?_) ?_ (by simp [items, Event.item?, isReady])
              ⟨[waiting ++ [data]], ?_, by simp [chunks, Event.chunk?]⟩
            · simp only [List.mem_cons, List.not_mem_nil, or_false] at hmem
              rcases hmem with hmem | hmem
              · cases hmem
              · exact (Event.copied.inj hmem).1
            · simp [Event.fails, Event.upstreamFails, Event.localFails, isExpected]
            · rw [List.map_singleton, hfull]
              rfl
        · rw [copyOutLoop, hchunk] at h
          obtain ⟨herror, read, hincoming, hlog, hcopied, hready⟩ := copyOutLoop_drains h
          refine ⟨[.received (.ok (.copyData data)), .copied sql (s.batch ++ data) (.error e)] ++ read,
            ?_, ?_, ?_, .inr ⟨herror, ⟨[.received (.ok (.copyData data))], _, read, rfl, hfine, rfl,
              hcopied⟩, fun hall => ?_⟩⟩
          · rw [hlog]
            simp
          · rw [hincoming]
            rfl
          · intro sql' p r hmem
            rcases List.mem_append.1 hmem with hmem | hmem
            · simp only [List.mem_cons, List.not_mem_nil, or_false] at hmem
              rcases hmem with hmem | hmem
              · cases hmem
              · exact (Event.copied.inj hmem).1
            · exact absurd (hcopied _ hmem) (by simp [Event.isCopied])
          · obtain ⟨item, hitem, hisReady⟩ := hready fun x hx => hall x (List.mem_append_right _ hx)
            refine ⟨item, ?_, hisReady⟩
            rw [Option.mem_def] at hitem ⊢
            rw [items_append, List.getLast?_append, hitem]
            rfl
      | errorResponse fields =>
        obtain ⟨herror, read, hincoming, hlog, hcopied, -⟩ := copyOutLoop_drains h
        refine ⟨[.received (.ok (.errorResponse fields))] ++ read, ?_, ?_, ?_,
          .inr ⟨herror, ⟨[], _, read, rfl, by simp, rfl, hcopied⟩, fun hall => ?_⟩⟩
        · rw [hlog, note_log, List.append_assoc]
        · rw [hincoming]
          rfl
        · intro sql' p r hmem
          rcases List.mem_append.1 hmem with hmem | hmem
          · simp at hmem
          · exact absurd (hcopied _ hmem) (by simp [Event.isCopied])
        · exact absurd (hall _ List.mem_cons_self) (by simp [Event.upstreamFails, isExpected])
      | readyForQuery st =>
        obtain ⟨rfl, rfl, rfl⟩ : .ok () = result ∧
          s.note (.received (.ok (.readyForQuery st))) = s' ∧ incoming = rest := by
            simpa [copyOutLoop] using h
        refine ⟨[.received (.ok (.readyForQuery st))], rfl, rfl, ⟨?_, .inl ⟨rfl, ?_, ?_, ?_⟩⟩⟩
        · intro sql' payload r hmem
          simp at hmem
        · simp [Event.fails, Event.upstreamFails, Event.localFails, isExpected]
        · exact ⟨[], st, rfl, by simp⟩
        · exact ⟨waiting, ⟨[], rfl, by simp [chunks, Event.chunk?]⟩, hbatch⟩
      | _ =>
        obtain ⟨hresult, hlast⟩ := Prod.mk.inj (Option.some.inj h)
        obtain ⟨rfl, rfl⟩ := Prod.mk.inj hlast
        refine ⟨[.received (.ok _)], rfl, rfl, ⟨?_, .inr ⟨⟨_, hresult.symm⟩, ?_, ?_⟩⟩⟩
        · intro sql' payload r hmem
          simp at hmem
        · exact ⟨[], _, [], rfl, by simp, rfl, by simp⟩
        · intro hall
          exact absurd (hall _ List.mem_cons_self) (by simp [Event.upstreamFails, isExpected])

/-- While an answer is read, nothing else is asked. -/
theorem copyOutLoop_asks_nothing {w : World} {sql : String} {error : Option Error} {s s' : State}
    {incoming rest : List Item} {result : Except Error Unit}
    (h : copyOutLoop (onChunk w sql) error s incoming = some (result, s', rest)) :
    ∃ read, s'.log = s.log ++ read ∧ ∀ x ∈ read, x.isQueried = false := by
  induction incoming generalizing error s with
  | nil => cases h
  | cons item incoming ih =>
    -- The turn notes some events, none of them a query, and goes on.
    have hgo : ∀ {error s₁} (turn : List Event), s₁.log = s.log ++ turn →
        (∀ x ∈ turn, x.isQueried = false) →
        copyOutLoop (onChunk w sql) error s₁ incoming = some (result, s', rest) →
        ∃ read, s'.log = s.log ++ read ∧ ∀ x ∈ read, x.isQueried = false := by
      intro error s₁ turn hturn hquiet hrun
      obtain ⟨read, hlog, hread⟩ := ih hrun
      refine ⟨turn ++ read, by rw [hlog, hturn, List.append_assoc], fun x hx => ?_⟩
      exact (List.mem_append.1 hx).elim (hquiet x) (hread x)
    have hstop : ∀ {out : Except Error Unit}, some (out, s.note (.received item), incoming) =
        some (result, s', rest) →
        ∃ read, s'.log = s.log ++ read ∧ ∀ x ∈ read, x.isQueried = false := by
      intro out heq
      obtain ⟨-, rfl, -⟩ : out = result ∧ s.note (.received item) = s' ∧ incoming = rest := by
        simpa using heq
      exact ⟨[.received item], rfl, by simp [Event.isQueried]⟩
    cases item with
    | error e => exact hstop h
    | ok m =>
      have hquiet : ∀ x ∈ [Event.received (.ok m)], x.isQueried = false := by
        simp [Event.isQueried]
      cases m with
      | copyOutResponse | copyDone | commandComplete | parameterStatus | noticeResponse
      | errorResponse => exact hgo _ (note_log _ _) hquiet h
      | copyData data =>
        cases error with
        | some e => exact hgo _ (note_log _ _) hquiet h
        | none =>
          rw [copyOutLoop] at h
          rcases onChunk_cases w sql (s.note (.received (.ok (.copyData data)))) data with
            hchunk | hchunk | ⟨e, hchunk⟩
          · rw [hchunk] at h
            exact hgo [.received (.ok (.copyData data))] rfl hquiet h
          · rw [hchunk] at h
            exact hgo [.received (.ok (.copyData data)), .copied sql (s.batch ++ data) (.ok ())]
              (by simp) (by simp [Event.isQueried]) h
          · rw [hchunk] at h
            exact hgo [.received (.ok (.copyData data)), .copied sql (s.batch ++ data) (.error e)]
              (by simp) (by simp [Event.isQueried]) h
      | readyForQuery st =>
        cases error with
        | some e => exact hstop h
        | none => exact hstop h
      | _ => exact hstop h

/-! ## All of the tables -/

/-- What a table that was copied leaves in the log: its own query, and then the answer to that. The
payloads are the chunks one after the other, and each is made of whole chunks. -/
structure TablePart (t : TableDef) (part : List Event) : Prop where
  query : ∃ read, part = .queried t.copyOutSql (.ok ()) :: read ∧ ∀ x ∈ read, x.isQueried = false
  sqls : ForSql t.copyInSql part
  fine : ∀ x ∈ part, x.fails = false
  ready : ReadToReady part
  bytes : (payloads part).flatten = (chunks part).flatten
  whole : ∀ p ∈ payloads part, ∃ group, group <:+: chunks part ∧ p = group.flatten

theorem Grouped.bytes {log : List Event} {waiting : List (List UInt8)}
    (h : Grouped [] log waiting) (hleft : waiting.flatten = []) :
    (payloads log).flatten = (chunks log).flatten := by
  obtain ⟨groups, hpayloads, hchunks⟩ := h
  rw [List.nil_append] at hchunks
  rw [← hpayloads, ← hchunks, List.flatten_append, hleft, List.append_nil, List.flatten_flatten]

theorem Grouped.whole {log : List Event} {waiting : List (List UInt8)}
    (h : Grouped [] log waiting) :
    ∀ p ∈ payloads log, ∃ group, group <:+: chunks log ∧ p = group.flatten := by
  obtain ⟨groups, hpayloads, hchunks⟩ := h
  rw [List.nil_append] at hchunks
  intro p hp
  rw [← hpayloads] at hp
  obtain ⟨group, hgroup, rfl⟩ := List.mem_map.1 hp
  obtain ⟨before, after, rfl⟩ := List.append_of_mem hgroup
  refine ⟨group, ⟨before.flatten, after.flatten ++ waiting, ?_⟩, rfl⟩
  rw [← hchunks]
  simp

theorem Failed.append {log : List Event} {e : Event} (hfine : ∀ x ∈ log, x.fails = false)
    (he : e.fails = true) (hitem : items [e] = []) (hready : ReadToReady log) :
    Failed (log ++ [e]) := by
  refine ⟨⟨log, e, [], rfl, hfine, he, by simp⟩, fun _ => ?_⟩
  obtain ⟨before, st, hitems, -⟩ := hready
  refine ⟨.ok (.readyForQuery st), ?_, rfl⟩
  rw [items_append, hitem, hitems]
  simp

/-- **Spec of `copy_out`** with the callback of `copy_tables` and an empty batch. -/
theorem copyOut_spec {w : World} {sql outSql : String} {log : List Event} {s' : State}
    {incoming rest : List Item} {result : Except Error Unit}
    (h : copyOut w outSql (onChunk w sql) ⟨[], log⟩ incoming = some (result, s', rest)) :
    ∃ read, s'.log = log ++ .queried outSql (w.send log outSql) :: read ∧
      incoming = items read ++ rest ∧ (∀ x ∈ read, x.isQueried = false) ∧
      Outcome sql [] (.queried outSql (w.send log outSql) :: read) result s'.batch := by
  unfold copyOut at h
  dsimp only at h
  cases hsend : w.send log outSql with
  | error e =>
    rw [hsend] at h
    obtain ⟨rfl, rfl, rfl⟩ : .error e = result ∧
      State.note ⟨[], log⟩ (.queried outSql (.error e)) = s' ∧ incoming = rest := by simpa using h
    refine ⟨[], rfl, rfl, by simp, ⟨?_, .inr ⟨⟨e, rfl⟩, ?_, fun hall => ?_⟩⟩⟩
    · intro sql' p r hmem
      simp at hmem
    · exact ⟨[], _, [], rfl, by simp, rfl, by simp⟩
    · exact absurd (hall _ List.mem_cons_self) (by simp [Event.upstreamFails])
  | ok =>
    rw [hsend] at h
    have hempty : ([] : List (List UInt8)).flatten =
        (State.note ⟨[], log⟩ (.queried outSql (.ok ()))).batch := rfl
    obtain ⟨read, hlog, hincoming, hout⟩ := copyOutLoop_spec hempty h
    obtain ⟨read', hlog', hquiet⟩ := copyOutLoop_asks_nothing h
    obtain rfl : read = read' := List.append_cancel_left (hlog.symm.trans hlog')
    have hnone : Grouped [] [.queried outSql (.ok ())] [] := ⟨[], rfl, rfl⟩
    have hsqls : ForSql sql [.queried outSql (.ok ())] := by
      intro sql' p r hmem
      simp at hmem
    have hfine : ∀ x ∈ [Event.queried outSql (.ok ())], x.fails = false := by
      simp [Event.fails, Event.upstreamFails, Event.localFails]
    refine ⟨read, ?_, hincoming, hquiet, hout.after hsqls hfine (by simp [items, Event.item?]) hnone⟩
    rw [hlog, note_log, List.append_assoc, List.singleton_append]

/-- **Spec of the turn of a table.** -/
theorem copyTable_spec {w : World} {t : TableDef} {s s' : State} {incoming rest : List Item}
    {result : Except Error Unit} (h : copyTable w t s incoming = some (result, s', rest)) :
    ∃ part, s'.log = s.log ++ part ∧ incoming = items part ++ rest ∧
      ((result = .ok () ∧ TablePart t part) ∨ ((∃ e, result = .error e) ∧ Failed part)) := by
  unfold copyTable at h
  cases hout : copyOut w t.copyOutSql (onChunk w t.copyInSql) ⟨[], s.log⟩ incoming with
  | none =>
    rw [hout] at h
    cases h
  | some out =>
    obtain ⟨result₁, s₁, rest₁⟩ := out
    rw [hout] at h
    obtain ⟨read, hlog, hincoming, hquiet, hsqls, hcases⟩ := copyOut_spec hout
    have hitems : items read = items (.queried t.copyOutSql (w.send s.log t.copyOutSql) :: read) :=
      rfl
    rw [hitems] at hincoming
    rcases hcases with
      ⟨rfl, hfine, hready, waiting, hgrouped, hbatch⟩ | ⟨⟨e, rfl⟩, hfailed⟩
    · cases hsend : w.send s.log t.copyOutSql with
      | error e =>
        rw [hsend] at hfine
        exact absurd (hfine _ List.mem_cons_self) (by simp [Event.fails, Event.upstreamFails])
      | ok =>
      rw [hsend] at hlog hincoming hsqls hfine hready hgrouped
      dsimp only at h
      by_cases hleft : s₁.batch ≠ []
      · rw [if_pos hleft] at h
        obtain ⟨rfl, rfl, rfl⟩ : w.copyIn s₁.log t.copyInSql s₁.batch = result ∧
          s₁.note (.copied t.copyInSql s₁.batch (w.copyIn s₁.log t.copyInSql s₁.batch)) = s' ∧
          rest₁ = rest := by simpa [copyIn] using h
        refine ⟨(.queried t.copyOutSql (.ok ()) :: read) ++
          [.copied t.copyInSql s₁.batch (w.copyIn s₁.log t.copyInSql s₁.batch)], ?_, ?_, ?_⟩
        · rw [note_log, hlog, List.append_assoc]
        · rw [hincoming, items_append]
          simp [items, Event.item?]
        · cases hresult : w.copyIn s₁.log t.copyInSql s₁.batch with
          | error e => exact .inr ⟨⟨e, rfl⟩, .append hfine rfl rfl hready⟩
          | ok =>
            have hlast : Grouped waiting [.copied t.copyInSql s₁.batch (.ok ())] [] := by
              refine ⟨[waiting], ?_, by simp [chunks, Event.chunk?]⟩
              rw [List.map_singleton, hbatch]
              rfl
            refine .inl ⟨rfl, ⟨_, rfl, ?_⟩, ?_, ?_, ?_, (hgrouped.trans hlast).bytes rfl,
              (hgrouped.trans hlast).whole⟩
            · intro x hx
              rcases List.mem_append.1 hx with hx | hx
              · exact hquiet x hx
              · rw [List.mem_singleton.1 hx]
                rfl
            · intro sql' p r hmem
              rcases List.mem_append.1 hmem with hmem | hmem
              · exact hsqls _ _ _ hmem
              · exact (Event.copied.inj (List.mem_singleton.1 hmem)).1
            · intro x hx
              rcases List.mem_append.1 hx with hx | hx
              · exact hfine x hx
              · rw [List.mem_singleton.1 hx]
                rfl
            · obtain ⟨before, st, hbeforeReady, hbefore⟩ := hready
              refine ⟨before, st, ?_, hbefore⟩
              rw [items_append, hbeforeReady]
              simp [items, Event.item?]
      · rw [if_neg hleft] at h
        obtain ⟨rfl, rfl, rfl⟩ : .ok () = result ∧ s₁ = s' ∧ rest₁ = rest := by simpa using h
        have hempty : waiting.flatten = [] := hbatch.trans (not_not.1 hleft)
        exact ⟨_, hlog, hincoming, .inl ⟨rfl, ⟨read, rfl, hquiet⟩, hsqls, hfine, hready,
          hgrouped.bytes hempty, hgrouped.whole⟩⟩
    · obtain ⟨rfl, rfl, rfl⟩ : .error e = result ∧ s₁ = s' ∧ rest₁ = rest := by simpa using h
      exact ⟨_, hlog, hincoming, .inr ⟨⟨e, rfl⟩, hfailed⟩⟩

/-- **Spec of `copy_tables`.** -/
theorem copyTables_spec {w : World} {ts : List TableDef} {s s' : State} {incoming rest : List Item}
    {result : Except Error Unit} (h : copyTables w ts s incoming = some (result, s', rest)) :
    ∃ parts : List (List Event), s'.log = s.log ++ parts.flatten ∧
      incoming = items parts.flatten ++ rest ∧
      ((result = .ok () ∧ List.Forall₂ TablePart ts parts) ∨
        ((∃ e, result = .error e) ∧ Failed parts.flatten)) := by
  induction ts generalizing s incoming with
  | nil =>
    obtain ⟨rfl, rfl, rfl⟩ : .ok () = result ∧ s = s' ∧ incoming = rest := by
      simpa [copyTables] using h
    exact ⟨[], by simp, rfl, .inl ⟨rfl, .nil⟩⟩
  | cons t ts ih =>
    rw [copyTables] at h
    cases hturn : copyTable w t s incoming with
    | none =>
      rw [hturn] at h
      cases h
    | some out =>
      obtain ⟨result₁, s₁, rest₁⟩ := out
      rw [hturn] at h
      obtain ⟨part, hlog, hincoming, ⟨rfl, hpart⟩ | ⟨⟨e, rfl⟩, hfailed⟩⟩ := copyTable_spec hturn
      · obtain ⟨parts, hlog', hincoming', hcases⟩ := ih h
        refine ⟨part :: parts, ?_, ?_, ?_⟩
        · rw [hlog', hlog, List.flatten_cons, List.append_assoc]
        · rw [hincoming, hincoming', List.flatten_cons, items_append, List.append_assoc]
        · rcases hcases with ⟨rfl, hparts⟩ | ⟨herror, hfailed⟩
          · exact .inl ⟨rfl, .cons hpart hparts⟩
          · exact .inr ⟨herror, hfailed.cons hpart.fine⟩
      · obtain ⟨rfl, rfl, rfl⟩ : .error e = result ∧ s₁ = s' ∧ rest₁ = rest := by simpa using h
        exact ⟨[part], by simpa using hlog, by simpa using hincoming,
          .inr ⟨⟨e, rfl⟩, by simpa using hfailed⟩⟩

/-! ## The answers -/

/-- The answer to one query: all that comes up to its `ReadyForQuery`. -/
def IsAnswer (answer : List Item) : Prop :=
  ∃ before st, answer = before ++ [.ok (.readyForQuery st)] ∧ ∀ i ∈ before, isReady i = false

theorem ReadToReady.isAnswer {log : List Event} (h : ReadToReady log) : IsAnswer (items log) := h

/-- An answer is no part of what comes before the end of another. -/
theorem IsAnswer.not_prefix {answer answer' more : List Item} (h : IsAnswer answer)
    (h' : IsAnswer answer') (heq : answer' = answer ++ more) : more = [] := by
  obtain ⟨before, st, rfl, -⟩ := h
  obtain ⟨before', st', rfl, hbefore'⟩ := h'
  rcases List.eq_nil_or_concat more with rfl | ⟨more, last, rfl⟩
  · rfl
  · rw [List.concat_eq_append, ← List.append_assoc] at heq
    have hmem : .ok (.readyForQuery st) ∈ before' := by
      rw [List.append_inj_left' heq rfl]
      simp
    exact absurd (hbefore' _ hmem) (by simp [isReady])

/-- What is read is cut into answers in one way. -/
theorem IsAnswer.append_inj {answer answer' more more' : List Item} (h : IsAnswer answer)
    (h' : IsAnswer answer') (heq : answer ++ more = answer' ++ more') :
    answer = answer' ∧ more = more' := by
  rcases List.append_eq_append_iff.1 heq with ⟨mid, hanswer, hmore⟩ | ⟨mid, hanswer, hmore⟩
  · obtain rfl := h.not_prefix h' hanswer
    simp_all
  · obtain rfl := h'.not_prefix h hanswer
    simp_all

theorem answers_unique {answers answers' : List (List Item)} {more more' : List Item}
    (h : ∀ a ∈ answers, IsAnswer a) (h' : ∀ a ∈ answers', IsAnswer a)
    (hlen : answers.length = answers'.length)
    (heq : answers.flatten ++ more = answers'.flatten ++ more') :
    answers = answers' ∧ more = more' := by
  induction answers generalizing answers' with
  | nil =>
    obtain rfl := List.length_eq_zero_iff.1 hlen.symm
    exact ⟨rfl, heq⟩
  | cons a answers ih =>
    cases answers' with
    | nil => cases hlen
    | cons a' answers' =>
      rw [List.flatten_cons, List.flatten_cons, List.append_assoc, List.append_assoc] at heq
      obtain ⟨ha, hanswers⟩ := List.forall_mem_cons.1 h
      obtain ⟨ha', hanswers'⟩ := List.forall_mem_cons.1 h'
      obtain ⟨rfl, htail⟩ := ha.append_inj ha' heq
      obtain ⟨rfl, rfl⟩ := ih hanswers hanswers' (Nat.succ.inj hlen) htail
      exact ⟨rfl, rfl⟩

/-! ## Every run comes to its end -/

/-- The upstream answers this many queries, or the connection breaks. -/
def Enough (n : Nat) (incoming : List Item) : Prop :=
  (∃ e, .error e ∈ incoming) ∨ n ≤ incoming.countP isReady

theorem copyOutLoop_isSome {f : State → List UInt8 → Except Error Unit × State}
    {error : Option Error} {s : State} {incoming : List Item} (h : Enough 1 incoming) :
    ∃ out, copyOutLoop f error s incoming = some out := by
  induction incoming generalizing error s with
  | nil => simp [Enough] at h
  | cons item incoming ih =>
    cases item with
    | error e => exact ⟨_, rfl⟩
    | ok m =>
      have hmore : isReady (.ok m) = false → Enough 1 incoming := by
        intro hm
        simpa [Enough, List.countP_cons, hm] using h
      cases m with
      | copyOutResponse | copyDone | commandComplete | parameterStatus | noticeResponse
      | errorResponse => exact ih (hmore rfl)
      | copyData data =>
        cases error with
        | some e => exact ih (hmore rfl)
        | none =>
          rw [copyOutLoop]
          rcases f (s.note (.received (.ok (.copyData data)))) data with ⟨_ | _, s'⟩
          · exact ih (hmore rfl)
          · exact ih (hmore rfl)
      | readyForQuery st =>
        cases error with
        | some e => exact ⟨_, rfl⟩
        | none => exact ⟨_, rfl⟩
      | _ => exact ⟨_, rfl⟩

theorem copyTable_isSome {w : World} {t : TableDef} {s : State} {incoming : List Item}
    (h : Enough 1 incoming) : ∃ out, copyTable w t s incoming = some out := by
  unfold copyTable copyOut
  dsimp only
  cases w.send s.log t.copyOutSql with
  | error e => exact ⟨_, rfl⟩
  | ok =>
    obtain ⟨⟨result, s', rest⟩, hout⟩ := copyOutLoop_isSome h
    dsimp only
    rw [hout]
    cases result with
    | error e => exact ⟨_, rfl⟩
    | ok =>
      dsimp only
      split
      · exact ⟨_, rfl⟩
      · exact ⟨_, rfl⟩

theorem TablePart.enough {t : TableDef} {part : List Event} {n : Nat} {rest : List Item}
    (h : TablePart t part) (henough : Enough (n + 1) (items part ++ rest)) : Enough n rest := by
  obtain ⟨before, st, hitems, hbefore⟩ := h.ready
  rcases henough with ⟨e, hmem⟩ | hcount
  · rcases List.mem_append.1 hmem with hmem | hmem
    · obtain ⟨x, hx, hitem⟩ := List.mem_filterMap.1 hmem
      obtain rfl : x = .received (.error e) := by
        cases x with
        | received item => exact congrArg _ (Option.some.inj hitem)
        | queried | copied => cases hitem
      exact absurd (h.fine _ hx) (by simp [Event.fails, Event.upstreamFails])
    · exact .inl ⟨e, hmem⟩
  · refine .inr ?_
    have hone : (items part).countP isReady = 1 := by
      rw [hitems, List.countP_append, List.countP_eq_zero.2 fun i hi => by simp [hbefore i hi]]
      rfl
    rw [List.countP_append, hone] at hcount
    omega

theorem copyTables_isSome {w : World} {ts : List TableDef} {s : State} {incoming : List Item}
    (h : Enough ts.length incoming) : ∃ out, copyTables w ts s incoming = some out := by
  induction ts generalizing s incoming with
  | nil => exact ⟨_, rfl⟩
  | cons t ts ih =>
    have hone : Enough 1 incoming := by
      refine h.imp_right fun hcount => ?_
      rw [List.length_cons] at hcount
      omega
    obtain ⟨⟨result, s', rest⟩, hout⟩ := copyTable_isSome (w := w) (t := t) (s := s) hone
    obtain ⟨part, -, rfl, ⟨rfl, hpart⟩ | ⟨⟨e, rfl⟩, -⟩⟩ := copyTable_spec hout
    · obtain ⟨out, hrun⟩ := ih (s := s') (hpart.enough h)
      exact ⟨out, by rw [copyTables, hout]; exact hrun⟩
    · exact ⟨_, by rw [copyTables, hout]⟩

/-! ## The statements of distinct tables -/

/-- Distinct tables are copied in with distinct statements. -/
theorem copyInSql_ne {t u : TableDef} (h : t.key ≠ u.key) : t.copyInSql ≠ u.copyInSql := by
  intro heq
  have htext := congrArg String.toList heq
  simp only [TableDef.copyInSql, TableDef.target, ident, String.toList_append, double_toList,
    List.append_assoc] at htext
  have hquote : "\"".toList = [quote] := by decide +kernel
  have hdot : ".".toList = ['.'] := by decide +kernel
  have hopen : " (".toList = [' ', '('] := by decide +kernel
  simp only [hquote, hdot, hopen, List.append_cancel_left_eq, List.cons.injEq,
    true_and, List.cons_append, List.nil_append] at htext
  obtain ⟨hschema, htext⟩ := doubled_append_inj (by simp [quote]) (by simp [quote]) htext
  simp only [List.cons.injEq, true_and] at htext
  obtain ⟨hname, -⟩ := doubled_append_inj (by simp [quote]) (by simp [quote]) htext
  exact h (Prod.ext (String.toList_inj.1 hschema) (String.toList_inj.1 hname))

/-! ## A whole run -/

/-- The payloads of the calls of `copy_in` with this statement. -/
def payloadsFor (sql : String) (log : List Event) : List (List UInt8) :=
  log.filterMap fun
    | .copied sql' payload _ => if sql' = sql then some payload else none
    | _ => none

/-- The chunks of an answer. -/
def answerChunks (answer : List Item) : List (List UInt8) :=
  answer.filterMap fun
    | .ok (.copyData data) => some data
    | _ => none

/-- These bytes are some rows, one after the other. -/
def MadeOf (IsRow : List UInt8 → Prop) (bytes : List UInt8) : Prop :=
  ∃ rows : List (List UInt8), (∀ row ∈ rows, IsRow row) ∧ rows.flatten = bytes

/-- What is read after this query, with no other query before its end, is this answer. -/
def Answers (log : List Event) (sql : String) (answer : List Item) : Prop :=
  ∃ before read after, log = before ++ .queried sql (.ok ()) :: read ++ after ∧
    (∀ x ∈ read, x.isQueried = false) ∧ items read = answer

/-- What was copied in for this table in a whole run is the answer to its own query: the same bytes
in the same order, in payloads of whole chunks. -/
structure CopiedExactly (log : List Event) (t : TableDef) (answer : List Item) : Prop where
  isAnswer : IsAnswer answer
  answers : Answers log t.copyOutSql answer
  bytes : (payloadsFor t.copyInSql log).flatten = (answerChunks answer).flatten
  whole : ∀ p ∈ payloadsFor t.copyInSql log, ∃ group, group <:+: answerChunks answer ∧
    p = group.flatten
  rows : ∀ IsRow, (∀ chunk ∈ answerChunks answer, MadeOf IsRow chunk) →
    ∀ p ∈ payloadsFor t.copyInSql log, MadeOf IsRow p

@[simp] theorem payloadsFor_append (sql : String) (l l' : List Event) :
    payloadsFor sql (l ++ l') = payloadsFor sql l ++ payloadsFor sql l' :=
  List.filterMap_append

theorem answerChunks_items (log : List Event) : answerChunks (items log) = chunks log := by
  induction log with
  | nil => rfl
  | cons x log ih =>
    cases x with
    | queried | copied => exact ih
    | received item =>
      rw [items_received]
      cases item with
      | error e => exact ih
      | ok m =>
        cases m with
        | copyData data => exact congrArg (data :: ·) ih
        | _ => exact ih

theorem ForSql.payloadsFor_self {sql : String} {log : List Event} (h : ForSql sql log) :
    payloadsFor sql log = payloads log := by
  refine List.filterMap_congr fun x hx => ?_
  cases x with
  | queried | received => rfl
  | copied sql' p r => exact if_pos (h _ _ _ hx)

theorem ForSql.payloadsFor_ne {sql sql' : String} {log : List Event} (h : ForSql sql log)
    (hne : sql ≠ sql') : payloadsFor sql' log = [] := by
  refine List.filterMap_eq_nil_iff.2 fun x hx => ?_
  cases x with
  | queried | received => rfl
  | copied sql'' p r => exact if_neg fun heq => hne ((h _ _ _ hx).symm.trans heq)

theorem MadeOf.flatten {IsRow : List UInt8 → Prop} {group : List (List UInt8)}
    (h : ∀ chunk ∈ group, MadeOf IsRow chunk) : MadeOf IsRow group.flatten := by
  induction group with
  | nil => exact ⟨[], by simp, rfl⟩
  | cons chunk group ih =>
    obtain ⟨⟨rows, hrows, rfl⟩, hgroup⟩ := List.forall_mem_cons.1 h
    obtain ⟨rows', hrows', heq⟩ := ih hgroup
    refine ⟨rows ++ rows', fun row hrow => ?_, by rw [List.flatten_append, heq, List.flatten_cons]⟩
    exact (List.mem_append.1 hrow).elim (hrows row) (hrows' row)

/-- The other tables leave nothing for this statement. -/
theorem payloadsFor_parts {ts : List TableDef} {parts : List (List Event)} {sql : String}
    (h : List.Forall₂ TablePart ts parts) (hne : ∀ t ∈ ts, t.copyInSql ≠ sql) :
    payloadsFor sql parts.flatten = [] := by
  induction h with
  | nil => rfl
  | cons hpart hparts ih =>
    obtain ⟨ht, hts⟩ := List.forall_mem_cons.1 hne
    rw [List.flatten_cons, payloadsFor_append, hpart.sqls.payloadsFor_ne ht, ih hts]
    rfl

/-- Each table finds its own part in the whole log. -/
theorem copiedExactly_of_parts {ts : List TableDef} {parts : List (List Event)}
    (h : List.Forall₂ TablePart ts parts) (hkeys : (ts.map TableDef.key).Nodup)
    (before : List Event) (hbefore : ∀ t ∈ ts, payloadsFor t.copyInSql before = []) :
    List.Forall₂ (CopiedExactly (before ++ parts.flatten)) ts (parts.map items) := by
  induction h generalizing before with
  | nil => exact .nil
  | @cons t part ts parts hpart hparts ih =>
    obtain ⟨hnot, hkeys⟩ := List.nodup_cons.1 hkeys
    have hne : ∀ u ∈ ts, u.copyInSql ≠ t.copyInSql := fun u hu =>
      copyInSql_ne fun hkey => hnot (hkey ▸ List.mem_map_of_mem hu)
    obtain ⟨hbefore, hbeforeTail⟩ := List.forall_mem_cons.1 hbefore
    have hpayloads : payloadsFor t.copyInSql (before ++ (part :: parts).flatten) =
        payloads part := by
      rw [payloadsFor_append, hbefore, List.flatten_cons, payloadsFor_append,
        hpart.sqls.payloadsFor_self, payloadsFor_parts hparts hne, List.append_nil, List.nil_append]
    have htail := ih hkeys (before ++ part) fun u hu => by
      rw [payloadsFor_append, hbeforeTail u hu, hpart.sqls.payloadsFor_ne (hne u hu).symm]
      rfl
    rw [List.append_assoc, ← List.flatten_cons] at htail
    refine .cons ⟨hpart.ready, ?_, ?_, ?_, ?_⟩ htail
    · obtain ⟨read, rfl, hquiet⟩ := hpart.query
      exact ⟨before, read, parts.flatten, by simp, hquiet, rfl⟩
    · rw [hpayloads, hpart.bytes, answerChunks_items]
    · rw [hpayloads, answerChunks_items]
      exact hpart.whole
    · rw [hpayloads, answerChunks_items]
      intro IsRow hrows p hp
      obtain ⟨group, hgroup, rfl⟩ := hpart.whole p hp
      exact .flatten fun chunk hchunk => hrows chunk (hgroup.subset hchunk)

/-- Nothing is copied in after any failure. -/
theorem Failed.nothing_after {before after : List Event} {x : Event}
    (h : Failed (before ++ x :: after)) (hx : x.fails = true) : ∀ y ∈ after, y.isCopied = false := by
  obtain ⟨before', x', after', heq, hbefore, hx', hafter⟩ := h.first
  rcases List.append_eq_append_iff.1 heq with ⟨mid, hmid, hrest⟩ | ⟨mid, hmid, hrest⟩
  · cases mid with
    | nil =>
      obtain ⟨-, rfl⟩ := List.cons.inj hrest
      exact hafter
    | cons y mid =>
      -- It would be before the first failure.
      obtain ⟨rfl, -⟩ := List.cons.inj hrest
      exact absurd (hbefore x (by rw [hmid]; simp)) (by simp [hx])
  · cases mid with
    | nil =>
      obtain ⟨-, rfl⟩ := List.cons.inj hrest
      exact hafter
    | cons y mid =>
      obtain ⟨-, rfl⟩ := List.cons.inj hrest
      exact fun y hy => hafter y (List.mem_append_right _ (List.mem_cons_of_mem _ hy))

theorem fine_of_parts {ts : List TableDef} {parts : List (List Event)}
    (h : List.Forall₂ TablePart ts parts) : ∀ x ∈ parts.flatten, x.fails = false := by
  induction h with
  | nil => exact fun _ hx => absurd hx List.not_mem_nil
  | cons hpart _ ih =>
    intro x hx
    rw [List.flatten_cons] at hx
    exact (List.mem_append.1 hx).elim (hpart.fine x) (ih x)

theorem answers_of_parts {ts : List TableDef} {parts : List (List Event)}
    (h : List.Forall₂ TablePart ts parts) : ∀ a ∈ parts.map items, IsAnswer a := by
  induction h with
  | nil => exact fun _ ha => absurd ha List.not_mem_nil
  | cons hpart _ ih => exact List.forall_mem_cons.2 ⟨hpart.ready.isAnswer, ih⟩

/-- **Every run copies each row once, or fails and stops copying.** The answers of the upstream are
those of the tables' own queries, and what comes in can be cut into answers in no other way. -/
theorem backfill_exact (w : World) (ts : List TableDef) (hkeys : (ts.map TableDef.key).Nodup)
    (incoming : List Item) :
    (Enough ts.length incoming → ∃ out, copyTables w ts ⟨[], []⟩ incoming = some out) ∧
      ∀ result s rest, copyTables w ts ⟨[], []⟩ incoming = some (result, s, rest) →
        incoming = items s.log ++ rest ∧
        (result = .ok () → ∃ answers : List (List Item), incoming = answers.flatten ++ rest ∧
          List.Forall₂ (CopiedExactly s.log) ts answers ∧
          ∀ answers' more, (∀ a ∈ answers', IsAnswer a) → answers'.length = ts.length →
            incoming = answers'.flatten ++ more → answers' = answers ∧ more = rest) ∧
        ((∃ x ∈ s.log, x.fails = true) → ∃ e, result = .error e) ∧
        (∀ before x after, s.log = before ++ x :: after → x.fails = true →
          ∀ y ∈ after, y.isCopied = false) ∧
        ((∃ x ∈ s.log, x.localFails = true) → (∀ x ∈ s.log, x.upstreamFails = false) →
          ∃ item ∈ (items s.log).getLast?, isReady item = true) := by
  refine ⟨copyTables_isSome, fun result s rest hrun => ?_⟩
  obtain ⟨parts, hlog, hincoming, hcases⟩ := copyTables_spec hrun
  rw [List.nil_append] at hlog
  rw [hlog]
  rcases hcases with ⟨rfl, hparts⟩ | ⟨⟨e, rfl⟩, hfailed⟩
  · have hfine := fine_of_parts hparts
    have hnever : ¬∃ x ∈ parts.flatten, x.fails = true := fun ⟨x, hx, hfails⟩ => by
      simp [hfine x hx] at hfails
    have hcut : incoming = (parts.map items).flatten ++ rest := by
      rw [hincoming, items, List.filterMap_flatten]
      rfl
    refine ⟨hincoming, fun _ => ⟨parts.map items, hcut, ?_, ?_⟩, fun h => absurd h hnever, ?_, ?_⟩
    · exact copiedExactly_of_parts hparts hkeys [] fun _ _ => rfl
    · intro answers' more hanswers hlen heq
      refine answers_unique hanswers (answers_of_parts hparts) ?_ (heq.symm.trans hcut)
      rw [hlen, List.length_map, hparts.length_eq]
    · exact fun before x after heq hx => absurd ⟨x, by rw [heq]; simp, hx⟩ hnever
    · intro ⟨x, hx, hfails⟩ _
      exact absurd ⟨x, hx, by simp [Event.fails, hfails]⟩ hnever
  · refine ⟨hincoming, nofun, fun _ => ⟨e, rfl⟩, ?_, fun _ => hfailed.drained⟩
    intro before x after heq
    rw [heq] at hfailed
    exact hfailed.nothing_after

/-- Two tables, the second with a row filter. -/
def twoTables : List TableDef :=
  [⟨"public", "a", [⟨"x", "integer", 23, true⟩], ["x"], "d", none, []⟩,
    ⟨"public", "b", [⟨"x", "integer", 23, true⟩], ["x"], "d", some "x > 1", []⟩]

/-- No row of the second table passes its filter. -/
theorem backfill_exact_two :
    ∃ s, copyTables ⟨fun _ _ => .ok (), fun _ _ _ => .ok ()⟩ twoTables ⟨[], []⟩
        [.ok .copyOutResponse, .ok (.copyData [0x31, 0x0A]), .ok .noticeResponse,
          .ok (.copyData [0x32, 0x0A]), .ok .copyDone, .ok (.readyForQuery 'I'),
          .ok .copyOutResponse, .ok .copyDone, .ok (.readyForQuery 'I')] = some (.ok (), s, []) ∧
      ∃ answers : List (List Item),
        List.Forall₂ (CopiedExactly s.log) twoTables answers := by
  refine ⟨_, rfl, ?_⟩
  have hexact := backfill_exact ⟨fun _ _ => .ok (), fun _ _ _ => .ok ()⟩ twoTables (by decide +kernel)
    [.ok .copyOutResponse, .ok (.copyData [0x31, 0x0A]), .ok .noticeResponse,
      .ok (.copyData [0x32, 0x0A]), .ok .copyDone, .ok (.readyForQuery 'I'),
      .ok .copyOutResponse, .ok .copyDone, .ok (.readyForQuery 'I')]
  obtain ⟨answers, -, hcopied, -⟩ := (hexact.2 _ _ _ rfl).2.1 rfl
  exact ⟨answers, hcopied⟩

end CopyTables

end Pglite.Replica
