import Pglite.Message
import Pglite.Runs
import Pglite.SqlLexer

/-!
# Notifications

The listener registry of `src/db.rs` (`listen`, `unlisten_token`, `unlisten`), the channels that
the session listens on in the server, and the two loops that give a notification to the callbacks
of its channel.

* The registry files callbacks under the lowercased name of a channel, and the server takes the
  name as it is. A ledger beside them has the registrations that were promised: those of a `listen`
  that returned `Ok`, until a call removes them.
  A command that fails changes nothing in the server and leaves the session alive, as an
  `ErrorResponse` outside of a transaction does; a session that ends, with all its channels, is not in
  a run.
* `listeners_agree_iff`: server, registry and ledger agree all the way exactly when no call meets a
  channel that differs in letter case only, or an entry that a failed command left.
* `dispatchers_agree_iff`: the loop that stops at an `ErrorResponse` makes the same calls as the one
  that does not, unless a notification for a callback follows it. A message that the parser rejects
  ends both loops, and a notification that is not text the first.
-/

namespace Pglite

open Text Runs SqlLexer

/-! ## The two dispatchers -/

/-- `PGlite::dispatch_notifications_to`: the callback calls made. The loop ends at a message that
`Message::parse` rejects, and goes on behind a notification that is not text. -/
def dispatchNotificationsTo (ls : Listeners) : List Parsed → List (Nat × String)
  | [] => []
  | .error _ :: _ => []
  | .ok (.notificationResponse (.ok channel) (.ok payload)) :: ms =>
    ls.fire channel payload ++ dispatchNotificationsTo ls ms
  | .ok _ :: ms => dispatchNotificationsTo ls ms

namespace Parsed

/-- A message that `Message::parse` rejects, or a notification that is not text. -/
def unreadable : Parsed → Bool
  | .error _ | .ok (.notificationResponse (.error _) _)
  | .ok (.notificationResponse _ (.error _)) => true
  | _ => false

def isError : Parsed → Bool
  | .ok (.errorResponse _) => true
  | _ => false

/-- The calls that one message asks for: every callback of its channel, with the payload as it is. -/
def calls (ls : Listeners) : Parsed → List (Nat × Except String String)
  | .ok (.notificationResponse (.ok channel) payload) =>
    (ls.callbacks (ls.toLowercase channel)).map fun token => (token, payload)
  | _ => []

/-- A call that is made, among those that are asked for. -/
def made (call : Nat × String) : Nat × Except String String := (call.1, .ok call.2)

@[simp] theorem calls_text (ls : Listeners) (channel payload : String) :
    calls ls (.ok (.notificationResponse (.ok channel) (.ok payload))) =
      (ls.fire channel payload).map made := by
  simp [calls, Listeners.fire, made]

end Parsed

open Parsed

/-- The messages from the first one on that ends `process_response`. -/
def fromStop (ms : List Parsed) : List Parsed :=
  ms.dropWhile fun m => !(m.isError || m.unreadable)

/-- A message that `process_response` gets over. -/
theorem processResponse_cons {ls : Listeners} {m : Parsed} (ms : List Parsed)
    (hm : (m.isError || m.unreadable) = false) :
    (processResponse ls (m :: ms)).1.map made =
        m.calls ls ++ (processResponse ls ms).1.map made ∧
      (processResponse ls (m :: ms)).2 = (processResponse ls ms).2 := by
  match m with
  | .error e => cases hm
  | .ok m =>
    cases m with
    | errorResponse fields => cases hm
    | notificationResponse channel payload =>
      match channel, payload with
      | .error e, _ => cases hm
      | .ok _, .error e => cases hm
      | .ok channel, .ok payload => simp [processResponse]
    | _ => exact ⟨rfl, rfl⟩

/-- And one that ends it. -/
theorem processResponse_stop {ls : Listeners} {m : Parsed} (ms : List Parsed)
    (hm : (m.isError || m.unreadable) = true) :
    (processResponse ls (m :: ms)).1 = [] ∧ ∃ e, (processResponse ls (m :: ms)).2 = .error e := by
  match m with
  | .error e => exact ⟨rfl, _, rfl⟩
  | .ok m =>
    cases m with
    | errorResponse fields => exact ⟨rfl, _, rfl⟩
    | notificationResponse channel payload =>
      match channel, payload with
      | .error e, _ => exact ⟨rfl, _, rfl⟩
      | .ok _, .error e => exact ⟨rfl, _, rfl⟩
      | .ok _, .ok _ => cases hm
    | _ => cases hm

/-- What `process_response` leaves out is what is asked for from where it ends. -/
theorem processResponse_append (ls : Listeners) (ms : List Parsed) :
    (processResponse ls ms).1.map made ++ (fromStop ms).flatMap (calls ls) =
      ms.flatMap (calls ls) := by
  induction ms with
  | nil => rfl
  | cons m ms ih =>
    cases hm : m.isError || m.unreadable with
    | true =>
      rw [fromStop, List.dropWhile_cons_of_neg (by simp [hm]), (processResponse_stop ms hm).1]
      rfl
    | false =>
      rw [fromStop, List.dropWhile_cons_of_pos (by simp [hm]), (processResponse_cons ms hm).1,
        List.append_assoc]
      exact congrArg _ ih

/-- `process_response` fails exactly when it ends early. -/
theorem processResponse_error_iff (ls : Listeners) (ms : List Parsed) :
    (∃ e, (processResponse ls ms).2 = .error e) ↔
      ∃ m ∈ ms, (m.isError || m.unreadable) = true := by
  induction ms with
  | nil => simp [processResponse]
  | cons m ms ih =>
    rw [List.exists_mem_cons_iff]
    cases hm : m.isError || m.unreadable with
    | true => exact iff_of_true (processResponse_stop ms hm).2 (.inl rfl)
    | false =>
      rw [(processResponse_cons ms hm).2, ih]
      simp

/-- What `dispatch_notifications_to` calls is asked for, one after the other. -/
theorem dispatchNotificationsTo_sublist (ls : Listeners) (ms : List Parsed) :
    ((dispatchNotificationsTo ls ms).map made).Sublist (ms.flatMap (calls ls)) := by
  induction ms with
  | nil => exact .slnil
  | cons m ms ih =>
    rw [List.flatMap_cons]
    match m with
    | .error e => exact List.nil_sublist _
    | .ok m =>
      cases m with
      | notificationResponse channel payload =>
        match channel, payload with
        | .error _, _ | .ok _, .error _ => exact ih.trans (List.sublist_append_right _ _)
        | .ok channel, .ok payload =>
          rw [dispatchNotificationsTo, List.map_append, calls_text]
          exact ih.append_left _
      | _ => exact ih

/-- It calls at least what `process_response` calls. -/
theorem processResponse_prefix (ls : Listeners) (ms : List Parsed) :
    (processResponse ls ms).1 <+: dispatchNotificationsTo ls ms := by
  induction ms with
  | nil => exact List.prefix_rfl
  | cons m ms ih =>
    match m with
    | .error e => exact List.nil_prefix
    | .ok m =>
      cases m with
      | errorResponse fields => exact List.nil_prefix
      | notificationResponse channel payload =>
        match channel, payload with
        | .error _, _ | .ok _, .error _ => exact List.nil_prefix
        | .ok channel, .ok payload => exact (List.prefix_append_right_inj _).2 ih
      | _ => exact ih

/-- What the claim of the two loops comes to: they make the same calls, these are the ones that are
asked for, and an error is reported exactly when there is one. -/
def DispatchersAgree (ls : Listeners) (ms : List Parsed) : Prop :=
  (processResponse ls ms).1 = dispatchNotificationsTo ls ms ∧
    (dispatchNotificationsTo ls ms).map made = ms.flatMap (calls ls) ∧
    ((∃ e, (processResponse ls ms).2 = .error e) ↔ ∃ m ∈ ms, m.isError = true)

/-- **The dispatchers agree** exactly when nothing is asked for from the message on that ends
`process_response`, and when a message that cannot be read comes with an `ErrorResponse`. -/
theorem dispatchers_agree_iff (ls : Listeners) (ms : List Parsed) :
    DispatchersAgree ls ms ↔
      (∀ channel payload, .ok (.notificationResponse (.ok channel) payload) ∈ fromStop ms →
        ls.callbacks (ls.toLowercase channel) = []) ∧
      ((∃ m ∈ ms, m.unreadable = true) → ∃ m ∈ ms, m.isError = true) := by
  have happend := processResponse_append ls ms
  have hnone : (fromStop ms).flatMap (calls ls) = [] ↔
      ∀ channel payload, .ok (.notificationResponse (.ok channel) payload) ∈ fromStop ms →
        ls.callbacks (ls.toLowercase channel) = [] := by
    rw [List.flatMap_eq_nil_iff]
    constructor
    · intro h channel payload hmem
      simpa [calls] using h _ hmem
    · intro h m hm
      unfold calls
      split
      · rw [h _ _ hm, List.map_nil]
      · rfl
  have herror : ((∃ e, (processResponse ls ms).2 = .error e) ↔ ∃ m ∈ ms, m.isError = true) ↔
      ((∃ m ∈ ms, m.unreadable = true) → ∃ m ∈ ms, m.isError = true) := by
    rw [processResponse_error_iff]
    simp only [Bool.or_eq_true, and_or_left, exists_or]
    exact ⟨fun h hbad => h.1 (.inr hbad), fun h => ⟨Or.rec id h, .inl⟩⟩
  rw [DispatchersAgree, herror, ← hnone, ← and_assoc]
  refine and_congr_left fun _ => ⟨?_, fun hnil => ?_⟩
  · rintro ⟨hsame, hall⟩
    rw [← hall, hsame] at happend
    exact List.append_right_eq_self.1 happend
  · -- The one is a prefix of the other, which is no longer than what is asked for.
    rw [hnil, List.append_nil] at happend
    have hprefix := processResponse_prefix ls ms
    have hlen := (dispatchNotificationsTo_sublist ls ms).length_le
    rw [← happend, List.length_map, List.length_map] at hlen
    have hsame := hprefix.eq_of_length_le hlen
    exact ⟨hsame, by rw [← hsame, happend]⟩

/-- An error, and behind it a notification that a callback waits for. -/
theorem notification_dropped : ¬ ∀ (ls : Listeners) (ms : List Parsed), DispatchersAgree ls ms := by
  intro h
  have hsame := (h ⟨id, fun _ => [7]⟩
    [.ok (.errorResponse [('C', "22012")]), .ok (.notificationResponse (.ok "jobs") (.ok "1"))]).1
  revert hsame
  decide

/-- So does a message that the parser does not know, in front of the notification. -/
example : ¬ DispatchersAgree ⟨id, fun _ => [7]⟩
    [.error "unknown message tag", .ok (.notificationResponse (.ok "jobs") (.ok "1"))] := by
  rintro ⟨-, hall, -⟩
  revert hall
  decide

/-! ## The registry -/

/-- The registry, the server, and the ledger of what was promised. -/
structure ListenState where
  /-- The tokens under a key of the listener map. A key that is not in the map has none. -/
  entries : String → List Nat
  nextListener : Nat
  /-- The channels that the server lists for the session. -/
  listening : String → Bool
  /-- The registrations that returned `Ok` and were not removed. -/
  registered : List (String × Nat)

/-- The calls, with whether the server accepts the command if one is sent. -/
inductive ListenCall
  | listen (channel : String) (ok : Bool)
  | unlistenToken (channel : String) (token : Nat) (ok : Bool)
  | unlisten (channel : String) (ok : Bool)
deriving DecidableEq

namespace ListenState

/-- Nothing is registered. -/
def init : ListenState where
  entries _ := []
  nextListener := 0
  listening _ := false
  registered := []

/-- What the server does with a command: it reads the name of the channel, and a command that it
cannot read is an error. -/
def exec (listening : String → Bool) (sql : String) : Option (String → Bool) :=
  match tokens sql.toList with
  | some [.word "listen", .name channel] => some (Function.update listening channel true)
  | some [.word "unlisten", .name channel] => some (Function.update listening channel false)
  | _ => none

/-- `notify_command`. -/
def notifyCommand (ok : Bool) (listening : String → Bool) (sql : String) :
    Option (String → Bool) :=
  if ok then exec listening sql else none

def listenSql (channel : String) : String :=
  "LISTEN \"" ++ double doubleQuote channel ++ "\""

def unlistenSql (channel : String) : String :=
  "UNLISTEN \"" ++ double doubleQuote channel ++ "\""

section Calls

/-! `lower` is `str::to_lowercase`. -/

variable (lower : String → String)

/-- `PGlite::listen`. The entry is made before the command and stays when it fails. -/
def listen (s : ListenState) (channel : String) (ok : Bool) : ListenState :=
  let token := s.nextListener
  let s := { s with
    nextListener := token + 1
    entries := Function.update s.entries (lower channel) (s.entries (lower channel) ++ [token]) }
  match notifyCommand ok s.listening (listenSql channel) with
  | some listening =>
    { s with listening := listening, registered := s.registered ++ [(channel, token)] }
  | none => s

/-- `unlisten_token` takes the last entry of a key away, and sends its command. -/
def empties (s : ListenState) (channel : String) (token : Nat) : Prop :=
  s.entries (lower channel) ≠ [] ∧
    (s.entries (lower channel)).filter (fun t => decide (t ≠ token)) = []

instance decidableEmpties (s : ListenState) (channel : String) (token : Nat) :
    Decidable (s.empties lower channel token) :=
  inferInstanceAs (Decidable (_ ∧ _))

/-- `PGlite::unlisten_token`. The entry goes before the command and stays away when it fails. -/
def unlistenToken (s : ListenState) (channel : String) (token : Nat) (ok : Bool) : ListenState :=
  let kept := { s with
    entries := Function.update s.entries (lower channel)
      ((s.entries (lower channel)).filter fun t => decide (t ≠ token)) }
  let removed := s.registered.filter fun p => decide (p ≠ (channel, token))
  if s.empties lower channel token then
    match notifyCommand ok s.listening (unlistenSql channel) with
    | some listening => { kept with listening := listening, registered := removed }
    | none => kept
  else { kept with registered := removed }

/-- `PGlite::unlisten`. The entries go after the command. -/
def unlisten (s : ListenState) (channel : String) (ok : Bool) : ListenState :=
  match notifyCommand ok s.listening (unlistenSql channel) with
  | some listening =>
    { s with
      listening := listening
      entries := Function.update s.entries (lower channel) []
      registered := s.registered.filter fun p => decide (p.1 ≠ channel) }
  | none => s

/-- A call, on the one session that lasts. -/
def step (s : ListenState) : ListenCall → Option ListenState
  | .listen channel ok => some (s.listen lower channel ok)
  | .unlistenToken channel token ok => some (s.unlistenToken lower channel token ok)
  | .unlisten channel ok => some (s.unlisten lower channel ok)

/-- The listener map as the dispatchers see it. -/
def listeners (s : ListenState) : Listeners :=
  ⟨lower, s.entries⟩

/-- The tokens that a ledger has for a channel. -/
def tokensIn (ledger : List (String × Nat)) (channel : String) : List Nat :=
  (ledger.filter fun p => decide (p.1 = channel)).map Prod.snd

/-- The callbacks registered for a channel. -/
def tokensOf (s : ListenState) (channel : String) : List Nat :=
  tokensIn s.registered channel

/-- The session listens on the channels with a registration, and a notification on one of them
calls what is registered for it, once each. -/
structure Agrees (s : ListenState) : Prop where
  listens : ∀ channel, s.listening channel ↔ s.tokensOf channel ≠ []
  fires : ∀ channel payload, s.listening channel →
    (s.listeners lower).fire channel payload =
      (s.tokensOf channel).map fun token => (token, payload)
  once : (s.registered.map Prod.snd).Nodup

/-- The command for the channel is accepted. A name without characters never is. -/
def accepted (channel : String) (ok : Bool) : Bool :=
  ok && decide (channel ≠ "")

/-- No other channel that the session listens on has the same lowercased name. -/
def Alone (s : ListenState) (channel : String) : Prop :=
  ∀ other, s.listening other → lower other = lower channel → other = channel

/-- A call that keeps the three in agreement. -/
def Keeps (s : ListenState) : ListenCall → Prop
  | .listen channel ok =>
    if accepted channel ok then
      s.Alone lower channel ∧ (¬ s.listening channel → s.entries (lower channel) = [])
    else ∀ other, s.listening other → lower other ≠ lower channel
  | .unlistenToken channel token ok =>
    ∀ other, (other, token) ∈ s.registered → lower other = lower channel →
      other = channel ∧ (s.empties lower channel token → accepted channel ok)
  | .unlisten channel ok => accepted channel ok → s.Alone lower channel

end Calls

/-! ## The commands -/

theorem exec_listenSql (listening : String → Bool) {channel : String} (h : channel ≠ "") :
    exec listening (listenSql channel) = some (Function.update listening channel true) := by
  have hlisten : Reads "LISTEN".toList [.word "listen"] := reads_word (by decide)
  have hreads : Reads (listenSql channel).toList [.word "listen", .name channel] := by
    simpa [listenSql, quoted, doubleQuote] using hlisten.space (reads_name h)
  simp [exec, hreads.tokens_eq]

theorem exec_unlistenSql (listening : String → Bool) {channel : String} (h : channel ≠ "") :
    exec listening (unlistenSql channel) = some (Function.update listening channel false) := by
  have hunlisten : Reads "UNLISTEN".toList [.word "unlisten"] := reads_word (by decide)
  have hreads : Reads (unlistenSql channel).toList [.word "unlisten", .name channel] := by
    simpa [unlistenSql, quoted, doubleQuote] using hunlisten.space (reads_name h)
  simp [exec, hreads.tokens_eq]

theorem exec_empty (listening : String → Bool) :
    exec listening (listenSql "") = none ∧ exec listening (unlistenSql "") = none := by
  have hlisten : tokens (listenSql "").toList = none := by decide
  have hunlisten : tokens (unlistenSql "").toList = none := by decide
  exact ⟨by rw [exec, hlisten], by rw [exec, hunlisten]⟩

theorem notifyCommand_listen (ok : Bool) (listening : String → Bool) (channel : String) :
    notifyCommand ok listening (listenSql channel) =
      if accepted channel ok then some (Function.update listening channel true) else none := by
  cases ok with
  | false => rfl
  | true =>
    by_cases hc : channel = ""
    · subst hc
      simpa [notifyCommand, accepted] using (exec_empty listening).1
    · simp [notifyCommand, accepted, hc, exec_listenSql listening hc]

theorem notifyCommand_unlisten (ok : Bool) (listening : String → Bool) (channel : String) :
    notifyCommand ok listening (unlistenSql channel) =
      if accepted channel ok then some (Function.update listening channel false) else none := by
  cases ok with
  | false => rfl
  | true =>
    by_cases hc : channel = ""
    · subst hc
      simpa [notifyCommand, accepted] using (exec_empty listening).2
    · simp [notifyCommand, accepted, hc, exec_unlistenSql listening hc]

/-! ## The ledger -/

section Ledger

variable {ledger : List (String × Nat)} {channel other : String} {token : Nat}

theorem mem_tokensIn : token ∈ tokensIn ledger channel ↔ (channel, token) ∈ ledger := by
  simp [tokensIn]

theorem tokensIn_append :
    tokensIn (ledger ++ [(channel, token)]) other =
      tokensIn ledger other ++ if other = channel then [token] else [] := by
  by_cases hc : other = channel
  · simp [tokensIn, hc]
  · simp [tokensIn, hc, Ne.symm hc]

theorem tokensIn_remove_self :
    tokensIn (ledger.filter fun p => decide (p ≠ (channel, token))) channel =
      (tokensIn ledger channel).filter fun t => decide (t ≠ token) := by
  simp only [tokensIn, List.filter_map, List.filter_filter]
  congr 1
  refine List.filter_congr fun p _ => ?_
  obtain ⟨c, t⟩ := p
  by_cases hc : c = channel
  · simp [hc]
  · simp [hc]

theorem tokensIn_filter_of_ne {keep : String × Nat → Bool} (hkeep : ∀ t, keep (other, t)) :
    tokensIn (ledger.filter keep) other = tokensIn ledger other := by
  simp only [tokensIn, List.filter_filter]
  congr 1
  refine List.filter_congr fun p _ => ?_
  obtain ⟨c, t⟩ := p
  by_cases hc : c = other
  · subst hc
    simp [hkeep t]
  · simp [hc]

theorem tokensIn_drop :
    tokensIn (ledger.filter fun p => decide (p.1 ≠ channel)) channel = [] := by
  simp [tokensIn, List.filter_filter]

/-- The tokens of the ledger are given out once, in order. -/
structure Fresh (s : ListenState) : Prop where
  below : ∀ p ∈ s.registered, p.2 < s.nextListener
  once : (s.registered.map Prod.snd).Nodup

theorem Fresh.filter {s : ListenState} (h : s.Fresh) {t : ListenState}
    {keep : String × Nat → Bool} (hreg : t.registered = s.registered.filter keep)
    (hnext : t.nextListener = s.nextListener) : t.Fresh := by
  constructor
  · intro p hp
    rw [hreg] at hp
    rw [hnext]
    exact h.below p (List.mem_of_mem_filter hp)
  · rw [hreg]
    exact h.once.sublist (List.filter_sublist.map _)

end Ledger

section Steps

variable {lower : String → String} {s s' : ListenState} {channel : String} {ok : Bool}
  {token : Nat}

/-- What each call does to the registry, the server and the ledger. -/
theorem listen_eq : s.listen lower channel ok =
    { entries := Function.update s.entries (lower channel)
        (s.entries (lower channel) ++ [s.nextListener])
      nextListener := s.nextListener + 1
      listening := if accepted channel ok then Function.update s.listening channel true
        else s.listening
      registered := if accepted channel ok then s.registered ++ [(channel, s.nextListener)]
        else s.registered } := by
  simp only [listen, notifyCommand_listen]
  cases accepted channel ok <;> rfl

theorem unlistenToken_eq : s.unlistenToken lower channel token ok =
    { s with
      entries := Function.update s.entries (lower channel)
        ((s.entries (lower channel)).filter fun t => decide (t ≠ token))
      listening := if s.empties lower channel token ∧ accepted channel ok then
        Function.update s.listening channel false else s.listening
      registered := if s.empties lower channel token → accepted channel ok then
        s.registered.filter fun p => decide (p ≠ (channel, token)) else s.registered } := by
  simp only [unlistenToken, notifyCommand_unlisten]
  by_cases hempties : s.empties lower channel token
  · cases accepted channel ok <;> simp [hempties]
  · simp [hempties]

theorem unlisten_eq : s.unlisten lower channel ok =
    if accepted channel ok then
      { s with
        listening := Function.update s.listening channel false
        entries := Function.update s.entries (lower channel) []
        registered := s.registered.filter fun p => decide (p.1 ≠ channel) }
    else s := by
  simp only [unlisten, notifyCommand_unlisten]
  cases accepted channel ok <;> rfl

theorem fresh_step (h : s.Fresh) {call : ListenCall} (hstep : step lower s call = some s') :
    s'.Fresh := by
  cases call with
  | listen channel ok =>
    obtain rfl : s.listen lower channel ok = s' := Option.some.inj hstep
    rw [listen_eq]
    cases accepted channel ok with
    | false => exact ⟨fun p hp => Nat.lt_succ_of_lt (h.below p hp), h.once⟩
    | true =>
      constructor
      · intro p hp
        rcases List.mem_append.1 hp with hp | hp
        · exact Nat.lt_succ_of_lt (h.below p hp)
        · obtain rfl := List.mem_singleton.1 hp
          exact Nat.lt_succ_self _
      · change ((s.registered ++ [(channel, s.nextListener)]).map Prod.snd).Nodup
        rw [List.map_append, List.nodup_append]
        refine ⟨h.once, by simp, ?_⟩
        rintro t ht u hu rfl
        obtain ⟨p, hp, rfl⟩ := List.mem_map.1 ht
        exact Nat.lt_irrefl _ ((h.below p hp).trans_eq (List.mem_singleton.1 hu).symm)
  | unlistenToken channel token ok =>
    obtain rfl : s.unlistenToken lower channel token ok = s' := Option.some.inj hstep
    rw [unlistenToken_eq]
    by_cases hkeep : s.empties lower channel token → accepted channel ok
    · exact h.filter (if_pos hkeep) rfl
    · rw [if_neg hkeep]
      exact ⟨h.below, h.once⟩
  | unlisten channel ok =>
    obtain rfl : s.unlisten lower channel ok = s' := Option.some.inj hstep
    rw [unlisten_eq]
    cases accepted channel ok with
    | false => exact h
    | true => exact h.filter rfl rfl

/-- The callbacks called are the entries under the key. -/
theorem fire_eq_iff {tokens : List Nat} :
    (∀ payload, (s.listeners lower).fire channel payload =
      tokens.map fun token => (token, payload)) ↔ s.entries (lower channel) = tokens := by
  constructor
  · intro h
    have hfst := congrArg (List.map Prod.fst) (h "")
    simpa [Listeners.fire, listeners, Function.comp_def] using hfst
  · rintro rfl payload
    rfl

/-- Map, server and ledger say the same of every channel. -/
def Coherent (lower : String → String) (entries : String → List Nat) (listening : String → Bool)
    (ledger : List (String × Nat)) : Prop :=
  (∀ c, listening c ↔ tokensIn ledger c ≠ []) ∧
    ∀ c, listening c → entries (lower c) = tokensIn ledger c

theorem agrees_iff : s.Agrees lower ↔
    Coherent lower s.entries s.listening s.registered ∧ (s.registered.map Prod.snd).Nodup := by
  constructor
  · rintro ⟨hlistens, hfires, honce⟩
    exact ⟨⟨hlistens, fun c hc => fire_eq_iff.1 fun payload => hfires c payload hc⟩, honce⟩
  · rintro ⟨⟨hlistens, hentries⟩, honce⟩
    exact ⟨hlistens, fun c payload hc => fire_eq_iff.2 (hentries c hc) payload, honce⟩

/-- What is left to see after a change of one channel: that the new entries under its key are
those of the channel, and that no other channel has the key, unless the entries are as before. -/
theorem coherent_change {entries : String → List Nat} {listening listening' : String → Bool}
    {ledger ledger' : List (String × Nat)} (h : Coherent lower entries listening ledger)
    (hlistening : ∀ c ≠ channel, listening' c = listening c)
    (hledger : ∀ c ≠ channel, tokensIn ledger' c = tokensIn ledger c) (new : List Nat) :
    Coherent lower (Function.update entries (lower channel) new) listening' ledger' ↔
      (listening' channel ↔ tokensIn ledger' channel ≠ []) ∧
      (listening' channel → new = tokensIn ledger' channel) ∧
      ∀ c ≠ channel, listening c → lower c = lower channel → new = entries (lower channel) := by
  constructor
  · rintro ⟨hlistens, hentries⟩
    refine ⟨hlistens channel, fun hc => ?_, fun c hne hc hlower => ?_⟩
    · have hnew := hentries channel hc
      rwa [Function.update_self] at hnew
    · have hnew := hentries c (by rwa [hlistening c hne])
      rwa [hlower, Function.update_self, hledger c hne, ← h.2 c hc, hlower] at hnew
  · rintro ⟨hlistens, hnew, hothers⟩
    constructor
    · intro c
      by_cases hc : c = channel
      · subst hc
        exact hlistens
      · rw [hlistening c hc, hledger c hc]
        exact h.1 c
    · intro c hlistening'
      by_cases hc : c = channel
      · subst hc
        rw [Function.update_self]
        exact hnew hlistening'
      · rw [hlistening c hc] at hlistening'
        rw [hledger c hc, ← h.2 c hlistening']
        by_cases hlower : lower c = lower channel
        · rw [hlower, Function.update_self]
          exact hothers c hc hlistening' hlower
        · exact Function.update_of_ne hlower _ _

theorem coherent_listen (h : Coherent lower s.entries s.listening s.registered) :
    Coherent lower (s.listen lower channel ok).entries (s.listen lower channel ok).listening
      (s.listen lower channel ok).registered ↔ s.Keeps lower (.listen channel ok) := by
  have hlonger : s.entries (lower channel) ++ [s.nextListener] ≠ s.entries (lower channel) := by
    simp
  rw [listen_eq, Keeps]
  cases accepted channel ok with
  | false =>
    refine (coherent_change h (fun _ _ => rfl) (fun _ _ => rfl) _).trans ?_
    constructor
    · rintro ⟨-, hself, hothers⟩ c hc hlower
      by_cases hcc : c = channel
      · subst hcc
        exact hlonger ((hself hc).trans (h.2 c hc).symm)
      · exact hlonger (hothers c hcc hc hlower)
    · intro hnone
      refine ⟨h.1 channel, fun hc => absurd rfl (hnone channel hc), fun c _ hc hlower => ?_⟩
      exact absurd hlower (hnone c hc)
  | true =>
    refine (coherent_change h (fun c hc => Function.update_of_ne hc _ _) (fun c hc => ?_) _).trans
      ?_
    · simp only [if_true]
      rw [tokensIn_append, if_neg hc, List.append_nil]
    simp only [if_true, Function.update_self, tokensIn_append, List.append_cancel_right_eq]
    constructor
    · rintro ⟨-, hself, hothers⟩
      refine ⟨fun c hc hlower => ?_, fun hc => ?_⟩
      · by_contra hcc
        exact hlonger (hothers c hcc hc hlower)
      · rw [hself trivial]
        by_contra hne
        exact hc ((h.1 channel).2 hne)
    · rintro ⟨halone, hleft⟩
      refine ⟨by simp, fun _ => ?_, fun c hcc hc hlower => absurd (halone c hc hlower) hcc⟩
      by_cases hc : s.listening channel
      · exact h.2 channel hc
      · have hnil : tokensIn s.registered channel = [] := by
          by_contra hne
          exact hc ((h.1 channel).2 hne)
        rw [hleft hc, hnil]

/-- Taking a token away does nothing to another channel exactly when it has not the token. -/
theorem others_unlistenToken (h : Coherent lower s.entries s.listening s.registered) :
    (∀ c ≠ channel, s.listening c → lower c = lower channel →
      (s.entries (lower channel)).filter (fun t => decide (t ≠ token)) =
        s.entries (lower channel)) ↔
    ∀ c, (c, token) ∈ s.registered → lower c = lower channel → c = channel := by
  constructor
  · intro hothers c hmem hlower
    by_contra hcc
    have htoken := mem_tokensIn.2 hmem
    have hc := (h.1 c).2 (List.ne_nil_of_mem htoken)
    rw [← h.2 c hc, hlower, ← hothers c hcc hc hlower] at htoken
    exact of_decide_eq_true (List.mem_filter.1 htoken).2 rfl
  · intro hone c hcc hc hlower
    refine List.filter_eq_self.2 fun t ht => decide_eq_true ?_
    rintro rfl
    rw [← hlower, h.2 c hc] at ht
    exact hcc (hone c (mem_tokensIn.1 ht) hlower)

/-- On its own channel the call is as promised, unless the command fails after the last entry
went. -/
theorem own_unlistenToken (h : Coherent lower s.entries s.listening s.registered) :
    ((if s.empties lower channel token ∧ accepted channel ok then
        Function.update s.listening channel false else s.listening) channel ↔
      tokensIn (if s.empties lower channel token → accepted channel ok then
        s.registered.filter fun p => decide (p ≠ (channel, token)) else s.registered) channel ≠
          []) ∧
    ((if s.empties lower channel token ∧ accepted channel ok then
        Function.update s.listening channel false else s.listening) channel →
      (s.entries (lower channel)).filter (fun t => decide (t ≠ token)) =
        tokensIn (if s.empties lower channel token → accepted channel ok then
          s.registered.filter fun p => decide (p ≠ (channel, token)) else s.registered) channel) ↔
    ((channel, token) ∈ s.registered → s.empties lower channel token → accepted channel ok) := by
  have hnone : ¬ s.listening channel → tokensIn s.registered channel = [] := by
    intro hc
    by_contra hne
    exact hc ((h.1 channel).2 hne)
  by_cases hempties : s.empties lower channel token
  · cases hacc : accepted channel ok with
    | true =>
      have hgone : (tokensIn s.registered channel).filter (fun t => decide (t ≠ token)) = [] := by
        by_cases hc : s.listening channel
        · rw [← h.2 channel hc]
          exact hempties.2
        · rw [hnone hc]
          rfl
      simp only [hempties, hempties.2, and_self, if_true, imp_true_iff, Function.update_self,
        tokensIn_remove_self, hgone]
      simp
    | false =>
      simp only [hempties, hempties.2, Bool.false_eq_true, and_false, if_false, imp_false,
        not_true_eq_false]
      constructor
      · rintro ⟨-, hself⟩ hmem
        have hne := List.ne_nil_of_mem (mem_tokensIn.2 hmem)
        exact hne (hself ((h.1 channel).2 hne)).symm
      · intro hmem
        refine ⟨h.1 channel, fun hc => ?_⟩
        by_contra hne
        have hall : ∀ t ∈ s.entries (lower channel), t = token := by
          simpa [List.filter_eq_nil_iff] using hempties.2
        obtain ⟨t, ht⟩ := List.exists_mem_of_ne_nil _ hempties.1
        obtain rfl := hall t ht
        rw [h.2 channel hc] at ht
        exact hmem (mem_tokensIn.1 ht)
  · simp only [hempties, false_and, if_false, false_imp_iff, if_true, tokensIn_remove_self,
      imp_true_iff, iff_true]
    constructor
    · constructor
      · intro hc hgone
        rw [← h.2 channel hc] at hgone
        refine hempties ⟨?_, hgone⟩
        rw [h.2 channel hc]
        exact (h.1 channel).1 hc
      · intro hne
        by_contra hc
        rw [hnone hc] at hne
        exact hne rfl
    · intro hc
      rw [h.2 channel hc]

theorem coherent_unlistenToken (h : Coherent lower s.entries s.listening s.registered) :
    Coherent lower (s.unlistenToken lower channel token ok).entries
      (s.unlistenToken lower channel token ok).listening
      (s.unlistenToken lower channel token ok).registered ↔
        s.Keeps lower (.unlistenToken channel token ok) := by
  rw [unlistenToken_eq, Keeps]
  have hlistening : ∀ c ≠ channel, (if s.empties lower channel token ∧ accepted channel ok then
      Function.update s.listening channel false else s.listening) c = s.listening c := by
    intro c hc
    split
    · exact Function.update_of_ne hc _ _
    · rfl
  have hledger : ∀ c ≠ channel, tokensIn (if s.empties lower channel token → accepted channel ok
      then s.registered.filter fun p => decide (p ≠ (channel, token)) else s.registered) c =
        tokensIn s.registered c := by
    intro c hc
    split
    · exact tokensIn_filter_of_ne (by simp [hc])
    · rfl
  refine (coherent_change h hlistening hledger _).trans ?_
  rw [← and_assoc, own_unlistenToken h, others_unlistenToken h]
  constructor
  · rintro ⟨hself, hone⟩ c hmem hlower
    obtain rfl := hone c hmem hlower
    exact ⟨rfl, hself hmem⟩
  · intro hkeeps
    exact ⟨fun hmem => (hkeeps channel hmem rfl).2, fun c hmem hlower => (hkeeps c hmem hlower).1⟩

theorem coherent_unlisten (h : Coherent lower s.entries s.listening s.registered) :
    Coherent lower (s.unlisten lower channel ok).entries (s.unlisten lower channel ok).listening
      (s.unlisten lower channel ok).registered ↔ s.Keeps lower (.unlisten channel ok) := by
  rw [unlisten_eq, Keeps]
  cases accepted channel ok with
  | false => simpa using h
  | true =>
    refine (coherent_change h (fun c hc => Function.update_of_ne hc _ _)
      (fun c hc => tokensIn_filter_of_ne (by simp [hc])) _).trans ?_
    simp only [if_true, Function.update_self, tokensIn_drop]
    constructor
    · rintro ⟨-, -, hothers⟩ - c hc hlower
      by_contra hcc
      have hnil := hothers c hcc hc hlower
      rw [← hlower, h.2 c hc] at hnil
      exact (h.1 c).1 hc hnil.symm
    · intro halone
      refine ⟨by simp, by simp, fun c hcc hc hlower => ?_⟩
      exact absurd (halone trivial c hc hlower) hcc

/-- A call keeps the agreement exactly when it is one of those. -/
theorem agrees_step (hfresh : s.Fresh) (h : s.Agrees lower) {call : ListenCall}
    (hstep : step lower s call = some s') : s'.Agrees lower ↔ s.Keeps lower call := by
  have hcoherent := (agrees_iff.1 h).1
  rw [agrees_iff, and_iff_left (fresh_step hfresh hstep).once]
  cases call with
  | listen channel ok =>
    obtain rfl : s.listen lower channel ok = s' := Option.some.inj hstep
    exact coherent_listen hcoherent
  | unlistenToken channel token ok =>
    obtain rfl : s.unlistenToken lower channel token ok = s' := Option.some.inj hstep
    exact coherent_unlistenToken hcoherent
  | unlisten channel ok =>
    obtain rfl : s.unlisten lower channel ok = s' := Option.some.inj hstep
    exact coherent_unlisten hcoherent

end Steps

/-- **The registry agrees with the server** after every call of a sequence exactly when every call
keeps it so: no other channel with the same lowercased name is listened on or has the token, and no
command fails that has entries to answer for. -/
theorem listeners_agree_iff (lower : String → String) (calls : List ListenCall) :
    Along (step lower) (Agrees lower) init calls ↔
      Guarded (step lower) (fun s call => s.Keeps lower call) init calls := by
  refine along_iff_guarded (I := Fresh) ?_ (fun s call s' hs => fresh_step hs)
    (fun s call s' hs h => agrees_step hs h) ?_ ?_
  · intro s call
    cases call <;> rfl
  · exact ⟨nofun, List.nodup_nil⟩
  · exact ⟨by simp [init, tokensOf, tokensIn], by simp [init], List.nodup_nil⟩

/-- Two channels that differ in letter case: a notification on the first calls both callbacks. -/
theorem letter_case_mixed_up :
    ¬ ∀ (lower : String → String) (calls : List ListenCall),
      Along (step lower) (Agrees lower) init calls := by
  intro h
  have hagrees := h String.toLower [.listen "Jobs" true, .listen "jobs" true] _ _
    List.prefix_rfl rfl
  have hfires := hagrees.fires "Jobs" "7" (by decide +kernel)
  revert hfires
  decide +kernel

end ListenState

end Pglite
