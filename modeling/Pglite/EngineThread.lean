import Pglite.Process

/-!
# The engine thread

The thread executes the commands in the order in which they were sent, up to a `Close`, and gives each
of them its own response (`EngineThread.Inv`). Whoever waits for the reply to another one is told when
the thread returns.

`Follows`: over a backend that runs a session, the responses are those of the session. A command in
the channel is always executed in the end, since the loop of `exec_protocol` ends (`work_returns`).
-/

namespace Pglite.Engine

open Frames

variable {σ τ : Type}

namespace EngineThread

variable {N : Native σ} {C : EngineCommand → Prop} {B : σ → Prop}

/-! ## What becomes of commands -/

/-- What becomes of an executed command. -/
def answered (served : List Served) : List (Nat × Reply) :=
  served.map fun x => (x.cmd, .response x.response)

/-- Commands that were sent are executed from the first on, or not at all, and each gets its reply. -/
structure Inv (t : EngineThread σ) : Prop where
  /-- Each command has got its reply or is in the channel. -/
  order : t.replies.map Prod.fst ++ t.queue.map Prod.fst = List.range t.sent.length
  queued : ∀ x ∈ t.queue, t.sent[x.1]? = some x.2
  executed : (t.served.map fun x => EngineCommand.exec x.wire) <+: t.sent
  /-- The responses come first. -/
  replies : ∃ tail, t.replies = answered t.served ++ tail ∧ (∀ r ∈ tail, ∀ out, r.2 ≠ .response out) ∧
    (t.phase ≠ .ended → tail = [])
  idle : t.phase = .ended → t.queue = []
  resets : t.resets ≤ 1 ∧ (t.phase ≠ .ended → t.resets = 0)
  /-- A `Close` that got its reply was the command behind those that were executed. -/
  closed : ∀ k, (k, Reply.closed) ∈ t.replies → k = t.served.length ∧ t.sent[k]? = some .close
  resets_iff : t.resets = 1 ↔ ∃ k, (k, Reply.closed) ∈ t.replies

/-- What the thread does, or is done to it, when it is sent commands in `C` and starts in a state in
`B`. -/
inductive Move (N : Native σ) (C : EngineCommand → Prop) (B : σ → Prop) (t : EngineThread σ) :
    EngineThread σ → Prop
  | send {cmd : EngineCommand} (hcmd : C cmd) : Move N C B t (t.send cmd)
  | boot {r : Option (Except Error σ)} {t' : EngineThread σ} (hstart : ∀ s, r = some (.ok s) → B s)
      (h : t.boot r = some t') : Move N C B t t'
  | work {fuel : Nat} {t' : EngineThread σ} (h : t.work N fuel = some t') : Move N C B t t'
  | hangup {t' : EngineThread σ} (h : t.hangup = some t') : Move N C B t t'

theorem inv_spawn : (spawn : EngineThread σ).Inv where
  order := rfl
  queued := by simp [spawn]
  executed := List.nil_prefix
  replies := ⟨[], rfl, by simp, fun _ => rfl⟩
  idle := fun _ => rfl
  resets := ⟨Nat.zero_le 1, fun _ => rfl⟩
  closed := by simp [spawn]
  resets_iff := by simp [spawn]

@[simp] theorem send_phase (t : EngineThread σ) (cmd : EngineCommand) :
    (t.send cmd).phase = t.phase := by
  unfold send
  cases t.phase <;> rfl

@[simp] theorem send_bootResult (t : EngineThread σ) (cmd : EngineCommand) :
    (t.send cmd).bootResult = t.bootResult := by
  unfold send
  cases t.phase <;> rfl

@[simp] theorem send_sent (t : EngineThread σ) (cmd : EngineCommand) :
    (t.send cmd).sent = t.sent ++ [cmd] := by
  unfold send
  cases t.phase <;> rfl

@[simp] theorem send_served (t : EngineThread σ) (cmd : EngineCommand) :
    (t.send cmd).served = t.served := by
  unfold send
  cases t.phase <;> rfl

@[simp] theorem exit_phase (t : EngineThread σ) : t.exit.phase = .ended := rfl

/-- What was sent stays where it is. -/
theorem getElem?_sent_append {t : EngineThread σ} {k : Nat} {c : EngineCommand}
    (h : t.sent[k]? = some c) (cmd : EngineCommand) : (t.sent ++ [cmd])[k]? = some c := by
  rw [List.getElem?_append_left (List.getElem?_eq_some_iff.1 h).1, h]

theorem Inv.send {t : EngineThread σ} (h : t.Inv) (cmd : EngineCommand) : (t.send cmd).Inv := by
  have hexec : (t.served.map fun x => EngineCommand.exec x.wire) <+: t.sent ++ [cmd] :=
    h.executed.trans (List.prefix_append _ _)
  have hrange : List.range (t.sent ++ [cmd]).length = List.range t.sent.length ++ [t.sent.length] := by
    rw [List.length_append, List.length_singleton, List.range_succ]
  have hclosed : ∀ k, (k, Reply.closed) ∈ t.replies →
      k = t.served.length ∧ (t.sent ++ [cmd])[k]? = some .close := fun k hk =>
    ⟨(h.closed k hk).1, getElem?_sent_append (h.closed k hk).2 cmd⟩
  cases hphase : t.phase with
  | ended =>
    have hsend : t.send cmd =
        { t with
          sent := t.sent ++ [cmd]
          replies := t.replies ++ [(t.sent.length, .dropped)] } := by
      simp only [EngineThread.send, hphase]
    obtain ⟨tail, hreplies, htail, -⟩ := h.replies
    have hnil := h.idle hphase
    have horder := h.order
    rw [hnil, List.map_nil, List.append_nil] at horder
    rw [hsend]
    exact {
      order := by
        simp only [hnil, List.map_nil, List.append_nil, List.map_append, horder]
        exact hrange.symm
      queued := by simp [hnil]
      executed := hexec
      replies := by
        refine ⟨tail ++ [(t.sent.length, .dropped)], ?_, ?_, fun hne => (hne hphase).elim⟩
        · rw [← List.append_assoc, ← hreplies]
        · intro r hr out
          rcases List.mem_append.1 hr with hr | hr
          · exact htail r hr out
          · rw [List.mem_singleton.1 hr]
            exact Reply.noConfusion
      idle := fun _ => hnil
      resets := h.resets
      closed := fun k hk => hclosed k (by simpa using hk)
      resets_iff := by simpa using h.resets_iff }
  | booting | serving s =>
    have hsend : t.send cmd =
        { t with
          sent := t.sent ++ [cmd]
          queue := t.queue ++ [(t.sent.length, cmd)] } := by
      simp only [EngineThread.send, hphase]
    rw [hsend]
    exact {
      order := by
        rw [hrange, List.map_append, ← List.append_assoc, h.order]
        rfl
      queued := by
        intro x hx
        rcases List.mem_append.1 hx with hx | hx
        · exact getElem?_sent_append (h.queued x hx) cmd
        · rw [List.mem_singleton.1 hx]
          exact List.getElem?_concat_length
      executed := hexec
      replies := h.replies
      idle := fun hend => by
        rw [hphase] at hend
        cases hend
      resets := h.resets
      closed := hclosed
      resets_iff := h.resets_iff }

/-- Returning drops what is in the channel. -/
theorem Inv.exit {t : EngineThread σ} (h : t.Inv) : t.exit.Inv := by
  obtain ⟨tail, hreplies, htail, -⟩ := h.replies
  have hmem : ∀ k, (k, Reply.closed) ∈ t.exit.replies ↔ (k, Reply.closed) ∈ t.replies := by
    intro k
    simp [EngineThread.exit]
  exact {
    order := by
      show _ = List.range t.sent.length
      rw [← h.order]
      simp [EngineThread.exit, Function.comp_def]
    queued := by simp [EngineThread.exit]
    executed := h.executed
    replies := by
      refine ⟨tail ++ t.queue.map fun p => (p.1, .dropped), ?_, ?_, fun hne => (hne rfl).elim⟩
      · show _ = answered t.served ++ (tail ++ _)
        rw [← List.append_assoc, ← hreplies]
        rfl
      · intro r hr out
        rcases List.mem_append.1 hr with hr | hr
        · exact htail r hr out
        · obtain ⟨p, -, rfl⟩ := List.mem_map.1 hr
          exact Reply.noConfusion
    idle := fun _ => rfl
    resets := ⟨h.resets.1, fun hne => (hne rfl).elim⟩
    closed := fun k hk => h.closed k ((hmem k).1 hk)
    resets_iff := by
      simp only [hmem]
      exact h.resets_iff }

/-- A command that is taken from the channel is the one behind those that were executed. -/
theorem Inv.head {t : EngineThread σ} (h : t.Inv) (halive : t.phase ≠ .ended) {k : Nat}
    {cmd : EngineCommand} {queue : List (Nat × EngineCommand)} (hqueue : t.queue = (k, cmd) :: queue) :
    t.replies = answered t.served ∧ k = t.served.length ∧ t.sent[k]? = some cmd := by
  obtain ⟨tail, hreplies, -, htail⟩ := h.replies
  rw [htail halive, List.append_nil] at hreplies
  refine ⟨hreplies, ?_, h.queued (k, cmd) (hqueue ▸ List.mem_cons_self)⟩
  have hlt : t.served.length < t.sent.length := by
    have hlen := congrArg List.length h.order
    simp only [hreplies, hqueue, answered, List.length_append, List.length_map, List.length_cons,
      List.length_range] at hlen
    omega
  have hk : (List.range t.sent.length)[t.served.length]? = some k := by
    rw [← h.order, hreplies, hqueue, List.getElem?_append_right (by simp [answered])]
    simp [answered]
  rw [List.getElem?_range hlt] at hk
  exact (Option.some.inj hk).symm

/-- An executed command joins those before it. -/
theorem Inv.served {t : EngineThread σ} (h : t.Inv) (halive : t.phase ≠ .ended) {k : Nat}
    {wire : List UInt8} {queue : List (Nat × EngineCommand)}
    (hqueue : t.queue = (k, .exec wire) :: queue) {s : σ} (out : List UInt8) :
    ({ t with
      phase := .serving s
      queue
      served := t.served ++ [⟨k, wire, out⟩]
      replies := t.replies ++ [(k, .response out)] } : EngineThread σ).Inv := by
  obtain ⟨hreplies, hk, hsent⟩ := h.head halive hqueue
  have hnone : ∀ j, (j, Reply.closed) ∉ t.replies ++ [(k, .response out)] := by
    intro j hj
    rw [hreplies] at hj
    simp [answered] at hj
  exact {
    order := by
      have horder := h.order
      rw [hqueue] at horder
      simpa using horder
    queued := fun x hx => h.queued x (hqueue ▸ List.mem_cons_of_mem _ hx)
    executed := by
      rw [List.map_append, List.map_singleton, List.prefix_iff_eq_take, List.length_append,
        List.length_singleton, List.length_map, List.take_add_one, ← hk, hsent]
      have htake := List.prefix_iff_eq_take.1 h.executed
      rw [List.length_map, ← hk] at htake
      rw [← htake]
      rfl
    replies := by
      refine ⟨[], ?_, fun r hr => absurd hr List.not_mem_nil, fun _ => rfl⟩
      rw [hreplies]
      simp [answered]
    idle := fun hend => by cases hend
    resets := ⟨h.resets.1, fun _ => h.resets.2 halive⟩
    closed := fun j hj => absurd hj (hnone j)
    resets_iff := by
      rw [h.resets.2 halive]
      exact ⟨fun h => absurd h Nat.zero_ne_one, fun ⟨j, hj⟩ => absurd hj (hnone j)⟩ }

/-- The executed commands are the first that were sent. -/
theorem Inv.served_cmd {t : EngineThread σ} (h : t.Inv) {j : Nat} {x : Served}
    (hx : t.served[j]? = some x) : x.cmd = j ∧ t.sent[j]? = some (.exec x.wire) := by
  obtain ⟨hj, -⟩ := List.getElem?_eq_some_iff.1 hx
  obtain ⟨tail, hreplies, -⟩ := h.replies
  have hlt : j < t.sent.length := by
    have hlen := h.executed.length_le
    rw [List.length_map] at hlen
    omega
  refine ⟨?_, ?_⟩
  · have hrange : (List.range t.sent.length)[j]? = some x.cmd := by
      rw [← h.order, hreplies, List.map_append, List.append_assoc,
        List.getElem?_append_left (by simpa [answered] using hj)]
      simp [answered, hx]
    rw [List.getElem?_range hlt] at hrange
    exact (Option.some.inj hrange).symm
  · obtain ⟨rest, hrest⟩ := h.executed
    rw [← hrest, List.getElem?_append_left (by simpa using hj)]
    simp [hx]

/-- The `Close` gets its reply, and nothing behind it does. -/
theorem Inv.closing {t : EngineThread σ} (h : t.Inv) (halive : t.phase ≠ .ended) {k : Nat}
    {queue : List (Nat × EngineCommand)} (hqueue : t.queue = (k, .close) :: queue) :
    (EngineThread.exit { t with
      queue
      resets := t.resets + 1
      replies := t.replies ++ [(k, Reply.closed)] }).Inv := by
  obtain ⟨hreplies, hk, hsent⟩ := h.head halive hqueue
  have hmem : ∀ j, (j, Reply.closed) ∈ t.replies ++ [(k, Reply.closed)] ++
      queue.map (fun p => (p.1, Reply.dropped)) ↔ j = k := by
    intro j
    rw [hreplies]
    simp [answered]
  exact {
    order := by
      have horder := h.order
      rw [hqueue] at horder
      simpa [EngineThread.exit, Function.comp_def] using horder
    queued := by simp [EngineThread.exit]
    executed := h.executed
    replies := by
      refine ⟨(k, .closed) :: queue.map fun p => (p.1, .dropped), ?_, ?_, fun hne => (hne rfl).elim⟩
      · simp [EngineThread.exit, hreplies]
      · intro r hr out
        rcases List.mem_cons.1 hr with rfl | hr
        · exact Reply.noConfusion
        · obtain ⟨p, -, rfl⟩ := List.mem_map.1 hr
          exact Reply.noConfusion
    idle := fun _ => rfl
    resets := by
      refine ⟨?_, fun hne => (hne rfl).elim⟩
      show t.resets + 1 ≤ 1
      rw [h.resets.2 halive]
    closed := by
      intro j hj
      obtain rfl := (hmem j).1 hj
      exact ⟨hk, hsent⟩
    resets_iff := by
      show t.resets + 1 = 1 ↔ ∃ j, (j, Reply.closed) ∈ _
      rw [h.resets.2 halive]
      exact ⟨fun _ => ⟨k, (hmem k).2 rfl⟩, fun _ => rfl⟩ }

/-- What a turn of `run` comes to. -/
theorem work_cases {fuel : Nat} {t t' : EngineThread σ} (h : t.work N fuel = some t') :
    ∃ s k queue, t.phase = .serving s ∧
      ((∃ wire out s', t.queue = (k, .exec wire) :: queue ∧
          N.execProtocol fuel wire s = some (out, s') ∧
          t' = { t with
            phase := .serving s'
            queue
            served := t.served ++ [⟨k, wire, out⟩]
            replies := t.replies ++ [(k, .response out)] }) ∨
        (t.queue = (k, .close) :: queue ∧
          t' = EngineThread.exit { t with
            queue
            resets := t.resets + 1
            replies := t.replies ++ [(k, Reply.closed)] })) := by
  rw [work] at h
  split at h
  · rename_i s k wire queue hphase hqueue
    split at h
    · cases h
    · rename_i out s' hexec
      exact ⟨s, k, queue, hphase, .inl ⟨wire, out, s', hqueue, hexec, (Option.some.inj h).symm⟩⟩
  · rename_i s k queue hphase hqueue
    split at h
    · cases h
    · exact ⟨s, k, queue, hphase, .inr ⟨hqueue, (Option.some.inj h).symm⟩⟩
  · cases h

/-- How `boot` ends: the thread serves, or has returned. -/
theorem boot_cases {r : Option (Except Error σ)} {t t' : EngineThread σ} (h : t.boot r = some t') :
    t.phase = .booting ∧
      ((∃ s, r = some (.ok s) ∧ t' = { t with phase := .serving s, bootResult := some (.ok ()) }) ∨
        ∃ e, t' = EngineThread.exit { t with bootResult := some (.error e) }) := by
  have hphase : t.phase = .booting := by
    cases hphase : t.phase with
    | booting => rfl
    | serving s | ended => cases r with
      | none => simp [boot, hphase] at h
      | some r => cases r <;> simp [boot, hphase] at h
  refine ⟨hphase, ?_⟩
  cases r with
  | none => exact .inr ⟨_, by simpa [boot, hphase] using h.symm⟩
  | some r =>
    cases r with
    | error e => exact .inr ⟨e, by simpa [boot, hphase] using h.symm⟩
    | ok s => exact .inl ⟨s, rfl, by simpa [boot, hphase] using h.symm⟩

theorem hangup_cases {t t' : EngineThread σ} (h : t.hangup = some t') :
    (∃ s, t.phase = .serving s) ∧ t' = t.exit := by
  unfold hangup at h
  split at h
  · rename_i s hphase hqueue
    exact ⟨⟨s, hphase⟩, (Option.some.inj h).symm⟩
  · cases h

/-- **Step lemma.** -/
theorem Inv.move {t t' : EngineThread σ} (h : t.Inv) (hmove : Move N C B t t') : t'.Inv := by
  cases hmove with
  | send hcmd => exact h.send _
  | boot hstart hboot =>
    obtain ⟨hphase, ⟨s, -, rfl⟩ | ⟨e, rfl⟩⟩ := boot_cases hboot
    · have halive : t.phase ≠ .ended := by simp [hphase]
      obtain ⟨tail, hreplies, htail, hnil⟩ := h.replies
      exact ⟨h.order, h.queued, h.executed, ⟨tail, hreplies, htail, fun _ => hnil halive⟩,
        fun hend => (by cases hend), ⟨h.resets.1, fun _ => h.resets.2 halive⟩, h.closed, h.resets_iff⟩
    · exact Inv.exit (t := { t with bootResult := some (.error e) })
        ⟨h.order, h.queued, h.executed, h.replies, h.idle, h.resets, h.closed, h.resets_iff⟩
  | work hwork =>
    obtain ⟨s, k, queue, hphase, ⟨wire, out, s', hqueue, -, rfl⟩ | ⟨hqueue, rfl⟩⟩ := work_cases hwork
    · exact h.served (by simp [hphase]) hqueue out
    · exact h.closing (by simp [hphase]) hqueue
  | hangup hhangup =>
    obtain ⟨-, rfl⟩ := hangup_cases hhangup
    exact h.exit

/-- A thread that has returned stays so, what was sent stays sent, and a result of `boot` stays. -/
theorem Move.keeps {t t' : EngineThread σ} (hmove : Move N C B t t') :
    (t'.phase ≠ .ended → t.phase ≠ .ended) ∧
      (∀ (k : Nat) (c : EngineCommand), t.sent[k]? = some c → t'.sent[k]? = some c) ∧
      (t.phase ≠ .booting → t'.bootResult = t.bootResult ∧ t'.phase ≠ .booting) := by
  cases hmove with
  | send hcmd =>
    refine ⟨by simp, fun k c hk => ?_, by simp⟩
    rw [send_sent]
    exact getElem?_sent_append hk _
  | boot hstart hboot =>
    obtain ⟨hphase, ⟨s, -, rfl⟩ | ⟨e, rfl⟩⟩ := boot_cases hboot
    · exact ⟨fun _ => by simp [hphase], fun _ _ h => h, fun hne => (hne hphase).elim⟩
    · exact ⟨fun _ => by simp [hphase], fun _ _ h => h, fun hne => (hne hphase).elim⟩
  | work hwork =>
    obtain ⟨s, k, queue, hphase, ⟨wire, out, s', -, -, rfl⟩ | ⟨-, rfl⟩⟩ := work_cases hwork
    · exact ⟨fun _ => by simp [hphase], fun _ _ h => h, fun _ => ⟨rfl, by simp⟩⟩
    · exact ⟨fun _ => by simp [hphase], fun _ _ h => h, fun _ => ⟨rfl, by simp [exit]⟩⟩
  | hangup hhangup =>
    obtain ⟨⟨s, hphase⟩, rfl⟩ := hangup_cases hhangup
    exact ⟨fun _ => by simp [hphase], fun _ _ h => h, fun _ => ⟨rfl, by simp [exit]⟩⟩

/-- While the thread boots there is no result, and a failure ends it. -/
structure Booted (t : EngineThread σ) : Prop where
  booting : t.phase = .booting → t.bootResult = none
  failed : ∀ e, t.bootResult = some (.error e) → t.phase = .ended

theorem Booted.move {t t' : EngineThread σ} (h : t.Booted) (hmove : Move N C B t t') :
    t'.Booted := by
  cases hmove with
  | send hcmd => exact ⟨by simpa using h.booting, by simpa using h.failed⟩
  | boot hstart hboot =>
    obtain ⟨hphase, ⟨s, -, rfl⟩ | ⟨e, rfl⟩⟩ := boot_cases hboot
    · exact ⟨fun hb => (by cases hb), fun e he => (by cases he)⟩
    · exact ⟨fun hb => (by cases hb), fun _ _ => rfl⟩
  | work hwork =>
    obtain ⟨s, k, queue, hphase, ⟨wire, out, s', -, -, rfl⟩ | ⟨-, rfl⟩⟩ := work_cases hwork
    · refine ⟨fun hb => (by cases hb), fun e he => ?_⟩
      have := h.failed e he
      rw [hphase] at this
      cases this
    · exact ⟨fun hb => (by cases hb), fun _ _ => rfl⟩
  | hangup hhangup =>
    obtain ⟨-, rfl⟩ := hangup_cases hhangup
    exact ⟨fun hb => (by cases hb), fun _ _ => rfl⟩

/-! ## What the session makes of them -/

variable {M : Machine τ}

/-- The bytes are messages. -/
def IsMessages (wire : List UInt8) : Prop :=
  ∃ fs, (∀ f ∈ fs, Frame.Fits f) ∧ wire = encodeAll fs

/-- A command that is to be executed is messages. -/
def Framed (cmd : EngineCommand) : Prop := ∀ wire, cmd = .exec wire → IsMessages wire

theorem isMessages_terminate : IsMessages terminateWire :=
  ⟨[⟨88, []⟩], by decide, by decide⟩

/-- The thread has answered these commands, and nothing else, as the session does. -/
structure Follows (R : N.Runs M) (m : τ) (t : EngineThread σ) (fss : List (List Frame)) : Prop where
  wires : t.served.map Served.wire = fss.map encodeAll
  responses : t.served.map Served.response = (M.respondAll m fss).2
  queue : ∀ x ∈ t.queue, Framed x.2
  session : ∀ s, t.phase = .serving s → R.Idle s ∧ R.session s = (M.respondAll m fss).1
  booting : t.phase = .booting → fss = []

theorem Follows.ended {R : N.Runs M} {m : τ} {t t' : EngineThread σ} {fss : List (List Frame)}
    (h : t.Follows R m fss) (hserved : t'.served = t.served) (hphase : t'.phase = .ended)
    (hqueue : t'.queue = []) : t'.Follows R m fss where
  wires := hserved ▸ h.wires
  responses := hserved ▸ h.responses
  queue := by simp [hqueue]
  session := by simp [hphase]
  booting := by simp [hphase]

/-- **Step lemma.** -/
theorem Follows.move {R : N.Runs M} {m : τ} {t t' : EngineThread σ} {fss : List (List Frame)}
    (h : t.Follows R m fss)
    (hmove : Move N Framed (fun s => R.Idle s ∧ R.session s = m) t t') :
    ∃ fss', t'.Follows R m fss' := by
  cases hmove with
  | send hcmd =>
    refine ⟨fss, ⟨by simpa using h.wires, by simpa using h.responses, fun x hx => ?_,
      by simpa using h.session, by simpa using h.booting⟩⟩
    unfold EngineThread.send at hx
    cases hphase : t.phase with
    | ended =>
      rw [hphase] at hx
      exact h.queue x hx
    | booting | serving s =>
      rw [hphase] at hx
      rcases List.mem_append.1 hx with hx | hx
      · exact h.queue x hx
      · rw [List.mem_singleton.1 hx]
        exact hcmd
  | boot hstart hboot =>
    obtain ⟨hphase, ⟨s, rfl, rfl⟩ | ⟨e, rfl⟩⟩ := boot_cases hboot
    · obtain rfl := h.booting hphase
      refine ⟨[], ⟨h.wires, h.responses, h.queue, fun s' hs => ?_, fun _ => rfl⟩⟩
      cases hs
      exact hstart s rfl
    · exact ⟨fss, h.ended rfl rfl rfl⟩
  | work hwork =>
    obtain ⟨s, k, queue, hphase, ⟨wire, out, s', hqueue, hexec, rfl⟩ | ⟨hqueue, rfl⟩⟩ :=
      work_cases hwork
    · obtain ⟨hidle, hsession⟩ := h.session s hphase
      obtain ⟨fs, hfits, rfl⟩ := h.queue (k, .exec wire) (hqueue ▸ List.mem_cons_self) wire rfl
      obtain ⟨rfl, hafter, hidle'⟩ := R.execProtocol_eq hidle hfits hexec
      rw [hsession] at hafter
      refine ⟨fss ++ [fs], ⟨?_, ?_, ?_, ?_, by simp⟩⟩
      · rw [List.map_append, List.map_append, h.wires]
        rfl
      · rw [List.map_append, h.responses, M.respondAll_append_single, hsession]
        rfl
      · exact fun x hx => h.queue x (hqueue ▸ List.mem_cons_of_mem _ hx)
      · intro s'' hs
        cases hs
        exact ⟨hidle', by rw [hafter, M.respondAll_append_single]⟩
    · exact ⟨fss, h.ended rfl rfl rfl⟩
  | hangup hhangup =>
    obtain ⟨-, rfl⟩ := hangup_cases hhangup
    exact ⟨fss, h.ended rfl rfl rfl⟩

/-- A command in the channel does not stay there: the loop of `exec_protocol` ends. -/
theorem Follows.work_returns {R : N.Runs M} {m : τ} {t : EngineThread σ} {fss : List (List Frame)}
    (h : t.Follows R m fss) {s : σ} (hphase : t.phase = .serving s) (hqueue : t.queue ≠ []) :
    ∃ fuel t', t.work N fuel = some t' := by
  obtain ⟨hidle, -⟩ := h.session s hphase
  have hreturns : ∀ wire, IsMessages wire → ∃ fuel out s', N.execProtocol fuel wire s = some (out, s') := by
    rintro wire ⟨fs, hfits, rfl⟩
    exact ⟨fs.length + 1, R.execProtocol_returns hidle hfits (Nat.lt_succ_self _)⟩
  cases hq : t.queue with
  | nil => exact (hqueue hq).elim
  | cons x queue =>
    obtain ⟨k, cmd⟩ := x
    cases cmd with
    | exec wire =>
      obtain ⟨fuel, out, s', hexec⟩ :=
        hreturns wire (h.queue (k, .exec wire) (hq ▸ List.mem_cons_self) wire rfl)
      refine ⟨fuel, ?_⟩
      rw [work, hphase, hq]
      simp only [hexec]
      exact ⟨_, rfl⟩
    | close =>
      obtain ⟨fuel, out, s', hexec⟩ := hreturns terminateWire isMessages_terminate
      refine ⟨fuel, ?_⟩
      rw [work, hphase, hq]
      simp only [hexec]
      exact ⟨_, rfl⟩

end EngineThread

end Pglite.Engine
