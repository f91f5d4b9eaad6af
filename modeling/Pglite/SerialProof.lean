import Pglite.OrderedLog
import Pglite.Runs
import Pglite.Serial
import Pglite.ServerProof
import Mathlib.Data.List.Induction

/-!
# What `tx_lock` protects

Reading the queue from its start tells which call has a block open after each command
(`owner`). The lock keeps the queue disciplined: while a call owns a block, only that call sends.
One path breaks this. `Transaction::begin` queues `BEGIN` before the `Transaction` exists whose
`Drop` would queue the `ROLLBACK`, so a future dropped while it awaits the reply to `BEGIN` gives
the lock back with the block still open.

* `Serial.Inv`: the discipline of the queue, what each call may rely on at its await point, and
  that the engine's session is idle wherever the queue says so.
* `Serial.inv_step`: every step but that one keeps it.
-/

namespace Pglite

open Runs OrderedLog

variable {α : Type*} {ls : Listeners} {d : Catalog α}

namespace Serial

/-! ## Who owns a block -/

/-- The owner of the open block after a batch. -/
def after (who : Party) (o : Option Party) : Batch α → Option Party
  | .begin => some who
  | .commit => none
  | .rollback => none
  | _ => o

/-- The owner of the open block after these commands. -/
def owner (cmds : List (Command α)) : Option Party :=
  cmds.foldl (fun o cmd => cmd.batches.foldl (after cmd.who) o) none

@[simp] theorem owner_nil : owner ([] : List (Command α)) = none := rfl

theorem owner_append_single (cmds : List (Command α)) (who : Party) (b : Batch α) :
    owner (cmds ++ [⟨who, [b]⟩]) = after who (owner cmds) b := by
  simp [owner]

theorem after_isStatement {b : Batch α} (hb : b.isStatement = true) (who : Party)
    (o : Option Party) : after who o b = o := by
  cases b <;> first | rfl | cases hb

/-- Whoever owns a block has sent a `BEGIN`. -/
theorem exists_begin_of_owner {cmds : List (Command α)}
    (hsingle : ∀ cmd ∈ cmds, ∃ b, cmd.batches = [b]) {p : Party} (h : owner cmds = some p) :
    ⟨p, [.begin]⟩ ∈ cmds := by
  induction cmds using List.reverseRecOn with
  | nil => cases h
  | append_singleton cmds cmd ih =>
    obtain ⟨b, hb⟩ := hsingle cmd (by simp)
    obtain ⟨who, batches⟩ := cmd
    obtain rfl : batches = [b] := hb
    rw [owner_append_single] at h
    have ih' : owner cmds = some p → ⟨p, [.begin]⟩ ∈ cmds ++ [⟨who, [b]⟩] := fun ho =>
      List.mem_append_left _ (ih (fun cmd hcmd => hsingle cmd (List.mem_append_left _ hcmd)) ho)
    cases b with
    | begin =>
      obtain rfl : who = p := Option.some.inj h
      simp
    | commit | rollback => cases h
    | query a | parse a | bind => exact ih' h

/-! ## The queue and the engine -/

/-- The call made by the task `t`. -/
def callOf (s : Serial α) (t : Nat) : Option (ApiCall α) :=
  (s.tasks[t]?).map Task.call

/-- The queue is disciplined and the engine's session is idle where the queue says so. -/
structure QueueOk (s : Serial α) : Prop where
  /-- Commands come from calls, and only a `transaction` call sends more than statements. -/
  sent : ∀ cmd ∈ s.sent, ∃ t b c, cmd = ⟨.task t, [b]⟩ ∧ s.callOf t = some c ∧
    (c ≠ .transaction → b.isStatement = true)
  disciplined : ∀ i cmd p, s.sent[i]? = some cmd → owner (s.sent.take i) = some p → cmd.who = p
  executed_le : s.executed ≤ s.sent.length
  idle : owner (s.sent.take s.executed) = none → s.server.session.block = .idle
  found : ∀ x ∈ s.found, ∃ t c, x.who = .task t ∧ s.callOf t = some c ∧
    (c ≠ .transaction → x.block = .idle)

theorem callOf_goto {s : Serial α} {t : Nat} {task : Task α} (h : s.tasks[t]? = some task)
    (pc : ApiPc α) (j : Nat) : (s.goto t task pc).callOf j = s.callOf j := by
  obtain ⟨hlt, rfl⟩ := List.getElem?_eq_some_iff.1 h
  simp only [callOf, goto, List.getElem?_set]
  by_cases htj : t = j
  · subst htj
    simp [hlt]
  · simp [htj]

theorem QueueOk.congr {s s' : Serial α} (h : s.QueueOk)
    (hcall : ∀ t c, s.callOf t = some c → s'.callOf t = some c) (hsent : s'.sent = s.sent)
    (hexecuted : s'.executed = s.executed) (hserver : s'.server = s.server)
    (hfound : s'.found = s.found) : s'.QueueOk where
  sent := by
    rw [hsent]
    intro cmd hcmd
    obtain ⟨t, b, c, hcmd, hc, hb⟩ := h.sent cmd hcmd
    exact ⟨t, b, c, hcmd, hcall t c hc, hb⟩
  disciplined := by
    rw [hsent]
    exact h.disciplined
  executed_le := by
    rw [hsent, hexecuted]
    exact h.executed_le
  idle := by
    rw [hsent, hexecuted, hserver]
    exact h.idle
  found := by
    rw [hfound]
    intro x hx
    obtain ⟨t, c, hwho, hc, hidle⟩ := h.found x hx
    exact ⟨t, c, hwho, hcall t c hc, hidle⟩

theorem QueueOk.goto {s : Serial α} (h : s.QueueOk) {t : Nat} {task : Task α}
    (ht : s.tasks[t]? = some task) (pc : ApiPc α) : (s.goto t task pc).QueueOk :=
  h.congr (fun j c hc => by rw [callOf_goto ht]; exact hc) rfl rfl rfl rfl

theorem QueueOk.lock {s : Serial α} (h : s.QueueOk) (l : Option Party) :
    QueueOk { s with lock := l } :=
  h.congr (fun _ _ hc => hc) rfl rfl rfl rfl

theorem QueueOk.call {s : Serial α} (h : s.QueueOk) (c : ApiCall α) :
    QueueOk { s with tasks := s.tasks ++ [⟨c, .lock⟩] } := by
  refine h.congr (fun t c' hc => ?_) rfl rfl rfl rfl
  obtain ⟨task, htask, rfl⟩ := Option.map_eq_some_iff.1 hc
  have hlt : t < s.tasks.length := (List.getElem?_eq_some_iff.1 htask).1
  rw [callOf, List.getElem?_append_left hlt, htask]
  rfl

/-- A call may send when no block is open, or when the open one is its own. -/
theorem QueueOk.send {s : Serial α} (h : s.QueueOk) {t : Nat} {c : ApiCall α} {b : Batch α}
    (ho : ∀ p, owner s.sent = some p → p = .task t) (hc : s.callOf t = some c)
    (hb : c ≠ .transaction → b.isStatement = true) : (s.send (.task t) [b]).QueueOk where
  sent := by
    intro cmd hcmd
    rcases List.mem_append.1 hcmd with hcmd | hcmd
    · exact h.sent cmd hcmd
    · exact ⟨t, b, c, List.mem_singleton.1 hcmd, hc, hb⟩
  disciplined := by
    intro i cmd p hi hp
    simp only [Serial.send] at hi hp
    rcases getElem?_append_single hi with hi | ⟨rfl, rfl⟩
    · have hlt := (List.getElem?_eq_some_iff.1 hi).1
      rw [List.take_append_of_le_length hlt.le] at hp
      exact h.disciplined i cmd p hi hp
    · rw [List.take_append_of_le_length (Nat.le_refl _), List.take_length] at hp
      exact (ho p hp).symm
  executed_le := by
    have := h.executed_le
    simp only [Serial.send, List.length_append]
    omega
  idle := by
    have := h.executed_le
    simp only [Serial.send]
    rw [List.take_append_of_le_length this]
    exact h.idle
  found := h.found

/-! ## The engine -/

/-- A batch of a call moves the session as the queue says: where no block is open after it, the
session is idle. -/
theorem exec_idle {s : Server Party α} {who : Party} {o : Option Party} {b : Batch α}
    {v : Verdict} (h : o = none → s.session.block = .idle) (ho : after who o b = none) :
    (s.exec d who b v).1.session.block = .idle := by
  by_cases hb : b.isStatement = true
  · rw [after_isStatement hb] at ho
    have hopener := (Server.exec_stmt_spec (d := d) s who hb v).1
    rw [h ho] at hopener
    simpa using hopener
  · cases b with
    | begin => cases ho
    | commit | rollback =>
      cases hs : s.session.block <;> cases v <;>
        simp [Server.exec, Server.ready, Server.endBlock, hs]
    | query a | parse a | bind => exact absurd rfl hb

theorem runBatches_single (who : Party) (s : Server Party α) (b : Batch α) (vs : List Verdict) :
    (runBatches d who s [b] vs).1 = (s.exec d who b (vs.headD (.accept []))).1 ∧
      (runBatches d who s [b] vs).2.1 = [⟨who, b, s.session.block⟩] := by
  unfold runBatches
  dsimp only
  split <;> simp [runBatches]

theorem QueueOk.engine {s : Serial α} (h : s.QueueOk) {cmd : Command α}
    (hcmd : s.sent[s.executed]? = some cmd) (vs : List Verdict) :
    (s.engine d cmd vs).QueueOk := by
  obtain ⟨t, b, c, rfl, hc, hb⟩ := h.sent cmd (List.mem_of_getElem? hcmd)
  obtain ⟨hserver, hfound⟩ := runBatches_single (d := d) (.task t) s.server b vs
  have hlt : s.executed < s.sent.length := (List.getElem?_eq_some_iff.1 hcmd).1
  have htake : s.sent.take (s.executed + 1) = s.sent.take s.executed ++ [⟨.task t, [b]⟩] := by
    rw [List.take_add_one, hcmd]
    rfl
  refine ⟨h.sent, h.disciplined, hlt, ?_, ?_⟩
  · show owner (s.sent.take (s.executed + 1)) = none → _
    rw [htake, owner_append_single]
    intro ho
    show (runBatches d (.task t) s.server [b] vs).1.session.block = .idle
    rw [hserver]
    exact exec_idle h.idle ho
  · show ∀ x ∈ s.found ++ (runBatches d (.task t) s.server [b] vs).2.1, _
    rw [hfound, List.forall_mem_append, List.forall_mem_singleton]
    refine ⟨h.found, t, c, rfl, hc, ?_⟩
    -- A block open at this point belongs to this very call, which then is a `transaction`.
    intro hnot
    apply h.idle
    cases ho : owner (s.sent.take s.executed) with
    | none => rfl
    | some p =>
      obtain rfl : Party.task t = p := h.disciplined s.executed _ p hcmd ho
      have hsingle : ∀ cmd ∈ s.sent.take s.executed, ∃ b, cmd.batches = [b] := by
        intro cmd hmem
        obtain ⟨_, b, _, rfl, _⟩ := h.sent cmd (List.mem_of_mem_take hmem)
        exact ⟨b, rfl⟩
      have hbegin := exists_begin_of_owner hsingle ho
      obtain ⟨t', b', c', heq, hc', hb'⟩ := h.sent _ (List.mem_of_mem_take hbegin)
      cases heq
      obtain rfl : c = c' := Option.some.inj (hc.symm.trans hc')
      cases hb' hnot

/-! ## The calls -/

/-- What a call may rely on at its await point: whether it holds the lock, and who owns the open
block. -/
def PcOk (lock o : Option Party) (t : Nat) (task : Task α) : Prop :=
  match task.pc with
  | .lock => True
  | .done => True
  | .reply _ rest => lock = some (.task t) ∧ o = none ∧ task.call ≠ .transaction ∧
      ∀ b ∈ rest, b.isStatement = true
  | .begin _ => lock = some (.task t) ∧ o = some (.task t) ∧ task.call = .transaction
  | .tx => lock = some (.task t) ∧ o = some (.task t) ∧ task.call = .transaction
  | .ending _ => lock = some (.task t) ∧ o = none

/-- The queue, the lock and the calls fit together. -/
structure Inv (s : Serial α) : Prop where
  queue : s.QueueOk
  free : s.lock = none → owner s.sent = none
  calls : ∀ t task, s.tasks[t]? = some task → PcOk s.lock (owner s.sent) t task

/-- A call without the lock relies on nothing. -/
theorem PcOk.of_not_holder {lock lock' o o' : Option Party} {t : Nat} {task : Task α}
    (h : PcOk lock o t task) (hlock : lock ≠ some (.task t)) : PcOk lock' o' t task := by
  obtain ⟨c, pc⟩ := task
  cases pc with
  | lock | done => trivial
  | reply n rest => exact absurd h.1 hlock
  | begin n | tx => exact absurd h.1 hlock
  | ending n => exact absurd h.1 hlock

theorem calls_goto {s : Serial α} {t : Nat} {task : Task α} (ht : s.tasks[t]? = some task)
    {lock o : Option Party} {pc : ApiPc α} (hpc : PcOk lock o t { task with pc := pc })
    (hothers : ∀ j task', t ≠ j → s.tasks[j]? = some task' → PcOk lock o j task') :
    ∀ j task', (s.goto t task pc).tasks[j]? = some task' → PcOk lock o j task' := by
  intro j task' hj
  have hlt : t < s.tasks.length := (List.getElem?_eq_some_iff.1 ht).1
  simp only [goto, List.getElem?_set] at hj
  by_cases htj : t = j
  · subst htj
    rw [if_pos rfl, if_pos hlt] at hj
    obtain rfl := Option.some.inj hj
    exact hpc
  · rw [if_neg htj] at hj
    exact hothers j task' htj hj

/-- While the call `t` holds the lock, or nobody does, no other call relies on anything. -/
theorem Inv.others {s : Serial α} (h : s.Inv) {t : Nat}
    (hlock : s.lock = none ∨ s.lock = some (.task t)) (lock o : Option Party) :
    ∀ j task', t ≠ j → s.tasks[j]? = some task' → PcOk lock o j task' := by
  intro j task' htj hj
  refine (h.calls j task' hj).of_not_holder ?_
  intro hj'
  rcases hlock with hlock | hlock
  · rw [hlock] at hj'
    cases hj'
  · rw [hlock] at hj'
    cases hj'
    exact htj rfl

/-- A call moves on without sending anything. -/
theorem Inv.move {s : Serial α} (h : s.Inv) {t : Nat} {task : Task α}
    (ht : s.tasks[t]? = some task) (hlock : s.lock = none ∨ s.lock = some (.task t))
    {lock : Option Party} {pc : ApiPc α}
    (hpc : PcOk lock (owner s.sent) t { task with pc := pc })
    (hfree : lock = none → owner s.sent = none) :
    Inv ({ s with lock := lock }.goto t task pc) where
  queue := (h.queue.lock lock).goto ht pc
  free := hfree
  calls := calls_goto ht hpc (h.others hlock _ _)

/-- A call moves on with a batch of its own. -/
theorem Inv.sendMove {s : Serial α} (h : s.Inv) {t : Nat} {task : Task α}
    (ht : s.tasks[t]? = some task) (hlock : s.lock = none ∨ s.lock = some (.task t))
    {lock : Option Party} {pc : ApiPc α} {b : Batch α}
    (hb : task.call ≠ .transaction → b.isStatement = true)
    (ho : ∀ p, owner s.sent = some p → p = .task t)
    (hpc : PcOk lock (after (.task t) (owner s.sent) b) t { task with pc := pc })
    (hfree : lock = none → after (.task t) (owner s.sent) b = none) :
    Inv ({ s.send (.task t) [b] with lock := lock }.goto t task pc) := by
  have hc : s.callOf t = some task.call := by
    rw [callOf, ht]
    rfl
  refine ⟨((h.queue.send ho hc hb).lock lock).goto ht pc, ?_, ?_⟩
  · show lock = none → owner (s.sent ++ [⟨.task t, [b]⟩]) = none
    rw [owner_append_single]
    exact hfree
  · show ∀ j task', (s.goto t task pc).tasks[j]? = some task' →
      PcOk lock (owner (s.sent ++ [⟨.task t, [b]⟩])) j task'
    rw [owner_append_single]
    exact calls_goto ht hpc (h.others hlock _ _)

/-! ## Steps -/

/-- The step gives the lock back without closing the block: `transaction` is dropped while it
awaits the reply to `BEGIN`, or `BEGIN` was answered with an error. -/
def abandons (ls : Listeners) (s : Serial α) : Event α → Bool
  | .cancel t =>
    match s.tasks[t]? with
    | some ⟨_, .begin _⟩ => true
    | _ => false
  | .resume t _ =>
    match s.tasks[t]? with
    | some ⟨_, .begin n⟩ =>
      match s.answers[n]? with
      | some response =>
        match (processResponse ls (response.map .ok)).2 with
        | .ok () => false
        | .error _ => true
      | none => false
    | _ => false
  | _ => false

theorem batches_eq_cons {c : ApiCall α} {b : Batch α} {rest : List (Batch α)}
    (h : c.batches = b :: rest) :
    (c = .transaction ∧ b = .begin ∧ rest = []) ∨
      (c ≠ .transaction ∧ ∀ x ∈ b :: rest, x.isStatement = true) := by
  rw [← h]
  cases c with
  | transaction => cases h; exact Or.inl ⟨rfl, rfl, rfl⟩
  | unlistenToken a last => cases last <;> simp [ApiCall.batches, Batch.isStatement]
  | _ => simp [ApiCall.batches, Batch.isStatement]

theorem Inv.acquire {s s' : Serial α} (h : s.Inv) {t : Nat}
    (hstep : s.step ls d (.acquire t) = some s') : s'.Inv := by
  simp only [step] at hstep
  split at hstep
  case h_2 => cases hstep
  case h_1 c ht hfree =>
    have hnone := h.free hfree
    split at hstep
    case h_1 =>
      obtain rfl := Option.some.inj hstep
      show Inv ({ s with lock := s.lock }.goto t ⟨c, .lock⟩ .done)
      exact h.move ht (Or.inl hfree) trivial h.free
    case h_2 b rest hbatches =>
      obtain rfl := Option.some.inj hstep
      have ho : ∀ p, owner s.sent = some p → p = .task t := by simp [hnone]
      rcases batches_eq_cons hbatches with ⟨rfl, rfl, rfl⟩ | ⟨hc, hstmt⟩
      · exact h.sendMove ht (Or.inl hfree) (fun hne => absurd rfl hne) ho ⟨rfl, rfl, rfl⟩
          fun hl => nomatch hl
      · have hb := hstmt b List.mem_cons_self
        have hpc : c.afterFirst s.sent.length rest = .reply s.sent.length rest := by
          cases c <;> first | rfl | exact absurd rfl hc
        rw [hpc]
        refine h.sendMove ht (Or.inl hfree) (fun _ => hb) ho ?_ fun hl => nomatch hl
        rw [after_isStatement hb, hnone]
        exact ⟨rfl, rfl, hc, fun x hx => hstmt x (List.mem_cons_of_mem _ hx)⟩

theorem Inv.resume {s s' : Serial α} (h : s.Inv) {t : Nat} {more : Bool}
    (hok : s.abandons ls (.resume t more) = false)
    (hstep : s.step ls d (.resume t more) = some s') : s'.Inv := by
  simp only [step] at hstep
  split at hstep
  case h_1 c n rest ht =>
    obtain ⟨hlock, hnone, hc, hrest⟩ := h.calls t _ ht
    have ho : ∀ p, owner s.sent = some p → p = .task t := by simp [hnone]
    split at hstep
    case isFalse => cases hstep
    case isTrue hreply =>
      split at hstep
      case h_1 b rest =>
        obtain rfl := Option.some.inj hstep
        have hb := hrest b List.mem_cons_self
        show Inv ({ s.send (.task t) [b] with lock := s.lock }.goto t _ _)
        refine h.sendMove ht (Or.inr hlock) (fun _ => hb) ho ?_ ?_
        · rw [after_isStatement hb]
          exact ⟨hlock, hnone, hc, fun x hx => hrest x (List.mem_cons_of_mem _ hx)⟩
        · rw [after_isStatement hb]
          exact h.free
      case h_2 =>
        obtain rfl := Option.some.inj hstep
        exact h.move ht (Or.inr hlock) trivial fun _ => hnone
  case h_2 c n ht =>
    obtain ⟨hlock, howner, hc⟩ := h.calls t _ ht
    split at hstep
    case h_1 => cases hstep
    case h_2 response hresponse =>
      simp only [abandons, ht, hresponse] at hok
      split at hstep
      case h_1 hres =>
        obtain rfl := Option.some.inj hstep
        show Inv ({ s with lock := s.lock }.goto t ⟨c, .begin n⟩ .tx)
        exact h.move ht (Or.inr hlock) ⟨hlock, howner, hc⟩ h.free
      case h_2 e hres =>
        rw [hres] at hok
        cases hok
  case h_3 c n ht =>
    obtain ⟨hlock, hnone⟩ := h.calls t _ ht
    split at hstep
    case isFalse => cases hstep
    case isTrue =>
      obtain rfl := Option.some.inj hstep
      exact h.move ht (Or.inr hlock) trivial fun _ => hnone
  case h_4 => cases hstep

/-- What a `Transaction` does: statements, and one batch that closes its block. -/
theorem Inv.transaction {s s' : Serial α} (h : s.Inv) {t : Nat} {e : Event α}
    (he : (∃ b, e = .use t b) ∨ e = .commit t ∨ e = .rollback t ∨ e = .drop t)
    (hstep : s.step ls d e = some s') : s'.Inv := by
  have htx : ∀ c, s.tasks[t]? = some ⟨c, .tx⟩ → s.lock = some (.task t) ∧
      owner s.sent = some (.task t) ∧ c = .transaction := fun c ht => h.calls t _ ht
  have ho : ∀ c, s.tasks[t]? = some ⟨c, .tx⟩ → ∀ p, owner s.sent = some p → p = .task t := by
    intro c ht p hp
    rw [(htx c ht).2.1] at hp
    exact (Option.some.inj hp).symm
  rcases he with ⟨b, rfl⟩ | rfl | rfl | rfl
  · simp only [step] at hstep
    split at hstep
    case h_2 => cases hstep
    case h_1 c ht =>
      split at hstep
      case isFalse => cases hstep
      case isTrue hb =>
        obtain rfl := Option.some.inj hstep
        have hsend := h.queue.send (ho c ht) (by rw [callOf, ht]; rfl) fun _ => hb
        have howner : owner (s.sent ++ [⟨.task t, [b]⟩]) = owner s.sent := by
          rw [owner_append_single, after_isStatement hb]
        refine ⟨hsend, ?_, ?_⟩
        · show s.lock = none → owner (s.sent ++ [⟨.task t, [b]⟩]) = none
          rw [howner]
          exact h.free
        · show ∀ j task', s.tasks[j]? = some task' →
            PcOk s.lock (owner (s.sent ++ [⟨.task t, [b]⟩])) j task'
          rw [howner]
          exact h.calls
  · simp only [step] at hstep
    split at hstep
    case h_2 => cases hstep
    case h_1 c ht =>
      obtain rfl := Option.some.inj hstep
      obtain ⟨hlock, -, hc⟩ := htx c ht
      show Inv ({ s.send (.task t) [.commit] with lock := s.lock }.goto t _ _)
      exact h.sendMove ht (Or.inr hlock) (fun hne => absurd hc hne) (ho c ht) ⟨hlock, rfl⟩
        fun _ => rfl
  · simp only [step] at hstep
    split at hstep
    case h_2 => cases hstep
    case h_1 c ht =>
      obtain rfl := Option.some.inj hstep
      obtain ⟨hlock, -, hc⟩ := htx c ht
      show Inv ({ s.send (.task t) [.rollback] with lock := s.lock }.goto t _ _)
      exact h.sendMove ht (Or.inr hlock) (fun hne => absurd hc hne) (ho c ht) ⟨hlock, rfl⟩
        fun _ => rfl
  · simp only [step] at hstep
    split at hstep
    case h_2 => cases hstep
    case h_1 c ht =>
      obtain rfl := Option.some.inj hstep
      obtain ⟨hlock, -, hc⟩ := htx c ht
      exact h.sendMove ht (Or.inr hlock) (fun hne => absurd hc hne) (ho c ht) trivial fun _ => rfl

theorem Inv.cancel {s s' : Serial α} (h : s.Inv) {t : Nat}
    (hok : s.abandons ls (.cancel t) = false)
    (hstep : s.step ls d (.cancel t) = some s') : s'.Inv := by
  simp only [step] at hstep
  split at hstep
  case h_1 c ht =>
    obtain rfl := Option.some.inj hstep
    exact ⟨h.queue.goto ht .done, h.free, calls_goto ht trivial fun j task' _ hj => h.calls j task' hj⟩
  case h_2 c n rest ht =>
    obtain ⟨hlock, hnone, -⟩ := h.calls t _ ht
    obtain rfl := Option.some.inj hstep
    exact h.move ht (Or.inr hlock) trivial fun _ => hnone
  case h_3 c n ht =>
    simp [abandons, ht] at hok
  case h_4 c n ht =>
    obtain ⟨hlock, hnone⟩ := h.calls t _ ht
    obtain rfl := Option.some.inj hstep
    exact h.move ht (Or.inr hlock) trivial fun _ => hnone
  case h_5 => cases hstep

/-- **Step lemma.** Every step that does not abandon a `BEGIN` keeps the invariant. -/
theorem inv_step {s s' : Serial α} {e : Event α} (h : s.Inv) (hok : s.abandons ls e = false)
    (hstep : s.step ls d e = some s') : s'.Inv := by
  cases e with
  | call c =>
    obtain rfl := Option.some.inj hstep
    refine ⟨h.queue.call c, h.free, ?_⟩
    intro t task ht
    rcases getElem?_append_single ht with ht | ⟨-, rfl⟩
    · exact h.calls t task ht
    · trivial
  | acquire t => exact h.acquire hstep
  | engine vs =>
    simp only [step] at hstep
    split at hstep
    case h_1 cmd hcmd =>
      obtain rfl := Option.some.inj hstep
      exact ⟨h.queue.engine hcmd vs, h.free, h.calls⟩
    case h_2 => cases hstep
  | resume t more => exact h.resume hok hstep
  | use t b => exact h.transaction (Or.inl ⟨b, rfl⟩) hstep
  | commit t => exact h.transaction (Or.inr (Or.inl rfl)) hstep
  | rollback t => exact h.transaction (Or.inr (Or.inr (Or.inl rfl))) hstep
  | drop t => exact h.transaction (Or.inr (Or.inr (Or.inr rfl))) hstep
  | cancel t => exact h.cancel hok hstep

theorem inv_start : (Serial.start α).Inv where
  queue :=
    { sent := by simp [start]
      disciplined := by simp [start]
      executed_le := Nat.le_refl _
      idle := fun _ => rfl
      found := by simp [start] }
  free := fun _ => rfl
  calls := by simp [start]

/-! ## What the queue shows -/

/-- The lock protects the session. Statements outside a `Transaction` find no block open, and
after a `BEGIN` its block is closed before anybody else sends. -/
structure Protected (s : Serial α) : Prop where
  outside : ∀ x ∈ s.found, ∀ t c, x.who = .task t → s.callOf t = some c → c ≠ .transaction →
    x.block = .idle
  closed : ∀ (i j : Nat) who cmd, s.sent[i]? = some ⟨who, [.begin]⟩ → i < j →
    s.sent[j]? = some cmd → cmd.who ≠ who → ∃ (k : Nat) (b : Batch α),
      i < k ∧ k < j ∧ s.sent[k]? = some ⟨who, [b]⟩ ∧ (b = .commit ∨ b = .rollback)

/-- While its owner has not closed the block, a queue stays with the owner. -/
theorem QueueOk.owner_of_not_closed {s : Serial α} (h : s.QueueOk) {i : Nat} {who : Party}
    (hi : s.sent[i]? = some ⟨who, [.begin]⟩) {n : Nat} (hn : i + 1 + n ≤ s.sent.length)
    (hopen : ∀ k b, i < k → k < i + 1 + n → s.sent[k]? = some ⟨who, [b]⟩ →
      b ≠ .commit ∧ b ≠ .rollback) :
    owner (s.sent.take (i + 1 + n)) = some who := by
  induction n with
  | zero =>
    rw [Nat.add_zero, List.take_add_one, hi]
    exact owner_append_single _ _ _
  | succ n ih =>
    have ho := ih (by omega) fun k b hk hlt => hopen k b hk (by omega)
    have hlt : i + 1 + n < s.sent.length := by omega
    have hget : s.sent[i + 1 + n]? = some s.sent[i + 1 + n] := List.getElem?_eq_getElem hlt
    have hwho := h.disciplined _ _ _ hget ho
    obtain ⟨t, b, c, hcmd, -, -⟩ := h.sent _ (List.getElem_mem hlt)
    rw [hcmd] at hget hwho
    obtain rfl : Party.task t = who := hwho
    have hb := hopen _ b (by omega) (by omega) hget
    show owner (s.sent.take (i + 1 + n + 1)) = _
    rw [List.take_add_one, hget]
    show owner (_ ++ [_]) = _
    rw [owner_append_single, ho]
    cases b with
    | commit => exact absurd rfl hb.1
    | rollback => exact absurd rfl hb.2
    | begin | query a | parse a | bind => rfl

theorem QueueOk.protected {s : Serial α} (h : s.QueueOk) : s.Protected where
  outside := by
    intro x hx t c hwho hc hne
    obtain ⟨t', c', hwho', hc', hidle⟩ := h.found x hx
    rw [hwho] at hwho'
    cases hwho'
    obtain rfl : c = c' := Option.some.inj (hc.symm.trans hc')
    exact hidle hne
  closed := by
    intro i j who cmd hi hij hj hne
    by_contra hopen
    have hlt : j < s.sent.length := (List.getElem?_eq_some_iff.1 hj).1
    obtain ⟨n, rfl⟩ : ∃ n, j = i + 1 + n := ⟨j - (i + 1), by omega⟩
    have ho := h.owner_of_not_closed hi (n := n) (by omega) fun k b hk hkj hget => by
      constructor
      · rintro rfl
        exact hopen ⟨k, .commit, hk, hkj, hget, Or.inl rfl⟩
      · rintro rfl
        exact hopen ⟨k, .rollback, hk, hkj, hget, Or.inr rfl⟩
    exact hne (h.disciplined _ _ _ hj ho)

end Serial

/-- **Theorem.** Whatever calls are made and dropped wherever, the lock protects the session, as
long as no call of `transaction` is dropped while it awaits the reply to its `BEGIN` and no
`BEGIN` is answered with an error. -/
theorem serial_protected (ls : Listeners) (d : Catalog α) {s : Serial α} (es : List (Serial.Event α))
    (hrun : run (Serial.step ls d) (Serial.start α) es = some s)
    (hok : Guarded (Serial.step ls d) (fun s e => s.abandons ls e = false) (Serial.start α) es) :
    s.Protected :=
  (run_invariant (fun _ _ _ h hok hs => Serial.inv_step h hok hs) Serial.inv_start hok
    hrun).queue.protected

theorem serial_protected_insert :
    ∃ s, run (Serial.step Listeners.none Catalog.plain) (Serial.start String)
        [.call .transaction, .acquire 0, .engine [], .resume 0 true,
          .use 0 (.query "insert into t values (1)"), .commit 0, .cancel 0,
          .call (.exec "insert into t values (2)"), .acquire 1, .engine [], .engine [],
          .engine []] = some s ∧ s.Protected :=
  ⟨_, rfl, serial_protected Listeners.none Catalog.plain [.call .transaction, .acquire 0, .engine [], .resume 0 true,
    .use 0 (.query "insert into t values (1)"), .commit 0, .cancel 0,
    .call (.exec "insert into t values (2)"), .acquire 1, .engine [], .engine [], .engine []]
    rfl (by decide)⟩

/-- A dropped `transaction` leaves its `BEGIN` behind, and the next statement falls into its
block. -/
theorem serial_leaks_begin :
    ¬ ∀ (es : List (Serial.Event String)) (s : Serial String),
      run (Serial.step Listeners.none Catalog.plain) (Serial.start String) es = some s →
      s.Protected := by
  intro h
  have hs := h [.call .transaction, .acquire 0, .cancel 0,
    .call (.exec "insert into t values (1)"), .acquire 1, .engine [], .engine []] _ rfl
  have hidle := hs.outside ⟨.task 1, .query "insert into t values (1)", .active (.task 0)⟩
    (by decide) 1 (.exec "insert into t values (1)") rfl rfl (by decide)
  cases hidle

end Pglite
