import Pglite.Gateway
import Pglite.OrderedLog
import Pglite.Runs
import Pglite.ServerProof

/-!
# Socket clients and the in-process API

The lock is held for one batch, a transaction block lasts as long as its client likes, and
nothing rolls it back when the client goes. So the parties stay apart exactly as long as nobody
else sends, and the client does not go, while its block is open.

* `Serial.step_cases`: a step of the in-process calls runs the next command of the queue, or
  leaves the engine alone and sends only for a call that holds the lock or takes it.
* `Gateway.Inv`: while the session is in a block of a client, that client is connected, all
  commands not yet run are its own, and no call holds the lock.
-/

namespace Pglite

open Runs OrderedLog

variable {α : Type*} {ls : Listeners} {d : Catalog α}

/-! ## Who may have opened the block -/

/-- Starting from the block `before`, batches of `who` can lead to a block that `o` opened. -/
def Block.LeadsTo {ο : Type*} (before : Block ο) (who : ο) (o : Option ο) : Prop :=
  o = before.opener? ∨ o = none ∨ o = some who

theorem Block.LeadsTo.trans {ο : Type*} {a b : Block ο} {who : ο} {o : Option ο}
    (hab : a.LeadsTo who b.opener?) (hb : b.LeadsTo who o) : a.LeadsTo who o := by
  rcases hb with rfl | ho
  · exact hab
  · exact Or.inr ho

theorem Server.exec_leadsTo {ο : Type*} (s : Server ο α) (who : ο) (b : Batch α) (v : Verdict) :
    s.session.block.LeadsTo who (s.exec d who b v).1.session.block.opener? := by
  unfold Block.LeadsTo
  by_cases hb : b.isStatement = true
  · exact Or.inl (exec_stmt_spec s who hb v).1
  · cases b with
    | begin =>
      cases hs : s.session.block <;> cases v <;> simp [exec, ready, raise, hs, Block.fail]
    | commit | rollback =>
      cases hs : s.session.block <;> cases v <;> simp [exec, ready, endBlock, hs]
    | query a | parse a | bind => exact absurd rfl hb

namespace Serial

/-- The same for all batches of a command, and for every block they find the session in. -/
theorem runBatches_leadsTo (who : Party) (s : Server Party α) (bs : List (Batch α))
    (vs : List Verdict) :
    s.session.block.LeadsTo who (runBatches d who s bs vs).1.session.block.opener? ∧
      ∀ x ∈ (runBatches d who s bs vs).2.1, x.who = who ∧
        s.session.block.LeadsTo who x.block.opener? := by
  induction bs generalizing s vs with
  | nil => simp [runBatches, Block.LeadsTo]
  | cons b bs ih =>
    have hexec := s.exec_leadsTo (d := d) who b (vs.headD (.accept []))
    obtain ⟨hfinal, hfound⟩ := ih (s.exec d who b (vs.headD (.accept []))).1 vs.tail
    unfold runBatches
    dsimp only
    split
    · refine ⟨hexec, ?_⟩
      intro x hx
      rw [List.mem_singleton.1 hx]
      exact ⟨rfl, Or.inl rfl⟩
    · refine ⟨hexec.trans hfinal, ?_⟩
      intro x hx
      rcases List.mem_cons.1 hx with rfl | hx
      · exact ⟨rfl, Or.inl rfl⟩
      · exact ⟨(hfound x hx).1, hexec.trans (hfound x hx).2⟩

/-! ## What a step of the calls does -/

/-- A call whose future has the guard of `tx_lock`. -/
def hasGuard : ApiPc α → Bool
  | .lock => false
  | .done => false
  | _ => true

/-- Only the holder of the lock has a guard. -/
def GuardOk (s : Serial α) : Prop :=
  ∀ t task, s.tasks[t]? = some task → hasGuard task.pc = true → s.lock = some (.task t)

theorem GuardOk.goto {s : Serial α} (h : s.GuardOk) {t : Nat} {task : Task α}
    (ht : s.tasks[t]? = some task) {s' : Serial α} {pc : ApiPc α}
    (htasks : s'.tasks = s.tasks.set t { task with pc := pc })
    (hlock : s.lock = none ∨ s.lock = some (.task t) ∨ s'.lock = s.lock)
    (hpc : hasGuard pc = true → s'.lock = some (.task t)) : s'.GuardOk := by
  intro j task' hj hguard
  have hlt : t < s.tasks.length := (List.getElem?_eq_some_iff.1 ht).1
  rw [htasks, List.getElem?_set] at hj
  by_cases htj : t = j
  · subst htj
    rw [if_pos rfl, if_pos hlt] at hj
    obtain rfl := Option.some.inj hj
    exact hpc hguard
  · rw [if_neg htj] at hj
    have hj' := h j task' hj hguard
    rcases hlock with hlock | hlock | hlock
    · rw [hlock] at hj'
      cases hj'
    · rw [hlock] at hj'
      cases hj'
      exact absurd rfl htj
    · rw [hlock]
      exact hj'

/-- The step leaves the engine alone. A call may send a command, which takes the lock, and take
it or give it back. -/
structure Quiet (s s' : Serial α) (e : Event α) : Prop where
  executed : s'.executed = s.executed
  server : s'.server = s.server
  found : s'.found = s.found
  guardOk : s'.GuardOk
  sent : s'.sent = s.sent ∨ ∃ t b, s'.sent = s.sent ++ [⟨.task t, [b]⟩] ∧
    (s.lock = some (.task t) ∨ s.lock = none ∧ e = .acquire t)
  lock : s'.lock = s.lock ∨ (∃ t, s.lock = some (.task t)) ∧ s'.lock = none ∨
    s.lock = none ∧ ∃ t, e = .acquire t ∧ s'.lock = some (.task t)

namespace Quiet

variable {s s' : Serial α} {e : Event α}

/-- While a client has the lock no call sends or takes it. -/
theorem client (h : Quiet s s' e) {k : Nat} (hmine : s.lock = some (.client k)) :
    s'.lock = s.lock ∧ s'.sent = s.sent := by
  constructor
  · rcases h.lock with hlock | ⟨⟨t, hlock⟩, -⟩ | ⟨hlock, -⟩
    · exact hlock
    · cases hmine.symm.trans hlock
    · cases hmine.symm.trans hlock
  · rcases h.sent with hsent | ⟨t, b, -, hlock | ⟨hlock, -⟩⟩
    · exact hsent
    · cases hmine.symm.trans hlock
    · cases hmine.symm.trans hlock

/-- No call gives the lock to a client. -/
theorem client_of_client (h : Quiet s s' e) {k : Nat} (hmine : s'.lock = some (.client k)) :
    s.lock = some (.client k) := by
  rcases h.lock with hlock | ⟨-, hlock⟩ | ⟨-, t, -, hlock⟩
  · exact hlock ▸ hmine
  · cases hmine.symm.trans hlock
  · cases hmine.symm.trans hlock

/-- While no call has the lock, and none takes it, no call sends. -/
theorem silent (h : Quiet s s' e) (hnot : ∀ t, s.lock ≠ some (.task t))
    (hacquire : ∀ t, e ≠ .acquire t) : s'.sent = s.sent ∧ ∀ t, s'.lock ≠ some (.task t) := by
  constructor
  · rcases h.sent with hsent | ⟨t, b, -, hlock | ⟨-, he⟩⟩
    · exact hsent
    · exact absurd hlock (hnot t)
    · exact absurd he (hacquire t)
  · intro t ht
    rcases h.lock with hlock | ⟨⟨t', hlock⟩, -⟩ | ⟨-, t', he, -⟩
    · exact hnot t (hlock ▸ ht)
    · exact hnot t' hlock
    · exact hacquire t' he

theorem sent_length_le (h : Quiet s s' e) : s.sent.length ≤ s'.sent.length := by
  rcases h.sent with hsent | ⟨t, b, hsent, -⟩
  · rw [hsent]
  · rw [hsent, List.length_append]
    exact Nat.le_add_right _ _

/-- What clients have sent was there before. -/
theorem sent_client (h : Quiet s s' e) {i k : Nat} {cmd : Command α}
    (hcmd : s'.sent[i]? = some cmd) (hwho : cmd.who = .client k) : s.sent[i]? = some cmd := by
  rcases h.sent with hsent | ⟨t, b, hsent, -⟩
  · exact hsent ▸ hcmd
  · rw [hsent] at hcmd
    rcases getElem?_append_single hcmd with hcmd | ⟨-, rfl⟩
    · exact hcmd
    · cases hwho

end Quiet

theorem Quiet.of_acquire {s s' : Serial α} (h : s.GuardOk) {t : Nat}
    (hstep : s.step ls d (.acquire t) = some s') : Quiet s s' (.acquire t) := by
  simp only [step] at hstep
  split at hstep
  case h_2 => cases hstep
  case h_1 c ht hfree =>
    split at hstep
    case h_1 =>
      obtain rfl := Option.some.inj hstep
      exact ⟨rfl, rfl, rfl, h.goto ht rfl (Or.inl hfree) (by simp [hasGuard]), Or.inl rfl, Or.inl rfl⟩
    case h_2 b rest hbatches =>
      obtain rfl := Option.some.inj hstep
      exact ⟨rfl, rfl, rfl, h.goto ht rfl (Or.inl hfree) fun _ => rfl,
        Or.inr ⟨t, b, rfl, Or.inr ⟨hfree, rfl⟩⟩, Or.inr (Or.inr ⟨hfree, t, rfl, rfl⟩)⟩

/-- A call with the guard goes on and keeps it. -/
theorem Quiet.of_holder {s s' : Serial α} (h : s.GuardOk) {t : Nat} {task : Task α}
    {pc : ApiPc α} {e : Event α} (ht : s.tasks[t]? = some task) (hguard : hasGuard task.pc = true)
    (hengine : s'.executed = s.executed ∧ s'.server = s.server ∧ s'.found = s.found)
    (hsent : s'.sent = s.sent ∨ ∃ b, s'.sent = s.sent ++ [⟨.task t, [b]⟩])
    (htasks : s'.tasks = s.tasks.set t { task with pc := pc })
    (hlock : s'.lock = s.lock ∨ s'.lock = none ∧ hasGuard pc = false) : Quiet s s' e := by
  have hmine : s.lock = some (.task t) := h t task ht hguard
  refine ⟨hengine.1, hengine.2.1, hengine.2.2, h.goto ht htasks (Or.inr (Or.inl hmine)) ?_, ?_, ?_⟩
  · intro hpc
    rcases hlock with hlock | ⟨-, hnot⟩
    · rw [hlock]
      exact hmine
    · rw [hnot] at hpc
      cases hpc
  · rcases hsent with hsent | ⟨b, hsent⟩
    · exact Or.inl hsent
    · exact Or.inr ⟨t, b, hsent, Or.inl hmine⟩
  · rcases hlock with hlock | ⟨hlock, -⟩
    · exact Or.inl hlock
    · exact Or.inr (Or.inl ⟨⟨t, hmine⟩, hlock⟩)

theorem Quiet.of_resume {s s' : Serial α} (h : s.GuardOk) {t : Nat} {more : Bool}
    (hstep : s.step ls d (.resume t more) = some s') : Quiet s s' (.resume t more) := by
  simp only [step] at hstep
  split at hstep
  case h_1 c n rest ht =>
    split at hstep
    case isFalse => cases hstep
    case isTrue hreply =>
      split at hstep
      case h_1 b rest =>
        obtain rfl := Option.some.inj hstep
        exact of_holder h ht rfl ⟨rfl, rfl, rfl⟩ (Or.inr ⟨b, rfl⟩) rfl (Or.inl rfl)
      case h_2 =>
        obtain rfl := Option.some.inj hstep
        exact of_holder h ht rfl ⟨rfl, rfl, rfl⟩ (Or.inl rfl) rfl (Or.inr ⟨rfl, rfl⟩)
  case h_2 c n ht =>
    split at hstep
    case h_1 => cases hstep
    case h_2 response hresponse =>
      split at hstep
      case h_1 =>
        obtain rfl := Option.some.inj hstep
        exact of_holder h ht rfl ⟨rfl, rfl, rfl⟩ (Or.inl rfl) rfl (Or.inl rfl)
      case h_2 =>
        obtain rfl := Option.some.inj hstep
        exact of_holder h ht rfl ⟨rfl, rfl, rfl⟩ (Or.inl rfl) rfl (Or.inr ⟨rfl, rfl⟩)
  case h_3 c n ht =>
    split at hstep
    case isFalse => cases hstep
    case isTrue =>
      obtain rfl := Option.some.inj hstep
      exact of_holder h ht rfl ⟨rfl, rfl, rfl⟩ (Or.inl rfl) rfl (Or.inr ⟨rfl, rfl⟩)
  case h_4 => cases hstep

theorem Quiet.of_cancel {s s' : Serial α} (h : s.GuardOk) {t : Nat}
    (hstep : s.step ls d (.cancel t) = some s') : Quiet s s' (.cancel t) := by
  simp only [step] at hstep
  split at hstep
  case h_1 c ht =>
    obtain rfl := Option.some.inj hstep
    exact ⟨rfl, rfl, rfl, h.goto ht rfl (Or.inr (Or.inr rfl)) (by simp [hasGuard]), Or.inl rfl,
      Or.inl rfl⟩
  case h_5 => cases hstep
  all_goals
    obtain rfl := Option.some.inj hstep
    exact of_holder h (by assumption) rfl ⟨rfl, rfl, rfl⟩ (Or.inl rfl) rfl (Or.inr ⟨rfl, rfl⟩)

theorem Quiet.of_transaction {s s' : Serial α} (h : s.GuardOk) {t : Nat} {e : Event α}
    (he : e = .commit t ∨ e = .rollback t ∨ e = .drop t) (hstep : s.step ls d e = some s') :
    Quiet s s' e := by
  rcases he with rfl | rfl | rfl
  · simp only [step] at hstep
    split at hstep
    case h_2 => cases hstep
    case h_1 c ht =>
      obtain rfl := Option.some.inj hstep
      exact of_holder h ht rfl ⟨rfl, rfl, rfl⟩ (Or.inr ⟨.commit, rfl⟩) rfl (Or.inl rfl)
  · simp only [step] at hstep
    split at hstep
    case h_2 => cases hstep
    case h_1 c ht =>
      obtain rfl := Option.some.inj hstep
      exact of_holder h ht rfl ⟨rfl, rfl, rfl⟩ (Or.inr ⟨.rollback, rfl⟩) rfl (Or.inl rfl)
  · simp only [step] at hstep
    split at hstep
    case h_2 => cases hstep
    case h_1 c ht =>
      obtain rfl := Option.some.inj hstep
      exact of_holder h ht rfl ⟨rfl, rfl, rfl⟩ (Or.inr ⟨.rollback, rfl⟩) rfl (Or.inr ⟨rfl, rfl⟩)

/-- A step of the calls runs the next command of the queue, or leaves the engine alone. -/
theorem step_cases {s s' : Serial α} {e : Event α} (h : s.GuardOk)
    (hstep : s.step ls d e = some s') :
    (∃ cmd vs, s.sent[s.executed]? = some cmd ∧ s' = s.engine d cmd vs) ∨ Quiet s s' e := by
  cases e with
  | call c =>
    obtain rfl := Option.some.inj hstep
    refine Or.inr ⟨rfl, rfl, rfl, ?_, Or.inl rfl, Or.inl rfl⟩
    intro t task ht hguard
    rcases getElem?_append_single ht with ht | ⟨-, rfl⟩
    · exact h t task ht hguard
    · cases hguard
  | acquire t => exact Or.inr (Quiet.of_acquire h hstep)
  | engine vs =>
    simp only [step] at hstep
    split at hstep
    case h_1 cmd hcmd => exact Or.inl ⟨cmd, vs, hcmd, (Option.some.inj hstep).symm⟩
    case h_2 => cases hstep
  | resume t more => exact Or.inr (Quiet.of_resume h hstep)
  | use t b =>
    simp only [step] at hstep
    split at hstep
    case h_2 => cases hstep
    case h_1 c ht =>
      split at hstep
      case isFalse => cases hstep
      case isTrue =>
        obtain rfl := Option.some.inj hstep
        exact Or.inr ⟨rfl, rfl, rfl, h, Or.inr ⟨t, b, rfl, Or.inl (h t _ ht rfl)⟩, Or.inl rfl⟩
  | commit t => exact Or.inr (Quiet.of_transaction h (Or.inl rfl) hstep)
  | rollback t => exact Or.inr (Quiet.of_transaction h (Or.inr (Or.inl rfl)) hstep)
  | drop t => exact Or.inr (Quiet.of_transaction h (Or.inr (Or.inr rfl)) hstep)
  | cancel t => exact Or.inr (Quiet.of_cancel h hstep)

end Serial

/-! ## The gateway -/

namespace Gateway

/-- The client whose block the session is in. -/
def blockOf (s : Gateway α) : Option Nat :=
  match s.serial.server.session.block.opener? with
  | some (.client k) => some k
  | _ => none

theorem blockOf_eq_some {s : Gateway α} {k : Nat} :
    s.blockOf = some k ↔ s.serial.server.session.block.opener? = some (.client k) := by
  unfold blockOf
  split
  case h_1 k' hk' => simp [hk']
  case h_2 hno => exact ⟨fun h => (nomatch h), fun h => absurd h (hno k)⟩

/-- The step brings the block of a client and somebody else together: an in-process call takes
the lock while the block is open, or the client goes. -/
def intrudes (s : Gateway α) : Event α → Bool
  | .inProcess (.acquire _) => s.blockOf.isSome
  | .disconnect => s.blockOf.isSome
  | _ => false

/-- No batch has found the session in the block of a client other than its own, and the client
whose block the session is in is connected. -/
structure Isolated (s : Gateway α) : Prop where
  found : ∀ x ∈ s.serial.found, ∀ k, x.block.opener? = some (.client k) → x.who = .client k
  connected : ∀ k, s.blockOf = some k → s.doorman.client? = some k

/-- What keeps the parties apart. -/
structure Inv (s : Gateway α) : Prop where
  isolated : s.Isolated
  guardOk : s.serial.GuardOk
  executed_le : s.serial.executed ≤ s.serial.sent.length
  /-- The doorman has the lock while it awaits a reply, and its command is the last. -/
  lock : ∀ k, s.serial.lock = some (.client k) ↔ ∃ n, s.doorman = .reply k n
  last : ∀ k n, s.doorman = .reply k n → n + 1 = s.serial.sent.length
  pending : ∀ i cmd k, s.serial.executed ≤ i → s.serial.sent[i]? = some cmd →
    cmd.who = .client k → s.doorman = .reply k i
  /-- While a client has a block open, only its commands are to come. -/
  block : ∀ k, s.blockOf = some k →
    (∀ i cmd, s.serial.executed ≤ i → s.serial.sent[i]? = some cmd → cmd.who = .client k) ∧
      ∀ t, s.serial.lock ≠ some (.task t)

theorem inv_engine {s : Gateway α} (h : s.Inv) {cmd : Command α} {vs : List Verdict}
    (hcmd : s.serial.sent[s.serial.executed]? = some cmd) :
    Inv { s with serial := s.serial.engine d cmd vs } := by
  obtain ⟨hserver, hfound⟩ := Serial.runBatches_leadsTo (d := d) cmd.who s.serial.server
    cmd.batches vs
  have hlt : s.serial.executed < s.serial.sent.length := (List.getElem?_eq_some_iff.1 hcmd).1
  -- A block of a client is one it had before, or it sends this command.
  have mine : ∀ o k, s.serial.server.session.block.LeadsTo cmd.who o → o = some (.client k) →
      s.blockOf = some k ∧ cmd.who = .client k ∨ cmd.who = .client k := by
    intro o k hleads ho
    rcases hleads with rfl | rfl | rfl
    · have hk := blockOf_eq_some.2 ho
      exact Or.inl ⟨hk, (h.block k hk).1 _ cmd (Nat.le_refl _) hcmd⟩
    · cases ho
    · exact Or.inr (Option.some.inj ho)
  have after : ∀ k, blockOf { s with serial := s.serial.engine d cmd vs } = some k →
      s.blockOf = some k ∨ cmd.who = .client k := by
    intro k hk
    rcases mine _ k hserver (blockOf_eq_some.1 hk) with ⟨hk, -⟩ | hwho
    · exact Or.inl hk
    · exact Or.inr hwho
  refine ⟨⟨?_, ?_⟩, h.guardOk, hlt, h.lock, h.last, ?_, ?_⟩
  · intro x hx k hk
    rcases List.mem_append.1 hx with hx | hx
    · exact h.isolated.found x hx k hk
    · rw [(hfound x hx).1]
      rcases mine _ k (hfound x hx).2 hk with ⟨-, hwho⟩ | hwho
      · exact hwho
      · exact hwho
  · intro k hk
    rcases after k hk with hk | hwho
    · exact h.isolated.connected k hk
    · have hdoorman := h.pending _ cmd k (Nat.le_refl _) hcmd hwho
      show s.doorman.client? = some k
      rw [hdoorman]
      rfl
  · intro i cmd' k hi hcmd' hwho
    exact h.pending i cmd' k (Nat.le_of_succ_le hi) hcmd' hwho
  · intro k hk
    rcases after k hk with hk | hwho
    · exact ⟨fun i cmd' hi => (h.block k hk).1 i cmd' (Nat.le_of_succ_le hi), (h.block k hk).2⟩
    · -- The doorman awaits this very command, which is the last one.
      have hdoorman := h.pending _ cmd k (Nat.le_refl _) hcmd hwho
      have hlast := h.last _ _ hdoorman
      refine ⟨?_, ?_⟩
      · intro i cmd' hi hcmd'
        have := (List.getElem?_eq_some_iff.1 hcmd').1
        change s.serial.executed + 1 ≤ i at hi
        change i < s.serial.sent.length at this
        omega
      · intro t ht
        have hlock := (h.lock k).2 ⟨_, hdoorman⟩
        change s.serial.lock = some (.task t) at ht
        rw [hlock] at ht
        cases ht

theorem inv_quiet {s : Gateway α} (h : s.Inv) {serial : Serial α} {e : Serial.Event α}
    (hquiet : Serial.Quiet s.serial serial e) (hok : s.intrudes (.inProcess e) = false) :
    Inv { s with serial := serial } := by
  have hblockOf : blockOf { s with serial := serial } = s.blockOf := by
    unfold blockOf
    rw [hquiet.server]
  -- While the doorman awaits a reply it has the lock.
  have busy : ∀ k n, s.doorman = .reply k n →
      serial.lock = some (.client k) ∧ serial.sent = s.serial.sent := by
    intro k n hdoorman
    have hmine := (h.lock k).2 ⟨n, hdoorman⟩
    obtain ⟨hlock, hsent⟩ := hquiet.client hmine
    exact ⟨hlock.trans hmine, hsent⟩
  refine ⟨⟨?_, ?_⟩, hquiet.guardOk, ?_, ?_, ?_, ?_, ?_⟩
  · show ∀ x ∈ serial.found, _
    rw [hquiet.found]
    exact h.isolated.found
  · rw [hblockOf]
    exact h.isolated.connected
  · show serial.executed ≤ serial.sent.length
    rw [hquiet.executed]
    exact h.executed_le.trans hquiet.sent_length_le
  · intro k
    constructor
    · exact fun hk => (h.lock k).1 (hquiet.client_of_client hk)
    · rintro ⟨n, hdoorman⟩
      exact (busy k n hdoorman).1
  · intro k n hdoorman
    show n + 1 = serial.sent.length
    rw [(busy k n hdoorman).2]
    exact h.last k n hdoorman
  · intro i cmd k hi hcmd hwho
    change serial.executed ≤ i at hi
    rw [hquiet.executed] at hi
    exact h.pending i cmd k hi (hquiet.sent_client hcmd hwho) hwho
  · intro k hk
    rw [hblockOf] at hk
    have hacquire : ∀ t, e ≠ .acquire t := by
      rintro t rfl
      simp [intrudes, hk] at hok
    obtain ⟨hpending, hnot⟩ := h.block k hk
    obtain ⟨hsent, hlock⟩ := hquiet.silent hnot hacquire
    refine ⟨fun i cmd hi hcmd => ?_, hlock⟩
    change serial.executed ≤ i at hi
    change serial.sent[i]? = some cmd at hcmd
    rw [hquiet.executed] at hi
    rw [hsent] at hcmd
    exact hpending i cmd hi hcmd

/-- The doorman forwards a batch: nobody has the lock, so no call has a guard. -/
theorem inv_acquire {s : Gateway α} (h : s.Inv) {k : Nat} {bs : List (Batch α)}
    (hdoorman : s.doorman = .locking k bs) (hfree : s.serial.lock = none) :
    Inv { s with
      serial := { s.serial.send (.client k) bs with lock := some (.client k) }
      doorman := .reply k s.serial.sent.length } := by
  have hle := h.executed_le
  refine ⟨⟨h.isolated.found, ?_⟩, ?_, ?_, ?_, ?_, ?_, ?_⟩
  · intro k' hk'
    have := h.isolated.connected k' hk'
    rw [hdoorman] at this
    exact this
  · intro t task ht hguard
    have := h.guardOk t task ht hguard
    rw [hfree] at this
    cases this
  · show s.serial.executed ≤ (s.serial.sent ++ [_]).length
    rw [List.length_append]
    omega
  · intro k'
    constructor
    · intro hk'
      cases hk'
      exact ⟨_, rfl⟩
    · rintro ⟨n, hn⟩
      cases hn
      rfl
  · intro k' n hn
    cases hn
    show _ = (s.serial.sent ++ [_]).length
    rw [List.length_append, List.length_singleton]
  · intro i cmd k' hi hcmd hwho
    rcases getElem?_append_single hcmd with hcmd | ⟨rfl, rfl⟩
    · have := h.pending i cmd k' hi hcmd hwho
      rw [hdoorman] at this
      cases this
    · cases hwho
      rfl
  · intro k' hk'
    obtain ⟨hpending, hlock⟩ := h.block k' hk'
    have hcurrent := h.isolated.connected k' hk'
    rw [hdoorman] at hcurrent
    obtain rfl := Option.some.inj hcurrent
    refine ⟨?_, fun t ht => nomatch ht⟩
    intro i cmd hi hcmd
    rcases getElem?_append_single hcmd with hcmd | ⟨-, rfl⟩
    · exact hpending i cmd hi hcmd
    · rfl

/-- The reply is there: no command of a client is left to run. -/
theorem inv_reply {s : Gateway α} (h : s.Inv) {k n : Nat} (hdoorman : s.doorman = .reply k n)
    (hreply : n < s.serial.executed) :
    Inv { s with serial := s.serial.unlock, doorman := .serving k } := by
  have hmine := (h.lock k).2 ⟨n, hdoorman⟩
  refine ⟨⟨h.isolated.found, ?_⟩, ?_, h.executed_le, ?_, ?_, ?_, ?_⟩
  · intro k' hk'
    have := h.isolated.connected k' hk'
    rw [hdoorman] at this
    exact this
  · intro t task ht hguard
    have := h.guardOk t task ht hguard
    rw [hmine] at this
    cases this
  · intro k'
    constructor
    · intro hk'
      cases hk'
    · rintro ⟨n', hn⟩
      cases hn
  · intro k' n' hn
    cases hn
  · intro i cmd k' hi hcmd hwho
    have := h.pending i cmd k' hi hcmd hwho
    rw [hdoorman] at this
    cases this
    change s.serial.executed ≤ n at hi
    omega
  · intro k' hk'
    exact ⟨(h.block k' hk').1, fun t ht => nomatch ht⟩

/-- Between batches only the client that is connected may have a block open. -/
theorem inv_doorman {s : Gateway α} (h : s.Inv) {doorman : Doorman α} {clients : Nat}
    (hidle : ∀ k n, s.doorman ≠ .reply k n) (hidle' : ∀ k n, doorman ≠ .reply k n)
    (hclient : ∀ k, s.blockOf = some k → doorman.client? = some k) :
    Inv { s with doorman := doorman, clients := clients } := by
  refine ⟨⟨h.isolated.found, hclient⟩, h.guardOk, h.executed_le, ?_, ?_, ?_, h.block⟩
  · intro k
    constructor
    · intro hk
      obtain ⟨n, hn⟩ := (h.lock k).1 hk
      exact absurd hn (hidle k n)
    · rintro ⟨n, hn⟩
      exact absurd hn (hidle' k n)
  · intro k n hn
    exact absurd hn (hidle' k n)
  · intro i cmd k hi hcmd hwho
    exact absurd (h.pending i cmd k hi hcmd hwho) (hidle k i)

/-- **Step lemma.** Every step that does not intrude keeps the parties apart. -/
theorem inv_step {s s' : Gateway α} {e : Event α} (h : s.Inv) (hok : s.intrudes e = false)
    (hstep : s.step ls d e = some s') : s'.Inv := by
  cases e with
  | inProcess e =>
    obtain ⟨serial, hserial, rfl⟩ := Option.map_eq_some_iff.1 hstep
    rcases Serial.step_cases h.guardOk hserial with ⟨cmd, vs, hcmd, rfl⟩ | hquiet
    · exact inv_engine h hcmd
    · exact inv_quiet h hquiet hok
  | connect =>
    simp only [step] at hstep
    split at hstep
    case h_2 => cases hstep
    case h_1 hdoorman =>
      obtain rfl := Option.some.inj hstep
      refine inv_doorman h (by simp [hdoorman]) (by simp) ?_
      intro k hk
      have := h.isolated.connected k hk
      rw [hdoorman] at this
      cases this
  | batch bs =>
    simp only [step] at hstep
    split at hstep
    case h_2 => cases hstep
    case h_1 k hdoorman =>
      obtain rfl := Option.some.inj hstep
      refine inv_doorman h (by simp [hdoorman]) (by simp) ?_
      intro k' hk'
      have := h.isolated.connected k' hk'
      rw [hdoorman] at this
      exact this
  | acquire =>
    simp only [step] at hstep
    split at hstep
    case h_2 => cases hstep
    case h_1 k bs hdoorman hfree =>
      obtain rfl := Option.some.inj hstep
      exact inv_acquire h hdoorman hfree
  | reply =>
    simp only [step] at hstep
    split at hstep
    case h_2 => cases hstep
    case h_1 k n hdoorman =>
      split at hstep
      case isFalse => cases hstep
      case isTrue hreply =>
        obtain rfl := Option.some.inj hstep
        exact inv_reply h hdoorman hreply
  | disconnect =>
    simp only [step] at hstep
    split at hstep
    case h_2 => cases hstep
    case h_1 k hdoorman =>
      obtain rfl := Option.some.inj hstep
      refine inv_doorman h (by simp [hdoorman]) (by simp) ?_
      intro k' hk'
      simp [intrudes, hk'] at hok

theorem inv_start : (Gateway.start α).Inv := by
  refine ⟨⟨?_, ?_⟩, ?_, Nat.le_refl _, ?_, ?_, ?_, ?_⟩ <;>
    simp [start, Serial.start, Serial.GuardOk, blockOf, Session.fresh]

end Gateway

/-- **Theorem.** Socket clients and in-process calls do not meet in a block of a client, and no
client leaves one behind, as long as no in-process call takes the lock and no client goes while
the session is in a block that a client opened. -/
theorem gateway_isolated (ls : Listeners) (d : Catalog α) {s : Gateway α}
    (es : List (Gateway.Event α))
    (hrun : run (Gateway.step ls d) (Gateway.start α) es = some s)
    (hok : Guarded (Gateway.step ls d) (fun s e => s.intrudes e = false) (Gateway.start α) es) :
    s.Isolated :=
  (run_invariant (fun _ _ _ h hok hs => Gateway.inv_step h hok hs) Gateway.inv_start hok
    hrun).isolated

theorem gateway_isolated_transaction :
    ∃ s, run (Gateway.step Listeners.none Catalog.plain) (Gateway.start String)
        [.connect, .batch [.begin], .acquire, .inProcess (.engine []), .reply,
          .batch [.query "insert into t values (1)", .commit], .acquire,
          .inProcess (.call (.exec "insert into t values (2)")), .inProcess (.engine []), .reply,
          .inProcess (.acquire 0), .disconnect, .inProcess (.engine [])] = some s ∧ s.Isolated :=
  ⟨_, rfl, gateway_isolated Listeners.none Catalog.plain
    [.connect, .batch [.begin], .acquire, .inProcess (.engine []), .reply,
      .batch [.query "insert into t values (1)", .commit], .acquire,
      .inProcess (.call (.exec "insert into t values (2)")), .inProcess (.engine []), .reply,
      .inProcess (.acquire 0), .disconnect, .inProcess (.engine [])] rfl (by decide)⟩

/-- A client begins and goes; its block stays open and takes in the next statement. -/
theorem gateway_mixes_blocks :
    ¬ ∀ (es : List (Gateway.Event String)) (s : Gateway String),
      run (Gateway.step Listeners.none Catalog.plain) (Gateway.start String) es = some s →
      s.Isolated := by
  intro h
  have hs := h [.connect, .batch [.begin], .acquire, .inProcess (.engine []), .reply, .disconnect,
    .inProcess (.call (.exec "insert into t values (1)")), .inProcess (.acquire 0),
    .inProcess (.engine [])] _ rfl
  have hwho := hs.found ⟨.task 0, .query "insert into t values (1)", .active (.client 0)⟩
    (by decide) 0 rfl
  cases hwho

end Pglite
