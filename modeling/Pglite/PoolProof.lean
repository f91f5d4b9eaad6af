import Pglite.Pool
import Pglite.Runs
import Pglite.TaskList

/-!
# Slot accounting

The pool counts its connections in `live` and never looks at them otherwise, so the counter is
right exactly as long as nobody drops a connection without going through `release`. Two things
do: a round trip whose future is dropped while it awaits its reply, and a waiter that is dropped
or times out when a connection is already in its channel. Both leak the slot for good.

The difference between `live` and the slots in use is moved by these two steps only
(`step_slack`). Whether or not they happen, `live` stays between zero and the maximum.
-/

namespace Pglite

open Runs

variable {ω : Type*} {cfg : PoolConfig}

/-! ## Counting -/

/-- The slots a task uses. -/
def Pc.slots (pc : Pc ω) : Nat :=
  pc.holds.toNat + pc.creates.toNat

section slots

variable (j : Job ω) (c : Conn) (w : Nat)

@[simp] theorem Pc.slots_acquire : (Pc.acquire j).slots = 0 := rfl
@[simp] theorem Pc.slots_create : (Pc.create j).slots = 1 := rfl
@[simp] theorem Pc.slots_wait : (Pc.wait j w).slots = 0 := rfl
@[simp] theorem Pc.slots_hold : (Pc.hold j c).slots = 1 := rfl
@[simp] theorem Pc.slots_release : (Pc.release c : Pc ω).slots = 1 := rfl
@[simp] theorem Pc.slots_done : (Pc.done : Pc ω).slots = 0 := rfl

end slots

namespace Pool

/-- The loop of `acquire` accounts for every idle connection. -/
theorem popAlive_length (dead : List Nat) (cs : List Conn) :
    let (got, rest, n) := popAlive dead cs
    cs.length = rest.length + n + got.toList.length := by
  induction cs with
  | nil => rfl
  | cons c cs ih =>
    by_cases hc : c.id ∈ dead
    · simp only [popAlive, if_pos hc, List.length_cons]
      omega
    · simp [popAlive, if_neg hc]

/-- The loop of the reaper accounts for every idle connection. -/
theorem reapFront_length (cfg : PoolConfig) (dead : List Nat) (now : Nat) (cs : List Conn) :
    cs.length = (reapFront cfg dead now cs).1.length + (reapFront cfg dead now cs).2 := by
  induction cs with
  | nil => rfl
  | cons c cs ih =>
    by_cases hc : cfg.min < (c :: cs).length ∧ (c.id ∈ dead ∨ cfg.idleTtl ≤ now - c.lastUsed)
    · rw [reapFront, if_pos hc]
      show cs.length + 1 = (reapFront cfg dead now cs).1.length +
        ((reapFront cfg dead now cs).2 + 1)
      omega
    · rw [reapFront, if_neg hc]
      rfl

/-- Handing a connection over puts it in one channel, or in none. -/
theorem handOff_count (c : Conn) (ws : List Nat) (chans : List Chan) :
    let (sent, _, chans') := handOff c ws chans
    chans'.countP Chan.isSent = chans.countP Chan.isSent + sent.toNat := by
  induction ws with
  | nil => rfl
  | cons w ws ih =>
    rw [handOff]
    cases hw : chans[w]? with
    | none => exact ih
    | some ch =>
      cases ch with
      | «open» =>
        have := TaskList.countP_set_add hw (.sent c) Chan.isSent
        simpa [Chan.isSent] using this
      | sent c' => exact ih
      | closed => exact ih

/-! ## Steps -/

/-- A connection is in the channel of the waiting task. -/
def hasArrived (s : Pool ω) (w : Nat) : Bool :=
  match s.chans[w]? with
  | some (.sent _) => true
  | _ => false

/-- The step drops a connection without telling the pool: a round trip is dropped while it
awaits its reply, or a waiter is dropped or times out with a connection in its channel. -/
def leaks (s : Pool ω) : Event ω → Bool
  | .cancel t =>
    match s.tasks[t]? with
    | some (.hold (.roundtrip _) _) => true
    | some (.wait _ w) => s.hasArrived w
    | _ => false
  | .timeout t =>
    match s.tasks[t]? with
    | some (.wait _ w) => s.hasArrived w
    | _ => false
  | _ => false

/-- The slots counted in `live` that nothing uses. -/
def slack (s : Pool ω) : Int :=
  s.live - s.used

theorem used_goto {s : Pool ω} {t : Nat} {pc : Pc ω} (h : s.tasks[t]? = some pc) (pc' : Pc ω) :
    (s.goto t pc').used + pc.slots = s.used + pc'.slots := by
  have hh := TaskList.countP_set_add h pc' Pc.holds
  have hc := TaskList.countP_set_add h pc' Pc.creates
  simp only [used, goto, Pc.slots]
  omega

/-- A task that moves on gives up its slots and uses others. -/
theorem slack_goto {s : Pool ω} {t : Nat} {pc : Pc ω} (h : s.tasks[t]? = some pc) (pc' : Pc ω) :
    (s.goto t pc').slack = s.slack + pc.slots - pc'.slots := by
  have hu := used_goto h pc'
  show s.live - _ = s.live - _ + _ - _
  omega

/-- Taking the receiver away takes the connection away that was in its channel. -/
theorem sent_close (s : Pool ω) (w : Nat) :
    (s.chans.set w .closed).countP Chan.isSent + (s.hasArrived w).toNat =
      s.chans.countP Chan.isSent := by
  unfold hasArrived
  cases hw : s.chans[w]? with
  | none =>
    rw [List.set_eq_of_length_le (List.getElem?_eq_none_iff.1 hw)]
    rfl
  | some ch =>
    have := TaskList.countP_set_add hw .closed Chan.isSent
    cases ch <;> simpa [Chan.isSent] using this

theorem slack_acquire {s : Pool ω} {t : Nat} {j : Job ω} (h : s.tasks[t]? = some (.acquire j)) :
    (s.acquire cfg t j).slack = s.slack := by
  have hlen := popAlive_length s.dead s.idle.reverse
  unfold acquire
  rcases hpop : popAlive s.dead s.idle.reverse with ⟨got, rest, n⟩
  rw [hpop] at hlen
  simp only [List.length_reverse] at hlen
  cases got with
  | some c =>
    have hgoto := slack_goto (s := { s with idle := rest.reverse, live := s.live - n }) h (.hold j c)
    simp only [Pc.slots_acquire, Pc.slots_hold, slack, used, List.length_reverse,
      Option.toList_some, List.length_singleton] at hgoto hlen ⊢
    omega
  | none =>
    simp only [Option.toList_none, List.length_nil] at hlen
    by_cases hroom : s.live - n < (cfg.max : Int)
    · have hgoto := slack_goto (s := { s with idle := rest.reverse, live := s.live - n + 1 }) h
        (.create j)
      simp only [if_pos hroom, Pc.slots_acquire, Pc.slots_create, slack, used,
        List.length_reverse] at hgoto ⊢
      omega
    · have hgoto := slack_goto (s := { s with
          idle := rest.reverse
          live := s.live - n
          chans := s.chans ++ [Chan.open]
          waiters := s.waiters ++ [s.chans.length] }) h (.wait j s.chans.length)
      have hopen : (s.chans ++ [Chan.open]).countP Chan.isSent = s.chans.countP Chan.isSent := by
        simp [Chan.isSent]
      simp only [if_neg hroom, Pc.slots_acquire, Pc.slots_wait, slack, used, List.length_reverse,
        hopen] at hgoto ⊢
      omega

theorem slack_fireAndForget {s : Pool ω} {t : Nat} {j : Job ω}
    (h : s.tasks[t]? = some (.acquire j)) : (s.fireAndForget cfg t j).slack = s.slack := by
  have hlen : s.idle.reverse.length = s.idle.length := List.length_reverse
  unfold fireAndForget
  rcases hidle : s.idle.reverse with _ | ⟨c, rest⟩
  · by_cases hroom : s.live < (cfg.max : Int)
    · have hgoto := slack_goto (s := { s with live := s.live + 1 }) h (.create j)
      simp only [if_pos hroom, Pc.slots_acquire, Pc.slots_create, slack, used] at hgoto ⊢
      omega
    · simp only [if_neg hroom]
      simpa using slack_goto h .done
  · have hgoto := slack_goto (s := { s with idle := rest.reverse }) h (.hold j c)
    rw [hidle] at hlen
    simp only [Pc.slots_acquire, Pc.slots_hold, slack, used, List.length_reverse,
      List.length_cons] at hgoto hlen ⊢
    omega

theorem slack_release {s : Pool ω} {t : Nat} {c : Conn} (h : s.tasks[t]? = some (.release c)) :
    (s.release t c).slack = s.slack := by
  have hcount := handOff_count c s.waiters.reverse s.chans
  unfold release
  rcases hoff : handOff c s.waiters.reverse s.chans with ⟨sent, ws, chans⟩
  rw [hoff] at hcount
  cases sent with
  | true =>
    have hgoto := slack_goto (s := { s with waiters := ws.reverse, chans := chans }) h .done
    simp only [Pc.slots_release, Pc.slots_done, slack, used, Bool.toNat_true, if_true]
      at hgoto hcount ⊢
    omega
  | false =>
    have hgoto := slack_goto (s := { s with
      waiters := ws.reverse, chans := chans, idle := s.idle ++ [c] }) h .done
    simp only [Pc.slots_release, Pc.slots_done, slack, used, Bool.toNat_false, Bool.false_eq_true,
      if_false, List.length_append, List.length_singleton] at hgoto hcount ⊢
    omega

/-- Taking the receiver away adds to the slack what was in its channel. -/
theorem slack_close (s : Pool ω) (w : Nat) :
    slack { s with chans := s.chans.set w .closed } = s.slack + (s.hasArrived w).toNat := by
  have hsent := s.sent_close w
  simp only [slack, used]
  omega

/-- The connection is taken out of `live`. -/
theorem slack_gone (s : Pool ω) : slack { s with live := s.live - 1 } = s.slack - 1 := by
  simp only [slack, used]
  omega

/-- The steps, one constructor for each outcome of an event. -/
inductive Steps (cfg : PoolConfig) (s : Pool ω) : Event ω → Pool ω → Prop
  | call {j} : Steps cfg s (.call j) { s with tasks := s.tasks ++ [.acquire j] }
  | fireAndForget {t j} (htask : s.tasks[t]? = some (.acquire j)) :
      Steps cfg s (.lock t) (s.fireAndForget cfg t j)
  | acquire {t j} (htask : s.tasks[t]? = some (.acquire j)) :
      Steps cfg s (.lock t) (s.acquire cfg t j)
  | created {t j now} (htask : s.tasks[t]? = some (.create j)) :
      Steps cfg s (.created t true now)
        ({ s with spawned := s.spawned + 1 }.goto t (.hold j ⟨s.spawned, now⟩))
  | notCreated {t j now} (htask : s.tasks[t]? = some (.create j)) :
      Steps cfg s (.created t false now) ({ s with live := s.live - 1 }.goto t .done)
  | receive {t j w c} (htask : s.tasks[t]? = some (.wait j w))
      (hc : s.chans[w]? = some (.sent c)) :
      Steps cfg s (.receive t) ({ s with chans := s.chans.set w .closed }.goto t (.hold j c))
  | receiveDead {t j w c} (htask : s.tasks[t]? = some (.wait j w))
      (hc : s.chans[w]? = some (.sent c)) (hdead : c.id ∈ s.dead) :
      Steps cfg s (.receive t)
        ({ s with chans := s.chans.set w .closed, live := s.live - 1 }.goto t (.acquire j))
  | timeout {t j w} (htask : s.tasks[t]? = some (.wait j w)) :
      Steps cfg s (.timeout t) ({ s with chans := s.chans.set w .closed }.goto t .done)
  | finish {t j c c' now} (htask : s.tasks[t]? = some (.hold j c)) :
      Steps cfg s (.finish t now) (s.goto t (.release c'))
  | finishDead {t j c now} (htask : s.tasks[t]? = some (.hold j c)) (hdead : c.id ∈ s.dead) :
      Steps cfg s (.finish t now) ({ s with live := s.live - 1 }.goto t .done)
  | putBack {t c} (htask : s.tasks[t]? = some (.release c)) :
      Steps cfg s (.putBack t) (s.release t c)
  | cancelWait {t j w} (htask : s.tasks[t]? = some (.wait j w)) :
      Steps cfg s (.cancel t) ({ s with chans := s.chans.set w .closed }.goto t .done)
  | cancelRoundtrip {t wire c} (htask : s.tasks[t]? = some (.hold (.roundtrip wire) c)) :
      Steps cfg s (.cancel t) (s.goto t .done)
  | die {id} : Steps cfg s (.die id) { s with dead := id :: s.dead }
  | reap {now} : Steps cfg s (.reap now) { s with
      idle := (reapFront cfg s.dead now s.idle).1
      live := s.live - (reapFront cfg s.dead now s.idle).2 }

theorem steps_of_step {s s' : Pool ω} {e : Event ω} (h : step cfg s e = some s') :
    Steps cfg s e s' := by
  cases e with
  | call j =>
    obtain rfl := Option.some.inj h
    exact .call
  | lock t =>
    simp only [step] at h
    split at h
    case h_1 wire htask =>
      obtain rfl := Option.some.inj h
      exact .fireAndForget htask
    case h_2 j htask =>
      obtain rfl := Option.some.inj h
      exact .acquire htask
    case h_3 => cases h
  | created t ok now =>
    simp only [step] at h
    split at h
    case h_2 => cases h
    case h_1 j htask =>
      cases ok <;> obtain rfl := Option.some.inj h
      · exact .notCreated htask
      · exact .created htask
  | receive t =>
    simp only [step] at h
    split at h
    case h_2 => cases h
    case h_1 j w htask =>
      split at h
      case h_2 => cases h
      case h_1 c hc =>
        split at h <;> obtain rfl := Option.some.inj h
        · exact .receiveDead htask hc ‹_›
        · exact .receive htask hc
  | timeout t =>
    simp only [step] at h
    split at h
    case h_2 => cases h
    case h_1 j w htask =>
      obtain rfl := Option.some.inj h
      exact .timeout htask
  | finish t now =>
    simp only [step] at h
    split at h
    case h_2 => cases h
    case h_1 j c htask =>
      split at h <;> obtain rfl := Option.some.inj h
      · exact .finishDead htask ‹_›
      · exact .finish htask
  | putBack t =>
    simp only [step] at h
    split at h
    case h_2 => cases h
    case h_1 c htask =>
      obtain rfl := Option.some.inj h
      exact .putBack htask
  | cancel t =>
    simp only [step] at h
    split at h
    case h_3 => cases h
    case h_1 j w htask =>
      obtain rfl := Option.some.inj h
      exact .cancelWait htask
    case h_2 wire c htask =>
      obtain rfl := Option.some.inj h
      exact .cancelRoundtrip htask
  | die id =>
    obtain rfl := Option.some.inj h
    exact .die
  | reap now =>
    obtain rfl := Option.some.inj h
    exact .reap

/-- **Step lemma.** A step that leaks adds one to the slack, and no other step changes it. -/
theorem step_slack {s s' : Pool ω} {e : Event ω} (h : step cfg s e = some s') :
    s'.slack = s.slack + (s.leaks e).toNat := by
  cases steps_of_step h with
  | call => simp [slack, used, leaks, Pc.holds, Pc.creates]
  | fireAndForget htask => simpa [leaks] using slack_fireAndForget htask
  | acquire htask => simpa [leaks] using slack_acquire htask
  | created htask =>
    have hsame : slack { s with spawned := s.spawned + 1 } = s.slack := rfl
    rw [slack_goto (s := { s with spawned := s.spawned + 1 }) htask, hsame]
    simp [leaks]
  | notCreated htask =>
    rw [slack_goto (s := { s with live := s.live - 1 }) htask, slack_gone]
    simp [leaks]
  | @receive t j w c htask hc =>
    have harrived : s.hasArrived w = true := by simp [hasArrived, hc]
    rw [slack_goto (s := { s with chans := s.chans.set w .closed }) htask, slack_close, harrived]
    simp [leaks]
  | @receiveDead t j w c htask hc hdead =>
    have harrived : s.hasArrived w = true := by simp [hasArrived, hc]
    have hgone := slack_gone { s with chans := s.chans.set w .closed }
    rw [slack_goto (s := { s with chans := s.chans.set w .closed, live := s.live - 1 }) htask,
      hgone, slack_close, harrived]
    simp [leaks]
  | @timeout t j w htask =>
    rw [slack_goto (s := { s with chans := s.chans.set w .closed }) htask, slack_close]
    simp [leaks, htask]
  | finish htask =>
    rw [slack_goto htask]
    simp [leaks]
  | finishDead htask =>
    rw [slack_goto (s := { s with live := s.live - 1 }) htask, slack_gone]
    simp [leaks]
  | putBack htask => simpa [leaks] using slack_release htask
  | @cancelWait t j w htask =>
    rw [slack_goto (s := { s with chans := s.chans.set w .closed }) htask, slack_close]
    simp [leaks, htask]
  | cancelRoundtrip htask =>
    rw [slack_goto htask]
    simp [leaks, htask]
  | die => simp [slack, used, leaks]
  | @reap now =>
    have hlen := reapFront_length cfg s.dead now s.idle
    simp only [slack, used, leaks, Bool.toNat_false]
    omega

/-! ## The cap -/

theorem acquire_live_le {s : Pool ω} (hlive : s.live ≤ cfg.max) (t : Nat) (j : Job ω) :
    (s.acquire cfg t j).live ≤ cfg.max := by
  unfold acquire
  rcases popAlive s.dead s.idle.reverse with ⟨got, rest, n⟩
  cases got with
  | some c =>
    show s.live - n ≤ cfg.max
    omega
  | none =>
    by_cases hroom : s.live - n < (cfg.max : Int)
    · simp only [if_pos hroom, goto]
      omega
    · simp only [if_neg hroom, goto]
      omega

theorem fireAndForget_live_le {s : Pool ω} (hlive : s.live ≤ cfg.max) (t : Nat) (j : Job ω) :
    (s.fireAndForget cfg t j).live ≤ cfg.max := by
  unfold fireAndForget
  cases s.idle.reverse with
  | cons c rest => exact hlive
  | nil =>
    by_cases hroom : s.live < (cfg.max : Int)
    · simp only [if_pos hroom, goto]
      omega
    · simp only [if_neg hroom, goto]
      exact hlive

theorem release_live (s : Pool ω) (t : Nat) (c : Conn) : (s.release t c).live = s.live := by
  unfold release
  rcases handOff c s.waiters.reverse s.chans with ⟨sent, ws, chans⟩
  cases sent <;> rfl

/-- **Step lemma.** `live` grows only where there is room. -/
theorem step_live_le {s s' : Pool ω} {e : Event ω} (h : step cfg s e = some s')
    (hlive : s.live ≤ cfg.max) : s'.live ≤ cfg.max := by
  have hless : s.live - 1 ≤ cfg.max := by omega
  cases steps_of_step h with
  | fireAndForget => exact fireAndForget_live_le hlive _ _
  | acquire => exact acquire_live_le hlive _ _
  | putBack =>
    rw [release_live]
    exact hlive
  | reap =>
    show s.live - _ ≤ (cfg.max : Int)
    omega
  | notCreated => exact hless
  | receiveDead => exact hless
  | finishDead => exact hless
  | call => exact hlive
  | created => exact hlive
  | receive => exact hlive
  | timeout => exact hlive
  | finish => exact hlive
  | cancelWait => exact hlive
  | cancelRoundtrip => exact hlive
  | die => exact hlive

/-! ## Runs -/

/-- The accounting of the pool is right: `live` counts the slots in use, is at most the maximum
and has not underflowed. -/
structure Accounted (cfg : PoolConfig) (s : Pool ω) : Prop where
  live_eq : s.live = s.used
  live_le : s.live ≤ cfg.max
  live_nonneg : 0 ≤ s.live

/-- What holds whatever is dropped: slots may be counted that nothing uses, but not the other
way round, and the counter stays in its range. -/
structure Bounded (cfg : PoolConfig) (s : Pool ω) : Prop where
  used_le : s.used ≤ s.live
  live_le : s.live ≤ cfg.max

theorem Bounded.accounted_iff {s : Pool ω} (h : s.Bounded cfg) :
    s.Accounted cfg ↔ s.slack = 0 := by
  have hused := h.used_le
  have hlive := h.live_le
  constructor
  · intro hacc
    have := hacc.live_eq
    simp only [slack]
    omega
  · intro hslack
    simp only [slack] at hslack
    exact ⟨by omega, hlive, by omega⟩

theorem Bounded.step {s s' : Pool ω} {e : Event ω} (h : s.Bounded cfg)
    (hstep : Pool.step cfg s e = some s') : s'.Bounded cfg := by
  have hslack := step_slack hstep
  have hused := h.used_le
  refine ⟨?_, step_live_le hstep h.live_le⟩
  simp only [slack] at hslack
  omega

theorem start_bounded (hmin : cfg.min ≤ cfg.max) (now : Nat) :
    (Pool.start ω cfg now).Bounded cfg := by
  constructor
  · simp [used, start]
  · simpa [start] using hmin

theorem start_slack (now : Nat) : (Pool.start ω cfg now).slack = 0 := by
  simp [slack, used, start]

end Pool

/-- **Theorem.** In every state the pool can reach, `live` is between zero and the maximum, and
it counts the slots in use exactly if no step of the run leaked. -/
theorem pool_accounted_iff (hmin : cfg.min ≤ cfg.max) (now : Nat) {t : Pool ω}
    (es : List (Pool.Event ω)) (hrun : run (Pool.step cfg) (Pool.start ω cfg now) es = some t) :
    (0 ≤ t.live ∧ t.live ≤ cfg.max) ∧
      (t.Accounted cfg ↔
        Guarded (Pool.step cfg) (fun s e => s.leaks e = false) (Pool.start ω cfg now) es) := by
  have hI : ∀ (s : Pool ω) e s', s.Bounded cfg → Pool.step cfg s e = some s' → s'.Bounded cfg :=
    fun s e s' h hs => h.step hs
  have hP : ∀ (s : Pool ω) e s', s.Bounded cfg → Pool.step cfg s e = some s' →
      (s'.slack = 0 ↔ s.slack = 0 ∧ s.leaks e = false) := by
    intro s e s' h hs
    have hslack := Pool.step_slack hs
    have hused := h.used_le
    cases hleak : s.leaks e with
    | false => simp [hslack, hleak]
    | true =>
      simp only [hleak, Bool.toNat_true] at hslack
      have : 0 ≤ s.slack := by
        simp only [Pool.slack]
        omega
      simp only [Bool.true_eq_false, and_false, iff_false]
      omega
  have hstart := Pool.start_bounded (ω := ω) hmin now
  have ht : t.Bounded cfg := run_invariant' hI hstart hrun
  refine ⟨⟨by have := ht.used_le; omega, ht.live_le⟩, ?_⟩
  rw [ht.accounted_iff, run_iff_guarded hI hP hstart hrun]
  exact and_iff_right (Pool.start_slack now)

theorem pool_accounted_iff_roundtrip :
    ∃ t, run (Pool.step ⟨1, 1, 60⟩) (Pool.start String ⟨1, 1, 60⟩ 0)
        [.call (.roundtrip "select 1"), .lock 0, .finish 0 5, .putBack 0] = some t ∧
      t.Accounted ⟨1, 1, 60⟩ :=
  ⟨_, rfl, (pool_accounted_iff (by decide) 0
    [.call (.roundtrip "select 1"), .lock 0, .finish 0 5, .putBack 0] rfl).2.2 (by decide)⟩

/-- The future of a round trip is dropped while it awaits its reply: the only slot is gone. -/
theorem pool_leaks_slot :
    ¬ ∀ (cfg : PoolConfig) (now : Nat) (t : Pool String) (es : List (Pool.Event String)),
      cfg.min ≤ cfg.max → run (Pool.step cfg) (Pool.start String cfg now) es = some t →
      t.Accounted cfg := by
  intro h
  have hacc := h ⟨1, 1, 60⟩ 0 _ [.call (.roundtrip "select 1"), .lock 0, .cancel 0] (by decide) rfl
  exact absurd hacc.live_eq (by decide)

end Pglite
