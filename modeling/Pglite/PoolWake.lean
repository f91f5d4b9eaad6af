import Pglite.OrderedLog
import Pglite.PoolProof

/-!
# Waiters of the pool

Only `release` wakes a waiter, and it does so with the connection it was given. Where a connection
dies in a caller's hands, or a creation fails, `live` goes down and nobody is told: a caller that
waits goes on waiting although it could make a connection of its own.

In a run without such a step while a caller waits (`Pool.starves`), a caller waits only at the
cap, and no connection is idle then (`Pool.Fed`).
-/

namespace Pglite

open Runs

variable {ω : Type*} {cfg : PoolConfig}

namespace Pool

/-! ## Waiting -/

/-- A call of `acquire` waits with the receiver of the channel `w`, which is empty. -/
def Waits (s : Pool ω) (w : Nat) : Prop :=
  s.chans[w]? = some .open ∧ ∃ j, Pc.wait j w ∈ s.tasks

/-- The receiver of a waiting call, if its channel is empty. -/
def waitsAt (s : Pool ω) : Pc ω → Bool
  | .wait _ w => decide (s.chans[w]? = some .open)
  | _ => false

/-- Some call of `acquire` waits. -/
def someWaits (s : Pool ω) : Bool :=
  s.tasks.any s.waitsAt

theorem someWaits_iff {s : Pool ω} : s.someWaits = true ↔ ∃ w, s.Waits w := by
  rw [someWaits, List.any_eq_true]
  constructor
  · rintro ⟨pc, hpc, hw⟩
    cases pc with
    | wait j w => exact ⟨w, by simpa [waitsAt] using hw, j, hpc⟩
    | _ => cases hw
  · rintro ⟨w, hopen, j, hmem⟩
    exact ⟨_, hmem, by simpa [waitsAt] using hopen⟩

/-- The step takes a connection, or the promise of one, out of `live`, and tells nobody. -/
def frees (s : Pool ω) : Event ω → Bool
  | .created t ok _ =>
    match s.tasks[t]? with
    | some (.create _) => !ok
    | _ => false
  | .receive t =>
    match s.tasks[t]? with
    | some (.wait _ w) =>
      match s.chans[w]? with
      | some (.sent c) => decide (c.id ∈ s.dead)
      | _ => false
    | _ => false
  | .finish t _ =>
    match s.tasks[t]? with
    | some (.hold _ c) => decide (c.id ∈ s.dead)
    | _ => false
  | _ => false

/-- The step frees capacity while a call waits. -/
def starves (s : Pool ω) (e : Event ω) : Bool :=
  s.frees e && s.someWaits

/-- No connection is being made, and none is on its way to a waiter. -/
def Quiet (s : Pool ω) : Prop :=
  (∀ pc ∈ s.tasks, pc.creates = false) ∧ ∀ ch ∈ s.chans, ch.isSent = false

instance Quiet.decidable (s : Pool ω) : Decidable s.Quiet :=
  inferInstanceAs (Decidable (_ ∧ _))

/-- No call waits while a connection could be handed out or made. -/
def NoLostWakeup (cfg : PoolConfig) (s : Pool ω) : Prop :=
  s.Quiet → s.someWaits = true → s.live = cfg.max ∧ s.idle = []

/-! ## The invariant -/

/-- A waiting call is in the queue, and the pool is at its cap with nothing idle. -/
structure Fed (cfg : PoolConfig) (s : Pool ω) : Prop where
  queued : ∀ w, s.Waits w → w ∈ s.waiters
  full : ∀ w, s.Waits w → s.live = cfg.max ∧ s.idle = []

/-- The calls that wait have waited before, and nothing they depend on has changed. -/
theorem Fed.mono {s s' : Pool ω} (h : s.Fed cfg) (hwaits : ∀ w, s'.Waits w → s.Waits w)
    (hwaiters : s'.waiters = s.waiters) (hlive : s'.live = s.live) (hidle : s'.idle = s.idle) :
    s'.Fed cfg where
  queued w hw := hwaiters ▸ h.queued w (hwaits w hw)
  full w hw := by
    rw [hlive, hidle]
    exact h.full w (hwaits w hw)

/-- Nobody waits. -/
theorem Fed.vacuous {s : Pool ω} (h : ∀ w, ¬ s.Waits w) : s.Fed cfg :=
  ⟨fun w hw => absurd hw (h w), fun w hw => absurd hw (h w)⟩

/-- A call that moves on, and does not wait after it, lets nobody else wait. -/
theorem waits_goto {s : Pool ω} {t : Nat} {pc : Pc ω} (hpc : ∀ j w, pc ≠ .wait j w) {w : Nat}
    (h : (s.goto t pc).Waits w) : s.Waits w := by
  obtain ⟨hopen, j, hmem⟩ := h
  rcases List.mem_or_eq_of_mem_set hmem with hmem | rfl
  · exact ⟨hopen, j, hmem⟩
  · exact absurd rfl (hpc j w)

/-- A channel whose receiver goes is not one that is waited at. -/
theorem waits_close {s : Pool ω} {v w : Nat}
    (h : Waits { s with chans := s.chans.set v .closed } w) : s.Waits w := by
  obtain ⟨hopen, hmem⟩ := h
  refine ⟨?_, hmem⟩
  change (s.chans.set v .closed)[w]? = some .open at hopen
  by_cases hvw : v = w
  · subst hvw
    rw [List.getElem?_set_self'] at hopen
    cases hv : s.chans[v]? <;> simp [hv] at hopen
  · rwa [List.getElem?_set_ne hvw] at hopen

/-! ## Critical sections -/

/-- `acquire` finds no connection alive: it has looked at all of them. -/
theorem popAlive_none {dead : List Nat} {cs rest : List Conn} {n : Nat}
    (h : popAlive dead cs = (none, rest, n)) : rest = [] := by
  induction cs generalizing n with
  | nil => exact (Prod.mk.inj (Prod.mk.inj h).2).1.symm
  | cons c cs ih =>
    unfold popAlive at h
    split at h
    · rcases hpop : popAlive dead cs with ⟨got, rest', n'⟩
      rw [hpop] at h
      obtain ⟨rfl, rfl, -⟩ : got = none ∧ rest' = rest ∧ n' + 1 = n := by simpa using h
      exact ih hpop
    · cases h

theorem fed_acquire {s : Pool ω} (h : s.Fed cfg) (hlive : s.live ≤ cfg.max) (t : Nat)
    (j : Job ω) : (s.acquire cfg t j).Fed cfg := by
  unfold acquire
  rcases hpop : popAlive s.dead s.idle.reverse with ⟨got, rest, n⟩
  cases got with
  | some c =>
    -- An idle connection was there, so nobody waited.
    have hnone : ∀ w, ¬ s.Waits w := by
      intro w hw
      rw [(h.full w hw).2] at hpop
      cases hpop
    exact .vacuous fun w hw => hnone w (waits_goto (by simp) hw)
  | none =>
    obtain rfl := popAlive_none hpop
    by_cases hroom : s.live - n < (cfg.max : Int)
    · have hnone : ∀ w, ¬ s.Waits w := by
        intro w hw
        obtain ⟨hmax, hidle⟩ := h.full w hw
        rw [hidle] at hpop
        obtain ⟨-, -, rfl⟩ : (none : Option Conn) = none ∧ ([] : List Conn) = [] ∧ 0 = n := by
          simpa [popAlive] using hpop
        omega
      simp only [if_pos hroom]
      exact .vacuous fun w hw => hnone w (waits_goto (by simp) hw)
    · simp only [if_neg hroom]
      refine ⟨fun w hw => ?_, fun w hw => ⟨?_, rfl⟩⟩
      · obtain ⟨hopen, j', hmem⟩ := hw
        rcases List.mem_or_eq_of_mem_set hmem with hmem | heq
        · rcases OrderedLog.getElem?_append_single hopen with hopen | ⟨rfl, -⟩
          · exact List.mem_append_left _ (h.queued w ⟨hopen, j', hmem⟩)
          · exact List.mem_append_right _ List.mem_cons_self
        · obtain ⟨-, rfl⟩ := Pc.wait.inj heq
          exact List.mem_append_right _ List.mem_cons_self
      · show s.live - n = cfg.max
        omega

theorem fed_fireAndForget {s : Pool ω} (h : s.Fed cfg) (t : Nat) (j : Job ω) :
    (s.fireAndForget cfg t j).Fed cfg := by
  unfold fireAndForget
  rcases hidle : s.idle.reverse with _ | ⟨c, rest⟩
  · by_cases hroom : s.live < (cfg.max : Int)
    · simp only [if_pos hroom]
      refine .vacuous fun w hw => ?_
      have hmax := (h.full w (waits_goto (by simp) hw)).1
      omega
    · simp only [if_neg hroom]
      exact h.mono (fun w hw => waits_goto (by simp) hw) rfl rfl rfl
  · refine .vacuous fun w hw => ?_
    have hnil := (h.full w (waits_goto (by simp) hw)).2
    rw [hnil] at hidle
    cases hidle

/-- The loop of `release` gives the connection to a waiter if one is there, and takes only
channels off the queue that nobody waits at any more. -/
theorem handOff_spec (c : Conn) (ws : List Nat) (chans : List Chan) :
    let (sent, ws', chans') := handOff c ws chans
    (∀ w, chans'[w]? = some .open → chans[w]? = some .open ∧ (w ∈ ws → w ∈ ws')) ∧
      (sent = false → ∀ w ∈ ws, chans[w]? ≠ some .open) := by
  induction ws with
  | nil => exact ⟨fun w hw => ⟨hw, id⟩, fun _ w hw => absurd hw List.not_mem_nil⟩
  | cons v ws ih =>
    have skip : chans[v]? ≠ some .open →
        let (sent, ws', chans') := handOff c ws chans
        (∀ w, chans'[w]? = some .open → chans[w]? = some .open ∧ (w ∈ v :: ws → w ∈ ws')) ∧
          (sent = false → ∀ w ∈ v :: ws, chans[w]? ≠ some .open) := by
      intro hv
      rcases hoff : handOff c ws chans with ⟨sent, ws', chans'⟩
      rw [hoff] at ih
      refine ⟨fun w hw => ⟨(ih.1 w hw).1, fun hmem => ?_⟩, fun hsent w hmem => ?_⟩
      · rcases List.mem_cons.1 hmem with rfl | hmem
        · exact absurd (ih.1 w hw).1 hv
        · exact (ih.1 w hw).2 hmem
      · rcases List.mem_cons.1 hmem with rfl | hmem
        · exact hv
        · exact ih.2 hsent w hmem
    rw [handOff]
    cases hv : chans[v]? with
    | none => exact skip (by simp [hv])
    | some ch =>
      cases ch with
      | «open» =>
        refine ⟨fun w hw => ?_, fun hsent => absurd hsent (by simp)⟩
        by_cases hvw : v = w
        · subst hvw
          rw [List.getElem?_set_self', hv] at hw
          cases hw
        · rw [List.getElem?_set_ne hvw] at hw
          refine ⟨hw, fun hmem => ?_⟩
          exact (List.mem_cons.1 hmem).resolve_left fun heq => hvw heq.symm
      | sent c' => exact skip (by simp [hv])
      | closed => exact skip (by simp [hv])

theorem fed_release {s : Pool ω} (h : s.Fed cfg) (t : Nat) (c : Conn) :
    (s.release t c).Fed cfg := by
  have hspec := handOff_spec c s.waiters.reverse s.chans
  unfold release
  rcases hoff : handOff c s.waiters.reverse s.chans with ⟨sent, ws, chans⟩
  rw [hoff] at hspec
  obtain ⟨hopen, hnone⟩ := hspec
  -- Whoever waits afterwards has waited before, and is still in the queue.
  have before : ∀ w, Waits (goto { s with waiters := ws.reverse, chans := chans } t .done) w →
      s.Waits w ∧ w ∈ ws.reverse := by
    intro w hw
    obtain ⟨hw, hmem⟩ := waits_goto (by simp) hw
    have hs : s.Waits w := ⟨(hopen w hw).1, hmem⟩
    exact ⟨hs, List.mem_reverse.2 ((hopen w hw).2 (List.mem_reverse.2 (h.queued w hs)))⟩
  cases sent with
  | true => exact ⟨fun w hw => (before w hw).2, fun w hw => h.full w (before w hw).1⟩
  | false =>
    refine .vacuous fun w hw => ?_
    have hs := (before w hw).1
    exact hnone rfl w (List.mem_reverse.2 (h.queued w hs)) hs.1

/-! ## Steps -/

/-- **Step lemma.** A step that frees nothing while a call waits keeps every waiter fed. -/
theorem Fed.step {s s' : Pool ω} {e : Event ω} (h : s.Fed cfg) (hb : s.Bounded cfg)
    (hok : s.starves e = false) (hstep : Pool.step cfg s e = some s') : s'.Fed cfg := by
  -- A step that frees capacity finds nobody waiting.
  have nobody : s.frees e = true → ∀ w, ¬ s.Waits w := by
    intro hfrees w hw
    rw [starves, hfrees, someWaits_iff.2 ⟨w, hw⟩] at hok
    cases hok
  cases steps_of_step hstep with
  | call =>
    refine h.mono (fun w hw => ?_) rfl rfl rfl
    obtain ⟨hopen, j, hmem⟩ := hw
    rcases List.mem_append.1 hmem with hmem | hmem
    · exact ⟨hopen, j, hmem⟩
    · cases List.mem_singleton.1 hmem
  | fireAndForget => exact fed_fireAndForget h _ _
  | acquire => exact fed_acquire h hb.live_le _ _
  | created => exact h.mono (fun w hw => waits_goto (by simp) hw) rfl rfl rfl
  | notCreated htask =>
    have hnone := nobody (by simp [frees, htask])
    exact .vacuous fun w hw => hnone w (waits_goto (by simp) hw)
  | receive =>
    exact h.mono (fun w hw => waits_close (waits_goto (by simp) hw)) rfl rfl rfl
  | receiveDead htask hc hdead =>
    have hnone := nobody (by simp [frees, htask, hc, hdead])
    exact .vacuous fun w hw => hnone w (waits_close (waits_goto (by simp) hw))
  | timeout =>
    exact h.mono (fun w hw => waits_close (waits_goto (by simp) hw)) rfl rfl rfl
  | finish => exact h.mono (fun w hw => waits_goto (by simp) hw) rfl rfl rfl
  | finishDead htask hdead =>
    have hnone := nobody (by simp [frees, htask, hdead])
    exact .vacuous fun w hw => hnone w (waits_goto (by simp) hw)
  | putBack => exact fed_release h _ _
  | cancelWait =>
    exact h.mono (fun w hw => waits_close (waits_goto (by simp) hw)) rfl rfl rfl
  | cancelRoundtrip => exact h.mono (fun w hw => waits_goto (by simp) hw) rfl rfl rfl
  | die => exact h.mono (fun w hw => hw) rfl rfl rfl
  | @reap now =>
    -- While somebody waits there is nothing to reap.
    refine ⟨h.queued, fun w hw => ?_⟩
    obtain ⟨hmax, hidle⟩ := h.full w hw
    simp [hidle, reapFront, hmax]

theorem start_fed (now : Nat) : (Pool.start ω cfg now).Fed cfg :=
  .vacuous fun _ hw => by simp [Waits, start] at hw

end Pool

/-- **Theorem.** In every state the pool can reach no call of `acquire` waits while a connection
could be handed out or made, as long as no connection dies in a caller's hands, or on its way to
a waiter, and no creation fails while another call waits. -/
theorem pool_no_lost_wakeup (hmin : cfg.min ≤ cfg.max) (now : Nat) {t : Pool ω}
    (es : List (Pool.Event ω)) (hrun : run (Pool.step cfg) (Pool.start ω cfg now) es = some t)
    (hok : Guarded (Pool.step cfg) (fun s e => s.starves e = false) (Pool.start ω cfg now) es) :
    t.NoLostWakeup cfg := by
  have hstep : ∀ (s : Pool ω) e s', (s.Bounded cfg ∧ s.Fed cfg) → s.starves e = false →
      Pool.step cfg s e = some s' → s'.Bounded cfg ∧ s'.Fed cfg :=
    fun s e s' h hok hs => ⟨h.1.step hs, h.2.step h.1 hok hs⟩
  have hstart : (Pool.start ω cfg now).Bounded cfg ∧ (Pool.start ω cfg now).Fed cfg :=
    ⟨Pool.start_bounded hmin now, Pool.start_fed now⟩
  intro _ hwaits
  obtain ⟨w, hw⟩ := Pool.someWaits_iff.1 hwaits
  exact (run_invariant hstep hstart hok hrun).2.full w hw

/-- A second caller waits at the cap, and a third after the second was handed the connection. -/
theorem pool_no_lost_wakeup_roundtrip :
    ∃ t, run (Pool.step ⟨1, 1, 60⟩) (Pool.start String ⟨1, 1, 60⟩ 0)
        [.call .checkout, .lock 0, .call .checkout, .lock 1, .finish 0 5, .putBack 0, .receive 1,
          .call (.roundtrip "select 1"), .lock 2] = some t ∧
      t.Quiet ∧ t.someWaits = true ∧ t.NoLostWakeup ⟨1, 1, 60⟩ :=
  ⟨_, rfl, by decide, by decide, pool_no_lost_wakeup (by decide) 0
    [.call .checkout, .lock 0, .call .checkout, .lock 1, .finish 0 5, .putBack 0, .receive 1,
      .call (.roundtrip "select 1"), .lock 2] rfl (by decide)⟩

/-- The only connection dies while a round trip uses it: the next caller waits although the pool
is empty. -/
theorem pool_loses_wakeup :
    ¬ ∀ (cfg : PoolConfig) (now : Nat) (t : Pool String) (es : List (Pool.Event String)),
      cfg.min ≤ cfg.max → run (Pool.step cfg) (Pool.start String cfg now) es = some t →
      t.NoLostWakeup cfg := by
  intro h
  have hfed := h ⟨1, 1, 60⟩ 0 _ [.call (.roundtrip "select 1"), .lock 0, .call .checkout, .lock 1,
    .die 0, .finish 0 5] (by decide) rfl
  have hlive := (hfed (by decide) (by decide)).1
  exact absurd hlive (by decide)

end Pglite
