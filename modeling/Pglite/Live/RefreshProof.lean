import Mathlib.Algebra.Ring.Nat
import Pglite.Live.Refresh
import Pglite.Runs

/-!
# No change is missed

Until the refresher reads again nothing is lost, so what counts is that after every read a change
of a watched table leaves a notification or a wake-up behind (`LiveQuery.pending`). That is so for
every statement that fires the trigger; `TRUNCATE` fires none.
-/

namespace Pglite.Live

open Runs

variable {τ κ ρ : Type*}

namespace LiveQuery

variable [DecidableEq τ]

/-! ## Pending wake-ups -/

/-- A notification or a wake-up is on its way. -/
def pending (s : LiveQuery τ κ ρ) : Bool :=
  !s.inFlight.isEmpty || decide (0 < s.wake)

/-- Some statement on a watched table fires no trigger. -/
def silent (s : LiveQuery τ κ ρ) (stmts : List (Stmt τ κ)) : Bool :=
  stmts.any fun x => decide (x.table ∈ s.watched) && decide (x.kind = .truncate)

/-- Some statement fires the trigger of a watched table. -/
def told (s : LiveQuery τ κ ρ) (stmts : List (Stmt τ κ)) : Bool :=
  s.watched.any (notifies stmts)

/-- The step commits a `TRUNCATE` of a watched table, after the refresher has read, and neither
this transaction nor anything before it wakes the refresher again. -/
def unseen (s : LiveQuery τ κ ρ) : Event τ κ → Bool
  | .commit stmts => s.phase.hasRead && s.silent stmts && !s.told stmts && !s.pending
  | _ => false

/-- Once everything sent is received and the refresher waits, the rows last passed to the
callback are the result of the query on the tables as they are. -/
def UpToDate (q : List κ → ρ) (s : LiveQuery τ κ ρ) : Prop :=
  s.phase = .recv → s.inFlight = [] → s.wake = 0 → s.done = false → s.last = some (s.rows q)

/-! ## The invariant -/

/-- The rows read last, where the refresher does not read again by itself. -/
def Current (q : List κ → ρ) (s : LiveQuery τ κ ρ) : Prop :=
  match s.phase with
  | .first rows | .rerun rows => rows = s.rows q
  | .spawn | .recv => s.last = some (s.rows q)
  | .listen | .drain | .query | .stopped => True

/-- Every watched table is listened to before the first read, and after a read the rows are
current or a wake-up is on its way. -/
structure Inv (q : List κ → ρ) (s : LiveQuery τ κ ρ) : Prop where
  listened : s.listened = s.watched.take s.listened.length
  all : s.phase = .listen ∨ s.listened = s.watched
  heard : ∀ t ∈ s.inFlight, t ∈ s.listened
  current : s.done = false → s.pending = true ∨ s.Current q

omit [DecidableEq τ] in
theorem current_of_not_hasRead {q : List κ → ρ} {s : LiveQuery τ κ ρ}
    (h : s.phase.hasRead = false) : s.Current q := by
  cases hphase : s.phase <;> simp_all [Phase.hasRead, Current]

omit [DecidableEq τ] in
/-- What the rows are compared with has not changed. -/
theorem Current.congr {q : List κ → ρ} {s s' : LiveQuery τ κ ρ} (h : s.Current q)
    (hphase : s'.phase = s.phase) (hlast : s'.last = s.last) (hrows : s'.rows q = s.rows q) :
    s'.Current q := by
  unfold Current at *
  rw [hphase, hlast, hrows]
  exact h

/-- A table that no statement is on keeps its contents. -/
theorem applyAll_of_forall_ne {data : τ → κ} {stmts : List (Stmt τ κ)} {t : τ}
    (h : ∀ x ∈ stmts, x.table ≠ t) : applyAll data stmts t = data t := by
  induction stmts generalizing data with
  | nil => rfl
  | cons x stmts ih =>
    have hx : x.table ≠ t := h x List.mem_cons_self
    have hrest : applyAll (Function.update data x.table x.contents) stmts t =
        Function.update data x.table x.contents t :=
      ih fun y hy => h y (List.mem_cons_of_mem _ hy)
    rw [applyAll, List.foldl_cons]
    exact hrest.trans (Function.update_of_ne hx.symm _ _)

/-- A transaction fires the trigger of a watched table, truncates one, or leaves them all as they
are. -/
theorem commit_cases (s : LiveQuery τ κ ρ) (stmts : List (Stmt τ κ)) :
    s.told stmts = true ∨ s.silent stmts = true ∨
      ∀ t ∈ s.watched, applyAll s.data stmts t = s.data t := by
  by_cases h : ∃ x ∈ stmts, x.table ∈ s.watched
  · obtain ⟨x, hx, hmem⟩ := h
    by_cases hkind : x.kind = .truncate
    · exact .inr (.inl (List.any_eq_true.2 ⟨x, hx, by simp [hmem, hkind]⟩))
    · have hfires : x.kind.fires = true := x.kind.fires_iff.2 hkind
      refine .inl (List.any_eq_true.2 ⟨x.table, hmem, ?_⟩)
      exact List.any_eq_true.2 ⟨x, hx, by simp [hfires]⟩
  · refine .inr (.inr fun t ht => applyAll_of_forall_ne ?_)
    rintro x hx rfl
    exact h ⟨x, hx, ht⟩

omit [DecidableEq τ] in
theorem pending_iff {s : LiveQuery τ κ ρ} :
    s.pending = true ↔ s.inFlight ≠ [] ∨ 0 < s.wake := by
  simp [pending]

/-! ## Steps -/

theorem Inv.commit {q : List κ → ρ} {s s' : LiveQuery τ κ ρ} {stmts : List (Stmt τ κ)}
    (h : s.Inv q) (hok : s.unseen (.commit stmts) = false)
    (hstep : step q s (.commit stmts) = some s') : s'.Inv q := by
  obtain rfl := Option.some.inj hstep
  refine ⟨h.listened, h.all, ?_, fun hdone => ?_⟩
  · intro t ht
    rcases List.mem_append.1 ht with ht | ht
    · exact h.heard t ht
    · exact (List.mem_filter.1 ht).1
  by_cases hread : s.phase.hasRead = true
  swap
  · exact .inr (current_of_not_hasRead (Bool.eq_false_iff.2 hread))
  -- What was on its way still is.
  have stays : s.pending = true → s.inFlight ++ s.listened.filter (notifies stmts) ≠ [] ∨
      0 < s.wake := by
    intro hpending
    exact (pending_iff.1 hpending).imp_left (List.append_ne_nil_of_left_ne_nil · _)
  have notified : s.told stmts = true → s.inFlight ++ s.listened.filter (notifies stmts) ≠ [] := by
    intro htold
    have hall : s.listened = s.watched := by
      refine h.all.resolve_left fun hphase => ?_
      simp [hphase, Phase.hasRead] at hread
    obtain ⟨t, ht, hnotifies⟩ := List.any_eq_true.1 htold
    have hmem : t ∈ s.listened.filter (notifies stmts) :=
      List.mem_filter.2 ⟨hall ▸ ht, hnotifies⟩
    exact List.append_ne_nil_of_right_ne_nil _ (List.ne_nil_of_mem hmem)
  rcases h.current hdone with hpending | hcurrent
  · exact .inl (pending_iff.2 (stays hpending))
  rcases s.commit_cases stmts with htold | hsilent | hsame
  · exact .inl (pending_iff.2 (.inl (notified htold)))
  · have hor : s.told stmts = true ∨ s.pending = true := by
      by_contra hnot
      simp_all [unseen]
    rcases hor with htold | hpending
    · exact .inl (pending_iff.2 (.inl (notified htold)))
    · exact .inl (pending_iff.2 (stays hpending))
  · exact .inr (hcurrent.congr rfl rfl (congrArg q (List.map_congr_left hsame)))

theorem Inv.deliver {q : List κ → ρ} {s s' : LiveQuery τ κ ρ} {i : Nat} (h : s.Inv q)
    (hstep : step q s (.deliver i) = some s') : s'.Inv q := by
  obtain ⟨t, ht, rfl⟩ := Option.map_eq_some_iff.1 hstep
  have hcount : 0 < s.listened.count t :=
    List.count_pos_iff.2 (h.heard t (List.mem_of_getElem? ht))
  have hheard : ∀ u ∈ s.inFlight.eraseIdx i, u ∈ s.listened :=
    fun u hu => h.heard u (List.mem_of_mem_eraseIdx hu)
  unfold wakeBy
  split_ifs with hdone
  · exact ⟨h.listened, h.all, hheard, fun hnot => absurd (hnot.symm.trans hdone) Bool.false_ne_true⟩
  · refine ⟨h.listened, h.all, hheard, fun _ => .inl (pending_iff.2 (.inr ?_))⟩
    exact Nat.add_pos_right _ hcount

omit [DecidableEq τ] in
theorem Inv.nudge {q : List κ → ρ} {s : LiveQuery τ κ ρ} (h : s.Inv q) :
    (s.wakeBy 1).Inv q := by
  unfold wakeBy
  split_ifs with hdone
  · exact h
  · exact ⟨h.listened, h.all, h.heard, fun _ => .inl (pending_iff.2 (.inr (Nat.succ_pos _)))⟩

omit [DecidableEq τ] in
theorem Inv.listen {q : List κ → ρ} {s : LiveQuery τ κ ρ} {t : τ} (h : s.Inv q)
    (hphase : s.phase = .listen) (ht : s.watched[s.listened.length]? = some t) :
    Inv q { s with listened := s.listened ++ [t] } where
  listened := by
    rw [List.length_append, List.length_singleton, List.take_add_one, ht, ← h.listened]
    rfl
  all := .inl hphase
  heard u hu := List.mem_append_left _ (h.heard u hu)
  current _ := .inr (current_of_not_hasRead (by simp [hphase, Phase.hasRead]))

omit [DecidableEq τ] in
/-- A step of the refresher changes neither what is listened to nor what is in flight. -/
theorem Inv.move {q : List κ → ρ} {s s' : LiveQuery τ κ ρ} (h : s.Inv q)
    (hphase : s.phase ≠ .listen) (hwatched : s'.watched = s.watched)
    (hlistened : s'.listened = s.listened) (hflight : s'.inFlight = s.inFlight)
    (hcurrent : s'.done = false → s'.pending = true ∨ s'.Current q) : s'.Inv q where
  listened := by
    rw [hlistened, hwatched]
    exact h.listened
  all := .inr (by rw [hlistened, hwatched, h.all.resolve_left hphase])
  heard := by
    rw [hlistened, hflight]
    exact h.heard
  current := hcurrent

/-- **Step lemma.** A step that leaves no `TRUNCATE` unseen keeps the invariant. -/
theorem Inv.step {q : List κ → ρ} {s s' : LiveQuery τ κ ρ} {e : Event τ κ} (h : s.Inv q)
    (hok : s.unseen e = false) (hstep : LiveQuery.step q s e = some s') : s'.Inv q := by
  cases e with
  | commit stmts => exact h.commit hok hstep
  | deliver i => exact h.deliver hstep
  | nudge =>
    obtain rfl := Option.some.inj hstep
    exact h.nudge
  | listen =>
    rw [LiveQuery.step] at hstep
    split at hstep
    · next hphase =>
      obtain ⟨t, ht, rfl⟩ := Option.map_eq_some_iff.1 hstep
      exact h.listen hphase ht
    · cases hstep
  | select =>
    rw [LiveQuery.step] at hstep
    split at hstep
    · split_ifs at hstep with hlength
      obtain rfl := Option.some.inj hstep
      have hall : s.listened = s.watched := by
        rw [h.listened, hlength, List.take_length]
      exact ⟨h.listened, .inr hall, h.heard, fun _ => .inr rfl⟩
    · cases hstep
  | callback =>
    rw [LiveQuery.step] at hstep
    split at hstep
    · next rows hphase =>
      obtain rfl := Option.some.inj hstep
      refine h.move (by simp [hphase]) rfl rfl rfl fun hdone => (h.current hdone).imp id ?_
      intro hcurrent
      have hrows : rows = s.rows q := by simpa [Current, hphase] using hcurrent
      exact congrArg some hrows
    · next rows hphase =>
      obtain rfl := Option.some.inj hstep
      refine h.move (by simp [hphase]) rfl rfl rfl fun hdone => (h.current hdone).imp id ?_
      intro hcurrent
      have hrows : rows = s.rows q := by simpa [Current, hphase] using hcurrent
      exact congrArg some hrows
    · cases hstep
  | spawn =>
    rw [LiveQuery.step] at hstep
    split at hstep
    · next hphase =>
      obtain rfl := Option.some.inj hstep
      refine h.move (by simp [hphase]) rfl rfl rfl fun hdone => (h.current hdone).imp id ?_
      intro hcurrent
      have hlast : s.last = some (s.rows q) := by simpa [Current, hphase] using hcurrent
      exact hlast
    · cases hstep
  | recv =>
    rw [LiveQuery.step] at hstep
    split at hstep
    · next hphase =>
      split_ifs at hstep
      obtain rfl := Option.some.inj hstep
      exact h.move (by simp [hphase]) rfl rfl rfl fun _ => .inr trivial
    · cases hstep
  | tryRecv =>
    rw [LiveQuery.step] at hstep
    split at hstep
    · next hphase =>
      have hne : s.phase ≠ .listen := by simp [hphase]
      split_ifs at hstep <;> obtain rfl := Option.some.inj hstep
      · exact h.move hne rfl rfl rfl fun _ => .inr (current_of_not_hasRead (by simp [hphase, Phase.hasRead]))
      · exact h.move hne rfl rfl rfl fun _ => .inr trivial
      · exact h.move hne rfl rfl rfl fun _ => .inr trivial
    · cases hstep
  | query =>
    rw [LiveQuery.step] at hstep
    split at hstep
    · next hphase =>
      obtain rfl := Option.some.inj hstep
      exact h.move (by simp [hphase]) rfl rfl rfl fun _ => .inr rfl
    · cases hstep
  | unsubscribe =>
    rw [LiveQuery.step] at hstep
    split_ifs at hstep with hreturned
    obtain rfl := Option.some.inj hstep
    have hphase : s.phase ≠ .listen := by
      intro hphase
      simp [hphase, Phase.returned] at hreturned
    exact h.move hphase rfl rfl rfl fun _ => .inl (pending_iff.2 (.inr (Nat.succ_pos _)))

omit [DecidableEq τ] in
theorem start_inv (q : List κ → ρ) (watched : List τ) (data : τ → κ) :
    (start watched data).Inv q where
  listened := rfl
  all := .inl rfl
  heard _ ht := absurd ht List.not_mem_nil
  current _ := .inr trivial

omit [DecidableEq τ] in
theorem Inv.upToDate {q : List κ → ρ} {s : LiveQuery τ κ ρ} (h : s.Inv q) : s.UpToDate q := by
  intro hphase hflight hwake hdone
  rcases h.current hdone with hpending | hcurrent
  · rcases pending_iff.1 hpending with hne | hpos
    · exact absurd hflight hne
    · omega
  · simpa [Current, hphase] using hcurrent

end LiveQuery

/-- **Theorem.** Whatever the sessions commit and whatever the refresher is doing then, its last
rows are the result of the query on the current contents once nothing is on its way to it, as
long as no transaction that only truncates watched tables is committed after a read that nothing
follows. -/
theorem live_query_misses_no_change [DecidableEq τ] (q : List κ → ρ) (watched : List τ)
    (data : τ → κ) {t : LiveQuery τ κ ρ} (es : List (LiveQuery.Event τ κ))
    (hok : Guarded (LiveQuery.step q) (fun s e => s.unseen e = false)
      (LiveQuery.start watched data) es)
    (hrun : run (LiveQuery.step q) (LiveQuery.start watched data) es = some t) : t.UpToDate q :=
  have hstep : ∀ (s : LiveQuery τ κ ρ) e s', s.Inv q → s.unseen e = false →
      LiveQuery.step q s e = some s' → s'.Inv q := fun _ _ _ h hok hs => h.step hok hs
  (run_invariant hstep (LiveQuery.start_inv q watched data) hok hrun).upToDate

/-- The table is truncated before the first select, and again, with a copy in the same
transaction, once the refresher waits. -/
theorem live_query_misses_no_change_insert :
    ∃ t, run (LiveQuery.step List.sum) (LiveQuery.start ["todos"] fun _ => 3)
        [.commit [⟨"todos", .truncate, 0⟩], .listen, .select, .callback, .spawn,
          .commit [⟨"todos", .truncate, 0⟩, ⟨"todos", .copy, 7⟩], .deliver 0, .recv, .tryRecv,
          .query, .callback] = some t ∧
      t.last = some 7 ∧ t.UpToDate List.sum :=
  ⟨_, rfl, rfl, live_query_misses_no_change List.sum ["todos"] (fun _ => 3)
    [.commit [⟨"todos", .truncate, 0⟩], .listen, .select, .callback, .spawn,
      .commit [⟨"todos", .truncate, 0⟩, ⟨"todos", .copy, 7⟩], .deliver 0, .recv, .tryRecv,
      .query, .callback] (by decide) rfl⟩

/-- The refresher waits, and the table is truncated. -/
theorem live_query_misses_truncate :
    ¬ ∀ (watched : List String) (data : String → Nat) (t : LiveQuery String Nat Nat)
      (es : List (LiveQuery.Event String Nat)),
      run (LiveQuery.step List.sum) (LiveQuery.start watched data) es = some t →
      t.UpToDate List.sum := by
  intro h
  have hlast := h ["todos"] (fun _ => 3) _
    [.listen, .select, .callback, .spawn, .commit [⟨"todos", .truncate, 0⟩]] rfl rfl rfl rfl rfl
  exact absurd hlast (by decide)

end Pglite.Live
