import Pglite.TransactionProof

/-!
# What the result of `commit` says

`commit` returns what `processResponse` makes of the answer to `COMMIT`, and that is `Ok` for
every answer without an `ErrorResponse`: also for the `ROLLBACK` tag of a failed block and for
the warning outside a block. So the result is true exactly when the block is still open and has
not failed, which is the case exactly when the server accepted every batch of every call.
-/

namespace Pglite

open Runs

variable {α : Type*} {ls : Listeners} {d : Catalog α}

/-! ## Open blocks -/

/-- A batch that holds a statement for the session to run: not a `Bind` of nothing. -/
def Session.executable (s : Session Nat α) : Batch α → Bool
  | .query _ => true
  | .parse _ => true
  | .bind => s.unnamed.isSome
  | _ => false

theorem Session.executable.isStatement {s : Session Nat α} {b : Batch α}
    (h : s.executable b = true) : b.isStatement = true := by
  cases b <;> first | rfl | cases h

theorem Server.runStmt_active {s : Server Nat α} {p : Nat} (hs : s.session.block = .active p) (a : α)
    (v : Verdict) (before : List Message) :
    let r := (s.runStmt a v before).1
    (r.session.block = .active p ∧ (∃ rows, v = .accept rows) ∧
        r.session.pending = s.session.pending ++ [a]) ∨
      (r.session.block = .failed p ∧ ∃ fields, v = .reject fields) := by
  cases v with
  | accept rows => left; simp [runStmt, ready, hs]
  | reject fields => right; simp [runStmt, raise, ready, Block.fail, hs]

/-- In an open block a statement is added to what `COMMIT` will keep, or fails the block. -/
theorem Server.exec_active {s : Server Nat α} {p : Nat} (hs : s.session.block = .active p) (o : Nat)
    {b : Batch α} (hb : s.session.executable b = true) (v : Verdict) :
    let r := (s.exec d o b v).1
    (r.session.block = .active p ∧ (∃ rows, v = .accept rows) ∧
        r.session.pending = s.session.pending ++ (s.session.runs b).toList) ∨
      (r.session.block = .failed p ∧ ∃ fields, v = .reject fields) := by
  cases b with
  | begin | commit | rollback => exact (Bool.false_ne_true hb).elim
  | query a =>
    have h := runStmt_active (s := s.dropUnnamed (.query a)) (by simpa using hs) a v []
    simpa [exec, Session.runs, hs] using h
  | parse a =>
    cases v with
    | accept rows => left; simp [exec, ready, Session.runs, hs]
    | reject fields => right; simp [exec, raise, ready, Block.fail, hs]
  | bind =>
    obtain ⟨a, ha⟩ := Option.isSome_iff_exists.1 hb
    have h := runStmt_active hs a v [.bindComplete]
    simpa [exec, Session.runs, hs, ha] using h

/-- The session of `BEGIN` stays in an open block exactly if the server accepts the batch. -/
theorem Server.exec_active_iff {s : Server Nat α} {p : Nat} (hs : s.session.block.opener? = some p)
    (o : Nat) {b : Batch α} (hb : s.session.executable b = true) (v : Verdict) :
    (s.exec d o b v).1.session.block = .active p ↔
      s.session.block = .active p ∧ ∃ rows, v = .accept rows := by
  cases hblock : s.session.block with
  | idle => simp [hblock] at hs
  | active q =>
    obtain rfl : q = p := by simpa [hblock] using hs
    rcases exec_active (d := d) hblock o hb v with ⟨hactive, hv, -⟩ | ⟨hfailed, fields, rfl⟩
    · simp [hactive, hv]
    · simp [hfailed]
  | failed q => simp [exec_failed hblock o (Session.executable.isStatement hb), raise, ready, Block.fail, hblock]

/-- The block `BEGIN` opened is still open and has not failed. -/
def Link.Open (l : Link α) : Prop :=
  l.server.session.block = .active 0

theorem Link.Lost.not_open {l : Link α} (h : l.Lost) : ¬ l.Open := by
  rw [Link.Open, h.idle]
  simp

theorem Link.Open.held {l : Link α} (hopen : l.Open) (h : l.Held ∨ l.Lost) : l.Held := by
  rcases h with h | h
  · exact h
  · exact absurd hopen h.not_open

/-- A round trip leaves the block open exactly if it was open and the server answered and
accepted the batch. -/
theorem route_open_iff (via : Via) {l : Link α} (h : l.Held ∨ l.Lost) {b : Batch α}
    (hb : l.server.session.executable b = true) (o : Outcome) :
    (route d via l b o).1.Open ↔ l.Open ∧ ∃ rows, o = .answered (.accept rows) := by
  rcases h with h | h
  · rcases route_held (d := d) via h (Session.executable.isStatement hb) o with ⟨v, rfl, hr⟩ | ⟨⟨e, he⟩, hl⟩
    · rw [hr]
      have hiff := Server.exec_active_iff (d := d) h.opener l.epoch hb v
      simpa [Link.Open] using hiff
    · refine iff_of_false hl.not_open ?_
      rintro ⟨-, rows, rfl⟩
      cases via <;> simp [route, Engine.roundtrip, Conn.roundtrip, h.alive] at he
  · exact iff_of_false (route_lost _ h (Session.executable.isStatement hb) o).not_open fun hopen => h.not_open hopen.1

/-- A batch accepted in the open block adds its statement to what `COMMIT` will keep. -/
theorem route_accept (via : Via) {l : Link α} (h : l.Held) (hopen : l.Open) {b : Batch α}
    (hb : l.server.session.executable b = true) (rows : List (List (Option String))) :
    route d via l b (.answered (.accept rows)) =
        ({ l with server := (l.server.exec d l.epoch b (.accept rows)).1 },
          .ok (l.server.exec d l.epoch b (.accept rows)).2) ∧
      (l.server.exec d l.epoch b (.accept rows)).1.session.pending =
        l.server.session.pending ++ (l.server.session.runs b).toList := by
  constructor
  · cases via <;> simp [route, Engine.roundtrip, Conn.roundtrip, h.alive]
  · rcases Server.exec_active (d := d) hopen l.epoch hb (.accept rows) with
      ⟨-, -, hpending⟩ | ⟨-, fields, hf⟩
    · exact hpending
    · cases hf

/-! ## Calls -/

/-- The server accepts each batch of the call. A call of `query` whose parameters do not fit has
one batch only. -/
def Call.accepted (d : Catalog α) : Call α → Prop
  | .exec _ o => ∃ rows, o = .answered (.accept rows)
  | .query a params o₁ o₂ =>
    (∃ rows, o₁ = .answered (.accept rows)) ∧
      (d.fits a params → ∃ rows, o₂ = .answered (.accept rows))

/-- While the block is open, `COMMIT` will keep every statement whose call returned `Ok`. -/
structure Transaction.Tracked (tx : Transaction α) : Prop where
  heldOrLost : tx.HeldOrLost
  pending : tx.link.Open → ∀ a ∈ tx.returned, a ∈ tx.link.server.session.pending

theorem Transaction.HeldOrLost.open_exec {tx : Transaction α} (h : tx.HeldOrLost) (a : α)
    (o : Outcome) :
    (tx.exec ls d a o).1.link.Open ↔ tx.link.Open ∧ ∃ rows, o = .answered (.accept rows) := by
  rw [exec_link]
  exact route_open_iff _ h (b := .query a) rfl o

theorem Transaction.HeldOrLost.open_query {tx : Transaction α} (h : tx.HeldOrLost) (a : α)
    (params : List Param) (o₁ o₂ : Outcome) :
    (tx.query ls d a params o₁ o₂).1.link.Open ↔
      tx.link.Open ∧ (Call.query a params o₁ o₂).accepted d := by
  have first := route_open_iff (d := d) tx.via h (b := .parse a) rfl o₁
  rw [query_link]
  rcases queryVia_cases (d := d) ls tx.via tx.link a params o₁ o₂ with
    ⟨-, hl, hstop⟩ | ⟨response, columns, hok, hq, hl⟩
  · -- The parameters do not fit, or the first batch was not accepted.
    rw [hl, first]
    refine and_congr_right fun hopen => (and_iff_left_of_imp ?_).symm
    rintro ⟨rows, rfl⟩ hfits
    have hactive : ∀ p, tx.link.server.session.block ≠ .failed p := by
      intro p hp
      rw [Link.Open, hp] at hopen
      cases hopen
    have hheld := hopen.held h
    obtain ⟨e, he⟩ := hstop _ (by rw [(route_accept _ hheld hopen (b := .parse a) rfl rows).1])
    rw [(queryDescribed_parse hactive _ a _ params _).2 ⟨⟨rows, rfl⟩, hfits, rfl⟩] at he
    cases he
  · obtain ⟨-, ⟨rows, rfl⟩, hfits, -, -, hr⟩ := route_parse_described hok hq
    have hl' : (route d tx.via tx.link (.parse a) (.answered (.accept rows))).1.Held ∨ _ :=
      route_heldOrLost _ h (b := .parse a) rfl _
    have hbind :
        (route d tx.via tx.link (.parse a) (.answered (.accept rows))).1.server.session.executable
          (.bind : Batch α) = true := by
      rw [hr]
      rfl
    rw [hl, route_open_iff _ hl' hbind, first]
    simp [Call.accepted, hfits]

/-- **Step lemma.** A call leaves the block open exactly if it was open and the server accepts
each batch of the call. -/
theorem Transaction.HeldOrLost.open_call {tx : Transaction α} (h : tx.HeldOrLost) (c : Call α) :
    (tx.call ls d c).link.Open ↔ tx.link.Open ∧ c.accepted d := by
  cases c with
  | exec a o => exact h.open_exec a o
  | query a params o₁ o₂ => exact h.open_query a params o₁ o₂

theorem Transaction.exec_returned (tx : Transaction α) (a : α) (o : Outcome) :
    ∀ x ∈ (tx.exec ls d a o).1.returned, x ∈ tx.returned ∨ x = a := by
  unfold exec
  split
  · simp
  · exact fun x hx => Or.inl hx

theorem Transaction.query_returned (tx : Transaction α) (a : α) (params : List Param)
    (o₁ o₂ : Outcome) :
    ∀ x ∈ (tx.query ls d a params o₁ o₂).1.returned, x ∈ tx.returned ∨
      x = a ∧ ∃ rows, (queryVia ls d tx.via tx.link a params o₁ o₂).2 = .ok rows := by
  unfold query
  split
  case h_1 l rows hq => simp [hq]
  case h_2 => exact fun x hx => Or.inl hx

/-- **Step lemma.** A call keeps what `Ok` promises. -/
theorem Transaction.Tracked.call {tx : Transaction α} (h : tx.Tracked) (c : Call α) :
    (tx.call ls d c).Tracked := by
  refine ⟨h.heldOrLost.call c, ?_⟩
  intro hopen x hx
  obtain ⟨hopen', haccepted⟩ := (h.heldOrLost.open_call c).1 hopen
  have hheld := hopen'.held h.heldOrLost
  have hruns (a : α) : tx.link.server.session.runs (.query a) = some a := by
    have : tx.link.server.session.block = .active 0 := hopen'
    simp [Session.runs, this]
  cases c with
  | exec a o =>
    obtain ⟨rows, rfl⟩ := haccepted
    obtain ⟨hr, hpending⟩ := route_accept (d := d) tx.via hheld hopen' (b := .query a)
      rfl rows
    show x ∈ (tx.exec ls d a _).1.link.server.session.pending
    rw [exec_link, hr, hpending, hruns]
    rcases exec_returned tx a _ x hx with hx | rfl
    · exact List.mem_append_left _ (h.pending hopen' x hx)
    · simp
  | query a params o₁ o₂ =>
    obtain ⟨⟨rows, rfl⟩, hsecond⟩ := haccepted
    obtain ⟨hr, hpending⟩ := route_accept (d := d) tx.via hheld hopen' (b := .parse a)
      rfl rows
    show x ∈ (tx.query ls d a params _ o₂).1.link.server.session.pending
    rw [query_link]
    rcases queryVia_cases (d := d) ls tx.via tx.link a params (.answered (.accept rows)) o₂
      with ⟨⟨e, he⟩, hl, -⟩ | ⟨response, columns, hok, hq, hl⟩
    · rw [hl, hr, hpending]
      rcases query_returned tx a params _ o₂ x hx with hx | ⟨-, rows', hrows⟩
      · exact List.mem_append_left _ (h.pending hopen' x hx)
      · rw [he] at hrows
        cases hrows
    · obtain ⟨-, -, hfits, -, -, hlink⟩ := route_parse_described hok hq
      obtain ⟨rows', rfl⟩ := hsecond hfits
      have hheld' : (route d tx.via tx.link (.parse a) (.answered (.accept rows))).1.Held := by
        rw [hr]
        exact hheld.exec (b := .parse a) rfl _
      rw [hl]
      rw [hlink] at hheld' ⊢
      obtain ⟨hr', hpending'⟩ := route_accept (d := d) tx.via hheld' hopen' (b := .bind)
        rfl rows'
      rw [hr', hpending']
      have hruns' : Session.runs { tx.link.server.session with unnamed := some a } .bind =
          some a := by
        have : tx.link.server.session.block = .active 0 := hopen'
        simp [Session.runs, this]
      rw [hruns']
      rcases query_returned tx a params _ _ x hx with hx | ⟨rfl, -⟩
      · exact List.mem_append_left _ (h.pending hopen' x hx)
      · simp

/-! ## The result of `commit` -/

/-- `commit` tells the truth: after `Ok` the block has been committed and every statement whose
call returned `Ok` is visible, and after a rollback the result is an error. -/
def Transaction.CommitTruthful (ls : Listeners) (d : Catalog α) (tx : Transaction α)
    (o : Outcome) : Prop :=
  let r := tx.commit ls d o
  (r.2 = .ok () → (0, true) ∈ r.1.link.server.ended ∧
    ∀ a ∈ tx.returned, a ∈ r.1.link.server.visible) ∧
  ((0, false) ∈ r.1.link.server.ended → r.2 ≠ .ok ())

namespace Transaction

theorem commitTruthful_of_error {tx : Transaction α} {o : Outcome} {e : Error}
    (h : (tx.commit ls d o).2 = .error e) : tx.CommitTruthful ls d o := by
  unfold CommitTruthful
  simp [h]

/-- The answer to `COMMIT` on a live worker. -/
theorem commit_answered (ls : Listeners) {tx : Transaction α} (ha : tx.link.alive = true) (v : Verdict) :
    (tx.commit ls d (.answered v)).1.link.server =
        (tx.link.server.exec d tx.link.epoch .commit v).1 ∧
      (tx.commit ls d (.answered v)).2 =
        (processResponse ls ((tx.link.server.exec d tx.link.epoch .commit v).2.map .ok)).2 := by
  have hr : route d tx.via tx.link .commit (.answered v) =
      ({ tx.link with server := (tx.link.server.exec d tx.link.epoch .commit v).1 },
        .ok (tx.link.server.exec d tx.link.epoch .commit v).2) := by
    cases tx.via <;> simp [route, Engine.roundtrip, Conn.roundtrip, ha]
  simp [commit, execVia, hr]

/-- Without an answer `commit` returns an error. -/
theorem commit_unanswered (ls : Listeners) {tx : Transaction α} {o : Outcome}
    (h : tx.link.alive = true → ∀ v, o ≠ .answered v) : ∃ e, (tx.commit ls d o).2 = .error e := by
  by_cases ha : tx.link.alive = true
  · cases o with
    | answered v => exact absurd rfl (h ha v)
    | lost ran e reconnects =>
      unfold commit execVia
      cases tx.via <;> simp [route, Engine.roundtrip, Conn.roundtrip, ha]
  · unfold commit execVia
    cases tx.via <;> simp [route, Engine.roundtrip, Conn.roundtrip, ha]

/-- In an open block an answered `COMMIT` keeps everything that returned `Ok`, or is refused. -/
theorem Tracked.commitTruthful_open {tx : Transaction α} (h : tx.Tracked) (hopen : tx.link.Open)
    (v : Verdict) : tx.CommitTruthful ls d (.answered v) := by
  have hheld := hopen.held h.heldOrLost
  obtain ⟨hserver, hresult⟩ := commit_answered (d := d) ls hheld.alive v
  have hblock : tx.link.server.session.block = .active 0 := hopen
  cases v with
  | reject fields =>
    apply commitTruthful_of_error (e := Error.fromErrorFields fields)
    rw [hresult]
    simp [Server.exec, hblock, Server.ready, processResponse]
  | accept rows =>
    have hexec : tx.link.server.exec d tx.link.epoch .commit (.accept rows) =
        ((tx.link.server.dropUnnamed .commit).endBlock 0 true).ready
          [.commandComplete "COMMIT"] := by
      simp [Server.exec, hblock]
    refine ⟨fun _ => ⟨?_, fun a ha => ?_⟩, fun hrolled => ?_⟩
    · rw [hserver, hexec]
      simp [Server.ready, Server.endBlock]
    · have hpending := h.pending hopen a ha
      rw [hserver, hexec]
      simp only [Server.ready, Server.endBlock, Server.visible, if_true, List.flatten_append,
        List.flatten_singleton, Server.dropUnnamed_pending]
      exact List.mem_append_right _ hpending
    · rw [hserver, hexec] at hrolled
      simp [Server.ready, Server.endBlock, hheld.ended] at hrolled

/-- Anywhere else an answered `COMMIT` returns `Ok` although the server rolled back. -/
theorem Tracked.not_commitTruthful {tx : Transaction α} (h : tx.Tracked)
    (hopen : ¬ tx.link.Open) (ha : tx.link.alive = true) (v : Verdict) :
    ¬ tx.CommitTruthful ls d (.answered v) := by
  obtain ⟨hserver, hresult⟩ := commit_answered (d := d) ls ha v
  rintro ⟨-, hrolled⟩
  rw [hserver, hresult] at hrolled
  rcases h.heldOrLost with hheld | hlost
  · cases hblock : tx.link.server.session.block with
    | idle => simpa [hblock] using hheld.opener
    | active p =>
      obtain rfl : p = 0 := by simpa [hblock] using hheld.opener
      exact hopen hblock
    | failed p =>
      obtain rfl : p = 0 := by simpa [hblock] using hheld.opener
      simp [Server.exec, hblock, Server.ready, Server.endBlock, processResponse] at hrolled
  · simp [Server.exec, hlost.idle, hlost.ended, Server.ready, processResponse] at hrolled

theorem Tracked.commitTruthful_iff {tx : Transaction α} (h : tx.Tracked) (o : Outcome) :
    tx.CommitTruthful ls d o ↔
      (tx.link.alive = true → (∃ v, o = .answered v) → tx.link.Open) := by
  by_cases hanswer : tx.link.alive = true ∧ ∃ v, o = .answered v
  · obtain ⟨ha, v, rfl⟩ := hanswer
    constructor
    · intro htrue _ _
      by_contra hopen
      exact h.not_commitTruthful hopen ha v htrue
    · intro hopen
      exact h.commitTruthful_open (hopen ha ⟨v, rfl⟩) v
  · have hnone : tx.link.alive = true → ∀ v, o ≠ .answered v :=
      fun ha v hv => hanswer ⟨ha, v, hv⟩
    obtain ⟨e, he⟩ := commit_unanswered (d := d) ls hnone
    refine iff_of_true (commitTruthful_of_error he) ?_
    rintro ha ⟨v, rfl⟩
    exact absurd rfl (hnone ha v)

end Transaction

/-- **Theorem.** After any calls on a transaction, `commit` tells the truth exactly if it gets no
answer or the server had accepted every batch of every call. -/
theorem commit_truthful_iff {tx t : Transaction α} (hb : tx.Begun ls d) (cs : List (Call α))
    (hrun : run (Transaction.callStep ls d) tx cs = some t) (o : Outcome) :
    t.CommitTruthful ls d o ↔
      (t.link.alive = true → (∃ v, o = .answered v) → ∀ c ∈ cs, c.accepted d) := by
  obtain ⟨hheld, hopen, -, -, hreturned⟩ := hb.spec
  have htracked : tx.Tracked := ⟨Or.inl hheld, by simp [hreturned]⟩
  have hI : ∀ (tx : Transaction α) c tx', tx.Tracked →
      Transaction.callStep ls d tx c = some tx' → tx'.Tracked := by
    rintro tx c _ h ⟨⟩
    exact h.call c
  have hP : ∀ (tx : Transaction α) c tx', tx.Tracked →
      Transaction.callStep ls d tx c = some tx' →
      (tx'.link.Open ↔ tx.link.Open ∧ c.accepted d) := by
    rintro tx c _ h ⟨⟩
    exact h.heldOrLost.open_call c
  have hend : t.link.Open ↔ ∀ c ∈ cs, c.accepted d := by
    rw [run_iff_guarded hI hP htracked hrun,
      guarded_iff_forall fun _ _ => rfl]
    exact and_iff_right hopen
  have ht : t.Tracked := run_invariant' hI htracked hrun
  rw [ht.commitTruthful_iff, hend]

theorem commit_truthful_iff_insert :
    ((Transaction.pinned String).call Listeners.none Catalog.plain
      (.exec "insert into t values (1)" (.answered (.accept [])))).CommitTruthful
        Listeners.none Catalog.plain (.answered (.accept [])) :=
  (commit_truthful_iff (Transaction.pinned_begun _ _)
    [.exec "insert into t values (1)" (.answered (.accept []))] rfl _).2
    fun _ _ c hc => by
      obtain rfl := List.mem_singleton.1 hc
      exact ⟨[], rfl⟩

/-- The second statement fails, the error is ignored, and `commit` returns `Ok`. -/
theorem commit_reports_rollback :
    ¬ ∀ (tx t : Transaction String) (cs : List (Call String)) (o : Outcome),
      tx.Begun Listeners.none Catalog.plain →
      run (Transaction.callStep Listeners.none Catalog.plain) tx cs = some t →
      t.CommitTruthful Listeners.none Catalog.plain o := by
  intro h
  have htrue := h (Transaction.pinned String) _
    [.exec "insert into t values (1)" (.answered (.accept [])),
      .exec "insert into missing values (2)" (.answered (.reject [('C', "42P01")]))]
    (.answered (.accept [])) (Transaction.pinned_begun _ _) rfl
  exact htrue.2 (by decide) (by decide)

end Pglite
