import Pglite.Replica.Ledger
import Pglite.Runs

/-!
# The invariants of the ledger

`Core` is kept by every move, `Exact` by every move of a ledger that is not lossy.
-/

namespace Pglite.Replica

open OrderedLog

variable {H : History} {lossy : Bool} {cp d : Lsn} {l l' : Ledger}

/-! ## The core -/

/-- `apply` has been given the transaction, and it is the only one with row changes that the
session has passed and the watermark in memory has not. -/
structure InHand (H : History) (m : Lsn) (f : Feed) (t : UpstreamTxn) (p : Pending) : Prop where
  mem : t ∈ H.txns
  pending : PendingOf t p
  stmts : p.buf.stmts ≠ []
  sending : f.sending = none
  above : m < t.endLsn
  reached : t.endLsn ≤ f.cursor
  between : ∀ u ∈ H.txns, u.hasRows = true → u.endLsn ≤ f.cursor → u.endLsn ≤ m ∨ u = t

/-- What the stage says of the feed and the two watermarks. -/
def StageOk (H : History) (d m : Lsn) (f : Feed) : Stage → Prop
  | .open txn => NoRowsBetween H m f.cursor ∧ Buffered H f txn
  | .applying p committed => (∃ t, InHand H m f t p) ∧ (committed = true → d = p.endLsn)
  | _ => True

/-- What holds whatever the local database answers, with the stored watermark at `d`. -/
structure Core (H : History) (cp d : Lsn) (l : Ledger) : Prop where
  durable : l.durable = some d
  slot : l.slot = some cp
  settled : ∀ t ∈ H.txns, t.hasRows = true → t.endLsn ≤ d → Settled cp l.log t
  memory_le : l.stage ≠ .down → l.memory ≤ d
  acked : l.stage ≠ .down → NoRowsBetween H l.memory l.acked
  stage : StageOk H d l.memory l.feed l.stage
  sent : ∀ st ∈ l.sent, ∀ t ∈ H.txns, t.hasRows = true → t.endLsn ≤ st.reported →
    Settled cp st.log t

/-- Up to both counters the local database has every transaction with row changes. -/
theorem Core.settled_counters (h : Core H cp d l) (hstage : l.stage ≠ .down) {t : UpstreamTxn}
    (ht : t ∈ H.txns) (hrows : t.hasRows = true) (hle : t.endLsn ≤ max l.memory l.acked) :
    Settled cp l.log t := by
  have hnone : NoRowsBetween H l.memory (max l.memory l.acked) :=
    (NoRowsBetween.refl H _).max (h.acked hstage)
  exact h.settled t ht hrows ((hnone t ht hrows hle).trans (h.memory_le hstage))

section

variable {m : Lsn} {f : Feed} {t : UpstreamTxn} {p : Pending}

theorem InHand.hasRows (h : InHand H m f t p) : t.hasRows = true :=
  h.pending.buffer.hasRows_iff.2 h.stmts

/-- Everything with row changes up to the transaction in hand is below the watermark in memory,
or is that transaction. -/
theorem InHand.below (h : InHand H m f t p) {u : UpstreamTxn} (hu : u ∈ H.txns)
    (hrows : u.hasRows = true) (hle : u.endLsn ≤ t.endLsn) : u.endLsn ≤ m ∨ u = t :=
  h.between u hu hrows (hle.trans h.reached)

theorem InHand.noRows (h : InHand H m f t p) {b : Lsn}
    (hb : ∀ u ∈ H.txns, u.hasRows = true → u.endLsn ≤ b → u.endLsn ≤ m ∨ u = t) :
    NoRowsBetween H p.endLsn b := by
  intro u hu hrows hle
  rw [h.pending.endLsn]
  rcases hb u hu hrows hle with hmem | rfl
  · exact hmem.trans h.above.le
  · exact le_rfl

/-- The commit of a transaction that the watermark has not reached gives it to `apply`. -/
theorem inHand_pass {buf : TxnBuf} (hmay : f.MayBegin H t) (hbuf : BufferOf t [] buf)
    (hcursor : NoRowsBetween H m f.cursor) (hlt : m < t.endLsn) (hstmts : buf.stmts ≠ []) :
    InHand H m (f.pass t) t ⟨buf, t.commitLsn, t.endLsn, t.commitTs⟩ where
  mem := hmay.1
  pending := ⟨rfl, rfl, rfl, hbuf⟩
  stmts := hstmts
  sending := rfl
  above := hlt
  reached := le_max_right _ _
  between := fun _ hu hrows hle => hmay.between hcursor hu hrows hle

/-- Passing the commit of a transaction without row changes, or of one the watermark covers. -/
theorem noRows_pass (hmay : f.MayBegin H t) (hcursor : NoRowsBetween H m f.cursor)
    (ht : t.hasRows = true → t.endLsn ≤ m) : NoRowsBetween H m (f.pass t).cursor := by
  intro u hu hrows hle
  rcases hmay.between hcursor hu hrows hle with hmem | rfl
  · exact hmem
  · exact ht hrows

end

/-- What the upstream is sending when a buffer is open. -/
theorem Core.opened {buf : TxnBuf} (h : Core H cp d l) (hstage : l.stage = .open (some buf))
    {t : UpstreamTxn} {rest : List PgOutputMsg} (hsending : l.feed.sending = some (t, rest)) :
    NoRowsBetween H l.memory l.feed.cursor ∧ l.feed.MayBegin H t ∧ BufferOf t rest buf := by
  have hok := h.stage
  rw [hstage] at hok
  obtain ⟨hcursor, t', rest', hsending', hmay, hbuf⟩ := hok
  obtain ⟨rfl, rfl⟩ : t = t' ∧ rest = rest' := by
    simpa [hsending] using hsending'
  exact ⟨hcursor, hmay, hbuf⟩

/-- The transaction that `apply` has been given. -/
theorem Core.inHand {p : Pending} {committed : Bool} (h : Core H cp d l)
    (hstage : l.stage = .applying p committed) :
    (∃ t, InHand H l.memory l.feed t p) ∧ (committed = true → d = p.endLsn) := by
  have hok := h.stage
  rw [hstage] at hok
  exact hok

/-- The session has passed nothing with row changes but what the watermark covers. -/
theorem Core.cursor {txn : Option TxnBuf} (h : Core H cp d l) (hstage : l.stage = .open txn) :
    NoRowsBetween H l.memory l.feed.cursor := by
  have hok := h.stage
  rw [hstage] at hok
  exact hok.1

/-- A move within or between sessions that leaves log, watermarks and counters as they are. -/
theorem Core.stay (h : Core H cp d l) (hlive : l.stage ≠ .down) {f : Feed} {st : Stage}
    (hstage : StageOk H d l.memory f st) : Core H cp d { l with feed := f, stage := st } :=
  { h with
    memory_le := fun _ => h.memory_le hlive
    acked := fun _ => h.acked hlive
    stage := hstage }

/-- **Every move keeps the core.** -/
theorem Core.move (h : Core H cp d l) (hmove : Move H lossy l l') : ∃ d', Core H cp d' l' := by
  cases hmove with
  | init cp' _ hdurable => exact absurd (h.durable.symm.trans hdurable) (by simp)
  | boot d' _ hdurable =>
    obtain rfl : d = d' := by simpa [hdurable] using h.durable.symm
    exact ⟨d, { h with
      memory_le := fun _ => le_rfl
      acked := fun _ => .refl H d
      stage := trivial }⟩
  | report hstage =>
    refine ⟨d, { h with sent := fun st hst t ht hrows hle => ?_ }⟩
    rcases List.mem_append.1 hst with hst | hst
    · exact h.sent st hst t ht hrows hle
    · obtain rfl := List.mem_singleton.1 hst
      exact h.settled_counters hstage ht hrows hle
  | openStream hstage =>
    have hlive : l.stage ≠ .down := by simp [hstage]
    exact ⟨d, h.stay hlive ⟨.refl H _, rfl⟩⟩
  | keepalive walEnd hstage hallows =>
    have hlive : l.stage ≠ .down := by simp [hstage]
    have hok := h.stage
    rw [hstage] at hok
    obtain ⟨hcursor, hsending⟩ := hok
    have hwal : NoRowsBetween H l.memory walEnd := by
      intro t ht hrows hle
      refine hcursor t ht hrows ?_
      by_contra hlt
      refine absurd (hallows t ht (lt_of_not_ge hlt) ?_) (not_lt_of_ge hle)
      rw [show l.feed.sending = none from hsending]
      exact nofun
    refine ⟨d, { h with acked := fun _ => (h.acked hlive).max hwal, stage := ?_ }⟩
    rw [hstage]
    exact ⟨hcursor, hsending⟩
  | begin txn t hstage hmay =>
    have hlive : l.stage ≠ .down := by simp [hstage]
    exact ⟨d, h.stay hlive ⟨h.cursor hstage, t, t.rows, rfl, hmay, .start t⟩⟩
  | row buf t m rest known stmt changes hstage hsending hrenders =>
    have hlive : l.stage ≠ .down := by simp [hstage]
    obtain ⟨hcursor, hmay, hbuf⟩ := h.opened hstage hsending
    exact ⟨d, h.stay hlive ⟨hcursor, t, rest, rfl, hmay, hbuf.push hrenders⟩⟩
  | skip buf t hstage hsending hle =>
    have hlive : l.stage ≠ .down := by simp [hstage]
    obtain ⟨hcursor, hmay, -⟩ := h.opened hstage hsending
    exact ⟨d, h.stay hlive ⟨noRows_pass hmay hcursor fun _ => hle, rfl⟩⟩
  | empty buf t hstage hsending hlt hstmts =>
    have hlive : l.stage ≠ .down := by simp [hstage]
    obtain ⟨hcursor, hmay, hbuf⟩ := h.opened hstage hsending
    have hpass := noRows_pass hmay hcursor fun hrows =>
      absurd hstmts (hbuf.hasRows_iff.1 hrows)
    have hend : NoRowsBetween H l.memory t.endLsn :=
      fun u hu hrows hle => hpass u hu hrows (hle.trans (le_max_right _ _))
    exact ⟨d, { h with
      memory_le := fun _ => h.memory_le hlive
      acked := fun _ => (h.acked hlive).max hend
      stage := ⟨hpass, rfl⟩ }⟩
  | apply buf t hstage hsending hlt hstmts =>
    have hlive : l.stage ≠ .down := by simp [hstage]
    obtain ⟨hcursor, hmay, hbuf⟩ := h.opened hstage hsending
    exact ⟨d, h.stay hlive ⟨⟨t, inHand_pass hmay hbuf hcursor hlt hstmts⟩, nofun⟩⟩
  | commit p hstage =>
    have hlive : l.stage ≠ .down := by simp [hstage]
    obtain ⟨⟨t, ht⟩, -⟩ := h.inHand hstage
    refine ⟨p.endLsn, { h with
      durable := rfl
      settled := ?_
      memory_le := fun _ => ?_
      acked := fun _ => h.acked hlive
      stage := ⟨⟨t, ht⟩, fun _ => rfl⟩ }⟩
    · intro u hu hrows hle
      rw [ht.pending.endLsn] at hle
      rcases ht.below hu hrows hle with hmem | rfl
      · exact (h.settled u hu hrows (hmem.trans (h.memory_le hlive))).append _
      · exact .inr ⟨_, List.mem_append_right _ List.mem_cons_self, ht.pending.committedAs⟩
    · rw [ht.pending.endLsn]
      exact ht.above.le
  | finish p inbox hstage _ =>
    have hlive : l.stage ≠ .down := by simp [hstage]
    obtain ⟨⟨t, ht⟩, hd⟩ := h.inHand hstage
    have hacked : NoRowsBetween H p.endLsn l.acked :=
      ht.noRows fun u hu hrows hle => .inl (h.acked hlive u hu hrows hle)
    exact ⟨d, { h with
      memory_le := fun _ => (hd rfl).ge
      acked := fun _ => hacked.max (.refl H _)
      stage := ⟨ht.noRows ht.between, ht.sending⟩ }⟩
  | retry f hstage =>
    have hlive : l.stage ≠ .down := by
      intro hdown
      rw [hdown] at hstage
      exact hstage
    exact ⟨d, { h with
      memory_le := fun _ => h.memory_le hlive
      acked := fun _ => .refl H _
      stage := trivial }⟩
  | halt f hlive => exact ⟨d, h.stay hlive trivial⟩
  | crash => exact ⟨d, { h with memory_le := nofun, acked := nofun, stage := trivial }⟩

/-! ## Without loss -/

/-- The stages in which the watermark in memory is the stored one. -/
def Stage.Synced : Stage → Prop
  | .idle => True
  | .open _ => True
  | .applying _ committed => committed = false
  | _ => False

/-- The position up to which transactions have been announced. -/
def Stage.shown (m d : Lsn) : Stage → Lsn
  | .applying _ _ => m
  | _ => d

/-- Every channel has received some of the transactions owed up to `b`, in order and each at most
once. -/
def Announced (H : History) (cp b : Lsn) (inbox : Nat → List CommittedTransaction) : Prop :=
  ∀ k, ∃ ts, ts.Sublist (upTo UpstreamTxn.endLsn b (H.owed cp)) ∧
    List.Forall₂ Announces ts (inbox k)

theorem Announced.mono {b b' : Lsn} {inbox : Nat → List CommittedTransaction}
    (h : Announced H cp b inbox) (hb : b ≤ b') : Announced H cp b' inbox := by
  intro k
  obtain ⟨ts, hsub, hts⟩ := h k
  exact ⟨ts, hsub.trans (upTo_sublist_of_le hb), hts⟩

/-- What holds in addition when an error never hides a commit: the log is the transactions owed
up to the stored watermark, which is the end of the last of them. -/
structure Exact (H : History) (cp d : Lsn) (l : Ledger) : Prop where
  log : List.Forall₂ CommittedAs (upTo UpstreamTxn.endLsn d (H.owed cp)) l.log
  frontier : d = lastKey UpstreamTxn.endLsn cp (upTo UpstreamTxn.endLsn d (H.owed cp))
  cp_le : cp ≤ d
  cp_le_memory : l.stage ≠ .down → cp ≤ l.memory
  synced : l.stage.Synced → l.memory = d
  inbox : Announced H cp (l.stage.shown l.memory d) l.inbox

/-- The transaction in hand is the next one owed. -/
theorem InHand.upTo_extend {m : Lsn} {f : Feed} {t : UpstreamTxn} {p : Pending}
    (h : InHand H m f t p) (hcp : cp ≤ m) :
    upTo UpstreamTxn.endLsn t.endLsn (H.owed cp) =
      upTo UpstreamTxn.endLsn m (H.owed cp) ++ [t] := by
  have howed : t ∈ H.owed cp := History.mem_owed.2 ⟨h.mem, h.hasRows, hcp.trans_lt h.above⟩
  refine OrderedLog.upTo_extend (H.owed_ordered cp) howed h.above fun u hu hlt => ?_
  obtain ⟨hmem, hrows, -⟩ := History.mem_owed.1 hu
  by_contra hle
  rcases h.below hmem hrows (le_of_not_ge hle) with hum | rfl
  · exact absurd hum (not_le_of_gt hlt)
  · exact hle le_rfl

theorem Announced.snoc {m : Lsn} {f : Feed} {t : UpstreamTxn} {p : Pending}
    {inbox inbox' : Nat → List CommittedTransaction} (h : Announced H cp m inbox)
    (ht : InHand H m f t p) (hcp : cp ≤ m)
    (hinbox : ∀ k, inbox' k = inbox k ∨ inbox' k = inbox k ++ [p.announcement]) :
    Announced H cp t.endLsn inbox' := by
  intro k
  obtain ⟨ts, hsub, hts⟩ := h k
  rw [ht.upTo_extend hcp]
  rcases hinbox k with hk | hk <;> rw [hk]
  · exact ⟨ts, hsub.trans (List.sublist_append_left _ _), hts⟩
  · refine ⟨ts ++ [t], hsub.append (List.Sublist.refl _), ?_⟩
    exact List.rel_append hts (.cons ht.pending.announces .nil)

/-- Up to the stored watermark everything announced is fine, whatever the stage. -/
theorem Exact.announced (h : Exact H cp d l) (hcore : Core H cp d l) :
    Announced H cp d l.inbox := by
  have hinbox := h.inbox
  cases hstage : l.stage <;> rw [hstage] at hinbox
  case applying => exact hinbox.mono (hcore.memory_le (by simp [hstage]))
  all_goals exact hinbox

theorem Stage.MayRetry.synced {st : Stage} (h : st.MayRetry false) : st.Synced := by
  cases st with
  | down => exact h
  | idle => trivial
  | «open» txn => trivial
  | applying p committed =>
    cases committed
    · rfl
    · exact absurd (h rfl) Bool.false_ne_true
  | ended => exact h

/-- A move within or between sessions that leaves log, watermarks and channels as they are. -/
theorem Exact.stay (h : Exact H cp d l) (hcore : Core H cp d l) (hsynced : l.stage.Synced)
    {acked : Lsn} {f : Feed} {st : Stage} (hshown : st.shown l.memory d = d) :
    Exact H cp d { l with acked := acked, feed := f, stage := st } where
  log := h.log
  frontier := h.frontier
  cp_le := h.cp_le
  cp_le_memory _ := (h.synced hsynced).symm ▸ h.cp_le
  synced _ := h.synced hsynced
  inbox := by
    show Announced H cp (st.shown l.memory d) l.inbox
    rw [hshown]
    exact h.announced hcore

/-- **Every move of a ledger that is not lossy keeps it exact.** -/
theorem Exact.move (h : Exact H cp d l) (hcore : Core H cp d l) (hmove : Move H false l l')
    {d' : Lsn} (hd' : l'.durable = some d') : Exact H cp d' l' := by
  have hsame : l'.durable = l.durable → d = d' := by
    intro heq
    rw [heq, hcore.durable] at hd'
    exact Option.some.inj hd'
  cases hmove with
  | init cp' _ hdurable => exact absurd (hcore.durable.symm.trans hdurable) (by simp)
  | boot b _ hdurable =>
    obtain rfl := hsame rfl
    obtain rfl : d = b := by simpa [hdurable] using hcore.durable.symm
    exact { h with
      cp_le_memory := fun _ => h.cp_le
      synced := fun _ => rfl
      inbox := h.announced hcore }
  | report =>
    obtain rfl := hsame rfl
    exact { h with }
  | openStream hstage =>
    obtain rfl := hsame rfl
    exact h.stay hcore (by rw [hstage]; trivial) rfl
  | keepalive walEnd hstage =>
    obtain rfl := hsame rfl
    exact { h with }
  | begin txn t hstage =>
    obtain rfl := hsame rfl
    exact h.stay hcore (by rw [hstage]; trivial) rfl
  | row buf t m rest known stmt changes hstage =>
    obtain rfl := hsame rfl
    exact h.stay hcore (by rw [hstage]; trivial) rfl
  | skip buf t hstage =>
    obtain rfl := hsame rfl
    exact h.stay hcore (by rw [hstage]; trivial) rfl
  | empty buf t hstage =>
    obtain rfl := hsame rfl
    exact h.stay hcore (by rw [hstage]; trivial) rfl
  | apply buf t hstage =>
    obtain rfl := hsame rfl
    have hsynced : l.stage.Synced := by rw [hstage]; trivial
    exact h.stay hcore hsynced (h.synced hsynced)
  | commit p hstage =>
    obtain rfl : p.endLsn = d' := Option.some.inj hd'
    obtain ⟨⟨t, ht⟩, -⟩ := hcore.inHand hstage
    have hlive : l.stage ≠ .down := by simp [hstage]
    have hmem : l.memory = d := h.synced (by rw [hstage]; rfl)
    have hlt : d < p.endLsn := by
      rw [ht.pending.endLsn, ← hmem]
      exact ht.above
    have hextend : upTo UpstreamTxn.endLsn p.endLsn (H.owed cp) =
        upTo UpstreamTxn.endLsn d (H.owed cp) ++ [t] := by
      rw [ht.pending.endLsn, ← hmem]
      exact ht.upTo_extend (h.cp_le_memory hlive)
    refine ⟨?_, ?_, h.cp_le.trans hlt.le, fun _ => h.cp_le_memory hlive, nofun, ?_⟩
    · rw [hextend]
      exact List.rel_append h.log (.cons ht.pending.committedAs .nil)
    · rw [hextend, lastKey_append_single]
      exact ht.pending.endLsn
    · show Announced H cp l.memory l.inbox
      rw [hmem]
      exact h.announced hcore
  | finish p inbox hstage hinbox =>
    obtain rfl := hsame rfl
    obtain ⟨⟨t, ht⟩, hd⟩ := hcore.inHand hstage
    have hlive : l.stage ≠ .down := by simp [hstage]
    have hbefore := h.inbox
    rw [hstage] at hbefore
    have hafter := hbefore.snoc ht (h.cp_le_memory hlive) hinbox
    rw [← ht.pending.endLsn, ← hd rfl] at hafter
    exact { h with
      cp_le_memory := fun _ => hd rfl ▸ h.cp_le
      synced := fun _ => (hd rfl).symm
      inbox := hafter }
  | retry f hstage =>
    obtain rfl := hsame rfl
    exact h.stay hcore hstage.synced rfl
  | halt f hlive =>
    obtain rfl := hsame rfl
    exact { h with
      cp_le_memory := fun _ => h.cp_le_memory hlive
      synced := nofun
      inbox := h.announced hcore }
  | crash =>
    obtain rfl := hsame rfl
    exact { h with cp_le_memory := nofun, synced := nofun, inbox := h.announced hcore }

/-! ## From the start -/

/-- Nothing has happened yet. -/
structure Blank (l : Ledger) : Prop where
  durable : l.durable = none
  log : l.log = []
  stage : l.stage = .down
  inbox : ∀ k, l.inbox k = []
  sent : l.sent = []

theorem upTo_owed_self (H : History) (cp : Lsn) :
    upTo UpstreamTxn.endLsn cp (H.owed cp) = [] :=
  upTo_eq_nil fun _ ht => (History.mem_owed.1 ht).2.2

/-- The only thing that changes a blank ledger is the first run. -/
theorem Blank.move (h : Blank l) (hmove : Move H lossy l l') :
    Blank l' ∨ ∃ cp, Core H cp cp l' ∧ Exact H cp cp l' := by
  have hstage := h.stage
  cases hmove with
  | init cp =>
    refine .inr ⟨cp, ⟨rfl, rfl, ?_, ?_, ?_, ?_, ?_⟩, ⟨?_, ?_, le_rfl, ?_, ?_, ?_⟩⟩
    · exact fun t _ _ hle => .inl hle
    · exact fun hlive => absurd hstage hlive
    · exact fun hlive => absurd hstage hlive
    · show StageOk H cp l.memory l.feed l.stage
      rw [hstage]
      trivial
    · show ∀ st ∈ l.sent, _
      rw [h.sent]
      exact nofun
    · show List.Forall₂ _ _ l.log
      rw [h.log, upTo_owed_self]
      exact .nil
    · rw [upTo_owed_self]
      rfl
    · exact fun hlive => absurd hstage hlive
    · show l.stage.Synced → _
      rw [hstage]
      exact nofun
    · intro k
      refine ⟨[], List.nil_sublist _, ?_⟩
      show List.Forall₂ _ _ (l.inbox k)
      rw [h.inbox k]
      exact .nil
  | boot d _ hdurable => exact absurd (h.durable.symm.trans hdurable) (by simp)
  | report hlive => exact absurd hstage hlive
  | openStream hidle => exact absurd (hstage.symm.trans hidle) nofun
  | keepalive walEnd hopen => exact absurd (hstage.symm.trans hopen) nofun
  | begin txn t hopen => exact absurd (hstage.symm.trans hopen) nofun
  | row buf t m rest known stmt changes hopen => exact absurd (hstage.symm.trans hopen) nofun
  | skip buf t hopen => exact absurd (hstage.symm.trans hopen) nofun
  | empty buf t hopen => exact absurd (hstage.symm.trans hopen) nofun
  | apply buf t hopen => exact absurd (hstage.symm.trans hopen) nofun
  | commit p happlying => exact absurd (hstage.symm.trans happlying) nofun
  | finish p inbox happlying => exact absurd (hstage.symm.trans happlying) nofun
  | retry f hretry =>
    rw [hstage] at hretry
    exact hretry.elim
  | halt f hlive => exact absurd hstage hlive
  | crash => exact .inl { h with stage := rfl }

/-- The core holds after any moves from a blank ledger. -/
theorem core_of_moves (hblank : Blank l) (h : Relation.ReflTransGen (Move H lossy) l l') :
    Blank l' ∨ ∃ cp d, Core H cp d l' := by
  refine Runs.moves_invariant (J := fun l => Blank l ∨ ∃ cp d, Core H cp d l) ?_ (.inl hblank) h
  rintro a b (ha | ⟨cp, d, ha⟩) hmove
  · rcases ha.move hmove with hb | ⟨cp, hb, -⟩
    · exact .inl hb
    · exact .inr ⟨cp, cp, hb⟩
  · obtain ⟨d', hb⟩ := ha.move hmove
    exact .inr ⟨cp, d', hb⟩

/-- The ledger is exact after any moves that lose nothing. -/
theorem exact_of_moves (hblank : Blank l) (h : Relation.ReflTransGen (Move H false) l l') :
    Blank l' ∨ ∃ cp d, Core H cp d l' ∧ Exact H cp d l' := by
  refine Runs.moves_invariant
    (J := fun l => Blank l ∨ ∃ cp d, Core H cp d l ∧ Exact H cp d l) ?_ (.inl hblank) h
  rintro a b (ha | ⟨cp, d, hcore, hexact⟩) hmove
  · rcases ha.move hmove with hb | ⟨cp, hb⟩
    · exact .inl hb
    · exact .inr ⟨cp, cp, hb⟩
  · obtain ⟨d', hcore'⟩ := hcore.move hmove
    exact .inr ⟨cp, d', hcore', hexact.move hcore hmove hcore'.durable⟩

end Pglite.Replica
