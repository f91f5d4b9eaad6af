import Pglite.Replica.ExactlyOnce
import Pglite.Replica.LocalConstraints

/-!
# The replica is a snapshot

The transactions of `apply`, as the texts that the local server executes, on the rows that the first
run copied. At every moment of every run the local tables have the rows that the upstream's tables
had at the stored watermark, and all local constraints hold.

The parts of the argument:

* `Chronicle`: the upstream's rows as of each position. Between two of them are the row changes of
  the transactions in between.
* `Texts`: the texts in the log are those of upstream transactions, rendered with the relations as
  the upstream has them, whatever was redelivered, abandoned or halted (`Texts.step`).
* `replay`: executing them leads along the chronicle.

`snapshot_at_watermark` is the result.
-/

namespace Pglite.Replica

open Runs OrderedLog Text Backfill

/-! ## The upstream -/

section Upstream

variable (eq : Equality) (tables : List UpTable) (known : UInt32 → Option Rel) (H : History)

/-- The rows of the upstream as of each position: a transaction leads from the rows at any position
behind which it is the next to those at its end. Each of its row changes is one that its statement
makes exactly, and the local tables would keep their constraints at each of them. -/
def Chronicle (V : Lsn → Contents) : Prop :=
  ∀ t ∈ H.txns, ∀ l, l < t.endLsn → (∀ u ∈ H.txns, l < u.endLsn → t.endLsn ≤ u.endLsn) →
    ∃ Us, UpRun eq tables known (V l) t.rows Us ∧ AllExact eq known (V l) t.rows Us ∧
      (∀ U ∈ Us, ∀ table ∈ tables, table.Midway (eq table.key) (U table.key)) ∧
      V t.endLsn = Us.getLastD (V l)

/-- The relations that the upstream tells are those of its tables. -/
def Honest (_ : World) : Event → Prop
  | .deliver (.other (.relation relId ns name _ columns)) _ => known relId = some ⟨ns, name, columns⟩
  | _ => True

instance Honest.decidable : ∀ σ e, Decidable (Honest known σ e)
  | _, .deliver (.other (.relation relId ns name _ columns)) _ =>
    inferInstanceAs (Decidable (known relId = some ⟨ns, name, columns⟩))
  | _, .deliver (.begin _) _ => .isTrue trivial
  | _, .deliver .next _ => .isTrue trivial
  | _, .deliver (.other (.begin _ _ _)) _ => .isTrue trivial
  | _, .deliver (.other (.commit _ _ _)) _ => .isTrue trivial
  | _, .deliver (.other (.insert _ _)) _ => .isTrue trivial
  | _, .deliver (.other (.update _ _ _ _)) _ => .isTrue trivial
  | _, .deliver (.other (.delete _ _ _)) _ => .isTrue trivial
  | _, .deliver (.other (.truncate _)) _ => .isTrue trivial
  | _, .deliver (.other (.message _ _)) _ => .isTrue trivial
  | _, .deliver (.other .other) _ => .isTrue trivial
  | _, .start _ _ => .isTrue trivial
  | _, .connect _ => .isTrue trivial
  | _, .openStream => .isTrue trivial
  | _, .readFails _ => .isTrue trivial
  | _, .fails _ => .isTrue trivial
  | _, .status => .isTrue trivial
  | _, .keepalive _ _ => .isTrue trivial
  | _, .localCommit => .isTrue trivial
  | _, .applyReturns _ => .isTrue trivial
  | _, .subscribe => .isTrue trivial
  | _, .dropReceiver _ => .isTrue trivial
  | _, .stop => .isTrue trivial
  | _, .quit => .isTrue trivial
  | _, .crash => .isTrue trivial

/-- The statements of these row changes, one for each. -/
def Written (rows : List PgOutputMsg) (stmts : List String) : Prop :=
  List.Forall₂ (fun m sql => ∃ changes, Renders known m sql changes) rows stmts

end Upstream

/-- One entry of the log is executed on the local tables. Its last statement is about
`_pglite_replica`. -/
def execEntry (eq : Equality) (keyOf : IndexDef → Option UniqueKey) (tables : List UpTable)
    (C : Contents) (entry : List String) : Option Contents :=
  match applyAll eq keyOf tables entry.dropLast C with
  | .done C' => some C'
  | _ => none

/-! ## Texts -/

section Texts

variable {known known' : UInt32 → Option Rel} {H : History} {σ τ : World} {s : Stream}

theorem Renders.mono (h : ∀ i rel, known i = some rel → known' i = some rel) {m : PgOutputMsg}
    {sql : String} {changes : List RowChange} (hm : Renders known m sql changes) :
    Renders known' m sql changes := by
  cases hm with
  | insert hrel hsql => exact .insert (h _ _ hrel) hsql
  | update hrel hsql => exact .update (h _ _ hrel) hsql
  | delete hrel hsql => exact .delete (h _ _ hrel) hsql
  | truncate hrels => exact .truncate (hrels.imp fun i rel => h i rel)

theorem Written.snoc {rows : List PgOutputMsg} {stmts : List String} (h : Written known rows stmts)
    {m : PgOutputMsg} {sql : String} {changes : List RowChange} (hm : Renders known m sql changes) :
    Written known (rows ++ [m]) (stmts ++ [sql]) :=
  List.rel_append h (.cons ⟨changes, hm⟩ .nil)

theorem lit_inj {before behind v w : String}
    (h : before ++ lit v ++ behind = before ++ lit w ++ behind) : v = w := by
  have hquote : "'".toList = [apostrophe] := by decide +kernel
  have htext := congrArg String.toList h
  simp only [String.toList_append, List.append_cancel_left_eq, List.append_cancel_right_eq] at htext
  simp only [lit, String.toList_append, double_toList, hquote, List.append_assoc,
    List.append_cancel_left_eq] at htext
  have hend : ([] : List Char).head? ≠ some apostrophe := by simp
  exact String.toList_inj.1 (doubled_append_inj hend hend htext).1

/-- The last statement of `apply` names the position. -/
theorem watermarkStmt_inj {l l' : Lsn} (h : Db.watermarkStmt l = Db.watermarkStmt l') : l = l' := by
  have hsame : l.toPgStr = l'.toPgStr := lit_inj h
  have hread := Lsn.fromPgStr_toPgStr l
  rw [hsame, Lsn.fromPgStr_toPgStr] at hread
  exact (Except.ok.inj hread).symm

/-- The relations of the stream are the upstream's. -/
def Knows (known : UInt32 → Option Rel) (s : Stream) : Prop :=
  ∀ i rel, s.rels i = some rel → known i = some rel

/-- What the replica has written and is about to write are statements of upstream transactions. -/
structure Texts (known : UInt32 → Option Rel) (H : History) (σ : World) : Prop where
  sending : ∀ t rest, σ.feed.sending = some (t, rest) → t ∈ H.txns
  rels : ∀ s, σ.phase = .streaming s → Knows known s
  applyingRels : ∀ s p committed, σ.phase = .applying s p committed → Knows known s
  buffer : ∀ s buf, σ.phase = .streaming s → s.txn = some buf →
    ∀ t rest, σ.feed.sending = some (t, rest) →
      ∃ rows, t.rows = rows ++ rest ∧ Written known rows buf.stmts
  pending : ∀ s p committed, σ.phase = .applying s p committed →
    ∃ t ∈ H.txns, t.endLsn = p.endLsn ∧ Written known t.rows p.buf.stmts
  log : ∀ entry ∈ σ.db.log, ∃ t ∈ H.txns, ∃ stmts,
    Written known t.rows stmts ∧ entry = stmts ++ [Db.watermarkStmt t.endLsn]

/-- The relations after a message that belongs to no transaction: known before, or told by it. -/
inductive Learns (told : UInt32 → Rel → Prop) (σ : World) (s : Stream) : World → Prop
  | fails {τ : World} (hτ : Refingerprinted σ τ) (e : Error) : Learns told σ s (τ.sessionFails e)
  | continues {τ : World} (hτ : Refingerprinted σ τ) {s' : Stream} (htxn : s'.txn = s.txn)
      (hrels : ∀ i rel, s'.rels i = some rel → s.rels i = some rel ∨ told i rel) :
      Learns told σ s (τ.goto (.streaming s'))

theorem onRelation_learns (σ : World) (s : Stream) (a : Answers) (relId : UInt32)
    (ns name : String) (columns : List RelColumn) :
    Learns (fun i rel => i = relId ∧ rel = ⟨ns, name, columns⟩) σ s
      (σ.onRelation s a relId ns name columns) := by
  have hadd : ∀ i rel, (s.addRel relId ⟨ns, name, columns⟩).rels i = some rel →
      s.rels i = some rel ∨ i = relId ∧ rel = ⟨ns, name, columns⟩ := by
    intro i rel hrel
    by_cases hi : i = relId
    · subst hi
      have hself : (s.addRel i ⟨ns, name, columns⟩).rels i = some ⟨ns, name, columns⟩ :=
        Function.update_self ..
      exact .inr ⟨rfl, (Option.some.inj (hself.symm.trans hrel)).symm⟩
    · have hother : (s.addRel relId ⟨ns, name, columns⟩).rels i = s.rels i :=
        Function.update_of_ne hi _ _
      exact .inl (hother.symm.trans hrel)
  unfold World.onRelation
  dsimp only
  split
  · split
    · exact .continues .same rfl hadd
    · split
      · split
        · exact .fails .same _
        · split
          · rename_i hstore
            exact .fails (refingerprinted_of_store hstore) _
          · rename_i hstore
            exact .continues (refingerprinted_of_store hstore) rfl hadd
      · exact .fails .same _
  · exact .fails .same _

theorem onSignal_learns (σ : World) (s : Stream) (a : Answers) (msgPrefix : String) :
    Learns (fun _ _ => False) σ s (σ.onSignal s a msgPrefix) := by
  unfold World.onSignal World.resyncSchema
  split
  · cases a.schemaDelta with
    | error e => exact .fails .same e
    | ok newTables =>
      dsimp only
      by_cases hsame : sorted (lines (fingerprint newTables)) = sorted s.expected.values
      · rw [if_pos hsame]
        dsimp only
        split
        · exact .fails .same _
        · exact .continues .same rfl fun i rel hrel => .inl hrel
      · rw [if_neg hsame]
        rcases hstore : σ.storeFingerprint (fingerprint newTables) a.updateFingerprint with ⟨τ, r⟩
        cases r with
        | error e => exact .fails (refingerprinted_of_store hstore) e
        | ok u =>
          dsimp only
          split
          · exact .fails (refingerprinted_of_store hstore) _
          · refine .continues (refingerprinted_of_store hstore) rfl fun i rel hrel => .inl ?_
            exact (Option.filter_eq_some_iff.1 hrel).1
  · exact .continues .same rfl fun i rel hrel => .inl hrel

theorem Refingerprinted.log_eq (h : Refingerprinted σ τ) : τ.db.log = σ.db.log := by
  cases h <;> rfl

theorem Refingerprinted.feed_eq (h : Refingerprinted σ τ) : τ.feed = σ.feed := by
  cases h <;> rfl

namespace Texts

/-- No session is going on. -/
theorem idle (h : Texts known H σ) (hlog : τ.db.log = σ.db.log)
    (hsending : ∀ t rest, τ.feed.sending = some (t, rest) → t ∈ H.txns)
    (hstreaming : ∀ s, τ.phase ≠ .streaming s)
    (happlying : ∀ s p committed, τ.phase ≠ .applying s p committed) : Texts known H τ where
  sending := hsending
  rels s hs := absurd hs (hstreaming s)
  applyingRels s p committed hs := absurd hs (happlying s p committed)
  buffer s _ hs := absurd hs (hstreaming s)
  pending s p committed hs := absurd hs (happlying s p committed)
  log := hlog ▸ h.log

theorem sessionFails (h : Texts known H σ) (hlog : τ.db.log = σ.db.log)
    (hsending : ∀ t rest, τ.feed.sending = some (t, rest) → t ∈ H.txns) (e : Error) :
    Texts known H (τ.sessionFails e) := by
  unfold World.sessionFails
  by_cases hfatal : isFatal e = true
  · rw [if_pos hfatal]
    exact h.idle hlog hsending (fun _ => nofun) fun _ _ _ => nofun
  · rw [if_neg hfatal]
    exact h.idle hlog hsending (fun _ => nofun) fun _ _ _ => nofun

/-- The session goes on. -/
theorem stream (h : Texts known H σ) (hlog : τ.db.log = σ.db.log)
    (hsending : ∀ t rest, τ.feed.sending = some (t, rest) → t ∈ H.txns)
    (hphase : τ.phase = .streaming s) (hknows : Knows known s)
    (hbuffer : ∀ buf, s.txn = some buf → ∀ t rest, τ.feed.sending = some (t, rest) →
      ∃ rows, t.rows = rows ++ rest ∧ Written known rows buf.stmts) : Texts known H τ where
  sending := hsending
  rels s' hs' := by
    obtain rfl : s = s' := Phase.streaming.inj (hphase.symm.trans hs')
    exact hknows
  applyingRels s' p committed hs' := by
    cases hphase.symm.trans hs'
  buffer s' buf hs' hbuf := by
    obtain rfl : s = s' := Phase.streaming.inj (hphase.symm.trans hs')
    exact hbuffer buf hbuf
  pending s' p committed hs' := by
    cases hphase.symm.trans hs'
  log := hlog ▸ h.log

/-- Nothing happens that matters for texts. -/
theorem of_eq (h : Texts known H σ) (hlog : τ.db.log = σ.db.log) (hfeed : τ.feed = σ.feed)
    (hphase : τ.phase = σ.phase) : Texts known H τ where
  sending := hfeed ▸ h.sending
  rels := hphase ▸ h.rels
  applyingRels := hphase ▸ h.applyingRels
  buffer := hphase ▸ hfeed ▸ h.buffer
  pending := hphase ▸ h.pending
  log := hlog ▸ h.log

/-- After a message that belongs to no transaction. -/
theorem learns {told : UInt32 → Rel → Prop} (h : Texts known H σ)
    (hphase : σ.phase = .streaming s) (htold : ∀ i rel, told i rel → known i = some rel)
    (hτ : Learns told σ s τ) : Texts known H τ := by
  cases hτ with
  | fails hτ e => exact h.sessionFails hτ.log_eq (hτ.feed_eq ▸ h.sending) e
  | @continues τ hτ s' htxn hrels =>
    refine h.stream (s := s') hτ.log_eq (hτ.feed_eq ▸ h.sending) rfl ?_ ?_
    · intro i rel hrel
      rcases hrels i rel hrel with hold | hnew
      · exact h.rels s hphase i rel hold
      · exact htold i rel hnew
    · intro buf hbuf t rest hsending
      rw [htxn] at hbuf
      have hfeed : (τ.goto (.streaming s')).feed = σ.feed := hτ.feed_eq
      rw [hfeed] at hsending
      exact h.buffer s buf hphase hbuf t rest hsending

/-- The commit of the transaction whose buffer is open. -/
theorem onCommit (h : Texts known H σ) (hphase : σ.phase = .streaming s) {t : UpstreamTxn}
    (hsending : σ.feed.sending = some (t, [])) :
    Texts known H
      ({ σ with feed := σ.feed.pass t }.onCommit s t.commitLsn t.endLsn t.commitTs) := by
  have hnone : ∀ u rest, (σ.feed.pass t).sending = some (u, rest) → u ∈ H.txns := by
    intro u rest hsent
    cases hsent
  have hstream : ∀ τ : World, τ.db.log = σ.db.log → τ.feed = σ.feed.pass t →
      τ.phase = .streaming { s with txn := none } → Texts known H τ := by
    intro τ hlog hfeed hτ
    refine h.stream hlog (hfeed ▸ hnone) hτ (h.rels s hphase) ?_
    intro buf hbuf
    cases hbuf
  cases hbuf : s.txn with
  | none =>
    simp only [World.onCommit, hbuf]
    refine h.sessionFails ?_ hnone _
    rfl
  | some buf =>
    simp only [World.onCommit, hbuf]
    split_ifs with hle hstmts
    · exact hstream _ rfl rfl rfl
    · exact hstream _ rfl rfl rfl
    · obtain ⟨rows, hrows, hwritten⟩ := h.buffer s buf hphase hbuf t [] hsending
      rw [List.append_nil] at hrows
      refine ⟨hnone, ?_, ?_, ?_, ?_, h.log⟩
      · intro s' hs'
        cases hs'
      · rintro s' p committed hs'
        obtain ⟨rfl, -, -⟩ := Phase.applying.inj hs'
        exact h.rels s hphase
      · intro s' buf' hs'
        cases hs'
      · rintro s' p committed hs'
        obtain ⟨-, rfl, -⟩ := Phase.applying.inj hs'
        exact ⟨t, h.sending t [] hsending, rfl, hrows ▸ hwritten⟩

/-- The next row change of the transaction whose buffer is open. -/
theorem onRow (h : Texts known H σ) (hw : WellFormed σ) (hphase : σ.phase = .streaming s)
    {t : UpstreamTxn} {row : PgOutputMsg} {rest : List PgOutputMsg} {a : Answers}
    (hsending : σ.feed.sending = some (t, row :: rest)) :
    Texts known H
      ({ σ with feed := { σ.feed with sending := some (t, rest) } }.onMessage s a row) := by
  have hmem : t ∈ H.txns := h.sending t _ hsending
  have hnext : ∀ u more, some (t, rest) = some (u, more) → u ∈ H.txns := by
    intro u more hsame
    obtain ⟨rfl, -⟩ := Prod.mk.inj (Option.some.inj hsame)
    exact hmem
  have hrow : row.isRow = true := hw.rows t _ hsending row List.mem_cons_self
  rw [onMessage_row _ _ _ hrow]
  cases hon : s.onRow row with
  | error e =>
    refine h.sessionFails ?_ hnext e
    rfl
  | ok s' =>
    obtain ⟨buf, stmt, changes, hbuf, hrenders, rfl⟩ := Stream.onRow_eq_ok hrow hon
    refine h.stream (s := s.push buf stmt changes) rfl hnext rfl (h.rels s hphase) ?_
    intro buf' hbuf' u more hsame
    obtain ⟨rfl, rfl⟩ := Prod.mk.inj (Option.some.inj hsame)
    obtain rfl : buf.push stmt changes = buf' := Option.some.inj hbuf'
    obtain ⟨rows, hrows, hwritten⟩ := h.buffer s buf hphase hbuf t _ hsending
    exact ⟨rows ++ [row], by simp [hrows], hwritten.snoc (hrenders.mono (h.rels s hphase))⟩

/-- A message that belongs to no transaction. -/
theorem onOther (h : Texts known H σ) (hw : WellFormed σ) (hphase : σ.phase = .streaming s)
    {m : PgOutputMsg} {a : Answers} (hallows : σ.feed.allowsOther m = true)
    (hhonest : Honest known σ (.deliver (.other m) a)) :
    Texts known H (σ.onMessage s a m) := by
  have hnone : σ.feed.sending.isNone = true → s.txn = none := by
    intro hsending
    have hopened := hw.opened s hphase
    rw [Option.isNone_iff_eq_none.1 hsending] at hopened
    simpa using hopened
  have hrow : m.isRow = true → σ.feed.sending.isNone = true →
      Texts known H (σ.onMessage s a m) := by
    intro hrow hsending
    rw [onMessage_row _ _ _ hrow]
    cases hon : s.onRow m with
    | error e => exact h.sessionFails rfl h.sending e
    | ok s' =>
      obtain ⟨buf, _, _, hbuf, -, -⟩ := Stream.onRow_eq_ok hrow hon
      exact absurd (hbuf.symm.trans (hnone hsending)) (Option.some_ne_none _)
  cases m with
  | begin finalLsn commitTs xid => cases hallows
  | relation relId ns name replicaIdentity columns =>
    refine h.learns hphase ?_ (onRelation_learns σ s a relId ns name columns)
    rintro i rel ⟨rfl, rfl⟩
    exact hhonest
  | message msgPrefix content =>
    exact h.learns hphase (fun _ _ hfalse => hfalse.elim) (onSignal_learns σ s a msgPrefix)
  | other => exact h.stream rfl h.sending rfl (h.rels s hphase) fun buf => h.buffer s buf hphase
  | commit commitLsn endLsn commitTs =>
    have hcommit : σ.onCommit s commitLsn endLsn commitTs =
        σ.sessionFails (.protocol "commit without begin on replication stream") := by
      simp [World.onCommit, hnone hallows]
    show Texts known H (σ.onCommit s commitLsn endLsn commitTs)
    rw [hcommit]
    exact h.sessionFails rfl h.sending _
  | insert relId new => exact hrow rfl hallows
  | update relId key old new => exact hrow rfl hallows
  | delete relId key old => exact hrow rfl hallows
  | truncate relIds => exact hrow rfl hallows

theorem deliver (h : Texts known H σ) (hw : WellFormed σ) (hphase : σ.phase = .streaming s)
    {d : Delivery} {a : Answers} {m : PgOutputMsg} {f : Feed}
    (hdeliver : σ.feed.deliver H d = some (m, f)) (hhonest : Honest known σ (.deliver d a)) :
    Texts known H ({ σ with feed := f }.onMessage s a m) := by
  cases d with
  | begin t =>
    simp only [Feed.deliver, Option.ite_none_right_eq_some, Option.some.injEq, Prod.mk.injEq]
      at hdeliver
    obtain ⟨hmay, rfl, rfl⟩ := hdeliver
    have hbegun : ∀ u rest, some (t, t.rows) = some (u, rest) → u = t ∧ rest = t.rows := by
      intro u rest hsame
      obtain ⟨rfl, rfl⟩ := Prod.mk.inj (Option.some.inj hsame)
      exact ⟨rfl, rfl⟩
    refine h.stream (s := { s with txn := some ⟨t.xid, t.commitTs, [], []⟩ }) rfl ?_ rfl
      (h.rels s hphase) ?_
    · intro u rest hsame
      obtain ⟨rfl, -⟩ := hbegun u rest hsame
      exact hmay.1
    · intro buf hbuf u rest hsame
      obtain ⟨rfl, rfl⟩ := hbegun u rest hsame
      obtain rfl := Option.some.inj hbuf
      exact ⟨[], rfl, .nil⟩
  | next =>
    unfold Feed.deliver at hdeliver
    cases hsending : σ.feed.sending with
    | none => simp [hsending] at hdeliver
    | some sending =>
      obtain ⟨t, rest⟩ := sending
      rw [hsending] at hdeliver
      cases rest with
      | nil =>
        obtain ⟨rfl, rfl⟩ := Prod.mk.inj (Option.some.inj hdeliver)
        exact h.onCommit hphase hsending
      | cons row rest =>
        obtain ⟨rfl, rfl⟩ := Prod.mk.inj (Option.some.inj hdeliver)
        exact h.onRow hw hphase hsending
  | other m' =>
    simp only [Feed.deliver, Option.ite_none_right_eq_some, Option.some.injEq, Prod.mk.injEq]
      at hdeliver
    obtain ⟨hallows, rfl, rfl⟩ := hdeliver
    exact h.onOther hw hphase hallows hhonest

/-- **Step.** -/
theorem step {cfg : ReplicaConfig} {σ' : World} {e : Event} (h : Texts known H σ)
    (hw : WellFormed σ) (hhonest : Honest known σ e) (hstep : step cfg H σ e = some σ') :
    Texts known H σ' := by
  have hidle : ∀ τ : World, τ.db.log = σ.db.log → τ.feed = σ.feed →
      (∀ s, τ.phase ≠ .streaming s) → (∀ s p committed, τ.phase ≠ .applying s p committed) →
      Texts known H τ :=
    fun τ hlog hfeed => h.idle hlog (hfeed ▸ h.sending)
  cases steps_of_step hstep with
  | startFails => exact h
  | start hphase hprepare =>
    rcases prepare_cases hprepare with ⟨-, -, -, rfl⟩ | ⟨row, -, -, -, rfl⟩
    · exact hidle _ rfl rfl (fun _ => nofun) fun _ _ _ => nofun
    · exact hidle _ rfl rfl (fun _ => nofun) fun _ _ _ => nofun
  | connect hphase => exact hidle _ rfl rfl (fun _ => nofun) fun _ _ _ => nofun
  | @connectFails e hphase hfatal =>
    have hhalt : σ.sessionFails e = σ.halt e := if_pos hfatal
    rw [← hhalt]
    exact h.sessionFails rfl h.sending e
  | connectAgain => exact h
  | openStream hphase =>
    refine h.stream (s := ⟨.ofFingerprint σ.mem.fingerprint, fun _ => none, none⟩) rfl nofun rfl
      ?_ nofun
    intro i rel hrel
    cases hrel
  | readFails hphase => exact h.sessionFails rfl h.sending _
  | fails hphase => exact h.sessionFails rfl h.sending _
  | status hphase => exact h.of_eq rfl rfl rfl
  | @keepalive s walEnd replyRequested hphase hallows =>
    cases s.txn.isNone <;> cases replyRequested <;> exact h.of_eq rfl rfl rfl
  | deliver hphase hdeliver => exact h.deliver hw hphase hdeliver hhonest
  | @localCommit s p hphase =>
    obtain ⟨t, ht, hend, hwritten⟩ := h.pending s p false hphase
    refine ⟨h.sending, nofun, ?_, nofun, ?_, ?_⟩
    · rintro s' p' committed hs'
      obtain ⟨rfl, -, -⟩ := Phase.applying.inj hs'
      exact h.applyingRels s p false hphase
    · rintro s' p' committed hs'
      obtain ⟨-, rfl, -⟩ := Phase.applying.inj hs'
      exact ⟨t, ht, hend, hwritten⟩
    · intro entry hentry
      rcases List.mem_append.1 hentry with hold | hnew
      · exact h.log entry hold
      · obtain rfl := List.mem_singleton.1 hnew
        exact ⟨t, ht, _, hwritten, by rw [hend]⟩
  | @applied s p hphase =>
    have hrest : (σ.applied s p).db.log = σ.db.log ∧ (σ.applied s p).feed = σ.feed ∧
        (σ.applied s p).phase = .streaming s := by
      unfold World.applied
      dsimp only
      split <;> exact ⟨rfl, rfl, rfl⟩
    obtain ⟨hlog, hfeed, hstreaming⟩ := hrest
    refine h.stream hlog (hfeed ▸ h.sending) hstreaming (h.applyingRels s p true hphase) ?_
    intro buf hbuf
    rw [(hw.taken s p true hphase).1] at hbuf
    cases hbuf
  | applyFails hphase => exact h.sessionFails rfl h.sending _
  | subscribe hlive => exact h.of_eq rfl rfl rfl
  | dropReceiver => exact h.of_eq rfl rfl rfl
  | stop => exact h.of_eq rfl rfl rfl
  | quit hphase => exact hidle _ rfl rfl (fun _ => nofun) fun _ _ _ => nofun
  | crash hlive => exact hidle _ rfl rfl (fun _ => nofun) fun _ _ _ => nofun

/-- The entries of the log, with the transactions that were committed. -/
theorem written (h : Texts known H σ) {txns : List UpstreamTxn} (hmem : ∀ t ∈ txns, t ∈ H.txns)
    (hlog : List.Forall₂ CommittedAs txns σ.db.log) :
    List.Forall₂ (fun t entry => Written known t.rows entry.dropLast) txns σ.db.log := by
  have hentries := h.log
  generalize σ.db.log = log at hlog hentries
  induction hlog with
  | nil => exact .nil
  | @cons t entry txns log hcommitted _ ih =>
    rw [List.forall_mem_cons] at hmem hentries
    obtain ⟨u, hu, stmts, hwritten, rfl⟩ := hentries.1
    obtain ⟨stmts', changes, -, hentry⟩ := hcommitted
    -- Both are known by their last statement.
    have hlast := congrArg List.getLast? hentry
    rw [List.getLast?_concat, List.getLast?_concat] at hlast
    have hend : u.endLsn = t.endLsn := watermarkStmt_inj (Option.some.inj hlast)
    obtain rfl := OrderedLog.Ordered.eq_of_key_eq H.ordered hu hmem.1 hend
    refine .cons ?_ (ih hmem.2 hentries.2)
    rw [List.dropLast_concat]
    exact hwritten

end Texts

end Texts

/-! ## Contents -/

namespace History

variable {H : History} {cp d : Lsn}

/-- The transactions above a position, those without row changes as well. -/
def behind (H : History) (cp : Lsn) : List UpstreamTxn :=
  H.txns.filter fun t => decide (cp < t.endLsn)

theorem mem_behind {t : UpstreamTxn} : t ∈ H.behind cp ↔ t ∈ H.txns ∧ cp < t.endLsn := by
  simp [behind]

theorem behind_ordered (H : History) (cp : Lsn) : OrderedLog.Ordered UpstreamTxn.endLsn (H.behind cp) :=
  OrderedLog.Ordered.filter H.ordered _

theorem filter_behind : (upTo UpstreamTxn.endLsn d (H.behind cp)).filter UpstreamTxn.hasRows =
    upTo UpstreamTxn.endLsn d (H.owed cp) := by
  simp only [upTo, behind, owed, List.filter_filter]
  refine List.filter_congr fun t _ => ?_
  cases t.hasRows <;> cases decide (t.endLsn ≤ d) <;> cases decide (cp < t.endLsn) <;> rfl

/-- The last of those owed is the last of all. -/
theorem lastKey_behind (h : d = lastKey UpstreamTxn.endLsn cp (upTo UpstreamTxn.endLsn d (H.owed cp))) :
    lastKey UpstreamTxn.endLsn cp (upTo UpstreamTxn.endLsn d (H.behind cp)) = d := by
  cases hlast : (upTo UpstreamTxn.endLsn d (H.owed cp)).getLast? with
  | none =>
    rw [lastKey, hlast] at h
    obtain rfl : d = cp := h
    have hempty : upTo UpstreamTxn.endLsn d (H.behind d) = [] :=
      upTo_eq_nil fun t ht => (mem_behind.1 ht).2
    rw [hempty, lastKey_nil]
  | some t =>
    rw [lastKey, hlast] at h
    obtain ⟨ht, -, hlt⟩ := mem_owed.1 (mem_upTo.1 (List.mem_of_getLast? hlast)).1
    exact lastKey_upTo (H.behind_ordered cp) (mem_behind.2 ⟨ht, hlt⟩) h.symm

end History

section Contents

variable {eq : Equality} {keyOf : IndexDef → Option UniqueKey} {tables : List UpTable}
  {known : UInt32 → Option Rel} {H : History} (heq : eq.Reflexive)
  (hwf : ∀ t ∈ tables, t.WellFormed) (hplain : PlainDefinitions keyOf tables)
include heq hwf hplain

/-- The statements of a transaction lead from the rows before it to those after it. -/
theorem applyAll_done {U C : Contents} {ms : List PgOutputMsg} {Us : List Contents}
    (hrun : UpRun eq tables known U ms Us) (hexact : AllExact eq known U ms Us)
    (hmidway : ∀ U ∈ Us, ∀ t ∈ tables, t.Midway (eq t.key) (U t.key)) {stmts : List String}
    (hstmts : Written known ms stmts) (hlocal : LocalOf tables C U)
    (hholds : LocalHolds eq keyOf tables C) :
    ∃ C', applyAll eq keyOf tables stmts C = .done C' ∧ LocalOf tables C' (Us.getLastD U) ∧
      LocalHolds eq keyOf tables C' := by
  induction hrun generalizing C stmts with
  | nil U =>
    cases hstmts
    exact ⟨C, rfl, hlocal, hholds⟩
  | @cons U U' m ms Us hstep _ ih =>
    cases hstmts with
    | @cons _ sql _ stmts hrender hstmts =>
      obtain ⟨changes, hrender⟩ := hrender
      rw [List.forall_mem_cons] at hmidway
      obtain ⟨C₁, hlocal₁, hiff, hexec⟩ :=
        hstep.exec heq hwf hplain hexact.1 hrender hlocal hholds
      have hholds₁ := hiff.2 hmidway.1
      obtain ⟨C', hrest, hlocal', hholds'⟩ := ih hexact.2 hmidway.2 hstmts hlocal₁ hholds₁
      refine ⟨C', ?_, ?_, hholds'⟩
      · rw [applyAll, hexec, if_pos hholds₁]
        exact hrest
      · rwa [List.getLastD_cons]

/-- **Replay.** The entries of the transactions behind a position lead along the chronicle. -/
theorem replay {V : Lsn → Contents} (hV : Chronicle eq tables known H V) {ts : List UpstreamTxn}
    {l : Lsn} (hmem : ∀ t ∈ ts, t ∈ H.txns ∧ l < t.endLsn) (hordered : OrderedLog.Ordered UpstreamTxn.endLsn ts)
    (hnext : ∀ u ∈ H.txns, l < u.endLsn → u ∈ ts ∨ ∀ t ∈ ts, t.endLsn < u.endLsn)
    {log : List (List String)}
    (hlog : List.Forall₂ (fun t entry => Written known t.rows entry.dropLast)
      (ts.filter UpstreamTxn.hasRows) log)
    {C : Contents} (hlocal : LocalOf tables C (V l)) (hholds : LocalHolds eq keyOf tables C) :
    ∃ C', run (execEntry eq keyOf tables) C log = some C' ∧
      LocalOf tables C' (V (lastKey UpstreamTxn.endLsn l ts)) ∧
      LocalHolds eq keyOf tables C' := by
  induction ts generalizing l log C with
  | nil =>
    cases hlog
    exact ⟨C, rfl, hlocal, hholds⟩
  | cons t ts ih =>
    obtain ⟨⟨ht, hlt⟩, hmem⟩ := List.forall_mem_cons.1 hmem
    obtain ⟨hfirst, hordered⟩ := List.pairwise_cons.1 hordered
    have hle : ∀ u ∈ H.txns, l < u.endLsn → t.endLsn ≤ u.endLsn := by
      intro u hu hlu
      rcases hnext u hu hlu with hin | hbehind
      · rcases List.mem_cons.1 hin with rfl | hin
        · exact le_rfl
        · exact (hfirst u hin).le
      · exact (hbehind t List.mem_cons_self).le
    obtain ⟨Us, hrun, hexact, hmidway, hafter⟩ := hV t ht l hlt hle
    have hmem' : ∀ u ∈ ts, u ∈ H.txns ∧ t.endLsn < u.endLsn := fun u hu =>
      ⟨(hmem u hu).1, hfirst u hu⟩
    have hnext' : ∀ u ∈ H.txns, t.endLsn < u.endLsn → u ∈ ts ∨ ∀ v ∈ ts, v.endLsn < u.endLsn := by
      intro u hu htu
      rcases hnext u hu (hlt.trans htu) with hin | hbehind
      · rcases List.mem_cons.1 hin with rfl | hin
        · exact absurd htu (lt_irrefl _)
        · exact .inl hin
      · exact .inr fun v hv => hbehind v (List.mem_cons_of_mem t hv)
    rw [lastKey_cons]
    cases hrows : t.hasRows with
    | true =>
      rw [List.filter_cons_of_pos hrows] at hlog
      cases hlog with
      | @cons _ entry _ log hwritten hlog =>
        obtain ⟨C₁, hdone, hlocal₁, hholds₁⟩ :=
          applyAll_done heq hwf hplain hrun hexact hmidway hwritten hlocal hholds
        rw [← hafter] at hlocal₁
        obtain ⟨C', hrest, hlocal', hholds'⟩ := ih hmem' hordered hnext' hlog hlocal₁ hholds₁
        refine ⟨C', run_cons_eq_some.2 ⟨C₁, ?_, hrest⟩, hlocal', hholds'⟩
        rw [execEntry, hdone]
    | false =>
      rw [List.filter_cons_of_neg (by simp [hrows])] at hlog
      have hnil : t.rows = [] := by simpa [UpstreamTxn.hasRows] using hrows
      rw [hnil] at hrun
      cases hrun
      have hsame : V t.endLsn = V l := hafter
      rw [← hsame] at hlocal
      exact ih hmem' hordered hnext' hlog hlocal hholds

/-- **The local tables are the upstream's at the stored watermark**, in every state of every run in
which no error hides a commit and leads to a new session: the texts in the log are all executed on
the rows that the first run copied, no constraint is violated on the way, and the rows of every
published table are then those of the upstream at the watermark. -/
theorem snapshot_at_watermark {V : Lsn → Contents} (hV : Chronicle eq tables known H V)
    {cfg : ReplicaConfig} {es : List Event} {σ : World}
    (honest : Guarded (Replica.step cfg H) (Honest known) .blank es)
    (atomic : Guarded (Replica.step cfg H) (fun σ e => σ.losesCommit e = false) .blank es)
    (hrun : run (Replica.step cfg H) .blank es = some σ) {cp d : Lsn} (hslot : σ.slot = some cp)
    (hdurable : σ.db.durable = some d) {base : Contents} (copied : LocalOf tables base (V cp))
    (holds : LocalHolds eq keyOf tables base) :
    ∃ C, run (execEntry eq keyOf tables) base σ.db.log = some C ∧ LocalOf tables C (V d) ∧
      LocalHolds eq keyOf tables C := by
  have htexts : WellFormed σ ∧ Texts known H σ := by
    refine run_invariant (I := fun σ => WellFormed σ ∧ Texts known H σ) ?_ ?_ honest hrun
    · rintro s e s' ⟨hw, h⟩ hok hstep
      exact ⟨hw.step hstep, h.step hw hok hstep⟩
    · exact ⟨wellFormed_blank, ⟨nofun, nofun, nofun, nofun, nofun, nofun⟩⟩
  rcases exact_of_moves blank_ledger (run_moves_lossless atomic hrun) with hblank | ⟨cp', d', hc, he⟩
  · have hnone : σ.db.durable = none := hblank.durable
    rw [hnone] at hdurable
    cases hdurable
  obtain rfl : cp' = cp := Option.some.inj (hc.slot.symm.trans hslot)
  obtain rfl : d' = d := Option.some.inj (hc.durable.symm.trans hdurable)
  have hwritten : List.Forall₂ (fun t entry => Written known t.rows entry.dropLast)
      (upTo UpstreamTxn.endLsn d' (H.owed cp')) σ.db.log :=
    htexts.2.written (fun t ht => (History.mem_owed.1 (mem_upTo.1 ht).1).1) he.log
  rw [← History.filter_behind] at hwritten
  have hmem : ∀ t ∈ upTo UpstreamTxn.endLsn d' (H.behind cp'), t ∈ H.txns ∧ cp' < t.endLsn :=
    fun t ht => History.mem_behind.1 (mem_upTo.1 ht).1
  have hnext : ∀ u ∈ H.txns, cp' < u.endLsn → u ∈ upTo UpstreamTxn.endLsn d' (H.behind cp') ∨
      ∀ t ∈ upTo UpstreamTxn.endLsn d' (H.behind cp'), t.endLsn < u.endLsn := by
    intro u hu hlt
    by_cases hle : u.endLsn ≤ d'
    · exact .inl (mem_upTo.2 ⟨History.mem_behind.2 ⟨hu, hlt⟩, hle⟩)
    · exact .inr fun t ht => (mem_upTo.1 ht).2.trans_lt (lt_of_not_ge hle)
  obtain ⟨C, hreplay, hlocal, hholds⟩ := replay heq hwf hplain hV hmem
    (OrderedLog.Ordered.filter (H.behind_ordered cp') _) hnext hwritten copied holds
  rw [History.lastKey_behind he.frontier] at hlocal
  exact ⟨C, hreplay, hlocal, hholds⟩

end Contents

/-! ## A session that breaks -/

/-- The table of `insertTxn`. -/
def tTable : UpTable where
  schema := "public"
  name := "t"
  columns := [⟨"id", "integer", 23, false⟩]
  replicaIdentity := "f"
  rowFilter := none
  primary := none
  indexes := []

def tRel : Rel := ⟨"public", "t", [⟨1, "id", 23, -1⟩]⟩

def tKnown (relId : UInt32) : Option Rel :=
  if relId = 1 then some tRel else none

def tRow : Row := Records.setAll ∅ [("id", some "1")]

/-- The row is there from the end of `insertTxn` on. -/
def tRows (l : Lsn) : Contents :=
  if l < 20 then fun _ => [] else Function.update (fun _ => []) tRel.key [tRow]

theorem tRows_chronicle : Chronicle textEquality [tTable] tKnown sampleHistory tRows := by
  have hmidway : ∀ U : Contents, ∀ table ∈ [tTable], table.Midway (textEquality table.key)
      (U table.key) := by
    intro U table ht
    obtain rfl := List.mem_singleton.1 ht
    exact ⟨nofun, nofun, nofun⟩
  intro t ht l hlt hnext
  rcases List.mem_pair.1 ht with rfl | rfl
  · have hempty : tRows l = fun _ => [] := if_pos hlt
    have hfits : tRel.Fits tRow := by
      intro name hname
      have hne : name ≠ "id" := by simpa [tRel] using hname
      rw [tRow, Records.lookup_setAll]
      simp [List.lookup_cons, beq_false_of_ne hne]
    have htuple : tRel.tuple tRow = [.text "1"] := by decide +kernel
    have hsends : tRel.Sends (textEquality tRel.key) 1 [] [tRow] (.insert 1 [.text "1"]) := by
      rw [← htuple]
      exact .insert hfits
    have hstep : UpStep textEquality [tTable] tKnown (fun _ => []) (.insert 1 [.text "1"])
        (Function.update (fun _ => []) tRel.key [tRow]) := by
      have hrel : tKnown 1 = some tRel := rfl
      refine .row hrel ⟨tTable, List.mem_singleton_self _, rfl⟩
        ⟨by decide, by decide, by decide⟩ nofun hsends ?_
      intro table htable _
      obtain rfl := List.mem_singleton.1 htable
      exact ⟨by decide, nofun, nofun, nofun⟩
    have hexact : ∀ relId ∈ PgOutputMsg.relIds (.insert 1 [.text "1"]), ∀ rel ∈ tKnown relId,
        rel.Exact (textEquality rel.key) [] (.insert 1 [.text "1"]) := by
      intro relId hrelId rel hrel
      obtain rfl := List.mem_singleton.1 hrelId
      obtain rfl := Option.some.inj hrel
      exact List.cons_ne_nil _ _
    rw [hempty]
    exact ⟨[_], .cons hstep (.nil _), ⟨hexact, trivial⟩, fun U _ => hmidway U, rfl⟩
  · have hge : ¬ l < 20 := fun hlt' => absurd (hnext insertTxn List.mem_cons_self hlt') (by decide)
    refine ⟨[], .nil _, trivial, nofun, ?_⟩
    rw [List.getLastD_nil, tRows, tRows, if_neg hge]
    exact if_neg (by decide)

/-- The session breaks after the insert has been applied, and the upstream sends it again. -/
theorem snapshot_at_watermark_resent :
    ∃ σ C, run (step sampleConfig sampleHistory) .blank
        (firstSession ++ sendInsert ++ applyInsert ++ [.fails (.io "reset"), .connect (.ok ()),
          .openStream] ++ sendInsert) = some σ ∧
      run (execEntry textEquality (fun _ => none) [tTable]) (fun _ => []) σ.db.log = some C ∧
      LocalOf [tTable] C (tRows 20) ∧ LocalHolds textEquality (fun _ => none) [tTable] C := by
  have hends : (run (step sampleConfig sampleHistory) .blank
      (firstSession ++ sendInsert ++ applyInsert ++ [.fails (.io "reset"), .connect (.ok ()),
        .openStream] ++ sendInsert)).map (fun σ => (σ.slot, σ.db.durable)) =
          some (some 10, some 20) := by
    decide
  obtain ⟨σ, hrun, hσ⟩ := Option.map_eq_some_iff.1 hends
  obtain ⟨hslot, hdurable⟩ := Prod.mk.inj hσ
  have hwf : ∀ t ∈ [tTable], t.WellFormed := by
    intro t ht
    obtain rfl := List.mem_singleton.1 ht
    exact nofun
  have hplain : PlainDefinitions (fun _ => none) [tTable] := by
    intro t ht
    obtain rfl := List.mem_singleton.1 ht
    exact nofun
  have hcopied : LocalOf [tTable] (fun _ => []) (tRows 10) := fun _ _ => .refl _
  obtain ⟨C, hC, hlocal, hholds⟩ := snapshot_at_watermark textEquality_reflexive hwf hplain
    tRows_chronicle (by decide) (by decide) hrun hslot hdurable hcopied (by decide)
  exact ⟨σ, C, hrun, hC, hlocal, hholds⟩

end Pglite.Replica
