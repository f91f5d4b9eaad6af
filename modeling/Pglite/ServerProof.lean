import Pglite.Server

/-!
# What a batch does to a session

One lemma per kind of batch. The proofs about transactions, queries and the serial lock use
these and do not look into `Server.exec`.
-/

namespace Pglite

variable {ο α : Type*} {d : Catalog α}

namespace Server

theorem runStmt_spec (s : Server ο α) (a : α) (v : Verdict) (before : List Message) :
    let r := (s.runStmt a v before).1
    r.session.block.opener? = s.session.block.opener? ∧ r.ended = s.ended ∧
      r.ran = s.ran ++ [(a, s.session.block)] := by
  cases v with
  | reject fields => simp [runStmt, raise, ready]
  | accept rows => cases hb : s.session.block <;> simp [runStmt, ready, hb]

/-- In a failed block the server runs nothing. -/
theorem exec_failed {s : Server ο α} {p : ο} (hs : s.session.block = .failed p) (o : ο)
    {b : Batch α} (hb : b.isStatement = true) (v : Verdict) :
    s.exec d o b v = raise (s.dropUnnamed b) abortedFields := by
  obtain ⟨⟨block, pending, unnamed⟩, store, ran, ended⟩ := s
  obtain rfl : block = .failed p := hs
  cases b with
  | begin | commit | rollback => exact (Bool.false_ne_true hb).elim
  | query a | parse a | bind => rfl

/-- A statement leaves the session in the block it was in, ends no block, and is recorded with
that block when it runs. -/
theorem exec_stmt_spec (s : Server ο α) (o : ο) {b : Batch α} (hb : b.isStatement = true) (v : Verdict) :
    let r := (s.exec d o b v).1
    r.session.block.opener? = s.session.block.opener? ∧ r.ended = s.ended ∧
      r.ran = s.ran ++ ((s.session.runs b).map fun a => (a, s.session.block)).toList := by
  cases hs : s.session.block with
  | failed p =>
    rw [exec_failed hs o hb]
    have hruns : s.session.runs b = none := by
      cases b <;> simp [Session.runs, hs]
    simp [raise, ready, hs, hruns]
  | _ =>
    cases b with
    | begin | commit | rollback => exact (Bool.false_ne_true hb).elim
    | query a =>
      have h := runStmt_spec (s.dropUnnamed (.query a)) a v []
      simp only [dropUnnamed_block, dropUnnamed_ran, dropUnnamed_ended, hs] at h
      simpa [exec, Session.runs, hs] using h
    | parse a => cases v <;> simp [exec, raise, ready, Session.runs, hs, Block.fail]
    | bind =>
      cases hu : s.session.unnamed with
      | none => simp [exec, raise, ready, Session.runs, hs, hu, Block.fail]
      | some a =>
        have h := runStmt_spec s a v [.bindComplete]
        simp only [hs] at h
        simpa [exec, Session.runs, hs, hu] using h

/-- The answer to `BEGIN` outside a block is an error, or the block is open. -/
theorem exec_begin_idle {s : Server ο α} (hs : s.session.block = .idle) (o : ο) (v : Verdict) :
    (∃ fields, s.exec d o .begin v = raise (s.dropUnnamed .begin) fields) ∨
      s.exec d o .begin v = ready { s with
        session := { s.session with block := .active o, unnamed := none } }
          [.commandComplete "BEGIN"] := by
  obtain ⟨⟨block, pending, unnamed⟩, store, ran, ended⟩ := s
  obtain rfl : block = .idle := hs
  cases v with
  | reject fields => exact Or.inl ⟨fields, rfl⟩
  | accept rows => exact Or.inr rfl

/-! ## Parsing -/

theorem exec_parse_accept {s : Server ο α} (hs : ∀ p, s.session.block ≠ .failed p) (o : ο)
    (a : α) (rows : List (List (Option String))) :
    s.exec d o (.parse a) (.accept rows) =
      ready { s with session.unnamed := some a }
        [.parseComplete, .parameterDescription (List.replicate (d.params a) 0),
          .rowDescription (d.columns a)] := by
  obtain ⟨⟨block, pending, unnamed⟩, store, ran, ended⟩ := s
  cases block with
  | failed p => exact absurd rfl (hs p)
  | idle | active => rfl

theorem exec_parse_reject {s : Server ο α} (hs : ∀ p, s.session.block ≠ .failed p) (o : ο)
    (a : α) (fields : ErrorFields) :
    s.exec d o (.parse a) (.reject fields) = raise (s.dropUnnamed (.parse a)) fields := by
  obtain ⟨⟨block, pending, unnamed⟩, store, ran, ended⟩ := s
  cases block with
  | failed p => exact absurd rfl (hs p)
  | idle | active => rfl

end Server

end Pglite
