import Mathlib.Logic.Function.Basic

/-!
# Settings and transaction blocks

A session has settings, the role among them. What `SET` changes in a transaction block is kept by
`COMMIT` and undone by `ROLLBACK`, and what `SET LOCAL` changes ends with the block.

A session is `OpenedFrom` another when it is that one after a `BEGIN` and statements that change
settings for the block only. Whatever one more statement does then, `ROLLBACK` leads back
(`RollsBackTo`).
-/

namespace Pglite

/-- The settings in force, by name. -/
abbrev Settings := String → Option String

namespace Settings

structure Block where
  /-- The settings when the block was opened, which a rollback restores. -/
  entry : Settings
  /-- The settings that a commit leaves. -/
  keep : Settings
  failed : Bool

structure Session where
  cur : Settings
  block : Option Block

namespace Session

/-- The session is in a failed block. -/
def aborted (s : Session) : Bool :=
  s.block.any Block.failed

/-- `BEGIN` in a block is only a warning. -/
def begin (s : Session) : Session :=
  match s.block with
  | none => { s with block := some ⟨s.cur, s.cur, false⟩ }
  | some _ => s

/-- So is `ROLLBACK` outside of one. -/
def rollback (s : Session) : Session :=
  match s.block with
  | none => s
  | some b => ⟨b.entry, none⟩

/-- A failed block is rolled back. -/
def commit (s : Session) : Session :=
  match s.block with
  | none => s
  | some b => ⟨if b.failed then b.entry else b.keep, none⟩

/-- A statement fails. -/
def fail (s : Session) : Session :=
  { s with block := s.block.map fun b => { b with failed := true } }

/-- A statement changes the settings in force and the ones to keep. Outside of a block it is a
block of its own. -/
def change (f : Settings → Settings → Settings × Settings) (s : Session) : Session :=
  match s.block with
  | none => { s with cur := (f s.cur s.cur).2 }
  | some b => ⟨(f s.cur b.keep).1, some { b with keep := (f s.cur b.keep).2 }⟩

/-- `SET`. -/
def set (name : String) (v : Option String) : Session → Session :=
  change fun cur keep => (Function.update cur name v, Function.update keep name v)

/-- `SET LOCAL`. -/
def setLocal (name : String) (v : Option String) : Session → Session :=
  change fun cur keep => (Function.update cur name v, keep)

/-! ## Rolling back -/

/-- The session `s` is `g` after a `BEGIN`, and whatever has changed since ends with the block. -/
def OpenedFrom (s g : Session) : Prop :=
  g.block = none ∧ ∃ b, s.block = some b ∧ b.entry = g.cur ∧ b.keep = g.cur

/-- After a `ROLLBACK` the session `s` is `g`. -/
def RollsBackTo (s g : Session) : Prop :=
  g.block = none ∧ s.rollback = g

variable {s g : Session}

theorem eq_of_block_none (hs : s.block = none) {cur : Settings} (hcur : s.cur = cur) :
    s = ⟨cur, none⟩ := by
  cases s
  simp_all

theorem rollback_of_none (h : s.block = none) : s.rollback = s := by
  unfold rollback
  rw [h]

theorem rollsBackTo_self (h : s.block = none) : RollsBackTo s s :=
  ⟨h, rollback_of_none h⟩

theorem begin_openedFrom (h : s.block = none) : OpenedFrom s.begin s := by
  unfold begin
  rw [h]
  exact ⟨h, _, rfl, rfl, rfl⟩

namespace OpenedFrom

theorem rollsBackTo (h : OpenedFrom s g) : RollsBackTo s g := by
  obtain ⟨hg, b, hb, hentry, -⟩ := h
  refine ⟨hg, ?_⟩
  unfold rollback
  rw [hb]
  simp only [hentry]
  exact (eq_of_block_none hg rfl).symm

theorem fail (h : OpenedFrom s g) : OpenedFrom s.fail g := by
  obtain ⟨hg, b, hb, hentry, hkeep⟩ := h
  refine ⟨hg, { b with failed := true }, ?_, hentry, hkeep⟩
  unfold Session.fail
  rw [hb]
  rfl

theorem setLocal (h : OpenedFrom s g) (name : String) (v : Option String) :
    OpenedFrom (s.setLocal name v) g := by
  obtain ⟨hg, b, hb, hentry, hkeep⟩ := h
  refine ⟨hg, b, ?_, hentry, hkeep⟩
  unfold Session.setLocal change
  rw [hb]

theorem setLocal_cur (h : OpenedFrom s g) (name : String) (v : Option String) :
    (s.setLocal name v).cur = Function.update s.cur name v := by
  obtain ⟨hg, b, hb, -⟩ := h
  unfold Session.setLocal change
  rw [hb]

/-- Any statement but the end of the block. -/
theorem change_rollsBackTo (h : OpenedFrom s g) (f : Settings → Settings → Settings × Settings) :
    RollsBackTo (s.change f) g := by
  obtain ⟨hg, b, hb, hentry, -⟩ := h
  refine ⟨hg, ?_⟩
  unfold change rollback
  rw [hb]
  simp only [hentry]
  exact (eq_of_block_none hg rfl).symm

theorem commit_eq (h : OpenedFrom s g) : s.commit = g := by
  obtain ⟨hg, b, hb, hentry, hkeep⟩ := h
  unfold commit
  rw [hb]
  simp only [hentry, hkeep, ite_self]
  exact (eq_of_block_none hg rfl).symm

theorem begin_eq (h : OpenedFrom s g) : s.begin = s := by
  obtain ⟨-, b, hb, -⟩ := h
  unfold begin
  rw [hb]

end OpenedFrom

end Session

end Settings

end Pglite
