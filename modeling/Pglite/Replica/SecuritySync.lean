import Pglite.Replica.SecurityFingerprint

/-!
# Skipping the reconcile

`resync_security` compares the fingerprint of the catalog it has read with the one stored in
`_pglite_replica`, and reconciles only when they differ. That is right while the local state is
still the one the stored fingerprint was written for. A reconcile that fails half-way, a failing
`bump_security` and a table that `resync_schema` drops or creates change the local state and leave
the stored fingerprint as it is. `DROP TABLE ... CASCADE` also takes the policies of other tables
that mention the table.
-/

namespace Pglite.Replica

open Runs

/-! ## The model -/

/-- The local state and the stored fingerprint. `base` and `stale` are not in the program: the
catalog the fingerprint was stored for, and whether the local state has been changed since. -/
structure SecuritySync where
  db : LocalSecurity
  stored : String
  base : SecurityCatalog
  stale : Bool
  /-- The catalog of the last call of `resync_security`, if that returned `Ok`. -/
  returned : Option SecurityCatalog

/-- What goes wrong in a call. -/
inductive SecuritySync.Fault
  | none
  /-- Nothing is read, or the stored fingerprint is not. -/
  | introspect
  /-- The statement after the first `n` fails. -/
  | reconcile (n : Nat)
  /-- `bump_security` fails, before or after it took effect. -/
  | bump (took : Bool)
deriving DecidableEq

inductive SecuritySync.Event
  /-- `resync_security`, at a role poll or a DDL signal, reads this catalog. -/
  | resync (sec : SecurityCatalog) (fault : Fault)
  /-- `first_run` reconciles and stores the fingerprint without looking at the stored one. -/
  | firstRun (sec : SecurityCatalog) (fault : Fault)
  /-- `resync_schema` or `bootstrap_schema` drops or creates these tables, and the server drops these
  policies of other tables with them. -/
  | schema (tables : List TableKey) (lost : List (TableKey × String))

/-- Tables are dropped or created, and policies of other tables are dropped with them. -/
def LocalSecurity.reset (l : LocalSecurity) (tables : List TableKey)
    (lost : List (TableKey × String)) : LocalSecurity :=
  { l with tables := fun k =>
      if k ∈ tables then .fresh
      else { l.tables k with
        policies := (l.tables k).policies.filter fun p => decide ((k, p.name) ∉ lost) } }

/-- Some table of the catalog is dropped or created, or loses a policy. -/
def SecurityCatalog.touchedBy (sec : SecurityCatalog) (l : LocalSecurity) (tables : List TableKey)
    (lost : List (TableKey × String)) : Bool :=
  sec.tables.any fun t => decide (t.key ∈ tables) ||
    (l.tables t.key).policies.any fun p => decide ((t.key, p.name) ∈ lost)

namespace SecuritySync

def start (db : LocalSecurity) : SecuritySync where
  db := db
  stored := ""
  base := ⟨[], [], [], [], []⟩
  stale := true
  returned := none

/-- `reconcile_security` followed by `bump_security`. -/
def reconcile (s : SecuritySync) (sec : SecurityCatalog) : Fault → Option SecuritySync
  | .none =>
    (s.db.execAll (sec.reconcile s.db)).map fun db =>
      ⟨db, sec.fingerprint, sec, false, some sec⟩
  | .introspect => some { s with returned := .none }
  | .reconcile n =>
    (s.db.execAll ((sec.reconcile s.db).take n)).map fun db =>
      { s with db := db, stale := s.stale || decide (0 < n), returned := .none }
  | .bump true =>
    (s.db.execAll (sec.reconcile s.db)).map fun db =>
      ⟨db, sec.fingerprint, sec, false, .none⟩
  | .bump false =>
    (s.db.execAll (sec.reconcile s.db)).map fun db =>
      { s with db := db, stale := true, returned := .none }

/-- The fingerprint of the catalog is the stored one, so that `resync_security` returns at once. -/
def skips (s : SecuritySync) (sec : SecurityCatalog) (fault : Fault) : Bool :=
  decide (fault ≠ .introspect) && decide (sec.fingerprint = s.stored)

/-- The tables of a catalog are distinct, by the query that reads them. -/
def step (s : SecuritySync) : Event → Option SecuritySync
  | .resync sec fault =>
    if (sec.tables.map RlsFlag.key).Nodup then
      if s.skips sec fault then
        if fault = .none then some { s with returned := some sec } else none
      else s.reconcile sec fault
    else none
  | .firstRun sec fault =>
    if (sec.tables.map RlsFlag.key).Nodup then s.reconcile sec fault else none
  | .schema tables lost =>
    some { s with
      db := s.db.reset tables lost
      stale := s.stale || s.base.touchedBy s.db tables lost
      returned := none }

/-- Where `resync_security` skips the reconcile, the local state is the one that the stored
fingerprint was written for, and the catalog has the content of that one. -/
def SkipsRightly (s : SecuritySync) : Event → Prop
  | .resync sec fault => s.skips sec fault = true → s.stale = false ∧ s.base.Same sec
  | _ => True

instance SkipsRightly.decidable (s : SecuritySync) : ∀ e, Decidable (s.SkipsRightly e)
  | .resync sec fault =>
    inferInstanceAs (Decidable (s.skips sec fault = true → s.stale = false ∧ s.base.Same sec))
  | .firstRun _ _ | .schema _ _ => .isTrue trivial

/-- When `resync_security` has returned `Ok`, the local state is in line with the catalog it has
read. -/
def InLine (s : SecuritySync) : Prop :=
  ∀ sec, s.returned = some sec → sec.Established s.db

/-! ## The invariant -/

structure Inv (s : SecuritySync) : Prop where
  sound : s.db.Sound
  base : s.stale = false → s.base.Established s.db
  inLine : s.InLine

theorem Inv.reconcile {s s' : SecuritySync} {sec : SecurityCatalog} {fault : Fault} (h : s.Inv)
    (hnodup : (sec.tables.map RlsFlag.key).Nodup) (hstep : s.reconcile sec fault = some s') :
    s'.Inv := by
  have hnone : ∀ {s : SecuritySync}, s.returned = none → s.InLine := by
    intro s hs sec hsec
    rw [hs] at hsec
    cases hsec
  cases fault with
  | none =>
    obtain ⟨db, hdb, rfl⟩ := Option.map_eq_some_iff.1 hstep
    have hest := SecurityCatalog.reconcile_establishes h.sound hnodup hdb
    refine ⟨h.sound.execAll hdb, fun _ => hest, fun sec' hsec' => ?_⟩
    exact Option.some.inj hsec' ▸ hest
  | introspect =>
    obtain rfl := Option.some.inj hstep
    exact ⟨h.sound, h.base, hnone rfl⟩
  | reconcile n =>
    obtain ⟨db, hdb, rfl⟩ := Option.map_eq_some_iff.1 hstep
    refine ⟨h.sound.execAll hdb, fun hstale => ?_, hnone rfl⟩
    obtain ⟨hold, hn⟩ := Bool.or_eq_false_iff.1 hstale
    -- Not a single statement was executed.
    obtain rfl : n = 0 := by simpa using hn
    obtain rfl := Option.some.inj hdb
    exact h.base hold
  | bump took =>
    cases took with
    | true =>
      obtain ⟨db, hdb, rfl⟩ := Option.map_eq_some_iff.1 hstep
      have hest := SecurityCatalog.reconcile_establishes h.sound hnodup hdb
      exact ⟨h.sound.execAll hdb, fun _ => hest, hnone rfl⟩
    | false =>
      obtain ⟨db, hdb, rfl⟩ := Option.map_eq_some_iff.1 hstep
      exact ⟨h.sound.execAll hdb, fun hstale => absurd hstale (by simp), hnone rfl⟩

/-- Tables that are not in the catalog may come and go, with policies of such tables. -/
theorem established_reset {sec : SecurityCatalog} {l : LocalSecurity} {tables : List TableKey}
    {lost : List (TableKey × String)} (h : sec.Established l)
    (hother : sec.touchedBy l tables lost = false) : sec.Established (l.reset tables lost) := by
  have hsame : ∀ t ∈ sec.tables, (l.reset tables lost).tables t.key = l.tables t.key := by
    intro t ht
    have hnot := List.any_eq_false.1 hother t ht
    rw [Bool.or_eq_true, not_or, decide_eq_true_iff] at hnot
    have hkept : (l.tables t.key).policies.filter (fun p => decide ((t.key, p.name) ∉ lost)) =
        (l.tables t.key).policies := by
      refine List.filter_eq_self.2 fun p hp => decide_eq_true fun hlost => hnot.2 ?_
      exact List.any_eq_true.2 ⟨p, hp, decide_eq_true hlost⟩
    simp only [LocalSecurity.reset, if_neg hnot.1, hkept]
  refine ⟨h.members, fun t ht => ?_, fun t ht g => ?_, fun t ht p => ?_⟩
  · rw [hsame t ht]
    exact h.rls t ht
  · rw [hsame t ht]
    exact h.select t ht g
  · rw [hsame t ht]
    exact h.policies t ht p

theorem sound_reset {l : LocalSecurity} (h : l.Sound) (tables : List TableKey)
    (lost : List (TableKey × String)) : (l.reset tables lost).Sound := by
  intro t name hselect
  simp only [LocalSecurity.reset] at hselect
  split_ifs at hselect
  · cases hselect
  · exact h t name hselect

/-- **Step lemma.** Where the reconcile is skipped rightly, the local state stays tied to the
stored fingerprint. -/
theorem Inv.step {s s' : SecuritySync} {e : Event} (h : s.Inv) (hok : s.SkipsRightly e)
    (hstep : SecuritySync.step s e = some s') : s'.Inv := by
  cases e with
  | resync sec fault =>
    rw [SecuritySync.step] at hstep
    split_ifs at hstep with hnodup hskip hfault
    · obtain rfl := Option.some.inj hstep
      obtain ⟨hstale, hsame⟩ := hok hskip
      refine ⟨h.sound, h.base, fun sec' hsec' => ?_⟩
      obtain rfl := Option.some.inj hsec'
      exact hsame.established (h.base hstale)
    · exact h.reconcile hnodup hstep
  | firstRun sec fault =>
    rw [SecuritySync.step] at hstep
    split_ifs at hstep with hnodup
    exact h.reconcile hnodup hstep
  | schema tables lost =>
    obtain rfl := Option.some.inj hstep
    refine ⟨sound_reset h.sound tables lost, fun hstale => ?_, fun sec hsec => by cases hsec⟩
    obtain ⟨hstale, hother⟩ := Bool.or_eq_false_iff.1 hstale
    exact established_reset (h.base hstale) hother

end SecuritySync

/-- **Theorem.** Whenever `resync_security` returns `Ok` the local state is what
`reconcile_security` establishes for the catalog it has read, as long as it skips the reconcile
only where nothing has changed the local state since the stored fingerprint was written, and for a
catalog with the content of the one it was written for. -/
theorem security_in_line {db : LocalSecurity} (hsound : db.Sound) {t : SecuritySync}
    (es : List SecuritySync.Event)
    (hok : Guarded SecuritySync.step SecuritySync.SkipsRightly (.start db) es)
    (hrun : run SecuritySync.step (.start db) es = some t) : t.InLine := by
  have hstart : (SecuritySync.start db).Inv :=
    ⟨hsound, fun hstale => absurd hstale (by simp [SecuritySync.start]),
      fun sec hsec => by cases hsec⟩
  exact (run_invariant (fun _ _ _ h hok hstep => h.step hok hstep) hstart hok hrun).inLine

/-- One role, and one published table which it may read. -/
def SecurityCatalog.notes (rls : Bool) : SecurityCatalog where
  roles := [⟨"app", true⟩]
  memberships := []
  tables := [⟨"public", "notes", rls, false⟩]
  grants := [⟨"public", "notes", "app"⟩]
  policies := []

/-- A database without security. -/
def LocalSecurity.empty : LocalSecurity where
  builtin := ["postgres", "pg_monitor"]
  roles := []
  members := []
  tables _ := .fresh

/-- A reconcile fails half-way and the next one does not, and after that one is skipped. -/
theorem security_in_line_retry :
    ∃ t, run SecuritySync.step (.start .empty)
        [.firstRun (.notes true) .none, .resync (.notes false) (.reconcile 3),
          .resync (.notes false) .none, .schema [("public", "other")] [(("public", "archive"), "readers")],
          .resync (.notes false) .none] = some t ∧
      t.returned = some (.notes false) ∧ t.InLine := by
  have h : (run SecuritySync.step (.start .empty)
      [.firstRun (.notes true) .none, .resync (.notes false) (.reconcile 3),
        .resync (.notes false) .none, .schema [("public", "other")] [(("public", "archive"), "readers")],
        .resync (.notes false) .none]).map SecuritySync.returned = some (some (.notes false)) := by
    decide +kernel
  obtain ⟨t, hrun, ht⟩ := Option.map_eq_some_iff.1 h
  exact ⟨t, hrun, ht,
    security_in_line (fun _ _ hselect => by cases hselect) _ (by decide +kernel) hrun⟩

/-- A dropped table takes the policy of another with it, and the next call reads what it read
before. -/
example :
    let sec := { SecurityCatalog.notes true with
      policies := [⟨"public", "notes", "members", true, "SELECT", ["app"], some "is_member()", none⟩] }
    (run SecuritySync.step (.start .empty)
      [.firstRun sec .none, .schema [("public", "members")] [(("public", "notes"), "members")],
        .resync sec .none]).map
        (fun t => (t.returned.isSome, (t.db.tables ("public", "notes")).policies)) =
      some (true, []) := by
  decide +kernel

/-- Row level security is disabled upstream, the reconcile fails after it has disabled it here,
and the upstream goes back to what it was: the fingerprint is the stored one. -/
theorem security_out_of_line :
    ¬ ∀ (db : LocalSecurity) (es : List SecuritySync.Event) (t : SecuritySync),
      db.Sound → run SecuritySync.step (.start db) es = some t → t.InLine := by
  intro h
  have hrun : (run SecuritySync.step (.start .empty)
      [.firstRun (.notes true) .none, .resync (.notes false) (.reconcile 3),
        .resync (.notes true) .none]).map
        (fun t => (t.returned, (t.db.tables ("public", "notes")).rls)) =
      some (some (.notes true), false) := by
    decide +kernel
  obtain ⟨t, ht, hmap⟩ := Option.map_eq_some_iff.1 hrun
  obtain ⟨hreturned, hrls⟩ := Prod.mk.inj hmap
  have hin := h .empty _ t (fun _ _ hselect => by cases hselect) ht _ hreturned
  have hnotes := (hin.rls ⟨"public", "notes", true, false⟩ (by decide)).1
  exact absurd (hrls.symm.trans hnotes) (by decide)

end Pglite.Replica
