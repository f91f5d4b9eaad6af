import Mathlib.Data.List.Nodup
import Mathlib.Data.Set.Insert
import Mathlib.Logic.Relation
import Pglite.Replica.SecuritySync

/-!
# Exposure while reconciling

The statements of `reconcile_security` take effect one by one, so other sessions see every state
between the old catalog and the new one, and a failure leaves one of them behind. What a role may
see in such a state is put together from memberships, flags, grants and policies of both catalogs.

`Between` lists the states that matter: revoking and granting memberships one by one, the new flag
under the old grants and policies, and the new grants under what is left of the old policies or
what is there of the new ones. All the others show no more than one of these, and a reconcile that
comes to its end goes through all of these. So nothing is exposed exactly when none of them shows
a row that neither catalog shows, and for this it is enough to look at the least rows that a role
sees there (`LeastSeen`).
-/

namespace Pglite.Replica

open Runs

/-! ## Visibility -/

/-- The role is the group, or a member of it, directly or through other groups. -/
def MemberOf (members : List Membership) : String → String → Prop :=
  Relation.ReflTransGen fun role grp => ∃ m ∈ members, m.member = role ∧ m.grp = grp

namespace PolicyDef

def forSelect (p : PolicyDef) : Bool :=
  p.cmd == "SELECT" || p.cmd == "ALL"

/-- The policy is for the role. -/
def AppliesTo (p : PolicyDef) (members : List Membership) (role : String) : Prop :=
  p.forAll = true ∨ ∃ grp ∈ p.roles, MemberOf members role grp

/-- A permissive policy that lets the role `SELECT` rows. -/
def Permits (p : PolicyDef) (members : List Membership) (role : String) : Prop :=
  p.permissive = true ∧ p.forSelect = true ∧ p.AppliesTo members role

/-- A restrictive policy that keeps rows from the role. -/
def Restricts (p : PolicyDef) (members : List Membership) (role : String) : Prop :=
  p.permissive = false ∧ p.forSelect = true ∧ p.AppliesTo members role

end PolicyDef

/-- The role, a role it is a member of or `PUBLIC` holds `SELECT`. -/
def Holds (members : List Membership) (ts : TableSecurity) (role : String) : Prop :=
  ts.select .everyone = true ∨ ∃ grp, MemberOf members role grp ∧ ts.select (.role grp) = true

/-- The role sees the row: it may `SELECT`, and row level security is off or lets the row pass.
To the policies a row is the set of those expressions that hold of it for the role. A policy
without `USING` admits no row and restricts none. -/
structure Sees (members : List Membership) (ts : TableSecurity) (role : String)
    (row : Set String) : Prop where
  holds : Holds members ts role
  passes : ts.rls = false ∨
    (∃ p ∈ ts.policies, p.Permits members role ∧ ∃ e, p.usingExpr = some e ∧ e ∈ row) ∧
      ∀ q ∈ ts.policies, q.Restricts members role → ∀ e, q.usingExpr = some e → e ∈ row

/-- The role may see the row of the table under the catalog. -/
def SecurityCatalog.Shows (sec : SecurityCatalog) (k : TableKey) (role : String)
    (row : Set String) : Prop :=
  ∃ t ∈ sec.tables, t.key = k ∧ Sees sec.memberships (sec.tableSecurity t) role row

/-- The role sees the row of the table in the local database. -/
def LocalSecurity.Shows (l : LocalSecurity) (k : TableKey) (role : String)
    (row : Set String) : Prop :=
  Sees l.members (l.tables k) role row

/-- The role is here, or in the catalog. -/
def SecurityCatalog.Replicates (sec : SecurityCatalog) (l : LocalSecurity) (role : String) : Prop :=
  role ∈ l.roleNames ∨ role ∈ sec.roleNames

/-- The roles see nothing of the published tables on the way from the old catalog to the new one
that they do not see under one of the two. -/
def ExposesNothing (old new : SecurityCatalog) (l : LocalSecurity) : Prop :=
  Along LocalSecurity.exec (fun l' => ∀ t ∈ new.tables, ∀ role, new.Replicates l role → ∀ row,
    l'.Shows t.key role row → old.Shows t.key role row ∨ new.Shows t.key role row) l
    (new.reconcile l)

/-! ## Least rows -/

section Least

variable {members : List Membership} {ts ts' : TableSecurity} {role : String} {row : Set String}

/-- The expressions of the restrictive policies that are for the role. -/
def restrictions (members : List Membership) (ts : TableSecurity) (role : String) : Set String :=
  {e | ∃ q ∈ ts.policies, q.Restricts members role ∧ q.usingExpr = some e}

/-- The least rows that the role sees: one for each permissive policy that is for it. -/
inductive LeastSeen (members : List Membership) (ts : TableSecurity) (role : String) :
    Set String → Prop
  | any (hholds : Holds members ts role) (hrls : ts.rls = false) : LeastSeen members ts role ∅
  | policy {p : PolicyDef} {e : String} (hholds : Holds members ts role) (hrls : ts.rls = true)
      (hp : p ∈ ts.policies) (hpermits : p.Permits members role) (he : p.usingExpr = some e) :
      LeastSeen members ts role (insert e (restrictions members ts role))

theorem Sees.mono {row' : Set String} (h : Sees members ts role row) (hsub : row ⊆ row') :
    Sees members ts role row' where
  holds := h.holds
  passes := h.passes.imp_right fun ⟨⟨p, hp, hpermits, e, he, hrow⟩, hall⟩ =>
    ⟨⟨p, hp, hpermits, e, he, hsub hrow⟩, fun q hq hr e he => hsub (hall q hq hr e he)⟩

/-- With fewer grants no more is seen. `FORCE ROW LEVEL SECURITY` is for the owner of a table
only. -/
theorem Sees.grants (h : Sees members ts role row) (hrls : ts'.rls = ts.rls)
    (hselect : ∀ g, ts.select g = true → ts'.select g = true)
    (hpolicies : ts'.policies = ts.policies) : Sees members ts' role row where
  holds := h.holds.imp (hselect _) fun ⟨grp, hmem, hgrp⟩ => ⟨grp, hmem, hselect _ hgrp⟩
  passes := by
    rw [hrls, hpolicies]
    exact h.passes

theorem LeastSeen.sees (h : LeastSeen members ts role row) : Sees members ts role row := by
  cases h with
  | any hholds hrls => exact ⟨hholds, .inl hrls⟩
  | policy hholds hrls hp hpermits he =>
    exact ⟨hholds, .inr ⟨⟨_, hp, hpermits, _, he, Set.mem_insert _ _⟩,
      fun q hq hr e' he' => Set.mem_insert_of_mem _ ⟨q, hq, hr, he'⟩⟩⟩

theorem Sees.least (h : Sees members ts role row) :
    ∃ row', LeastSeen members ts role row' ∧ row' ⊆ row := by
  cases hrls : ts.rls with
  | false => exact ⟨∅, .any h.holds hrls, Set.empty_subset _⟩
  | true =>
    rcases h.passes with hoff | ⟨⟨p, hp, hpermits, e, he, hrow⟩, hall⟩
    · exact absurd (hoff.symm.trans hrls) (by decide)
    · refine ⟨_, .policy h.holds hrls hp hpermits he, Set.insert_subset hrow ?_⟩
      rintro e' ⟨q, hq, hr, he'⟩
      exact hall q hq hr e' he'

/-- What is seen depends on the memberships and policies that there are, not on their order. -/
theorem Sees.congr {members' : List Membership} (h : Sees members ts role row)
    (hmembers : ∀ m, m ∈ members ↔ m ∈ members') (hrls : ts'.rls = ts.rls)
    (hselect : ∀ g, ts'.select g = true ↔ ts.select g = true)
    (hpolicies : ∀ p, p ∈ ts'.policies ↔ p ∈ ts.policies) : Sees members' ts' role row := by
  have hmem : MemberOf members' = MemberOf members := by
    unfold MemberOf
    simp only [hmembers]
  have happlies : ∀ p : PolicyDef, p.AppliesTo members' role ↔ p.AppliesTo members role := by
    intro p
    unfold PolicyDef.AppliesTo
    rw [hmem]
  refine ⟨?_, ?_⟩
  · have hholds := h.holds
    unfold Holds at hholds ⊢
    simpa only [hselect, hmem] using hholds
  · rw [hrls]
    refine h.passes.imp_right fun ⟨⟨p, hp, hpermits, hrow⟩, hall⟩ => ⟨?_, fun q hq hr => ?_⟩
    · exact ⟨p, (hpolicies p).2 hp, ⟨hpermits.1, hpermits.2.1, (happlies p).2 hpermits.2.2⟩, hrow⟩
    · exact hall q ((hpolicies q).1 hq) ⟨hr.1, hr.2.1, (happlies q).1 hr.2.2⟩

end Least

/-! ## The states in between -/

/-- What is left of the memberships when the first `n` are revoked. -/
def revoked (members : List Membership) (n : Nat) : List Membership :=
  members.filter fun m =>
    decide (∀ m' ∈ members.take n, ¬ (m.grp = m'.grp ∧ m.member = m'.member))

/-- The states in the turn of a table. -/
inductive InTurn (old new : TableSecurity) : TableSecurity → Prop
  | flagged : InTurn old new { old with rls := new.rls, forced := new.forced }
  | dropped (n : Nat) : InTurn old new { new with policies := old.policies.drop n }
  | created (n : Nat) : InTurn old new { new with policies := new.policies.take n }

/-- The states between the old security of a table and the new one. -/
inductive Between (oldMembers : List Membership) (old : TableSecurity)
    (newMembers : List Membership) (new : TableSecurity) :
    List Membership → TableSecurity → Prop
  | revoking (n : Nat) : Between oldMembers old newMembers new (revoked oldMembers n) old
  | granting (n : Nat) : Between oldMembers old newMembers new (newMembers.take n) old
  | turn {ts : TableSecurity} (h : InTurn old new ts) :
      Between oldMembers old newMembers new newMembers ts

/-- In no state between the old security of the table and the new one does a role see a least row
that it sees under neither. -/
def SecurityCatalog.Calm (sec : SecurityCatalog) (l : LocalSecurity) (t : RlsFlag) : Prop :=
  ∀ members ts,
    Between l.members (l.tables t.key) sec.memberships (sec.tableSecurity t) members ts →
    ∀ role, sec.Replicates l role → ∀ row, LeastSeen members ts role row →
      Sees l.members (l.tables t.key) role row ∨
        Sees sec.memberships (sec.tableSecurity t) role row

/-- What is seen in this state is seen in one of those in between. -/
def SeenBetween (oldMembers : List Membership) (old : TableSecurity)
    (newMembers : List Membership) (new : TableSecurity) (members : List Membership)
    (ts : TableSecurity) : Prop :=
  ∀ role row, Sees members ts role row →
    ∃ members' ts', Between oldMembers old newMembers new members' ts' ∧
      Sees members' ts' role row

theorem Between.seen {oldMembers newMembers members : List Membership} {old new ts ts' : TableSecurity}
    (h : Between oldMembers old newMembers new members ts') (hrls : ts'.rls = ts.rls)
    (hselect : ∀ g, ts.select g = true → ts'.select g = true)
    (hpolicies : ts'.policies = ts.policies) :
    SeenBetween oldMembers old newMembers new members ts :=
  fun _ _ hsees => ⟨members, ts', h, hsees.grants hrls hselect hpolicies⟩

theorem between_old {oldMembers newMembers : List Membership} {old new : TableSecurity} :
    Between oldMembers old newMembers new oldMembers old := by
  have h : Between oldMembers old newMembers new (revoked oldMembers 0) old := .revoking 0
  rwa [show revoked oldMembers 0 = oldMembers from
    List.filter_eq_self.2 fun m _ => decide_eq_true (by simp)] at h

theorem between_granted {oldMembers newMembers : List Membership} {old new : TableSecurity} :
    Between oldMembers old newMembers new newMembers old := by
  have h : Between oldMembers old newMembers new (newMembers.take newMembers.length) old :=
    .granting _
  rwa [List.take_length] at h

theorem between_new {oldMembers newMembers : List Membership} {old new : TableSecurity} :
    Between oldMembers old newMembers new newMembers new := by
  have h : Between oldMembers old newMembers new newMembers
      { new with policies := new.policies.take new.policies.length } := .turn (.created _)
  rwa [List.take_length] at h

/-! ## The turn of a table -/

section Turn

variable {sec : SecurityCatalog} {grantee hasRole : String → Bool} {have_ : List String} {t : RlsFlag}
  {oldMembers : List Membership} {old ts : TableSecurity}

/-- After the old grants are revoked, the grants are the new ones. -/
theorem select_granted {select : Grantee → Bool} {gs : List Grantee}
    (hknown : ∀ name, select (.role name) = true → name ∈ have_) :
    (fun g => (select g && decide (g ∉ .everyone :: have_.map Grantee.role)) || decide (g ∈ gs)) =
      fun g => decide (g ∈ gs) := by
  funext g
  rw [SecurityCatalog.revoked_from_all hknown, Bool.false_or]

/-- The statements on the flags. -/
theorem seen_rlsStmts :
    Along (TableSecurity.exec grantee hasRole)
      (SeenBetween oldMembers old sec.memberships (sec.tableSecurity t) sec.memberships) old
      (SecurityCatalog.rlsStmts t) := by
  have hway : Along (TableSecurity.exec grantee hasRole) (fun ts => ts.select = old.select ∧
      ts.policies = old.policies ∧ (ts.rls = old.rls ∨ ts.rls = t.enabled)) old
      (SecurityCatalog.rlsStmts t) := by
    refine along_invariant ?_ ⟨rfl, rfl, .inl rfl⟩
    rintro ts stmt ts' ⟨hselect, hpolicies, hrls⟩ hmem hexec
    unfold SecurityCatalog.rlsStmts at hmem
    split_ifs at hmem with henabled
    · rcases List.mem_pair.1 hmem with rfl | rfl <;> obtain rfl := Option.some.inj hexec
      · exact ⟨hselect, hpolicies, .inr henabled.symm⟩
      · exact ⟨hselect, hpolicies, hrls⟩
    · rcases List.mem_pair.1 hmem with rfl | rfl <;> obtain rfl := Option.some.inj hexec
      · exact ⟨hselect, hpolicies, hrls⟩
      · exact ⟨hselect, hpolicies, .inr (Bool.eq_false_iff.2 henabled).symm⟩
  refine hway.mono fun ts hts => ?_
  obtain ⟨hselect, hpolicies, hrls | hrls⟩ := hts
  · exact between_granted.seen hrls.symm (fun g hg => hselect ▸ hg) hpolicies.symm
  · exact (Between.turn .flagged).seen hrls.symm (fun g hg => hselect ▸ hg) hpolicies.symm

/-- Grants are withdrawn. -/
theorem seen_revokeStmts (hrls : ts.rls = t.enabled) (hselect : ts.select = old.select)
    (hpolicies : ts.policies = old.policies) :
    Along (TableSecurity.exec grantee hasRole)
      (SeenBetween oldMembers old sec.memberships (sec.tableSecurity t) sec.memberships) ts
      (SecurityCatalog.revokeStmts have_) := by
  have hway : Along (TableSecurity.exec grantee hasRole) (fun ts => ts.rls = t.enabled ∧
      (∀ g, ts.select g = true → old.select g = true) ∧ ts.policies = old.policies) ts
      (SecurityCatalog.revokeStmts have_) := by
    refine along_invariant ?_ ⟨hrls, fun g hg => hselect ▸ hg, hpolicies⟩
    rintro ts stmt ts' ⟨hrls, hselect, hpolicies⟩ hmem hexec
    obtain ⟨g, -, rfl⟩ := List.mem_map.1 hmem
    rw [TableSecurity.exec] at hexec
    split_ifs at hexec
    obtain rfl := Option.some.inj hexec
    refine ⟨hrls, fun g' hg' => ?_, hpolicies⟩
    by_cases hg : g' = g
    · subst hg
      simp at hg'
    · exact hselect g' (by simpa [hg] using hg')
  refine hway.mono fun ts hts => ?_
  obtain ⟨hrls, hselect, hpolicies⟩ := hts
  exact (Between.turn .flagged).seen hrls.symm hselect hpolicies.symm

/-- Grants are made. -/
theorem seen_grantStmts (hrls : ts.rls = t.enabled) (hselect : ∀ g, ts.select g = false)
    (hpolicies : ts.policies = old.policies) :
    Along (TableSecurity.exec grantee hasRole)
      (SeenBetween oldMembers old sec.memberships (sec.tableSecurity t) sec.memberships) ts
      ((sec.granteesOn t.key).map .grantSelect) := by
  have hway : Along (TableSecurity.exec grantee hasRole) (fun ts => ts.rls = t.enabled ∧
      (∀ g, ts.select g = true → g ∈ sec.granteesOn t.key) ∧ ts.policies = old.policies) ts
      ((sec.granteesOn t.key).map .grantSelect) := by
    refine along_invariant ?_ ⟨hrls, fun g hg => absurd (hg.symm.trans (hselect g)) (by decide),
      hpolicies⟩
    rintro ts stmt ts' ⟨hrls, hselect, hpolicies⟩ hmem hexec
    obtain ⟨g, hgrantee, rfl⟩ := List.mem_map.1 hmem
    rw [TableSecurity.exec] at hexec
    split_ifs at hexec
    obtain rfl := Option.some.inj hexec
    refine ⟨hrls, fun g' hg' => ?_, hpolicies⟩
    by_cases hg : g' = g
    · exact hg ▸ hgrantee
    · exact hselect g' (by simpa [hg] using hg')
  refine hway.mono fun ts hts => ?_
  obtain ⟨hrls, hselect, hpolicies⟩ := hts
  exact (Between.turn (.dropped 0)).seen hrls.symm (fun g hg => decide_eq_true (hselect g hg))
    hpolicies.symm

/-- Dropping the first policies by name leaves the others. -/
theorem filter_names_take {ps : List PolicyDef} (hnames : (ps.map PolicyDef.name).Nodup) (n : Nat) :
    ps.filter (fun p => decide (p.name ∉ (ps.take n).map PolicyDef.name)) = ps.drop n := by
  have hsplit := List.take_append_drop n ps
  have hdisjoint : ∀ p ∈ ps.drop n, p.name ∉ (ps.take n).map PolicyDef.name := by
    intro p hp hmem
    rw [← hsplit, List.map_append, List.nodup_append] at hnames
    exact hnames.2.2 _ hmem _ (List.mem_map_of_mem hp) rfl
  generalize hdropped : (ps.take n).map PolicyDef.name = dropped at hdisjoint
  have hfirst : (ps.take n).filter (fun p => decide (p.name ∉ dropped)) = [] := by
    refine List.filter_eq_nil_iff.2 fun p hp => ?_
    have hname : p.name ∈ dropped := hdropped ▸ List.mem_map_of_mem hp
    simpa using hname
  have hrest : (ps.drop n).filter (fun p => decide (p.name ∉ dropped)) = ps.drop n :=
    List.filter_eq_self.2 fun p hp => decide_eq_true (hdisjoint p hp)
  calc ps.filter (fun p => decide (p.name ∉ dropped))
      = (ps.take n ++ ps.drop n).filter (fun p => decide (p.name ∉ dropped)) := by rw [hsplit]
    _ = ps.drop n := by rw [List.filter_append, hfirst, hrest, List.nil_append]

/-- The state after the flags and the grants, and after the first `n` policies are dropped. -/
theorem run_dropped (hknown : ∀ name, old.select (.role name) = true → name ∈ have_)
    (hnames : (old.policies.map PolicyDef.name).Nodup) {n : Nat}
    (h : run (TableSecurity.exec grantee hasRole) old
      (SecurityCatalog.rlsStmts t ++ SecurityCatalog.revokeStmts have_ ++
        (sec.granteesOn t.key).map .grantSelect ++
        SecurityCatalog.dropStmts (old.policies.take n)) = some ts) :
    ts = { sec.tableSecurity t with policies := old.policies.drop n } := by
  obtain ⟨ts₃, h, hdrop⟩ := run_append_eq_some.1 h
  obtain ⟨ts₂, h, hgrant⟩ := run_append_eq_some.1 h
  obtain ⟨ts₁, hrls, hrevoke⟩ := run_append_eq_some.1 h
  rw [TableSecurity.run_dropStmts.1 hdrop, (TableSecurity.run_grantSelect.1 hgrant).2,
    (TableSecurity.run_revokeSelect.1 hrevoke).2, TableSecurity.run_rlsStmts.1 hrls]
  simp only [select_granted hknown, filter_names_take hnames]
  rfl

/-- The state after the first `n` policies are created. -/
theorem run_created (hknown : ∀ name, old.select (.role name) = true → name ∈ have_) {n : Nat}
    (h : run (TableSecurity.exec grantee hasRole) old
      (SecurityCatalog.rlsStmts t ++ SecurityCatalog.revokeStmts have_ ++
        (sec.granteesOn t.key).map .grantSelect ++ SecurityCatalog.dropStmts old.policies ++
        ((sec.policiesOn t.key).take n).map .createPolicy) = some ts) :
    ts = { sec.tableSecurity t with policies := (sec.policiesOn t.key).take n } := by
  obtain ⟨ts₄, h, hcreate⟩ := run_append_eq_some.1 h
  obtain ⟨ts₃, h, hdrop⟩ := run_append_eq_some.1 h
  obtain ⟨ts₂, h, hgrant⟩ := run_append_eq_some.1 h
  obtain ⟨ts₁, hrls, hrevoke⟩ := run_append_eq_some.1 h
  rw [(TableSecurity.run_createPolicy.1 hcreate).2, TableSecurity.run_dropStmts.1 hdrop,
    (TableSecurity.run_grantSelect.1 hgrant).2, (TableSecurity.run_revokeSelect.1 hrevoke).2,
    TableSecurity.run_rlsStmts.1 hrls]
  simp only [select_granted hknown, SecurityCatalog.dropped_all, List.nil_append]
  rfl

/-- What is seen at any point of the turn of a table. -/
theorem seen_tableStmts (hknown : ∀ name, old.select (.role name) = true → name ∈ have_)
    (hnames : (old.policies.map PolicyDef.name).Nodup) :
    Along (TableSecurity.exec grantee hasRole)
      (SeenBetween oldMembers old sec.memberships (sec.tableSecurity t) sec.memberships) old
      (sec.tableStmts have_ old.policies t) := by
  refine ((((seen_rlsStmts.append fun ts₁ h₁ => ?_).append fun ts₂ h₂ => ?_).append
    fun ts₃ h₃ => ?_).append fun ts₄ h₄ => ?_)
  · obtain rfl := TableSecurity.run_rlsStmts.1 h₁
    exact seen_revokeStmts rfl rfl rfl
  · obtain ⟨ts₁, h₁, h₂⟩ := run_append_eq_some.1 h₂
    obtain rfl := TableSecurity.run_rlsStmts.1 h₁
    obtain rfl := (TableSecurity.run_revokeSelect.1 h₂).2
    exact seen_grantStmts rfl (SecurityCatalog.revoked_from_all hknown) rfl
  · intro stmts ts hstmts hrun
    obtain ⟨ps, ⟨rest, hps⟩, rfl⟩ := List.prefix_map_iff.1 hstmts
    have htake : ps = old.policies.take ps.length := by rw [← hps, List.take_left]
    rw [htake] at hrun
    rw [run_dropped hknown hnames (run_append_eq_some.2 ⟨ts₃, h₃, hrun⟩)]
    exact (Between.turn (.dropped _)).seen rfl (fun _ => id) rfl
  · intro stmts ts hstmts hrun
    obtain ⟨ps, ⟨rest, hps⟩, rfl⟩ := List.prefix_map_iff.1 hstmts
    have htake : ps = (sec.policiesOn t.key).take ps.length := by rw [← hps, List.take_left]
    rw [htake] at hrun
    rw [run_created hknown (run_append_eq_some.2 ⟨ts₄, h₄, hrun⟩)]
    exact (Between.turn (.created _)).seen rfl (fun _ => id) rfl

/-- A turn that comes to its end goes through all of the states. -/
theorem InTurn.reached (hknown : ∀ name, old.select (.role name) = true → name ∈ have_)
    (hnames : (old.policies.map PolicyDef.name).Nodup) {ts' : TableSecurity}
    (h : InTurn old (sec.tableSecurity t) ts)
    (hrun : run (TableSecurity.exec grantee hasRole) old (sec.tableStmts have_ old.policies t) = some ts') :
    ∃ stmts, stmts <+: sec.tableStmts have_ old.policies t ∧
      run (TableSecurity.exec grantee hasRole) old stmts = some ts := by
  have hreach : ∀ stmts, stmts <+: sec.tableStmts have_ old.policies t →
      (∀ ts₁, run (TableSecurity.exec grantee hasRole) old stmts = some ts₁ → ts₁ = ts) →
      ∃ stmts, stmts <+: sec.tableStmts have_ old.policies t ∧
        run (TableSecurity.exec grantee hasRole) old stmts = some ts := by
    intro stmts hstmts hstate
    obtain ⟨ts₁, hts₁⟩ := run_prefix hrun hstmts
    exact ⟨stmts, hstmts, hstate ts₁ hts₁ ▸ hts₁⟩
  cases h with
  | flagged =>
    refine hreach (SecurityCatalog.rlsStmts t) ?_ fun ts₁ h₁ => TableSecurity.run_rlsStmts.1 h₁
    unfold SecurityCatalog.tableStmts
    simp only [List.append_assoc]
    exact List.prefix_append _ _
  | dropped n =>
    refine hreach _ ?_ fun ts₁ h₁ => run_dropped hknown hnames h₁
    refine .trans ?_ (List.prefix_append _ _)
    exact (List.prefix_append_right_inj _).2 ((List.take_prefix n _).map _)
  | created n =>
    refine hreach _ ?_ fun ts₁ h₁ => run_created hknown h₁
    exact (List.prefix_append_right_inj _).2 ((List.take_prefix n _).map _)

end Turn

/-! ## The whole reconcile -/

section Whole

variable {sec : SecurityCatalog} {l : LocalSecurity} {k : TableKey} {t : RlsFlag}

/-- A statement on another table. -/
theorem exec_other {l l' : LocalSecurity} {k k' : TableKey} (hne : k ≠ k') {stmt : TableStmt}
    (h : l.exec (.table k' stmt) = some l') :
    l'.members = l.members ∧ l'.tables k = l.tables k := by
  obtain ⟨ts, -, rfl⟩ := Option.map_eq_some_iff.1 h
  exact ⟨rfl, Function.update_of_ne hne _ _⟩

/-- The turns of the other tables. -/
theorem along_others {stmts : List SecurityStmt}
    (h : ∀ stmt ∈ stmts, ∃ k' s, k ≠ k' ∧ stmt = .table k' s) :
    Along LocalSecurity.exec (fun l' => l'.members = l.members ∧ l'.tables k = l.tables k) l
      stmts := by
  refine along_invariant ?_ ⟨rfl, rfl⟩
  rintro l₁ stmt l₂ ⟨hmembers, htable⟩ hmem hexec
  obtain ⟨k', s, hne, rfl⟩ := h stmt hmem
  obtain ⟨hmembers', htable'⟩ := exec_other hne hexec
  exact ⟨hmembers'.trans hmembers, htable'.trans htable⟩

/-- Memberships are revoked one by one, and then granted one by one. -/
theorem seen_memberStmts {new : TableSecurity} :
    Along LocalSecurity.exec
      (fun l' => SeenBetween l.members (l.tables k) sec.memberships new l'.members (l'.tables k)) l
      (sec.memberStmts l.members) := by
  refine Along.append ?_ fun l₁ h₁ => ?_
  · intro stmts l' hstmts hrun
    obtain ⟨ms, ⟨rest, hms⟩, rfl⟩ := List.prefix_map_iff.1 hstmts
    have htake : ms = l.members.take ms.length := by rw [← hms, List.take_left]
    obtain ⟨-, rfl⟩ := LocalSecurity.run_revokeRole.1 hrun
    rw [htake]
    exact (Between.revoking _).seen rfl (fun _ => id) rfl
  · obtain rfl := LocalSecurity.run_revokeAll h₁
    intro stmts l' hstmts hrun
    obtain ⟨ms, ⟨rest, hms⟩, rfl⟩ := List.prefix_map_iff.1 hstmts
    have htake : ms = sec.memberships.take ms.length := by rw [← hms, List.take_left]
    obtain rfl := LocalSecurity.run_grantRole hrun
    rw [htake]
    exact (Between.granting _).seen rfl (fun _ => id) rfl

/-- The turns of the tables, one of which is the table's own. -/
theorem seen_tablesStmts {oldMembers : List Membership} {old : TableSecurity}
    {have_ : List String} {ts : List RlsFlag} (ht : t ∈ ts) (hnodup : (ts.map RlsFlag.key).Nodup)
    (hsound : l.Sound) (hhave : ∀ name ∈ l.roleNames, name ∈ have_)
    (hmembers : l.members = sec.memberships) (hold : l.tables t.key = old)
    (hnames : (old.policies.map PolicyDef.name).Nodup) :
    Along LocalSecurity.exec
      (fun l' => SeenBetween oldMembers old sec.memberships (sec.tableSecurity t) l'.members
        (l'.tables t.key)) l (sec.tablesStmts have_ ts l) := by
  induction ts generalizing l with
  | nil => cases ht
  | cons t' ts ih =>
    obtain ⟨hnew, hrest⟩ := List.nodup_cons.1 hnodup
    by_cases hkey : t.key = t'.key
    · -- The table's own turn, and the ones after it.
      have htt' : t = t' := by
        rcases List.mem_cons.1 ht with heq | hmem
        · exact heq
        · exact absurd (hkey ▸ List.mem_map_of_mem hmem) hnew
      subst htt'
      subst hold
      have hknown : ∀ name, (l.tables t.key).select (.role name) = true → name ∈ have_ :=
        fun name hselect => hhave name (hsound t.key name hselect)
      refine Along.append ?_ fun l₁ h₁ => ?_
      · have hturn : Along LocalSecurity.exec (fun l' => SeenBetween oldMembers (l.tables t.key)
            sec.memberships (sec.tableSecurity t) l'.members (l'.tables t.key))
            { l with tables := Function.update l.tables t.key (l.tables t.key) }
            ((sec.tableStmts have_ (l.tables t.key).policies t).map (.table t.key)) := by
          refine Along.map (LocalSecurity.exec_table l t.key) ?_
          simp only [Function.update_self, hmembers]
          exact seen_tableStmts hknown hnames
        rwa [Function.update_eq_self] at hturn
      · rw [show l.execAll _ = some l₁ from h₁]
        refine (along_others (k := t.key) fun stmt hstmt => ?_).mono fun l' hl' => ?_
        · obtain ⟨t', ht', s, rfl⟩ := SecurityCatalog.mem_tablesStmts hstmt
          exact ⟨t'.key, s, fun heq => hnew (heq ▸ List.mem_map_of_mem ht'), rfl⟩
        · obtain ⟨ts', hts', rfl⟩ := LocalSecurity.run_table h₁
          have hdone : ts' = sec.tableSecurity t := SecurityCatalog.run_tableStmts hknown hts'
          rw [hl'.1, hl'.2]
          show SeenBetween _ _ _ _ l.members (Function.update l.tables t.key ts' t.key)
          rw [Function.update_self, hmembers, hdone]
          exact between_new.seen rfl (fun _ => id) rfl
    · -- The turn of another table before it.
      have ht' : t ∈ ts := (List.mem_cons.1 ht).resolve_left fun heq => hkey (heq ▸ rfl)
      have hfirst : ∀ stmt ∈ (sec.tableStmts have_ (l.tables t'.key).policies t').map
          (SecurityStmt.table t'.key), ∃ k' s, t.key ≠ k' ∧ stmt = .table k' s := by
        intro stmt hstmt
        obtain ⟨s, -, rfl⟩ := List.mem_map.1 hstmt
        exact ⟨t'.key, s, hkey, rfl⟩
      refine Along.append ((along_others hfirst).mono fun l' hl' => ?_) fun l₁ h₁ => ?_
      · rw [hl'.1, hl'.2, hmembers, hold]
        exact between_granted.seen rfl (fun _ => id) rfl
      · obtain ⟨hmembers₁, htable₁⟩ := along_others hfirst _ l₁ (List.prefix_refl _) h₁
        have hsound₁ := hsound.execAll h₁
        rw [show l.execAll _ = some l₁ from h₁]
        refine ih ht' hrest hsound₁ ?_ (hmembers₁.trans hmembers) (htable₁.trans hold)
        obtain ⟨ts', -, rfl⟩ := LocalSecurity.run_table h₁
        exact hhave

/-- After the loops over the roles and the memberships. -/
theorem run_first {l₂ : LocalSecurity}
    (h : l.execAll (sec.roleStmts l.roleNames ++ sec.memberStmts l.members) = some l₂) :
    l₂.members = sec.memberships ∧ l₂.tables = l.tables ∧
      ∀ name ∈ l₂.roleNames, name ∈ sec.haveAfter l.roleNames := by
  obtain ⟨l₁, hroles, hmembers⟩ := run_append_eq_some.1 h
  obtain ⟨hmembers₁, htables⟩ := LocalSecurity.roleStmts_kept hroles
  rw [← hmembers₁] at hmembers
  obtain rfl := LocalSecurity.memberStmts_done hmembers
  exact ⟨rfl, htables, fun name hmem => (SecurityCatalog.roleStmts_names hroles).1 hmem⟩

/-- What is seen at any point of the reconcile. -/
theorem seen_reconcile (ht : t ∈ sec.tables) (hnodup : (sec.tables.map RlsFlag.key).Nodup)
    (hsound : l.Sound) (hnames : ((l.tables t.key).policies.map PolicyDef.name).Nodup) :
    Along LocalSecurity.exec
      (fun l' => SeenBetween l.members (l.tables t.key) sec.memberships (sec.tableSecurity t)
        l'.members (l'.tables t.key)) l (sec.reconcile l) := by
  refine Along.append (Along.append ?_ fun l₁ h₁ => ?_) fun l₂ h₂ => ?_
  · refine LocalSecurity.along_roleStmts.mono fun l' hl' => ?_
    rw [hl'.1, hl'.2]
    exact between_old.seen rfl (fun _ => id) rfl
  · obtain ⟨hmembers, htables⟩ := LocalSecurity.roleStmts_kept h₁
    rw [← hmembers, ← htables]
    exact seen_memberStmts
  · have hsound₂ : l₂.Sound := hsound.execAll h₂
    rw [show l.execAll _ = some l₂ from h₂]
    obtain ⟨hmembers, htables, hhave⟩ := run_first h₂
    exact seen_tablesStmts ht hnodup hsound₂ hhave hmembers (congrFun htables t.key) hnames

/-- The turn of a table, in a loop over the tables that comes to its end. -/
theorem tablesStmts_turn {have_ : List String} {ts : List RlsFlag} {l' : LocalSecurity}
    (ht : t ∈ ts) (hnodup : (ts.map RlsFlag.key).Nodup)
    (h : l.execAll (sec.tablesStmts have_ ts l) = some l') :
    ∃ before after l₁, l.execAll before = some l₁ ∧ l₁.members = l.members ∧
      l₁.tables t.key = l.tables t.key ∧ sec.tablesStmts have_ ts l =
        before ++ ((sec.tableStmts have_ (l.tables t.key).policies t).map (.table t.key) ++
          after) := by
  induction ts generalizing l with
  | nil => cases ht
  | cons t' ts ih =>
    obtain ⟨hnew, hrest⟩ := List.nodup_cons.1 hnodup
    rcases List.mem_cons.1 ht with rfl | ht'
    · exact ⟨[], _, l, rfl, rfl, rfl, rfl⟩
    · have hne : t.key ≠ t'.key := fun heq => hnew (heq ▸ List.mem_map_of_mem ht')
      obtain ⟨l₁, hfirst, h⟩ := run_append_eq_some.1 h
      rw [show l.execAll _ = some l₁ from hfirst] at h
      obtain ⟨before, after, l₂, hl₂, hmembers, htable, hstmts⟩ := ih ht' hrest h
      obtain ⟨ts', -, rfl⟩ := LocalSecurity.run_table hfirst
      have hsame : Function.update l.tables t'.key ts' t.key = l.tables t.key :=
        Function.update_of_ne hne _ _
      refine ⟨(sec.tableStmts have_ (l.tables t'.key).policies t').map (.table t'.key) ++ before,
        after, l₂, run_append_eq_some.2 ⟨_, hfirst, hl₂⟩, hmembers, htable.trans hsame, ?_⟩
      rw [SecurityCatalog.tablesStmts]
      simp only [show l.execAll _ = some _ from hfirst, Option.map_some, Option.getD_some]
      rw [hstmts]
      simp only [hsame, List.append_assoc]

/-- A loop over the tables that comes to its end goes through all of the states in the turn of each
of them. -/
theorem InTurn.reached_loop {have_ : List String} {flags : List RlsFlag} {ts : TableSecurity}
    {l' : LocalSecurity} (h : InTurn (l.tables t.key) (sec.tableSecurity t) ts) (ht : t ∈ flags)
    (hnodup : (flags.map RlsFlag.key).Nodup) (hsound : l.Sound)
    (hhave : ∀ name ∈ l.roleNames, name ∈ have_)
    (hnames : ((l.tables t.key).policies.map PolicyDef.name).Nodup)
    (hrun : l.execAll (sec.tablesStmts have_ flags l) = some l') :
    ∃ stmts l₁, stmts <+: sec.tablesStmts have_ flags l ∧ l.execAll stmts = some l₁ ∧
      l₁.members = l.members ∧ l₁.tables t.key = ts := by
  obtain ⟨before, after, l₁, hl₁, hmembers, htable, hstmts⟩ := tablesStmts_turn ht hnodup hrun
  rw [hstmts] at hrun ⊢
  obtain ⟨l₁', hl₁', hrun⟩ := run_append_eq_some.1 hrun
  obtain rfl : l₁ = l₁' := Option.some.inj (hl₁.symm.trans hl₁')
  obtain ⟨l₂, hturn, -⟩ := run_append_eq_some.1 hrun
  obtain ⟨ts', hts', -⟩ := LocalSecurity.run_table hturn
  rw [htable] at hts'
  obtain ⟨stmts, hbegins, hts⟩ :=
    h.reached (fun name hselect => hhave name (hsound t.key name hselect)) hnames hts'
  have hmap := run_map (LocalSecurity.exec_table l₁ t.key) (l.tables t.key) stmts
  rw [hts, ← htable, Function.update_eq_self] at hmap
  refine ⟨before ++ stmts.map (.table t.key),
    { l₁ with tables := Function.update l₁.tables t.key ts }, ?_,
    run_append_eq_some.2 ⟨l₁, hl₁, hmap⟩, hmembers, Function.update_self _ _ _⟩
  exact (List.prefix_append_right_inj _).2 ((hbegins.map _).trans (List.prefix_append _ _))

/-- A reconcile that comes to its end goes through all of the states in between. -/
theorem Between.reached {members : List Membership} {ts : TableSecurity} {l' : LocalSecurity}
    (h : Between l.members (l.tables t.key) sec.memberships (sec.tableSecurity t) members ts)
    (ht : t ∈ sec.tables) (hnodup : (sec.tables.map RlsFlag.key).Nodup) (hsound : l.Sound)
    (hnames : ((l.tables t.key).policies.map PolicyDef.name).Nodup)
    (hrun : l.execAll (sec.reconcile l) = some l') :
    ∃ stmts l₁, stmts <+: sec.reconcile l ∧ l.execAll stmts = some l₁ ∧ l₁.members = members ∧
      l₁.tables t.key = ts := by
  have hreach : ∀ stmts, stmts <+: sec.reconcile l →
      (∀ l₁, l.execAll stmts = some l₁ → l₁.members = members ∧ l₁.tables t.key = ts) →
      ∃ stmts l₁, stmts <+: sec.reconcile l ∧ l.execAll stmts = some l₁ ∧ l₁.members = members ∧
        l₁.tables t.key = ts := by
    intro stmts hstmts hstate
    obtain ⟨l₁, hl₁⟩ := run_prefix hrun hstmts
    exact ⟨stmts, l₁, hstmts, hl₁, hstate l₁ hl₁⟩
  cases h with
  | revoking n =>
    refine hreach (sec.roleStmts l.roleNames ++
      (l.members.take n).map fun m => .revokeRole m.grp m.member) ?_ fun l₁ hl₁ => ?_
    · refine .trans ((List.prefix_append_right_inj _).2 ?_) (List.prefix_append _ _)
      exact ((List.take_prefix n _).map _).trans (List.prefix_append _ _)
    · obtain ⟨l₀, hroles, hl₁⟩ := run_append_eq_some.1 hl₁
      obtain ⟨hmembers, htables⟩ := LocalSecurity.roleStmts_kept hroles
      obtain ⟨-, rfl⟩ := LocalSecurity.run_revokeRole.1 hl₁
      rw [hmembers]
      exact ⟨rfl, congrFun htables t.key⟩
  | granting n =>
    refine hreach (sec.roleStmts l.roleNames ++
      ((l.members.map fun m => .revokeRole m.grp m.member) ++
        (sec.memberships.take n).map fun m => .grantRole m.grp m.member m.admin)) ?_
      fun l₁ hl₁ => ?_
    · refine .trans ((List.prefix_append_right_inj _).2 ?_) (List.prefix_append _ _)
      exact (List.prefix_append_right_inj _).2 ((List.take_prefix n _).map _)
    · obtain ⟨l₀, hroles, hl₁⟩ := run_append_eq_some.1 hl₁
      obtain ⟨l₀', hrevoke, hl₁⟩ := run_append_eq_some.1 hl₁
      obtain ⟨hmembers, htables⟩ := LocalSecurity.roleStmts_kept hroles
      rw [← hmembers] at hrevoke
      obtain rfl := LocalSecurity.run_revokeAll hrevoke
      obtain rfl := LocalSecurity.run_grantRole hl₁
      exact ⟨rfl, congrFun htables t.key⟩
  | turn hturn =>
    obtain ⟨l₂, hfirst, hrest⟩ := run_append_eq_some.1 hrun
    have hsound₂ : l₂.Sound := hsound.execAll hfirst
    obtain ⟨hmembers₂, htables₂, hhave⟩ := run_first hfirst
    have hstmts : sec.reconcile l = sec.roleStmts l.roleNames ++ sec.memberStmts l.members ++
        sec.tablesStmts (sec.haveAfter l.roleNames) sec.tables l₂ := by
      show _ ++ ((l.execAll _).map _).getD [] = _
      rw [show l.execAll _ = some l₂ from hfirst]
      rfl
    rw [show l.execAll _ = some l₂ from hfirst] at hrest
    rw [← htables₂] at hturn hnames
    obtain ⟨stmts, l₁, hbegins, hl₁, hmembers₁, htable₁⟩ :=
      hturn.reached_loop ht hnodup hsound₂ hhave hnames hrest
    refine ⟨_ ++ stmts, l₁, ?_, run_append_eq_some.2 ⟨l₂, hfirst, hl₁⟩,
      hmembers₁.trans hmembers₂, htable₁⟩
    rw [hstmts]
    exact (List.prefix_append_right_inj _).2 hbegins

end Whole

/-! ## The result -/

/-- Under a catalog that the local state is in line with, a role sees what it sees here, and of a
table that has just been created nothing. -/
theorem shows_iff {old : SecurityCatalog} {l : LocalSecurity} (hold : old.Established l)
    {k : TableKey} (hfresh : k ∉ old.tables.map RlsFlag.key → l.tables k = .fresh) {role : String}
    {row : Set String} : old.Shows k role row ↔ Sees l.members (l.tables k) role row := by
  constructor
  · rintro ⟨t, ht, rfl, hsees⟩
    refine hsees.congr (fun m => (hold.members m).symm) (hold.rls t ht).1 (fun g => ?_) fun p => ?_
    · rw [hold.select t ht g]
      exact decide_eq_true_iff.symm
    · exact hold.policies t ht p
  · intro hsees
    by_cases hk : k ∈ old.tables.map RlsFlag.key
    · obtain ⟨t, ht, rfl⟩ := List.mem_map.1 hk
      refine ⟨t, ht, rfl, hsees.congr hold.members (hold.rls t ht).1.symm (fun g => ?_) fun p => ?_⟩
      · rw [hold.select t ht g]
        exact decide_eq_true_iff
      · exact (hold.policies t ht p).symm
    · rw [hfresh hk] at hsees
      rcases hsees.holds with hall | ⟨grp, -, hgrp⟩
      · cases hall
      · cases hgrp

/-- **Theorem.** On the way from the old catalog to the new one no role sees what it sees under
neither, if in no state in between it sees such a least row; and only if, when the reconcile comes
to its end. -/
theorem reconcile_exposes_nothing {old new : SecurityCatalog} {l : LocalSecurity}
    (hold : old.Established l) (hsound : l.Sound)
    (hfresh : ∀ t ∈ new.tables, t.key ∉ old.tables.map RlsFlag.key → l.tables t.key = .fresh)
    (hnodup : (new.tables.map RlsFlag.key).Nodup)
    (hnames : ∀ t ∈ new.tables, ((l.tables t.key).policies.map PolicyDef.name).Nodup) :
    ((∀ t ∈ new.tables, new.Calm l t) → ExposesNothing old new l) ∧
      ((l.execAll (new.reconcile l)).isSome → ExposesNothing old new l →
        ∀ t ∈ new.tables, new.Calm l t) := by
  constructor
  · intro hcalm stmts l' hstmts hrun t ht role hrole row hshows
    obtain ⟨members, ts, hbetween, hsees⟩ :=
      seen_reconcile ht hnodup hsound (hnames t ht) stmts l' hstmts hrun role row hshows
    obtain ⟨row', hleast, hsub⟩ := hsees.least
    rcases hcalm t ht members ts hbetween role hrole row' hleast with hold' | hnew
    · exact .inl ((shows_iff hold (hfresh t ht)).2 (hold'.mono hsub))
    · exact .inr ⟨t, ht, rfl, hnew.mono hsub⟩
  · intro hsome hnothing t ht members ts hbetween role hrole row hleast
    obtain ⟨l', hrun⟩ := Option.isSome_iff_exists.1 hsome
    obtain ⟨stmts, l₁, hstmts, hl₁, rfl, rfl⟩ :=
      hbetween.reached ht hnodup hsound (hnames t ht) hrun
    rcases hnothing stmts l₁ hstmts hl₁ t ht role hrole row hleast.sees with hold' | hnew
    · exact .inl ((shows_iff hold (hfresh t ht)).1 hold')
    · obtain ⟨t', ht', hkey, hsees⟩ := hnew
      obtain rfl : t' = t := List.inj_on_of_nodup_map hnodup ht' ht hkey
      exact .inr hsees

/-- The notes, of which everyone is shown their own. -/
def SecurityCatalog.ownNotes : SecurityCatalog :=
  { SecurityCatalog.notes true with
    policies := [⟨"public", "notes", "own", true, "SELECT", ["app", "pg_monitor"],
      some "owner = current_user", none⟩] }

/-- The notes, which nobody may read. -/
def SecurityCatalog.noNotes : SecurityCatalog :=
  { SecurityCatalog.notes false with grants := [] }

/-- The local state after a reconcile from nothing. -/
theorem notes_settled {sec : SecurityCatalog}
    (hnodup : (sec.tables.map RlsFlag.key).Nodup) {l : LocalSecurity}
    (h : LocalSecurity.empty.execAll (sec.reconcile .empty) = some l) :
    sec.Established l ∧ l.Sound := by
  have hsound : LocalSecurity.empty.Sound := fun _ _ hselect => by cases hselect
  exact ⟨SecurityCatalog.reconcile_establishes hsound hnodup h, hsound.execAll h⟩

/-- The only table has no policies, and a policy is added to it. -/
theorem reconcile_exposes_nothing_policy :
    ∃ l, LocalSecurity.empty.execAll ((SecurityCatalog.notes true).reconcile .empty) = some l ∧
      ExposesNothing (.notes true) .ownNotes l := by
  obtain ⟨l, hl⟩ := Option.isSome_iff_exists.1 (show (LocalSecurity.empty.execAll
    ((SecurityCatalog.notes true).reconcile .empty)).isSome from by decide +kernel)
  obtain ⟨hold, hsound⟩ := notes_settled (by decide) hl
  have hrls := (hold.rls ⟨"public", "notes", true, false⟩ (by decide)).1
  have hpolicies : (l.tables ("public", "notes")).policies = [] :=
    List.eq_nil_iff_forall_not_mem.2 fun p hp =>
      absurd ((hold.policies ⟨"public", "notes", true, false⟩ (by decide) p).1 hp) List.not_mem_nil
  have hnames : ((l.tables ("public", "notes")).policies.map PolicyDef.name).Nodup := by
    rw [hpolicies]
    exact List.nodup_nil
  refine ⟨l, hl, (reconcile_exposes_nothing hold hsound ?_ (by decide) ?_).1 ?_⟩
  · intro t ht hnew
    obtain rfl := List.mem_singleton.1 ht
    exact absurd hnew (by decide)
  · intro t ht
    obtain rfl := List.mem_singleton.1 ht
    exact hnames
  · intro t ht members ts hbetween role _ row hleast
    obtain rfl := List.mem_singleton.1 ht
    have hnone : ts.rls = true → ts.policies = [] → False := by
      intro hon hnil
      cases hleast with
      | any hholds hoff => exact absurd (hoff.symm.trans hon) (by decide)
      | policy hholds hon hp hpermits he =>
        rw [hnil] at hp
        cases hp
    cases hbetween with
    | revoking n => exact (hnone hrls hpolicies).elim
    | granting n => exact (hnone hrls hpolicies).elim
    | turn hturn =>
      cases hturn with
      | flagged => exact (hnone rfl hpolicies).elim
      | dropped n =>
        have hdrop : (l.tables ("public", "notes")).policies.drop n = [] := by
          rw [hpolicies, List.drop_nil]
        exact (hnone rfl hdrop).elim
      | created n =>
        cases n with
        | zero => exact (hnone rfl rfl).elim
        | succ n => exact .inr (hleast.sees.grants rfl (fun _ => id)
            (List.take_of_length_le (Nat.le_add_left 1 n)).symm)

/-- Row level security is disabled and the grant withdrawn, and in between the role sees all of
the notes, which it sees neither before nor after. -/
theorem reconcile_exposes :
    ¬ ∀ (old new : SecurityCatalog) (l : LocalSecurity), old.Established l → l.Sound →
      (∀ t ∈ new.tables, t.key ∉ old.tables.map RlsFlag.key → l.tables t.key = .fresh) →
      (new.tables.map RlsFlag.key).Nodup →
      (∀ t ∈ new.tables, ((l.tables t.key).policies.map PolicyDef.name).Nodup) →
      ExposesNothing old new l := by
  intro h
  have hboth : ((LocalSecurity.empty.execAll ((SecurityCatalog.notes true).reconcile .empty)).bind
      fun l => l.execAll (SecurityCatalog.noNotes.reconcile l)).isSome := by
    decide +kernel
  obtain ⟨l', hboth⟩ := Option.isSome_iff_exists.1 hboth
  obtain ⟨l, hl, hrun⟩ := Option.bind_eq_some_iff.1 hboth
  obtain ⟨hold, hsound⟩ := notes_settled (by decide) hl
  have hnotes : (⟨"public", "notes", true, false⟩ : RlsFlag) ∈ (SecurityCatalog.notes true).tables :=
    List.mem_cons_self
  have hpolicies : (l.tables ("public", "notes")).policies = [] :=
    List.eq_nil_iff_forall_not_mem.2 fun p hp =>
      absurd ((hold.policies _ hnotes p).1 hp) List.not_mem_nil
  have hselect : (l.tables ("public", "notes")).select (.role "app") = true :=
    (hold.select _ hnotes _).2 (by decide)
  have ht : (⟨"public", "notes", false, false⟩ : RlsFlag) ∈ SecurityCatalog.noNotes.tables :=
    List.mem_cons_self
  have hnames : ((l.tables ("public", "notes")).policies.map PolicyDef.name).Nodup := by
    rw [hpolicies]
    exact List.nodup_nil
  have hfresh : ("public", "notes") ∉ (SecurityCatalog.notes true).tables.map RlsFlag.key →
      l.tables ("public", "notes") = .fresh := fun hnew => absurd hnew (by decide)
  have hflagged : Between l.members (l.tables ("public", "notes"))
      SecurityCatalog.noNotes.memberships (SecurityCatalog.noNotes.tableSecurity
        ⟨"public", "notes", false, false⟩) _ _ := .turn .flagged
  obtain ⟨stmts, l₁, hstmts, hl₁, -, hflags⟩ :=
    hflagged.reached ht (by decide) hsound hnames hrun
  have htable : l₁.tables ("public", "notes") =
      { l.tables ("public", "notes") with rls := false, forced := false } := hflags
  have hsees : l₁.Shows ("public", "notes") "app" ∅ := by
    refine ⟨.inr ⟨"app", .refl, ?_⟩, .inl ?_⟩
    · rw [htable]
      exact hselect
    · rw [htable]
  have hshown := h (.notes true) .noNotes l hold hsound (fun t ht => ?_) (by decide) (fun t ht => ?_)
    stmts l₁ hstmts hl₁ _ ht "app" (.inr (by decide)) ∅ hsees
  · rcases hshown with hshown | ⟨t, ht, -, hshown⟩
    · have hbefore := (shows_iff hold hfresh).1 hshown
      rcases hbefore.passes with hoff | ⟨⟨p, hp, -⟩, -⟩
      · exact absurd (hoff.symm.trans (hold.rls _ hnotes).1) (by decide)
      · rw [hpolicies] at hp
        cases hp
    · have hnone : ∀ g, (SecurityCatalog.noNotes.tableSecurity t).select g = false := fun _ => rfl
      rcases hshown.holds with hall | ⟨grp, -, hgrp⟩
      · exact absurd (hall.symm.trans (hnone _)) (by decide)
      · exact absurd (hgrp.symm.trans (hnone _)) (by decide)
  · obtain rfl := List.mem_singleton.1 ht
    exact hfresh
  · obtain rfl := List.mem_singleton.1 ht
    exact hnames

end Pglite.Replica
