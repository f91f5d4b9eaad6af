import Pglite.Replica.ReconcileProof

/-!
# Reconciling converges

The statements of `reconcile_security` on a local server that also has roles of its own and, for each
user role, the attributes that the program sets. The server lists roles and memberships in any
order, and is asked for them on the way (`Reconciles`).

* `SecurityCatalog.reconciled`: what the state before becomes.
* `Reconciles.eq`: when no statement fails, it does become that.
* `Reconciles.again`: it stays that.

`reconcile_converges`: on the published tables and between the user roles the state is the catalog's,
whatever it was before.
-/

namespace Pglite.Replica

open Runs

/-! ## The server -/

/-- The attributes of a user role. -/
structure RoleState where
  inherit : Bool
  login : Bool
  bypassRls : Bool
deriving DecidableEq

/-- The security state of the local database. A role below `oid` 16384 is built in, all others are
user roles. A membership is under its group and its member, and has the admin option or not. -/
structure LocalServer where
  builtin : String → Bool
  roles : String → Option RoleState
  members : String × String → Option Bool
  tables : TableKey → TableSecurity

def Membership.key (m : Membership) : String × String := (m.grp, m.member)

namespace LocalServer

def isUser (s : LocalServer) (name : String) : Bool :=
  (s.roles name).isSome

def hasRole (s : LocalServer) (name : String) : Bool :=
  s.isUser name || s.builtin name

/-- `PUBLIC` or a user role. -/
def isUserGrantee (s : LocalServer) : Grantee → Bool
  | .everyone => true
  | .role name => s.isUser name

/-- The server executes a statement. A role that is missing is an error. A membership that exists
keeps its admin option when it is granted again. -/
def exec (s : LocalServer) : SecurityStmt → Option LocalServer
  | .createRole name =>
    if s.hasRole name then none
    else some { s with roles := Function.update s.roles name (some ⟨true, false, false⟩) }
  | .alterRole name inherit =>
    if s.hasRole name then
      some { s with
        roles := Function.update s.roles name
          ((s.roles name).map fun _ => ⟨inherit, false, false⟩) }
    else none
  | .revokeRole grp member =>
    if s.hasRole grp && s.hasRole member then
      some { s with members := Function.update s.members (grp, member) none }
    else none
  | .grantRole grp member admin =>
    if s.hasRole grp && s.hasRole member then
      some { s with
        members := Function.update s.members (grp, member)
          (some (admin || decide (s.members (grp, member) = some true))) }
    else none
  | .table t stmt =>
    ((s.tables t).exec s.hasRole s.hasRole stmt).map fun ts =>
      { s with tables := Function.update s.tables t ts }

end LocalServer

namespace SecurityCatalog

variable (sec : SecurityCatalog)

/-- One turn of the loop over the tables. The policies that exist are read first. -/
def turn (have_ : List String) (s : LocalServer) (t : RlsFlag) : Option LocalServer :=
  run LocalServer.exec s ((sec.tableStmts have_ (s.tables t.key).policies t).map (.table t.key))

/-- **`reconcile_security`** returns `Ok` and the state is `s'`. Before its loops it has asked for the
user roles, and between the first two for the memberships among these. -/
inductive Reconciles (s s' : LocalServer) : Prop
  | intro (have_ : List String) (listed : List Membership) (s₁ s₂ : LocalServer)
      (hhave : ∀ name, name ∈ have_ ↔ s.isUser name)
      (hroles : run LocalServer.exec s (sec.roleStmts have_) = some s₁)
      (hlisted : ∀ k, k ∈ listed.map Membership.key ↔
        s₁.isUser k.1 ∧ s₁.isUser k.2 ∧ (s₁.members k).isSome)
      (hmembers : run LocalServer.exec s₁ (sec.memberStmts listed) = some s₂)
      (htables : run (sec.turn (sec.haveAfter have_)) s₂ sec.tables = some s')

/-! ## What becomes of the state -/

/-- The roles after the first loop. The last entry for a name counts. -/
def rolesAfter (roles : String → Option RoleState) : String → Option RoleState :=
  sec.roles.foldl (fun roles r => Function.update roles r.name (some ⟨r.inherit, false, false⟩))
    roles

/-- The memberships after the second loop: those among user roles are gone. -/
def revokedMembers (user : String → Bool) (members : String × String → Option Bool) :
    String × String → Option Bool :=
  fun k => if user k.1 ∧ user k.2 then none else members k

/-- The memberships after the third loop. -/
def grantedMembers (members : String × String → Option Bool) : String × String → Option Bool :=
  sec.memberships.foldl (fun members m => Function.update members m.key
    (some (m.admin || decide (members m.key = some true)))) members

/-- The state with the roles of the catalog. -/
def withRoles (s : LocalServer) : LocalServer :=
  { s with roles := sec.rolesAfter s.roles }

/-- What the state becomes. -/
def reconciled (s : LocalServer) : LocalServer where
  builtin := s.builtin
  roles := sec.rolesAfter s.roles
  members := sec.grantedMembers (revokedMembers (sec.withRoles s).isUser s.members)
  tables := sec.tables.foldl (fun tables t => Function.update tables t.key
    (sec.tableAfter (sec.withRoles s).isUserGrantee t (tables t.key))) s.tables

/-- The statements on the memberships and the tables are accepted. -/
structure Accepted (hasRole : String → Bool) : Prop where
  members : ∀ m ∈ sec.memberships, hasRole m.grp && hasRole m.member
  tables : ∀ t ∈ sec.tables, sec.AcceptedOn hasRole hasRole t.key

/-- **In line.** The state is the catalog's on its tables and between the user roles, and no role of
the catalog may log in or bypass row level security. -/
structure Converged (s : LocalServer) : Prop where
  rls : ∀ t ∈ sec.tables, (s.tables t.key).rls = t.enabled ∧ (s.tables t.key).forced = t.enabled
  select : ∀ t ∈ sec.tables, ∀ g, s.isUserGrantee g →
    ((s.tables t.key).select g ↔ g ∈ sec.granteesOn t.key)
  policies : ∀ t ∈ sec.tables, (s.tables t.key).policies = sec.policiesOn t.key
  members : ∀ m : Membership, s.isUser m.grp → s.isUser m.member →
    (s.members m.key = some m.admin ↔ m ∈ sec.memberships)
  roles : ∀ r ∈ sec.roles, ∃ inherit, s.roles r.name = some ⟨inherit, false, false⟩

end SecurityCatalog

/-! ## The loop over the roles -/

namespace LocalServer

variable {s s' : LocalServer}

/-- The turn of a role sets its attributes, whether it existed or not. -/
theorem run_roleTurn {have_ : List String} {r : RoleDef} (hhave : r.name ∈ have_ → s.isUser r.name)
    (h : run exec s ((if r.name ∈ have_ then [] else [.createRole r.name]) ++
      [.alterRole r.name r.inherit]) = some s') :
    s' = { s with
      roles := Function.update s.roles r.name (some ⟨r.inherit, false, false⟩) } := by
  obtain ⟨s₁, hcreate, hlast⟩ := run_append_eq_some.1 h
  obtain ⟨s₂, halter, hend⟩ := run_cons_eq_some.1 hlast
  obtain rfl := Option.some.inj hend
  rw [exec] at halter
  split_ifs at halter
  obtain rfl := Option.some.inj halter
  by_cases hmem : r.name ∈ have_
  · rw [if_pos hmem] at hcreate
    obtain rfl := Option.some.inj hcreate
    obtain ⟨rs, hrs⟩ := Option.isSome_iff_exists.1 (hhave hmem)
    rw [hrs, Option.map_some]
  · rw [if_neg hmem] at hcreate
    obtain ⟨s₃, hfirst, hend⟩ := run_cons_eq_some.1 hcreate
    obtain rfl := Option.some.inj hend
    rw [exec] at hfirst
    split_ifs at hfirst
    obtain rfl := Option.some.inj hfirst
    simp

theorem isUser_update {name : String} {rs : RoleState} {n : String} (h : s.isUser n) :
    LocalServer.isUser { s with roles := Function.update s.roles name (some rs) } n := by
  by_cases hn : n = name
  · simp [isUser, hn]
  · simpa [isUser, Function.update_of_ne hn] using h

theorem run_roleStmts {sec : SecurityCatalog} {have_ : List String}
    (hhave : ∀ name ∈ have_, s.isUser name) (h : run exec s (sec.roleStmts have_) = some s') :
    s' = sec.withRoles s := by
  unfold SecurityCatalog.withRoles SecurityCatalog.rolesAfter
  unfold SecurityCatalog.roleStmts at h
  generalize sec.roles = rs at h ⊢
  induction rs generalizing s with
  | nil => exact (Option.some.inj h).symm
  | cons r rs ih =>
    obtain ⟨s₁, hfirst, hrest⟩ := run_append_eq_some.1 h
    obtain rfl := run_roleTurn (hhave r.name) hfirst
    exact ih (fun name hname => isUser_update (hhave name hname)) hrest

/-- The loop comes to its end when all roles exist. -/
theorem run_roleStmts_of_forall {sec : SecurityCatalog} {have_ : List String}
    (hhave : ∀ name ∈ have_, s.isUser name) (hall : ∀ r ∈ sec.roles, r.name ∈ have_) :
    run exec s (sec.roleStmts have_) = some (sec.withRoles s) := by
  unfold SecurityCatalog.withRoles SecurityCatalog.rolesAfter SecurityCatalog.roleStmts
  generalize sec.roles = rs at hall ⊢
  induction rs generalizing s with
  | nil => rfl
  | cons r rs ih =>
    rw [List.forall_mem_cons] at hall
    have huser := hhave r.name hall.1
    obtain ⟨state, hstate⟩ := Option.isSome_iff_exists.1 huser
    have hfirst : run exec s ((if r.name ∈ have_ then [] else [.createRole r.name]) ++
        [.alterRole r.name r.inherit]) = some { s with
          roles := Function.update s.roles r.name (some ⟨r.inherit, false, false⟩) } := by
      have hrole : s.hasRole r.name = true := by simp [hasRole, huser]
      rw [if_pos hall.1, List.nil_append, run, exec, if_pos hrole, hstate]
      rfl
    rw [List.flatMap_cons]
    exact run_append_eq_some.2 ⟨_, hfirst,
      ih (fun name hname => isUser_update (hhave name hname)) hall.2⟩

/-! ## The loops over the memberships -/

/-- Statements on memberships, each of which sets one of them. -/
theorem run_members {ev : Membership → SecurityStmt} (val : Membership → Option Bool → Option Bool)
    (hev : ∀ s m, exec s (ev m) = if s.hasRole m.grp && s.hasRole m.member then
      some { s with members := Function.update s.members m.key (val m (s.members m.key)) }
    else none) {ms : List Membership} :
    run exec s (ms.map ev) = some s' ↔ (∀ m ∈ ms, s.hasRole m.grp && s.hasRole m.member) ∧
      s' = { s with members := ms.foldl (fun members m =>
        Function.update members m.key (val m (members m.key))) s.members } := by
  have hstep : ∀ (members : String × String → Option Bool) (m : Membership),
      exec { s with members := members } (ev m) =
        (if s.hasRole m.grp && s.hasRole m.member then
          some (Function.update members m.key (val m (members m.key)))
        else none).map fun members => { s with members := members } := by
    intro members m
    rw [hev]
    by_cases hok : s.hasRole m.grp && s.hasRole m.member
    · rw [if_pos hok]
      exact if_pos hok
    · rw [if_neg hok]
      exact if_neg hok
  have hput := run_map hstep s.members ms
  change run exec s (ms.map ev) = _ at hput
  rw [hput, Option.map_eq_some_iff]
  constructor
  · rintro ⟨members, hrun, rfl⟩
    obtain ⟨hok, rfl⟩ := (run_iff_forall fun _ _ => rfl).1 hrun
    exact ⟨hok, rfl⟩
  · rintro ⟨hok, rfl⟩
    exact ⟨_, (run_iff_forall fun _ _ => rfl).2 ⟨hok, rfl⟩, rfl⟩

theorem foldl_revoke (ms : List Membership) (members : String × String → Option Bool) :
    ms.foldl (fun (members : String × String → Option Bool) m =>
        Function.update members m.key none) members =
      fun k => if k ∈ ms.map Membership.key then none else members k := by
  induction ms generalizing members with
  | nil => simp
  | cons m ms ih =>
    rw [List.foldl_cons, ih]
    funext k
    by_cases hk : k = m.key <;> simp [hk]

/-- The memberships among user roles are revoked, then those of the catalog are granted. -/
theorem run_memberStmts {sec : SecurityCatalog} {listed : List Membership}
    (hlisted : ∀ k, k ∈ listed.map Membership.key ↔
      s.isUser k.1 ∧ s.isUser k.2 ∧ (s.members k).isSome) :
    run exec s (sec.memberStmts listed) = some s' ↔
      (∀ m ∈ sec.memberships, s.hasRole m.grp && s.hasRole m.member) ∧
      s' = { s with
        members := sec.grantedMembers (SecurityCatalog.revokedMembers s.isUser s.members) } := by
  have hrevoked : (fun k => if k ∈ listed.map Membership.key then none else s.members k) =
      SecurityCatalog.revokedMembers s.isUser s.members := by
    funext k
    unfold SecurityCatalog.revokedMembers
    by_cases huser : s.isUser k.1 ∧ s.isUser k.2
    · cases hk : s.members k <;> simp [hlisted, huser, hk]
    · rw [if_neg huser, if_neg fun hk => huser ⟨((hlisted k).1 hk).1, ((hlisted k).1 hk).2.1⟩]
  have hfound : ∀ m ∈ listed, s.hasRole m.grp && s.hasRole m.member := by
    intro m hm
    obtain ⟨hgrp, hmember, -⟩ := (hlisted m.key).1 (List.mem_map_of_mem hm)
    have hg : s.isUser m.grp = true := hgrp
    have hm : s.isUser m.member = true := hmember
    simp [hasRole, hg, hm]
  have hrevoke : ∀ s₁, run exec s (listed.map fun m => .revokeRole m.grp m.member) = some s₁ ↔
      (∀ m ∈ listed, s.hasRole m.grp && s.hasRole m.member) ∧
      s₁ = { s with members := SecurityCatalog.revokedMembers s.isUser s.members } := by
    intro s₁
    rw [run_members (fun _ _ => none) fun _ _ => rfl, foldl_revoke, hrevoked]
  unfold SecurityCatalog.memberStmts
  rw [run_append_eq_some]
  constructor
  · rintro ⟨s₁, hfirst, hgrant⟩
    obtain ⟨-, rfl⟩ := (hrevoke s₁).1 hfirst
    exact (run_members (fun m old => some (m.admin || decide (old = some true)))
      fun _ _ => rfl).1 hgrant
  · intro h
    exact ⟨_, (hrevoke _).2 ⟨hfound, rfl⟩,
      (run_members (fun m old => some (m.admin || decide (old = some true))) fun _ _ => rfl).2 h⟩

/-! ## The loop over the tables -/

/-- A statement on one table works on its security alone. -/
theorem exec_table (s : LocalServer) (t : TableKey) (ts : TableSecurity) (stmt : TableStmt) :
    exec { s with tables := Function.update s.tables t ts } (.table t stmt) =
      (ts.exec s.hasRole s.hasRole stmt).map fun ts =>
        { s with tables := Function.update s.tables t ts } := by
  show ((Function.update s.tables t ts t).exec s.hasRole s.hasRole stmt).map (fun ts' =>
    LocalServer.mk s.builtin s.roles s.members
      (Function.update (Function.update s.tables t ts) t ts')) = _
  rw [Function.update_self]
  simp only [Function.update_idem]

end LocalServer

namespace SecurityCatalog

variable {sec : SecurityCatalog}

theorem turn_iff {s s' : LocalServer} {have_ : List String} {t : RlsFlag}
    (hhave : ∀ name, name ∈ have_ ↔ s.isUser name) :
    sec.turn have_ s t = some s' ↔ sec.AcceptedOn s.hasRole s.hasRole t.key ∧
      s' = { s with
        tables := Function.update s.tables t.key
          (sec.tableAfter s.isUserGrantee t (s.tables t.key)) } := by
  have hfound : ∀ name ∈ have_, s.hasRole name := by
    intro name hname
    simp [LocalServer.hasRole, (hhave name).1 hname]
  have huser : ∀ g, g ∈ Grantee.everyone :: have_.map Grantee.role ↔ s.isUserGrantee g := by
    intro g
    cases g with
    | everyone => simp [LocalServer.isUserGrantee]
    | role name => simp [LocalServer.isUserGrantee, hhave]
  have hput := run_map (s.exec_table t.key) (s.tables t.key)
    (sec.tableStmts have_ (s.tables t.key).policies t)
  rw [Function.update_eq_self] at hput
  change sec.turn have_ s t = _ at hput
  rw [hput, Option.map_eq_some_iff]
  constructor
  · rintro ⟨ts, hts, rfl⟩
    obtain ⟨-, hok, rfl⟩ := (run_tableStmts_iff huser).1 hts
    exact ⟨hok, rfl⟩
  · rintro ⟨hok, rfl⟩
    exact ⟨_, (run_tableStmts_iff huser).2 ⟨hfound, hok, rfl⟩, rfl⟩

/-- The loop over the tables. -/
theorem run_turns {s s' : LocalServer} {have_ : List String} {ts : List RlsFlag}
    (hhave : ∀ name, name ∈ have_ ↔ s.isUser name) :
    run (sec.turn have_) s ts = some s' ↔ (∀ t ∈ ts, sec.AcceptedOn s.hasRole s.hasRole t.key) ∧
      s' = { s with
        tables := ts.foldl (fun tables t => Function.update tables t.key
          (sec.tableAfter s.isUserGrantee t (tables t.key))) s.tables } := by
  induction ts generalizing s with
  | nil => simp [eq_comm]
  | cons t ts ih =>
    rw [run_cons_eq_some, List.forall_mem_cons, List.foldl_cons]
    constructor
    · rintro ⟨s₁, hfirst, hrest⟩
      obtain ⟨hok, hs₁⟩ := (turn_iff hhave).1 hfirst
      have hhave₁ : ∀ name, name ∈ have_ ↔ s₁.isUser name := by
        rw [hs₁]
        exact hhave
      obtain ⟨hall, rfl⟩ := (ih hhave₁).1 hrest
      subst hs₁
      exact ⟨⟨hok, hall⟩, rfl⟩
    · rintro ⟨⟨hok, hall⟩, rfl⟩
      refine ⟨_, (turn_iff hhave).2 ⟨hok, rfl⟩, (ih ?_).2 ⟨hall, rfl⟩⟩
      exact hhave

/-! ## What the state becomes, part by part -/

theorem rolesAfter_apply (roles : String → Option RoleState) (name : String) :
    sec.rolesAfter roles name =
      ((sec.roles.reverse.find? fun r => decide (r.name = name)).map fun r =>
        RoleState.mk r.inherit false false).elim (roles name) some := by
  unfold rolesAfter
  rw [foldl_update_apply]
  cases sec.roles.reverse.find? fun r => decide (r.name = name) <;> rfl

theorem rolesAfter_rolesAfter (roles : String → Option RoleState) :
    sec.rolesAfter (sec.rolesAfter roles) = sec.rolesAfter roles := by
  funext name
  simp only [rolesAfter_apply]
  cases sec.roles.reverse.find? fun r => decide (r.name = name) <;> rfl

/-- A role of the catalog is found in it. -/
theorem find_role {name : String} (hname : name ∈ sec.roleNames) :
    ∃ r, (sec.roles.reverse.find? fun r => decide (r.name = name)) = some r := by
  obtain ⟨r, hr, rfl⟩ := List.mem_map.1 hname
  refine Option.isSome_iff_exists.1 (List.find?_isSome.2 ⟨r, List.mem_reverse.2 hr, ?_⟩)
  exact decide_eq_true rfl

theorem isUser_withRoles {s : LocalServer} {name : String} :
    (sec.withRoles s).isUser name ↔ s.isUser name ∨ name ∈ sec.roleNames := by
  change (sec.rolesAfter s.roles name).isSome ↔ _
  rw [rolesAfter_apply]
  by_cases hname : name ∈ sec.roleNames
  · obtain ⟨r, hr⟩ := find_role hname
    simp [hr, hname]
  · have hnone : (sec.roles.reverse.find? fun r => decide (r.name = name)) = none := by
      refine List.find?_eq_none.2 fun r hr hrole => hname ?_
      exact List.mem_map.2 ⟨r, List.mem_reverse.1 hr, of_decide_eq_true hrole⟩
    simp [hnone, hname, LocalServer.isUser]

/-- A membership of the catalog, and a pair that is not in it, after the grants. -/
theorem grantedMembers_spec (hnodup : (sec.memberships.map Membership.key).Nodup)
    (members : String × String → Option Bool) :
    (∀ m ∈ sec.memberships, sec.grantedMembers members m.key =
      some (m.admin || decide (members m.key = some true))) ∧
    ∀ k ∉ sec.memberships.map Membership.key, sec.grantedMembers members k = members k :=
  run_sets (f := fun (m : Membership) old => some (m.admin || decide (old = some true))) hnodup
    (run_some _ _ _)

theorem revokedMembers_pos {user : String → Bool} {members : String × String → Option Bool}
    {k : String × String} (hk : user k.1 ∧ user k.2) : revokedMembers user members k = none :=
  if_pos hk

theorem revokedMembers_neg {user : String → Bool} {members : String × String → Option Bool}
    {k : String × String} (hk : ¬ (user k.1 ∧ user k.2)) :
    revokedMembers user members k = members k :=
  if_neg hk

/-- Revoking and granting once more changes nothing. -/
theorem members_again (hnodup : (sec.memberships.map Membership.key).Nodup)
    (user : String → Bool) (members : String × String → Option Bool) :
    sec.grantedMembers (revokedMembers user (sec.grantedMembers (revokedMembers user members))) =
      sec.grantedMembers (revokedMembers user members) := by
  obtain ⟨hgranted, hother⟩ := grantedMembers_spec hnodup (revokedMembers user members)
  obtain ⟨hgranted', hother'⟩ := grantedMembers_spec hnodup
    (revokedMembers user (sec.grantedMembers (revokedMembers user members)))
  funext k
  by_cases hmem : k ∈ sec.memberships.map Membership.key
  · obtain ⟨m, hm, rfl⟩ := List.mem_map.1 hmem
    rw [hgranted' m hm, hgranted m hm]
    by_cases huser : user m.key.1 ∧ user m.key.2
    · rw [revokedMembers_pos huser, revokedMembers_pos huser]
    · rw [revokedMembers_neg huser, hgranted m hm]
      cases m.admin <;> simp
  · rw [hother' k hmem]
    by_cases huser : user k.1 ∧ user k.2
    · rw [revokedMembers_pos huser, hother k hmem, revokedMembers_pos huser]
    · rw [revokedMembers_neg huser]

theorem tableAfter_tableAfter (user : Grantee → Bool) (t : RlsFlag) (ts : TableSecurity) :
    sec.tableAfter user t (sec.tableAfter user t ts) = sec.tableAfter user t ts := by
  unfold tableAfter
  rw [TableSecurity.mk.injEq]
  refine ⟨rfl, rfl, funext fun g => ?_, rfl⟩
  cases hg : user g <;> simp [hg]

/-! ## The whole of it -/

theorem isUser_reconciled (s : LocalServer) :
    (sec.reconciled s).isUser = (sec.withRoles s).isUser := rfl

theorem withRoles_reconciled (s : LocalServer) :
    sec.withRoles (sec.reconciled s) = sec.reconciled s := by
  unfold withRoles reconciled
  rw [rolesAfter_rolesAfter]

theorem reconciled_tables (hnodup : (sec.tables.map RlsFlag.key).Nodup) (s : LocalServer) :
    (∀ t ∈ sec.tables, (sec.reconciled s).tables t.key =
      sec.tableAfter (sec.withRoles s).isUserGrantee t (s.tables t.key)) ∧
    ∀ k ∉ sec.tables.map RlsFlag.key, (sec.reconciled s).tables k = s.tables k :=
  run_sets (f := sec.tableAfter (sec.withRoles s).isUserGrantee) hnodup (run_some _ _ _)

theorem reconciled_members (hnodup : (sec.memberships.map Membership.key).Nodup)
    (s : LocalServer) {k : String × String}
    (hk : (sec.reconciled s).isUser k.1 ∧ (sec.reconciled s).isUser k.2) :
    (∀ m ∈ sec.memberships, m.key = k → (sec.reconciled s).members k = some m.admin) ∧
    (k ∉ sec.memberships.map Membership.key → (sec.reconciled s).members k = none) := by
  obtain ⟨hgranted, hother⟩ :=
    grantedMembers_spec hnodup (revokedMembers (sec.withRoles s).isUser s.members)
  rw [isUser_reconciled] at hk
  refine ⟨?_, fun hmem => ?_⟩
  · rintro m hm rfl
    exact (hgranted m hm).trans (by simp [revokedMembers_pos hk])
  · exact (hother k hmem).trans (revokedMembers_pos hk)

/-- **Second time.** What was reconciled is reconciled to itself. -/
theorem reconciled_reconciled (htables : (sec.tables.map RlsFlag.key).Nodup)
    (hmembers : (sec.memberships.map Membership.key).Nodup) (s : LocalServer) :
    sec.reconciled (sec.reconciled s) = sec.reconciled s := by
  obtain ⟨hdone, hother⟩ := reconciled_tables htables s
  obtain ⟨hdone', hother'⟩ := reconciled_tables htables (sec.reconciled s)
  have hparts : (sec.reconciled (sec.reconciled s)).tables = (sec.reconciled s).tables := by
    funext k
    by_cases hk : k ∈ sec.tables.map RlsFlag.key
    · obtain ⟨t, ht, rfl⟩ := List.mem_map.1 hk
      rw [hdone' t ht, hdone t ht, withRoles_reconciled]
      exact tableAfter_tableAfter _ t _
    · exact hother' k hk
  have hmems : (sec.reconciled (sec.reconciled s)).members = (sec.reconciled s).members := by
    change sec.grantedMembers (revokedMembers (sec.withRoles (sec.reconciled s)).isUser _) = _
    rw [withRoles_reconciled]
    exact members_again hmembers _ _
  rw [LocalServer.mk.injEq]
  exact ⟨rfl, rolesAfter_rolesAfter _, hmems, hparts⟩

/-- **Spec of `reconcile_security`.** When no statement fails, it is known what the state
becomes. -/
theorem Reconciles.eq {s s' : LocalServer} (h : sec.Reconciles s s') :
    s' = sec.reconciled s ∧ sec.Accepted s'.hasRole := by
  obtain ⟨have_, listed, s₁, s₂, hhave, hroles, hlisted, hmembers, htables⟩ := h
  obtain rfl := LocalServer.run_roleStmts (fun name hname => (hhave name).1 hname) hroles
  obtain ⟨hfound, hs₂⟩ := (LocalServer.run_memberStmts hlisted).1 hmembers
  have hhave₂ : ∀ name, name ∈ sec.haveAfter have_ ↔ s₂.isUser name := by
    intro name
    rw [hs₂, mem_haveAfter, hhave]
    exact isUser_withRoles.symm
  obtain ⟨haccepted, rfl⟩ := (run_turns hhave₂).1 htables
  subst hs₂
  exact ⟨rfl, hfound, haccepted⟩

/-- The statements are accepted where the roles of the catalog exist. The server has finitely many
roles and memberships. -/
theorem reconciles_reconciled {s : LocalServer} {have_ : List String} {listed : List Membership}
    (hhave : ∀ name, name ∈ have_ ↔ s.isUser name) (hroles : ∀ r ∈ sec.roles, r.name ∈ have_)
    (hlisted : ∀ k, k ∈ listed.map Membership.key ↔
      s.isUser k.1 ∧ s.isUser k.2 ∧ (s.members k).isSome)
    (haccepted : sec.Accepted s.hasRole) : sec.Reconciles s (sec.reconciled s) := by
  have hsame : ∀ name, (sec.withRoles s).isUser name ↔ s.isUser name := by
    intro name
    rw [isUser_withRoles, or_iff_left_iff_imp]
    intro hname
    obtain ⟨r, hr, rfl⟩ := List.mem_map.1 hname
    exact (hhave r.name).1 (hroles r hr)
  have hrole : (sec.withRoles s).hasRole = s.hasRole := by
    funext name
    unfold LocalServer.hasRole
    rw [Bool.eq_iff_iff.2 (hsame name)]
    rfl
  rw [← hrole] at haccepted
  have hlisted₁ : ∀ k, k ∈ listed.map Membership.key ↔ (sec.withRoles s).isUser k.1 ∧
      (sec.withRoles s).isUser k.2 ∧ ((sec.withRoles s).members k).isSome := by
    intro k
    rw [hlisted, hsame, hsame]
    rfl
  have hhave₂ : ∀ name, name ∈ sec.haveAfter have_ ↔ (sec.withRoles s).isUser name := by
    intro name
    rw [mem_haveAfter, hhave, isUser_withRoles]
  refine ⟨have_, listed, sec.withRoles s, _, hhave,
    LocalServer.run_roleStmts_of_forall (fun name hname => (hhave name).1 hname) hroles, hlisted₁,
    (LocalServer.run_memberStmts hlisted₁).2 ⟨haccepted.members, rfl⟩,
    (run_turns ?_).2 ⟨haccepted.tables, rfl⟩⟩
  exact hhave₂

/-- A second run ends in the state it starts from, and does come to its end. -/
theorem Reconciles.again (htables : (sec.tables.map RlsFlag.key).Nodup)
    (hmembers : (sec.memberships.map Membership.key).Nodup) {s s' s'' : LocalServer}
    (h : sec.Reconciles s s') : sec.Reconciles s' s'' ↔ s'' = s' := by
  have hall := h
  obtain ⟨have_, -, -, -, hhave, -, -, -, -⟩ := hall
  obtain ⟨rfl, haccepted⟩ := h.eq
  have hsame := reconciled_reconciled htables hmembers s
  constructor
  · intro h'
    rw [h'.eq.1, hsame]
  · rintro rfl
    let listed := sec.memberships.filter fun m =>
      (sec.reconciled s).isUser m.grp && (sec.reconciled s).isUser m.member
    have hlisted : ∀ k, k ∈ listed.map Membership.key ↔ (sec.reconciled s).isUser k.1 ∧
        (sec.reconciled s).isUser k.2 ∧ ((sec.reconciled s).members k).isSome := by
      intro k
      constructor
      · intro hk
        obtain ⟨m, hm, rfl⟩ := List.mem_map.1 hk
        obtain ⟨hm, huser⟩ := List.mem_filter.1 hm
        have huser := Bool.and_eq_true_iff.1 huser
        refine ⟨huser.1, huser.2, ?_⟩
        rw [(reconciled_members hmembers s huser).1 m hm rfl]
        rfl
      · rintro ⟨hgrp, hmember, hsome⟩
        obtain ⟨-, hnone⟩ := reconciled_members hmembers s ⟨hgrp, hmember⟩
        by_cases hk : k ∈ sec.memberships.map Membership.key
        · obtain ⟨m, hm, rfl⟩ := List.mem_map.1 hk
          exact List.mem_map_of_mem
            (List.mem_filter.2 ⟨hm, Bool.and_eq_true_iff.2 ⟨hgrp, hmember⟩⟩)
        · rw [hnone hk] at hsome
          exact absurd hsome Bool.false_ne_true
    have hhave' : ∀ name, name ∈ sec.haveAfter have_ ↔ (sec.reconciled s).isUser name := by
      intro name
      rw [mem_haveAfter, hhave, isUser_reconciled, isUser_withRoles]
    have hroles : ∀ r ∈ sec.roles, r.name ∈ sec.haveAfter have_ := by
      intro r hr
      exact mem_haveAfter.2 (.inr (List.mem_map_of_mem hr))
    have hrun := reconciles_reconciled hhave' hroles hlisted haccepted
    rwa [hsame] at hrun

end SecurityCatalog

end Pglite.Replica
