import Pglite.Replica.LocalServer

/-!
# The local security state, listed

`LocalSecurity` is what the queries list of a server (`LocalSecurity.server`), and a statement that
succeeds on it succeeds on that server (`exec_server`). So `reconcile_security` on the lists is a
reconcile of the server (`reconciles_server`), and what the server becomes is known.

The memberships, the row level security flags, the `SELECT` grants and the policies of the published
tables are then those of the catalog, whatever they were before (`reconcile_establishes`). This needs
that grants are to roles that exist (`LocalSecurity.Sound`), which the server sees to.
-/

namespace Pglite.Replica

open Runs

namespace LocalSecurity

/-! ## The server of a list -/

/-- Whether there is the membership, and with the admin option. -/
def membership (l : LocalSecurity) (k : String × String) : Option Bool :=
  if k ∈ l.members.map Membership.key then some (decide (⟨k.1, k.2, true⟩ ∈ l.members)) else none

/-- The server that is listed. No role may log in or bypass row level security, and there is no
membership in a role that is built in. -/
def server (l : LocalSecurity) : LocalServer where
  builtin name := decide (name ∈ l.builtin)
  roles name := (l.roles.find? fun r => decide (r.name = name)).map fun r => ⟨r.inherit, false, false⟩
  members := l.membership
  tables := l.tables

theorem isUser_server (l : LocalSecurity) (name : String) : l.server.isUser name = l.isUser name := by
  rw [Bool.eq_iff_iff]
  simp [LocalServer.isUser, server, isUser, roleNames]

theorem hasRole_server (l : LocalSecurity) : l.server.hasRole = l.hasRole := by
  funext name
  rw [LocalServer.hasRole, isUser_server]
  rfl

/-- Grantees are roles. -/
theorem exec_hasRole {grantee hasRole : String → Bool} (hle : ∀ name, grantee name → hasRole name)
    {ts ts' : TableSecurity} {stmt : TableStmt} (h : ts.exec grantee hasRole stmt = some ts') :
    ts.exec hasRole hasRole stmt = some ts' := by
  have hexists : ∀ g : Grantee, g.exists grantee → g.exists hasRole := by
    intro g hg
    cases g with
    | everyone => rfl
    | role name => exact hle name hg
  cases stmt with
  | revokeSelect g | grantSelect g =>
    obtain ⟨hg, h⟩ := Option.ite_none_right_eq_some.1 h
    exact (if_pos (hexists g hg)).trans h
  | _ => exact h

theorem find_alterRole (roles : List RoleDef) (name : String) (inherit : Bool) (n : String) :
    (roles.map fun r => if r.name = name then { r with inherit := inherit } else r).find?
        (fun r => decide (r.name = n)) =
      (roles.find? fun r => decide (r.name = n)).map fun r =>
        if r.name = name then { r with inherit := inherit } else r := by
  rw [List.find?_map]
  have hname : ((fun r : RoleDef => decide (r.name = n)) ∘ fun r : RoleDef =>
      if r.name = name then { r with inherit := inherit } else r) = fun r => decide (r.name = n) := by
    funext r
    by_cases hr : r.name = name <;> simp [hr]
  rw [hname]

theorem name_of_find {roles : List RoleDef} {name : String} {r : RoleDef}
    (h : roles.find? (fun r => decide (r.name = name)) = some r) : r.name = name := by
  simpa using List.find?_some h

theorem membership_filter (l : LocalSecurity) (grp member : String) :
    membership { l with
      members := l.members.filter fun m => decide (¬ (m.grp = grp ∧ m.member = member)) } =
      Function.update l.membership (grp, member) none := by
  funext k
  by_cases hk : k = (grp, member)
  · subst hk
    have hgone : (grp, member) ∉ (l.members.filter fun m =>
        decide (¬ (m.grp = grp ∧ m.member = member))).map Membership.key := by
      intro hmem
      obtain ⟨m, hm, hkey⟩ := List.mem_map.1 hmem
      exact of_decide_eq_true (List.mem_filter.1 hm).2
        ⟨congrArg Prod.fst hkey, congrArg Prod.snd hkey⟩
    rw [Function.update_self, membership, if_neg hgone]
  · have hkeep : ∀ m : Membership, m.key = k → ¬ (m.grp = grp ∧ m.member = member) :=
      fun m hm h => hk (hm.symm.trans (Prod.ext h.1 h.2))
    have hkey : k ∈ (l.members.filter fun m =>
        decide (¬ (m.grp = grp ∧ m.member = member))).map Membership.key ↔
          k ∈ l.members.map Membership.key := by
      simp only [List.mem_map, List.mem_filter, decide_eq_true_iff]
      exact ⟨fun ⟨m, hm, hmk⟩ => ⟨m, hm.1, hmk⟩, fun ⟨m, hm, hmk⟩ => ⟨m, ⟨hm, hkeep m hmk⟩, hmk⟩⟩
    have hadmin : ⟨k.1, k.2, true⟩ ∈ l.members.filter (fun m =>
        decide (¬ (m.grp = grp ∧ m.member = member))) ↔ ⟨k.1, k.2, true⟩ ∈ l.members := by
      rw [List.mem_filter, decide_eq_true_iff]
      exact and_iff_left (hkeep ⟨k.1, k.2, true⟩ rfl)
    rw [Function.update_of_ne hk]
    simp only [membership, hkey, hadmin]

theorem membership_append (l : LocalSecurity) (grp member : String) (admin : Bool) :
    membership { l with members := l.members ++ [⟨grp, member, admin⟩] } =
      Function.update l.membership (grp, member)
        (some (admin || decide (l.membership (grp, member) = some true))) := by
  funext k
  by_cases hk : k = (grp, member)
  · subst hk
    rw [Function.update_self]
    simp only [membership, List.map_append, List.mem_append]
    by_cases hadmin : ⟨grp, member, true⟩ ∈ l.members
    · have hheld : (grp, member) ∈ l.members.map Membership.key :=
        List.mem_map.2 ⟨_, hadmin, rfl⟩
      simp [hheld, hadmin]
    · by_cases hheld : (grp, member) ∈ l.members.map Membership.key <;>
        cases admin <;> simp [hheld, hadmin, Membership.key]
  · have hne : ∀ admin, k ≠ Membership.key ⟨grp, member, admin⟩ := fun _ => hk
    have hneadmin : (⟨k.1, k.2, true⟩ : Membership) ≠ ⟨grp, member, admin⟩ := by
      intro h
      rw [Membership.mk.injEq] at h
      exact hk (Prod.ext h.1 h.2.1)
    rw [Function.update_of_ne hk]
    simp [membership, hne, hneadmin]

/-- **A statement on the lists** is one of the server. -/
theorem exec_server {l l' : LocalSecurity} {stmt : SecurityStmt} (h : l.exec stmt = some l') :
    l.server.exec stmt = some l'.server := by
  have huser : ∀ {name}, l.isUser name → l.hasRole name := fun h => by simp [hasRole, h]
  cases stmt with
  | createRole name =>
    rw [exec] at h
    split_ifs at h with hrole
    obtain rfl := Option.some.inj h
    have hnew : l.isUser name = false := by
      rw [hasRole, Bool.not_eq_true, Bool.or_eq_false_iff] at hrole
      exact hrole.1
    rw [LocalServer.exec, hasRole_server, if_neg hrole]
    refine congrArg some ?_
    rw [LocalServer.mk.injEq]
    refine ⟨rfl, funext fun n => ?_, rfl, rfl⟩
    have hnone : l.server.roles name = none := by
      rw [← Option.not_isSome_iff_eq_none]
      exact fun hsome => absurd ((isUser_server l name).symm.trans hsome) (by rw [hnew]; decide)
    by_cases hn : n = name
    · subst hn
      have hfind : l.roles.find? (fun r => decide (r.name = n)) = none :=
        Option.map_eq_none_iff.1 hnone
      simp [server, hfind]
    · rw [Function.update_of_ne hn]
      simp [server, List.find?_append, Ne.symm hn]
  | alterRole name inherit =>
    obtain ⟨hrole, h⟩ := Option.ite_none_right_eq_some.1 h
    obtain rfl := Option.some.inj h
    rw [LocalServer.exec, hasRole_server, if_pos hrole]
    refine congrArg some ?_
    rw [LocalServer.mk.injEq]
    refine ⟨rfl, funext fun n => ?_, rfl, rfl⟩
    change _ = Option.map _ (List.find? _ (l.roles.map _))
    rw [find_alterRole, Option.map_map]
    by_cases hn : n = name
    · subst hn
      rw [Function.update_self, server, Option.map_map]
      refine Option.map_congr fun r hr => ?_
      simp [name_of_find hr]
    · rw [Function.update_of_ne hn]
      refine Option.map_congr fun r hr => ?_
      simp [name_of_find hr, hn]
  | revokeRole grp member =>
    obtain ⟨hroles, h⟩ := Option.ite_none_right_eq_some.1 h
    obtain rfl := Option.some.inj h
    rw [Bool.and_eq_true] at hroles
    have hboth : (l.hasRole grp && l.hasRole member) = true := by
      rw [huser hroles.1, huser hroles.2]
      rfl
    rw [LocalServer.exec, hasRole_server, if_pos hboth]
    refine congrArg some ?_
    rw [LocalServer.mk.injEq]
    exact ⟨rfl, rfl, (membership_filter l grp member).symm, rfl⟩
  | grantRole grp member admin =>
    obtain ⟨hroles, h⟩ := Option.ite_none_right_eq_some.1 h
    obtain rfl := Option.some.inj h
    rw [Bool.and_eq_true] at hroles
    have hboth : (l.hasRole grp && l.hasRole member) = true := by
      rw [huser hroles.1, huser hroles.2]
      rfl
    rw [LocalServer.exec, hasRole_server, if_pos hboth]
    refine congrArg some ?_
    rw [LocalServer.mk.injEq]
    exact ⟨rfl, rfl, (membership_append l grp member admin).symm, rfl⟩
  | table t stmt =>
    obtain ⟨ts, hts, rfl⟩ := Option.map_eq_some_iff.1 h
    have hts' := exec_hasRole (fun name => huser) hts
    rw [← hasRole_server] at hts'
    exact Option.map_eq_some_iff.2 ⟨ts, hts', rfl⟩

/-- A policy may be for a role that is built in. -/
example : (exec ⟨["pg_monitor"], [], [], fun _ => .fresh⟩ (.table ("public", "notes") (.createPolicy
    ⟨"public", "notes", "all", true, "SELECT", ["pg_monitor"], some "true", none⟩))).isSome := by
  decide +kernel

theorem execAll_server {l l' : LocalSecurity} {stmts : List SecurityStmt}
    (h : l.execAll stmts = some l') : run LocalServer.exec l.server stmts = some l'.server :=
  run_view (fun _ _ _ => exec_server) h

/-! ## Grants are to roles that exist -/

/-- Grants are to roles that exist. -/
def Sound (l : LocalSecurity) : Prop :=
  ∀ t name, (l.tables t).select (.role name) = true → name ∈ l.roleNames

/-- A statement on a table grants to roles that exist. -/
theorem select_of_exec {grantee hasRole : String → Bool} {ts ts' : TableSecurity} {stmt : TableStmt}
    (h : ts.exec grantee hasRole stmt = some ts') {name : String}
    (hselect : ts'.select (.role name) = true) :
    ts.select (.role name) = true ∨ grantee name = true := by
  cases stmt with
  | revokeSelect g =>
    rw [TableSecurity.exec] at h
    split_ifs at h
    obtain rfl := Option.some.inj h
    by_cases hg : .role name = g
    · simp [hg] at hselect
    · exact .inl (by simpa [hg] using hselect)
  | grantSelect g =>
    rw [TableSecurity.exec] at h
    split_ifs at h with hexists
    obtain rfl := Option.some.inj h
    by_cases hg : .role name = g
    · subst hg
      exact .inr hexists
    · exact .inl (by simpa [hg] using hselect)
  | createPolicy p =>
    rw [TableSecurity.exec] at h
    split_ifs at h
    obtain rfl := Option.some.inj h
    exact .inl hselect
  | enableRls | forceRls | noForceRls | disableRls | dropPolicy =>
    obtain rfl := Option.some.inj h
    exact .inl hselect

theorem alterRole_roleNames (l : LocalSecurity) (name : String) (inherit : Bool) :
    (l.roles.map fun r => if r.name = name then { r with inherit := inherit } else r).map
      RoleDef.name = l.roleNames := by
  rw [List.map_map]
  refine List.map_congr_left fun r _ => ?_
  by_cases hr : r.name = name <;> simp [hr]

theorem Sound.exec {l l' : LocalSecurity} {stmt : SecurityStmt} (h : l.Sound)
    (hexec : l.exec stmt = some l') : l'.Sound := by
  cases stmt with
  | createRole name =>
    rw [LocalSecurity.exec] at hexec
    split_ifs at hexec
    obtain rfl := Option.some.inj hexec
    intro t n hselect
    obtain ⟨r, hr, hname⟩ := List.mem_map.1 (h t n hselect)
    exact List.mem_map.2 ⟨r, List.mem_append_left _ hr, hname⟩
  | alterRole name inherit =>
    rw [LocalSecurity.exec] at hexec
    split_ifs at hexec
    obtain rfl := Option.some.inj hexec
    intro t n hselect
    rw [roleNames, alterRole_roleNames]
    exact h t n hselect
  | revokeRole grp member =>
    rw [LocalSecurity.exec] at hexec
    split_ifs at hexec
    obtain rfl := Option.some.inj hexec
    exact h
  | grantRole grp member admin =>
    rw [LocalSecurity.exec] at hexec
    split_ifs at hexec
    obtain rfl := Option.some.inj hexec
    exact h
  | table t stmt =>
    obtain ⟨ts, hts, rfl⟩ := Option.map_eq_some_iff.1 hexec
    intro t' n hselect
    change (Function.update l.tables t ts t').select (.role n) = true at hselect
    by_cases ht : t' = t
    · subst ht
      rw [Function.update_self] at hselect
      rcases select_of_exec hts hselect with hold | hrole
      · exact h t' n hold
      · exact of_decide_eq_true hrole
    · rw [Function.update_of_ne ht] at hselect
      exact h t' n hselect

theorem Sound.execAll {l l' : LocalSecurity} {stmts : List SecurityStmt} (h : l.Sound)
    (hexec : l.execAll stmts = some l') : l'.Sound :=
  run_invariant' (fun _ _ _ h hstep => h.exec hstep) h hexec

/-! ## The loops, on the lists -/

/-- The loop over the roles leaves the memberships and the tables. -/
theorem along_roleStmts {sec : SecurityCatalog} {have_ : List String} {l : LocalSecurity} :
    Along exec (fun l' => l'.members = l.members ∧ l'.tables = l.tables) l
      (sec.roleStmts have_) := by
  refine along_invariant (fun l₁ stmt l₂ hl hmem hexec => ?_) ⟨rfl, rfl⟩
  obtain ⟨r, -, hmem⟩ := List.mem_flatMap.1 hmem
  rcases List.mem_append.1 hmem with hmem | hmem
  · split_ifs at hmem
    · exact absurd hmem List.not_mem_nil
    · obtain rfl := List.mem_singleton.1 hmem
      rw [LocalSecurity.exec] at hexec
      split_ifs at hexec
      obtain rfl := Option.some.inj hexec
      exact hl
  · obtain rfl := List.mem_singleton.1 hmem
    obtain ⟨-, hexec⟩ := Option.ite_none_right_eq_some.1 hexec
    obtain rfl := Option.some.inj hexec
    exact hl

theorem roleStmts_kept {sec : SecurityCatalog} {have_ : List String} {l l' : LocalSecurity}
    (h : l.execAll (sec.roleStmts have_) = some l') :
    l'.members = l.members ∧ l'.tables = l.tables :=
  along_roleStmts _ l' (List.prefix_refl _) h

theorem run_revokeRole {ms : List Membership} {l l' : LocalSecurity} :
    l.execAll (ms.map fun m => .revokeRole m.grp m.member) = some l' ↔
      (∀ m ∈ ms, l.isUser m.grp && l.isUser m.member) ∧
      l' = { l with members := (l.members.filter fun m =>
        decide (∀ m' ∈ ms, ¬ (m.grp = m'.grp ∧ m.member = m'.member))) } := by
  induction ms generalizing l with
  | nil =>
    constructor
    · intro h
      obtain rfl := Option.some.inj h
      simp
    · rintro ⟨-, rfl⟩
      simp [execAll]
  | cons m ms ih =>
    rw [List.map_cons, execAll, run, exec, List.forall_mem_cons]
    by_cases hroles : l.isUser m.grp && l.isUser m.member
    · rw [if_pos hroles, Option.bind_some]
      refine ih.trans (and_congr (and_iff_right hroles).symm ?_)
      rw [List.filter_filter]
      have hnames : (fun m₁ : Membership =>
          decide (∀ m' ∈ ms, ¬ (m₁.grp = m'.grp ∧ m₁.member = m'.member)) &&
            decide (¬ (m₁.grp = m.grp ∧ m₁.member = m.member))) = fun m₁ =>
          decide (∀ m' ∈ m :: ms, ¬ (m₁.grp = m'.grp ∧ m₁.member = m'.member)) := by
        funext m₁
        rw [← Bool.decide_and]
        exact decide_eq_decide.2 (by rw [List.forall_mem_cons, and_comm])
      rw [hnames]
    · rw [if_neg hroles, Option.bind_none]
      exact iff_of_false (by simp) fun h => hroles h.1.1

theorem run_grantRole {ms : List Membership} {l l' : LocalSecurity}
    (h : l.execAll (ms.map fun m => .grantRole m.grp m.member m.admin) = some l') :
    l' = { l with members := l.members ++ ms } := by
  induction ms generalizing l with
  | nil =>
    obtain rfl := Option.some.inj h
    simp
  | cons m ms ih =>
    obtain ⟨l₁, hfirst, hrest⟩ := run_cons_eq_some.1 h
    rw [LocalSecurity.exec] at hfirst
    split_ifs at hfirst
    obtain rfl := Option.some.inj hfirst
    rw [ih hrest]
    simp

/-- Revoking every membership leaves none. -/
theorem run_revokeAll {l l' : LocalSecurity}
    (h : l.execAll (l.members.map fun m => .revokeRole m.grp m.member) = some l') :
    l' = { l with members := [] } := by
  have hnone : l.members.filter (fun m =>
      decide (∀ m' ∈ l.members, ¬ (m.grp = m'.grp ∧ m.member = m'.member))) = [] := by
    refine List.filter_eq_nil_iff.2 fun m hm => ?_
    simpa using ⟨m, hm, rfl, rfl⟩
  rw [(run_revokeRole.1 h).2, hnone]

/-- The memberships are those of the catalog, in its order. -/
theorem memberStmts_done {sec : SecurityCatalog} {l l' : LocalSecurity}
    (h : l.execAll (sec.memberStmts l.members) = some l') :
    l' = { l with members := sec.memberships } := by
  obtain ⟨l₁, hrevoke, hgrant⟩ := run_append_eq_some.1 h
  rw [run_grantRole hgrant, run_revokeAll hrevoke]
  rfl

/-- A statement on one table works on its security alone. -/
theorem exec_table (l : LocalSecurity) (t : TableKey) (ts : TableSecurity) (stmt : TableStmt) :
    LocalSecurity.exec { l with tables := Function.update l.tables t ts } (.table t stmt) =
      (ts.exec l.isUser l.hasRole stmt).map fun ts =>
        { l with tables := Function.update l.tables t ts } := by
  show ((Function.update l.tables t ts t).exec l.isUser l.hasRole stmt).map (fun ts' =>
    LocalSecurity.mk l.builtin l.roles l.members (Function.update (Function.update l.tables t ts) t ts')) = _
  rw [Function.update_self]
  simp only [Function.update_idem]

theorem run_table {l l' : LocalSecurity} {t : TableKey} {stmts : List TableStmt}
    (h : l.execAll (stmts.map (.table t)) = some l') :
    ∃ ts, run (TableSecurity.exec l.isUser l.hasRole) (l.tables t) stmts = some ts ∧
      l' = { l with tables := Function.update l.tables t ts } := by
  have hrun := run_map (exec_table l t) (l.tables t) stmts
  rw [Function.update_eq_self] at hrun
  obtain ⟨ts, hts, hl'⟩ := Option.map_eq_some_iff.1 (hrun.symm.trans h)
  exact ⟨ts, hts, hl'.symm⟩

end LocalSecurity

/-! ## The whole of it -/

namespace SecurityCatalog

variable {sec : SecurityCatalog} {l l' : LocalSecurity} {have_ : List String}

theorem mem_tablesStmts {ts : List RlsFlag} {stmt : SecurityStmt} (h : stmt ∈ sec.tablesStmts have_ ts l) :
    ∃ t ∈ ts, ∃ s, stmt = .table t.key s := by
  induction ts generalizing l with
  | nil => cases h
  | cons t ts ih =>
    rcases List.mem_append.1 h with h | h
    · obtain ⟨s, -, rfl⟩ := List.mem_map.1 h
      exact ⟨t, List.mem_cons_self, s, rfl⟩
    · cases hl : l.execAll ((sec.tableStmts have_ (l.tables t.key).policies t).map (.table t.key)) with
      | none =>
        rw [hl] at h
        cases h
      | some l' =>
        rw [hl] at h
        obtain ⟨t', ht', s, rfl⟩ := ih h
        exact ⟨t', List.mem_cons_of_mem _ ht', s, rfl⟩

/-- The roles after the loop over them are those that `reconcile_security` takes to exist. -/
theorem roleStmts_names (h : l.execAll (sec.roleStmts l.roleNames) = some l') {name : String} :
    name ∈ l'.roleNames ↔ name ∈ sec.haveAfter l.roleNames := by
  have huser : ∀ (u : LocalSecurity) n, n ∈ u.roleNames ↔ u.server.isUser n := by
    intro u n
    rw [LocalSecurity.isUser_server]
    exact decide_eq_true_iff.symm
  have hserver := LocalServer.run_roleStmts (fun n => (huser l n).1) (LocalSecurity.execAll_server h)
  rw [huser, hserver, isUser_withRoles, mem_haveAfter, huser]

/-- The loop over the tables leaves the memberships. -/
theorem tablesStmts_members {ts : List RlsFlag} (h : l.execAll (sec.tablesStmts have_ ts l) = some l') :
    l'.members = l.members := by
  have hway : Along LocalSecurity.exec (fun u => u.members = l.members) l
      (sec.tablesStmts have_ ts l) := by
    refine along_invariant (fun u stmt u' hu hmem hexec => ?_) rfl
    obtain ⟨t, -, s, rfl⟩ := mem_tablesStmts hmem
    obtain ⟨ts', -, rfl⟩ := Option.map_eq_some_iff.1 hexec
    exact hu
  exact hway _ l' (List.prefix_refl _) h

/-- The loop over the tables is that of the server. -/
theorem turns_server {ts : List RlsFlag} (h : l.execAll (sec.tablesStmts have_ ts l) = some l') :
    run (sec.turn have_) l.server ts = some l'.server := by
  induction ts generalizing l with
  | nil =>
    obtain rfl := Option.some.inj h
    rfl
  | cons t ts ih =>
    obtain ⟨l₁, hfirst, h⟩ := run_append_eq_some.1 h
    change l₁.execAll (((l.execAll _).map _).getD []) = some l' at h
    rw [show l.execAll _ = some l₁ from hfirst] at h
    exact run_cons_eq_some.2 ⟨l₁.server, LocalSecurity.execAll_server hfirst, ih h⟩

/-- **`reconcile_security` on the lists** is one of the server. -/
theorem reconciles_server (h : l.execAll (sec.reconcile l) = some l') :
    sec.Reconciles l.server l'.server := by
  obtain ⟨l₂, hfirst, h⟩ := run_append_eq_some.1 h
  change l₂.execAll (((l.execAll _).map _).getD []) = some l' at h
  rw [show l.execAll _ = some l₂ from hfirst] at h
  obtain ⟨l₁, hroles, hmembers⟩ := run_append_eq_some.1 hfirst
  rw [← (LocalSecurity.roleStmts_kept hroles).1] at hmembers
  obtain ⟨l₁', hrevoke, -⟩ := run_append_eq_some.1 hmembers
  refine ⟨l.roleNames, l₁.members, l₁.server, l₂.server, fun name => ?_,
    LocalSecurity.execAll_server hroles, fun k => ?_, LocalSecurity.execAll_server hmembers,
    turns_server h⟩
  · rw [LocalSecurity.isUser_server]
    exact decide_eq_true_iff.symm
  · rw [LocalSecurity.isUser_server, LocalSecurity.isUser_server]
    change _ ↔ _ ∧ _ ∧ (l₁.membership k).isSome
    unfold LocalSecurity.membership
    constructor
    · intro hk
      obtain ⟨m, hm, rfl⟩ := List.mem_map.1 hk
      have husers := Bool.and_eq_true_iff.1 ((LocalSecurity.run_revokeRole.1 hrevoke).1 m hm)
      exact ⟨husers.1, husers.2, by rw [if_pos hk]; rfl⟩
    · rintro ⟨-, -, hsome⟩
      by_contra hk
      rw [if_neg hk] at hsome
      exact absurd hsome Bool.false_ne_true

/-- The local state is in line with the catalog. -/
structure Established (sec : SecurityCatalog) (l : LocalSecurity) : Prop where
  members : ∀ m, m ∈ l.members ↔ m ∈ sec.memberships
  rls : ∀ t ∈ sec.tables, (l.tables t.key).rls = t.enabled ∧ (l.tables t.key).forced = t.enabled
  select : ∀ t ∈ sec.tables, ∀ g, (l.tables t.key).select g = true ↔ g ∈ sec.granteesOn t.key
  policies : ∀ t ∈ sec.tables, ∀ p, p ∈ (l.tables t.key).policies ↔ p ∈ sec.policiesOn t.key

/-- **Spec of `reconcile_security`.** When no statement fails, the local state is in line with the
catalog, whatever it was before. -/
theorem reconcile_establishes (hsound : l.Sound) (hnodup : (sec.tables.map RlsFlag.key).Nodup)
    (h : l.execAll (sec.reconcile l) = some l') : sec.Established l' := by
  have hserver : l'.server = sec.reconciled l.server := (reconciles_server h).eq.1
  have htables : ∀ t ∈ sec.tables, l'.tables t.key = sec.tableSecurity t := by
    intro t ht
    refine (congrFun (congrArg LocalServer.tables hserver) t.key).trans ?_
    rw [(reconciled_tables hnodup l.server).1 t ht]
    refine tableAfter_eq fun g hg => ?_
    cases g with
    | everyone => rfl
    | role name =>
      refine isUser_withRoles.2 (.inl ?_)
      rw [LocalSecurity.isUser_server]
      exact decide_eq_true (hsound t.key name hg)
  have hmembers : l'.members = sec.memberships := by
    obtain ⟨l₂, hfirst, h⟩ := run_append_eq_some.1 h
    change l₂.execAll (((l.execAll _).map _).getD []) = some l' at h
    rw [show l.execAll _ = some l₂ from hfirst] at h
    obtain ⟨l₁, hroles, hfirst⟩ := run_append_eq_some.1 hfirst
    rw [← (LocalSecurity.roleStmts_kept hroles).1] at hfirst
    rw [tablesStmts_members h, LocalSecurity.memberStmts_done hfirst]
  refine ⟨fun m => by rw [hmembers], fun t ht => ?_, fun t ht g => ?_, fun t ht p => ?_⟩
  · rw [htables t ht]
    exact ⟨rfl, rfl⟩
  · rw [htables t ht]
    exact decide_eq_true_iff
  · rw [htables t ht]
    rfl

end SecurityCatalog

end Pglite.Replica
