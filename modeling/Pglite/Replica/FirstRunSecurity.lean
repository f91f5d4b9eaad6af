import Pglite.Replica.FirstRun

/-!
# Reconciling once more

An attempt that ends in `reconcile_security` leaves a beginning of the roles of the catalog, and
memberships among them (`Begun`). The next attempt creates the roles that are missing, alters all
of them, and revokes the memberships. From there on it is in the state of an attempt on a database
without roles (`Begun.run_reconcile`). A role with the name of one that is built in ends both.
-/

namespace Pglite.Replica

open Runs

/-- Roles and memberships that `reconcile_security` may have made before it was interrupted. -/
structure Begun (sec : SecurityCatalog) (l : LocalSecurity) : Prop where
  roles : l.roleNames <+: sec.roleNames
  members : ∀ m ∈ l.members, m.grp ∈ l.roleNames ∧ m.member ∈ l.roleNames
  apart : ∀ name ∈ l.roleNames, name ∉ l.builtin

theorem Begun.withTables {sec : SecurityCatalog} {l : LocalSecurity} (h : Begun sec l)
    (tables : TableKey → TableSecurity) : Begun sec { l with tables := tables } :=
  ⟨h.roles, h.members, h.apart⟩

variable {sec : SecurityCatalog} {there : TableKey → Bool} {l l' : LocalSecurity}

/-! ## Roles -/

section Roles

variable {done rest : List RoleDef} {r : RoleDef} {have_ : List String}

/-- The body of the loop over `sec.roles`. -/
def roleStmt (have_ : List String) (r : RoleDef) : List SecurityStmt :=
  (if r.name ∈ have_ then [] else [.createRole r.name]) ++ [.alterRole r.name r.inherit]

/-- `ALTER ROLE` on the one role of this name. -/
theorem exec_alterRole {x : RoleDef} {xs : List RoleDef} (hroles : l.roles = done ++ x :: xs)
    (hname : x.name = r.name) (hdone : r.name ∉ done.map RoleDef.name)
    (hxs : r.name ∉ xs.map RoleDef.name) :
    Server.execSecurity there l (.alterRole r.name r.inherit) =
      some { l with roles := done ++ r :: xs } := by
  have hhas : l.hasRole r.name = true := by
    simp [LocalSecurity.hasRole, LocalSecurity.isUser, LocalSecurity.roleNames, hroles, hname]
  have hsame : ∀ rs : List RoleDef, r.name ∉ rs.map RoleDef.name →
      (rs.map fun q => if q.name = r.name then { q with inherit := r.inherit } else q) = rs := by
    intro rs hrs
    refine (List.map_congr_left fun q hq => if_neg fun heq => hrs ?_).trans (List.map_id' rs)
    exact heq ▸ List.mem_map_of_mem hq
  have hx : (if x.name = r.name then { x with inherit := r.inherit } else x) = r := by
    rw [if_pos hname, hname]
  simp only [Server.execSecurity, LocalSecurity.exec, hhas, if_true, hroles, List.map_append,
    List.map_cons, hsame done hdone, hsame xs hxs, hx]

/-- Between the roles before the loop and those after it. -/
structure Growing (l : LocalSecurity) (names : List String) (u : LocalSecurity) : Prop where
  longer : l.roleNames <+: u.roleNames
  shorter : u.roleNames <+: names
  apart : ∀ name ∈ u.roleNames, name ∉ u.builtin
  others : u = { l with roles := u.roles }

/-- **The loop over the roles**, from a beginning of them. It fails at a role that is built in. -/
theorem roles_loop (hnodup : ((done ++ rest).map RoleDef.name).Nodup) {later : List RoleDef}
    (hroles : l.roles = done ++ later)
    (hlater : later.map RoleDef.name <+: rest.map RoleDef.name)
    (hapart : ∀ name ∈ l.roleNames, name ∉ l.builtin)
    (hhave : ∀ q ∈ rest, q.name ∈ have_ ↔ q.name ∈ l.roleNames) :
    Along (Server.execSecurity there) (Growing l ((done ++ rest).map RoleDef.name)) l
        (rest.flatMap (roleStmt have_)) ∧
      ((∀ q ∈ rest, q.name ∉ l.builtin) →
        run (Server.execSecurity there) l (rest.flatMap (roleStmt have_)) =
          some { l with roles := done ++ rest }) := by
  induction rest generalizing done later l with
  | nil =>
    obtain rfl : later = [] := by simpa using hlater
    obtain ⟨builtin, roles, members, tables⟩ := l
    obtain rfl : roles = done := by simpa using hroles
    rw [List.append_nil]
    exact ⟨along_nil.2 ⟨List.prefix_rfl, List.prefix_rfl, hapart, rfl⟩, fun _ => rfl⟩
  | cons r rest ih =>
    have hsplit : done ++ r :: rest = done ++ [r] ++ rest := by simp
    have hnodup' : ((done ++ [r] ++ rest).map RoleDef.name).Nodup := hsplit ▸ hnodup
    rw [List.map_append, List.map_cons, List.nodup_append, List.nodup_cons] at hnodup
    obtain ⟨-, ⟨hrest, -⟩, hdisjoint⟩ := hnodup
    have hdone : r.name ∉ done.map RoleDef.name := fun hmem =>
      hdisjoint _ hmem _ List.mem_cons_self rfl
    have hother : ∀ q ∈ rest, q.name ≠ r.name := fun q hq heq =>
      hrest (heq ▸ List.mem_map_of_mem hq)
    rw [hsplit, List.flatMap_cons]
    cases later with
    | nil =>
      -- The role is missing, and so are all after it.
      have hnames : l.roleNames = done.map RoleDef.name := by
        rw [LocalSecurity.roleNames, hroles, List.append_nil]
      have hnew : r.name ∉ have_ := fun hmem =>
        hdone (hnames ▸ (hhave r List.mem_cons_self).1 hmem)
      have hfirst : Growing l ((done ++ [r] ++ rest).map RoleDef.name) l :=
        ⟨List.prefix_rfl, by simp [hnames], hapart, rfl⟩
      rw [roleStmt, if_neg hnew]
      by_cases hclash : r.name ∈ l.builtin
      · have hcreate : Server.execSecurity there l (.createRole r.name) = none := by
          simp [Server.execSecurity, LocalSecurity.exec, LocalSecurity.hasRole, hclash]
        refine ⟨Along.cons hfirst fun u hu => ?_, fun hfree => ?_⟩
        · rw [hcreate] at hu
          cases hu
        · exact absurd hclash (hfree r List.mem_cons_self)
      · have hmissing : l.hasRole r.name = false := by
          have huser : l.isUser r.name = false := by simpa [LocalSecurity.isUser, hnames] using hdone
          rw [LocalSecurity.hasRole, huser, decide_eq_false hclash]
          rfl
        let v : LocalSecurity := { l with roles := done ++ [⟨r.name, true⟩] }
        have hcreate : Server.execSecurity there l (.createRole r.name) = some v := by
          simp [Server.execSecurity, LocalSecurity.exec, hmissing, hroles, v]
        have halter : Server.execSecurity there v (.alterRole r.name r.inherit) =
            some { l with roles := done ++ [r] } :=
          exec_alterRole rfl rfl hdone List.not_mem_nil
        have hroles' : LocalSecurity.roles { l with roles := done ++ [r] } =
            done ++ [r] ++ [] := (List.append_nil _).symm
        have hapart' : ∀ name ∈ (done ++ [r]).map RoleDef.name, name ∉ l.builtin := by
          intro name hmem
          rw [List.map_append] at hmem
          rcases List.mem_append.1 hmem with hmem | hmem
          · exact hapart name (hnames ▸ hmem)
          · obtain rfl := List.mem_singleton.1 hmem
            exact hclash
        obtain ⟨halong, hrun⟩ := ih hnodup' hroles' List.nil_prefix hapart' fun q hq => by
          rw [hhave q (List.mem_cons_of_mem r hq), hnames, LocalSecurity.roleNames, List.map_append]
          simp [hother q hq]
        refine ⟨(along_cons hcreate).2 ⟨hfirst, (along_cons halter).2 ⟨?_, halong.mono ?_⟩⟩,
          fun hfree => run_cons_eq_some.2 ⟨_, hcreate, run_cons_eq_some.2 ⟨_, halter, hrun ?_⟩⟩⟩
        · refine ⟨by simp [LocalSecurity.roleNames, hroles, v],
            by simp [LocalSecurity.roleNames, v], fun name hmem => hapart' name ?_, rfl⟩
          simpa [LocalSecurity.roleNames, v] using hmem
        · rintro u ⟨hlonger, hshorter, hapart, hothers⟩
          refine ⟨List.IsPrefix.trans ?_ hlonger, hshorter, hapart, hothers⟩
          simp [LocalSecurity.roleNames, hroles]
        · exact fun q hq => hfree q (List.mem_cons_of_mem r hq)
    | cons x xs =>
      rw [List.map_cons, List.map_cons, List.cons_prefix_cons] at hlater
      obtain ⟨hname, hxs⟩ := hlater
      have hnames : l.roleNames = (done ++ r :: xs).map RoleDef.name := by
        simp [LocalSecurity.roleNames, hroles, hname]
      have hold : r.name ∈ have_ := (hhave r List.mem_cons_self).2 (by simp [hnames])
      have halter : Server.execSecurity there l (.alterRole r.name r.inherit) =
          some { l with roles := done ++ r :: xs } :=
        exec_alterRole hroles hname hdone fun hmem => hrest (hxs.subset hmem)
      have hroles' : LocalSecurity.roles { l with roles := done ++ r :: xs } =
          done ++ [r] ++ xs := by simp
      have hapart' : ∀ name ∈ (done ++ r :: xs).map RoleDef.name, name ∉ l.builtin :=
        fun name hmem => hapart name (hnames ▸ hmem)
      obtain ⟨halong, hrun⟩ := ih hnodup' hroles' hxs hapart' fun q hq => by
        rw [hhave q (List.mem_cons_of_mem r hq), hnames]
        rfl
      rw [roleStmt, if_pos hold]
      refine ⟨(along_cons halter).2 ⟨?_, halong.mono ?_⟩, fun hfree =>
        run_cons_eq_some.2 ⟨_, halter, hrun fun q hq => hfree q (List.mem_cons_of_mem r hq)⟩⟩
      · refine ⟨List.prefix_rfl, ?_, hapart, rfl⟩
        rw [hnames, ← hsplit, List.map_append, List.map_append, List.map_cons, List.map_cons]
        exact (List.prefix_append_right_inj _).2 ((List.prefix_cons_inj _).2 hxs)
      · rintro u ⟨hlonger, hshorter, hapart, hothers⟩
        exact ⟨hnames ▸ hlonger, hshorter, hapart, hothers⟩

/-- **The loop over `sec.roles`** ends with these roles, from any beginning of them, when none is
built in. -/
theorem Begun.run_roleStmts (h : Begun sec l) (hnodup : sec.roleNames.Nodup) :
    Along (Server.execSecurity there) (fun u => Begun sec u ∧ u = { l with roles := u.roles }) l
        (sec.roleStmts l.roleNames) ∧
      ((∀ name ∈ sec.roleNames, name ∉ l.builtin) →
        run (Server.execSecurity there) l (sec.roleStmts l.roleNames) =
          some { l with roles := sec.roles }) := by
  have hnodup' : (([] ++ sec.roles).map RoleDef.name).Nodup := hnodup
  obtain ⟨halong, hrun⟩ := roles_loop hnodup' (List.nil_append l.roles).symm h.roles h.apart
    fun _ _ => Iff.rfl
  refine ⟨halong.mono ?_, fun hfree => hrun fun q hq => hfree _ (List.mem_map_of_mem hq)⟩
  rintro u ⟨hlonger, hshorter, hapart, hothers⟩
  refine ⟨⟨hshorter, fun m hm => ?_, hapart⟩, hothers⟩
  rw [hothers] at hm
  exact ⟨hlonger.subset (h.members m hm).1, hlonger.subset (h.members m hm).2⟩

end Roles

/-! ## Memberships and tables -/

/-- What the loops after that over the roles execute. -/
def Rest (sec : SecurityCatalog) : SecurityStmt → Prop
  | .createRole _ | .alterRole .. => False
  | .table t _ => t ∈ sec.tables.map RlsFlag.key
  | _ => True

theorem rest_memberStmts {members : List Membership} {stmt : SecurityStmt}
    (hstmt : stmt ∈ sec.memberStmts members) : Rest sec stmt := by
  rcases List.mem_append.1 hstmt with hstmt | hstmt
  · obtain ⟨m, -, rfl⟩ := List.mem_map.1 hstmt
    trivial
  · obtain ⟨m, -, rfl⟩ := List.mem_map.1 hstmt
    trivial

theorem rest_tablesStmts {have_ : List String} {ts : List RlsFlag}
    (hts : ∀ t ∈ ts, t ∈ sec.tables) {stmt : SecurityStmt}
    (hstmt : stmt ∈ sec.tablesStmts have_ ts l) : Rest sec stmt := by
  induction ts generalizing l with
  | nil => cases hstmt
  | cons t ts ih =>
    rw [List.forall_mem_cons] at hts
    rw [SecurityCatalog.tablesStmts] at hstmt
    rcases List.mem_append.1 hstmt with hstmt | hstmt
    · obtain ⟨stmt, -, rfl⟩ := List.mem_map.1 hstmt
      exact List.mem_map_of_mem hts.1
    · cases hrun : l.execAll
          ((sec.tableStmts have_ (l.tables t.key).policies t).map (.table t.key)) with
      | none => simp [hrun] at hstmt
      | some u =>
        rw [hrun] at hstmt
        exact ih hts.2 hstmt

/-- The rest of `reconcile_security` changes no roles, and tables of the catalog only that are
there. -/
theorem Begun.exec_rest (h : Begun sec l) {stmt : SecurityStmt} (hstmt : Rest sec stmt)
    (hexec : Server.execSecurity there l stmt = some l') : Begun sec l' ∧
      l'.builtin = l.builtin ∧
      ∀ k, (k ∈ sec.tables.map RlsFlag.key → there k = false) → l'.tables k = l.tables k := by
  cases stmt with
  | createRole name => exact hstmt.elim
  | alterRole name inherit => exact hstmt.elim
  | revokeRole grp member =>
    obtain ⟨-, hexec⟩ := Option.ite_none_right_eq_some.1 hexec
    obtain rfl := Option.some.inj hexec
    exact ⟨⟨h.roles, fun m hm => h.members m (List.mem_of_mem_filter hm), h.apart⟩, rfl, fun _ _ => rfl⟩
  | grantRole grp member admin =>
    obtain ⟨hroles, hexec⟩ := Option.ite_none_right_eq_some.1 hexec
    obtain rfl := Option.some.inj hexec
    rw [Bool.and_eq_true] at hroles
    refine ⟨⟨h.roles, fun m hm => ?_, h.apart⟩, rfl, fun _ _ => rfl⟩
    rcases List.mem_append.1 hm with hm | hm
    · exact h.members m hm
    · obtain rfl := List.mem_singleton.1 hm
      exact ⟨of_decide_eq_true hroles.1, of_decide_eq_true hroles.2⟩
  | table t stmt =>
    obtain ⟨hthere, hexec⟩ := Option.ite_none_right_eq_some.1 hexec
    obtain ⟨ts, -, rfl⟩ := Option.map_eq_some_iff.1 hexec
    refine ⟨h.withTables _, rfl, fun k hk => Function.update_of_ne ?_ _ _⟩
    rintro rfl
    rw [hk hstmt] at hthere
    cases hthere

/-! ## The whole of it -/

/-- The names that are missing are added in order. -/
theorem foldl_missing {done names later : List String} (hnodup : (done ++ names).Nodup)
    (hlater : later <+: names) :
    names.foldl (fun have_ name => if name ∈ have_ then have_ else have_ ++ [name])
      (done ++ later) = done ++ names := by
  induction names generalizing done later with
  | nil =>
    obtain rfl := List.prefix_nil.1 hlater
    rfl
  | cons n names ih =>
    have hsplit : done ++ n :: names = done ++ [n] ++ names := by simp
    have hnodup' : (done ++ [n] ++ names).Nodup := hsplit ▸ hnodup
    have hnew : n ∉ done := fun hn =>
      (List.nodup_append.1 hnodup).2.2 n hn n List.mem_cons_self rfl
    rw [List.foldl_cons, hsplit]
    cases later with
    | nil =>
      rw [List.append_nil, if_neg hnew, ← ih hnodup' List.nil_prefix, List.append_nil]
    | cons x later =>
      obtain ⟨rfl, hlater'⟩ := List.cons_prefix_cons.1 hlater
      rw [if_pos (by simp), ← ih hnodup' hlater']
      simp

theorem haveAfter_eq {have_ : List String} (hnodup : sec.roleNames.Nodup)
    (hhave : have_ <+: sec.roleNames) : sec.haveAfter have_ = sec.roleNames := by
  have hnodup' : ([] ++ sec.roleNames).Nodup := hnodup
  exact foldl_missing hnodup' hhave

/-- The statements of `reconcile_security` that do not depend on what was there before. -/
def commonStmts (sec : SecurityCatalog) (builtin : List String)
    (tables : TableKey → TableSecurity) : List SecurityStmt :=
  let grants := sec.memberships.map fun m => .grantRole m.grp m.member m.admin
  grants ++ ((LocalSecurity.execAll ⟨builtin, sec.roles, [], tables⟩ grants).map
    (sec.tablesStmts sec.roleNames sec.tables)).getD []

theorem run_execSecurity {stmts : List SecurityStmt}
    (hstmts : ∀ t stmt, SecurityStmt.table t stmt ∉ stmts) :
    run (Server.execSecurity there) l stmts = l.execAll stmts := by
  induction stmts generalizing l with
  | nil => rfl
  | cons stmt stmts ih =>
    have hfirst : Server.execSecurity there l stmt = l.exec stmt := by
      cases stmt with
      | table t stmt => exact absurd List.mem_cons_self (hstmts t stmt)
      | _ => rfl
    have hrest : ∀ t stmt, SecurityStmt.table t stmt ∉ stmts := fun t stmt hmem =>
      hstmts t stmt (List.mem_cons_of_mem _ hmem)
    rw [run, hfirst, LocalSecurity.execAll, run]
    exact congrArg _ (funext fun u => ih hrest)

theorem table_not_mem_roleStmts {have_ : List String} (t : TableKey) (stmt : TableStmt) :
    SecurityStmt.table t stmt ∉ sec.roleStmts have_ := by
  intro hmem
  obtain ⟨r, -, hmem⟩ := List.mem_flatMap.1 hmem
  split_ifs at hmem <;> simp at hmem

/-- The loop over `sec.roles` and the revocations. -/
def firstStmts (sec : SecurityCatalog) (l : LocalSecurity) : List SecurityStmt :=
  sec.roleStmts l.roleNames ++ l.members.map fun m => .revokeRole m.grp m.member

/-- A local state without roles and memberships. -/
def LocalSecurity.bare (l : LocalSecurity) : LocalSecurity :=
  { l with roles := [], members := [] }

theorem begun_bare (sec : SecurityCatalog) (l : LocalSecurity) : Begun sec l.bare where
  roles := List.nil_prefix
  members _ h := by cases h
  apart _ h := by cases h

section Free

variable (h : Begun sec l) (hnodup : sec.roleNames.Nodup)
  (hfree : ∀ name ∈ sec.roleNames, name ∉ l.builtin)

include h hnodup hfree

theorem Begun.run_firstStmts : run (Server.execSecurity there) l (firstStmts sec l) =
    some { l with roles := sec.roles, members := [] } := by
  let u : LocalSecurity := { l with roles := sec.roles }
  have husers : ∀ m ∈ l.members, u.isUser m.grp && u.isUser m.member := by
    intro m hm
    obtain ⟨hgrp, hmember⟩ := h.members m hm
    rw [Bool.and_eq_true]
    exact ⟨decide_eq_true (h.roles.subset hgrp), decide_eq_true (h.roles.subset hmember)⟩
  have hrevoke := LocalSecurity.run_revokeRole.2 ⟨husers, rfl⟩
  have hrevoked : u.execAll (l.members.map fun m => .revokeRole m.grp m.member) =
      some { u with members := [] } :=
    hrevoke.trans (congrArg some (LocalSecurity.run_revokeAll (l := u) hrevoke))
  refine (run_append_of ((h.run_roleStmts hnodup).2 hfree) _).trans
    ((run_execSecurity ?_).trans hrevoked)
  intro t stmt hmem
  obtain ⟨m, -, hm⟩ := List.mem_map.1 hmem
  cases hm

theorem Begun.execAll_firstStmts :
    l.execAll (firstStmts sec l) = some { l with roles := sec.roles, members := [] } := by
  have hrun : run (Server.execSecurity fun _ => true) l (firstStmts sec l) =
      some { l with roles := sec.roles, members := [] } := h.run_firstStmts hnodup hfree
  rwa [run_execSecurity] at hrun
  intro t stmt hmem
  rcases List.mem_append.1 hmem with hmem | hmem
  · exact table_not_mem_roleStmts t stmt hmem
  · obtain ⟨m, -, hm⟩ := List.mem_map.1 hmem
    cases hm

/-- `reconcile_security` first brings roles and memberships in line. -/
theorem Begun.reconcile_eq :
    sec.reconcile l = firstStmts sec l ++ commonStmts sec l.builtin l.tables := by
  have hall : ∀ grants, l.execAll (sec.roleStmts l.roleNames ++
      ((l.members.map fun m => .revokeRole m.grp m.member) ++ grants)) =
        LocalSecurity.execAll ⟨l.builtin, sec.roles, [], l.tables⟩ grants := by
    intro grants
    rw [← List.append_assoc]
    exact run_append_of (h.execAll_firstStmts hnodup hfree) grants
  rw [SecurityCatalog.reconcile, SecurityCatalog.memberStmts, hall, haveAfter_eq hnodup h.roles,
    firstStmts, commonStmts, List.append_assoc, List.append_assoc, List.append_assoc]

theorem Begun.run_reconcile_common : run (Server.execSecurity there) l (sec.reconcile l) =
    run (Server.execSecurity there) ⟨l.builtin, sec.roles, [], l.tables⟩
      (commonStmts sec l.builtin l.tables) := by
  rw [h.reconcile_eq hnodup hfree]
  exact run_append_of (h.run_firstStmts hnodup hfree) _

end Free

/-- A role that is built in cannot be created. -/
theorem Begun.run_reconcile_clash (h : Begun sec l) (hnodup : sec.roleNames.Nodup) {name : String}
    (hname : name ∈ sec.roleNames) (hclash : name ∈ l.builtin) :
    run (Server.execSecurity there) l (sec.reconcile l) = none := by
  refine Option.eq_none_iff_forall_not_mem.2 fun v hrun => ?_
  rw [SecurityCatalog.reconcile, List.append_assoc] at hrun
  obtain ⟨u, hroles, -⟩ := run_append_eq_some.1 hrun
  obtain ⟨hbegun, hothers⟩ := (h.run_roleStmts hnodup).1 _ u List.prefix_rfl hroles
  rw [run_execSecurity table_not_mem_roleStmts] at hroles
  have hmem : name ∈ u.roleNames :=
    (SecurityCatalog.roleStmts_names hroles).2 (SecurityCatalog.mem_haveAfter.2 (.inr hname))
  have hbuiltin : u.builtin = l.builtin := by rw [hothers]
  exact hbegun.apart name hmem (hbuiltin ▸ hclash)

/-- **Roles and memberships** that are left make no difference in the end. -/
theorem Begun.run_reconcile (h : Begun sec l) (hnodup : sec.roleNames.Nodup) :
    run (Server.execSecurity there) l (sec.reconcile l) =
      run (Server.execSecurity there) l.bare (sec.reconcile l.bare) := by
  by_cases hfree : ∀ name ∈ sec.roleNames, name ∉ l.builtin
  · rw [h.run_reconcile_common hnodup hfree,
      (begun_bare sec l).run_reconcile_common hnodup hfree]
    rfl
  · push Not at hfree
    obtain ⟨name, hname, hclash⟩ := hfree
    rw [h.run_reconcile_clash hnodup hname hclash,
      (begun_bare sec l).run_reconcile_clash hnodup hname hclash]

/-- Every state of `reconcile_security`. -/
theorem Begun.along_reconcile (h : Begun sec l) (hnodup : sec.roleNames.Nodup) :
    Along (Server.execSecurity there) (fun u => Begun sec u ∧ u.builtin = l.builtin ∧
      ∀ k, (k ∈ sec.tables.map RlsFlag.key → there k = false) → u.tables k = l.tables k) l
      (sec.reconcile l) := by
  rw [SecurityCatalog.reconcile, List.append_assoc]
  refine Along.append ((h.run_roleStmts hnodup).1.mono ?_) fun s hs => ?_
  · rintro u ⟨hu, hothers⟩
    exact ⟨hu, by rw [hothers], fun k _ => by rw [hothers]⟩
  · obtain ⟨hs, hothers⟩ := (h.run_roleStmts hnodup).1 _ s List.prefix_rfl hs
    refine along_invariant (fun u stmt u' hu hstmt hexec => ?_)
      ⟨hs, by rw [hothers], fun k _ => by rw [hothers]⟩
    have hrest : Rest sec stmt := by
      rcases List.mem_append.1 hstmt with hstmt | hstmt
      · exact rest_memberStmts hstmt
      · cases hrun : l.execAll (sec.roleStmts l.roleNames ++ sec.memberStmts l.members) with
        | none => simp [hrun] at hstmt
        | some v =>
          rw [hrun] at hstmt
          exact rest_tablesStmts (fun _ => id) hstmt
    obtain ⟨hu', hbuiltin, hframe⟩ := hu.1.exec_rest hrest hexec
    exact ⟨hu', hbuiltin.trans hu.2.1, fun k hk => (hframe k hk).trans (hu.2.2 k hk)⟩

end Pglite.Replica
