import Mathlib.Data.List.Basic
import Pglite.Replica.RowSql

/-!
# The upstream security catalog

What `introspect_security` reads: the roles, who is a member of which, the row level security
flags of the published tables, their `SELECT` grants and their policies. The upstream keeps this
by oid, and the five queries give it back by name, as rows of text cells.

`Upstream.security` is the catalog of one moment, and `Upstream.seen` what the queries show of it to
the login they run as: the view of the grants leaves out those that are of no concern to the roles
of the login. The program puts the catalog together from five answers
(`SecurityCatalog.ofAnswers`).
-/

namespace Pglite.Replica

/-! ## The catalog -/

@[ext]
structure RoleDef where
  name : String
  inherit : Bool
deriving DecidableEq

@[ext]
structure Membership where
  grp : String
  member : String
  admin : Bool
deriving DecidableEq

@[ext]
structure RlsFlag where
  schema : String
  table : String
  enabled : Bool
  forced : Bool
deriving DecidableEq

@[ext]
structure TableGrant where
  schema : String
  table : String
  grantee : String
deriving DecidableEq

@[ext]
structure PolicyDef where
  schema : String
  table : String
  name : String
  permissive : Bool
  cmd : String
  roles : List String
  usingExpr : Option String
  checkExpr : Option String
deriving DecidableEq

structure SecurityCatalog where
  roles : List RoleDef
  memberships : List Membership
  tables : List RlsFlag
  grants : List TableGrant
  policies : List PolicyDef
deriving DecidableEq

namespace SecurityCatalog

def roleNames (sec : SecurityCatalog) : List String :=
  sec.roles.map RoleDef.name

/-- Every grantee and group member is in the role list, and so is every role of a policy unless
it is one of the server's own. -/
structure Closed (builtin : List String) (sec : SecurityCatalog) : Prop where
  grants : ∀ g ∈ sec.grants, g.grantee = "PUBLIC" ∨ g.grantee ∈ sec.roleNames
  memberships : ∀ m ∈ sec.memberships, m.grp ∈ sec.roleNames ∧ m.member ∈ sec.roleNames
  policies : ∀ p ∈ sec.policies, ∀ r ∈ p.roles,
    r = "public" ∨ r ∈ builtin ∨ r ∈ sec.roleNames

end SecurityCatalog

/-! ## The upstream -/

/-- A row of `pg_authid`. -/
structure PgRole where
  oid : Nat
  name : String
  inherit : Bool
deriving DecidableEq

/-- A row of `pg_auth_members`. -/
structure PgMember where
  roleid : Nat
  member : Nat
  admin : Bool
deriving DecidableEq

/-- An entry of `relacl`. The grantee 0 is `PUBLIC`. -/
structure PgGrant where
  grantor : Nat
  grantee : Nat
  privilege : String
deriving DecidableEq

/-- A row of `pg_policy`. The role 0 is `PUBLIC`. -/
structure PgPolicy where
  name : String
  permissive : Bool
  cmd : String
  roles : List Nat
  qual : Option String
  withCheck : Option String
deriving DecidableEq

structure PgTable where
  schema : String
  name : String
  published : Bool
  rowSecurity : Bool
  forceRowSecurity : Bool
  acl : List PgGrant
  policies : List PgPolicy
deriving DecidableEq

/-- What the catalogs of the upstream hold at one moment, in the order that the queries ask
for. The `enabledRoles` are those whose privileges the login has: all for a superuser, else its own
role and those it is a member of, which a `GRANT` can change. -/
structure Upstream where
  roles : List PgRole
  members : List PgMember
  tables : List PgTable
  enabledRoles : List Nat
deriving DecidableEq

namespace Upstream

variable (u : Upstream)

/-- The oid from which on objects are not the server's own. -/
def firstNormalOid : Nat := 16384

/-- The roles with `oid >= 16384`. -/
def userRoles : List PgRole :=
  u.roles.filter fun r => decide (firstNormalOid ≤ r.oid)

/-- The names of the server's own roles. -/
def builtinNames : List String :=
  (u.roles.filter fun r => !decide (firstNormalOid ≤ r.oid)).map PgRole.name

def userRoleName (oid : Nat) : Option String :=
  (u.userRoles.find? fun r => decide (r.oid = oid)).map PgRole.name

/-- The grantee, when it is `PUBLIC` or a role with `oid >= 16384`. -/
def granteeName (oid : Nat) : Option String :=
  if oid = 0 then some "PUBLIC" else u.userRoleName oid

/-- The `roles` column of `pg_policies`. -/
def policyRoles (p : PgPolicy) : List String :=
  if 0 ∈ p.roles then ["public"]
  else (u.roles.filter fun r => decide (r.oid ∈ p.roles)).map PgRole.name

def published : List PgTable :=
  u.tables.filter PgTable.published

/-- The `SELECT` grants on published tables. -/
def grants (shown : PgGrant → Bool) : List TableGrant :=
  u.published.flatMap fun t =>
    (t.acl.filter fun g => decide (g.privilege = "SELECT") && shown g).filterMap fun g =>
      (u.granteeName g.grantee).map fun grantee => ⟨t.schema, t.name, grantee⟩

/-- The security catalog of this moment. -/
def security : SecurityCatalog where
  roles := u.userRoles.map fun r => ⟨r.name, r.inherit⟩
  memberships := u.members.filterMap fun am =>
    (u.userRoleName am.roleid).bind fun g =>
      (u.userRoleName am.member).map fun m => ⟨g, m, am.admin⟩
  tables := u.published.map fun t => ⟨t.schema, t.name, t.rowSecurity, t.forceRowSecurity⟩
  grants := u.grants fun _ => true
  policies := u.published.flatMap fun t => t.policies.map fun p =>
    ⟨t.schema, t.name, p.name, p.permissive, p.cmd, u.policyRoles p, p.qual, p.withCheck⟩

/-- The rows of `information_schema.role_table_grants`: those with a grantor or a grantee among the
enabled roles. -/
def showsGrant (g : PgGrant) : Bool :=
  decide (g.grantor ∈ u.enabledRoles) || decide (g.grantee ∈ u.enabledRoles)

/-- What the queries show of the catalog. -/
def seen : SecurityCatalog :=
  { u.security with grants := u.grants u.showsGrant }

/-- The login is shown every `SELECT` grant that the catalog has. -/
def showsGrants : Bool :=
  u.published.all fun t => t.acl.all fun g =>
    decide (g.privilege ≠ "SELECT") || (u.granteeName g.grantee).isNone || u.showsGrant g

end Upstream

/-! ## The five queries -/

/-- What `simple_query` returns. -/
abbrev Rows := List (List (Option String))

/-- A boolean cast to `int`, as text. -/
def intText (b : Bool) : String :=
  if b then "1" else "0"

namespace SecurityCatalog

/-- The row of a role in the first answer, and so on for the others. -/
def roleRow (r : RoleDef) : List (Option String) :=
  [some r.name, some (intText r.inherit)]

def memberRow (m : Membership) : List (Option String) :=
  [some m.grp, some m.member, some (intText m.admin)]

def tableRow (t : RlsFlag) : List (Option String) :=
  [some t.schema, some t.table, some (intText t.enabled), some (intText t.forced)]

def grantRow (g : TableGrant) : List (Option String) :=
  [some g.schema, some g.table, some g.grantee]

/-- The roles are an `array_to_string(p.roles, ',')`. -/
def policyRow (p : PolicyDef) : List (Option String) :=
  [some p.schema, some p.table, some p.name, some (intText p.permissive), some p.cmd,
    some (",".intercalate p.roles), p.usingExpr, p.checkExpr]

/-- The answers to the five queries. -/
def answer (sec : SecurityCatalog) : Nat → Rows
  | 0 => sec.roles.map roleRow
  | 1 => sec.memberships.map memberRow
  | 2 => sec.tables.map tableRow
  | 3 => sec.grants.map grantRow
  | 4 => sec.policies.map policyRow
  | _ => []

/-- The closure `cell`. -/
def cell (row : List (Option String)) (i : Nat) : Option String :=
  row[i]?.getD none

def text (row : List (Option String)) (i : Nat) : String :=
  (cell row i).getD ""

/-- `split(',')` without the empty pieces. -/
def splitRoles (s : String) : List String :=
  ((s.toList.splitOn ',').filter (· ≠ [])).map String.ofList

def roleOfRow (row : List (Option String)) : RoleDef where
  name := text row 0
  inherit := cell row 1 == some "1"

def memberOfRow (row : List (Option String)) : Membership where
  grp := text row 0
  member := text row 1
  admin := cell row 2 == some "1"

def tableOfRow (row : List (Option String)) : RlsFlag where
  schema := text row 0
  table := text row 1
  enabled := cell row 2 == some "1"
  forced := cell row 3 == some "1"

def grantOfRow (row : List (Option String)) : TableGrant where
  schema := text row 0
  table := text row 1
  grantee := text row 2

def policyOfRow (row : List (Option String)) : PolicyDef where
  schema := text row 0
  table := text row 1
  name := text row 2
  permissive := cell row 3 == some "1"
  cmd := text row 4
  roles := splitRoles (text row 5)
  usingExpr := cell row 6
  checkExpr := cell row 7

/-- `introspect_security`, from the answers to its queries. -/
def ofAnswers (answers : List Rows) : SecurityCatalog where
  roles := (answers.getD 0 []).map roleOfRow
  memberships := (answers.getD 1 []).map memberOfRow
  tables := (answers.getD 2 []).map tableOfRow
  grants := (answers.getD 3 []).map grantOfRow
  policies := (answers.getD 4 []).map policyOfRow

/-! ## Reading the answers back -/

/-- No policy is for a role with a comma in its name. (An empty name is none.) -/
def noComma (sec : SecurityCatalog) : Bool :=
  sec.policies.all fun p => p.roles.all fun r => decide (r ≠ "") && decide (',' ∉ r.toList)

@[simp] theorem intText_beq (b : Bool) : (intText b == "1") = b := by
  cases b <;> decide

/-- Role names without commas are read back as they were. -/
theorem splitRoles_intercalate {roles : List String} (h : ∀ r ∈ roles, r ≠ "" ∧ ',' ∉ r.toList) :
    splitRoles (",".intercalate roles) = roles := by
  by_cases hnil : roles = []
  · subst hnil
    decide
  have hsplit : ([','].intercalate (roles.map String.toList)).splitOn ',' =
      roles.map String.toList := by
    refine List.splitOn_intercalate ',' ?_ (by simpa using hnil)
    intro l hl
    obtain ⟨r, hr, rfl⟩ := List.mem_map.1 hl
    exact (h r hr).2
  have hfilter : (roles.map String.toList).filter (· ≠ []) = roles.map String.toList := by
    refine List.filter_eq_self.2 fun l hl => ?_
    obtain ⟨r, hr, rfl⟩ := List.mem_map.1 hl
    simpa using (h r hr).1
  rw [splitRoles, String.toList_intercalate, show ",".toList = [','] from rfl, hsplit, hfilter]
  simp

theorem roleOfRow_roleRow (r : RoleDef) : roleOfRow (roleRow r) = r := by
  cases r
  simp [roleOfRow, roleRow, text, cell, intText_beq]

theorem memberOfRow_memberRow (m : Membership) : memberOfRow (memberRow m) = m := by
  cases m
  simp [memberOfRow, memberRow, text, cell, intText_beq]

theorem tableOfRow_tableRow (t : RlsFlag) : tableOfRow (tableRow t) = t := by
  cases t
  simp [tableOfRow, tableRow, text, cell, intText_beq]

theorem grantOfRow_grantRow (g : TableGrant) : grantOfRow (grantRow g) = g := rfl

theorem policyOfRow_policyRow {p : PolicyDef} (h : ∀ r ∈ p.roles, r ≠ "" ∧ ',' ∉ r.toList) :
    policyOfRow (policyRow p) = p := by
  have hroles := splitRoles_intercalate h
  cases p
  simp [policyOfRow, policyRow, text, cell, intText_beq, hroles]

/-- The answers of one moment make up the catalog of that moment. -/
theorem ofAnswers_answer {sec : SecurityCatalog} (h : sec.noComma = true) :
    ofAnswers ((List.range 5).map sec.answer) = sec := by
  have hplain : ∀ p ∈ sec.policies, ∀ r ∈ p.roles, r ≠ "" ∧ ',' ∉ r.toList := by
    intro p hp r hr
    have hall := List.all_eq_true.1 (List.all_eq_true.1 h p hp) r hr
    simpa using hall
  have hpolicies : sec.policies.map (policyOfRow ∘ policyRow) = sec.policies :=
    (List.map_congr_left fun p hp => policyOfRow_policyRow (hplain p hp)).trans (List.map_id _)
  show SecurityCatalog.mk ((sec.roles.map roleRow).map roleOfRow)
    ((sec.memberships.map memberRow).map memberOfRow) ((sec.tables.map tableRow).map tableOfRow)
    ((sec.grants.map grantRow).map grantOfRow) ((sec.policies.map policyRow).map policyOfRow) = sec
  simp only [List.map_map, hpolicies, List.map_id'' (f := roleOfRow ∘ roleRow) roleOfRow_roleRow,
    List.map_id'' (f := memberOfRow ∘ memberRow) memberOfRow_memberRow,
    List.map_id'' (f := tableOfRow ∘ tableRow) tableOfRow_tableRow,
    List.map_id'' (f := grantOfRow ∘ grantRow) grantOfRow_grantRow]

end SecurityCatalog

/-! ## One look -/

namespace Upstream

variable {u : Upstream}

theorem userRoleName_mem {oid : Nat} {name : String} (h : u.userRoleName oid = some name) :
    name ∈ u.security.roleNames := by
  obtain ⟨r, hr, rfl⟩ := Option.map_eq_some_iff.1 h
  have hmem := List.mem_of_find?_eq_some hr
  exact List.mem_map.2 ⟨⟨r.name, r.inherit⟩, List.mem_map.2 ⟨r, hmem, rfl⟩, rfl⟩

/-- A login that is shown every grant is shown the catalog. -/
theorem seen_eq_security (h : u.showsGrants = true) : u.seen = u.security := by
  have hgrants : u.grants u.showsGrant = u.grants fun _ => true := by
    refine List.flatMap_congr fun t ht => ?_
    have htable := List.all_eq_true.1 (List.all_eq_true.1 h t ht)
    rw [List.filterMap_filter, List.filterMap_filter]
    refine List.filterMap_congr fun g hg => ?_
    have hentry := htable g hg
    by_cases hselect : g.privilege = "SELECT"
    · cases hname : u.granteeName g.grantee with
      | none => simp
      | some name =>
        have hshows : u.showsGrant g = true := by simpa [hselect, hname] using hentry
        simp [hshows]
    · simp [hselect]
  rw [seen, hgrants]
  rfl

/-- The catalog names no role that it does not list. -/
theorem security_closed (u : Upstream) : u.security.Closed u.builtinNames where
  grants g hg := by
    obtain ⟨t, -, hg⟩ := List.mem_flatMap.1 hg
    obtain ⟨entry, -, hg⟩ := List.mem_filterMap.1 hg
    obtain ⟨name, hname, rfl⟩ := Option.map_eq_some_iff.1 hg
    unfold granteeName at hname
    split_ifs at hname with hpublic
    · exact .inl (Option.some.inj hname).symm
    · exact .inr (userRoleName_mem hname)
  memberships m hm := by
    obtain ⟨am, -, hm⟩ := List.mem_filterMap.1 hm
    obtain ⟨g, hg, hm⟩ := Option.bind_eq_some_iff.1 hm
    obtain ⟨name, hname, rfl⟩ := Option.map_eq_some_iff.1 hm
    exact ⟨userRoleName_mem hg, userRoleName_mem hname⟩
  policies p hp r hr := by
    obtain ⟨t, -, hp⟩ := List.mem_flatMap.1 hp
    obtain ⟨q, -, rfl⟩ := List.mem_map.1 hp
    change r ∈ u.policyRoles q at hr
    unfold policyRoles at hr
    split_ifs at hr with hpublic
    · exact .inl (List.mem_singleton.1 hr)
    · obtain ⟨role, hrole, rfl⟩ := List.mem_map.1 hr
      have hmem := (List.mem_filter.1 hrole).1
      by_cases hoid : firstNormalOid ≤ role.oid
      · refine .inr (.inr (List.mem_map.2 ⟨⟨role.name, role.inherit⟩, ?_, rfl⟩))
        exact List.mem_map.2 ⟨role, List.mem_filter.2 ⟨hmem, by simpa using hoid⟩, rfl⟩
      · refine .inr (.inl (List.mem_map.2 ⟨role, List.mem_filter.2 ⟨hmem, ?_⟩, rfl⟩))
        simpa using hoid

end Upstream

end Pglite.Replica
