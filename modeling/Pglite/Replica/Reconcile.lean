import Mathlib.Data.List.Basic
import Mathlib.Logic.Function.Basic
import Pglite.Replica.RowSql
import Pglite.Replica.Security
import Pglite.Replica.TableDef
import Pglite.Runs

/-!
# Reconciling the local security state

`reconcile_security` brings the roles, memberships, row level security flags, `SELECT` grants and
policies of the local database in line with a catalog. It issues its statements one by one, each
in a transaction of its own, and stops at the first that fails.
-/

namespace Pglite.Replica

inductive Grantee
  | everyone
  | role (name : String)
deriving DecidableEq

/-- A grantee of the catalog. -/
def Grantee.ofText (grantee : String) : Grantee :=
  if grantee = "PUBLIC" then .everyone else .role grantee

def RlsFlag.key (t : RlsFlag) : TableKey := (t.schema, t.table)

def TableGrant.key (g : TableGrant) : TableKey := (g.schema, g.table)

def PolicyDef.key (p : PolicyDef) : TableKey := (p.schema, p.table)

/-- The policy is for `PUBLIC`. -/
def PolicyDef.forAll (p : PolicyDef) : Bool :=
  p.roles.any (· == "public")

/-! ## The local state -/

/-- The row level security flags of a table, who may `SELECT`, and its policies. -/
structure TableSecurity where
  rls : Bool
  forced : Bool
  select : Grantee → Bool
  policies : List PolicyDef

/-- The security state of the local database as its queries list it: the roles are those with
`oid >= 16384`, and the memberships those among them. The roles below are built in. -/
structure LocalSecurity where
  builtin : List String
  roles : List RoleDef
  members : List Membership
  tables : TableKey → TableSecurity

/-- A table that has just been created. -/
def TableSecurity.fresh : TableSecurity where
  rls := false
  forced := false
  select _ := false
  policies := []

/-- The statements on one table. -/
inductive TableStmt
  | enableRls
  | forceRls
  | noForceRls
  | disableRls
  | revokeSelect (g : Grantee)
  | grantSelect (g : Grantee)
  | dropPolicy (name : String)
  | createPolicy (p : PolicyDef)
deriving DecidableEq

/-- The statements that `reconcile_security` issues. -/
inductive SecurityStmt
  | createRole (name : String)
  | alterRole (name : String) (inherit : Bool)
  | revokeRole (grp member : String)
  | grantRole (grp member : String) (admin : Bool)
  | table (t : TableKey) (stmt : TableStmt)
deriving DecidableEq

/-! ## The SQL -/

def Grantee.sql : Grantee → String
  | .everyone => "PUBLIC"
  | .role name => ident name

/-- `create_policy_sql`. -/
def createPolicySql (p : PolicyDef) (target : String) : String :=
  let kind := if p.permissive then "PERMISSIVE" else "RESTRICTIVE"
  let roles := if p.forAll then "PUBLIC" else ", ".intercalate (p.roles.map ident)
  s!"CREATE POLICY {ident p.name} ON {target} AS {kind} FOR {p.cmd} TO {roles}" ++
    (p.usingExpr.map fun e => s!" USING ({e})").getD "" ++
    (p.checkExpr.map fun e => s!" WITH CHECK ({e})").getD ""

def TableStmt.sql (target : String) : TableStmt → String
  | .enableRls => s!"ALTER TABLE {target} ENABLE ROW LEVEL SECURITY"
  | .forceRls => s!"ALTER TABLE {target} FORCE ROW LEVEL SECURITY"
  | .noForceRls => s!"ALTER TABLE {target} NO FORCE ROW LEVEL SECURITY"
  | .disableRls => s!"ALTER TABLE {target} DISABLE ROW LEVEL SECURITY"
  | .revokeSelect g => s!"REVOKE SELECT ON {target} FROM {g.sql}"
  | .grantSelect g => s!"GRANT SELECT ON {target} TO {g.sql}"
  | .dropPolicy name => s!"DROP POLICY IF EXISTS {ident name} ON {target}"
  | .createPolicy p => createPolicySql p target

def SecurityStmt.sql : SecurityStmt → String
  | .createRole name => s!"CREATE ROLE {ident name} NOLOGIN NOBYPASSRLS"
  | .alterRole name inherit =>
    s!"ALTER ROLE {ident name} WITH NOLOGIN NOBYPASSRLS " ++
      if inherit then "INHERIT" else "NOINHERIT"
  | .revokeRole grp member => s!"REVOKE {ident grp} FROM {ident member}"
  | .grantRole grp member admin =>
    s!"GRANT {ident grp} TO {ident member}" ++ if admin then " WITH ADMIN OPTION" else ""
  | .table t stmt => stmt.sql (ident t.1 ++ "." ++ ident t.2)

/-! ## Executing them -/

/-- The role of a grantee exists. -/
def Grantee.exists (hasRole : String → Bool) : Grantee → Bool
  | .everyone => true
  | .role name => hasRole name

/-- The server executes a statement on a table. A role that is missing is an error, and so is a
policy that exists already. `SELECT` is for grantees, and a policy for any roles. -/
def TableSecurity.exec (grantee hasRole : String → Bool) (ts : TableSecurity) :
    TableStmt → Option TableSecurity
  | .enableRls => some { ts with rls := true }
  | .forceRls => some { ts with forced := true }
  | .noForceRls => some { ts with forced := false }
  | .disableRls => some { ts with rls := false }
  | .revokeSelect g =>
    if g.exists grantee then some { ts with select := Function.update ts.select g false } else none
  | .grantSelect g =>
    if g.exists grantee then some { ts with select := Function.update ts.select g true } else none
  | .dropPolicy name =>
    some { ts with policies := ts.policies.filter fun p => decide (p.name ≠ name) }
  | .createPolicy p =>
    if ts.policies.any fun q => decide (q.name = p.name) then none
    else if p.forAll || p.roles.all hasRole then some { ts with policies := ts.policies ++ [p] }
    else none

namespace LocalSecurity

def roleNames (l : LocalSecurity) : List String :=
  l.roles.map RoleDef.name

def isUser (l : LocalSecurity) (name : String) : Bool :=
  decide (name ∈ l.roleNames)

def hasRole (l : LocalSecurity) (name : String) : Bool :=
  l.isUser name || decide (name ∈ l.builtin)

/-- The server executes a statement. The grantees and the memberships of a catalog are user roles
(`Upstream.security_closed`), and there are no others here. -/
def exec (l : LocalSecurity) : SecurityStmt → Option LocalSecurity
  | .createRole name =>
    if l.hasRole name then none else some { l with roles := l.roles ++ [⟨name, true⟩] }
  | .alterRole name inherit =>
    if l.hasRole name then
      some { l with
        roles := l.roles.map fun r => if r.name = name then { r with inherit := inherit } else r }
    else none
  | .revokeRole grp member =>
    if l.isUser grp && l.isUser member then
      some { l with
        members := l.members.filter fun m => decide (¬ (m.grp = grp ∧ m.member = member)) }
    else none
  | .grantRole grp member admin =>
    if l.isUser grp && l.isUser member then
      some { l with members := l.members ++ [⟨grp, member, admin⟩] }
    else none
  | .table t stmt =>
    ((l.tables t).exec l.isUser l.hasRole stmt).map fun ts =>
      { l with tables := Function.update l.tables t ts }

/-- The statements one after the other, as long as none fails. -/
def execAll (l : LocalSecurity) (stmts : List SecurityStmt) : Option LocalSecurity :=
  Runs.run exec l stmts

end LocalSecurity

/-! ## The statements -/

namespace SecurityCatalog

/-- The loop over `sec.roles`. `have_` is what exists before it. -/
def roleStmts (sec : SecurityCatalog) (have_ : List String) : List SecurityStmt :=
  sec.roles.flatMap fun r =>
    (if r.name ∈ have_ then [] else [.createRole r.name]) ++ [.alterRole r.name r.inherit]

/-- The loops over the local memberships and over the ones of the catalog. -/
def memberStmts (sec : SecurityCatalog) (localMembers : List Membership) : List SecurityStmt :=
  (localMembers.map fun m => .revokeRole m.grp m.member) ++
    sec.memberships.map fun m => .grantRole m.grp m.member m.admin

def rlsStmts (t : RlsFlag) : List TableStmt :=
  if t.enabled then [.enableRls, .forceRls] else [.noForceRls, .disableRls]

def revokeStmts (have_ : List String) : List TableStmt :=
  (.everyone :: have_.map Grantee.role).map TableStmt.revokeSelect

/-- The grantees of the catalog on a table. -/
def granteesOn (sec : SecurityCatalog) (t : TableKey) : List Grantee :=
  (sec.grants.filter fun g => decide (g.key = t)).map fun g => .ofText g.grantee

def policiesOn (sec : SecurityCatalog) (t : TableKey) : List PolicyDef :=
  sec.policies.filter fun p => decide (p.key = t)

def dropStmts (existing : List PolicyDef) : List TableStmt :=
  existing.map fun p => .dropPolicy p.name

/-- The body of the loop over `sec.tables`. -/
def tableStmts (sec : SecurityCatalog) (have_ : List String) (existing : List PolicyDef)
    (t : RlsFlag) : List TableStmt :=
  rlsStmts t ++ revokeStmts have_ ++ (sec.granteesOn t.key).map .grantSelect ++
    dropStmts existing ++ (sec.policiesOn t.key).map .createPolicy

/-- `have` after the loop over `sec.roles`. -/
def haveAfter (sec : SecurityCatalog) (have_ : List String) : List String :=
  sec.roleNames.foldl (fun have_ name => if name ∈ have_ then have_ else have_ ++ [name]) have_

/-- The loop over `sec.tables`. The policies that exist are read at the turn of the table. -/
def tablesStmts (sec : SecurityCatalog) (have_ : List String) :
    List RlsFlag → LocalSecurity → List SecurityStmt
  | [], _ => []
  | t :: ts, l =>
    let stmts := (sec.tableStmts have_ (l.tables t.key).policies t).map (.table t.key)
    stmts ++ ((l.execAll stmts).map (sec.tablesStmts have_ ts)).getD []

/-- `reconcile_security`: the statements it issues as long as none fails. The first two loops
leave the policies, and the first the memberships, as they are. -/
def reconcile (sec : SecurityCatalog) (l : LocalSecurity) : List SecurityStmt :=
  let stmts := sec.roleStmts l.roleNames ++ sec.memberStmts l.members
  stmts ++ ((l.execAll stmts).map
    (sec.tablesStmts (sec.haveAfter l.roleNames) sec.tables)).getD []

end SecurityCatalog

end Pglite.Replica
