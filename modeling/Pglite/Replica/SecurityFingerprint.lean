import Pglite.Replica.Fingerprint
import Pglite.Replica.LocalSecurity
import Pglite.Text

/-!
# The security fingerprint

One line for each role, membership, table, grant and policy of a catalog, sorted. The same local
state is in line with catalogs that have the same content (`SecurityCatalog.Same.established`).
-/

namespace Pglite.Replica

/-! ## Lines -/

/-- What has a line of its own in a fingerprint. -/
inductive SecurityEntry
  | role (r : RoleDef)
  | member (m : Membership)
  | rls (t : RlsFlag)
  | grant (g : TableGrant)
  | policy (p : PolicyDef)
deriving DecidableEq

namespace SecurityEntry

/-- The fields of the line. -/
def fields : SecurityEntry → List String
  | .role r => ["role", r.name, intText r.inherit]
  | .member m => ["member", m.grp, m.member, intText m.admin]
  | .rls t => ["rls", t.schema, t.table, intText t.enabled, intText t.forced]
  | .grant g => ["grant", g.schema, g.table, g.grantee]
  | .policy p => ["policy", p.schema, p.table, p.name, intText p.permissive, p.cmd,
      ",".intercalate p.roles, p.usingExpr.getD "", p.checkExpr.getD ""]

def line (e : SecurityEntry) : String :=
  "|".intercalate e.fields

end SecurityEntry

/-! ## Catalogs -/

namespace SecurityCatalog

def entries (sec : SecurityCatalog) : List SecurityEntry :=
  sec.roles.map .role ++ sec.memberships.map .member ++ sec.tables.map .rls ++
    sec.grants.map .grant ++ sec.policies.map .policy

/-- `security_fingerprint` of `backfill.rs`. -/
def fingerprint (sec : SecurityCatalog) : String :=
  "\n".intercalate (sorted (sec.entries.map SecurityEntry.line))

/-- The same roles, memberships, flags, grants and policies. -/
def Same (a b : SecurityCatalog) : Prop :=
  (∀ e ∈ a.entries, e ∈ b.entries) ∧ ∀ e ∈ b.entries, e ∈ a.entries

instance Same.decidable (a b : SecurityCatalog) : Decidable (a.Same b) :=
  inferInstanceAs (Decidable (_ ∧ _))

theorem Same.mem_iff {a b : SecurityCatalog} (h : a.Same b) (e : SecurityEntry) :
    e ∈ a.entries ↔ e ∈ b.entries :=
  ⟨h.1 e, h.2 e⟩

theorem mem_memberships {sec : SecurityCatalog} {m : Membership} :
    m ∈ sec.memberships ↔ .member m ∈ sec.entries := by
  simp [entries]

theorem mem_tables {sec : SecurityCatalog} {t : RlsFlag} :
    t ∈ sec.tables ↔ .rls t ∈ sec.entries := by
  simp [entries]

theorem mem_grants {sec : SecurityCatalog} {g : TableGrant} :
    g ∈ sec.grants ↔ .grant g ∈ sec.entries := by
  simp [entries]

theorem mem_policies {sec : SecurityCatalog} {p : PolicyDef} :
    p ∈ sec.policies ↔ .policy p ∈ sec.entries := by
  simp [entries]

theorem Same.established {a b : SecurityCatalog} {l : LocalSecurity} (h : a.Same b)
    (hest : a.Established l) : b.Established l := by
  have htables : ∀ {t}, t ∈ b.tables → t ∈ a.tables := fun ht =>
    mem_tables.2 ((h.mem_iff _).2 (mem_tables.1 ht))
  refine ⟨fun m => ?_, fun t ht => hest.rls t (htables ht), fun t ht g => ?_, fun t ht p => ?_⟩
  · rw [hest.members, mem_memberships, h.mem_iff, mem_memberships]
  · rw [hest.select t (htables ht) g]
    simp [granteesOn, mem_grants, h.mem_iff]
  · rw [hest.policies t (htables ht) p]
    simp [policiesOn, mem_policies, h.mem_iff]

end SecurityCatalog

end Pglite.Replica
