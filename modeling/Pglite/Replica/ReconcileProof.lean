import Pglite.Replica.Reconcile

/-!
# What reconciling does to a table

The statements of `reconcile_security` on one table: what each loop leaves of the flags, the grants
and the policies, and which roles it needs (`run_tableStmts_iff`). Where only known roles held
`SELECT`, the table has the security of the catalog and nothing else (`run_tableStmts`).
-/

namespace Pglite.Replica

open Runs

/-! ## One table -/

namespace TableSecurity

variable {grantee hasRole : String → Bool} {ts ts' : TableSecurity}

theorem run_rlsStmts {t : RlsFlag} :
    run (exec grantee hasRole) ts (SecurityCatalog.rlsStmts t) = some ts' ↔
      ts' = { ts with rls := t.enabled, forced := t.enabled } := by
  cases t with
  | mk schema table enabled forced =>
    rw [eq_comm (a := ts')]
    cases enabled <;> exact Option.some_inj

/-- Giving `SELECT` to some, or taking it from them. -/
theorem run_select {ev : Grantee → TableStmt} {b : Bool}
    (hev : ∀ ts g, exec grantee hasRole ts (ev g) =
      if g.exists grantee then some { ts with select := Function.update ts.select g b } else none)
    {gs : List Grantee} :
    run (exec grantee hasRole) ts (gs.map ev) = some ts' ↔ (∀ g ∈ gs, g.exists grantee) ∧
      ts' = { ts with select := fun g => if g ∈ gs then b else ts.select g } := by
  have hfold : gs.foldl (fun ts g => { ts with select := Function.update ts.select g b }) ts =
      { ts with select := fun g => if g ∈ gs then b else ts.select g } := by
    induction gs generalizing ts with
    | nil => simp
    | cons g gs ih =>
      rw [List.foldl_cons, ih, mk.injEq]
      refine ⟨rfl, rfl, funext fun g' => ?_, rfl⟩
      by_cases hg : g' = g <;> simp [hg]
  rw [run_map_iff hev, hfold]

theorem run_revokeSelect {gs : List Grantee} :
    run (exec grantee hasRole) ts (gs.map .revokeSelect) = some ts' ↔ (∀ g ∈ gs, g.exists grantee) ∧
      ts' = { ts with select := fun g => ts.select g && decide (g ∉ gs) } := by
  have hselect : (fun g => if g ∈ gs then false else ts.select g) =
      fun g => ts.select g && decide (g ∉ gs) := by
    funext g
    by_cases hg : g ∈ gs <;> simp [hg]
  rw [run_select fun _ _ => rfl, hselect]

theorem run_grantSelect {gs : List Grantee} :
    run (exec grantee hasRole) ts (gs.map .grantSelect) = some ts' ↔ (∀ g ∈ gs, g.exists grantee) ∧
      ts' = { ts with select := fun g => ts.select g || decide (g ∈ gs) } := by
  have hselect : (fun g => if g ∈ gs then true else ts.select g) =
      fun g => ts.select g || decide (g ∈ gs) := by
    funext g
    by_cases hg : g ∈ gs <;> simp [hg]
  rw [run_select fun _ _ => rfl, hselect]

theorem run_dropStmts {existing : List PolicyDef} :
    run (exec grantee hasRole) ts (SecurityCatalog.dropStmts existing) = some ts' ↔ ts' = { ts with
      policies := ts.policies.filter fun p => decide (p.name ∉ existing.map PolicyDef.name) } := by
  induction existing generalizing ts with
  | nil => simp [SecurityCatalog.dropStmts, eq_comm]
  | cons p existing ih =>
    have hfirst : run (exec grantee hasRole) ts (SecurityCatalog.dropStmts (p :: existing)) =
        run (exec grantee hasRole)
          { ts with policies := ts.policies.filter fun q => decide (q.name ≠ p.name) }
          (SecurityCatalog.dropStmts existing) := rfl
    rw [hfirst, ih, List.filter_filter]
    have hnames : (ts.policies.filter fun q => decide (q.name ∉ existing.map PolicyDef.name) &&
        decide (q.name ≠ p.name)) =
          ts.policies.filter fun q => decide (q.name ∉ (p :: existing).map PolicyDef.name) := by
      refine List.filter_congr fun q _ => ?_
      by_cases hq : q.name = p.name <;> simp [hq]
    rw [hnames]

/-- New policies on a table. Each has a name of its own and roles that exist. -/
theorem run_createPolicy {ps : List PolicyDef} :
    run (exec grantee hasRole) ts (ps.map .createPolicy) = some ts' ↔
      ((∀ p ∈ ps, p.forAll || p.roles.all hasRole) ∧
        (∀ p ∈ ps, ∀ q ∈ ts.policies, q.name ≠ p.name) ∧ (ps.map PolicyDef.name).Nodup) ∧
      ts' = { ts with policies := ts.policies ++ ps } := by
  induction ps generalizing ts with
  | nil =>
    constructor
    · intro h
      obtain rfl := Option.some.inj h
      simp
    · rintro ⟨-, rfl⟩
      simp
  | cons p ps ih =>
    have hfirst : exec grantee hasRole ts (.createPolicy p) =
        if (∀ q ∈ ts.policies, q.name ≠ p.name) ∧ (p.forAll || p.roles.all hasRole) then
          some { ts with policies := ts.policies ++ [p] }
        else none := by
      have hany : (ts.policies.any fun q => decide (q.name = p.name)) = true ↔
          ¬ ∀ q ∈ ts.policies, q.name ≠ p.name := by
        simp [List.any_eq_true]
      rw [exec]
      by_cases hname : ∀ q ∈ ts.policies, q.name ≠ p.name
      · rw [if_neg fun h => hany.1 h hname]
        exact if_congr (and_iff_right hname).symm rfl rfl
      · rw [if_pos (hany.2 hname), if_neg fun h => hname h.1]
    rw [List.map_cons, run, hfirst]
    clear hfirst
    by_cases hok : (∀ q ∈ ts.policies, q.name ≠ p.name) ∧ (p.forAll || p.roles.all hasRole)
    · rw [if_pos hok, Option.bind_some, ih]
      simp only [List.forall_mem_cons, List.mem_append, List.map_cons, List.nodup_cons,
        List.mem_map, List.append_assoc, List.cons_append, List.nil_append, hok.2, true_and,
        List.mem_singleton]
      refine and_congr_left fun _ => ?_
      constructor
      · rintro ⟨hroles, hnames, hnodup⟩
        refine ⟨hroles, ⟨hok.1, fun p' hp' q hq => hnames p' hp' q (.inl hq)⟩, ?_, hnodup⟩
        rintro ⟨p', hp', heq⟩
        exact hnames p' hp' p (.inr rfl) heq.symm
      · rintro ⟨hroles, ⟨-, hnames⟩, hnew, hnodup⟩
        refine ⟨hroles, fun p' hp' q hq => ?_, hnodup⟩
        rcases hq with hq | rfl
        · exact hnames p' hp' q hq
        · exact fun heq => hnew ⟨p', hp', heq.symm⟩
    · rw [if_neg hok, Option.bind_none]
      refine iff_of_false (fun h => by cases h) fun h => hok ?_
      exact ⟨h.1.2.1 p List.mem_cons_self, h.1.1 p List.mem_cons_self⟩

end TableSecurity

namespace SecurityCatalog

/-- The security of a table as the catalog has it. -/
def tableSecurity (sec : SecurityCatalog) (t : RlsFlag) : TableSecurity where
  rls := t.enabled
  forced := t.enabled
  select g := decide (g ∈ sec.granteesOn t.key)
  policies := sec.policiesOn t.key

/-- Revoking from `PUBLIC` and from every known role leaves no grant. -/
theorem revoked_from_all {have_ : List String} {select : Grantee → Bool}
    (hknown : ∀ name, select (.role name) = true → name ∈ have_) (g : Grantee) :
    (select g && decide (g ∉ .everyone :: have_.map Grantee.role)) = false := by
  cases g with
  | everyone => simp
  | role name =>
    cases hselect : select (.role name) with
    | false => rfl
    | true => simp [hknown name hselect]

/-- Dropping every policy that exists leaves none. -/
theorem dropped_all (ps : List PolicyDef) :
    ps.filter (fun p => decide (p.name ∉ ps.map PolicyDef.name)) = [] := by
  refine List.filter_eq_nil_iff.2 fun p hp => ?_
  simpa using ⟨p, hp, rfl⟩

/-- A table after its turn. What others hold than the users is left alone. -/
def tableAfter (sec : SecurityCatalog) (user : Grantee → Bool) (t : RlsFlag) (ts : TableSecurity) :
    TableSecurity where
  rls := t.enabled
  forced := t.enabled
  select g := (ts.select g && !user g) || decide (g ∈ sec.granteesOn t.key)
  policies := sec.policiesOn t.key

/-- The statements on a table find their roles, and its policies have names of their own. -/
structure AcceptedOn (sec : SecurityCatalog) (grantee hasRole : String → Bool) (t : TableKey) :
    Prop where
  grants : ∀ g ∈ sec.granteesOn t, g.exists grantee
  policies : ∀ p ∈ sec.policiesOn t, p.forAll || p.roles.all hasRole
  names : ((sec.policiesOn t).map PolicyDef.name).Nodup

section Turn

variable {sec : SecurityCatalog} {grantee hasRole : String → Bool} {have_ : List String}
  {ts ts' : TableSecurity} {t : RlsFlag}

/-- **The turn of a table.** `SELECT` is revoked from `PUBLIC` and the roles that there are. -/
theorem run_tableStmts_iff {user : Grantee → Bool}
    (huser : ∀ g, g ∈ Grantee.everyone :: have_.map Grantee.role ↔ user g) :
    run (TableSecurity.exec grantee hasRole) ts (sec.tableStmts have_ ts.policies t) = some ts' ↔
      (∀ name ∈ have_, grantee name) ∧ sec.AcceptedOn grantee hasRole t.key ∧
        ts' = sec.tableAfter user t ts := by
  have hfound : (∀ g ∈ Grantee.everyone :: have_.map Grantee.role, g.exists grantee) ↔
      ∀ name ∈ have_, grantee name := by
    simp [Grantee.exists]
  have hselect : (fun g => (ts.select g && decide (g ∉ .everyone :: have_.map Grantee.role)) ||
      decide (g ∈ sec.granteesOn t.key)) = (sec.tableAfter user t ts).select := by
    funext g
    simp [huser, tableAfter]
  unfold tableStmts revokeStmts
  rw [run_append_eq_some]
  constructor
  · rintro ⟨ts₄, h, hcreate⟩
    obtain ⟨ts₃, h, hdrop⟩ := run_append_eq_some.1 h
    obtain ⟨ts₂, h, hgrant⟩ := run_append_eq_some.1 h
    obtain ⟨ts₁, hrls, hrevoke⟩ := run_append_eq_some.1 h
    obtain rfl := TableSecurity.run_rlsStmts.1 hrls
    obtain ⟨hrevoked, rfl⟩ := TableSecurity.run_revokeSelect.1 hrevoke
    obtain ⟨hgrants, rfl⟩ := TableSecurity.run_grantSelect.1 hgrant
    obtain rfl := TableSecurity.run_dropStmts.1 hdrop
    obtain ⟨⟨hpolicies, -, hnames⟩, rfl⟩ := TableSecurity.run_createPolicy.1 hcreate
    refine ⟨hfound.1 hrevoked, ⟨hgrants, hpolicies, hnames⟩, ?_⟩
    simp only [hselect, dropped_all, List.nil_append]
    rfl
  · rintro ⟨hrevoked, ⟨hgrants, hpolicies, hnames⟩, rfl⟩
    refine ⟨_, run_append_eq_some.2 ⟨_, run_append_eq_some.2 ⟨_, run_append_eq_some.2
      ⟨_, TableSecurity.run_rlsStmts.2 rfl,
        TableSecurity.run_revokeSelect.2 ⟨hfound.2 hrevoked, rfl⟩⟩,
      TableSecurity.run_grantSelect.2 ⟨hgrants, rfl⟩⟩, TableSecurity.run_dropStmts.2 rfl⟩,
      TableSecurity.run_createPolicy.2 ⟨⟨hpolicies, ?_, hnames⟩, ?_⟩⟩
    · simp only [dropped_all]
      exact fun _ _ _ => nofun
    · simp only [hselect, dropped_all, List.nil_append]
      rfl

/-- Where every grantee is a user, the turn leaves the security of the catalog. -/
theorem tableAfter_eq {user : Grantee → Bool} (hknown : ∀ g, ts.select g = true → user g = true) :
    sec.tableAfter user t ts = sec.tableSecurity t := by
  unfold tableAfter tableSecurity
  rw [TableSecurity.mk.injEq]
  refine ⟨rfl, rfl, funext fun g => ?_, rfl⟩
  cases hg : ts.select g with
  | false => rfl
  | true => rw [hknown g hg, Bool.not_true, Bool.and_false, Bool.false_or]

/-- Nothing is left of what was on the table, when each grantee is one of those that are revoked
from. -/
theorem run_tableStmts (hknown : ∀ name, ts.select (.role name) = true → name ∈ have_)
    (h : run (TableSecurity.exec grantee hasRole) ts (sec.tableStmts have_ ts.policies t) =
      some ts') : ts' = sec.tableSecurity t := by
  have huser : ∀ g, g ∈ Grantee.everyone :: have_.map Grantee.role ↔
      decide (g ∈ Grantee.everyone :: have_.map Grantee.role) = true :=
    fun g => decide_eq_true_iff.symm
  obtain ⟨-, -, rfl⟩ := (run_tableStmts_iff huser).1 h
  refine tableAfter_eq fun g hg => decide_eq_true ?_
  cases g with
  | everyone => exact List.mem_cons_self
  | role name => exact List.mem_cons_of_mem _ (List.mem_map_of_mem (hknown name hg))

end Turn

/-! ## The roles that there are -/

theorem mem_haveAfter {sec : SecurityCatalog} {have_ : List String} {name : String} :
    name ∈ sec.haveAfter have_ ↔ name ∈ have_ ∨ name ∈ sec.roleNames := by
  unfold haveAfter
  generalize sec.roleNames = names
  induction names generalizing have_ with
  | nil => simp
  | cons n names ih =>
    rw [List.foldl_cons, ih, List.mem_cons]
    by_cases hn : n ∈ have_
    · rw [if_pos hn]
      constructor
      · rintro (h | h)
        · exact .inl h
        · exact .inr (.inr h)
      · rintro (h | rfl | h)
        · exact .inl h
        · exact .inl hn
        · exact .inr h
    · rw [if_neg hn, List.mem_append, List.mem_singleton, or_assoc]

end SecurityCatalog

end Pglite.Replica
