import Mathlib.Data.List.Perm.Basic
import Pglite.Replica.SecurityFingerprint

/-!
# What the security fingerprint tells apart

The fields of a line are not escaped, and neither are the lines. A line is read in one way as long
as the fields before its last name or expression have no `|`, and the lines are found as long as no
line has a line end in it that the beginning of a line comes after. (`SecurityEntry.Legible`).

* `Reordered.fingerprint_eq`: the order of a list does not count.
* `SecurityEntry.line_injOn`: a legible entry is found from its line.
* `reordered_iff_fingerprint`: among the catalogs with the fingerprint of a legible one, the legible
  ones are exactly those with the same content.

The fingerprint alone does not tell catalogs apart (`fingerprint_collides`).
-/

namespace Pglite.Replica

open Text

/-! ## Lines -/

/-- How lines begin. -/
def lineTags : List (List Char) :=
  ["role|", "member|", "rls|", "grant|", "policy|"].map String.toList

namespace SecurityEntry

/-- The fields before the last name or expression. -/
def inner : SecurityEntry → List String
  | .role _ => []
  | .member m => [m.grp]
  | .rls t => [t.schema]
  | .grant g => [g.schema, g.table]
  | .policy p => [p.schema, p.table, p.name, p.cmd, ",".intercalate p.roles, p.usingExpr.getD ""]

/-- The line can be read. (An expression or a role name is never empty.) -/
structure Legible (e : SecurityEntry) : Prop where
  bars : ∀ f ∈ e.inner, '|' ∉ f.toList
  roles : ∀ p, e = .policy p → ∀ r ∈ p.roles, r ≠ "" ∧ ',' ∉ r.toList
  exprs : ∀ p, e = .policy p → p.usingExpr ≠ some "" ∧ p.checkExpr ≠ some ""
  newlines : ∀ u v, e.line.toList = u ++ '\n' :: v → ¬ StartsWith lineTags v

def tag : SecurityEntry → String
  | .role _ => "role"
  | .member _ => "member"
  | .rls _ => "rls"
  | .grant _ => "grant"
  | .policy _ => "policy"

/-- The line after its tag. -/
def body : SecurityEntry → List Char
  | .role r => r.name.toList ++ '|' :: (intText r.inherit).toList
  | .member m => m.grp.toList ++ '|' :: (m.member.toList ++ '|' :: (intText m.admin).toList)
  | .rls t => t.schema.toList ++ '|' :: (t.table.toList ++
      '|' :: ((intText t.enabled).toList ++ '|' :: (intText t.forced).toList))
  | .grant g => g.schema.toList ++ '|' :: (g.table.toList ++ '|' :: g.grantee.toList)
  | .policy p => p.schema.toList ++ '|' :: (p.table.toList ++ '|' :: (p.name.toList ++
      '|' :: ((intText p.permissive).toList ++ '|' :: (p.cmd.toList ++
      '|' :: ((",".intercalate p.roles).toList ++ '|' :: ((p.usingExpr.getD "").toList ++
      '|' :: (p.checkExpr.getD "").toList))))))

theorem line_toList (e : SecurityEntry) : e.line.toList = e.tag.toList ++ '|' :: e.body := by
  cases e <;> simp [line, fields, tag, body, String.toList_intercalate]

theorem bar_notMem_tag (e : SecurityEntry) : '|' ∉ e.tag.toList := by
  cases e <;> simp [tag]

theorem intText_inj {a b : Bool} : intText a = intText b ↔ a = b := by
  cases a <;> cases b <;> decide

theorem getD_inj {e e' : Option String} (he : e ≠ some "") (he' : e' ≠ some "") :
    e.getD "" = e'.getD "" ↔ e = e' := by
  cases e <;> cases e' <;> simp_all

theorem roles_inj {rs rs' : List String} (hrs : ∀ r ∈ rs, r ≠ "" ∧ ',' ∉ r.toList)
    (hrs' : ∀ r ∈ rs', r ≠ "" ∧ ',' ∉ r.toList) :
    ",".intercalate rs = ",".intercalate rs' ↔ rs = rs' := by
  refine ⟨fun h => ?_, fun h => h ▸ rfl⟩
  rw [← SecurityCatalog.splitRoles_intercalate hrs, h,
    SecurityCatalog.splitRoles_intercalate hrs']

/-- A name with a flag after it. -/
theorem flag_inj {a a' : String} {b b' : Bool}
    (h : a.toList ++ '|' :: (intText b).toList = a'.toList ++ '|' :: (intText b').toList) :
    a = a' ∧ b = b' := by
  have hlen : ∀ b, (intText b).toList.length = 1 := by decide
  obtain ⟨ha, hb⟩ := List.append_inj' h (by simp [hlen])
  exact ⟨String.toList_injective ha,
    intText_inj.1 (String.toList_injective (List.cons.inj hb).2)⟩

/-- A field that has no bar in it. -/
theorem field_inj {a a' : String} {r r' : List Char} (ha : '|' ∉ a.toList) (ha' : '|' ∉ a'.toList)
    (h : a.toList ++ '|' :: r = a'.toList ++ '|' :: r') : a = a' ∧ r = r' := by
  obtain ⟨hfield, hrest⟩ := append_sep_inj ha ha' h
  exact ⟨String.toList_injective hfield, hrest⟩

theorem bar_notMem_intText (b : Bool) : '|' ∉ (intText b).toList := by
  cases b <;> decide

theorem policy_inj {p p' : PolicyDef} (h : Legible (.policy p)) (h' : Legible (.policy p'))
    (hbody : body (.policy p) = body (.policy p')) : p = p' := by
  have hbars := h.bars
  have hbars' := h'.bars
  simp only [inner, List.forall_mem_cons] at hbars hbars'
  obtain ⟨hschema, htable, hname, hcmd, hroles, husing, -⟩ := hbars
  obtain ⟨hschema', htable', hname', hcmd', hroles', husing', -⟩ := hbars'
  obtain ⟨eschema, hrest⟩ := field_inj hschema hschema' hbody
  obtain ⟨etable, hrest⟩ := field_inj htable htable' hrest
  obtain ⟨ename, hrest⟩ := field_inj hname hname' hrest
  obtain ⟨epermissive, hrest⟩ := field_inj (bar_notMem_intText _) (bar_notMem_intText _) hrest
  obtain ⟨ecmd, hrest⟩ := field_inj hcmd hcmd' hrest
  obtain ⟨eroles, hrest⟩ := field_inj hroles hroles' hrest
  obtain ⟨eusing, hrest⟩ := field_inj husing husing' hrest
  have eroles := (roles_inj (h.roles p rfl) (h'.roles p' rfl)).1 eroles
  have eusing := (getD_inj (h.exprs p rfl).1 (h'.exprs p' rfl).1).1 eusing
  have echeck := (getD_inj (h.exprs p rfl).2 (h'.exprs p' rfl).2).1 (String.toList_injective hrest)
  exact PolicyDef.ext eschema etable ename (intText_inj.1 epermissive) ecmd eroles eusing echeck

/-- **A legible entry is found from its line.** -/
theorem line_injOn : Set.InjOn line {e | e.Legible} := by
  intro e he e' he' hline
  have hlist := congrArg String.toList hline
  rw [line_toList, line_toList] at hlist
  obtain ⟨htag, hbody⟩ := field_inj e.bar_notMem_tag e'.bar_notMem_tag hlist
  have hbars := he.bars
  have hbars' := he'.bars
  cases e with
  | role r =>
    cases e' with
    | role r' =>
      obtain ⟨hname, hinherit⟩ := flag_inj hbody
      rw [RoleDef.ext hname hinherit]
    | _ => exact absurd htag (by simp [tag])
  | member m =>
    cases e' with
    | member m' =>
      rw [inner, List.forall_mem_singleton] at hbars hbars'
      obtain ⟨hgrp, hrest⟩ := field_inj hbars hbars' hbody
      obtain ⟨hmember, hadmin⟩ := flag_inj hrest
      rw [Membership.ext hgrp hmember hadmin]
    | _ => exact absurd htag (by simp [tag])
  | rls t =>
    cases e' with
    | rls t' =>
      rw [inner, List.forall_mem_singleton] at hbars hbars'
      obtain ⟨hschema, hrest⟩ := field_inj hbars hbars' hbody
      have hlen : ∀ b b', ((intText b).toList ++ '|' :: (intText b').toList).length = 3 := by
        decide
      obtain ⟨htable, hflags⟩ := List.append_inj' hrest (by simp [hlen])
      obtain ⟨henabled, hforced⟩ := flag_inj (List.cons.inj hflags).2
      rw [RlsFlag.ext hschema (String.toList_injective htable) (intText_inj.1 henabled) hforced]
    | _ => exact absurd htag (by simp [tag])
  | grant g =>
    cases e' with
    | grant g' =>
      simp only [inner, List.forall_mem_cons] at hbars hbars'
      obtain ⟨hschema, hrest⟩ := field_inj hbars.1 hbars'.1 hbody
      obtain ⟨htable, hgrantee⟩ := field_inj hbars.2.1 hbars'.2.1 hrest
      rw [TableGrant.ext hschema htable (String.toList_injective hgrantee)]
    | _ => exact absurd htag (by simp [tag])
  | policy p =>
    cases e' with
    | policy p' => rw [policy_inj he he' hbody]
    | _ => exact absurd htag (by simp [tag])

/-! The entries of each kind. -/

def asRole : SecurityEntry → Option RoleDef
  | .role r => some r
  | _ => none

def asMember : SecurityEntry → Option Membership
  | .member m => some m
  | _ => none

def asRls : SecurityEntry → Option RlsFlag
  | .rls t => some t
  | _ => none

def asGrant : SecurityEntry → Option TableGrant
  | .grant g => some g
  | _ => none

def asPolicy : SecurityEntry → Option PolicyDef
  | .policy p => some p
  | _ => none

theorem Legible.tagged {e : SecurityEntry} (h : e.Legible) : Tagged lineTags '\n' e.line.toList := by
  refine ⟨⟨e.tag.toList ++ ['|'], ?_, e.body, ?_⟩, h.newlines⟩
  · cases e <;> simp [lineTags, tag]
  · rw [line_toList]
    simp

end SecurityEntry

/-! ## Catalogs -/

namespace SecurityCatalog

/-- The same lists up to their order. -/
structure Reordered (a b : SecurityCatalog) : Prop where
  roles : a.roles.Perm b.roles
  memberships : a.memberships.Perm b.memberships
  tables : a.tables.Perm b.tables
  grants : a.grants.Perm b.grants
  policies : a.policies.Perm b.policies

def Legible (sec : SecurityCatalog) : Prop :=
  ∀ e ∈ sec.entries, e.Legible

/-- The content is the same whatever the order of the lines. -/
theorem reordered_iff_entries {a b : SecurityCatalog} :
    a.Reordered b ↔ a.entries.Perm b.entries := by
  constructor
  · rintro ⟨hroles, hmemberships, htables, hgrants, hpolicies⟩
    exact ((((hroles.map _).append (hmemberships.map _)).append (htables.map _)).append
      (hgrants.map _)).append (hpolicies.map _)
  · intro h
    have hroles := h.filterMap SecurityEntry.asRole
    have hmemberships := h.filterMap SecurityEntry.asMember
    have htables := h.filterMap SecurityEntry.asRls
    have hgrants := h.filterMap SecurityEntry.asGrant
    have hpolicies := h.filterMap SecurityEntry.asPolicy
    simp only [entries, List.filterMap_append, List.filterMap_map, Function.comp_def,
      SecurityEntry.asRole, SecurityEntry.asMember, SecurityEntry.asRls, SecurityEntry.asGrant,
      SecurityEntry.asPolicy, List.filterMap_some, List.filterMap_none, List.append_nil,
      List.nil_append] at hroles hmemberships htables hgrants hpolicies
    exact ⟨hroles, hmemberships, htables, hgrants, hpolicies⟩

theorem Reordered.legible {a b : SecurityCatalog} (h : a.Reordered b) (hb : b.Legible) :
    a.Legible :=
  fun e he => hb e ((reordered_iff_entries.1 h).mem_iff.1 he)

/-- The order of a list does not count. -/
theorem Reordered.fingerprint_eq {a b : SecurityCatalog} (h : a.Reordered b) :
    a.fingerprint = b.fingerprint := by
  unfold fingerprint sorted
  rw [List.Perm.eq_of_pairwise' (List.pairwise_insertionSort _ _) (List.pairwise_insertionSort _ _)
    ?_]
  exact (List.perm_insertionSort _ _).trans
    (((reordered_iff_entries.1 h).map _).trans (List.perm_insertionSort _ _).symm)

/-- Legible lines are found in the fingerprint. -/
theorem sorted_eq_of_fingerprint_eq {a b : SecurityCatalog} (ha : a.Legible) (hb : b.Legible)
    (h : a.fingerprint = b.fingerprint) :
    sorted (a.entries.map SecurityEntry.line) = sorted (b.entries.map SecurityEntry.line) := by
  have hlines : ∀ {sec : SecurityCatalog}, sec.Legible →
      ∀ l ∈ (sorted (sec.entries.map SecurityEntry.line)).map String.toList,
        Tagged lineTags '\n' l := by
    intro sec hsec l hl
    obtain ⟨line, hline, rfl⟩ := List.mem_map.1 hl
    obtain ⟨e, he, rfl⟩ := List.mem_map.1 ((List.mem_insertionSort _).1 hline)
    exact (hsec e he).tagged
  have htext := congrArg String.toList h
  unfold fingerprint at htext
  rw [String.toList_intercalate, String.toList_intercalate] at htext
  have htags : ∀ tag ∈ lineTags, '\n' ∉ tag ∧ tag ≠ [] := by decide +kernel
  exact List.map_injective_iff.2 (fun _ _ h => String.toList_injective h)
    (intercalate_injective_of_tagged htags (hlines ha) (hlines hb) htext)

theorem perm_of_map_perm {α β : Type*} {f : α → β} {s : Set α} (hf : s.InjOn f) {xs ys : List α}
    (hxs : ∀ x ∈ xs, x ∈ s) (hys : ∀ y ∈ ys, y ∈ s) (h : (xs.map f).Perm (ys.map f)) :
    xs.Perm ys := by
  obtain ⟨xs, rfl⟩ : ∃ zs : List s, zs.map Subtype.val = xs := ⟨xs.attachWith _ hxs, by simp⟩
  obtain ⟨ys, rfl⟩ : ∃ zs : List s, zs.map Subtype.val = ys := ⟨ys.attachWith _ hys, by simp⟩
  rw [List.map_map, List.map_map] at h
  exact ((List.map_perm_map_iff hf.injective).1 h).map _

/-- Two legible catalogs with one fingerprint have the same content. -/
theorem reordered_of_fingerprint_eq {a b : SecurityCatalog} (ha : a.Legible) (hb : b.Legible)
    (h : a.fingerprint = b.fingerprint) : a.Reordered b := by
  have hperm : (a.entries.map SecurityEntry.line).Perm (b.entries.map SecurityEntry.line) := by
    refine (List.perm_insertionSort (· ≤ ·) _).symm.trans ?_
    change (sorted _).Perm _
    rw [sorted_eq_of_fingerprint_eq ha hb h]
    exact List.perm_insertionSort _ _
  exact reordered_iff_entries.2 (perm_of_map_perm SecurityEntry.line_injOn ha hb hperm)

/-- **The fingerprint and the content.** The order of the lists never counts. Among the catalogs with
the fingerprint of a legible one, the legible ones are exactly those with its content. -/
theorem reordered_iff_fingerprint (a b : SecurityCatalog) :
    (a.Reordered b → a.fingerprint = b.fingerprint) ∧
      (b.Legible → (a.Reordered b ↔ a.Legible ∧ a.fingerprint = b.fingerprint)) := by
  refine ⟨fun h => h.fingerprint_eq, fun hb => ?_⟩
  constructor
  · intro h
    exact ⟨h.legible hb, h.fingerprint_eq⟩
  · rintro ⟨ha, h⟩
    exact reordered_of_fingerprint_eq ha hb h

theorem legible_roles : Legible ⟨[⟨"a|b", true⟩, ⟨"anon", false⟩], [], [], [], []⟩ := by
  intro e he
  have hrole : ∃ r, e = .role r ∧ '\n' ∉ e.line.toList := by
    simp only [entries, List.map_cons, List.map_nil, List.append_nil, List.mem_cons,
      List.not_mem_nil, or_false] at he
    rcases he with rfl | rfl
    · exact ⟨_, rfl, by decide +kernel⟩
    · exact ⟨_, rfl, by decide +kernel⟩
  obtain ⟨r, rfl, hline⟩ := hrole
  refine ⟨by simp [SecurityEntry.inner], by simp, by simp, fun u v h => ?_⟩
  rw [h] at hline
  exact absurd (by simp) hline

theorem reordered_iff_fingerprint_roles :
    Reordered ⟨[⟨"anon", false⟩, ⟨"a|b", true⟩], [], [], [], []⟩
      ⟨[⟨"a|b", true⟩, ⟨"anon", false⟩], [], [], [], []⟩ ↔
    Legible ⟨[⟨"anon", false⟩, ⟨"a|b", true⟩], [], [], [], []⟩ ∧
      fingerprint ⟨[⟨"anon", false⟩, ⟨"a|b", true⟩], [], [], [], []⟩ =
        fingerprint ⟨[⟨"a|b", true⟩, ⟨"anon", false⟩], [], [], [], []⟩ :=
  (reordered_iff_fingerprint _ _).2 legible_roles

/-- A grant on the table `b|c` of the schema `a`, or on the table `c` of the schema `a|b`. -/
theorem fingerprint_collides : ¬ ∀ a b : SecurityCatalog, a.fingerprint = b.fingerprint →
    a.Reordered b := by
  intro hall
  have h := (hall ⟨[], [], [], [⟨"a", "b|c", "r"⟩], []⟩ ⟨[], [], [], [⟨"a|b", "c", "r"⟩], []⟩
    (by decide +kernel)).grants
  rw [List.singleton_perm_singleton] at h
  exact absurd h (by decide +kernel)

end SecurityCatalog

end Pglite.Replica
