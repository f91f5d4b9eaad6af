import Mathlib.Data.Finmap
import Mathlib.Data.List.Perm.Basic

/-!
# Records and tables

A record has values under some of its field names and none, which is a null, under the others. A
table is a list of records in no particular order.

* `set`, `setAll`, `clear`: writing fields, with their `lookup` lemmas.
* `Matches`: the record has these values. Fields that are cleared elsewhere make no difference
  (`matches_clear`, `clear_setAll`).
* `perm_map_ite`, `perm_filter_not`: updating or deleting what matches changes one record, when one
  matches, and exactly when each other one that matches stays (`perm_map_ite_iff`,
  `perm_filter_not_iff`).
-/

namespace Records

/-- The values of the fields that have one. -/
abbrev Record (K V : Type*) := Finmap fun _ : K => V

section Fields

variable {K V : Type*} [DecidableEq K]

/-- The record with another value, or none, in one field. -/
def set (r : Record K V) (k : K) : Option V → Record K V
  | some v => r.insert k v
  | none => r.erase k

theorem lookup_set (r : Record K V) (k : K) (v : Option V) (k' : K) :
    (set r k v).lookup k' = if k' = k then v else r.lookup k' := by
  by_cases hk : k' = k
  · subst hk
    rw [if_pos rfl]
    cases v with
    | none => exact Finmap.lookup_erase k' r
    | some v => exact Finmap.lookup_insert r
  · rw [if_neg hk]
    cases v with
    | none => exact Finmap.lookup_erase_ne hk
    | some v => exact Finmap.lookup_insert_of_ne r hk

/-- One field after the other. -/
def setAll (r : Record K V) (fields : List (K × Option V)) : Record K V :=
  fields.foldl (fun r p => set r p.1 p.2) r

theorem lookup_setAll (r : Record K V) (fields : List (K × Option V)) (k : K) :
    (setAll r fields).lookup k = (fields.reverse.lookup k).getD (r.lookup k) := by
  induction fields generalizing r with
  | nil => rfl
  | cons p fields ih =>
    have hstep : setAll r (p :: fields) = setAll (set r p.1 p.2) fields := rfl
    obtain ⟨key, v⟩ := p
    rw [hstep, ih, List.reverse_cons, List.lookup_append, lookup_set]
    cases fields.reverse.lookup k with
    | some v => rfl
    | none =>
      by_cases hk : k = key
      · subst hk
        simp
      · have hbeq : (k == key) = false := beq_false_of_ne hk
        simp [List.lookup_cons, hk, hbeq]

/-- Writing the same fields once more changes nothing. -/
theorem setAll_setAll (r : Record K V) (fields : List (K × Option V)) :
    setAll (setAll r fields) fields = setAll r fields := by
  apply Finmap.ext_lookup
  intro k
  rw [lookup_setAll, lookup_setAll]
  cases fields.reverse.lookup k <;> rfl

/-- The fields that differ are written, with the values that they have in the other record. -/
theorem setAll_eq {r r' : Record K V} {fields : List (K × Option V)}
    (hfields : ∀ p ∈ fields, r'.lookup p.1 = p.2)
    (hrest : ∀ k, k ∉ fields.map Prod.fst → r.lookup k = r'.lookup k) : setAll r fields = r' := by
  induction fields generalizing r with
  | nil => exact Finmap.ext_lookup fun k => hrest k List.not_mem_nil
  | cons p fields ih =>
    rw [List.forall_mem_cons] at hfields
    refine ih hfields.2 fun k hk => ?_
    rw [lookup_set]
    by_cases hkey : k = p.1
    · rw [if_pos hkey, hkey, hfields.1]
    · rw [if_neg hkey]
      exact hrest k (by simp [hkey, hk])

/-- No value in these fields. -/
def clear (names : List K) (r : Record K V) : Record K V :=
  names.foldl (fun r k => r.erase k) r

theorem lookup_clear (names : List K) (r : Record K V) (k : K) :
    (clear names r).lookup k = if k ∈ names then none else r.lookup k := by
  induction names generalizing r with
  | nil => rfl
  | cons n names ih =>
    have hstep : clear (n :: names) r = clear names (r.erase n) := rfl
    rw [hstep, ih]
    by_cases hmem : k ∈ names
    · rw [if_pos hmem, if_pos (List.mem_cons_of_mem n hmem)]
    · rw [if_neg hmem]
      by_cases hk : k = n
      · subst hk
        rw [if_pos List.mem_cons_self, Finmap.lookup_erase]
      · have hnot : k ∉ n :: names := by
          rw [List.mem_cons, not_or]
          exact ⟨hk, hmem⟩
        rw [if_neg hnot, Finmap.lookup_erase_ne hk]

theorem clear_congr {names names' : List K} (h : ∀ k, k ∈ names ↔ k ∈ names') :
    clear (K := K) (V := V) names = clear names' := by
  funext r
  apply Finmap.ext_lookup
  intro k
  simp only [lookup_clear, h]

theorem clear_empty (names : List K) : clear names (∅ : Record K V) = ∅ := by
  apply Finmap.ext_lookup
  intro k
  rw [lookup_clear, Finmap.lookup_empty, ite_self]

theorem clear_set {names : List K} {k : K} (h : k ∉ names) (r : Record K V) (v : Option V) :
    clear names (set r k v) = set (clear names r) k v := by
  apply Finmap.ext_lookup
  intro k'
  rw [lookup_clear, lookup_set, lookup_set, lookup_clear]
  by_cases hk : k' = k
  · subst hk
    rw [if_neg h, if_pos rfl, if_pos rfl]
  · rw [if_neg hk, if_neg hk]

/-- Fields that are written are not those that are cleared. -/
theorem clear_setAll {names : List K} {fields : List (K × Option V)}
    (h : ∀ p ∈ fields, p.1 ∉ names) (r : Record K V) :
    clear names (setAll r fields) = setAll (clear names r) fields := by
  induction fields generalizing r with
  | nil => rfl
  | cons p fields ih =>
    rw [List.forall_mem_cons] at h
    have hrest := ih h.2 (set r p.1 p.2)
    rwa [clear_set h.1] at hrest

/-- The record has these values. -/
def Matches (key : List (K × Option V)) (r : Record K V) : Prop :=
  ∀ p ∈ key, r.lookup p.1 = p.2

instance Matches.decidable [DecidableEq V] (key : List (K × Option V)) :
    DecidablePred (Matches key) :=
  fun r => inferInstanceAs (Decidable (∀ p ∈ key, r.lookup p.1 = p.2))

theorem matches_clear {names : List K} {key : List (K × Option V)} (h : ∀ p ∈ key, p.1 ∉ names)
    (r : Record K V) : Matches key (clear names r) ↔ Matches key r := by
  refine forall₂_congr fun p hp => ?_
  rw [lookup_clear, if_neg (h p hp)]

end Fields

section Tables

variable {R : Type*} [DecidableEq R] {m : R → Prop} [DecidablePred m] {rows : List R} {r : R}

/-- Nothing else matches when a single record does. -/
theorem not_of_mem_erase (hr : r ∈ rows) (hm : m r)
    (hone : (rows.filter fun x => decide (m x)).length ≤ 1) {x : R} (hx : x ∈ rows.erase r) :
    ¬ m x := by
  intro hmx
  have hperm := (List.perm_cons_erase hr).filter fun x => decide (m x)
  rw [List.filter_cons_of_pos (by simpa using hm)] at hperm
  rw [hperm.length_eq, List.length_cons] at hone
  have hmem : x ∈ (rows.erase r).filter fun x => decide (m x) :=
    List.mem_filter.2 ⟨hx, by simpa using hmx⟩
  have hpos := List.length_pos_of_mem hmem
  omega

/-- **Update.** Of all records that match, the one is changed. -/
theorem perm_map_ite (f : R → R) (hr : r ∈ rows) (hm : m r)
    (hone : (rows.filter fun x => decide (m x)).length ≤ 1) :
    (rows.map fun x => if m x then f x else x).Perm (f r :: rows.erase r) := by
  have hrest : ((rows.erase r).map fun x => if m x then f x else x) = rows.erase r := by
    refine (List.map_congr_left fun x hx => ?_).trans (List.map_id _)
    rw [if_neg (not_of_mem_erase hr hm hone hx), id]
  have hperm := (List.perm_cons_erase hr).map fun x => if m x then f x else x
  rwa [List.map_cons, if_pos hm, hrest] at hperm

/-- **Delete.** Of all records that match, the one is gone. -/
theorem perm_filter_not (hr : r ∈ rows) (hm : m r)
    (hone : (rows.filter fun x => decide (m x)).length ≤ 1) :
    (rows.filter fun x => decide (¬ m x)).Perm (rows.erase r) := by
  have hrest : ((rows.erase r).filter fun x => decide (¬ m x)) = rows.erase r := by
    rw [List.filter_eq_self]
    intro x hx
    exact decide_eq_true (not_of_mem_erase hr hm hone hx)
  have hperm := (List.perm_cons_erase hr).filter fun x => decide (¬ m x)
  rwa [List.filter_cons_of_neg (by simpa using hm), hrest] at hperm

omit [DecidableEq R] in
/-- Something that is done twice as well as once leaves the same records, as a whole, when it leaves
each as it is. -/
theorem map_perm_self_iff {f : R → R} (hf : ∀ x, f (f x) = f x) :
    (rows.map f).Perm rows ↔ ∀ x ∈ rows, f x = x := by
  constructor
  · intro hperm x hx
    obtain ⟨y, -, rfl⟩ := List.mem_map.1 (hperm.mem_iff.2 hx)
    exact hf y
  · intro h
    rw [List.map_congr_left h, List.map_id']

/-- An update of what matches changes the one record only, exactly when it leaves the others that
match as they are. -/
theorem perm_map_ite_iff {f : R → R} (hf : ∀ x, f (f x) = f x) (hr : r ∈ rows) (hm : m r) :
    (rows.map fun x => if m x then f x else x).Perm (f r :: rows.erase r) ↔
      ∀ x ∈ rows.erase r, m x → f x = x := by
  have htwice : ∀ x, (if m (if m x then f x else x) then f (if m x then f x else x)
      else if m x then f x else x) = if m x then f x else x := by
    intro x
    by_cases hmx : m x
    · by_cases hmf : m (f x)
      · simp [hmx, hmf, hf]
      · simp [hmx, hmf]
    · simp [hmx]
  have hperm := (List.perm_cons_erase hr).map fun x => if m x then f x else x
  rw [List.map_cons, if_pos hm] at hperm
  rw [hperm.congr_left, List.perm_cons, map_perm_self_iff htwice]
  refine forall₂_congr fun x _ => ?_
  by_cases hmx : m x
  · simp [hmx]
  · simp [hmx]

/-- A deletion of what matches takes the one record only, exactly when no other one matches. -/
theorem perm_filter_not_iff (hr : r ∈ rows) (hm : m r) :
    (rows.filter fun x => decide (¬ m x)).Perm (rows.erase r) ↔ ∀ x ∈ rows.erase r, ¬ m x := by
  have hperm := (List.perm_cons_erase hr).filter fun x => decide (¬ m x)
  rw [List.filter_cons_of_neg (by simpa using hm)] at hperm
  rw [hperm.congr_left]
  constructor
  · intro h x hx
    simpa using (List.length_filter_eq_length_iff.1 h.length_eq) x hx
  · intro h
    rw [List.filter_eq_self.2 fun x hx => decide_eq_true (h x hx)]

end Tables

end Records
