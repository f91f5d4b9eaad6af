import Mathlib.Data.List.Basic
import Mathlib.Algebra.BigOperators.Group.List.Basic
import Mathlib.Algebra.Ring.Nat

/-!
# Task lists

The tasks of a concurrent program are a list of program counters, and a step writes one place of
it. What the tasks hold together is a sum over the list, or a count.
-/

namespace TaskList

variable {α : Type*} {l : List α} {i : Nat} {a : α}

/-- A place of the list after one of them is written. -/
theorem getElem?_set_cases {j : Nat} {b c : α} (h : (l.set i b)[j]? = some c) :
    (j = i ∧ c = b) ∨ (j ≠ i ∧ l[j]? = some c) := by
  rw [List.getElem?_set] at h
  split_ifs at h with heq hlt
  · exact .inl ⟨heq.symm, (Option.some.inj h).symm⟩
  · exact .inr ⟨Ne.symm heq, h⟩

/-- What the tasks hold together changes by what the one that moves holds. -/
theorem sum_map_set_add (h : l[i]? = some a) (b : α) (f : α → Nat) :
    ((l.set i b).map f).sum + f a = (l.map f).sum + f b := by
  induction l generalizing i with
  | nil => cases h
  | cons x l ih =>
    cases i with
    | zero =>
      obtain rfl : x = a := by simpa using h
      simp only [List.set_cons_zero, List.map_cons, List.sum_cons]
      omega
    | succ i =>
      have hrest := ih (by simpa using h)
      simp only [List.set_cons_succ, List.map_cons, List.sum_cons]
      omega

/-- Changing one element changes the count by what the two elements count. -/
theorem countP_set_add (h : l[i]? = some a) (b : α) (p : α → Bool) :
    (l.set i b).countP p + (p a).toNat = l.countP p + (p b).toNat := by
  obtain ⟨hi, rfl⟩ := List.getElem?_eq_some_iff.1 h
  have hle : p l[i] = true → 1 ≤ l.countP p := fun hp =>
    List.countP_pos_iff.2 ⟨l[i], List.getElem_mem hi, hp⟩
  rw [List.countP_set hi]
  cases ha : p l[i] with
  | true =>
    have := hle ha
    cases p b <;> simp <;> omega
  | false => cases p b <;> simp

/-- A task with a property is still there after a step, unless the step takes it away. -/
theorem exists_mem_set {p : α → Prop} (h : l[i]? = some a) {b : α} (hex : ∃ x ∈ l, p x)
    (hab : p a → p b) : ∃ x ∈ l.set i b, p x := by
  obtain ⟨x, hx, hp⟩ := hex
  obtain ⟨j, hj⟩ := List.mem_iff_getElem?.1 hx
  obtain ⟨hi, -⟩ := List.getElem?_eq_some_iff.1 h
  by_cases hij : i = j
  · subst hij
    obtain rfl : a = x := Option.some.inj (h.symm.trans hj)
    exact ⟨b, List.mem_set hi b, hab hp⟩
  · exact ⟨x, List.mem_iff_getElem?.2 ⟨j, by rwa [List.getElem?_set_ne hij]⟩, hp⟩

end TaskList
