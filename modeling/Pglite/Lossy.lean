import Mathlib.Data.List.Basic

/-!
# UTF-8, with a replacement for what is not

`String::from_utf8_lossy`: every longest sequence of bytes that is not a character or only the
beginning of one is replaced by U+FFFD.
-/

namespace Lossy

/-- U+FFFD. -/
def replacement : List UInt8 := [0xEF, 0xBF, 0xBD]

/-- The bytes that may follow the first one of a character, from and to. -/
def following (b : UInt8) : Option (List (UInt8 × UInt8)) :=
  if b < 0x80 then some []
  else if b < 0xC2 then none
  else if b < 0xE0 then some [(0x80, 0xBF)]
  else if b < 0xF0 then
    some [(if b = 0xE0 then 0xA0 else 0x80, if b = 0xED then 0x9F else 0xBF), (0x80, 0xBF)]
  else if b < 0xF5 then
    some [(if b = 0xF0 then 0x90 else 0x80, if b = 0xF4 then 0x8F else 0xBF), (0x80, 0xBF),
      (0x80, 0xBF)]
  else none

/-- The bytes that are as they have to be, what follows, and whether none is missing. -/
def matching : List (UInt8 × UInt8) → List UInt8 → List UInt8 × List UInt8 × Bool
  | [], s => ([], s, true)
  | _ :: _, [] => ([], [], false)
  | (lo, hi) :: ranges, c :: s =>
    if lo ≤ c ∧ c ≤ hi then
      (c :: (matching ranges s).1, (matching ranges s).2)
    else ([], c :: s, false)

/-- The bytes are cut into those that match and the rest. -/
theorem matching_append (ranges : List (UInt8 × UInt8)) (s : List UInt8) :
    (matching ranges s).1 ++ (matching ranges s).2.1 = s := by
  induction ranges generalizing s with
  | nil => rfl
  | cons r ranges ih =>
    cases s with
    | nil => rfl
    | cons c s =>
      rw [matching]
      split
      · rw [List.cons_append, ih]
      · rfl

theorem matching_length (ranges : List (UInt8 × UInt8)) (s : List UInt8) :
    (matching ranges s).2.1.length ≤ s.length := by
  have hlen := congrArg List.length (matching_append ranges s)
  rw [List.length_append] at hlen
  omega

def lossy : List UInt8 → List UInt8
  | [] => []
  | b :: s =>
    match following b with
    | none => replacement ++ lossy s
    | some ranges =>
      have := matching_length ranges s
      (if (matching ranges s).2.2 then b :: (matching ranges s).1 else replacement) ++
        lossy (matching ranges s).2.1
termination_by s => s.length

/-- A byte below 0x80 is a character. -/
theorem lossy_cons {b : UInt8} (h : b < 0x80) (s : List UInt8) : lossy (b :: s) = b :: lossy s := by
  have hfollowing : following b = some [] := if_pos h
  rw [lossy, hfollowing]
  rfl

theorem lossy_ascii {s : List UInt8} (h : ∀ b ∈ s, b < 0x80) : lossy s = s := by
  induction s with
  | nil => rw [lossy]
  | cons b s ih =>
    obtain ⟨hb, hs⟩ := List.forall_mem_cons.1 h
    rw [lossy_cons hb, ih hs]

/-- What matches after a first byte has no byte below 0x80. -/
theorem following_ge {b : UInt8} {ranges : List (UInt8 × UInt8)} (h : following b = some ranges) :
    ∀ r ∈ ranges, 0x80 ≤ r.1 := by
  unfold following at h
  split_ifs at h <;> cases h <;> simp

theorem matching_ge {ranges : List (UInt8 × UInt8)} (h : ∀ r ∈ ranges, 0x80 ≤ r.1) (s : List UInt8) :
    ∀ c ∈ (matching ranges s).1, 0x80 ≤ c := by
  induction ranges generalizing s with
  | nil => exact fun c hc => absurd hc List.not_mem_nil
  | cons r ranges ih =>
    obtain ⟨hr, hranges⟩ := List.forall_mem_cons.1 h
    cases s with
    | nil => exact fun c hc => absurd hc List.not_mem_nil
    | cons c s =>
      rw [matching]
      split
      · next hin => exact List.forall_mem_cons.2 ⟨UInt8.le_trans hr hin.1, ih hranges s⟩
      · exact fun c hc => absurd hc List.not_mem_nil

/-- Every byte below 0x80 is there as often as before. -/
theorem count_lossy {b : UInt8} (hb : b < 0x80) (s : List UInt8) : (lossy s).count b = s.count b := by
  have hreplacement : replacement.count b = 0 := by
    refine List.count_eq_zero.2 fun hmem => ?_
    have hge : ∀ c ∈ replacement, (0x80 : UInt8) ≤ c := by simp [replacement]
    exact absurd hb (UInt8.not_lt.2 (hge b hmem))
  induction s using lossy.induct with
  | case1 => rw [lossy]
  | case2 first s hnone ih =>
    have hfirst : b ≠ first := by
      rintro rfl
      rw [following, if_pos hb] at hnone
      cases hnone
    rw [lossy, hnone, List.count_append, hreplacement, ih, List.count_cons_of_ne (Ne.symm hfirst),
      Nat.zero_add]
  | case3 first s ranges hsome _ ih =>
    have hmatched : (matching ranges s).1.count b = 0 := by
      refine List.count_eq_zero.2 fun hmem => ?_
      exact absurd hb (UInt8.not_lt.2 (matching_ge (following_ge hsome) s b hmem))
    have hcount := congrArg (List.count b) (matching_append ranges s)
    rw [List.count_append, hmatched, Nat.zero_add] at hcount
    rw [lossy, hsome, List.count_append, ih, hcount]
    split
    · rw [List.count_cons, List.count_cons, hmatched]
      omega
    · next hcut =>
      have hfirst : first ≠ b := by
        rintro rfl
        rw [following, if_pos hb] at hsome
        obtain rfl := Option.some.inj hsome
        exact hcut rfl
      rw [hreplacement, List.count_cons_of_ne hfirst, Nat.zero_add]

theorem mem_lossy {b : UInt8} (hb : b < 0x80) {s : List UInt8} : b ∈ lossy s ↔ b ∈ s := by
  rw [← List.count_pos_iff, ← List.count_pos_iff, count_lossy hb]

end Lossy
