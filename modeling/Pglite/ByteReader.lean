import Mathlib.Algebra.Ring.Nat
import Mathlib.Data.List.Basic
import Mathlib.Data.List.Induction

/-!
# Reading bytes behind a cursor

A reader moves a cursor over a byte string and gives a value or an error. A slice outside the
string is neither: the program panics there. Nor is a request that the allocator refuses, which
aborts the program.

* `Codes r bs x`: where `bs` stands in the input the reader gives `x` and moves behind it, and
  where the input ends within `bs` it is an error. Readers in sequence code the bytes in sequence
  (`Codes.bind`), and a reader that is repeated codes the bytes of a list (`codes_times`).
* `Safe r`: the reader gives a value or an error and stays within its input, whatever the input is.
* `toBe`, `fromBe`: numbers in network byte order.
-/

namespace ByteReader

variable {ε α β : Type}

structure Cursor where
  buf : List UInt8
  pos : Nat

/-- Why a reader gives no value. -/
inductive Stop (ε : Type)
  | error (e : ε)
  | panic
  | abort
deriving DecidableEq

abbrev Reader (ε α : Type) := StateT Cursor (Except (Stop ε)) α

/-- `&buf[start..stop]`. -/
def slice (buf : List UInt8) (start stop : Nat) : Except (Stop ε) (List UInt8) :=
  if start ≤ stop ∧ stop ≤ buf.length then .ok ((buf.drop start).take (stop - start))
  else .error .panic

/-- The reader stops with an error. -/
def fail (e : ε) : Reader ε α :=
  fun _ => .error (.error e)

/-- The program panics. -/
def crash : Reader ε α :=
  fun _ => .error .panic

/-- Room for so many bytes is asked for. -/
def reserve (grants : Nat → Bool) (bytes : Nat) : Reader ε Unit := fun c =>
  if grants bytes then .ok ((), c) else .error .abort

/-- The reader `r` so many times. -/
def times (r : Reader ε α) : Nat → Reader ε (List α)
  | 0 => pure []
  | n + 1 => do
    let x ← r
    let xs ← times r n
    pure (x :: xs)

theorem bind_apply (r : Reader ε α) (k : α → Reader ε β) (c : Cursor) :
    (r >>= k) c = (r c).bind fun p => k p.1 p.2 := rfl

theorem slice_append {pre bs post : List UInt8} :
    slice (pre ++ (bs ++ post)) pre.length (pre.length + bs.length) =
      (.ok bs : Except (Stop ε) (List UInt8)) := by
  rw [slice, if_pos (by simp)]
  simp

theorem slice_end {pre bs : List UInt8} :
    slice (pre ++ bs) pre.length (pre ++ bs).length =
      (.ok bs : Except (Stop ε) (List UInt8)) := by
  have hslice : slice (pre ++ (bs ++ [])) pre.length (pre.length + bs.length) =
      (.ok bs : Except (Stop ε) (List UInt8)) := slice_append
  rwa [List.append_nil, ← List.length_append] at hslice

/-! ## Coding -/

/-- The reader gives `x` for `bs`, and is not content with less. -/
structure Codes (r : Reader ε α) (bs : List UInt8) (x : α) : Prop where
  reads : ∀ pre post, r ⟨pre ++ (bs ++ post), pre.length⟩ =
    .ok (x, ⟨pre ++ (bs ++ post), pre.length + bs.length⟩)
  refuses : ∀ pre cut, cut <+: bs → cut ≠ bs →
    ∃ e, r ⟨pre ++ cut, pre.length⟩ = .error (.error e)

theorem codes_pure (x : α) : Codes (pure x : Reader ε α) [] x where
  reads _ _ := rfl
  refuses _ _ hcut hne := absurd (List.prefix_nil.1 hcut) hne

theorem Codes.bind {r : Reader ε α} {bs : List UInt8} {x : α} (hr : Codes r bs x)
    {k : α → Reader ε β} {cs : List UInt8} {y : β} (hk : Codes (k x) cs y) :
    Codes (r >>= k) (bs ++ cs) y where
  reads pre post := by
    have hfirst := hr.reads pre (cs ++ post)
    have hsecond := hk.reads (pre ++ bs) post
    rw [List.append_assoc, List.length_append] at hsecond
    rw [List.append_assoc, bind_apply, hfirst, List.length_append, ← Nat.add_assoc]
    exact hsecond
  refuses pre cut hcut hne := by
    rw [bind_apply]
    by_cases hlen : bs.length ≤ cut.length
    · obtain ⟨rest, rfl⟩ : bs <+: cut :=
        List.prefix_of_prefix_length_le (List.prefix_append bs cs) hcut hlen
      have hrest : rest <+: cs := (List.prefix_append_right_inj bs).1 hcut
      obtain ⟨e, he⟩ := hk.refuses (pre ++ bs) rest hrest fun h => hne (h ▸ rfl)
      rw [List.append_assoc, List.length_append] at he
      exact ⟨e, by rw [hr.reads pre rest]; exact he⟩
    · have hshort : cut <+: bs :=
        List.prefix_of_prefix_length_le hcut (List.prefix_append bs cs) (by omega)
      obtain ⟨e, he⟩ := hr.refuses pre cut hshort fun h => hlen (h ▸ Nat.le_refl _)
      exact ⟨e, by rw [he]; rfl⟩

/-- Nor does a request. -/
theorem codes_reserve {grants : Nat → Bool} {bytes : Nat} (h : grants bytes = true) :
    Codes (reserve grants bytes : Reader ε Unit) [] () where
  reads _ _ := by
    rw [reserve, if_pos h]
    rfl
  refuses _ _ hcut hne := absurd (List.prefix_nil.1 hcut) hne

/-- What is made of the value costs no bytes. -/
theorem Codes.map {r : Reader ε α} {bs : List UInt8} {x : α} (hr : Codes r bs x) (f : α → β) :
    Codes (r >>= fun x => pure (f x)) bs (f x) := by
  have hseq : Codes (r >>= fun x => pure (f x)) (bs ++ []) (f x) := hr.bind (codes_pure (f x))
  rwa [List.append_nil] at hseq

/-- A list of values, each with the bytes that the reader reads it from. -/
theorem codes_times {r : Reader ε α} {enc : α → List UInt8} {xs : List α}
    (h : ∀ x ∈ xs, Codes r (enc x) x) : Codes (times r xs.length) (xs.flatMap enc) xs := by
  induction xs with
  | nil => exact codes_pure []
  | cons x xs ih =>
    obtain ⟨hx, hxs⟩ := List.forall_mem_cons.1 h
    exact hx.bind ((ih hxs).map (x :: ·))

/-! ## Safety -/

/-- The reader gives a value and leaves the cursor within the input, or it is an error. -/
def Safe (r : Reader ε α) : Prop :=
  ∀ c, c.pos ≤ c.buf.length →
    (∃ x c', r c = .ok (x, c') ∧ c'.pos ≤ c'.buf.length) ∨ ∃ e, r c = .error (.error e)

theorem safe_pure (x : α) : Safe (pure x : Reader ε α) :=
  fun c hc => .inl ⟨x, c, rfl, hc⟩

theorem safe_fail (e : ε) : Safe (fail e : Reader ε α) :=
  fun _ _ => .inr ⟨e, rfl⟩

theorem safe_reserve {grants : Nat → Bool} {bytes : Nat} (h : grants bytes = true) :
    Safe (reserve grants bytes : Reader ε Unit) :=
  fun c hc => .inl ⟨(), c, if_pos h, hc⟩

/-- In sequence: the second reader may rely on what the first can give. -/
theorem Safe.bind_of {r : Reader ε α} (hr : Safe r) {k : α → Reader ε β}
    (hk : ∀ c x c', r c = .ok (x, c') → Safe (k x)) : Safe (r >>= k) := by
  intro c hc
  rw [bind_apply]
  rcases hr c hc with ⟨x, c', hread, hc'⟩ | ⟨e, he⟩
  · rw [hread]
    exact hk c x c' hread c' hc'
  · rw [he]
    exact .inr ⟨e, rfl⟩

theorem Safe.bind {r : Reader ε α} (hr : Safe r) {k : α → Reader ε β} (hk : ∀ x, Safe (k x)) :
    Safe (r >>= k) :=
  hr.bind_of fun _ x _ _ => hk x

theorem Safe.map {r : Reader ε α} (hr : Safe r) (f : α → β) :
    Safe (r >>= fun x => pure (f x)) :=
  hr.bind fun x => safe_pure (f x)

theorem Safe.ite {p : Prop} [Decidable p] {r r' : Reader ε α} (hr : Safe r) (hr' : Safe r') :
    Safe (if p then r else r') := by
  split
  · exact hr
  · exact hr'

theorem safe_times {r : Reader ε α} (h : Safe r) (n : Nat) : Safe (times r n) := by
  induction n with
  | zero => exact safe_pure []
  | succ n ih => exact h.bind fun x => ih.bind fun xs => safe_pure (x :: xs)

/-! ## Numbers -/

/-- `from_be_bytes`, as a number. -/
def fromBe (bs : List UInt8) : Nat :=
  bs.foldl (fun n b => n * 256 + b.toNat) 0

/-- `to_be_bytes` at a width. -/
def toBe : Nat → Nat → List UInt8
  | 0, _ => []
  | w + 1, n => toBe w (n / 256) ++ [UInt8.ofNat n]

@[simp] theorem length_toBe (w n : Nat) : (toBe w n).length = w := by
  induction w generalizing n with
  | zero => rfl
  | succ w ih => simp [toBe, ih]

theorem fromBe_lt (bs : List UInt8) : fromBe bs < 256 ^ bs.length := by
  induction bs using List.reverseRecOn with
  | nil => decide
  | append_singleton bs b ih =>
    have hlast : b.toNat < 256 := b.toNat_lt
    have hsplit : fromBe (bs ++ [b]) = fromBe bs * 256 + b.toNat := by
      simp [fromBe]
    rw [hsplit, List.length_append, List.length_singleton, Nat.pow_succ]
    omega

theorem fromBe_toBe {w n : Nat} (h : n < 256 ^ w) : fromBe (toBe w n) = n := by
  induction w generalizing n with
  | zero =>
    rw [Nat.pow_zero, Nat.lt_one_iff] at h
    subst h
    rfl
  | succ w ih =>
    have hdiv : n / 256 < 256 ^ w := by
      rw [Nat.pow_succ] at h
      exact Nat.div_lt_of_lt_mul (by omega)
    have hlast : (UInt8.ofNat n).toNat = n % 256 := by simp
    have hrest := ih hdiv
    unfold fromBe at hrest ⊢
    rw [toBe, List.foldl_append, hrest, List.foldl_cons, List.foldl_nil, hlast]
    omega

theorem toBe_fromBe (bs : List UInt8) : toBe bs.length (fromBe bs) = bs := by
  induction bs using List.reverseRecOn with
  | nil => rfl
  | append_singleton bs b ih =>
    have hlast : b.toNat < 256 := b.toNat_lt
    have hsplit : fromBe (bs ++ [b]) = fromBe bs * 256 + b.toNat := by
      simp [fromBe]
    have hdiv : (fromBe bs * 256 + b.toNat) / 256 = fromBe bs := by omega
    have hmod : UInt8.ofNat (fromBe bs * 256 + b.toNat) = b := by
      rw [← UInt8.toNat_inj, UInt8.toNat_ofNat']
      omega
    rw [List.length_append, List.length_singleton, toBe, hsplit, hdiv, ih, hmod]

end ByteReader
