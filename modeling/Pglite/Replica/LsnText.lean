import Pglite.Replica.Lsn

/-!
# Texts of log positions

What `Lsn::from_pg_str` makes of a text, whatever the text is.

- **Written.** The upstream writes a position as two numbers of one to eight hexadecimal digits,
  with a slash in between.
- **Lenient.** `u64::from_str_radix` reads a number behind a plus sign, and with any number of zeros
  in front, and the range check is for its value.

`from_pg_str_iff` says which texts are read that the upstream does not write, and
`from_pg_str_to_pg_str` that none of this matters for the watermark.
-/

namespace Pglite.Lsn

open Text

/-- The halves of a text, as numbers. -/
def halves (s : String) : Option (Nat × Nat) :=
  (splitOnce '/' s.toList).bind fun (hi, lo) =>
    (fromStrRadix (2 ^ 64) 16 hi).bind fun hi => (fromStrRadix (2 ^ 64) 16 lo).map fun lo => (hi, lo)

theorem fromPgStr_of_none {s : String} (h : halves s = none) : fromPgStr s = .error (.lsn s) := by
  unfold halves at h
  unfold fromPgStr
  cases hsplit : splitOnce '/' s.toList with
  | none => rfl
  | some p =>
    obtain ⟨hi, lo⟩ := p
    rw [hsplit, Option.bind_some] at h
    dsimp only at h ⊢
    cases hhi : fromStrRadix (2 ^ 64) 16 hi with
    | none => cases fromStrRadix (2 ^ 64) 16 lo <;> rfl
    | some m =>
      cases hlo : fromStrRadix (2 ^ 64) 16 lo with
      | none => rfl
      | some n =>
        rw [hhi, hlo] at h
        cases h

theorem halves_lt {hi lo : Nat} (h : hi < 2 ^ 32 ∧ lo < 2 ^ 32) : hi * 2 ^ 32 + lo < 2 ^ 64 := by
  omega

theorem fromPgStr_of_halves {s : String} {hi lo : Nat} (h : halves s = some (hi, lo)) :
    fromPgStr s = if h : hi < 2 ^ 32 ∧ lo < 2 ^ 32 then .ok ⟨hi * 2 ^ 32 + lo, halves_lt h⟩
      else .error (.lsn s) := by
  unfold halves at h
  unfold fromPgStr
  obtain ⟨⟨first, second⟩, hsplit, h⟩ := Option.bind_eq_some_iff.1 h
  obtain ⟨m, hhi, h⟩ := Option.bind_eq_some_iff.1 h
  obtain ⟨n, hlo, heq⟩ := Option.map_eq_some_iff.1 h
  obtain ⟨rfl, rfl⟩ := Prod.mk.inj heq
  rw [hsplit]
  dsimp only at hhi hlo ⊢
  rw [hhi, hlo]

theorem fromPgStr_eq_ok {s : String} {l : Lsn} : fromPgStr s = .ok l ↔
    ∃ hi lo, halves s = some (hi, lo) ∧ hi < 2 ^ 32 ∧ lo < 2 ^ 32 ∧ l.val = hi * 2 ^ 32 + lo := by
  cases hhalves : halves s with
  | none => simp [fromPgStr_of_none hhalves]
  | some p =>
    obtain ⟨hi, lo⟩ := p
    rw [fromPgStr_of_halves hhalves]
    split
    · next h =>
      constructor
      · intro hok
        obtain rfl := Except.ok.inj hok
        exact ⟨hi, lo, rfl, h.1, h.2, rfl⟩
      · rintro ⟨hi', lo', heq, -, -, hl⟩
        obtain ⟨rfl, rfl⟩ := Prod.mk.inj (Option.some.inj heq)
        exact congrArg Except.ok (Fin.ext hl.symm)
    · next h =>
      refine ⟨fun hok => (by cases hok), ?_⟩
      rintro ⟨hi', lo', heq, hhi, hlo, -⟩
      obtain ⟨rfl, rfl⟩ := Prod.mk.inj (Option.some.inj heq)
      exact absurd ⟨hhi, hlo⟩ h

/-- The text of a position shows its halves. -/
theorem halves_toPgStr (l : Lsn) :
    halves l.toPgStr = some (l.val / 2 ^ 32, l.val % 2 ^ 32) := by
  obtain ⟨hi, lo, hhalves, hhi, hlo, hl⟩ := fromPgStr_eq_ok.1 (fromPgStr_toPgStr l)
  rw [hhalves, hl]
  have hdiv : (hi * 2 ^ 32 + lo) / 2 ^ 32 = hi := by omega
  have hmod : (hi * 2 ^ 32 + lo) % 2 ^ 32 = lo := by omega
  rw [hdiv, hmod]

/-- A position is read back from its text, every text that is read is as good as the one of its
position, and positions are in the order of the halves that their texts show. -/
theorem from_pg_str_to_pg_str :
    (∀ l : Lsn, fromPgStr l.toPgStr = .ok l) ∧
    (∀ (s : String) (l : Lsn), fromPgStr s = .ok l → fromPgStr l.toPgStr = fromPgStr s) ∧
    ∀ l l' : Lsn, ∃ hi lo hi' lo', halves l.toPgStr = some (hi, lo) ∧
      halves l'.toPgStr = some (hi', lo') ∧ (l < l' ↔ hi < hi' ∨ hi = hi' ∧ lo < lo') := by
  refine ⟨fromPgStr_toPgStr, fun s l h => ?_, fun l l' => ?_⟩
  · rw [fromPgStr_toPgStr, h]
  · refine ⟨_, _, _, _, halves_toPgStr l, halves_toPgStr l', ?_⟩
    rw [Fin.lt_def]
    omega

/-! ## Numbers in hexadecimal -/

def IsHexDigit (c : Char) : Prop :=
  '0' ≤ c ∧ c ≤ '9' ∨ 'a' ≤ c ∧ c ≤ 'f' ∨ 'A' ≤ c ∧ c ≤ 'F'

/-- The number that hexadecimal digits spell. -/
def hexValue (cs : List Char) : Nat :=
  cs.foldl (fun n c => n * 16 + (toDigit 16 c).getD 0) 0

/-- One to eight hexadecimal digits. -/
def IsHalf (cs : List Char) : Prop :=
  1 ≤ cs.length ∧ cs.length ≤ 8 ∧ ∀ c ∈ cs, IsHexDigit c

/-- The upstream writes the position so. -/
def Written (s : String) (l : Lsn) : Prop :=
  ∃ hi lo, s.toList = hi ++ '/' :: lo ∧ IsHalf hi ∧ IsHalf lo ∧
    l.val = hexValue hi * 2 ^ 32 + hexValue lo

/-- One to eight hexadecimal digits, with zeros and before them a plus sign in front. -/
def LenientHalf (cs : List Char) : Prop :=
  ∃ plus zeros ds, cs = plus ++ (List.replicate zeros '0' ++ ds) ∧ (plus = [] ∨ plus = ['+']) ∧
    IsHalf ds

/-- Two numbers with a slash in between, one of which is only read leniently. -/
def Lenient (s : String) : Prop :=
  ∃ hi lo, s.toList = hi ++ '/' :: lo ∧ LenientHalf hi ∧ LenientHalf lo ∧
    ¬ (IsHalf hi ∧ IsHalf lo)

theorem isHexDigit_iff (c : Char) : IsHexDigit c ↔ (toDigit 16 c).isSome = true := by
  have hle : ∀ c d : Char, c ≤ d ↔ c.toNat ≤ d.toNat := fun c d => Iff.rfl
  simp only [IsHexDigit, toDigit, digitVal, hle, show '0'.toNat = 48 from rfl,
    show '9'.toNat = 57 from rfl, show 'a'.toNat = 97 from rfl, show 'f'.toNat = 102 from rfl,
    show 'z'.toNat = 122 from rfl, show 'A'.toNat = 65 from rfl, show 'F'.toNat = 70 from rfl,
    show 'Z'.toNat = 90 from rfl]
  split
  · simp [Option.filter]
    omega
  · split
    · simp [Option.filter]
      omega
    · split
      · simp [Option.filter]
        omega
      · simp
        omega

theorem IsHexDigit.ne {c : Char} (h : IsHexDigit c) : c ≠ '/' ∧ c ≠ '+' := by
  constructor
  · rintro rfl
    exact absurd ((isHexDigit_iff '/').1 h) (by decide)
  · rintro rfl
    exact absurd ((isHexDigit_iff '+').1 h) (by decide)

theorem hexValue_foldl (n : Nat) (cs : List Char) :
    cs.foldl (fun n c => n * 16 + (toDigit 16 c).getD 0) n = n * 16 ^ cs.length + hexValue cs := by
  induction cs generalizing n with
  | nil => simp [hexValue]
  | cons c cs ih =>
    rw [hexValue, List.foldl_cons, List.foldl_cons, ih, ih, List.length_cons, Nat.pow_succ]
    ring

theorem hexValue_append (cs ds : List Char) :
    hexValue (cs ++ ds) = hexValue cs * 16 ^ ds.length + hexValue ds := by
  rw [hexValue, List.foldl_append, hexValue_foldl]
  rfl

theorem hexValue_cons (c : Char) (cs : List Char) :
    hexValue (c :: cs) = (toDigit 16 c).getD 0 * 16 ^ cs.length + hexValue cs := by
  rw [hexValue, List.foldl_cons, hexValue_foldl]
  simp

theorem toDigit_lt {c : Char} : (toDigit 16 c).getD 0 < 16 := by
  cases h : toDigit 16 c with
  | none => decide
  | some d =>
    have hlt := (Option.filter_eq_some_iff.1 h).2
    simpa using hlt

theorem hexValue_lt (cs : List Char) : hexValue cs < 16 ^ cs.length := by
  induction cs with
  | nil => decide
  | cons c cs ih =>
    have hd := toDigit_lt (c := c)
    rw [hexValue_cons, List.length_cons, Nat.pow_succ]
    calc (toDigit 16 c).getD 0 * 16 ^ cs.length + hexValue cs
        < (toDigit 16 c).getD 0 * 16 ^ cs.length + 16 ^ cs.length := by omega
      _ = ((toDigit 16 c).getD 0 + 1) * 16 ^ cs.length := by ring
      _ ≤ 16 * 16 ^ cs.length := Nat.mul_le_mul_right _ hd
      _ = 16 ^ cs.length * 16 := Nat.mul_comm _ _

theorem hexValue_zeros (n : Nat) : hexValue (List.replicate n '0') = 0 := by
  induction n with
  | zero => rfl
  | succ n ih =>
    rw [List.replicate_succ, hexValue_cons, ih, show (toDigit 16 '0').getD 0 = 0 from rfl,
      Nat.zero_mul]

theorem eq_zero_of_toDigit {c : Char} (h : toDigit 16 c = some 0) : c = '0' := by
  have hle : ∀ c d : Char, c ≤ d ↔ c.toNat ≤ d.toNat := fun c d => Iff.rfl
  have hval : digitVal c = some 0 := (Option.filter_eq_some_iff.1 h).1
  unfold digitVal at hval
  split at hval
  · next hrange =>
    rw [hle, hle] at hrange
    have hsub := Option.some.inj hval
    have hnat : c.toNat = '0'.toNat := by
      have hge : '0'.toNat ≤ c.toNat := hrange.1
      omega
    rw [← Char.ofNat_toNat c, hnat, Char.ofNat_toNat]
  · split at hval
    · exact absurd (Option.some.inj hval) (Nat.succ_ne_zero _)
    · split at hval
      · exact absurd (Option.some.inj hval) (Nat.succ_ne_zero _)
      · cases hval

/-- Only zeros spell zero. -/
theorem eq_zeros {cs : List Char} (hdigits : ∀ c ∈ cs, IsHexDigit c) (h : hexValue cs = 0) :
    cs = List.replicate cs.length '0' := by
  induction cs with
  | nil => rfl
  | cons c cs ih =>
    obtain ⟨hc, hcs⟩ := List.forall_mem_cons.1 hdigits
    rw [hexValue_cons, Nat.add_eq_zero_iff, Nat.mul_eq_zero] at h
    have hzero : c = '0' := by
      obtain ⟨d, hd⟩ := Option.isSome_iff_exists.1 ((isHexDigit_iff c).1 hc)
      rcases h.1 with h | h
      · rw [hd, Option.getD_some] at h
        exact eq_zero_of_toDigit (h ▸ hd)
      · exact absurd h (Nat.ne_of_gt (Nat.pow_pos (by decide)))
    rw [hzero, List.length_cons, List.replicate_succ, ← ih hcs h.2]

theorem readDigits_eq_some_iff {acc n : Nat} {cs : List Char} :
    readDigits 16 acc cs = some n ↔
      (∀ c ∈ cs, IsHexDigit c) ∧ n = cs.foldl (fun n c => n * 16 + (toDigit 16 c).getD 0) acc := by
  induction cs generalizing acc with
  | nil => simp [readDigits, eq_comm]
  | cons c cs ih =>
    rw [readDigits, List.forall_mem_cons, List.foldl_cons, isHexDigit_iff]
    cases toDigit 16 c with
    | none => simp
    | some d => simp [ih]

/-! ## What is read -/

theorem isHexDigit_zero : IsHexDigit '0' :=
  (isHexDigit_iff '0').2 (by decide)

/-- The digits that stand for a number below `2 ^ 32` are zeros and at most eight others. -/
theorem exists_zeros {cs : List Char} (hne : cs ≠ []) (hdigits : ∀ c ∈ cs, IsHexDigit c)
    (hlt : hexValue cs < 2 ^ 32) :
    ∃ zeros ds, cs = List.replicate zeros '0' ++ ds ∧ IsHalf ds := by
  by_cases hlen : cs.length ≤ 8
  · exact ⟨0, cs, rfl, List.length_pos_of_ne_nil hne, hlen, hdigits⟩
  · have hsplit := List.take_append_drop (cs.length - 8) cs
    have hdrop : (cs.drop (cs.length - 8)).length = 8 := by
      rw [List.length_drop]
      omega
    have hzero : hexValue (cs.take (cs.length - 8)) = 0 := by
      rw [← hsplit, hexValue_append, hdrop] at hlt
      by_contra hne
      have hpos : 1 * 16 ^ 8 ≤ hexValue (cs.take (cs.length - 8)) * 16 ^ 8 :=
        Nat.mul_le_mul_right _ (Nat.pos_of_ne_zero hne)
      omega
    refine ⟨(cs.take (cs.length - 8)).length, cs.drop (cs.length - 8), ?_, by omega, by omega,
      fun c hc => hdigits c (List.mem_of_mem_drop hc)⟩
    rw [← eq_zeros (fun c hc => hdigits c (List.mem_of_mem_take hc)) hzero, hsplit]

theorem fromStrRadix_eq_some_iff {cs : List Char} {n : Nat} :
    fromStrRadix (2 ^ 64) 16 cs = some n ↔
      dropPlus cs ≠ [] ∧ (∀ c ∈ dropPlus cs, IsHexDigit c) ∧ n = hexValue (dropPlus cs) ∧
        n < 2 ^ 64 := by
  unfold fromStrRadix
  split
  · next hnil => simp [hnil]
  · next hne =>
    rw [Option.filter_eq_some_iff, readDigits_eq_some_iff, decide_eq_true_iff, and_assoc]
    exact ⟨fun h => ⟨hne, h⟩, fun h => h.2⟩

theorem dropPlus_append {cs : List Char} (h : '+' ∉ cs) (plus : List Char)
    (hplus : plus = [] ∨ plus = ['+']) : dropPlus (plus ++ cs) = cs := by
  rcases hplus with rfl | rfl
  · rw [List.nil_append]
    unfold dropPlus
    split
    · exact absurd List.mem_cons_self h
    · rfl
  · rfl

theorem exists_plus (cs : List Char) :
    ∃ plus, cs = plus ++ dropPlus cs ∧ (plus = [] ∨ plus = ['+']) := by
  unfold dropPlus
  split
  · exact ⟨['+'], rfl, .inr rfl⟩
  · exact ⟨[], rfl, .inl rfl⟩

theorem IsHalf.lenient {cs : List Char} (h : IsHalf cs) : LenientHalf cs :=
  ⟨[], 0, cs, rfl, .inl rfl, h⟩

/-- A lenient half is read as the number that its digits spell. -/
theorem LenientHalf.read {cs : List Char} (h : LenientHalf cs) :
    fromStrRadix (2 ^ 64) 16 cs = some (hexValue (dropPlus cs)) ∧
      hexValue (dropPlus cs) < 2 ^ 32 ∧ '/' ∉ cs := by
  obtain ⟨plus, zeros, ds, rfl, hplus, hlen, hlen8, hds⟩ := h
  have hdigits : ∀ c ∈ List.replicate zeros '0' ++ ds, IsHexDigit c := by
    intro c hc
    rcases List.mem_append.1 hc with hc | hc
    · rw [List.eq_of_mem_replicate hc]
      exact isHexDigit_zero
    · exact hds c hc
  have hno : '+' ∉ List.replicate zeros '0' ++ ds := fun hmem => (hdigits _ hmem).ne.2 rfl
  have hvalue : hexValue (List.replicate zeros '0' ++ ds) < 2 ^ 32 := by
    rw [hexValue_append, hexValue_zeros, Nat.zero_mul, Nat.zero_add]
    calc hexValue ds < 16 ^ ds.length := hexValue_lt ds
      _ ≤ 16 ^ 8 := Nat.pow_le_pow_right (by decide) hlen8
      _ = 2 ^ 32 := by decide
  have hne : List.replicate zeros '0' ++ ds ≠ [] := by
    intro hnil
    rw [(List.append_eq_nil_iff.1 hnil).2] at hlen
    exact absurd hlen (by decide)
  refine ⟨?_, ?_, ?_⟩
  · rw [fromStrRadix_eq_some_iff, dropPlus_append hno plus hplus]
    exact ⟨hne, hdigits, rfl, hvalue.trans (by decide)⟩
  · rwa [dropPlus_append hno plus hplus]
  · rw [List.mem_append, not_or]
    refine ⟨?_, fun hmem => (hdigits _ hmem).ne.1 rfl⟩
    rcases hplus with rfl | rfl
    · exact List.not_mem_nil
    · decide

theorem LenientHalf.of_read {cs : List Char} {n : Nat} (h : fromStrRadix (2 ^ 64) 16 cs = some n)
    (hn : n < 2 ^ 32) : LenientHalf cs := by
  obtain ⟨hne, hdigits, rfl, -⟩ := fromStrRadix_eq_some_iff.1 h
  obtain ⟨zeros, ds, hzeros, hds⟩ := exists_zeros hne hdigits hn
  obtain ⟨plus, hplus, hcases⟩ := exists_plus cs
  exact ⟨plus, zeros, ds, by rw [← hzeros, ← hplus], hcases, hds⟩

theorem IsHalf.dropPlus_eq {cs : List Char} (h : IsHalf cs) : dropPlus cs = cs :=
  dropPlus_append (fun hmem => (h.2.2 _ hmem).ne.2 rfl) [] (.inl rfl)

/-- What is read are two lenient halves. -/
theorem fromPgStr_eq_ok_iff {s : String} {l : Lsn} : fromPgStr s = .ok l ↔
    ∃ hi lo, s.toList = hi ++ '/' :: lo ∧ LenientHalf hi ∧ LenientHalf lo ∧
      l.val = hexValue (dropPlus hi) * 2 ^ 32 + hexValue (dropPlus lo) := by
  rw [fromPgStr_eq_ok]
  constructor
  · rintro ⟨hi, lo, hhalves, hhi, hlo, hl⟩
    obtain ⟨⟨his, los⟩, hsplit, hrest⟩ := Option.bind_eq_some_iff.1 hhalves
    obtain ⟨hi', hreadhi, hrest⟩ := Option.bind_eq_some_iff.1 hrest
    obtain ⟨lo', hreadlo, heq⟩ := Option.map_eq_some_iff.1 hrest
    obtain ⟨rfl, rfl⟩ := Prod.mk.inj heq
    have hlenhi := LenientHalf.of_read hreadhi hhi
    have hlenlo := LenientHalf.of_read hreadlo hlo
    refine ⟨his, los, (splitOnce_eq_some hsplit).2, hlenhi, hlenlo, ?_⟩
    rw [hl, (fromStrRadix_eq_some_iff.1 hreadhi).2.2.1, (fromStrRadix_eq_some_iff.1 hreadlo).2.2.1]
  · rintro ⟨hi, lo, hs, hhi, hlo, hl⟩
    obtain ⟨hreadhi, hlthi, hslash⟩ := hhi.read
    obtain ⟨hreadlo, hltlo, -⟩ := hlo.read
    refine ⟨_, _, ?_, hlthi, hltlo, hl⟩
    rw [halves, hs, splitOnce_append hslash, Option.bind_some]
    dsimp only
    rw [hreadhi, Option.bind_some, hreadlo]
    rfl

/-- A text is read exactly if it is written so, but for those that are only read leniently. -/
theorem from_pg_str_iff (s : String) :
    (∀ l, fromPgStr s = .ok l ↔ Written s l) ↔ ¬ Lenient s := by
  constructor
  · rintro hall ⟨hi, lo, hs, hhi, hlo, hstrict⟩
    have hlt : hexValue (dropPlus hi) * 2 ^ 32 + hexValue (dropPlus lo) < 2 ^ 64 := by
      have hlthi := hhi.read.2.1
      have hltlo := hlo.read.2.1
      omega
    have hok : fromPgStr s = .ok ⟨_, hlt⟩ := fromPgStr_eq_ok_iff.2 ⟨hi, lo, hs, hhi, hlo, rfl⟩
    obtain ⟨hi', lo', hs', hhi', hlo', -⟩ := (hall _).1 hok
    rw [hs] at hs'
    obtain ⟨rfl, rfl⟩ := append_sep_inj hhi.read.2.2 hhi'.lenient.read.2.2 hs'
    exact hstrict ⟨hhi', hlo'⟩
  · intro hstrict l
    rw [fromPgStr_eq_ok_iff]
    constructor
    · rintro ⟨hi, lo, hs, hhi, hlo, hl⟩
      have hboth : IsHalf hi ∧ IsHalf lo := by
        by_contra hnot
        exact hstrict ⟨hi, lo, hs, hhi, hlo, hnot⟩
      rw [hboth.1.dropPlus_eq, hboth.2.dropPlus_eq] at hl
      exact ⟨hi, lo, hs, hboth.1, hboth.2, hl⟩
    · rintro ⟨hi, lo, hs, hhi, hlo, hl⟩
      refine ⟨hi, lo, hs, hhi.lenient, hlo.lenient, ?_⟩
      rw [hhi.dropPlus_eq, hlo.dropPlus_eq, hl]

/-- A plus sign is read, and is not written. -/
theorem plus_from_pg_str : ¬ ∀ l, fromPgStr "+1/2" = .ok l ↔ Written "+1/2" l := by
  intro hall
  have hok : fromPgStr "+1/2" = .ok 4294967298 := by decide +kernel
  obtain ⟨hi, lo, hs, hhi, -, -⟩ := (hall _).1 hok
  cases hi with
  | nil => exact absurd hhi.1 (by decide)
  | cons c cs =>
    have hc : '+' = c := (List.cons.inj hs).1
    exact (hhi.2.2 c List.mem_cons_self).ne.2 hc.symm

end Pglite.Lsn
