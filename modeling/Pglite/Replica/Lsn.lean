import Mathlib.Order.Fin.Basic
import Pglite.Message
import Pglite.Text

/-!
# Log positions

`Lsn` of `src/replica/meta.rs`: a 64-bit position in the upstream's log. The replica keeps its
watermark as text in `_pglite_replica`, so a restart sees what `fromPgStr` makes of what `toPgStr`
wrote.
-/

namespace Pglite

open Text

/-- `Lsn`, a `u64`. -/
abbrev Lsn := Fin (2 ^ 64)

instance Lsn.neZero : NeZero (2 ^ 64) := ⟨by decide⟩

namespace Lsn

/-- `{:X}`. -/
def upperHex (n : Nat) : List Char :=
  (Nat.toDigits 16 n).map Char.toUpper

/-- `Lsn::to_pg_str`: the two halves. -/
def toPgStr (l : Lsn) : String :=
  String.ofList (upperHex (l.val / 2 ^ 32) ++ '/' :: upperHex (l.val % 2 ^ 32))

/-- `Lsn::from_pg_str`. -/
def fromPgStr (s : String) : Except Error Lsn :=
  match splitOnce '/' s.toList with
  | none => .error (.lsn s)
  | some (hi, lo) =>
    match fromStrRadix (2 ^ 64) 16 hi, fromStrRadix (2 ^ 64) 16 lo with
    | some hi, some lo =>
      if h : hi < 2 ^ 32 ∧ lo < 2 ^ 32 then .ok ⟨hi * 2 ^ 32 + lo, by omega⟩
      else .error (.lsn s)
    | _, _ => .error (.lsn s)

theorem isDigit_toUpper (d : Nat) : IsDigit d d.digitChar.toUpper :=
  Or.inr rfl

theorem slash_not_mem_upperHex (n : Nat) : '/' ∉ upperHex n := by
  intro h
  have hread := readDigits_toDigits (by decide) le_rfl Char.toUpper
    (fun d _ => isDigit_toUpper d) n
  exact absurd (isSome_toDigit_of_mem hread h) (by decide)

/-- The text of a position is read back as that position. -/
theorem fromPgStr_toPgStr (l : Lsn) : fromPgStr l.toPgStr = .ok l := by
  have hhi : l.val / 2 ^ 32 < 2 ^ 32 := by omega
  have hlo : l.val % 2 ^ 32 < 2 ^ 32 := by omega
  have hread : ∀ {n : Nat}, n < 2 ^ 32 → fromStrRadix (2 ^ 64) 16 (upperHex n) = some n :=
    fun hn => fromStrRadix_toDigits (by decide) le_rfl Char.toUpper
      (fun d _ => isDigit_toUpper d) (by omega)
  rw [fromPgStr, toPgStr, String.toList_ofList, splitOnce_append (slash_not_mem_upperHex _)]
  simp only [hread hhi, hread hlo]
  rw [dif_pos ⟨hhi, hlo⟩]
  congr 1
  exact Fin.ext (Nat.div_add_mod' l.val (2 ^ 32))

example : fromPgStr "16/b374d848" = fromPgStr "16/B374D848" := by decide

example : fromPgStr "16/B374D848/9" = .error (.lsn "16/B374D848/9") := by decide

end Lsn

end Pglite
