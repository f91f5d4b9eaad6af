import Mathlib.Data.List.Count
import Pglite.SqlLexer

/-!
# The `format` function of the server

`format` of a text with literals in it: `%%` is a percent sign, and `%[n$][-][width]L` is an
argument as a literal, padded with blanks to the width. It is the `n`-th argument, or without `n$`
the one behind the last one. Anything else behind a percent sign is an error, and so is a number
that is no `int`. The other conversions of the server, `%s` and `%I`, and a `*` for the width are
left out: they are errors here.

* `format`: a scan of the text, character by character.
* `format_text`: a text without percent signs is copied.
* `format_width`: digits alone between `%` and `L` are a width, so the next argument is taken.
* `count_format_le`, `weight_format_le`: what can be in the result, by counting characters.
-/

namespace PgFormat

open SqlLexer Text

/-- A value as a literal, with its quotes and backslashes doubled. -/
def quoteLiteral : Option String → List Char
  | none => "NULL".toList
  | some s => (if backslash ∈ s.toList then ['E'] else []) ++
      singleQuote :: ((double singleQuote (double backslash s)).toList ++ [singleQuote])

/-- A literal with blanks up to the width. -/
def pad (minus : Bool) (width : Nat) (lit : List Char) : List Char :=
  let blanks := List.replicate (width - lit.length) ' '
  if minus then lit ++ blanks else blanks ++ lit

theorem pad_false (width : Nat) (lit : List Char) :
    pad false width lit = List.replicate (width - lit.length) ' ' ++ lit := rfl

/-- The value of one more digit behind a number. -/
def addDigit (n : Nat) (d : Char) : Nat := 10 * n + (d.toNat - '0'.toNat)

/-- The number that digits spell. -/
def number (ds : List Char) : Nat := ds.foldl addDigit 0

/-- The largest `int`. -/
def maxNumber : Nat := 2147483647

/-! ## The scan -/

/-- Where the scan is: in text, behind a percent sign, in a number behind it that is a position or
a width, or in the rest of a specifier. -/
inductive Scan
  | text
  | percent
  | digits (n : Nat)
  | spec (position : Option Nat) (minus : Bool) (width : Option Nat)
deriving DecidableEq

/-- What a character does. -/
inductive Move
  | print
  | goes (s : Scan)
  | takes (position : Option Nat) (minus : Bool) (width : Nat)
  | refused
deriving DecidableEq

def Scan.move (c : Char) : Scan → Move
  | .text => if c = '%' then .goes .percent else .print
  | .percent =>
    if c = '%' then .print
    else if c.isDigit then .goes (.digits (addDigit 0 c))
    else if c = '-' then .goes (.spec none true none)
    else if c = 'L' then .takes none false 0
    else .refused
  | .digits n =>
    if c.isDigit then
      if addDigit n c ≤ maxNumber then .goes (.digits (addDigit n c)) else .refused
    else if c = '$' ∧ n ≠ 0 then .goes (.spec (some n) false none)
    else if c = 'L' then .takes none false n
    else .refused
  | .spec position minus width =>
    if c.isDigit then
      if addDigit (width.getD 0) c ≤ maxNumber then
        .goes (.spec position minus (some (addDigit (width.getD 0) c)))
      else .refused
    else if c = '-' ∧ minus = false ∧ width = none then .goes (.spec position true none)
    else if c = 'L' then .takes position minus (width.getD 0)
    else .refused

/-- `format` of the rest of a text, with the literals of the arguments and the number of the one
that was taken last. -/
def format (lits : List (List Char)) : Scan → Nat → List Char → Option (List Char)
  | s, _, [] => if s = .text then some [] else none
  | s, last, c :: cs =>
    match s.move c with
    | .print => (format lits .text last cs).map (c :: ·)
    | .goes s' => format lits s' last cs
    | .takes position minus width =>
      let n := position.getD (last + 1)
      (lits[n - 1]?).bind fun lit => (format lits .text n cs).map (pad minus width lit ++ ·)
    | .refused => none

variable {lits : List (List Char)} {last : Nat} {cs out : List Char} {s : Scan}

@[simp] theorem format_nil : format lits .text last [] = some [] := rfl

theorem format_cons_text {c : Char} (h : c ≠ '%') :
    format lits .text last (c :: cs) = (format lits .text last cs).map (c :: ·) := by
  simp [format, Scan.move, h]

/-- A text without percent signs is copied. -/
theorem format_text (h : '%' ∉ cs) (rest : List Char) :
    format lits .text last (cs ++ rest) = (format lits .text last rest).map (cs ++ ·) := by
  induction cs with
  | nil => simp
  | cons c cs ih =>
    rw [List.mem_cons, not_or] at h
    rw [List.cons_append, format_cons_text (Ne.symm h.1), ih h.2, Option.map_map]
    rfl

theorem le_foldl_addDigit (ds : List Char) (n : Nat) : n ≤ ds.foldl addDigit n := by
  induction ds generalizing n with
  | nil => exact le_rfl
  | cons d ds ih =>
    have hstep : n ≤ addDigit n d := by
      unfold addDigit
      omega
    exact hstep.trans (ih _)

/-- The digits of a number. -/
theorem format_digits {ds : List Char} (hds : ∀ d ∈ ds, d.isDigit = true) {n : Nat}
    (hn : ds.foldl addDigit n ≤ maxNumber) (rest : List Char) :
    format lits (.digits n) last (ds ++ rest) =
      format lits (.digits (ds.foldl addDigit n)) last rest := by
  induction ds generalizing n with
  | nil => rfl
  | cons d ds ih =>
    rw [List.forall_mem_cons] at hds
    rw [List.foldl_cons] at hn ⊢
    have hmax : addDigit n d ≤ maxNumber := (le_foldl_addDigit ds _).trans hn
    have hstep : format lits (.digits n) last (d :: (ds ++ rest)) =
        format lits (.digits (addDigit n d)) last (ds ++ rest) := by
      simp [format, Scan.move, hds.1, hmax]
    rw [List.cons_append, hstep, ih hds.2 hn]

/-- **Digits alone are a width.** The argument behind the last one is taken. -/
theorem format_width {ds : List Char} (hne : ds ≠ []) (hds : ∀ d ∈ ds, d.isDigit = true)
    (hn : number ds ≤ maxNumber) (rest : List Char) :
    format lits .text last ('%' :: (ds ++ 'L' :: rest)) =
      (lits[last]?).bind fun lit =>
        (format lits .text (last + 1) rest).map (pad false (number ds) lit ++ ·) := by
  obtain ⟨d, ds, rfl⟩ := List.exists_cons_of_ne_nil hne
  rw [List.forall_mem_cons] at hds
  have hpercent : d ≠ '%' := by
    rintro rfl
    exact absurd hds.1 (by decide)
  have hstart : format lits .text last ('%' :: (d :: ds ++ 'L' :: rest)) =
      format lits (.digits (addDigit 0 d)) last (ds ++ 'L' :: rest) := by
    simp [format, Scan.move, hpercent, hds.1]
  rw [hstart, format_digits hds.2 hn]
  simp [format, Scan.move, number]

/-! ## Counting -/

theorem count_pad {a : Char} (ha : a ≠ ' ') (minus : Bool) (width : Nat) (lit : List Char) :
    (pad minus width lit).count a = lit.count a := by
  have hblanks : (List.replicate (width - lit.length) ' ').count a = 0 :=
    List.count_eq_zero.2 fun hmem => ha (List.eq_of_mem_replicate hmem)
  unfold pad
  cases minus <;> simp [hblanks]

/-- A character that is in no literal comes from the text. -/
theorem count_format_le {a : Char} (ha : a ≠ ' ') (hlits : ∀ lit ∈ lits, lit.count a = 0)
    (h : format lits s last cs = some out) : out.count a ≤ cs.count a := by
  induction cs generalizing s last out with
  | nil =>
    rw [format] at h
    split at h
    · obtain rfl := Option.some.inj h
      exact le_rfl
    · cases h
  | cons c cs ih =>
    have hmore : cs.count a ≤ (c :: cs).count a := List.count_le_count_cons
    rw [format] at h
    split at h
    · obtain ⟨out', hout, rfl⟩ := Option.map_eq_some_iff.1 h
      have hle := ih hout
      rw [List.count_cons, List.count_cons]
      omega
    · exact (ih h).trans hmore
    · obtain ⟨lit, hlit, h⟩ := Option.bind_eq_some_iff.1 h
      obtain ⟨out', hout, rfl⟩ := Option.map_eq_some_iff.1 h
      rw [List.count_append, count_pad ha, hlits lit (List.mem_of_getElem? hlit), Nat.zero_add]
      exact (ih hout).trans hmore
    · cases h

theorem move_print {c : Char} (h : s.move c = .print) :
    (s = .text ∧ c ≠ '%') ∨ (s = .percent ∧ c = '%') := by
  cases s with
  | text => exact .inl ⟨rfl, fun hc => by simp [Scan.move, hc] at h⟩
  | percent =>
    refine .inr ⟨rfl, ?_⟩
    by_contra hc
    rw [Scan.move, if_neg hc] at h
    split_ifs at h
  | digits | spec =>
    rw [Scan.move] at h
    split_ifs at h

theorem move_goes {s' : Scan} {c : Char} (h : s.move c = .goes s') :
    s' ≠ .text ∧ (s = .text → c = '%') := by
  cases s with
  | text =>
    rw [Scan.move] at h
    split_ifs at h with hc
    obtain rfl := Move.goes.inj h
    exact ⟨by decide, fun _ => hc⟩
  | percent | digits | spec =>
    rw [Scan.move] at h
    split_ifs at h
    all_goals
      obtain rfl := Move.goes.inj h
      exact ⟨by simp, by simp⟩

theorem move_takes {position : Option Nat} {minus : Bool} {width : Nat} {c : Char}
    (h : s.move c = .takes position minus width) : s ≠ .text := by
  rintro rfl
  rw [Scan.move] at h
  split_ifs at h

/-- A percent sign in the result costs two of the text, and a literal costs one. With a character
that is once in each literal, the percent signs of the text pay for both. -/
theorem weight_format_le {a : Char} (ha : a ≠ ' ')
    (hlits : ∀ lit ∈ lits, lit.count a ≤ 1 ∧ lit.count '%' = 0)
    (h : format lits s last cs = some out) :
    out.count a + 2 * out.count '%' ≤
      cs.count a + cs.count '%' + if s = .text then 0 else 1 := by
  induction cs generalizing s last out with
  | nil =>
    rw [format] at h
    split at h
    · obtain rfl := Option.some.inj h
      simp
    · cases h
  | cons c cs ih =>
    rw [format] at h
    rw [List.count_cons, List.count_cons]
    split at h
    · next hmove =>
      obtain ⟨out', hout, rfl⟩ := Option.map_eq_some_iff.1 h
      have hle := ih hout
      rw [if_pos rfl] at hle
      rw [List.count_cons, List.count_cons]
      rcases move_print hmove with ⟨rfl, hc⟩ | ⟨rfl, rfl⟩
      · simp only [beq_iff_eq, hc, if_false]
        omega
      · simp only [beq_self_eq_true, if_true, if_neg (by decide : Scan.percent ≠ .text)]
        omega
    · next hmove =>
      have hle := ih h
      obtain ⟨htext, hpercent⟩ := move_goes hmove
      rw [if_neg htext] at hle
      by_cases hs : s = .text
      · obtain rfl := hpercent hs
        rw [if_pos hs, if_pos (beq_self_eq_true _)]
        omega
      · rw [if_neg hs]
        omega
    · next hmove =>
      obtain ⟨lit, hlit, h⟩ := Option.bind_eq_some_iff.1 h
      obtain ⟨out', hout, rfl⟩ := Option.map_eq_some_iff.1 h
      have hle := ih hout
      have hone := hlits lit (List.mem_of_getElem? hlit)
      rw [if_pos rfl] at hle
      rw [if_neg (move_takes hmove), List.count_append, List.count_append, count_pad ha,
        count_pad (by decide)]
      omega
    · cases h

end PgFormat
