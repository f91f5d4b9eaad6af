import Mathlib.Data.Nat.Digits.Defs
import Mathlib.Data.List.Basic
import Mathlib.Data.List.MinMax

/-!
# Reading and writing text

The functions of Rust's `str` that textual records are written and read with, on strings seen as
lists of characters.

* `lines` splits at line ends. It gives back the lines that were joined, as long as these are
  `Unbroken` (`lines_intercalate`).
* `splitOnce` and `rsplitOnce` cut at the first and at the last separator.
* `fromStrRadix` reads a number, and inverts what `Nat.toDigits` writes
  (`fromStrRadix_toDigits`), in capitals or not.
* `double` doubles a quote character.

Pieces that were joined are found again when every piece, and nothing after a separator inside a
piece, begins with a tag (`intercalate_injective_of_tagged`).
-/

namespace Text

/-! ## Cutting -/

/-- `str::split_once`. -/
def splitOnce (sep : Char) : List Char → Option (List Char × List Char)
  | [] => none
  | c :: cs =>
    if c = sep then some ([], cs)
    else (splitOnce sep cs).map fun (before, rest) => (c :: before, rest)

/-- `str::rsplit_once`. -/
def rsplitOnce (sep : Char) : List Char → Option (List Char × List Char)
  | [] => none
  | c :: cs =>
    match rsplitOnce sep cs with
    | some (before, rest) => some (c :: before, rest)
    | none => if c = sep then some ([], cs) else none

theorem splitOnce_append {sep : Char} {before : List Char} (h : sep ∉ before)
    (rest : List Char) : splitOnce sep (before ++ sep :: rest) = some (before, rest) := by
  induction before with
  | nil => simp [splitOnce]
  | cons c cs ih =>
    obtain ⟨hc, hcs⟩ := List.ne_and_not_mem_of_not_mem_cons h
    rw [List.cons_append, splitOnce, if_neg (Ne.symm hc), ih hcs]
    rfl

theorem splitOnce_eq_none {sep : Char} {s : List Char} (h : sep ∉ s) : splitOnce sep s = none := by
  induction s with
  | nil => rfl
  | cons c cs ih =>
    obtain ⟨hc, hcs⟩ := List.ne_and_not_mem_of_not_mem_cons h
    rw [splitOnce, if_neg (Ne.symm hc), ih hcs]
    rfl

theorem rsplitOnce_eq_none {sep : Char} {s : List Char} (h : sep ∉ s) : rsplitOnce sep s = none := by
  induction s with
  | nil => rfl
  | cons c cs ih =>
    rw [List.mem_cons, not_or] at h
    rw [rsplitOnce, ih h.2, if_neg (Ne.symm h.1)]

theorem rsplitOnce_append {sep : Char} {rest : List Char} (h : sep ∉ rest) (before : List Char) :
    rsplitOnce sep (before ++ sep :: rest) = some (before, rest) := by
  induction before with
  | nil => rw [List.nil_append, rsplitOnce, rsplitOnce_eq_none h, if_pos rfl]
  | cons c cs ih => rw [List.cons_append, rsplitOnce, ih]

/-- What is before the first separator does not contain it. -/
theorem splitOnce_eq_some {sep : Char} {s before rest : List Char}
    (h : splitOnce sep s = some (before, rest)) :
    sep ∉ before ∧ s = before ++ sep :: rest := by
  induction s generalizing before with
  | nil => simp [splitOnce] at h
  | cons c cs ih =>
    by_cases hc : c = sep
    · rw [splitOnce, if_pos hc] at h
      obtain ⟨rfl, rfl⟩ : [] = before ∧ cs = rest := by simpa using h
      simp [hc]
    · rw [splitOnce, if_neg hc, Option.map_eq_some_iff] at h
      obtain ⟨⟨b, r⟩, hb, heq⟩ := h
      obtain ⟨rfl, rfl⟩ : c :: b = before ∧ r = rest := by simpa using heq
      obtain ⟨hmem, rfl⟩ := ih hb
      refine ⟨?_, rfl⟩
      rintro (_ | _)
      · exact hc rfl
      · contradiction

theorem rsplitOnce_eq_some {sep : Char} {s before rest : List Char}
    (h : rsplitOnce sep s = some (before, rest)) : s = before ++ sep :: rest := by
  induction s generalizing before with
  | nil => cases h
  | cons c cs ih =>
    rw [rsplitOnce] at h
    cases hcs : rsplitOnce sep cs with
    | some p =>
      rw [hcs] at h
      obtain ⟨rfl, hrest⟩ := Prod.mk.inj (Option.some.inj h)
      rw [List.cons_append, ← ih (hcs.trans (by rw [← hrest]))]
    | none =>
      rw [hcs] at h
      by_cases hc : c = sep
      · rw [if_pos hc] at h
        obtain ⟨rfl, rfl⟩ := Prod.mk.inj (Option.some.inj h)
        rw [List.nil_append, hc]
      · rw [if_neg hc] at h
        cases h

/-! ## Lines -/

/-- One `\r` taken off the end. -/
def stripCr (l : List Char) : List Char :=
  if l.getLast? = some '\r' then l.dropLast else l

/-- From the pieces between `\n` to the lines: a piece that a `\n` ended loses a `\r` before it,
and an empty last piece is no line. -/
def endLines : List (List Char) → List (List Char)
  | [] => []
  | [l] => if l = [] then [] else [l]
  | l :: l' :: ls => stripCr l :: endLines (l' :: ls)

/-- `str::lines`. -/
def lines (s : String) : List String :=
  (endLines (s.toList.splitOn '\n')).map String.ofList

/-- A line that survives being joined to others: it is not empty, holds no `\n` and does not end
in `\r`. -/
structure Unbroken (l : String) : Prop where
  ne_empty : l ≠ ""
  no_newline : '\n' ∉ l.toList
  no_cr : l.toList.getLast? ≠ some '\r'

instance Unbroken.decidable (l : String) : Decidable (Unbroken l) :=
  decidable_of_iff (l ≠ "" ∧ '\n' ∉ l.toList ∧ l.toList.getLast? ≠ some '\r')
    ⟨fun ⟨h, h', h''⟩ => ⟨h, h', h''⟩, fun ⟨h, h', h''⟩ => ⟨h, h', h''⟩⟩

theorem endLines_unbroken {ls : List (List Char)}
    (h : ∀ l ∈ ls, l ≠ [] ∧ l.getLast? ≠ some '\r') : endLines ls = ls := by
  induction ls with
  | nil => rfl
  | cons l ls ih =>
    obtain ⟨hne, hcr⟩ := h l List.mem_cons_self
    cases ls with
    | nil => rw [endLines, if_neg hne]
    | cons l' ls =>
      rw [endLines, stripCr, if_neg hcr, ih fun x hx => h x (List.mem_cons_of_mem _ hx)]

/-- Unbroken lines joined by `\n` are read back as they were. -/
theorem lines_intercalate {ls : List String} (h : ∀ l ∈ ls, Unbroken l) :
    lines ("\n".intercalate ls) = ls := by
  by_cases hnil : ls = []
  · subst hnil
    decide
  have hsplit : (['\n'].intercalate (ls.map String.toList)).splitOn '\n' =
      ls.map String.toList := by
    refine List.splitOn_intercalate '\n' ?_ (by simpa using hnil)
    intro l hl
    obtain ⟨s, hs, rfl⟩ := List.mem_map.1 hl
    exact (h s hs).no_newline
  have hend : endLines (ls.map String.toList) = ls.map String.toList := by
    refine endLines_unbroken fun l hl => ?_
    obtain ⟨s, hs, rfl⟩ := List.mem_map.1 hl
    have hu := h s hs
    exact ⟨by simpa using hu.ne_empty, hu.no_cr⟩
  rw [lines, String.toList_intercalate, show "\n".toList = ['\n'] from rfl, hsplit, hend]
  simp

/-- If every text is one of them without its `\r`, none ends in `\r`: the longest that does is one
without it. -/
theorem no_cr_of_mem_stripped {ls : List (List Char)} (h : ∀ l ∈ ls, l ∈ ls.map stripCr) :
    ∀ l ∈ ls, l.getLast? ≠ some '\r' := by
  intro l hl hcr
  cases hmax : (ls.filter fun l => decide (l.getLast? = some '\r')).argmax List.length with
  | none =>
    rw [List.argmax_eq_none, List.filter_eq_nil_iff] at hmax
    exact hmax l hl (by simpa using hcr)
  | some longest =>
    have hmem := List.argmax_mem hmax
    rw [List.mem_filter, decide_eq_true_iff] at hmem
    obtain ⟨hlongest, hends⟩ := hmem
    obtain ⟨l', hl', hstrip⟩ := List.mem_map.1 (h longest hlongest)
    by_cases hcr' : l'.getLast? = some '\r'
    · have hle : l'.length ≤ longest.length :=
        List.le_of_mem_argmax (List.mem_filter.2 ⟨hl', by simpa using hcr'⟩) hmax
      have hne : l' ≠ [] := by
        rintro rfl
        cases hcr'
      have hpos := List.length_pos_of_ne_nil hne
      rw [← hstrip, stripCr, if_pos hcr', List.length_dropLast] at hle
      omega
    · rw [stripCr, if_neg hcr'] at hstrip
      exact hcr' (hstrip ▸ hends)

theorem endLines_concat (ls : List (List Char)) {l : List Char} (hl : l ≠ []) :
    endLines (ls ++ [l]) = ls.map stripCr ++ [l] := by
  induction ls with
  | nil => rw [List.nil_append, endLines, if_neg hl, List.map_nil, List.nil_append]
  | cons x xs ih =>
    cases xs with
    | nil => rw [List.cons_append, List.nil_append, endLines, endLines, if_neg hl]; rfl
    | cons y ys =>
      rw [List.cons_append, List.cons_append, endLines, ← List.cons_append, ih]
      rfl

/-- Lines without `\n`, joined by `\n`, are read back as they were, but that all except the last
lose a `\r` at the end. -/
theorem lines_intercalate_concat {ls : List String} {l : String}
    (hno : ∀ x ∈ ls ++ [l], '\n' ∉ x.toList) (hl : l ≠ "") :
    lines ("\n".intercalate (ls ++ [l])) =
      (ls.map fun x => String.ofList (stripCr x.toList)) ++ [l] := by
  have hsplit : (['\n'].intercalate ((ls ++ [l]).map String.toList)).splitOn '\n' =
      ls.map String.toList ++ [l.toList] := by
    rw [List.splitOn_intercalate '\n' (List.forall_mem_map.2 hno) (by simp)]
    simp
  rw [lines, String.toList_intercalate, show "\n".toList = ['\n'] from rfl, hsplit,
    endLines_concat _ (by simpa using hl)]
  simp

theorem not_mem_of_mem_splitOn {α : Type} [DecidableEq α] {c : α} {s piece : List α}
    (h : piece ∈ s.splitOn c) : c ∉ piece := by
  induction s generalizing piece with
  | nil =>
    obtain rfl : piece = [] := by simpa using h
    exact List.not_mem_nil
  | cons x xs ih =>
    rw [List.splitOn_cons_eq_if_modifyHead] at h
    by_cases hx : x = c
    · rw [if_pos (by simpa using hx)] at h
      rcases List.mem_cons.1 h with rfl | h
      · exact List.not_mem_nil
      · exact ih h
    · rw [if_neg (by simpa using hx)] at h
      cases hs : xs.splitOn c with
      | nil => exact absurd hs (List.splitOn_ne_nil c xs)
      | cons p ps =>
        rw [hs, List.modifyHead_cons] at h
        rcases List.mem_cons.1 h with rfl | h
        · rintro (_ | _)
          · exact hx rfl
          · exact ih (hs ▸ List.mem_cons_self) ‹_›
        · exact ih (hs ▸ List.mem_cons_of_mem _ h)

/-- A text without the separator belongs to the first piece. -/
theorem splitOn_append_of_notMem {α : Type} [DecidableEq α] {c : α} {xs : List α} (h : c ∉ xs)
    (ys : List α) : (xs ++ ys).splitOn c = (ys.splitOn c).modifyHead (xs ++ ·) := by
  cases hs : ys.splitOn c with
  | nil => exact absurd hs (List.splitOn_ne_nil c ys)
  | cons p ps =>
    induction xs with
    | nil => exact hs
    | cons x xs ih =>
      obtain ⟨hx, hxs⟩ := List.ne_and_not_mem_of_not_mem_cons h
      rw [List.cons_append, List.splitOn_cons_eq_if_modifyHead, ih hxs,
        if_neg (by simpa using Ne.symm hx)]
      rfl

theorem prefix_of_splitOn {α : Type} [DecidableEq α] {c : α} {s p : List α} {ps : List (List α)}
    (h : s.splitOn c = p :: ps) : p <+: s := by
  have hjoin : [c].intercalate (s.splitOn c) = s := List.intercalate_splitOn _
  rw [h] at hjoin
  cases ps with
  | nil => exact ⟨[], by simpa using hjoin⟩
  | cons p' ps =>
    rw [List.intercalate_cons_cons, List.append_assoc] at hjoin
    exact ⟨_, hjoin⟩

/-- Every line comes from a piece between two `\n`. -/
theorem mem_endLines {ls : List (List Char)} {l : List Char} (h : l ∈ endLines ls) :
    ∃ piece ∈ ls, l = piece ∨ l = stripCr piece := by
  induction ls with
  | nil => cases h
  | cons p ps ih =>
    cases ps with
    | nil =>
      by_cases hp : p = []
      · rw [endLines, if_pos hp] at h
        cases h
      · rw [endLines, if_neg hp] at h
        exact ⟨p, List.mem_cons_self, Or.inl (List.mem_singleton.1 h)⟩
    | cons p' ps =>
      rw [endLines] at h
      rcases List.mem_cons.1 h with rfl | h
      · exact ⟨p, List.mem_cons_self, Or.inr rfl⟩
      · obtain ⟨piece, hmem, hl⟩ := ih h
        exact ⟨piece, List.mem_cons_of_mem _ hmem, hl⟩

theorem not_newline_of_mem_lines {s l : String} (h : l ∈ lines s) : '\n' ∉ l.toList := by
  obtain ⟨cs, hcs, rfl⟩ := List.mem_map.1 h
  obtain ⟨piece, hpiece, hl⟩ := mem_endLines hcs
  have hno : '\n' ∉ piece := not_mem_of_mem_splitOn hpiece
  rw [String.toList_ofList]
  rcases hl with rfl | rfl
  · exact hno
  · unfold stripCr
    split
    · exact fun hmem => hno (List.dropLast_subset piece hmem)
    · exact hno

/-! ## Numbers -/

/-- The value of a digit in a base up to 36. -/
def digitVal (c : Char) : Option Nat :=
  if '0' ≤ c ∧ c ≤ '9' then some (c.toNat - '0'.toNat)
  else if 'a' ≤ c ∧ c ≤ 'z' then some (c.toNat - 'a'.toNat + 10)
  else if 'A' ≤ c ∧ c ≤ 'Z' then some (c.toNat - 'A'.toNat + 10)
  else none

/-- `char::to_digit`. -/
def toDigit (radix : Nat) (c : Char) : Option Nat :=
  (digitVal c).filter (· < radix)

/-- The number that digits spell, after those that spell `acc`. -/
def readDigits (radix : Nat) : Nat → List Char → Option Nat
  | acc, [] => some acc
  | acc, c :: cs => (toDigit radix c).bind fun d => readDigits radix (acc * radix + d) cs

/-- The digits after a plus sign that may come first. -/
def dropPlus : List Char → List Char
  | '+' :: ds => ds
  | ds => ds

/-- `from_str_radix` of an unsigned type with values below `bound`: a `+` may come first, there is
a digit, and the number does not overflow. -/
def fromStrRadix (bound radix : Nat) (s : List Char) : Option Nat :=
  if dropPlus s = [] then none else (readDigits radix 0 (dropPlus s)).filter (· < bound)

/-- A digit in capitals or not. -/
def IsDigit (d : Nat) (c : Char) : Prop :=
  c = d.digitChar ∨ c = d.digitChar.toUpper

theorem digitVal_isDigit {d : Nat} {c : Char} (hd : d < 16) (h : IsDigit d c) :
    digitVal c = some d := by
  have hall : ∀ d < 16, digitVal d.digitChar = some d ∧ digitVal d.digitChar.toUpper = some d := by
    decide
  obtain rfl | rfl := h
  · exact (hall d hd).1
  · exact (hall d hd).2

theorem toDigit_isDigit {radix d : Nat} {c : Char} (hr : radix ≤ 16) (hd : d < radix)
    (h : IsDigit d c) : toDigit radix c = some d := by
  rw [toDigit, digitVal_isDigit (hd.trans_le hr) h]
  simpa [Option.filter] using hd

theorem readDigits_append (radix acc : Nat) (xs ys : List Char) :
    readDigits radix acc (xs ++ ys) =
      (readDigits radix acc xs).bind fun n => readDigits radix n ys := by
  induction xs generalizing acc with
  | nil => rfl
  | cons c cs ih =>
    simp only [List.cons_append, readDigits, Option.bind_assoc]
    congr 1
    funext d
    exact ih _

theorem isSome_toDigit_of_mem {radix acc n : Nat} {cs : List Char} {c : Char}
    (h : readDigits radix acc cs = some n) (hc : c ∈ cs) : (toDigit radix c).isSome := by
  induction cs generalizing acc with
  | nil => cases hc
  | cons x xs ih =>
    obtain ⟨d, hd, hn⟩ := Option.bind_eq_some_iff.1 h
    rcases List.mem_cons.1 hc with rfl | hc
    · rw [hd]
      rfl
    · exact ih hn hc

/-- Digits written in a base up to 16, each in capitals or not, spell the number. -/
theorem readDigits_toDigits {radix : Nat} (h1 : 1 < radix) (hr : radix ≤ 16) (f : Char → Char)
    (hf : ∀ d < radix, IsDigit d (f d.digitChar)) (n : Nat) :
    readDigits radix 0 ((Nat.toDigits radix n).map f) = some n := by
  induction n using Nat.strong_induction_on with
  | _ n ih =>
    by_cases hn : n < radix
    · rw [Nat.toDigits_of_lt_base hn, List.map_singleton, readDigits,
        toDigit_isDigit hr hn (hf n hn)]
      simp [readDigits]
    · have hle : radix ≤ n := Nat.le_of_not_lt hn
      have hmod : n % radix < radix := Nat.mod_lt n (by omega)
      rw [Nat.toDigits_of_base_le h1 hle, List.map_append, readDigits_append,
        ih (n / radix) (Nat.div_lt_self (by omega) h1), Option.bind_some, List.map_singleton,
        readDigits, toDigit_isDigit hr hmod (hf _ hmod), Option.bind_some, readDigits,
        Nat.div_add_mod']

/-- What spells a number starts with a digit. -/
theorem dropPlus_eq_self {radix acc n : Nat} {s : List Char}
    (h : readDigits radix acc s = some n) : dropPlus s = s := by
  unfold dropPlus
  split
  · exact absurd (isSome_toDigit_of_mem h List.mem_cons_self) (by simp [toDigit, digitVal])
  · rfl

/-- Reading inverts writing. -/
theorem fromStrRadix_toDigits {bound radix : Nat} (h1 : 1 < radix) (hr : radix ≤ 16)
    (f : Char → Char) (hf : ∀ d < radix, IsDigit d (f d.digitChar)) {n : Nat} (hn : n < bound) :
    fromStrRadix bound radix ((Nat.toDigits radix n).map f) = some n := by
  have hread := readDigits_toDigits h1 hr f hf n
  rw [fromStrRadix, dropPlus_eq_self hread, if_neg (by simp [Nat.toDigits_ne_nil]), hread]
  simpa [Option.filter] using hn

/-! ## Joined pieces -/

/-- A text is cut at its first separator in one way. -/
theorem append_sep_inj {c : Char} {a a' r r' : List Char} (ha : c ∉ a) (ha' : c ∉ a')
    (h : a ++ c :: r = a' ++ c :: r') : a = a' ∧ r = r' := by
  have hcut := splitOnce_append ha r
  rw [h, splitOnce_append ha' r'] at hcut
  obtain ⟨rfl, rfl⟩ := Prod.mk.inj (Option.some.inj hcut)
  exact ⟨rfl, rfl⟩

/-- The text begins with one of the tags. -/
def StartsWith (tags : List (List Char)) (text : List Char) : Prop :=
  ∃ tag ∈ tags, tag <+: text

/-- A piece that begins with a tag, and where no separator stands right before a tag. -/
structure Tagged (tags : List (List Char)) (c : Char) (piece : List Char) : Prop where
  starts : StartsWith tags piece
  inside : ∀ u v, piece = u ++ c :: v → ¬ StartsWith tags v

section Tagged

variable {tags : List (List Char)} {c : Char}

theorem StartsWith.append {v : List Char} (h : StartsWith tags v) (w : List Char) :
    StartsWith tags (v ++ w) := by
  obtain ⟨tag, htag, hprefix⟩ := h
  exact ⟨tag, htag, hprefix.trans (List.prefix_append v w)⟩

/-- A tag without the separator ends before it. -/
theorem StartsWith.of_append (htags : ∀ tag ∈ tags, c ∉ tag) {v w : List Char}
    (h : StartsWith tags (v ++ c :: w)) : StartsWith tags v := by
  obtain ⟨tag, htag, hprefix⟩ := h
  rcases List.prefix_or_prefix_of_prefix hprefix (List.prefix_append v (c :: w)) with hv | ⟨t, rfl⟩
  · exact ⟨tag, htag, hv⟩
  · rw [List.prefix_append_right_inj] at hprefix
    cases t with
    | nil => exact ⟨v, by simpa using htag, List.prefix_rfl⟩
    | cons d t =>
      obtain ⟨rfl, -⟩ := List.cons_prefix_cons.1 hprefix
      exact absurd (by simp) (htags _ htag)

/-- What follows a piece in the joined text. -/
def Follows (tags : List (List Char)) (c : Char) (rest : List Char) : Prop :=
  rest = [] ∨ ∃ text, rest = c :: text ∧ StartsWith tags text

theorem Tagged.eq_of_append (htags : ∀ tag ∈ tags, c ∉ tag) {x x' r r' : List Char}
    (hx' : Tagged tags c x') (hr : Follows tags c r) (hr' : Follows tags c r') {u : List Char}
    (hxu : x' = x ++ u) (hru : r = u ++ r') : u = [] := by
  rcases hr with rfl | ⟨text, rfl, htext⟩
  · exact (List.append_eq_nil_iff.1 hru.symm).1
  · cases u with
    | nil => rfl
    | cons d v =>
      obtain ⟨rfl, rfl⟩ := List.cons.inj hru
      refine absurd ?_ (hx'.inside x v hxu)
      rcases hr' with rfl | ⟨text', rfl, -⟩
      · simpa using htext
      · exact htext.of_append htags

theorem Tagged.append_inj (htags : ∀ tag ∈ tags, c ∉ tag) {x x' r r' : List Char}
    (hx : Tagged tags c x) (hx' : Tagged tags c x') (hr : Follows tags c r)
    (hr' : Follows tags c r') (h : x ++ r = x' ++ r') : x = x' ∧ r = r' := by
  rcases List.append_eq_append_iff.1 h with ⟨u, hxu, hru⟩ | ⟨u, hxu, hru⟩
  · obtain rfl := hx'.eq_of_append htags hr hr' hxu hru
    exact ⟨by simpa using hxu.symm, by simpa using hru⟩
  · obtain rfl := hx.eq_of_append htags hr' hr hxu hru
    exact ⟨by simpa using hxu, by simpa using hru.symm⟩

/-- What stands after the first piece. -/
def joinedRest (c : Char) (xs : List (List Char)) : List Char :=
  xs.flatMap fun x => c :: x

theorem joinedRest_cons (x : List Char) (xs : List (List Char)) :
    joinedRest c (x :: xs) = c :: (x ++ joinedRest c xs) := rfl

theorem joinedRest_append (xs ys : List (List Char)) :
    joinedRest c (xs ++ ys) = joinedRest c xs ++ joinedRest c ys :=
  List.flatMap_append

theorem intercalate_cons_eq (x : List Char) (xs : List (List Char)) :
    [c].intercalate (x :: xs) = x ++ joinedRest c xs := by
  induction xs generalizing x with
  | nil => simp [joinedRest]
  | cons y ys ih =>
    rw [List.intercalate_cons_cons, ih]
    simp [joinedRest]

/-- Cutting a joined text cuts its pieces. -/
theorem splitOn_joined (x : List Char) (xs : List (List Char)) :
    (x ++ joinedRest c xs).splitOn c = x.splitOn c ++ xs.flatMap fun y => y.splitOn c := by
  induction xs generalizing x with
  | nil => simp [joinedRest]
  | cons y ys ih =>
    rw [joinedRest, List.flatMap_cons, List.cons_append, List.splitOn_append_cons_self]
    rw [← joinedRest, ih, List.flatMap_cons]

theorem follows_joinedRest {xs : List (List Char)} (hxs : ∀ x ∈ xs, Tagged tags c x) :
    Follows tags c (joinedRest c xs) := by
  cases xs with
  | nil => exact .inl rfl
  | cons x xs => exact .inr ⟨_, rfl, (hxs x List.mem_cons_self).starts.append _⟩

/-- Tagged pieces are found again in the text they are joined to, whatever else is in them. -/
theorem intercalate_injective_of_tagged (htags : ∀ tag ∈ tags, c ∉ tag ∧ tag ≠ [])
    {xs ys : List (List Char)} (hxs : ∀ x ∈ xs, Tagged tags c x)
    (hys : ∀ y ∈ ys, Tagged tags c y) (h : [c].intercalate xs = [c].intercalate ys) : xs = ys := by
  have hsep : ∀ tag ∈ tags, c ∉ tag := fun tag htag => (htags tag htag).1
  have hnil : ∀ {x xs}, Tagged tags c x → [] ≠ [c].intercalate (x :: xs) := by
    intro x xs hx hempty
    obtain ⟨tag, htag, hprefix⟩ := hx.starts
    rw [intercalate_cons_eq] at hempty
    rw [(List.append_eq_nil_iff.1 hempty.symm).1, List.prefix_nil] at hprefix
    exact (htags tag htag).2 hprefix
  induction xs generalizing ys with
  | nil =>
    cases ys with
    | nil => rfl
    | cons y ys => exact absurd h (hnil (hys y List.mem_cons_self))
  | cons x xs ih =>
    obtain ⟨hx, hxs⟩ := List.forall_mem_cons.1 hxs
    cases ys with
    | nil => exact absurd h.symm (hnil hx)
    | cons y ys =>
      obtain ⟨hy, hyrest⟩ := List.forall_mem_cons.1 hys
      rw [intercalate_cons_eq, intercalate_cons_eq] at h
      obtain ⟨rfl, hrest⟩ :=
        hx.append_inj hsep hy (follows_joinedRest hxs) (follows_joinedRest hyrest) h
      refine congrArg (x :: ·) (ih hxs hyrest ?_)
      cases xs with
      | nil =>
        cases ys with
        | nil => rfl
        | cons y' ys => exact absurd hrest nofun
      | cons x' xs =>
        cases ys with
        | nil => exact absurd hrest nofun
        | cons y' ys =>
          rw [intercalate_cons_eq, intercalate_cons_eq]
          exact (List.cons.inj hrest).2

end Tagged

/-! ## Quotes -/

/-- `str::replace` of a character by two of it. -/
def double (q : Char) (s : String) : String :=
  String.ofList (s.toList.flatMap fun c => if c = q then [q, q] else [c])

theorem double_toList (q : Char) (s : String) :
    (double q s).toList = s.toList.flatMap fun c => if c = q then [q, q] else [c] := by
  simp [double]

theorem double_eq_self {q : Char} {s : String} (h : q ∉ s.toList) : double q s = s := by
  have hall : ∀ cs : List Char, q ∉ cs →
      (cs.flatMap fun c => if c = q then [q, q] else [c]) = cs := by
    intro cs hcs
    induction cs with
    | nil => rfl
    | cons c cs ih =>
      obtain ⟨hc, hrest⟩ := List.ne_and_not_mem_of_not_mem_cons hcs
      rw [List.flatMap_cons, if_neg (Ne.symm hc), ih hrest, List.singleton_append]
  rw [double, hall _ h, String.ofList_toList]

/-- A text with doubled quotes ends at the first quote that is not doubled. -/
theorem doubled_append_inj {q : Char} {cs cs' r r' : List Char} (hr : r.head? ≠ some q)
    (hr' : r'.head? ≠ some q)
    (h : cs.flatMap (fun c => if c = q then [q, q] else [c]) ++ q :: r =
      cs'.flatMap (fun c => if c = q then [q, q] else [c]) ++ q :: r') : cs = cs' ∧ r = r' := by
  -- A doubled quote is not the end of the other text.
  have hend : ∀ {c : Char} {cs r r' : List Char}, r.head? ≠ some q →
      q :: r ≠ (c :: cs).flatMap (fun c => if c = q then [q, q] else [c]) ++ q :: r' := by
    intro c cs r r' hr heq
    by_cases hc : c = q
    · rw [List.flatMap_cons, if_pos hc] at heq
      exact hr (by rw [(List.cons.inj heq).2]; rfl)
    · rw [List.flatMap_cons, if_neg hc] at heq
      exact hc (List.cons.inj heq).1.symm
  induction cs generalizing cs' with
  | nil =>
    cases cs' with
    | nil => exact ⟨rfl, (List.cons.inj h).2⟩
    | cons c' cs' => exact absurd h (hend hr)
  | cons c cs ih =>
    cases cs' with
    | nil => exact absurd h.symm (hend hr')
    | cons c' cs' =>
      have hsame : c = c' ∧ cs.flatMap (fun c => if c = q then [q, q] else [c]) ++ q :: r =
          cs'.flatMap (fun c => if c = q then [q, q] else [c]) ++ q :: r' := by
        rw [List.flatMap_cons, List.flatMap_cons, List.append_assoc, List.append_assoc] at h
        by_cases hc : c = q <;> by_cases hc' : c' = q
        · rw [if_pos hc, if_pos hc'] at h
          exact ⟨hc.trans hc'.symm, by simpa using h⟩
        · rw [if_pos hc, if_neg hc'] at h
          exact absurd (List.cons.inj h).1.symm hc'
        · rw [if_neg hc, if_pos hc'] at h
          exact absurd (List.cons.inj h).1 hc
        · rw [if_neg hc, if_neg hc'] at h
          exact List.cons.inj h
      obtain ⟨rfl, hrest⟩ := hsame
      obtain ⟨rfl, rfl⟩ := ih hrest
      exact ⟨rfl, rfl⟩

end Text
