import Pglite.Replica.Fingerprint

/-!
# Reading fingerprints back

The `expected` map holds a line under a key exactly if the line is in the fingerprint it was built
from and starts with that key, as long as the fingerprint is `Readable`
(`lookup_ofFingerprint`). The fingerprint that is made of a map's lines is readable, and has these
lines (`lines_toFingerprint`), as long as none of them holds a line break.
-/

namespace Pglite.Replica

open Text

/-! ## Keys -/

theorem lineKey_eq_some {line schema table : String} (h : lineKey line = some (schema, table)) :
    '|' ∉ schema.toList ∧ '|' ∉ table.toList := by
  obtain ⟨⟨before, rest⟩, hsplit, hkey⟩ := Option.map_eq_some_iff.1 h
  obtain ⟨hbefore, -⟩ := splitOnce_eq_some hsplit
  dsimp only at hkey
  split at hkey
  · rename_i name more hrest
    obtain ⟨rfl, rfl⟩ := Prod.mk.inj hkey
    obtain ⟨hname, -⟩ := splitOnce_eq_some hrest
    simpa using ⟨hbefore, hname⟩
  · rename_i hrest
    obtain ⟨rfl, rfl⟩ := Prod.mk.inj hkey
    refine ⟨by simpa using hbefore, fun hmem => ?_⟩
    rw [String.toList_ofList] at hmem
    obtain ⟨xs, ys, rfl, hxs⟩ := List.eq_append_cons_of_mem hmem
    rw [splitOnce_append hxs] at hrest
    cases hrest

theorem lineKey_ne_empty {line : String} {key : String × String} (h : lineKey line = some key) :
    line ≠ "" := by
  rintro rfl
  exact absurd h (by simp [lineKey, splitOnce])

/-- A line is filed under the schema and table it was made of, as long as their names hold no
separator. -/
theorem lineKey_fingerprintLine {schema table : String} (hschema : '|' ∉ schema.toList)
    (htable : '|' ∉ table.toList) (columns : List (String × UInt32)) :
    lineKey (fingerprintLine schema table columns) = some (schema, table) := by
  have hlist : (fingerprintLine schema table columns).toList = schema.toList ++ '|' ::
      (table.toList ++ columns.flatMap fun c =>
        '|' :: (c.1 ++ ":" ++ toString c.2.toNat).toList) := by
    simp [fingerprintLine, List.flatMap_map]
  rw [lineKey, hlist, splitOnce_append hschema]
  cases columns with
  | nil => simp [splitOnce_eq_none htable]
  | cons c cs =>
    rw [List.flatMap_cons, List.cons_append]
    simp [splitOnce_append htable]

/-! ## Columns -/

theorem toList_toString_nat (n : Nat) : (toString n).toList = Nat.toDigits 10 n := by
  show (String.ofList (Nat.toDigits 10 n)).toList = _
  exact String.toList_ofList

/-- The piece of a line that lists a column. -/
def columnPiece (c : String × UInt32) : List Char :=
  c.1.toList ++ ':' :: (toString c.2.toNat).toList

theorem fromStrRadix_oid (oid : UInt32) :
    fromStrRadix (2 ^ 32) 10 (toString oid.toNat).toList = some oid.toNat := by
  have hdigits : fromStrRadix (2 ^ 32) 10 ((Nat.toDigits 10 oid.toNat).map id) =
      some oid.toNat :=
    fromStrRadix_toDigits (by decide) (by decide) id (fun d _ => .inl rfl) oid.toNat_lt
  rwa [List.map_id, ← toList_toString_nat] at hdigits

theorem not_mem_digits {c : Char} (hc : c.isDigit = false) (n : Nat) : c ∉ (toString n).toList := by
  rw [toList_toString_nat]
  intro h
  rw [Nat.isDigit_of_mem_toDigits (by decide) (by decide) h] at hc
  cases hc

theorem toList_fingerprintLine (schema table : String) (columns : List (String × UInt32)) :
    (fingerprintLine schema table columns).toList =
      ['|'].intercalate (schema.toList :: table.toList :: columns.map columnPiece) := by
  have hjoin : ∀ s : List Char, ['|'].intercalate (s :: columns.map columnPiece) =
      s ++ columns.flatMap fun c => '|' :: columnPiece c := by
    induction columns with
    | nil => simp
    | cons c cs ih =>
      intro s
      rw [List.map_cons, List.intercalate_cons_cons, ih, List.flatMap_cons]
      simp
  rw [List.intercalate_cons_cons, hjoin]
  simp [fingerprintLine, columnPiece, List.flatMap_map]

/-- A line gives back the columns it was made of, as long as no name holds a separator. -/
theorem lineColumns_fingerprintLine {schema table : String} {columns : List (String × UInt32)}
    (hschema : '|' ∉ schema.toList) (htable : '|' ∉ table.toList)
    (hcolumns : ∀ c ∈ columns, '|' ∉ c.1.toList) :
    lineColumns (fingerprintLine schema table columns) =
      columns.map fun c => (c.1, c.2.toNat) := by
  have hpieces : ∀ piece ∈ schema.toList :: table.toList :: columns.map columnPiece,
      '|' ∉ piece := by
    simp only [List.forall_mem_cons, List.forall_mem_map]
    refine ⟨hschema, htable, fun c hc => ?_⟩
    rw [columnPiece, List.mem_append, List.mem_cons, not_or, not_or]
    exact ⟨hcolumns c hc, by decide, not_mem_digits (by decide) c.2.toNat⟩
  rw [lineColumns, toList_fingerprintLine, List.splitOn_intercalate _ hpieces (by simp)]
  simp only [List.drop_succ_cons, List.drop_zero, List.filterMap_map]
  rw [← List.filterMap_eq_map]
  refine List.filterMap_congr fun c _ => ?_
  simp only [Function.comp_apply, columnPiece]
  rw [rsplitOnce_append (not_mem_digits (by decide) c.2.toNat), Option.bind_some,
    fromStrRadix_oid]
  simp

/-! ## Changes -/

/-- A column as it is read back from a line. -/
def listedColumn (c : String × UInt32) : String × Nat :=
  (c.1, c.2.toNat)

/-- No old column is changed exactly if the old columns are the first of the new ones. -/
theorem columnChanged_eq_none_iff {i : Nat} {old : List (String × Nat)}
    {new : List (String × UInt32)} (hlen : old.length ≤ new.length) :
    columnChanged i old new = none ↔ old <+: new.map listedColumn := by
  induction old generalizing i new with
  | nil => simp [columnChanged]
  | cons o old ih =>
    cases new with
    | nil => cases hlen
    | cons n new =>
      obtain ⟨oldName, oldOid⟩ := o
      obtain ⟨newName, newOid⟩ := n
      rw [columnChanged, List.map_cons, List.cons_prefix_cons]
      split
      · next hdiff =>
        refine ⟨fun h => (by cases h), fun ⟨hsame, _⟩ => ?_⟩
        obtain ⟨hname, hoid⟩ := Prod.mk.inj hsame
        exact absurd hdiff (not_or.2 ⟨not_not.2 hname, not_not.2 hoid⟩)
      · next hsame =>
        rw [not_or, not_not, not_not] at hsame
        rw [ih (Nat.le_of_succ_le_succ hlen)]
        exact ⟨fun h => ⟨Prod.ext hsame.1 hsame.2, h⟩, fun h => h.2⟩

/-- A change is additive exactly if the columns that the line lists are the first of the new
ones. -/
theorem classifySchemaChange_eq_additive_iff {line : String} {new : List (String × UInt32)}
    {n : Nat} : classifySchemaChange line new = .additive n ↔
      n = (lineColumns line).length ∧ lineColumns line <+: new.map listedColumn := by
  unfold classifySchemaChange
  dsimp only
  split
  · next hlt =>
    refine ⟨fun h => (by cases h), fun ⟨_, hprefix⟩ => ?_⟩
    have hle := hprefix.length_le
    rw [List.length_map] at hle
    exact absurd hle (Nat.not_le_of_lt hlt)
  · next hle =>
    rw [← columnChanged_eq_none_iff (i := 0) (Nat.le_of_not_lt hle)]
    cases columnChanged 0 (lineColumns line) new with
    | none => simp [eq_comm]
    | some reason => simp

/-! ## Plain names -/

/-- The names that a line is made of hold no separator and no line break. -/
structure PlainName (name : String) : Prop where
  no_bar : '|' ∉ name.toList
  no_newline : '\n' ∉ name.toList
  no_cr : '\r' ∉ name.toList

instance PlainName.decidable (name : String) : Decidable (PlainName name) :=
  decidable_of_iff ('|' ∉ name.toList ∧ '\n' ∉ name.toList ∧ '\r' ∉ name.toList)
    ⟨fun ⟨h, h', h''⟩ => ⟨h, h', h''⟩, fun ⟨h, h', h''⟩ => ⟨h, h', h''⟩⟩

theorem not_mem_fingerprintLine {ch : Char} (hbar : ch ≠ '|') (hcolon : ch ≠ ':')
    (hdigit : ch.isDigit = false) {schema table : String} {columns : List (String × UInt32)}
    (hschema : ch ∉ schema.toList) (htable : ch ∉ table.toList)
    (hcolumns : ∀ c ∈ columns, ch ∉ c.1.toList) :
    ch ∉ (fingerprintLine schema table columns).toList := by
  have hoid : ∀ c : String × UInt32, ch ∉ Nat.toDigits 10 c.2.toNat := by
    intro c
    rw [← toList_toString_nat]
    exact not_mem_digits hdigit c.2.toNat
  simp only [fingerprintLine, String.toList_append, String.toList_join, List.mem_append,
    List.mem_flatMap, List.mem_map, not_or, not_exists, not_and]
  refine ⟨⟨⟨hschema, by simpa using hbar⟩, htable⟩, ?_⟩
  rintro piece ⟨c, hc, rfl⟩
  simpa [hbar, hcolon] using ⟨hcolumns c hc, hoid c⟩

/-- The line of a table with plain names can be joined to others. -/
theorem unbroken_fingerprintLine {schema table : String} {columns : List (String × UInt32)}
    (hschema : PlainName schema) (htable : PlainName table)
    (hcolumns : ∀ c ∈ columns, PlainName c.1) :
    Unbroken (fingerprintLine schema table columns) where
  ne_empty := lineKey_ne_empty (lineKey_fingerprintLine hschema.no_bar htable.no_bar columns)
  no_newline := not_mem_fingerprintLine (by decide) (by decide) (by decide) hschema.no_newline
    htable.no_newline fun c hc => (hcolumns c hc).no_newline
  no_cr h := not_mem_fingerprintLine (by decide) (by decide) (by decide) hschema.no_cr
    htable.no_cr (fun c hc => (hcolumns c hc).no_cr) (List.mem_of_getLast? h)

/-! ## Maps -/

namespace Expected

variable {m : Expected} {key : String × String} {line : String}

theorem mem_values : line ∈ m.values ↔ ∃ key, m.lookup key = some line := by
  constructor
  · intro h
    obtain ⟨⟨key, l⟩, hmem, rfl⟩ := List.mem_map.1 h
    exact ⟨key, AList.mem_lookup_iff.2 hmem⟩
  · rintro ⟨key, h⟩
    exact List.mem_map.2 ⟨⟨key, line⟩, AList.mem_lookup_iff.1 h, rfl⟩

/-- Every line is filed under the key it starts with. -/
def Keyed (m : Expected) : Prop :=
  ∀ key line, m.lookup key = some line → lineKey line = some key

theorem keyed_empty : Keyed ∅ :=
  fun _ _ h => absurd h (by simp)

theorem Keyed.insert (h : m.Keyed) (hkey : lineKey line = some key) :
    Keyed (AList.insert key line m) := by
  intro key' line' h'
  by_cases heq : key' = key
  · subst heq
    rw [AList.lookup_insert] at h'
    rwa [← Option.some.inj h']
  · rw [AList.lookup_insert_ne heq] at h'
    exact h key' line' h'

theorem Keyed.addLine (h : m.Keyed) (line : String) : (m.addLine line).Keyed := by
  unfold Expected.addLine
  split
  · exact h.insert ‹_›
  · exact h

/-- What a line added to a map changes. -/
theorem lookup_addLine (m : Expected) (line : String) (key : String × String) :
    (m.addLine line).lookup key = if lineKey line = some key then some line else m.lookup key := by
  unfold Expected.addLine
  split
  · rename_i key' hkey'
    rw [hkey']
    by_cases heq : key' = key
    · subst heq
      rw [if_pos rfl, AList.lookup_insert]
    · rw [if_neg (by simpa using heq), AList.lookup_insert_ne (Ne.symm heq)]
  · rename_i hnone
    rw [if_neg (by rw [hnone]; exact nofun)]

theorem keyed_foldl (ls : List String) (h : m.Keyed) : (ls.foldl addLine m).Keyed := by
  induction ls generalizing m with
  | nil => exact h
  | cons l ls ih => exact ih (h.addLine l)

theorem keyed_ofFingerprint (fp : String) : (ofFingerprint fp).Keyed :=
  keyed_foldl (lines fp) keyed_empty

/-- What is filed under a key after some lines have been added: one of them, or what was there. -/
theorem lookup_foldl {ls : List String} (h : (ls.foldl addLine m).lookup key = some line) :
    line ∈ ls ∨ m.lookup key = some line := by
  induction ls generalizing m with
  | nil => exact .inr h
  | cons l ls ih =>
    rcases ih h with hmem | hlookup
    · exact .inl (List.mem_cons_of_mem _ hmem)
    · rw [lookup_addLine] at hlookup
      split at hlookup
      · exact .inl (Option.some.inj hlookup ▸ List.mem_cons_self)
      · exact .inr hlookup

/-- A line stays filed as long as no other line with its key is added. -/
theorem lookup_foldl_of_mem {ls : List String} (hkey : lineKey line = some key)
    (hsame : ∀ l ∈ ls, lineKey l = some key → l = line)
    (h : line ∈ ls ∨ m.lookup key = some line) :
    (ls.foldl addLine m).lookup key = some line := by
  induction ls generalizing m with
  | nil => exact h.resolve_left List.not_mem_nil
  | cons l ls ih =>
    refine ih (fun l' hl' => hsame l' (List.mem_cons_of_mem _ hl')) ?_
    rw [lookup_addLine]
    by_cases hl : lineKey l = some key
    · rw [if_pos hl, hsame l List.mem_cons_self hl]
      exact .inr rfl
    · rw [if_neg hl]
      rcases h with hmem | hlookup
      · rcases List.mem_cons.1 hmem with rfl | hmem
        · exact absurd hkey hl
        · exact .inl hmem
      · exact .inr hlookup

end Expected

/-! ## Readable fingerprints -/

/-- Every line has a key, no two different lines have the same, and no line ends in `\r`. -/
structure Readable (fp : String) : Prop where
  keyed : ∀ l ∈ lines fp, (lineKey l).isSome = true
  distinct : ∀ l ∈ lines fp, ∀ l' ∈ lines fp, lineKey l = lineKey l' → l = l'
  no_cr : ∀ l ∈ lines fp, l.toList.getLast? ≠ some '\r'

instance Readable.decidable (fp : String) : Decidable (Readable fp) :=
  decidable_of_iff ((∀ l ∈ lines fp, (lineKey l).isSome = true) ∧
      (∀ l ∈ lines fp, ∀ l' ∈ lines fp, lineKey l = lineKey l' → l = l') ∧
      ∀ l ∈ lines fp, l.toList.getLast? ≠ some '\r')
    ⟨fun ⟨h, h', h''⟩ => ⟨h, h', h''⟩, fun ⟨h, h', h''⟩ => ⟨h, h', h''⟩⟩

/-- The map holds exactly the lines of the fingerprint. -/
def Mirrors (m : Expected) (fp : String) : Prop :=
  ∀ l, l ∈ m.values ↔ l ∈ lines fp

/-- The lines are the same, whatever their order. -/
def SameLines (fp fp' : String) : Prop :=
  (∀ l ∈ lines fp, l ∈ lines fp') ∧ ∀ l ∈ lines fp', l ∈ lines fp

instance SameLines.decidable (fp fp' : String) : Decidable (SameLines fp fp') :=
  inferInstanceAs (Decidable (_ ∧ _))

theorem SameLines.mem_iff {fp fp' : String} (h : SameLines fp fp') (l : String) :
    l ∈ lines fp ↔ l ∈ lines fp' :=
  ⟨h.1 l, h.2 l⟩

namespace Readable

variable {fp fp' : String}

theorem of_sameLines (h : Readable fp') (hsame : SameLines fp fp') : Readable fp where
  keyed l hl := h.keyed l (hsame.1 l hl)
  distinct l hl l' hl' := h.distinct l (hsame.1 l hl) l' (hsame.1 l' hl')
  no_cr l hl := h.no_cr l (hsame.1 l hl)

/-- The map that a readable fingerprint denotes. -/
theorem lookup_ofFingerprint (h : Readable fp) (key : String × String) (line : String) :
    (Expected.ofFingerprint fp).lookup key = some line ↔
      line ∈ lines fp ∧ lineKey line = some key := by
  constructor
  · intro hlookup
    refine ⟨?_, Expected.keyed_ofFingerprint fp key line hlookup⟩
    rcases Expected.lookup_foldl hlookup with hmem | hempty
    · exact hmem
    · exact absurd hempty (by simp)
  · rintro ⟨hmem, hkey⟩
    refine Expected.lookup_foldl_of_mem hkey (fun l hl hlkey => ?_) (.inl hmem)
    exact h.distinct l hl line hmem (hlkey.trans hkey.symm)

theorem mirrors (h : Readable fp) : Mirrors (Expected.ofFingerprint fp) fp := by
  intro l
  rw [Expected.mem_values]
  constructor
  · rintro ⟨key, hkey⟩
    exact ((h.lookup_ofFingerprint key l).1 hkey).1
  · intro hl
    obtain ⟨key, hkey⟩ := Option.isSome_iff_exists.1 (h.keyed l hl)
    exact ⟨key, (h.lookup_ofFingerprint key l).2 ⟨hl, hkey⟩⟩

/-- Fingerprints with the same lines denote the same map. -/
theorem lookup_eq (h : Readable fp') (hsame : SameLines fp fp') (key : String × String) :
    (Expected.ofFingerprint fp).lookup key = (Expected.ofFingerprint fp').lookup key := by
  refine Option.ext fun line => ?_
  rw [(h.of_sameLines hsame).lookup_ofFingerprint, h.lookup_ofFingerprint, hsame.mem_iff]

/-- The lines of a readable fingerprint can be joined to others. -/
theorem unbroken (h : Readable fp) {l : String} (hl : l ∈ lines fp) : Unbroken l := by
  obtain ⟨key, hkey⟩ := Option.isSome_iff_exists.1 (h.keyed l hl)
  exact ⟨lineKey_ne_empty hkey, not_newline_of_mem_lines hl, h.no_cr l hl⟩

end Readable

theorem mem_sorted {ls : List String} {l : String} : l ∈ sorted ls ↔ l ∈ ls :=
  List.mem_insertionSort _

/-- The lines of the fingerprint made of a map. -/
theorem lines_toFingerprint {m : Expected} (h : ∀ l ∈ m.values, Unbroken l) :
    lines m.toFingerprint = sorted m.values :=
  lines_intercalate fun l hl => h l (mem_sorted.1 hl)

theorem mirrors_toFingerprint {m : Expected} (h : ∀ l ∈ m.values, Unbroken l) :
    Mirrors m m.toFingerprint := by
  intro l
  rw [lines_toFingerprint h, mem_sorted]

theorem readable_toFingerprint {m : Expected} (hkeyed : m.Keyed)
    (h : ∀ l ∈ m.values, Unbroken l) : Readable m.toFingerprint := by
  have hmem : ∀ l, l ∈ lines m.toFingerprint ↔ l ∈ m.values := fun l =>
    (mirrors_toFingerprint h l).symm
  refine ⟨fun l hl => ?_, fun l hl l' hl' hkey => ?_, fun l hl => (h l ((hmem l).1 hl)).no_cr⟩
  · obtain ⟨key, hkey⟩ := Expected.mem_values.1 ((hmem l).1 hl)
    rw [hkeyed key l hkey]
    rfl
  · obtain ⟨key, hl⟩ := Expected.mem_values.1 ((hmem l).1 hl)
    obtain ⟨key', hl'⟩ := Expected.mem_values.1 ((hmem l').1 hl')
    rw [hkeyed key l hl, hkeyed key' l' hl'] at hkey
    rw [Option.some.inj hkey] at hl
    exact Option.some.inj (hl.symm.trans hl')

end Pglite.Replica
