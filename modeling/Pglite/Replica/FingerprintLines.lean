import Pglite.Replica.FingerprintProof

/-!
# What a fingerprint tells

`fingerprint` writes a line for each table, and `stream_loop` and `classify_schema_change` read the
lines back. The writer escapes nothing, so what is read is what was written only under conditions.

- **Legible.** No name holds a `|` or a `\n`, and the line of no table but the last ends in `\r`,
  which `lines` would take for a part of the line end.
- **Merges.** A list of columns merges another one if it has a column whose name is the text that
  several columns of the other one are written as.

Every table is found under its own name, its line is the line of no other list of columns, and its
columns are told from others, exactly if the tables are legible and the other list does not merge
the columns of a table (`reads_back_iff`).
-/

namespace Pglite.Replica.FingerprintLines

open Text

/-- The columns of a table, as `fingerprint_line` takes them. -/
def listed (t : TableDef) : List (String × UInt32) :=
  t.columns.map fun c => (c.name, c.typeOid)

/-- The line of a table. -/
def line (t : TableDef) : String :=
  fingerprintLine t.schema t.name (listed t)

/-- The names that are written in the line of a table. -/
def names (t : TableDef) : List String :=
  t.schema :: t.name :: t.columns.map ColDef.name

/-- The fingerprint has one line a table, filed under the table's name, `other` is not taken for
the columns of a table, and the columns of a table are told from any others. -/
structure ReadsBack (tables : List TableDef) (other : List (String × UInt32)) : Prop where
  filed : ∀ k l, (Expected.ofFingerprint (fingerprint tables)).lookup k = some l ↔
    ∃ t ∈ tables, t.key = k ∧ line t = l
  distinct : ∀ t ∈ tables, fingerprintLine t.schema t.name other = line t → other = listed t
  additive : ∀ t ∈ tables, ∀ (new : List (String × UInt32)) (n : Nat),
    classifySchemaChange (line t) new = .additive n ↔
      n = (listed t).length ∧ listed t <+: new

/-- The names can be told apart in the fingerprint. -/
structure Legible (tables : List TableDef) : Prop where
  no_bar : ∀ t ∈ tables, ∀ name ∈ names t, '|' ∉ name.toList
  no_newline : ∀ t ∈ tables, ∀ name ∈ names t, '\n' ∉ name.toList
  no_cr : ∀ t ∈ tables.dropLast, t.columns = [] → t.name.toList.getLast? ≠ some '\r'

instance Legible.decidable (tables : List TableDef) : Decidable (Legible tables) :=
  decidable_of_iff ((∀ t ∈ tables, ∀ name ∈ names t, '|' ∉ name.toList) ∧
      (∀ t ∈ tables, ∀ name ∈ names t, '\n' ∉ name.toList) ∧
      ∀ t ∈ tables.dropLast, t.columns = [] → t.name.toList.getLast? ≠ some '\r')
    ⟨fun ⟨h, h', h''⟩ => ⟨h, h', h''⟩, fun ⟨h, h', h''⟩ => ⟨h, h', h''⟩⟩

/-- One column with the name and type that several columns in a row read as. -/
def merged : String × UInt32 → List (String × UInt32) → String × UInt32
  | c, [] => c
  | c, d :: ds =>
    (c.1 ++ ":" ++ toString c.2.toNat ++ "|" ++ (merged d ds).1, (merged d ds).2)

/-- `other` has one column for each group of `columns`, and a group has more than one. -/
def Merges (columns other : List (String × UInt32)) : Prop :=
  ∃ groups : List ((String × UInt32) × List (String × UInt32)),
    groups.flatMap (fun g => g.1 :: g.2) = columns ∧
    groups.map (fun g => merged g.1 g.2) = other ∧ ∃ g ∈ groups, g.2 ≠ []

/-! ## The text of a line -/

theorem toList_line (schema table : String) (columns : List (String × UInt32)) :
    (fingerprintLine schema table columns).toList =
      schema.toList ++ '|' :: (table.toList ++ joinedRest '|' (columns.map columnPiece)) := by
  rw [toList_fingerprintLine, intercalate_cons_eq, joinedRest_cons]

theorem line_ne_empty (t : TableDef) : line t ≠ "" := by
  intro h
  have hnil : (line t).toList = [] := by rw [h]; rfl
  rw [line, toList_line] at hnil
  exact absurd hnil (by simp)

/-- A line holds every character of the names it is made of. -/
theorem mem_line {t : TableDef} {name : String} (hname : name ∈ names t) {c : Char}
    (hc : c ∈ name.toList) : c ∈ (line t).toList := by
  rw [line, toList_line, List.mem_append, List.mem_cons, List.mem_append]
  rcases List.mem_cons.1 hname with rfl | hname
  · exact .inl hc
  rcases List.mem_cons.1 hname with rfl | hname
  · exact .inr (.inr (.inl hc))
  · obtain ⟨col, hcol, rfl⟩ := List.mem_map.1 hname
    refine .inr (.inr (.inr (List.mem_flatMap.2 ⟨columnPiece (col.name, col.typeOid), ?_, ?_⟩)))
    · exact List.mem_map_of_mem (List.mem_map_of_mem hcol)
    · exact List.mem_cons_of_mem _ (List.mem_append_left _ hc)

/-- A line that lists columns ends in a digit. -/
theorem getLast?_line (t : TableDef) : (line t).toList.getLast? = some '\r' ↔
    t.columns = [] ∧ t.name.toList.getLast? = some '\r' := by
  rw [line, toList_line, listed]
  rcases List.eq_nil_or_concat t.columns with hnil | ⟨cols, c, hcols⟩
  · rw [hnil, List.map_nil, List.map_nil, joinedRest, List.flatMap_nil, List.append_nil,
      List.getLast?_append_cons, List.getLast?_cons]
    cases hlast : t.name.toList.getLast? with
    | none => simp
    | some x => simp
  · have hdigits : (toString c.typeOid.toNat).toList ≠ [] := by
      rw [toList_toString_nat]
      exact Nat.toDigits_ne_nil
    have hend : ∃ front, t.schema.toList ++ '|' :: (t.name.toList ++ joinedRest '|'
        ((t.columns.map fun c => (c.name, c.typeOid)).map columnPiece)) =
          front ++ (toString c.typeOid.toNat).toList := by
      refine ⟨t.schema.toList ++ '|' :: (t.name.toList ++ (joinedRest '|'
        ((cols.map fun c => (c.name, c.typeOid)).map columnPiece) ++
          '|' :: (c.name.toList ++ [':']))), ?_⟩
      rw [hcols]
      simp [joinedRest, columnPiece]
    obtain ⟨front, hfront⟩ := hend
    rw [hfront, List.getLast?_append_of_ne_nil _ hdigits]
    constructor
    · exact fun h => absurd (List.mem_of_getLast? h) (not_mem_digits (by decide) _)
    · rintro ⟨hnil, -⟩
      rw [hcols] at hnil
      exact absurd hnil (by simp)

/-! ## The columns of a line -/

theorem columnPiece_injective : Function.Injective columnPiece := by
  intro c d h
  have hcut : ∀ c : String × UInt32,
      rsplitOnce ':' (columnPiece c) = some (c.1.toList, (toString c.2.toNat).toList) := fun c =>
    rsplitOnce_append (not_mem_digits (by decide) c.2.toNat) c.1.toList
  have hparts := hcut c
  rw [h, hcut d] at hparts
  obtain ⟨hname, hdigits⟩ := Prod.mk.inj (Option.some.inj hparts)
  have hoid := fromStrRadix_oid c.2
  rw [← hdigits, fromStrRadix_oid] at hoid
  exact Prod.ext (String.toList_injective hname.symm)
    (UInt32.toNat_inj.1 (Option.some.inj hoid).symm)

theorem columnPiece_merged (c : String × UInt32) (cs : List (String × UInt32)) :
    columnPiece (merged c cs) = columnPiece c ++ joinedRest '|' (cs.map columnPiece) := by
  induction cs generalizing c with
  | nil => simp [merged, joinedRest]
  | cons d ds ih =>
    have hpiece : columnPiece (merged c (d :: ds)) =
        columnPiece c ++ '|' :: columnPiece (merged d ds) := by
      simp [merged, columnPiece]
    rw [hpiece, ih d, List.map_cons, joinedRest_cons]

/-- What is cut into the pieces of some columns merges these columns, group by group. -/
theorem exists_groups {columns other : List (String × UInt32)}
    (h : (other.flatMap fun c => (columnPiece c).splitOn '|') = columns.map columnPiece) :
    ∃ groups : List ((String × UInt32) × List (String × UInt32)),
      groups.flatMap (fun g => g.1 :: g.2) = columns ∧
      groups.map (fun g => merged g.1 g.2) = other := by
  induction other generalizing columns with
  | nil =>
    obtain rfl : columns = [] := List.map_eq_nil_iff.1 h.symm
    exact ⟨[], rfl, rfl⟩
  | cons o other ih =>
    rw [List.flatMap_cons] at h
    obtain ⟨group, rest, rfl, hgroup, hrest⟩ := List.append_eq_map_iff.1 h
    cases group with
    | nil => exact absurd hgroup.symm (List.splitOn_ne_nil '|' (columnPiece o))
    | cons c cs =>
      obtain ⟨groups, hflat, hmerged⟩ := ih hrest.symm
      have hpiece : columnPiece o = columnPiece (merged c cs) := by
        rw [columnPiece_merged, ← intercalate_cons_eq, ← List.map_cons, hgroup,
          List.intercalate_splitOn]
      refine ⟨(c, cs) :: groups, ?_, ?_⟩
      · rw [List.flatMap_cons, hflat]
      · rw [List.map_cons, hmerged, columnPiece_injective hpiece]

theorem splitOn_pieces {columns : List (String × UInt32)} (h : ∀ c ∈ columns, '|' ∉ c.1.toList) :
    ((columns.map columnPiece).flatMap fun piece => piece.splitOn '|') =
      columns.map columnPiece := by
  induction columns with
  | nil => rfl
  | cons c cs ih =>
    obtain ⟨hc, hcs⟩ := List.forall_mem_cons.1 h
    have hpiece : '|' ∉ columnPiece c := by
      rw [columnPiece, List.mem_append, List.mem_cons, not_or, not_or]
      exact ⟨hc, by decide, not_mem_digits (by decide) c.2.toNat⟩
    rw [List.map_cons, List.flatMap_cons, List.splitOn_eq_singleton hpiece, ih hcs]
    rfl

theorem Merges.ne {columns other : List (String × UInt32)} (h : Merges columns other) :
    other ≠ columns := by
  have hlen : ∀ {groups : List ((String × UInt32) × List (String × UInt32))},
      groups.length ≤ (groups.flatMap fun g => g.1 :: g.2).length ∧
        ((∃ g ∈ groups, g.2 ≠ []) → groups.length < (groups.flatMap fun g => g.1 :: g.2).length) := by
    intro groups
    induction groups with
    | nil => exact ⟨Nat.le_refl _, fun ⟨g, hg, _⟩ => absurd hg List.not_mem_nil⟩
    | cons g groups ih =>
      obtain ⟨hle, hlt⟩ := ih
      rw [List.flatMap_cons, List.length_append, List.length_cons, List.length_cons]
      refine ⟨by omega, fun ⟨g', hg', hne⟩ => ?_⟩
      rcases List.mem_cons.1 hg' with rfl | hg'
      · have := List.length_pos_of_ne_nil hne
        omega
      · have := hlt ⟨g', hg', hne⟩
        omega
  obtain ⟨groups, rfl, rfl, hmore⟩ := h
  intro heq
  have hlt := hlen.2 hmore
  rw [← heq, List.length_map] at hlt
  exact absurd hlt (Nat.lt_irrefl _)

/-- Only a name with a separator merges columns. -/
theorem Merges.exists_bar {columns other : List (String × UInt32)} (h : Merges columns other) :
    ∃ c ∈ other, '|' ∈ c.1.toList := by
  obtain ⟨groups, -, rfl, ⟨c, cs⟩, hg, hne⟩ := h
  refine ⟨merged c cs, List.mem_map_of_mem hg, ?_⟩
  cases cs with
  | nil => exact absurd rfl hne
  | cons d ds => simp [merged]

/-- Merged columns are written as the columns they merge. -/
theorem joinedRest_merged (groups : List ((String × UInt32) × List (String × UInt32))) :
    joinedRest '|' ((groups.map fun g => merged g.1 g.2).map columnPiece) =
      joinedRest '|' ((groups.flatMap fun g => g.1 :: g.2).map columnPiece) := by
  induction groups with
  | nil => rfl
  | cons g groups ih =>
    rw [List.map_cons, List.map_cons, List.flatMap_cons, List.map_append, List.map_cons,
      joinedRest_append, joinedRest_cons, joinedRest_cons, columnPiece_merged, ih]
    simp

/-- Two lists of columns have one line exactly if the one merges the other. -/
theorem fingerprintLine_eq_iff {schema table : String} {columns other : List (String × UInt32)}
    (h : ∀ c ∈ columns, '|' ∉ c.1.toList) :
    fingerprintLine schema table other = fingerprintLine schema table columns ↔
      other = columns ∨ Merges columns other := by
  have hrest : fingerprintLine schema table other = fingerprintLine schema table columns ↔
      joinedRest '|' (other.map columnPiece) = joinedRest '|' (columns.map columnPiece) := by
    rw [← String.toList_inj, toList_line, toList_line]
    simp
  rw [hrest]
  constructor
  · intro heq
    have hcut : (other.flatMap fun c => (columnPiece c).splitOn '|') =
        columns.map columnPiece := by
      have hother := splitOn_joined (c := '|') [] (other.map columnPiece)
      rw [heq, splitOn_joined, splitOn_pieces h, List.flatMap_map] at hother
      exact (List.append_cancel_left hother).symm
    obtain ⟨groups, hflat, hmerged⟩ := exists_groups hcut
    by_cases hmore : ∃ g ∈ groups, g.2 ≠ []
    · exact .inr ⟨groups, hflat, hmerged, hmore⟩
    · refine .inl ?_
      rw [← hflat, ← hmerged, List.map_eq_flatMap]
      refine List.flatMap_congr fun g hg => ?_
      have hsingle : g.2 = [] := by
        by_contra hne
        exact hmore ⟨g, hg, hne⟩
      rw [hsingle, merged]
  · rintro (rfl | ⟨groups, rfl, rfl, -⟩)
    · rfl
    · exact joinedRest_merged groups

/-! ## The lines of a fingerprint -/

variable {tables : List TableDef}

theorem fingerprint_eq (tables : List TableDef) :
    fingerprint tables = "\n".intercalate (tables.map line) := rfl

/-- All lines but the last lose a `\r` at the end. -/
theorem lines_fingerprint_concat {t : TableDef}
    (h : ∀ u ∈ tables ++ [t], '\n' ∉ (line u).toList) :
    lines (fingerprint (tables ++ [t])) =
      (tables.map fun u => String.ofList (stripCr (line u).toList)) ++ [line t] := by
  rw [fingerprint_eq, List.map_append, List.map_singleton, lines_intercalate_concat,
    List.map_map]
  · rfl
  · rw [← List.map_singleton, ← List.map_append]
    exact List.forall_mem_map.2 h
  · exact line_ne_empty t

theorem Legible.lines_fingerprint (h : Legible tables) :
    lines (fingerprint tables) = tables.map line := by
  rcases List.eq_nil_or_concat' tables with rfl | ⟨init, last, rfl⟩
  · decide
  have hno : ∀ u ∈ init ++ [last], '\n' ∉ (line u).toList := by
    intro u hu
    have hnames := h.no_newline u hu
    refine not_mem_fingerprintLine (by decide) (by decide) (by decide) (hnames _ (by simp [names]))
      (hnames _ (by simp [names])) fun c hc => ?_
    obtain ⟨col, hcol, rfl⟩ := List.mem_map.1 hc
    exact hnames col.name (by simpa [names] using .inr (.inr ⟨col, hcol, rfl⟩))
  rw [lines_fingerprint_concat hno, List.map_append, List.map_singleton]
  refine congrArg (· ++ [line last]) (List.map_congr_left fun u hu => ?_)
  have hcr : (line u).toList.getLast? ≠ some '\r' := by
    rw [Ne, getLast?_line, not_and]
    exact h.no_cr u (by simpa using hu)
  rw [stripCr, if_neg hcr, String.ofList_toList]

theorem Legible.lineKey_line (h : Legible tables) {t : TableDef} (ht : t ∈ tables) :
    lineKey (line t) = some t.key :=
  lineKey_fingerprintLine (h.no_bar t ht _ (by simp [names])) (h.no_bar t ht _ (by simp [names])) _

theorem Legible.lineColumns_line (h : Legible tables) {t : TableDef} (ht : t ∈ tables) :
    lineColumns (line t) = (listed t).map listedColumn := by
  have hnames := h.no_bar t ht
  refine lineColumns_fingerprintLine (hnames _ (by simp [names])) (hnames _ (by simp [names])) ?_
  intro c hc
  obtain ⟨col, hcol, rfl⟩ := List.mem_map.1 hc
  exact hnames col.name (by simpa [names] using .inr (.inr ⟨col, hcol, rfl⟩))

/-! ## Legible tables -/

theorem Legible.filed (h : Legible tables) (hkeys : (tables.map TableDef.key).Nodup)
    (k : String × String) (l : String) :
    (Expected.ofFingerprint (fingerprint tables)).lookup k = some l ↔
      ∃ t ∈ tables, t.key = k ∧ line t = l := by
  constructor
  · intro hlookup
    have hkey := Expected.keyed_ofFingerprint _ k l hlookup
    rcases Expected.lookup_foldl hlookup with hmem | hempty
    · rw [h.lines_fingerprint] at hmem
      obtain ⟨t, ht, rfl⟩ := List.mem_map.1 hmem
      rw [h.lineKey_line ht] at hkey
      exact ⟨t, ht, Option.some.inj hkey, rfl⟩
    · exact absurd hempty (by simp)
  · rintro ⟨t, ht, rfl, rfl⟩
    refine Expected.lookup_foldl_of_mem (h.lineKey_line ht) ?_ (.inl ?_)
    · rw [h.lines_fingerprint]
      intro l hl hlkey
      obtain ⟨u, hu, rfl⟩ := List.mem_map.1 hl
      rw [h.lineKey_line hu] at hlkey
      rw [List.inj_on_of_nodup_map hkeys hu ht (Option.some.inj hlkey)]
    · rw [h.lines_fingerprint]
      exact List.mem_map_of_mem ht

theorem listedColumn_injective : Function.Injective listedColumn := by
  intro c d h
  obtain ⟨hname, hoid⟩ := Prod.mk.inj h
  exact Prod.ext hname (UInt32.toNat_inj.1 hoid)

theorem Legible.additive (h : Legible tables) {t : TableDef} (ht : t ∈ tables)
    (new : List (String × UInt32)) (n : Nat) :
    classifySchemaChange (line t) new = .additive n ↔
      n = (listed t).length ∧ listed t <+: new := by
  rw [classifySchemaChange_eq_additive_iff, h.lineColumns_line ht, List.length_map,
    List.prefix_map_iff_of_injective listedColumn_injective]

theorem Legible.readsBack (h : Legible tables) (hkeys : (tables.map TableDef.key).Nodup)
    {other : List (String × UInt32)} (hother : ∀ t ∈ tables, ¬ Merges (listed t) other) :
    ReadsBack tables other where
  filed := h.filed hkeys
  distinct t ht heq := by
    have hbar : ∀ c ∈ listed t, '|' ∉ c.1.toList := by
      intro c hc
      obtain ⟨col, hcol, rfl⟩ := List.mem_map.1 hc
      exact h.no_bar t ht col.name (by simpa [names] using .inr (.inr ⟨col, hcol, rfl⟩))
    exact ((fingerprintLine_eq_iff hbar).1 heq).resolve_right (hother t ht)
  additive t ht := h.additive ht

/-! ## Only legible tables are read back -/

/-- The names that are read from a line hold no separator. -/
theorem not_mem_of_mem_lineColumns {l : String} {c : String × Nat} (h : c ∈ lineColumns l) :
    '|' ∉ c.1.toList := by
  obtain ⟨piece, hpiece, hc⟩ := List.mem_filterMap.1 h
  obtain ⟨⟨name, digits⟩, hcut, hread⟩ := Option.bind_eq_some_iff.1 hc
  obtain ⟨oid, -, rfl⟩ := Option.map_eq_some_iff.1 hread
  have hno := not_mem_of_mem_splitOn (List.mem_of_mem_drop hpiece)
  rw [String.toList_ofList]
  rw [rsplitOnce_eq_some hcut] at hno
  exact fun hmem => hno (List.mem_append_left _ hmem)

namespace ReadsBack

variable {other : List (String × UInt32)} {t : TableDef}

theorem lookup (h : ReadsBack tables other) (ht : t ∈ tables) :
    (Expected.ofFingerprint (fingerprint tables)).lookup t.key = some (line t) :=
  (h.filed _ _).2 ⟨t, ht, rfl, rfl⟩

theorem lineKey_line (h : ReadsBack tables other) (ht : t ∈ tables) :
    lineKey (line t) = some t.key :=
  Expected.keyed_ofFingerprint _ _ _ (h.lookup ht)

theorem line_mem (h : ReadsBack tables other) (ht : t ∈ tables) :
    line t ∈ lines (fingerprint tables) :=
  (Expected.lookup_foldl (h.lookup ht)).resolve_right (by simp)

theorem no_newline (h : ReadsBack tables other) (ht : t ∈ tables) : '\n' ∉ (line t).toList :=
  not_newline_of_mem_lines (h.line_mem ht)

theorem lineColumns_line (h : ReadsBack tables other) (ht : t ∈ tables) :
    lineColumns (line t) = (listed t).map listedColumn := by
  have hsame := (h.additive t ht (listed t) _).2 ⟨rfl, List.prefix_refl _⟩
  obtain ⟨hlen, hpre⟩ := classifySchemaChange_eq_additive_iff.1 hsame
  exact hpre.eq_of_length (by rw [List.length_map, hlen])

theorem no_bar (h : ReadsBack tables other) (ht : t ∈ tables) :
    ∀ name ∈ names t, '|' ∉ name.toList := by
  obtain ⟨hschema, htable⟩ := lineKey_eq_some (h.lineKey_line ht)
  have hcolumn : ∀ col ∈ t.columns, '|' ∉ col.name.toList := by
    intro col hcol
    have hmem : listedColumn (col.name, col.typeOid) ∈ lineColumns (line t) := by
      rw [h.lineColumns_line ht]
      exact List.mem_map_of_mem (List.mem_map_of_mem hcol)
    exact not_mem_of_mem_lineColumns hmem
  simpa [names] using ⟨hschema, htable, hcolumn⟩

/-- A line that is followed by another one does not end in `\r`. -/
theorem no_cr (h : ReadsBack tables other) (hkeys : (tables.map TableDef.key).Nodup)
    (ht : t ∈ tables.dropLast) : (line t).toList.getLast? ≠ some '\r' := by
  rcases List.eq_nil_or_concat' tables with rfl | ⟨init, last, rfl⟩
  · exact absurd ht List.not_mem_nil
  rw [List.dropLast_concat] at ht
  have hlines := lines_fingerprint_concat fun u hu => h.no_newline hu
  have hstripped : ∀ l ∈ init.map fun u => (line u).toList,
      l ∈ (init.map fun u => (line u).toList).map stripCr := by
    intro l hl
    obtain ⟨u, hu, rfl⟩ := List.mem_map.1 hl
    have hmem := h.line_mem (List.mem_append_left [last] hu)
    rw [hlines, List.mem_append, List.mem_singleton] at hmem
    rcases hmem with hmem | heq
    · obtain ⟨v, hv, hvu⟩ := List.mem_map.1 hmem
      rw [List.map_map]
      exact List.mem_map.2 ⟨v, hv, by rw [← hvu, String.toList_ofList]; rfl⟩
    · -- The last line is filed under another name.
      have hkeyu := h.lineKey_line (List.mem_append_left [last] hu)
      rw [heq, h.lineKey_line (List.mem_append_right init (List.mem_singleton_self last))] at hkeyu
      rw [List.map_append, List.map_singleton] at hkeys
      have hdisj := (List.nodup_append'.1 hkeys).2.2
      refine (hdisj (List.mem_map_of_mem hu) ?_).elim
      rw [← Option.some.inj hkeyu]
      exact List.mem_singleton_self _
  exact no_cr_of_mem_stripped hstripped _ (List.mem_map.2 ⟨t, ht, rfl⟩)

theorem legible (h : ReadsBack tables other) (hkeys : (tables.map TableDef.key).Nodup) :
    Legible tables where
  no_bar _ ht := h.no_bar ht
  no_newline _ ht _ hname hmem := h.no_newline ht (mem_line hname hmem)
  no_cr t ht hnil hname := h.no_cr hkeys ht ((getLast?_line t).2 ⟨hnil, hname⟩)

end ReadsBack

/-- Fingerprint lines are read back exactly if the tables are legible and the other list of
columns merges the columns of no table. -/
theorem reads_back_iff (tables : List TableDef) (other : List (String × UInt32))
    (hkeys : (tables.map TableDef.key).Nodup) :
    ReadsBack tables other ↔
      Legible tables ∧ ∀ t ∈ tables, ¬ Merges (listed t) other := by
  constructor
  · intro h
    have hlegible := h.legible hkeys
    refine ⟨hlegible, fun t ht hmerges => hmerges.ne (h.distinct t ht ?_)⟩
    refine (fingerprintLine_eq_iff fun c hc => ?_).2 (.inr hmerges)
    obtain ⟨col, hcol, rfl⟩ := List.mem_map.1 hc
    exact hlegible.no_bar t ht col.name (by simpa [names] using .inr (.inr ⟨col, hcol, rfl⟩))
  · rintro ⟨hlegible, hother⟩
    exact hlegible.readsBack hkeys hother

/-- Two tables with the names of most schemas. -/
def orders : List TableDef :=
  [⟨"public", "order", [⟨"id", "integer", 23, true⟩, ⟨"price:net", "numeric", 1700, false⟩], ["id"],
    "d", none, []⟩, ⟨"public", "empty", [], [], "n", none, []⟩]

theorem reads_back_orders : ReadsBack orders [("id", 23)] := by
  refine (reads_back_iff orders [("id", 23)] (by decide)).2 ⟨by decide, fun t _ hmerges => ?_⟩
  obtain ⟨c, hc, hbar⟩ := hmerges.exists_bar
  obtain rfl := List.mem_singleton.1 hc
  exact absurd hbar (by decide)

/-- A column whose name reads as two. -/
def twofold : TableDef := ⟨"public", "t", [⟨"a:1|b", "text", 2, false⟩], [], "f", none, []⟩

theorem twofold_not_reads_back :
    (∀ name ∈ names twofold, name ≠ "" ∧ '\x00' ∉ name.toList) ∧
      ¬ ReadsBack [twofold] [("a", 1), ("b", 2)] := by
  refine ⟨by decide, fun h => ?_⟩
  have hsame := h.distinct twofold (List.mem_singleton_self _) (by decide +kernel)
  exact absurd hsame (by decide)

end Pglite.Replica.FingerprintLines
