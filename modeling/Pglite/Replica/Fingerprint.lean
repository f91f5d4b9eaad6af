import Mathlib.Data.List.AList
import Mathlib.Data.List.Sort
import Mathlib.Data.String.Basic
import Pglite.Replica.RowSql
import Pglite.Replica.TableDef

/-!
# Schema fingerprints

The fingerprint functions of `src/replica/backfill.rs`. A fingerprint is a text with one line a
published table, `schema|table|column:oid|…`. Three copies of it are about: the one stored in
`_pglite_replica`, the argument of `run`, and the `expected` map of `stream_loop`, which files
each line under the schema and table it starts with.
-/

namespace Pglite.Replica

open Text

/-- `fingerprint_line`. -/
def fingerprintLine (schema table : String) (columns : List (String × UInt32)) : String :=
  schema ++ "|" ++ table ++
    String.join (columns.map fun (name, oid) => "|" ++ name ++ ":" ++ toString oid.toNat)

/-- `fingerprint`. -/
def fingerprint (tables : List TableDef) : String :=
  "\n".intercalate <| tables.map fun t =>
    fingerprintLine t.schema t.name (t.columns.map fun c => (c.name, c.typeOid))

/-- The first two of the parts that `splitn(3, '|')` makes of a line. -/
def lineKey (line : String) : Option (String × String) :=
  (splitOnce '|' line.toList).map fun (schema, rest) =>
    match splitOnce '|' rest with
    | some (table, _) => (String.ofList schema, String.ofList table)
    | none => (String.ofList schema, String.ofList rest)

/-- The `expected` map: the line of each table. -/
abbrev Expected := AList fun _ : String × String => String

/-- The map a line is added to. -/
def Expected.addLine (m : Expected) (line : String) : Expected :=
  match lineKey line with
  | some key => m.insert key line
  | none => m

/-- The map that `stream_loop` and `resync_schema` build from a fingerprint. -/
def Expected.ofFingerprint (fp : String) : Expected :=
  (lines fp).foldl Expected.addLine ∅

/-- `expected.values()`. -/
def Expected.values (m : Expected) : List String :=
  m.entries.map Sigma.snd

/-- `sort` of a vector of strings. -/
def sorted (ls : List String) : List String :=
  ls.insertionSort (· ≤ ·)

/-- The fingerprint that the `Relation` branch stores. -/
def Expected.toFingerprint (m : Expected) : String :=
  "\n".intercalate (sorted m.values)

/-! ## Schema changes -/

/-- `SchemaChange`. -/
inductive SchemaChange
  | additive (oldCount : Nat)
  | incompatible (reason : String)
  deriving DecidableEq

/-- The columns a line lists. A part that is no column is passed over. -/
def lineColumns (line : String) : List (String × Nat) :=
  ((line.toList.splitOn '|').drop 2).filterMap fun part =>
    (rsplitOnce ':' part).bind fun (name, oid) =>
      (fromStrRadix (2 ^ 32) 10 oid).map fun oid => (String.ofList name, oid)

/-- The loop of `classify_schema_change` over the old columns, the first of which is at `i`: why
it ends early. -/
def columnChanged (i : Nat) : List (String × Nat) → List (String × UInt32) → Option String
  | (oldName, oldOid) :: old, (newName, newOid) :: new =>
    if oldName ≠ newName ∨ oldOid ≠ newOid.toNat then
      some (s!"column {i} changed (was {oldName}:{oldOid}, now " ++
        s!"{newName}:{newOid.toNat})")
    else columnChanged (i + 1) old new
  | _, _ => none

/-- `classify_schema_change`. -/
def classifySchemaChange (expectedLine : String) (new : List (String × UInt32)) : SchemaChange :=
  let old := lineColumns expectedLine
  if new.length < old.length then
    .incompatible s!"a column was removed (had {old.length}, now {new.length})"
  else
    match columnChanged 0 old new with
    | some reason => .incompatible reason
    | none => .additive old.length

example : classifySchemaChange "public|t|id:23|name:25" [("id", 23), ("name", 25)] =
    .additive 2 := by
  decide

example : classifySchemaChange "public|t|a:23|b:25" [("b", 25), ("a", 23)] =
    .incompatible "column 0 changed (was a:23, now b:25)" := by
  decide

end Pglite.Replica
