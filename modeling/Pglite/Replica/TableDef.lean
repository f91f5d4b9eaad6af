import Mathlib.Data.List.Basic

/-!
# Table definitions

A published table as `introspect` of `src/replica/backfill.rs` returns it. The indexes are the texts
of their statements; where a server executes these, they come with what it reads in them.
-/

namespace Pglite.Replica

/-- A table, by schema and name. -/
abbrev TableKey := String × String

instance TableKey.lawfulBEq : LawfulBEq TableKey := inferInstance

/-- `ColDef`. -/
structure ColDef where
  name : String
  typeSql : String
  typeOid : UInt32
  notNull : Bool
deriving DecidableEq

/-- `TableDef`. -/
structure TableDef (Index : Type := String) where
  schema : String
  name : String
  columns : List ColDef
  pk : List String
  replicaIdentity : String
  rowFilter : Option String
  indexes : List Index
deriving DecidableEq

namespace TableDef

variable {Index : Type} (t : TableDef Index)

def key : TableKey := (t.schema, t.name)

def columnNames : List String :=
  t.columns.map ColDef.name

end TableDef

end Pglite.Replica
