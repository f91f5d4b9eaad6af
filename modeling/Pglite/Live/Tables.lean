import Mathlib.Data.List.Basic

/-!
# Notify triggers

A live query is told of a change by a statement trigger on each table it watches. The trigger
notifies the channel of its table, and `LISTEN` on that channel wakes the refresher.
-/

namespace Pglite.Live

/-- A table a live query watches: the oids of its schema and of itself, and their names. -/
structure Watched where
  schemaOid : UInt32
  tableOid : UInt32
  schemaName : String
  tableName : String
deriving DecidableEq

/-! ## What fires the trigger -/

/-- The events a statement trigger can be made for. -/
inductive TriggerEvent
  | insert
  | update
  | delete
  | truncate
deriving DecidableEq

def TriggerEvent.sql : TriggerEvent → String
  | .insert => "INSERT"
  | .update => "UPDATE"
  | .delete => "DELETE"
  | .truncate => "TRUNCATE"

/-- The events `trigger_ddl` names. -/
def triggerEvents : List TriggerEvent :=
  [.insert, .update, .delete]

/-- The statements that change the rows of a table. -/
inductive Kind
  | insert
  | update
  | delete
  | copy
  | truncate
deriving DecidableEq

/-- The trigger event of a statement. The server runs the insert triggers for `COPY`. -/
def Kind.event : Kind → TriggerEvent
  | .insert | .copy => .insert
  | .update => .update
  | .delete => .delete
  | .truncate => .truncate

/-- The statement fires the notify trigger of its table. -/
def Kind.fires (k : Kind) : Bool :=
  decide (k.event ∈ triggerEvents)

theorem Kind.fires_iff (k : Kind) : k.fires = true ↔ k ≠ .truncate := by
  cases k <;> decide

/-! ## The SQL -/

def channelName (schemaOid tableOid : UInt32) : String :=
  s!"table_change__{schemaOid}__{tableOid}"

/-- The trigger function notifies the channel that `live_query` listens to. -/
def triggerDdl (w : Watched) : String :=
  s!"CREATE OR REPLACE FUNCTION \"_notify_{w.schemaOid}_{w.tableOid}\"() RETURNS TRIGGER AS $$
BEGIN
  PERFORM pg_notify('table_change__{w.schemaOid}__{w.tableOid}', '');
  RETURN NULL;
END;
$$ LANGUAGE plpgsql;
CREATE OR REPLACE TRIGGER \"_notify_trigger_{w.schemaOid}_{w.tableOid}\"
AFTER " ++ " OR ".intercalate (triggerEvents.map TriggerEvent.sql) ++
  s!" ON \"{w.schemaName}\".\"{w.tableName}\"
FOR EACH STATEMENT EXECUTE FUNCTION \"_notify_{w.schemaOid}_{w.tableOid}\"();"

/-- What `unsubscribe` runs for a table that nobody watches any more. -/
def teardownDdl (w : Watched) : String :=
  s!"DROP TRIGGER IF EXISTS \"_notify_trigger_{w.schemaOid}_{w.tableOid}\" ON \"{w.schemaName}\".\"{w.tableName}\";
DROP FUNCTION IF EXISTS \"_notify_{w.schemaOid}_{w.tableOid}\"()"

end Pglite.Live
