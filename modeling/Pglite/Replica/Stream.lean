import Pglite.Replica.Feed
import Pglite.Replica.Fingerprint

/-!
# A stream session

The variables of `stream_loop` in `src/replica/mod.rs` (the `expected` map, the relations and the
open transaction) and what a row change does to them. A row change becomes one statement in the
buffer of the open transaction, or ends the session with an error.
-/

namespace Pglite.Replica

/-- `DDL_SIGNAL_PREFIX`. -/
def ddlSignalPrefix : String := "pglite_ddl"

/-- `TxnBuf`. -/
structure TxnBuf where
  xid : UInt32
  commitTs : Int64
  stmts : List String
  changes : List RowChange
  deriving DecidableEq

/-- A statement and the changes it makes go to the buffer. -/
def TxnBuf.push (buf : TxnBuf) (stmt : String) (changes : List RowChange) : TxnBuf :=
  { buf with stmts := buf.stmts ++ [stmt], changes := buf.changes ++ changes }

/-- The variables of `stream_loop`. -/
structure Stream where
  expected : Expected
  rels : UInt32 → Option Rel
  txn : Option TxnBuf

namespace Stream

variable (s : Stream)

/-- `Replica::rel`. -/
def rel (relId : UInt32) : Except Error Rel :=
  match s.rels relId with
  | some rel => .ok rel
  | none => .error (.protocol s!"change for unknown relation id {relId.toNat}")

/-- `Replica::open_txn`. -/
def openTxn : Except Error TxnBuf :=
  match s.txn with
  | some buf => .ok buf
  | none => .error (.protocol "change outside of transaction")

/-- The buffer of the open transaction takes a statement. -/
def push (buf : TxnBuf) (stmt : String) (changes : List RowChange) : Stream :=
  { s with txn := some (buf.push stmt changes) }

/-- The `Insert` branch. -/
def onInsert (relId : UInt32) (new : TupleData) : Except Error Stream := do
  let rel ← s.rel relId
  let buf ← s.openTxn
  let (stmt, change) ← rel.insertSql new
  .ok (s.push buf stmt [change])

/-- The `Update` branch. -/
def onUpdate (relId : UInt32) (key old : Option TupleData) (new : TupleData) :
    Except Error Stream := do
  let rel ← s.rel relId
  let buf ← s.openTxn
  let (stmt, change) ← rel.updateSql key old new
  .ok (s.push buf stmt [change])

/-- The `Delete` branch. -/
def onDelete (relId : UInt32) (key old : Option TupleData) : Except Error Stream := do
  let rel ← s.rel relId
  let buf ← s.openTxn
  let (stmt, change) ← rel.deleteSql key old
  .ok (s.push buf stmt [change])

/-- The `Truncate` branch. -/
def onTruncate (relIds : List UInt32) : Except Error Stream := do
  let buf ← s.openTxn
  let rels ← relIds.mapM s.rel
  .ok (s.push buf (Rel.truncateSql rels) (rels.map Rel.truncateChange))

/-- The branches for row changes. -/
def onRow : PgOutputMsg → Except Error Stream
  | .insert relId new => s.onInsert relId new
  | .update relId key old new => s.onUpdate relId key old new
  | .delete relId key old => s.onDelete relId key old
  | .truncate relIds => s.onTruncate relIds
  | _ => .ok s

/-- The session after `Relation` has been accepted. -/
def addRel (relId : UInt32) (rel : Rel) : Stream :=
  { s with rels := Function.update s.rels relId (some rel) }

end Stream

/-! ## Rendering -/

/-- The statement and the changes that a row change becomes, with some relations known. -/
inductive Renders (known : UInt32 → Option Rel) :
    PgOutputMsg → String → List RowChange → Prop
  | insert {relId new rel stmt change} (hrel : known relId = some rel)
      (hsql : rel.insertSql new = .ok (stmt, change)) :
      Renders known (.insert relId new) stmt [change]
  | update {relId key old new rel stmt change} (hrel : known relId = some rel)
      (hsql : rel.updateSql key old new = .ok (stmt, change)) :
      Renders known (.update relId key old new) stmt [change]
  | delete {relId key old rel stmt change} (hrel : known relId = some rel)
      (hsql : rel.deleteSql key old = .ok (stmt, change)) :
      Renders known (.delete relId key old) stmt [change]
  | truncate {relIds rels} (hrels : List.Forall₂ (fun i r => known i = some r) relIds rels) :
      Renders known (.truncate relIds) (Rel.truncateSql rels) (rels.map Rel.truncateChange)

/-- The statements and the changes that a list of row changes becomes, one statement each. -/
def Rendered (rows : List PgOutputMsg) (stmts : List String) (changes : List RowChange) : Prop :=
  ∃ parts : List (String × List RowChange),
    List.Forall₂ (fun m part => ∃ known, Renders known m part.1 part.2) rows parts ∧
    stmts = parts.map Prod.fst ∧ changes = (parts.map Prod.snd).flatten

theorem Rendered.nil : Rendered [] [] [] :=
  ⟨[], .nil, rfl, rfl⟩

theorem Rendered.snoc {rows : List PgOutputMsg} {stmts : List String} {changes : List RowChange}
    (h : Rendered rows stmts changes) {known : UInt32 → Option Rel} {m : PgOutputMsg}
    {stmt : String} {more : List RowChange} (hm : Renders known m stmt more) :
    Rendered (rows ++ [m]) (stmts ++ [stmt]) (changes ++ more) := by
  obtain ⟨parts, hparts, rfl, rfl⟩ := h
  refine ⟨parts ++ [(stmt, more)], ?_, by simp, by simp⟩
  exact List.rel_append hparts (.cons ⟨known, hm⟩ .nil)

/-- There is a statement exactly if there is a row change. -/
theorem Rendered.stmts_eq_nil_iff {rows : List PgOutputMsg} {stmts : List String}
    {changes : List RowChange} (h : Rendered rows stmts changes) : stmts = [] ↔ rows = [] := by
  obtain ⟨parts, hparts, rfl, -⟩ := h
  have hlen := hparts.length_eq
  rw [List.map_eq_nil_iff, ← List.length_eq_zero_iff, ← List.length_eq_zero_iff, hlen]

theorem mapM_eq_ok {ε α β : Type} {f : α → Except ε β} {xs : List α} {ys : List β}
    (h : xs.mapM f = .ok ys) : List.Forall₂ (fun x y => f x = .ok y) xs ys := by
  induction xs generalizing ys with
  | nil =>
    obtain rfl : [] = ys := Except.ok.inj h
    exact .nil
  | cons x xs ih =>
    rw [List.mapM_cons] at h
    obtain ⟨y, hy, h⟩ := bind_eq_ok.1 h
    obtain ⟨ys', hys, h⟩ := bind_eq_ok.1 h
    obtain rfl : y :: ys' = ys := Except.ok.inj h
    exact .cons hy (ih hys)

namespace Stream

variable {s s' : Stream}

theorem rel_eq_ok {relId : UInt32} {rel : Rel} (h : s.rel relId = .ok rel) :
    s.rels relId = some rel := by
  unfold Stream.rel at h
  cases hrel : s.rels relId with
  | none => simp [hrel] at h
  | some rel' => simpa [hrel] using h

theorem openTxn_eq_ok {buf : TxnBuf} (h : s.openTxn = .ok buf) : s.txn = some buf := by
  unfold openTxn at h
  cases htxn : s.txn with
  | none => simp [htxn] at h
  | some buf' => simpa [htxn] using h

/-- A row change that is accepted becomes one more statement of the open transaction. -/
theorem onRow_eq_ok {m : PgOutputMsg} (hm : m.isRow = true) (h : s.onRow m = .ok s') :
    ∃ buf stmt changes, s.txn = some buf ∧ Renders s.rels m stmt changes ∧
      s' = s.push buf stmt changes := by
  cases m with
  | insert relId new =>
    obtain ⟨rel, hrel, h⟩ := bind_eq_ok.1 h
    obtain ⟨buf, hbuf, h⟩ := bind_eq_ok.1 h
    obtain ⟨⟨stmt, change⟩, hsql, h⟩ := bind_eq_ok.1 h
    exact ⟨buf, stmt, [change], openTxn_eq_ok hbuf, .insert (rel_eq_ok hrel) hsql,
      (Except.ok.inj h).symm⟩
  | update relId key old new =>
    obtain ⟨rel, hrel, h⟩ := bind_eq_ok.1 h
    obtain ⟨buf, hbuf, h⟩ := bind_eq_ok.1 h
    obtain ⟨⟨stmt, change⟩, hsql, h⟩ := bind_eq_ok.1 h
    exact ⟨buf, stmt, [change], openTxn_eq_ok hbuf, .update (rel_eq_ok hrel) hsql,
      (Except.ok.inj h).symm⟩
  | delete relId key old =>
    obtain ⟨rel, hrel, h⟩ := bind_eq_ok.1 h
    obtain ⟨buf, hbuf, h⟩ := bind_eq_ok.1 h
    obtain ⟨⟨stmt, change⟩, hsql, h⟩ := bind_eq_ok.1 h
    exact ⟨buf, stmt, [change], openTxn_eq_ok hbuf, .delete (rel_eq_ok hrel) hsql,
      (Except.ok.inj h).symm⟩
  | truncate relIds =>
    obtain ⟨buf, hbuf, h⟩ := bind_eq_ok.1 h
    obtain ⟨rels, hrels, h⟩ := bind_eq_ok.1 h
    have hknown := (mapM_eq_ok hrels).imp fun _ _ hrel => rel_eq_ok hrel
    exact ⟨buf, _, _, openTxn_eq_ok hbuf, .truncate hknown, (Except.ok.inj h).symm⟩
  | _ => exact absurd hm Bool.false_ne_true

end Stream

end Pglite.Replica
