import Pglite.ByteReader
import Pglite.Replica.RowSql

/-!
# Decoding pgoutput messages

`src/replica/pgoutput.rs`: the cursor with its readers, and `decode`. The upstream's side is
`PgOutputMsg.encode`, the bytes that the protocol has for a message.

**The allocator.** The decoder reserves room for the items of a list when it has read their number
and before it reads the first of them. A `Truncate` has four bytes for the number.

* One lemma for each kind of field says which bytes its reader reads (`codes_u32`, `codes_cstr`,
  `codes_tuple`, …). `codes_body` puts them together, message by message.
* `decode_inverts_encode_iff`: what is encoded is decoded, what is cut off is an error, and the
  decoder returns at all, exactly when the allocator grants what a `Truncate` reserves. It never
  reads outside its input.
-/

namespace Pglite.Replica

open ByteReader

/-! ## The cursor -/

abbrev Decoder (α : Type) := Reader Error α

/-- The allocator, by the requests that it grants. It has room for what a count of two bytes can
ask for. -/
structure Allocator where
  grants : Nat → Bool
  small : ∀ bytes ≤ 2 ^ 22, grants bytes = true

/-- Memory does not run out. -/
def Allocator.plenty : Allocator := ⟨fun _ => true, fun _ _ => rfl⟩

namespace Decoder

/-- `Vec::with_capacity`, for items of a size. -/
def withCapacity (a : Allocator) (size n : Nat) : Decoder Unit :=
  reserve a.grants (size * n)

/-- The sizes of a `CellValue`, a `RelColumn` and a relation id. -/
def cellSize : Nat := 24

def columnSize : Nat := 40

def relIdSize : Nat := 4

/-- A byte given as a character. -/
def byte (c : Char) : UInt8 :=
  UInt8.ofNat c.toNat

/-- `b as char`. -/
def asChar (b : UInt8) : Char :=
  Char.ofNat b.toNat

/-- `str::from_utf8`. -/
def fromUtf8 (bs : List UInt8) : Option String :=
  String.fromUTF8? ⟨bs.toArray⟩

/-- `Cursor::take`. -/
def take (n : Nat) : Decoder (List UInt8) := fun c =>
  if c.pos + n > c.buf.length then .error (.error (.protocol "truncated pgoutput message"))
  else (slice c.buf c.pos (c.pos + n)).map fun out => (out, { c with pos := c.pos + n })

/-- `Cursor::u8`. -/
def u8 : Decoder UInt8 := do
  match ← take 1 with
  | [] => crash
  | b :: _ => pure b

/-- The bytes of a number as an array of its width. -/
def number (width : Nat) : Decoder Nat := do
  let bs ← take width
  if bs.length = width then pure (fromBe bs) else crash

/-- `Cursor::u16`. -/
def u16 : Decoder UInt16 := do
  pure (UInt16.ofNat (← number 2))

/-- `Cursor::u32`. -/
def u32 : Decoder UInt32 := do
  pure (UInt32.ofNat (← number 4))

/-- `Cursor::i32`. -/
def i32 : Decoder Int32 := do
  pure (UInt32.ofNat (← number 4)).toInt32

/-- `Cursor::u64`. -/
def u64 : Decoder Lsn := do
  pure (Fin.ofNat (2 ^ 64) (← number 8))

/-- `Cursor::i64`. -/
def i64 : Decoder Int64 := do
  pure (UInt64.ofNat (← number 8)).toInt64

/-- `Cursor::cstr`. -/
def cstr : Decoder String := fun c => do
  let rest ← slice c.buf c.pos c.buf.length
  match rest.findIdx? (fun b => decide (b = 0)) with
  | none => .error (.error (.protocol "unterminated string in pgoutput message"))
  | some nul =>
    let bs ← slice rest 0 nul
    match fromUtf8 bs with
    | none => .error (.error (.protocol "non-utf8 string in pgoutput message"))
    | some s => .ok (s, { c with pos := c.pos + (nul + 1) })

/-- The bytes as the text of a cell. -/
def cellText (bs : List UInt8) : Decoder CellValue :=
  match fromUtf8 bs with
  | none => fail (.protocol "non-utf8 tuple cell")
  | some s => pure (.text s)

/-- The body of the loop in `Cursor::tuple`. -/
def cell : Decoder CellValue := do
  let kind ← u8
  if kind = byte 'n' then pure .null
  else if kind = byte 'u' then pure .unchangedToast
  else if kind = byte 't' then do
    let len ← i32
    if len < 0 then fail (.protocol "negative tuple cell length")
    else do cellText (← take len.toNatClampNeg)
  else fail (.protocol s!"unsupported tuple cell kind: {asChar kind}")

/-- `Cursor::tuple`. -/
def tuple (a : Allocator) : Decoder TupleData := do
  let ncols ← u16
  withCapacity a cellSize ncols.toNat
  times cell ncols.toNat

/-! ## Messages -/

/-- A column of a `Relation` message. -/
def column : Decoder RelColumn := do
  let flags ← u8
  let name ← cstr
  let typeOid ← u32
  let typeModifier ← i32
  pure ⟨flags, name, typeOid, typeModifier⟩

/-- The branch of `decode` for an `Update`, behind its relation. -/
def updateTuples (a : Allocator) (relId : UInt32) : Decoder PgOutputMsg := do
  let marker ← u8
  let (key, old, marker) ←
    if marker = byte 'K' then do pure (some (← tuple a), none, ← u8)
    else if marker = byte 'O' then do pure (none, some (← tuple a), ← u8)
    else pure (none, none, marker)
  if marker ≠ byte 'N' then fail (.protocol "update without new tuple")
  else do pure (.update relId key old (← tuple a))

/-- The branches of `decode`. -/
def body (a : Allocator) (tag : UInt8) : Decoder PgOutputMsg :=
  if tag = byte 'B' then do
    let finalLsn ← u64
    let commitTs ← i64
    let xid ← u32
    pure (.begin finalLsn commitTs xid)
  else if tag = byte 'C' then do
    let _flags ← u8
    let commitLsn ← u64
    let endLsn ← u64
    let commitTs ← i64
    pure (.commit commitLsn endLsn commitTs)
  else if tag = byte 'R' then do
    let relId ← u32
    let ns ← cstr
    let name ← cstr
    let replicaIdentity ← u8
    let ncols ← u16
    withCapacity a columnSize ncols.toNat
    let columns ← times column ncols.toNat
    pure (.relation relId ns name replicaIdentity columns)
  else if tag = byte 'I' then do
    let relId ← u32
    let marker ← u8
    if marker ≠ byte 'N' then fail (.protocol "insert without new tuple")
    else do pure (.insert relId (← tuple a))
  else if tag = byte 'U' then do
    updateTuples a (← u32)
  else if tag = byte 'D' then do
    let relId ← u32
    let marker ← u8
    if marker = byte 'K' then do pure (.delete relId (some (← tuple a)) none)
    else if marker = byte 'O' then do pure (.delete relId none (some (← tuple a)))
    else fail (.protocol "delete without key or old tuple")
  else if tag = byte 'T' then do
    let nrels ← u32
    let _options ← u8
    -- Four bytes of the input are enough to ask for 16 GiB here.
    withCapacity a relIdSize nrels.toNat
    let relIds ← times u32 nrels.toNat
    pure (.truncate relIds)
  else if tag = byte 'M' then do
    let _flags ← u8
    let _lsn ← u64
    let msgPrefix ← cstr
    let len ← i32
    if len < 0 then fail (.protocol "negative logical message length")
    else do pure (.message msgPrefix (← take len.toNatClampNeg))
  else if tag = byte 'O' ∨ tag = byte 'Y' then pure .other
  else fail (.protocol s!"unknown pgoutput message tag: {asChar tag}")

end Decoder

/-- `decode`. Bytes behind the message are not looked at. -/
def decode (a : Allocator) (data : List UInt8) : Except (Stop Error) PgOutputMsg :=
  ((do Decoder.body a (← Decoder.u8) : Decoder PgOutputMsg) ⟨data, 0⟩).map Prod.fst

/-! ## The protocol -/

/-- The bytes of a text. -/
def utf8 (s : String) : List UInt8 :=
  s.toUTF8.data.toList

def cstrBytes (s : String) : List UInt8 :=
  utf8 s ++ [0]

/-- A byte count or a number of items before what it counts. -/
def counted (width : Nat) (n : Nat) (bs : List UInt8) : List UInt8 :=
  toBe width n ++ bs

def cellBytes : CellValue → List UInt8
  | .null => [Decoder.byte 'n']
  | .unchangedToast => [Decoder.byte 'u']
  | .text s => [Decoder.byte 't'] ++ counted 4 (utf8 s).length (utf8 s)

def tupleBytes (t : TupleData) : List UInt8 :=
  counted 2 t.length (t.flatMap cellBytes)

def columnBytes (col : RelColumn) : List UInt8 :=
  [col.flags] ++ (cstrBytes col.name ++
    (toBe 4 col.typeOid.toNat ++ toBe 4 col.typeModifier.toUInt32.toNat))

/-- The old tuple of an update or a delete, behind its marker. -/
def oldBytes (key old : Option TupleData) : List UInt8 :=
  match key, old with
  | some key, _ => [Decoder.byte 'K'] ++ tupleBytes key
  | none, some old => [Decoder.byte 'O'] ++ tupleBytes old
  | none, none => []

/-- The fields that the protocol has and the decoder skips. -/
structure Skipped where
  flags : UInt8
  options : UInt8
  lsn : Lsn

/-- The bytes of a message. -/
def PgOutputMsg.encode (skipped : Skipped) : PgOutputMsg → List UInt8
  | .begin finalLsn commitTs xid =>
    [Decoder.byte 'B'] ++ (toBe 8 finalLsn.val ++
      (toBe 8 commitTs.toUInt64.toNat ++ toBe 4 xid.toNat))
  | .commit commitLsn endLsn commitTs =>
    [Decoder.byte 'C'] ++ ([skipped.flags] ++ (toBe 8 commitLsn.val ++
      (toBe 8 endLsn.val ++ toBe 8 commitTs.toUInt64.toNat)))
  | .relation relId ns name replicaIdentity columns =>
    [Decoder.byte 'R'] ++ (toBe 4 relId.toNat ++ (cstrBytes ns ++ (cstrBytes name ++
      ([replicaIdentity] ++ counted 2 columns.length (columns.flatMap columnBytes)))))
  | .insert relId new =>
    [Decoder.byte 'I'] ++ (toBe 4 relId.toNat ++ ([Decoder.byte 'N'] ++ tupleBytes new))
  | .update relId key old new =>
    [Decoder.byte 'U'] ++ (toBe 4 relId.toNat ++
      (oldBytes key old ++ ([Decoder.byte 'N'] ++ tupleBytes new)))
  | .delete relId key old =>
    [Decoder.byte 'D'] ++ (toBe 4 relId.toNat ++ oldBytes key old)
  | .truncate relIds =>
    [Decoder.byte 'T'] ++ (toBe 4 relIds.length ++ ([skipped.options] ++
      relIds.flatMap fun relId => toBe 4 relId.toNat))
  | .message msgPrefix content =>
    [Decoder.byte 'M'] ++ ([skipped.flags] ++ (toBe 8 skipped.lsn.val ++
      (cstrBytes msgPrefix ++ counted 4 content.length content)))
  | .other => [Decoder.byte 'O']

/-- A name has no byte that would end it. -/
def NulFree (s : String) : Prop :=
  0 ∉ utf8 s

/-- A tuple fits its counts. -/
structure TupleData.Fits (t : TupleData) : Prop where
  cells : t.length < 2 ^ 16
  text : ∀ s, .text s ∈ t → (utf8 s).length < 2 ^ 31

/-- The message fits its counts, and has the tuples that its kind has. -/
def PgOutputMsg.Fits : PgOutputMsg → Prop
  | .begin _ _ _ => True
  | .commit _ _ _ => True
  | .relation _ ns name _ columns =>
    NulFree ns ∧ NulFree name ∧ columns.length < 2 ^ 16 ∧ ∀ col ∈ columns, NulFree col.name
  | .insert _ new => new.Fits
  | .update _ key old new =>
    (key = none ∨ old = none) ∧ (∀ t ∈ key, t.Fits) ∧ (∀ t ∈ old, t.Fits) ∧ new.Fits
  | .delete _ key old =>
    (key = none ↔ old ≠ none) ∧ (∀ t ∈ key, t.Fits) ∧ ∀ t ∈ old, t.Fits
  | .truncate relIds => relIds.length < 2 ^ 32
  | .message msgPrefix content => NulFree msgPrefix ∧ content.length < 2 ^ 31
  | .other => False

/-! ## Fields -/

namespace Decoder

theorem fromUtf8_utf8 (s : String) : fromUtf8 (utf8 s) = some s := by
  have hbytes : (⟨(utf8 s).toArray⟩ : ByteArray) = s.toByteArray := by simp [utf8]
  rw [fromUtf8, hbytes, String.fromUTF8?, dif_pos s.isValidUTF8]
  rfl

/-- What is not in the input cannot be taken. -/
theorem take_of_lt {n : Nat} {c : ByteReader.Cursor} (h : c.buf.length < c.pos + n) :
    ∃ e, take n c = .error (.error e) :=
  ⟨_, if_pos h⟩

theorem take_of_le {n : Nat} {c : ByteReader.Cursor} (h : c.pos + n ≤ c.buf.length) :
    take n c = .ok ((c.buf.drop c.pos).take n, { c with pos := c.pos + n }) := by
  rw [take, if_neg (by omega), slice, if_pos (by omega), Nat.add_sub_cancel_left]
  rfl

theorem codes_take (bs : List UInt8) : Codes (take bs.length) bs bs where
  reads pre post := by
    rw [take_of_le (by simp)]
    simp
  refuses pre cut hcut hne := by
    have hlt : cut.length < bs.length := by
      refine lt_of_le_of_ne hcut.length_le fun hlen => hne ?_
      exact hcut.eq_of_length hlen
    exact take_of_lt (by simpa using hlt)

theorem codes_u8 (b : UInt8) : Codes u8 [b] b := by
  have hseq : Codes u8 ([b] ++ []) b := (codes_take [b]).bind (codes_pure b)
  rwa [List.append_nil] at hseq

theorem codes_number (width : Nat) {n : Nat} (h : n < 256 ^ width) :
    Codes (number width) (toBe width n) n := by
  have htake := codes_take (toBe width n)
  rw [length_toBe] at htake
  have hbody : Codes (if (toBe width n).length = width then pure (fromBe (toBe width n))
      else crash : Decoder Nat) [] n := by
    rw [if_pos (length_toBe width n), fromBe_toBe h]
    exact codes_pure n
  have hseq : Codes (number width) (toBe width n ++ []) n := htake.bind hbody
  rwa [List.append_nil] at hseq

theorem codes_u16 {n : Nat} (h : n < 2 ^ 16) : Codes u16 (toBe 2 n) (UInt16.ofNat n) :=
  (codes_number 2 h).map UInt16.ofNat

theorem codes_u32_ofNat {n : Nat} (h : n < 2 ^ 32) : Codes u32 (toBe 4 n) (UInt32.ofNat n) :=
  (codes_number 4 h).map UInt32.ofNat

theorem codes_u32 (x : UInt32) : Codes u32 (toBe 4 x.toNat) x := by
  have hread := codes_u32_ofNat x.toNat_lt
  rwa [UInt32.ofNat_toNat] at hread

theorem codes_i32_ofNat {n : Nat} (h : n < 2 ^ 32) : Codes i32 (toBe 4 n) (Int32.ofNat n) :=
  (codes_number 4 h).map fun n => (UInt32.ofNat n).toInt32

theorem codes_i32 (x : Int32) : Codes i32 (toBe 4 x.toUInt32.toNat) x := by
  have hread := (codes_number 4 x.toUInt32.toNat_lt).map fun n => (UInt32.ofNat n).toInt32
  rwa [UInt32.ofNat_toNat, Int32.toInt32_toUInt32] at hread

theorem codes_u64 (x : Lsn) : Codes u64 (toBe 8 x.val) x := by
  have hread := (codes_number 8 x.isLt).map (Fin.ofNat (2 ^ 64))
  rwa [Fin.ofNat_val_eq_self] at hread

theorem codes_i64 (x : Int64) : Codes i64 (toBe 8 x.toUInt64.toNat) x := by
  have hread := (codes_number 8 x.toUInt64.toNat_lt).map fun n => (UInt64.ofNat n).toInt64
  rwa [UInt64.ofNat_toNat, Int64.toInt64_toUInt64] at hread

/-- The first end byte. -/
theorem findIdx_end {bs : List UInt8} (h : 0 ∉ bs) (post : List UInt8) :
    (bs ++ 0 :: post).findIdx? (fun b => decide (b = 0)) = some bs.length := by
  induction bs with
  | nil => rfl
  | cons b bs ih =>
    obtain ⟨hb, hbs⟩ := List.ne_and_not_mem_of_not_mem_cons h
    simp [List.findIdx?_cons, Ne.symm hb, ih hbs]

theorem findIdx_none {bs : List UInt8} (h : 0 ∉ bs) :
    bs.findIdx? (fun b => decide (b = 0)) = none := by
  rw [List.findIdx?_eq_none_iff]
  intro b hb
  exact decide_eq_false fun hzero => h (hzero ▸ hb)

theorem codes_cstr {s : String} (h : NulFree s) : Codes cstr (cstrBytes s) s where
  reads pre post := by
    have hfind : (cstrBytes s ++ post).findIdx? (fun b => decide (b = 0)) =
        some (utf8 s).length := by
      rw [cstrBytes, List.append_assoc]
      exact findIdx_end h post
    have hslice : slice (cstrBytes s ++ post) 0 (utf8 s).length =
        (.ok (utf8 s) : Except (Stop Error) (List UInt8)) := by
      rw [slice, if_pos (by simp [cstrBytes])]
      simp [cstrBytes]
    simp only [cstr, slice_end, bind, Except.bind, hfind, hslice, fromUtf8_utf8]
    simp [cstrBytes]
  refuses pre cut hcut hne := by
    have hcut' : cut <+: utf8 s := by
      rcases List.prefix_concat_iff.1 hcut with heq | hcut
      · exact absurd heq hne
      · exact hcut
    have hnone := findIdx_none fun hmem => h (hcut'.subset hmem)
    refine ⟨.protocol "unterminated string in pgoutput message", ?_⟩
    simp only [cstr, slice_end, bind, Except.bind, hnone]

theorem codes_cellText (s : String) : Codes (cellText (utf8 s)) [] (.text s) := by
  rw [cellText, fromUtf8_utf8]
  exact codes_pure _

/-- A count that is read as a signed number. -/
theorem codes_counted {n : Nat} (hn : n < 2 ^ 31) {α : Type} {e : Error} {k : Nat → Decoder α}
    {bs : List UInt8} {x : α} (hk : Codes (k n) bs x) :
    Codes (do
      let len ← i32
      if len < 0 then fail e else k len.toNatClampNeg) (counted 4 n bs) x := by
  refine (codes_i32_ofNat (by omega)).bind ?_
  have hnot : ¬ Int32.ofNat n < 0 := by
    rw [Int32.lt_iff_toInt_lt, Int32.toInt_ofNat_of_lt hn]
    simp
  rw [if_neg hnot, Int32.toNatClampNeg_ofNat_of_lt hn]
  exact hk

theorem codes_cell {c : CellValue} (h : ∀ s, c = .text s → (utf8 s).length < 2 ^ 31) :
    Codes cell (cellBytes c) c := by
  cases c with
  | null =>
    have hseq : Codes cell ([byte 'n'] ++ []) .null :=
      (codes_u8 (byte 'n')).bind (codes_pure _)
    exact hseq
  | unchangedToast =>
    have hseq : Codes cell ([byte 'u'] ++ []) .unchangedToast :=
      (codes_u8 (byte 'u')).bind (codes_pure _)
    exact hseq
  | text s =>
    have htext : Codes (do cellText (← take (utf8 s).length)) (utf8 s ++ []) (.text s) :=
      (codes_take (utf8 s)).bind (codes_cellText s)
    rw [List.append_nil] at htext
    have hcounted := codes_counted (h s rfl) (e := .protocol "negative tuple cell length")
      (k := fun n => do cellText (← take n)) htext
    exact (codes_u8 (byte 't')).bind hcounted

/-- A count of two bytes asks for little. -/
theorem grants_small (a : Allocator) {size n : Nat} (hsize : size ≤ columnSize) (hn : n < 2 ^ 16) :
    a.grants (size * n) = true :=
  a.small _ ((Nat.mul_le_mul hsize (Nat.le_of_lt hn)).trans (by decide))

theorem codes_tuple (a : Allocator) {t : TupleData} (h : t.Fits) :
    Codes (tuple a) (tupleBytes t) t := by
  have hcells : ∀ c ∈ t, Codes cell (cellBytes c) c := by
    intro c hc
    refine codes_cell fun s hs => h.text s ?_
    rwa [← hs]
  refine (codes_u16 h.cells).bind ?_
  rw [UInt16.toNat_ofNat_of_lt' h.cells]
  exact (codes_reserve (grants_small a (by decide) h.cells)).bind (codes_times hcells)

theorem codes_column {col : RelColumn} (h : NulFree col.name) :
    Codes column (columnBytes col) col := by
  refine (codes_u8 col.flags).bind ((codes_cstr h).bind ((codes_u32 col.typeOid).bind ?_))
  exact (codes_i32 col.typeModifier).map fun m => (⟨col.flags, col.name, col.typeOid, m⟩ : RelColumn)

/-! ## Messages -/

/-- The new tuple, behind its marker. -/
theorem codes_newTuple (a : Allocator) {new : TupleData} (h : new.Fits) (e : Error)
    (f : TupleData → PgOutputMsg) :
    Codes (if byte 'N' ≠ byte 'N' then fail e else do pure (f (← tuple a)) : Decoder PgOutputMsg)
      (tupleBytes new) (f new) := by
  rw [if_neg (by simp)]
  exact (codes_tuple a h).map f

theorem codes_updateTuples (a : Allocator) {relId : UInt32} {key old : Option TupleData} {new : TupleData}
    (h : (PgOutputMsg.update relId key old new).Fits) :
    Codes (updateTuples a relId) (oldBytes key old ++ ([byte 'N'] ++ tupleBytes new))
      (.update relId key old new) := by
  obtain ⟨hone, hkey, hold, hnew⟩ := h
  have hend := fun key old => codes_newTuple a hnew (.protocol "update without new tuple")
    fun new => .update relId key old new
  cases key with
  | some key =>
    obtain rfl : old = none := by simpa using hone
    rw [oldBytes, List.append_assoc]
    refine (codes_u8 (byte 'K')).bind ((codes_tuple a (hkey key rfl)).bind
      ((codes_u8 (byte 'N')).bind ?_))
    exact hend (some key) none
  | none =>
    cases old with
    | some old =>
      rw [oldBytes, List.append_assoc]
      refine (codes_u8 (byte 'O')).bind ((codes_tuple a (hold old rfl)).bind
        ((codes_u8 (byte 'N')).bind ?_))
      exact hend none (some old)
    | none => exact (codes_u8 (byte 'N')).bind (hend none none)

/-- **The bytes of a message code it**, if there is room for the relations of a `Truncate`. -/
theorem codes_body (a : Allocator) (skipped : Skipped) {m : PgOutputMsg} (h : m.Fits)
    (hroom : ∀ relIds, m = .truncate relIds → a.grants (relIdSize * relIds.length) = true) :
    Codes (do body a (← u8)) (m.encode skipped) m := by
  cases m with
  | begin finalLsn commitTs xid =>
    refine (codes_u8 (byte 'B')).bind ((codes_u64 finalLsn).bind ((codes_i64 commitTs).bind ?_))
    exact (codes_u32 xid).map fun xid => PgOutputMsg.begin finalLsn commitTs xid
  | commit commitLsn endLsn commitTs =>
    refine (codes_u8 (byte 'C')).bind ((codes_u8 skipped.flags).bind
      ((codes_u64 commitLsn).bind ((codes_u64 endLsn).bind ?_)))
    exact (codes_i64 commitTs).map fun ts => PgOutputMsg.commit commitLsn endLsn ts
  | relation relId ns name replicaIdentity columns =>
    obtain ⟨hns, hname, hlen, hcolumns⟩ := h
    refine (codes_u8 (byte 'R')).bind ((codes_u32 relId).bind ((codes_cstr hns).bind
      ((codes_cstr hname).bind ((codes_u8 replicaIdentity).bind ((codes_u16 hlen).bind ?_)))))
    rw [UInt16.toNat_ofNat_of_lt' hlen]
    refine (codes_reserve (grants_small a le_rfl hlen)).bind ?_
    exact (codes_times fun col hcol => codes_column (hcolumns col hcol)).map
      fun columns => PgOutputMsg.relation relId ns name replicaIdentity columns
  | insert relId new =>
    refine (codes_u8 (byte 'I')).bind ((codes_u32 relId).bind ((codes_u8 (byte 'N')).bind ?_))
    exact codes_newTuple a h _ fun new => .insert relId new
  | update relId key old new =>
    refine (codes_u8 (byte 'U')).bind ((codes_u32 relId).bind ?_)
    exact codes_updateTuples a h
  | delete relId key old =>
    obtain ⟨hone, hkey, hold⟩ := h
    refine (codes_u8 (byte 'D')).bind ((codes_u32 relId).bind ?_)
    cases key with
    | some key =>
      obtain rfl : old = none := by simpa using hone
      refine (codes_u8 (byte 'K')).bind ?_
      exact (codes_tuple a (hkey key rfl)).map fun t => PgOutputMsg.delete relId (some t) none
    | none =>
      cases old with
      | some old =>
        refine (codes_u8 (byte 'O')).bind ?_
        exact (codes_tuple a (hold old rfl)).map fun t => PgOutputMsg.delete relId none (some t)
      | none => exact absurd rfl (hone.1 rfl)
  | truncate relIds =>
    refine (codes_u8 (byte 'T')).bind ((codes_u32_ofNat h).bind
      ((codes_u8 skipped.options).bind ?_))
    rw [UInt32.toNat_ofNat_of_lt' h]
    refine (codes_reserve (hroom relIds rfl)).bind ?_
    exact (codes_times fun relId _ => codes_u32 relId).map PgOutputMsg.truncate
  | message msgPrefix content =>
    obtain ⟨hnul, hlen⟩ := h
    refine (codes_u8 (byte 'M')).bind ((codes_u8 skipped.flags).bind
      ((codes_u64 skipped.lsn).bind ((codes_cstr hnul).bind ?_)))
    have hcontent := (codes_take content).map fun content => PgOutputMsg.message msgPrefix content
    exact codes_counted hlen
      (k := fun n => do pure (PgOutputMsg.message msgPrefix (← take n))) hcontent
  | other => cases h

/-! ## Safety -/

theorem safe_take (n : Nat) : Safe (take n) := by
  intro c _
  by_cases hlen : c.pos + n ≤ c.buf.length
  · exact .inl ⟨_, _, take_of_le hlen, hlen⟩
  · exact .inr (take_of_lt (Nat.lt_of_not_le hlen))

/-- What is taken has the length that was asked for. -/
theorem length_of_take {n : Nat} {c c' : ByteReader.Cursor} {bs : List UInt8}
    (h : take n c = .ok (bs, c')) : bs.length = n := by
  by_cases hlen : c.pos + n ≤ c.buf.length
  · rw [take_of_le hlen] at h
    cases h
    simp
    omega
  · obtain ⟨e, he⟩ := take_of_lt (Nat.lt_of_not_le hlen)
    rw [he] at h
    cases h

theorem safe_u8 : Safe u8 := by
  refine (safe_take 1).bind_of fun c bs c' h => ?_
  have hlen := length_of_take h
  cases bs with
  | nil => cases hlen
  | cons b bs => exact safe_pure b

theorem safe_number (width : Nat) : Safe (number width) := by
  refine (safe_take width).bind_of fun c bs c' h => ?_
  rw [if_pos (length_of_take h)]
  exact safe_pure _

theorem safe_u16 : Safe u16 := (safe_number 2).map _

theorem safe_u32 : Safe u32 := (safe_number 4).map _

theorem safe_i32 : Safe i32 := (safe_number 4).map _

theorem safe_u64 : Safe u64 := (safe_number 8).map _

theorem safe_i64 : Safe i64 := (safe_number 8).map _

/-- A name is read up to a byte of the input, or it is an error. -/
theorem cstr_cases {c : ByteReader.Cursor} (hc : c.pos ≤ c.buf.length) :
    (∃ e, cstr c = .error (.error e)) ∨
      ∃ s nul, nul < c.buf.length - c.pos ∧
        cstr c = .ok (s, { c with pos := c.pos + (nul + 1) }) := by
  have hrest : slice c.buf c.pos c.buf.length =
      (.ok (c.buf.drop c.pos) : Except (Stop Error) (List UInt8)) := by
    rw [slice, if_pos ⟨hc, le_rfl⟩, List.take_of_length_le (by simp)]
  cases hfind : (c.buf.drop c.pos).findIdx? (fun b => decide (b = 0)) with
  | none =>
    refine .inl ⟨.protocol "unterminated string in pgoutput message", ?_⟩
    simp only [cstr, hrest, bind, Except.bind, hfind]
  | some nul =>
    obtain ⟨hnul, -⟩ := List.findIdx?_eq_some_iff_getElem.1 hfind
    have hname : slice (c.buf.drop c.pos) 0 nul =
        (.ok ((c.buf.drop c.pos).take nul) : Except (Stop Error) (List UInt8)) := by
      rw [slice, if_pos ⟨Nat.zero_le _, hnul.le⟩, List.drop_zero, Nat.sub_zero]
    cases hutf8 : fromUtf8 ((c.buf.drop c.pos).take nul) with
    | none =>
      refine .inl ⟨.protocol "non-utf8 string in pgoutput message", ?_⟩
      simp only [cstr, hrest, bind, Except.bind, hfind, hname, hutf8]
    | some s =>
      refine .inr ⟨s, nul, by simpa using hnul, ?_⟩
      simp only [cstr, hrest, bind, Except.bind, hfind, hname, hutf8]

theorem safe_cstr : Safe cstr := by
  intro c hc
  rcases cstr_cases hc with herror | ⟨s, nul, hnul, hs⟩
  · exact .inr herror
  · exact .inl ⟨s, _, hs, by dsimp only; omega⟩

theorem safe_cellText (bs : List UInt8) : Safe (cellText bs) := by
  unfold cellText
  split
  · exact safe_fail _
  · exact safe_pure _

theorem safe_cell : Safe cell := by
  refine safe_u8.bind fun kind => ?_
  refine (safe_pure _).ite ((safe_pure _).ite (Safe.ite ?_ (safe_fail _)))
  refine safe_i32.bind fun len => (safe_fail _).ite ?_
  exact (safe_take _).bind safe_cellText

theorem safe_tuple (a : Allocator) : Safe (tuple a) :=
  safe_u16.bind fun ncols => (safe_reserve (grants_small a (by decide) ncols.toNat_lt)).bind
    fun _ => safe_times safe_cell ncols.toNat

theorem safe_column : Safe column :=
  safe_u8.bind fun _ => safe_cstr.bind fun _ => safe_u32.bind fun _ => safe_i32.map _

theorem safe_newTuple (a : Allocator) (marker : UInt8) (e : Error) (f : TupleData → PgOutputMsg) :
    Safe (if marker ≠ byte 'N' then fail e else do pure (f (← tuple a)) : Decoder PgOutputMsg) :=
  (safe_fail e).ite ((safe_tuple a).map f)

theorem safe_updateTuples (a : Allocator) (relId : UInt32) : Safe (updateTuples a relId) := by
  refine safe_u8.bind fun marker => ?_
  have hend := fun key old marker => safe_newTuple a marker
    (.protocol "update without new tuple") fun new => .update relId key old new
  refine Safe.ite ?_ (Safe.ite ?_ (hend none none marker))
  · exact (safe_tuple a).bind fun key => safe_u8.bind fun marker => hend (some key) none marker
  · exact (safe_tuple a).bind fun old => safe_u8.bind fun marker => hend none (some old) marker

/-- Nothing but a `Truncate` asks for more than two bytes can count. -/
theorem safe_body (a : Allocator) {tag : UInt8} (htag : tag ≠ byte 'T') : Safe (body a tag) := by
  unfold body
  rw [if_neg htag]
  refine Safe.ite ?_ (Safe.ite ?_ (Safe.ite ?_ (Safe.ite ?_ (Safe.ite ?_ (Safe.ite ?_
    (Safe.ite ?_ ((safe_pure _).ite (safe_fail _))))))))
  · exact safe_u64.bind fun _ => safe_i64.bind fun _ => safe_u32.map _
  · exact safe_u8.bind fun _ => safe_u64.bind fun _ => safe_u64.bind fun _ => safe_i64.map _
  · exact safe_u32.bind fun _ => safe_cstr.bind fun _ => safe_cstr.bind fun _ =>
      safe_u8.bind fun _ => safe_u16.bind fun ncols =>
      (safe_reserve (grants_small a le_rfl ncols.toNat_lt)).bind fun _ =>
      (safe_times safe_column _).map _
  · exact safe_u32.bind fun _ => safe_u8.bind fun marker => safe_newTuple a marker _ _
  · exact safe_u32.bind (safe_updateTuples a)
  · exact safe_u32.bind fun _ => safe_u8.bind fun _ =>
      ((safe_tuple a).map _).ite (((safe_tuple a).map _).ite (safe_fail _))
  · exact safe_u8.bind fun _ => safe_u64.bind fun _ => safe_cstr.bind fun _ =>
      safe_i32.bind fun _ => (safe_fail _).ite ((safe_take _).map _)

/-! ## The relations of a truncate -/

theorem u8_of_lt {c : ByteReader.Cursor} (h : c.pos < c.buf.length) :
    u8 c = .ok (c.buf[c.pos], { c with pos := c.pos + 1 }) := by
  rw [u8, bind_apply, take_of_le h, List.drop_eq_getElem_cons h]
  rfl

theorem u32_of_le {c : ByteReader.Cursor} (h : c.pos + 4 ≤ c.buf.length) :
    u32 c = .ok (UInt32.ofNat (fromBe ((c.buf.drop c.pos).take 4)),
      { c with pos := c.pos + 4 }) := by
  have hlen : ((c.buf.drop c.pos).take 4).length = 4 := by
    rw [List.length_take, List.length_drop]
    omega
  rw [u32, number, bind_apply, bind_apply, take_of_le h]
  simp only [Except.bind, hlen, if_true]
  rfl

/-- How much a message reserves for relation ids: it is a `Truncate` that has its count and its
options. -/
def reserved : List UInt8 → Nat
  | tag :: b₁ :: b₂ :: b₃ :: b₄ :: _ :: _ =>
    if tag = byte 'T' then relIdSize * fromBe [b₁, b₂, b₃, b₄] else 0
  | _ => 0

/-- Too few bytes for a count and the options are an error. -/
theorem body_truncate_short (a : Allocator) {data : List UInt8} (h : data.length < 6) :
    ∃ e, body a (byte 'T') ⟨data, 1⟩ = .error (.error e) := by
  have hread : body a (byte 'T') ⟨data, 1⟩ = (u32 >>= fun nrels => u8 >>= fun _ =>
      withCapacity a relIdSize nrels.toNat >>= fun _ => times u32 nrels.toNat >>= fun relIds =>
      pure (.truncate relIds) : Decoder PgOutputMsg) ⟨data, 1⟩ := rfl
  by_cases hcount : 1 + 4 ≤ data.length
  · obtain ⟨e, he⟩ : ∃ e, take 1 ⟨data, 1 + 4⟩ = .error (.error e) := take_of_lt (by
      dsimp only
      omega)
    refine ⟨e, ?_⟩
    rw [hread, bind_apply, u32_of_le hcount, Except.bind, bind_apply, u8, bind_apply, he]
    rfl
  · obtain ⟨e, he⟩ : ∃ e, take 4 ⟨data, 1⟩ = .error (.error e) := take_of_lt (by
      dsimp only
      omega)
    refine ⟨e, ?_⟩
    rw [hread, bind_apply, u32, number, bind_apply, bind_apply, he]
    rfl

/-- Behind them, a `Truncate` asks the allocator. -/
theorem body_truncate (a : Allocator) (b₁ b₂ b₃ b₄ options : UInt8) (rest : List UInt8) :
    body a (byte 'T') ⟨byte 'T' :: b₁ :: b₂ :: b₃ :: b₄ :: options :: rest, 1⟩ =
      (withCapacity a relIdSize (fromBe [b₁, b₂, b₃, b₄]) >>= fun _ =>
        times u32 (fromBe [b₁, b₂, b₃, b₄]) >>= fun relIds =>
        pure (.truncate relIds) : Decoder PgOutputMsg)
      ⟨byte 'T' :: b₁ :: b₂ :: b₃ :: b₄ :: options :: rest, 6⟩ := by
  have hread : body a (byte 'T') ⟨byte 'T' :: b₁ :: b₂ :: b₃ :: b₄ :: options :: rest, 1⟩ =
      (u32 >>= fun nrels => u8 >>= fun _ =>
      withCapacity a relIdSize nrels.toNat >>= fun _ => times u32 nrels.toNat >>= fun relIds =>
      pure (.truncate relIds) : Decoder PgOutputMsg)
      ⟨byte 'T' :: b₁ :: b₂ :: b₃ :: b₄ :: options :: rest, 1⟩ := rfl
  have hlt : fromBe [b₁, b₂, b₃, b₄] < 256 ^ 4 := fromBe_lt _
  have hcount : (UInt32.ofNat (fromBe [b₁, b₂, b₃, b₄])).toNat = fromBe [b₁, b₂, b₃, b₄] :=
    UInt32.toNat_ofNat_of_lt' (lt_of_lt_of_le hlt (by decide))
  have hu32 : u32 ⟨byte 'T' :: b₁ :: b₂ :: b₃ :: b₄ :: options :: rest, 1⟩ =
      .ok (UInt32.ofNat (fromBe [b₁, b₂, b₃, b₄]),
        ⟨byte 'T' :: b₁ :: b₂ :: b₃ :: b₄ :: options :: rest, 5⟩) :=
    u32_of_le (by simp)
  have hu8 : u8 ⟨byte 'T' :: b₁ :: b₂ :: b₃ :: b₄ :: options :: rest, 5⟩ =
      .ok (options, ⟨byte 'T' :: b₁ :: b₂ :: b₃ :: b₄ :: options :: rest, 6⟩) :=
    u8_of_lt (by simp)
  rw [hread, bind_apply, hu32, Except.bind, bind_apply, hu8, Except.bind]
  simp only [hcount]

end Decoder

/-! ## The decoder -/

open Decoder (reserved)

theorem decode_eq (a : Allocator) (data : List UInt8) :
    decode a data =
      ((do Decoder.body a (← Decoder.u8) : Decoder PgOutputMsg) ⟨data, 0⟩).map Prod.fst :=
  rfl

theorem decode_cons (a : Allocator) (tag : UInt8) (rest : List UInt8) :
    decode a (tag :: rest) = (Decoder.body a tag ⟨tag :: rest, 1⟩).map Prod.fst := by
  rw [decode_eq, bind_apply, Decoder.u8_of_lt (by simp)]
  rfl

/-- The decoder returns, with a message or with an error. -/
def Returns (result : Except (Stop Error) PgOutputMsg) : Prop :=
  (∃ m, result = .ok m) ∨ ∃ e, result = .error (.error e)

theorem returns_of_safe {r : Decoder PgOutputMsg} (h : Safe r) {c : ByteReader.Cursor}
    (hc : c.pos ≤ c.buf.length) : Returns ((r c).map Prod.fst) := by
  rcases h c hc with ⟨m, c', hm, -⟩ | ⟨e, he⟩
  · exact .inl ⟨m, by rw [hm]; rfl⟩
  · exact .inr ⟨e, by rw [he]; rfl⟩

/-- **What `decode` can do**: it returns, unless the allocator refuses. -/
theorem decode_cases (a : Allocator) (data : List UInt8) :
    (a.grants (reserved data) = true ∧ Returns (decode a data)) ∨
      (a.grants (reserved data) = false ∧ decode a data = .error .abort) := by
  have hnothing : a.grants 0 = true := a.small 0 (Nat.zero_le _)
  cases data with
  | nil => exact .inl ⟨hnothing, .inr ⟨_, rfl⟩⟩
  | cons tag rest =>
    rw [decode_cons]
    by_cases htag : tag = Decoder.byte 'T'
    · subst htag
      have hshort : ∀ {data : List UInt8}, data.length < 6 →
          Returns ((Decoder.body a (Decoder.byte 'T') ⟨data, 1⟩).map Prod.fst) := by
        intro data hlen
        obtain ⟨e, he⟩ := Decoder.body_truncate_short a hlen
        exact .inr ⟨e, by rw [he]; rfl⟩
      match rest with
      | b₁ :: b₂ :: b₃ :: b₄ :: options :: rest =>
        rw [reserved, if_pos rfl, Decoder.body_truncate, Decoder.withCapacity]
        cases hgrants : a.grants (Decoder.relIdSize * fromBe [b₁, b₂, b₃, b₄]) with
        | true =>
          refine .inl ⟨rfl, returns_of_safe ?_ (by simp)⟩
          exact (safe_reserve hgrants).bind fun _ => (safe_times Decoder.safe_u32 _).map _
        | false =>
          refine .inr ⟨rfl, ?_⟩
          rw [bind_apply, reserve, hgrants]
          rfl
      | [] | [_] | [_, _] | [_, _, _] | [_, _, _, _] => exact .inl ⟨hnothing, hshort (by simp)⟩
    · have hreserved : reserved (tag :: rest) = 0 := by
        unfold reserved
        split
        · next heq =>
          obtain ⟨rfl, -⟩ := List.cons.inj heq
          exact if_neg htag
        · rfl
      rw [hreserved]
      exact .inl ⟨hnothing, returns_of_safe (Decoder.safe_body a htag) (by simp)⟩

theorem returns_iff (a : Allocator) (data : List UInt8) :
    Returns (decode a data) ↔ a.grants (reserved data) = true := by
  rcases decode_cases a data with ⟨hgrants, hreturns⟩ | ⟨hrefuses, habort⟩
  · exact iff_of_true hreturns hgrants
  · refine iff_of_false ?_ (by simp [hrefuses])
    rw [habort]
    rintro (⟨m, hm⟩ | ⟨e, he⟩)
    · cases hm
    · cases he

theorem reserved_truncate (skipped : Skipped) {relIds : List UInt32} (h : relIds.length < 2 ^ 32) :
    reserved ((PgOutputMsg.truncate relIds).encode skipped) =
      Decoder.relIdSize * relIds.length := by
  have hcount := fromBe_toBe (w := 4) h
  simp only [toBe, List.nil_append, List.cons_append] at hcount
  simp only [PgOutputMsg.encode, toBe, List.nil_append, List.cons_append, reserved, if_true, hcount]

/-- A message comes back from its bytes, and a proper beginning of them is an error. -/
def Inverts (a : Allocator) (skipped : Skipped) (m : PgOutputMsg) : Prop :=
  decode a (m.encode skipped) = .ok m ∧
    ∀ cut, cut <+: m.encode skipped → cut ≠ m.encode skipped →
      ∃ e, decode a cut = .error (.error e)

theorem inverts_of_codes {a : Allocator} {skipped : Skipped} {m : PgOutputMsg}
    (h : Codes (do Decoder.body a (← Decoder.u8)) (m.encode skipped) m) : Inverts a skipped m := by
  constructor
  · have hreads := h.reads [] []
    rw [List.append_nil, List.nil_append, List.length_nil] at hreads
    rw [decode_eq, hreads]
    rfl
  · intro cut hcut hne
    obtain ⟨e, he⟩ := h.refuses [] cut hcut hne
    rw [List.nil_append, List.length_nil] at he
    exact ⟨e, by rw [decode_eq, he]; rfl⟩

/-- **Decoding inverts encoding**, exactly when the allocator grants what a `Truncate` reserves: a
message that fits its counts is decoded from its bytes, and a proper beginning of its bytes is an
error. Any bytes at all make the decoder return under the same condition, and none make it read
outside them. -/
theorem decode_inverts_encode_iff (a : Allocator) :
    (∀ (skipped : Skipped) (m : PgOutputMsg), m.Fits →
      (Inverts a skipped m ↔ a.grants (reserved (m.encode skipped)) = true)) ∧
    ∀ data, (Returns (decode a data) ↔ a.grants (reserved data) = true) ∧
      decode a data ≠ .error .panic := by
  refine ⟨fun skipped m hfits => ⟨fun h => ?_, fun hgrants => ?_⟩, fun data =>
    ⟨returns_iff a data, ?_⟩⟩
  · exact (returns_iff a _).1 (.inl ⟨m, h.1⟩)
  · refine inverts_of_codes (Decoder.codes_body a skipped hfits ?_)
    rintro relIds rfl
    rwa [reserved_truncate skipped hfits] at hgrants
  · rcases decode_cases a data with ⟨-, ⟨m, hm⟩ | ⟨e, he⟩⟩ | ⟨-, habort⟩
    · simp [hm]
    · simp [he]
    · simp [habort]

/-- An allocator with room for less than 16 GiB. -/
def Allocator.bounded : Allocator where
  grants bytes := decide (bytes < 2 ^ 34 - 4)
  small bytes h := decide_eq_true (by omega)

/-- Six bytes, the beginning of a `Truncate` of 2³² - 1 relations. -/
theorem truncate_aborts :
    ¬ ∀ a : Allocator, (∀ (skipped : Skipped) (m : PgOutputMsg), m.Fits → Inverts a skipped m) ∧
      ∀ data, Returns (decode a data) := by
  intro h
  have hgrants := (returns_iff .bounded [84, 255, 255, 255, 255, 0]).1 ((h .bounded).2 _)
  revert hgrants
  decide +kernel

/-- An update with its key, a null, a cell that is unchanged and a text. -/
def sampleUpdate : PgOutputMsg :=
  .update 7 (some [.text "1", .null]) none [.text "1", .unchangedToast, .text "it's"]

theorem decode_inverts_encode_update :
    decode .bounded (sampleUpdate.encode ⟨0, 0, 0⟩) = .ok sampleUpdate ∧
      ∃ e, decode .bounded ((sampleUpdate.encode ⟨0, 0, 0⟩).take 9) = .error (.error e) := by
  have htuple : ∀ t : TupleData, t.length < 2 ^ 16 →
      (∀ c ∈ t, (cellBytes c).length < 2 ^ 31) → t.Fits := by
    intro t hlen hcells
    refine ⟨hlen, fun s hs => lt_of_le_of_lt ?_ (hcells _ hs)⟩
    simp only [cellBytes, counted, List.length_append, length_toBe]
    omega
  have hfits : sampleUpdate.Fits := by
    refine ⟨.inr rfl, fun t ht => ?_, nofun, htuple _ (by decide) (by decide +kernel)⟩
    obtain rfl : [.text "1", .null] = t := Option.some.inj ht
    exact htuple _ (by decide) (by decide +kernel)
  have hdecode := ((decode_inverts_encode_iff .bounded).1 ⟨0, 0, 0⟩ sampleUpdate hfits).2
    (by decide +kernel)
  exact ⟨hdecode.1, hdecode.2 _ (List.take_prefix 9 _) (by decide)⟩

example : decode .bounded [73, 0, 0, 0, 7, 78, 0, 3, 110, 117, 116, 0, 0, 0, 2, 104, 105] =
    .ok (.insert 7 [.null, .unchangedToast, .text "hi"]) := by
  decide +kernel

end Pglite.Replica
