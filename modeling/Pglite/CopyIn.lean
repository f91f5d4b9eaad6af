import Pglite.GatewayFilter
import Pglite.Message

/-!
# The bytes of a copy

`copy_in` of `src/db.rs` sends a `Query`, all of the data as one `CopyData` message, and a
`CopyDone`. The length of the data goes into four bytes as it is, so the message is the one that was
meant exactly as long as the protocol has a length for it (`copy_in_framed_iff`).
-/

namespace Pglite

open Frames ByteReader

/-- The `Query` message with this text. -/
def queryFrame (sql : List UInt8) : Frame := ⟨tag 'Q', sql ++ [0]⟩

/-- `frontend::query`: it writes a `Query` message, or refuses the text. -/
abbrev QueryWriter := List UInt8 → Except String (List UInt8)

/-- Text without a NUL is written when the message has a length. -/
def QueryWriter.Writes (query : QueryWriter) : Prop :=
  ∀ sql, 0 ∉ sql → (queryFrame sql).Fits → query sql = .ok (queryFrame sql).encode

/-- What `copy_in` sends. -/
def copyInWire (query : QueryWriter) (sql data : List UInt8) : Except Error (List UInt8) :=
  match query sql with
  | .error e => .error (.protocol e)
  | .ok wire => .ok (wire ++ [tag 'd'] ++ toBe 4 (4 + data.length) ++ data ++ [tag 'c'] ++ toBe 4 4)

/-- The messages that were meant: the data in chunks. -/
def copyInFrames (sql : List UInt8) (chunks : List (List UInt8)) : List Frame :=
  queryFrame sql :: (chunks.map (Frame.mk (tag 'd')) ++ [⟨tag 'c', []⟩])

theorem copyInWire_eq {query : QueryWriter} (hquery : query.Writes) {sql : List UInt8}
    (hnul : 0 ∉ sql) (hfits : (queryFrame sql).Fits) (data : List UInt8) :
    copyInWire query sql data = .ok (encodeAll (copyInFrames sql [data])) := by
  rw [copyInWire, hquery sql hnul hfits]
  simp [copyInFrames, encodeAll, Frame.encode, Frame.len, Nat.add_comm]

/-- The bytes of chunks: five more for each. -/
theorem length_encodeAll_chunks (chunks : List (List UInt8)) :
    (encodeAll (chunks.map (Frame.mk (tag 'd')))).length =
      5 * chunks.length + chunks.flatten.length := by
  induction chunks with
  | nil => rfl
  | cons c chunks ih =>
    rw [List.map_cons, encodeAll_cons, List.length_append, Frame.length_encode, ih,
      List.length_cons, List.flatten_cons, List.length_append]
    dsimp only
    omega

/-- All of the data goes into one message. -/
theorem framed_iff {sql data : List UInt8} (hfits : (queryFrame sql).Fits) :
    (∃ chunks, Parses (encodeAll (copyInFrames sql [data])) (copyInFrames sql chunks) ∧
      chunks.flatten = data) ↔ data.length + 4 < 2 ^ 31 := by
  constructor
  · rintro ⟨chunks, hparses, hdata⟩
    obtain ⟨hall, hbytes⟩ := parses_iff.1 hparses
    have hlen := congrArg List.length hbytes
    simp only [copyInFrames, encodeAll_cons, encodeAll_append, List.length_append,
      length_encodeAll_chunks, hdata, List.flatten_singleton, List.length_singleton] at hlen
    obtain ⟨c, rfl⟩ : ∃ c, chunks = [c] := List.length_eq_one_iff.1 (by omega)
    have hfit := hall ⟨tag 'd', c⟩ (by simp [copyInFrames])
    rw [List.flatten_singleton] at hdata
    rw [← hdata]
    exact hfit
  · intro h
    refine ⟨[data], parses_iff.2 ⟨?_, rfl⟩, by simp⟩
    intro f hf
    simp only [copyInFrames, List.map_cons, List.map_nil, List.cons_append, List.nil_append,
      List.mem_cons, List.not_mem_nil, or_false] at hf
    rcases hf with rfl | rfl | rfl
    · exact hfits
    · exact h
    · decide

/-- **Framing.** The bytes that `copy_in` sends are read as the `Query`, the data, and a `CopyDone`
exactly when the data and its length field stay below 2^31. -/
theorem copy_in_framed_iff {query : QueryWriter} (hquery : query.Writes) {sql : List UInt8}
    (hnul : 0 ∉ sql) (hfits : (queryFrame sql).Fits) (data : List UInt8) :
    (∃ wire chunks, copyInWire query sql data = .ok wire ∧
      Parses wire (copyInFrames sql chunks) ∧ chunks.flatten = data) ↔ data.length + 4 < 2 ^ 31 := by
  rw [copyInWire_eq hquery hnul hfits, ← framed_iff hfits]
  constructor
  · rintro ⟨wire, chunks, hwire, hchunks⟩
    obtain rfl := Except.ok.inj hwire
    exact ⟨chunks, hchunks⟩
  · rintro ⟨chunks, hchunks⟩
    exact ⟨_, chunks, rfl, hchunks⟩

/-- `frontend::query` as far as the claims about its texts go. -/
def plainQuery : QueryWriter := fun sql =>
  if 0 ∈ sql then .error "string contains embedded null"
  else if (queryFrame sql).Fits then .ok (queryFrame sql).encode
  else .error "value too large to transmit"

theorem writes_plainQuery : plainQuery.Writes := by
  intro sql hnul hfits
  rw [plainQuery, if_neg hnul, if_pos hfits]

theorem copy_in_framed_iff_row :
    (∃ wire chunks, copyInWire plainQuery [67] [49, 10] = .ok wire ∧
      Parses wire (copyInFrames [67] chunks) ∧ chunks.flatten = [49, 10]) ↔
    [49, 10].length + 4 < 2 ^ 31 :=
  copy_in_framed_iff writes_plainQuery (by decide) (by decide) [49, 10]

/-- Two gigabytes of data. -/
theorem copy_in_unframed : ¬ ∀ sql data : List UInt8, 0 ∉ sql → (queryFrame sql).Fits →
    ∃ wire chunks, copyInWire plainQuery sql data = .ok wire ∧
      Parses wire (copyInFrames sql chunks) ∧ chunks.flatten = data := by
  intro h
  have hfits : (queryFrame [67]).Fits := by decide
  obtain ⟨wire, chunks, hwire, hchunks⟩ :=
    h [67] (List.replicate (2 ^ 31) 49) (by decide) hfits
  rw [copyInWire_eq writes_plainQuery (by decide) hfits] at hwire
  obtain rfl := Except.ok.inj hwire
  have hlen := (framed_iff hfits).1 ⟨chunks, hchunks⟩
  rw [List.length_replicate] at hlen
  omega

end Pglite
