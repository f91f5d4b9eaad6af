import Pglite.Frames

/-!
# What the gateway passes on

`filter_response` of `src/socket/mod.rs` works on the bytes of a response: it goes from length field
to length field and copies what it keeps. A slice outside of the response would be a panic.

* `filterMessages`: the filter on messages. Notifications go, and so does every `ReadyForQuery` that
  comes right after another among the messages kept.
* `Filters`: what becomes of the rest of a response, from the tag that was kept last.
* `filterLoop_eq`: the loop comes to its end without a panic, and its result is that.
-/

namespace Pglite

open Frames ByteReader

/-- The tag byte of a message. -/
def tag (c : Char) : UInt8 := UInt8.ofNat c.toNat

/-! ## The loop -/

/-- `response[i]`. -/
def byteAt (response : List UInt8) (i : Nat) : Except (Stop Empty) UInt8 :=
  match response[i]? with
  | some b => .ok b
  | none => .error .panic

/-- The variables of the loop. -/
structure FilterState where
  out : List UInt8
  offset : Nat
  lastKept : UInt8

/-- A message with this tag is dropped. -/
def isDropped (lastKept t : UInt8) : Bool :=
  t = tag 'A' || (t = tag 'Z' && lastKept = tag 'Z')

/-- The body of the loop. -/
def FilterState.turn (response : List UInt8) (s : FilterState) :
    Except (Stop Empty) FilterState := do
  let t ← byteAt response s.offset
  let field ← slice response (s.offset + 1) (s.offset + 5)
  let stop := min (s.offset + 1 + max (fromBe field) 4) response.length
  if isDropped s.lastKept t then
    pure { s with offset := stop }
  else do
    let raw ← slice response s.offset stop
    pure ⟨s.out ++ raw, stop, t⟩

/-- The loop, for so many turns at most. -/
def filterLoop (response : List UInt8) : Nat → FilterState →
    Option (Except (Stop Empty) (List UInt8))
  | 0, _ => none
  | n + 1, s =>
    if s.offset + 5 ≤ response.length then
      match s.turn response with
      | .error e => some (.error e)
      | .ok s' => filterLoop response n s'
    else some (.ok s.out)

/-- `filter_response`. A turn takes a byte at least. -/
def filterResponse (response : List UInt8) : Option (Except (Stop Empty) (List UInt8)) :=
  filterLoop response (response.length + 1) ⟨[], 0, 0⟩

/-! ## The filter on messages -/

/-- One more message. `kept` are the ones kept before. -/
def keepMessage (kept : List Frame) (f : Frame) : List Frame :=
  if f.tag = tag 'A' ∨ (f.tag = tag 'Z' ∧ ∃ g ∈ kept.getLast?, g.tag = tag 'Z') then kept
  else kept ++ [f]

/-- Without the notifications, and without a `ReadyForQuery` whose nearest earlier kept message is
one. -/
def filterMessages (fs : List Frame) : List Frame :=
  fs.foldl keepMessage []

/-! ## The loop on what is left -/

/-- How far the first message reaches: at least over its header, at most to the end. -/
def reach (rest : List UInt8) : Nat :=
  min (1 + max (fromBe ((rest.drop 1).take 4)) 4) rest.length

/-- What becomes of the rest of a response. -/
inductive Filters : UInt8 → List UInt8 → List UInt8 → Prop
  | done {k rest} : rest.length < 5 → Filters k rest []
  | drop {k t rest out} : 5 ≤ rest.length → rest.head? = some t → isDropped k t = true →
      Filters k (rest.drop (reach rest)) out → Filters k rest out
  | keep {k t rest out} : 5 ≤ rest.length → rest.head? = some t → isDropped k t = false →
      Filters t (rest.drop (reach rest)) out → Filters k rest (rest.take (reach rest) ++ out)

theorem reach_pos {rest : List UInt8} (h : 5 ≤ rest.length) : 5 ≤ reach rest := by
  unfold reach
  omega

theorem reach_le (rest : List UInt8) : reach rest ≤ rest.length :=
  min_le_right _ _

/-- The turn of the loop where it stands. -/
theorem turn_eq {pre rest out : List UInt8} {k t : UInt8} (h : 5 ≤ rest.length)
    (ht : rest.head? = some t) :
    FilterState.turn (pre ++ rest) ⟨out, pre.length, k⟩ = .ok
      (if isDropped k t then ⟨out, pre.length + reach rest, k⟩
      else ⟨out ++ rest.take (reach rest), pre.length + reach rest, t⟩) := by
  have htag : byteAt (pre ++ rest) pre.length = .ok t := by
    rw [byteAt, List.getElem?_append_right (Nat.le_refl _), Nat.sub_self, ← List.head?_eq_getElem?,
      ht]
  have hfield : slice (pre ++ rest) (pre.length + 1) (pre.length + 5) =
      (.ok ((rest.drop 1).take 4) : Except (Stop Empty) (List UInt8)) := by
    rw [slice, if_pos (by simp; omega), List.drop_append, List.drop_eq_nil_of_le (by omega)]
    simp
  have hstop : min (pre.length + 1 + max (fromBe ((rest.drop 1).take 4)) 4) (pre ++ rest).length =
      pre.length + reach rest := by
    rw [reach, List.length_append]
    omega
  have hraw : slice (pre ++ rest) pre.length (pre.length + reach rest) =
      (.ok (rest.take (reach rest)) : Except (Stop Empty) (List UInt8)) := by
    have hle := reach_le rest
    rw [slice, if_pos (by simp; omega)]
    simp
  unfold FilterState.turn
  simp only [htag, hfield, bind, Except.bind, hstop]
  split
  · rfl
  · rw [hraw]
    rfl

/-- **The loop ends without a panic**, and what it has copied is known. -/
theorem filterLoop_eq (pre rest out : List UInt8) (k : UInt8) :
    ∃ more, Filters k rest more ∧ ∀ n, rest.length < n →
      filterLoop (pre ++ rest) n ⟨out, pre.length, k⟩ = some (.ok (out ++ more)) := by
  induction hlen : rest.length using Nat.strong_induction_on generalizing pre rest out k with
  | _ len ih =>
    by_cases hshort : rest.length < 5
    · refine ⟨[], .done hshort, fun n hn => ?_⟩
      obtain ⟨n, rfl⟩ := Nat.exists_eq_add_of_lt hn
      rw [filterLoop, if_neg (by simp; omega), List.append_nil]
    have hlong : 5 ≤ rest.length := Nat.le_of_not_lt hshort
    obtain ⟨t, ht⟩ : ∃ t, rest.head? = some t := by
      cases rest with
      | nil => simp at hlong
      | cons t rest => exact ⟨t, rfl⟩
    have hpos := reach_pos hlong
    have hle := reach_le rest
    have hshorter : (rest.drop (reach rest)).length < len := by
      rw [List.length_drop]
      omega
    have hcut : pre ++ rest = (pre ++ rest.take (reach rest)) ++ rest.drop (reach rest) := by
      simp
    have hoffset : pre.length + reach rest = (pre ++ rest.take (reach rest)).length := by
      simp
      omega
    have hstep : ∀ n, rest.length < n + 1 → filterLoop (pre ++ rest) (n + 1) ⟨out, pre.length, k⟩ =
        filterLoop (pre ++ rest) n (if isDropped k t then ⟨out, pre.length + reach rest, k⟩
          else ⟨out ++ rest.take (reach rest), pre.length + reach rest, t⟩) := by
      intro n hn
      rw [filterLoop, if_pos (by simp; omega), turn_eq hlong ht]
    cases hdrop : isDropped k t with
    | true =>
      obtain ⟨more, hmore, hrun⟩ := ih _ hshorter (pre ++ rest.take (reach rest))
        (rest.drop (reach rest)) out k rfl
      refine ⟨more, .drop hlong ht hdrop hmore, fun n hn => ?_⟩
      obtain ⟨n, rfl⟩ : ∃ m, n = m + 1 := ⟨n - 1, by omega⟩
      rw [hstep n (by omega), hdrop, if_pos rfl, hoffset, hcut]
      exact hrun n (by omega)
    | false =>
      obtain ⟨more, hmore, hrun⟩ := ih _ hshorter (pre ++ rest.take (reach rest))
        (rest.drop (reach rest)) (out ++ rest.take (reach rest)) t rfl
      refine ⟨_, .keep hlong ht hdrop hmore, fun n hn => ?_⟩
      obtain ⟨n, rfl⟩ : ∃ m, n = m + 1 := ⟨n - 1, by omega⟩
      rw [hstep n (by omega), hdrop, if_neg Bool.false_ne_true, hoffset, hcut]
      rw [hrun n (by omega), List.append_assoc]

theorem Filters.unique {k : UInt8} {rest out out' : List UInt8} (h : Filters k rest out)
    (h' : Filters k rest out') : out = out' := by
  induction h generalizing out' with
  | done hshort =>
    cases h' with
    | done => rfl
    | drop hlong | keep hlong => omega
  | drop hlong ht hdrop _ ih =>
    cases h' with
    | done hshort => omega
    | drop hlong' ht' hdrop' hrest => exact ih hrest
    | keep hlong' ht' hdrop' hrest =>
      obtain rfl := Option.some.inj (ht.symm.trans ht')
      rw [hdrop] at hdrop'
      cases hdrop'
  | keep hlong ht hdrop _ ih =>
    cases h' with
    | done hshort => omega
    | drop hlong' ht' hdrop' hrest =>
      obtain rfl := Option.some.inj (ht.symm.trans ht')
      rw [hdrop] at hdrop'
      cases hdrop'
    | keep hlong' ht' hdrop' hrest =>
      obtain rfl := Option.some.inj (ht.symm.trans ht')
      rw [ih hrest]

theorem filterResponse_eq_iff {bytes out : List UInt8} :
    filterResponse bytes = some (.ok out) ↔ Filters 0 bytes out := by
  obtain ⟨more, hmore, hrun⟩ := filterLoop_eq [] bytes [] 0
  have hresult : filterResponse bytes = some (.ok more) :=
    hrun (bytes.length + 1) (Nat.lt_succ_self _)
  rw [hresult]
  constructor
  · rintro ⟨⟩
    exact hmore
  · intro h
    rw [h.unique hmore]

/-! ## On messages -/

theorem reach_encode {f : Frame} (h : f.Fits) (rest : List UInt8) :
    reach (f.encode ++ rest) = f.encode.length := by
  have hfield : ((f.encode ++ rest).drop 1).take 4 = toBe 4 f.len := by
    rw [Frame.encode, List.cons_append, List.drop_one, List.tail_cons, List.append_assoc,
      List.take_left' (length_toBe 4 _)]
  rw [reach, hfield, fromBe_len h, List.length_append, Frame.length_encode, Frame.len]
  omega

/-- What the loop does with messages. `k` stands for those it has kept. -/
theorem filters_encodeAll {fs : List Frame} (kept : List Frame) (k : UInt8) (hfits : ∀ f ∈ fs, f.Fits)
    (hk : k = tag 'Z' ↔ ∃ g ∈ kept.getLast?, g.tag = tag 'Z') :
    ∃ more, fs.foldl keepMessage kept = kept ++ more ∧ Filters k (encodeAll fs) (encodeAll more) := by
  induction fs generalizing kept k with
  | nil => exact ⟨[], by simp, .done (by simp)⟩
  | cons f fs ih =>
    obtain ⟨hf, hfs⟩ := List.forall_mem_cons.1 hfits
    have hlong : 5 ≤ (encodeAll (f :: fs)).length := by
      simp
      omega
    have hhead : (encodeAll (f :: fs)).head? = some f.tag := rfl
    have hreach : reach (encodeAll (f :: fs)) = f.encode.length := reach_encode hf _
    have hdropped : isDropped k f.tag = true ↔
        f.tag = tag 'A' ∨ (f.tag = tag 'Z' ∧ ∃ g ∈ kept.getLast?, g.tag = tag 'Z') := by
      rw [← hk, isDropped, Bool.or_eq_true, Bool.and_eq_true, decide_eq_true_iff, decide_eq_true_iff,
        decide_eq_true_iff]
    have hrest : (encodeAll (f :: fs)).drop (reach (encodeAll (f :: fs))) = encodeAll fs := by
      rw [hreach, encodeAll_cons, List.drop_left]
    rw [List.foldl_cons, keepMessage]
    cases hd : isDropped k f.tag with
    | true =>
      rw [if_pos (hdropped.1 hd)]
      obtain ⟨more, hmore, hfilters⟩ := ih kept k hfs hk
      exact ⟨more, hmore, .drop hlong hhead hd (hrest ▸ hfilters)⟩
    | false =>
      have hkept : ¬ isDropped k f.tag = true := by simp [hd]
      rw [if_neg fun h => hkept (hdropped.2 h)]
      obtain ⟨more, hmore, hfilters⟩ := ih (kept ++ [f]) f.tag hfs (by simp)
      refine ⟨f :: more, by rw [hmore, List.append_assoc, List.singleton_append], ?_⟩
      have hkeep := Filters.keep hlong hhead hd (hrest ▸ hfilters)
      rwa [hreach, encodeAll_cons, List.take_left] at hkeep

/-! ## Twice -/

/-- A message keeps its length when what follows it is cut out. -/
theorem reach_take {rest out : List UInt8} (h : 5 ≤ rest.length)
    (hend : reach rest = rest.length → out = []) :
    reach (rest.take (reach rest) ++ out) = reach rest := by
  have hpos := reach_pos h
  have hle := reach_le rest
  have hfield : ((rest.take (reach rest) ++ out).drop 1).take 4 = (rest.drop 1).take 4 := by
    rw [List.drop_append_of_le_length (by simp; omega), List.drop_take, List.take_append_of_le_length
      (by simp; omega), List.take_take, min_eq_left (by omega)]
  by_cases hall : reach rest = rest.length
  · rw [hend hall, List.append_nil, hall, List.take_length, hall]
  · rw [reach, hfield, List.length_append, List.length_take]
    unfold reach at hall hle hpos ⊢
    omega

theorem Filters.again {k : UInt8} {rest out : List UInt8} (h : Filters k rest out) :
    Filters k out out := by
  induction h with
  | done => exact .done (by simp)
  | drop _ _ _ _ ih => exact ih
  | @keep k t rest out hlong ht hdrop hrest ih =>
    have hpos := reach_pos hlong
    have hend : reach rest = rest.length → out = [] := by
      intro hall
      rw [hall, List.drop_length] at hrest
      exact hrest.unique (.done (by simp))
    have hreach := reach_take hlong hend
    have hhead : (rest.take (reach rest) ++ out).head? = some t := by
      cases rest with
      | nil => simp at hlong
      | cons b rest =>
        obtain ⟨n, hn⟩ : ∃ n, reach (b :: rest) = n + 1 := ⟨reach (b :: rest) - 1, by omega⟩
        rw [hn]
        exact ht
    have hlen : (rest.take (reach rest)).length = reach rest := by
      rw [List.length_take, min_eq_left (reach_le rest)]
    have hlong' : 5 ≤ (rest.take (reach rest) ++ out).length := by
      rw [List.length_append, hlen]
      omega
    have hkeep := Filters.keep hlong' hhead hdrop (by rw [hreach, List.drop_left' hlen]; exact ih)
    rwa [hreach, List.take_left' hlen] at hkeep

/-- **The byte filter is the message filter.** On the bytes of messages it gives the bytes of those
that the message filter keeps. On any bytes it comes to its end without a panic, and a second time
it changes nothing. -/
theorem filter_response_exact :
    (∀ fs : List Frame, (∀ f ∈ fs, f.Fits) →
      filterResponse (encodeAll fs) = some (.ok (encodeAll (filterMessages fs)))) ∧
    (∀ bytes out, filterResponse bytes = some (.ok out) → filterResponse out = some (.ok out)) ∧
    ∀ bytes, ∃ out, filterResponse bytes = some (.ok out) := by
  refine ⟨fun fs hfits => ?_, fun bytes out h => ?_, fun bytes => ?_⟩
  · obtain ⟨more, hmore, hfilters⟩ :=
      filters_encodeAll [] 0 hfits (by simp; decide)
    rw [List.nil_append] at hmore
    rw [filterMessages, hmore]
    exact filterResponse_eq_iff.2 hfilters
  · exact filterResponse_eq_iff.2 (filterResponse_eq_iff.1 h).again
  · obtain ⟨more, hmore, -⟩ := filterLoop_eq [] bytes [] 0
    exact ⟨more, filterResponse_eq_iff.2 hmore⟩

/-- The second of two `ReadyForQuery`, with a notification between them. -/
theorem filter_response_exact_ready :
    filterResponse (encodeAll [⟨tag 'Z', [73]⟩, ⟨tag 'A', [0, 0]⟩, ⟨tag 'Z', [73]⟩]) =
      some (.ok (encodeAll (filterMessages [⟨tag 'Z', [73]⟩, ⟨tag 'A', [0, 0]⟩, ⟨tag 'Z', [73]⟩]))) :=
  filter_response_exact.1 _ (by decide)

example : filterMessages [⟨tag 'Z', [73]⟩, ⟨tag 'A', [0, 0]⟩, ⟨tag 'Z', [73]⟩] =
    [⟨tag 'Z', [73]⟩] := by decide

end Pglite
