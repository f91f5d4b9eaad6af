import Pglite.ByteReader
import Pglite.Incremental

/-!
# Tagged frames

A message on the wire is a tag, its length in four bytes, and its body. The length counts itself and
is a signed number.

* `Frame.encode`: the bytes of a message, and `encodeAll` of a sequence.
* `parse`: the first message of a buffer, `none` while it is not complete. It is found whatever
  follows (`parse_encode`), it is not found in a part of it (`parse_cut`), and what is found is what
  was written (`parse_eq_some`).
* `readFrame`: the first message as it is read from a stream, by its length field only. For what was
  written it is the same.
* `Parses`: a whole text as messages. It is what was encoded (`parses_iff`).
* `parser`: messages as the items of a text that arrives in pieces (`items_encodeAll`).
-/

namespace Frames

open ByteReader

structure Frame where
  tag : UInt8
  body : List UInt8
deriving DecidableEq

namespace Frame

/-- The length field. -/
def len (f : Frame) : Nat := f.body.length + 4

/-- The length field is a signed number of four bytes. -/
def Fits (f : Frame) : Prop := f.len < 2 ^ 31

instance (f : Frame) : Decidable f.Fits := inferInstanceAs (Decidable (_ < _))

def encode (f : Frame) : List UInt8 :=
  f.tag :: (toBe 4 f.len ++ f.body)

@[simp] theorem length_encode (f : Frame) : f.encode.length = f.body.length + 5 := by
  simp [encode]
  omega

end Frame

def encodeAll (fs : List Frame) : List UInt8 :=
  fs.flatMap Frame.encode

@[simp] theorem encodeAll_nil : encodeAll [] = [] := rfl

@[simp] theorem encodeAll_cons (f : Frame) (fs : List Frame) :
    encodeAll (f :: fs) = f.encode ++ encodeAll fs := rfl

theorem encodeAll_append (fs gs : List Frame) :
    encodeAll (fs ++ gs) = encodeAll fs ++ encodeAll gs :=
  List.flatMap_append

/-! ## The first message of a buffer -/

/-- The first message and the bytes behind it, `none` while more bytes are needed. A length that
cannot be is an error. -/
def parse : List UInt8 → Except Unit (Option (Frame × List UInt8))
  | tag :: a :: b :: c :: d :: rest =>
    let len := fromBe [a, b, c, d]
    if len < 4 ∨ 2 ^ 31 ≤ len then .error ()
    else if len - 4 ≤ rest.length then
      .ok (some (⟨tag, rest.take (len - 4)⟩, rest.drop (len - 4)))
    else .ok none
  | _ => .ok none

theorem parse_cons {tag : UInt8} {field rest : List UInt8} (hfield : field.length = 4) :
    parse (tag :: (field ++ rest)) =
      if fromBe field < 4 ∨ 2 ^ 31 ≤ fromBe field then .error ()
      else if fromBe field - 4 ≤ rest.length then
        .ok (some (⟨tag, rest.take (fromBe field - 4)⟩, rest.drop (fromBe field - 4)))
      else .ok none := by
  obtain ⟨a, b, c, d, rfl⟩ : ∃ a b c d, field = [a, b, c, d] := by
    match field, hfield with
    | [a, b, c, d], _ => exact ⟨a, b, c, d, rfl⟩
  rfl

theorem parse_short {bs : List UInt8} (h : bs.length < 5) : parse bs = .ok none := by
  match bs, h with
  | [], _ => rfl
  | [_], _ => rfl
  | [_, _], _ => rfl
  | [_, _, _], _ => rfl
  | [_, _, _, _], _ => rfl

theorem fromBe_len {f : Frame} (h : f.Fits) : fromBe (toBe 4 f.len) = f.len := by
  refine fromBe_toBe ?_
  unfold Frame.Fits at h
  omega

theorem parse_encode {f : Frame} (h : f.Fits) (rest : List UInt8) :
    parse (f.encode ++ rest) = .ok (some (f, rest)) := by
  have hlen : ¬ (f.len < 4 ∨ 2 ^ 31 ≤ f.len) := by
    unfold Frame.Fits Frame.len at *
    omega
  rw [Frame.encode, List.cons_append, List.append_assoc, parse_cons (length_toBe 4 _),
    fromBe_len h, if_neg hlen]
  simp [Frame.len]

/-- A part of a message is not a message. -/
theorem parse_cut {f : Frame} (h : f.Fits) {cut : List UInt8} (hcut : cut <+: f.encode)
    (hne : cut ≠ f.encode) : parse cut = .ok none := by
  by_cases hshort : cut.length < 5
  · exact parse_short hshort
  have hlen := hcut.length_le
  have hlt : cut.length < f.encode.length :=
    lt_of_le_of_ne hlen fun heq => hne (hcut.eq_of_length heq)
  obtain ⟨rest, hrest⟩ : ∃ rest, cut = f.tag :: (toBe 4 f.len ++ rest) := by
    have hhead : f.tag :: toBe 4 f.len <+: cut := by
      have hfull : f.tag :: toBe 4 f.len <+: f.encode := ⟨f.body, by simp [Frame.encode]⟩
      exact List.prefix_of_prefix_length_le hfull hcut (by simp; omega)
    obtain ⟨rest, rfl⟩ := hhead
    exact ⟨rest, by simp⟩
  have hvalid : ¬ (f.len < 4 ∨ 2 ^ 31 ≤ f.len) := by
    unfold Frame.Fits Frame.len at *
    omega
  have hmissing : ¬ f.len - 4 ≤ rest.length := by
    rw [hrest, Frame.length_encode] at hlt
    simp [Frame.len] at hlt ⊢
    omega
  rw [hrest, parse_cons (length_toBe 4 _), fromBe_len h, if_neg hvalid, if_neg hmissing]

/-- What is found is what was written. -/
theorem parse_eq_some {bs rest : List UInt8} {f : Frame} (h : parse bs = .ok (some (f, rest))) :
    f.Fits ∧ bs = f.encode ++ rest := by
  by_cases hshort : bs.length < 5
  · rw [parse_short hshort] at h
    cases h
  obtain ⟨tag, field, more, hfield, rfl⟩ :
      ∃ tag field more, List.length field = 4 ∧ bs = tag :: (field ++ more) := by
    match bs, hshort with
    | tag :: a :: b :: c :: d :: more, _ => exact ⟨tag, [a, b, c, d], more, rfl, rfl⟩
  rw [parse_cons hfield] at h
  split_ifs at h with hbad hcomplete
  swap
  · cases h
  obtain ⟨rfl, rfl⟩ := Prod.mk.inj (Option.some.inj (Except.ok.inj h))
  have hlen : Frame.len ⟨tag, more.take (fromBe field - 4)⟩ = fromBe field := by
    simp [Frame.len]
    omega
  refine ⟨?_, ?_⟩
  · unfold Frame.Fits
    omega
  · have hback : toBe 4 (fromBe field) = field := by
      rw [← hfield, toBe_fromBe]
    rw [Frame.encode, hlen, hback]
    simp

/-! ## The first message of a stream -/

/-- The bytes of the first message and those behind it, `none` while more are needed. Any length field
is taken; one below four stands for an empty body. -/
def readFrame : List UInt8 → Option (List UInt8 × List UInt8)
  | t :: a :: b :: c :: d :: rest =>
    if fromBe [a, b, c, d] - 4 ≤ rest.length then
      some (t :: a :: b :: c :: d :: rest.take (fromBe [a, b, c, d] - 4),
        rest.drop (fromBe [a, b, c, d] - 4))
    else none
  | _ => none

theorem readFrame_encode {f : Frame} (h : f.Fits) (rest : List UInt8) :
    readFrame (f.encode ++ rest) = some (f.encode, rest) := by
  obtain ⟨a, b, c, d, hfield⟩ : ∃ a b c d, toBe 4 f.len = [a, b, c, d] := by
    match hfield : toBe 4 f.len, length_toBe 4 f.len with
    | [a, b, c, d], _ => exact ⟨a, b, c, d, rfl⟩
  have hlen : fromBe [a, b, c, d] - 4 = f.body.length := by
    rw [← hfield, fromBe_len h, Frame.len, Nat.add_sub_cancel]
  rw [Frame.encode, hfield]
  simp [readFrame, hlen]

/-- What is no message yet is none in a stream. -/
theorem readFrame_eq_none {bs : List UInt8} (h : parse bs = .ok none) : readFrame bs = none := by
  match bs with
  | t :: a :: b :: c :: d :: rest =>
    rw [parse] at h
    split_ifs at h with hbad hcomplete
    · cases h
    · exact if_neg hcomplete
  | [] | [_] | [_, _] | [_, _, _] | [_, _, _, _] => rfl

theorem readFrame_lt {bs frame rest : List UInt8} (h : readFrame bs = some (frame, rest)) :
    rest.length < bs.length := by
  match bs, h with
  | t :: a :: b :: c :: d :: more, h =>
    rw [readFrame] at h
    split_ifs at h
    obtain ⟨-, rfl⟩ := Prod.mk.inj (Option.some.inj h)
    simp only [List.length_drop, List.length_cons]
    omega

/-- More bytes behind a message change nothing. -/
theorem readFrame_append {bs frame rest : List UInt8} (h : readFrame bs = some (frame, rest))
    (more : List UInt8) : readFrame (bs ++ more) = some (frame, rest ++ more) := by
  match bs, h with
  | t :: a :: b :: c :: d :: tail, h =>
    rw [readFrame] at h
    split_ifs at h with hle
    obtain ⟨rfl, rfl⟩ := Prod.mk.inj (Option.some.inj h)
    have hle' : fromBe [a, b, c, d] - 4 ≤ (tail ++ more).length := by
      rw [List.length_append]
      omega
    simp only [List.cons_append]
    rw [readFrame, if_pos hle', List.take_append_of_le_length hle,
      List.drop_append_of_le_length hle]

/-! ## A whole text -/

/-- The text read as messages, to its end. -/
inductive Parses : List UInt8 → List Frame → Prop
  | nil : Parses [] []
  | cons {bs rest f fs} : parse bs = .ok (some (f, rest)) → Parses rest fs → Parses bs (f :: fs)

theorem parses_iff {bs : List UInt8} {fs : List Frame} :
    Parses bs fs ↔ (∀ f ∈ fs, f.Fits) ∧ bs = encodeAll fs := by
  constructor
  · intro h
    induction h with
    | nil => exact ⟨by simp, rfl⟩
    | cons hfirst hrest ih =>
      obtain ⟨hfits, rfl⟩ := parse_eq_some hfirst
      obtain ⟨hall, rfl⟩ := ih
      exact ⟨List.forall_mem_cons.2 ⟨hfits, hall⟩, rfl⟩
  · rintro ⟨hfits, rfl⟩
    induction fs with
    | nil => exact .nil
    | cons f fs ih =>
      obtain ⟨hf, hfs⟩ := List.forall_mem_cons.1 hfits
      exact .cons (parse_encode hf _) (ih hfs)

theorem Parses.unique {bs : List UInt8} {fs gs : List Frame} (h : Parses bs fs)
    (h' : Parses bs gs) : fs = gs := by
  induction h generalizing gs with
  | nil =>
    cases h' with
    | nil => rfl
    | cons hfirst => cases hfirst
  | cons hfirst hrest ih =>
    cases h' with
    | nil => cases hfirst
    | cons hfirst' hrest' =>
      obtain ⟨rfl, rfl⟩ := Prod.mk.inj (Option.some.inj (Except.ok.inj (hfirst.symm.trans hfirst')))
      rw [ih hrest']

/-! ## A text that arrives in pieces -/

/-- More bytes change nothing about a length that cannot be. -/
theorem parse_refused {bs : List UInt8} {e : Unit} (h : parse bs = .error e) (more : List UInt8) :
    parse (bs ++ more) = .error e := by
  by_cases hshort : bs.length < 5
  · rw [parse_short hshort] at h
    cases h
  obtain ⟨tag, field, rest, hfield, rfl⟩ :
      ∃ tag field rest, List.length field = 4 ∧ bs = tag :: (field ++ rest) := by
    match bs, hshort with
    | tag :: a :: b :: c :: d :: rest, _ => exact ⟨tag, [a, b, c, d], rest, rfl, rfl⟩
  rw [parse_cons hfield] at h
  split_ifs at h with hbad hcomplete
  rw [List.cons_append, List.append_assoc, parse_cons hfield, if_pos hbad]

/-- The messages, as `decode` understands their bodies. -/
def parser {α δ : Type} (decode : Frame → Except δ α) (bad : δ) :
    Incremental.Parser UInt8 α δ where
  parse bs :=
    match parse bs with
    | .error () => .error bad
    | .ok none => .ok none
    | .ok (some (f, rest)) => (decode f).map fun a => some (a, rest)
  shorter := by
    intro bs a rest h
    split at h
    · cases h
    · cases h
    · next f rest' hparse =>
      obtain ⟨-, rfl⟩ := parse_eq_some hparse
      cases hdecode : decode f with
      | error e =>
        rw [hdecode] at h
        cases h
      | ok a' =>
        rw [hdecode] at h
        cases h
        simp only [List.length_append, Frame.length_encode]
        omega
  found := by
    intro bs a rest h more
    split at h
    · cases h
    · cases h
    · next f rest' hparse =>
      obtain ⟨hfits, rfl⟩ := parse_eq_some hparse
      rw [List.append_assoc, parse_encode hfits]
      dsimp only
      cases hdecode : decode f with
      | error e =>
        rw [hdecode] at h
        cases h
      | ok a' =>
        rw [hdecode] at h
        cases h
        rfl
  refused := by
    intro bs e h more
    split at h
    · next hparse =>
      rw [parse_refused hparse more]
      exact h
    · cases h
    · next f rest hparse =>
      obtain ⟨hfits, rfl⟩ := parse_eq_some hparse
      rw [List.append_assoc, parse_encode hfits]
      dsimp only
      cases hdecode : decode f with
      | error e' =>
        rw [hdecode] at h
        cases h
        rfl
      | ok a' =>
        rw [hdecode] at h
        cases h

/-- What was written is what is read. -/
theorem items_encodeAll {α δ : Type} {decode : Frame → Except δ α} {bad : δ} {fs : List Frame}
    {as : List α} (hfits : ∀ f ∈ fs, f.Fits) (hdecode : fs.map decode = as.map .ok)
    (more : List UInt8) : (parser decode bad).items (encodeAll fs ++ more) =
      (as ++ ((parser decode bad).items more).1, ((parser decode bad).items more).2) := by
  induction fs generalizing as with
  | nil =>
    obtain rfl := List.map_eq_nil_iff.1 hdecode.symm
    rfl
  | cons f fs ih =>
    obtain ⟨a, as, rfl⟩ : ∃ a as', as = a :: as' := by
      cases as with
      | nil => cases hdecode
      | cons a as => exact ⟨a, as, rfl⟩
    obtain ⟨hf, hfs⟩ := List.forall_mem_cons.1 hfits
    obtain ⟨ha, hrest⟩ := List.cons.inj hdecode
    have hparse : (parser decode bad).parse (f.encode ++ (encodeAll fs ++ more)) =
        .ok (some (a, encodeAll fs ++ more)) := by
      simp [parser, parse_encode hf, ha, Except.map]
    rw [encodeAll_cons, List.append_assoc, Incremental.Parser.items_of_found hparse, ih hfs hrest]
    rfl

end Frames
