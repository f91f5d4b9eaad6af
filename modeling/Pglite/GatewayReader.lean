import Mathlib.Data.List.DropRight
import Pglite.GatewayFilter

/-!
# How the gateway reads

The loop of `serve_client`: it reads a tag, a length and a body, collects messages, and forwards
them when one comes that ends a batch. The socket has a read timeout, so that the loop sees the stop
flag. (What becomes of a batch is in `Gateway`.)

**The input.** What arrives, byte by byte, with the timeouts of reads among it. The stop flag is not
set.

* `Interrupted`: a timeout comes inside of a message.
* `serve_spec`: that ends the session. Otherwise all of the messages are read, up to a `Terminate`,
  and forwarded up to the last that ends a batch.

`pauses_harmless_iff` is about timeouts. `nothing_withheld_iff` is about what the gateway has read
and not forwarded while it waits: `Flush` is not among the tags that it goes by.
-/

namespace Pglite

open Frames ByteReader

namespace GatewayReader

/-- What the socket gives: the next byte, or a read that runs into its timeout. -/
abbrev Input := List (Option UInt8)

/-- The bytes of it. -/
def Input.bytes (input : Input) : List UInt8 :=
  input.filterMap id

/-- The result of `read_exact`. -/
inductive Read
  | ok (bytes : List UInt8) (rest : Input)
  | wouldBlock (rest : Input)
  /-- There is no more input yet. -/
  | blocked
deriving DecidableEq

/-- `read_exact` into a buffer of this length. After a timeout what it had read is lost. -/
def readExact : Nat → Input → Read
  | 0, input => .ok [] input
  | _ + 1, [] => .blocked
  | _ + 1, none :: rest => .wouldBlock rest
  | n + 1, some b :: rest =>
    match readExact n rest with
    | .ok bytes rest => .ok (b :: bytes) rest
    | .wouldBlock rest => .wouldBlock rest
    | .blocked => .blocked

/-- The variables of the loop, and the batches it has forwarded. -/
structure Session where
  pending : List UInt8
  forwarded : List (List UInt8)
deriving DecidableEq

def Session.start : Session := ⟨[], []⟩

/-- Where the session stands. -/
inductive Outcome
  /-- It waits for the next byte. -/
  | waiting (s : Session)
  | terminated (s : Session)
  /-- A read failed with a timeout. -/
  | timedOut (s : Session)
deriving DecidableEq

def Outcome.session : Outcome → Session
  | .waiting s => s
  | .terminated s => s
  | .timedOut s => s

/-- The tags that end a batch. -/
def endsBatch (t : UInt8) : Bool :=
  t = tag 'Q' || t = tag 'F' || t = tag 'S' || t = tag 'c' || t = tag 'f'

/-- A message is complete. -/
def Session.push (s : Session) (t : UInt8) (lenBuf frame : List UInt8) : Session :=
  let pending := s.pending ++ [t] ++ lenBuf ++ frame
  if endsBatch t then ⟨[], s.forwarded ++ [pending]⟩ else { s with pending := pending }

/-- The body of the loop. -/
def turn (s : Session) (input : Input) : Outcome ⊕ (Session × Input) :=
  match readExact 1 input with
  | .blocked => .inl (.waiting s)
  | .wouldBlock rest => .inr (s, rest)
  | .ok tagBuf rest =>
    let t := tagBuf.headD 0
    if t = tag 'X' then .inl (.terminated s)
    else
      match readExact 4 rest with
      | .blocked => .inl (.waiting s)
      | .wouldBlock _ => .inl (.timedOut s)
      | .ok lenBuf rest =>
        match readExact (fromBe lenBuf - 4) rest with
        | .blocked => .inl (.waiting s)
        | .wouldBlock _ => .inl (.timedOut s)
        | .ok frame rest => .inr (s.push t lenBuf frame, rest)

theorem readExact_length {n : Nat} {input rest : Input} {bytes : List UInt8}
    (h : readExact n input = .ok bytes rest) : rest.length + n = input.length := by
  induction n generalizing input bytes with
  | zero =>
    obtain ⟨-, rfl⟩ := Read.ok.inj h
    rfl
  | succ n ih =>
    match input with
    | [] => cases h
    | none :: input => cases h
    | some b :: input =>
      rw [readExact] at h
      cases hread : readExact n input with
      | ok bytes' rest' =>
        rw [hread] at h
        obtain ⟨-, rfl⟩ := Read.ok.inj h
        rw [List.length_cons, ← ih hread]
        omega
      | wouldBlock | blocked =>
        rw [hread] at h
        cases h

theorem readExact_timeout {n : Nat} {input rest : Input} (h : readExact n input = .wouldBlock rest) :
    rest.length < input.length := by
  induction n generalizing input with
  | zero => cases h
  | succ n ih =>
    match input with
    | [] => cases h
    | none :: input =>
      obtain rfl := Read.wouldBlock.inj h
      exact Nat.lt_succ_self _
    | some b :: input =>
      rw [readExact] at h
      cases hread : readExact n input with
      | wouldBlock rest' =>
        rw [hread] at h
        obtain rfl := Read.wouldBlock.inj h
        exact Nat.lt_succ_of_lt (ih hread)
      | ok | blocked =>
        rw [hread] at h
        cases h

/-- A turn takes a byte or a timeout at least. -/
theorem turn_length {s s' : Session} {input rest : Input} (h : turn s input = .inr (s', rest)) :
    rest.length < input.length := by
  unfold turn at h
  cases htag : readExact 1 input with
  | blocked =>
    rw [htag] at h
    cases h
  | wouldBlock rest₁ =>
    rw [htag] at h
    obtain ⟨-, rfl⟩ := Prod.mk.inj (Sum.inr.inj h)
    exact readExact_timeout htag
  | ok tagBuf rest₁ =>
    have hlen := readExact_length htag
    rw [htag] at h
    dsimp only at h
    split_ifs at h
    cases hfield : readExact 4 rest₁ with
    | blocked | wouldBlock =>
      rw [hfield] at h
      cases h
    | ok lenBuf rest₂ =>
      have hlen₂ := readExact_length hfield
      rw [hfield] at h
      dsimp only at h
      cases hbody : readExact (fromBe lenBuf - 4) rest₂ with
      | blocked | wouldBlock =>
        rw [hbody] at h
        cases h
      | ok frame rest₃ =>
        have hlen₃ := readExact_length hbody
        rw [hbody] at h
        obtain ⟨-, rfl⟩ := Prod.mk.inj (Sum.inr.inj h)
        omega

/-- The loop of `serve_client`. -/
def serve (s : Session) (input : Input) : Outcome :=
  match _h : turn s input with
  | .inl outcome => outcome
  | .inr (s', rest) => serve s' rest
termination_by input.length
decreasing_by exact turn_length _h

theorem serve_inl {s : Session} {input : Input} {o : Outcome} (h : turn s input = .inl o) :
    serve s input = o := by
  rw [serve]
  split
  · exact Sum.inl.inj (‹turn s input = _›.symm.trans h)
  · rename_i hturn
    cases hturn.symm.trans h

theorem serve_inr {s s' : Session} {input rest : Input} (h : turn s input = .inr (s', rest)) :
    serve s input = serve s' rest := by
  rw [serve]
  split
  · rename_i hturn
    cases hturn.symm.trans h
  · rename_i hturn
    obtain ⟨rfl, rfl⟩ := Prod.mk.inj (Sum.inr.inj (hturn.symm.trans h))
    rfl

/-! ## Reading -/

/-- Bytes that come without a timeout. -/
def sent (bs : List UInt8) : Input := bs.map some

@[simp] theorem sent_nil : sent [] = [] := rfl

@[simp] theorem sent_cons (b : UInt8) (bs : List UInt8) : sent (b :: bs) = some b :: sent bs := rfl

@[simp] theorem sent_append (bs cs : List UInt8) : sent (bs ++ cs) = sent bs ++ sent cs :=
  List.map_append

@[simp] theorem bytes_sent (bs : List UInt8) : (sent bs).bytes = bs := by
  simp [sent, Input.bytes, List.filterMap_map]

@[simp] theorem bytes_append (i j : Input) : Input.bytes (i ++ j) = i.bytes ++ j.bytes :=
  List.filterMap_append

theorem readExact_sent (bs : List UInt8) (rest : Input) :
    readExact bs.length (sent bs ++ rest) = .ok bs rest := by
  induction bs with
  | nil => rfl
  | cons b bs ih => simp [readExact, ih]

theorem readExact_paused {cut : List UInt8} {n : Nat} (h : cut.length < n) (rest : Input) :
    readExact n (sent cut ++ none :: rest) = .wouldBlock rest := by
  induction cut generalizing n with
  | nil =>
    cases n with
    | zero => simp at h
    | succ n => rfl
  | cons b cut ih =>
    cases n with
    | zero => simp at h
    | succ n => simp [readExact, ih (Nat.lt_of_succ_lt_succ h)]

theorem readExact_short {cut : List UInt8} {n : Nat} (h : cut.length < n) :
    readExact n (sent cut) = .blocked := by
  induction cut generalizing n with
  | nil =>
    cases n with
    | zero => simp at h
    | succ n => rfl
  | cons b cut ih =>
    cases n with
    | zero => simp at h
    | succ n => simp [readExact, ih (Nat.lt_of_succ_lt_succ h)]

/-- The first bytes come in one go, or there is a timeout before the last of them, or they have not
all come yet. -/
theorem sent_cases {bs tail : List UInt8} {input : Input} (h : input.bytes <+: bs ++ tail) :
    (∃ rest, input = sent bs ++ rest) ∨
      (∃ cut rest, cut <+: bs ∧ cut ≠ bs ∧ input = sent cut ++ none :: rest) ∨
      ∃ cut, cut <+: bs ∧ cut ≠ bs ∧ input = sent cut := by
  induction bs generalizing input with
  | nil => exact .inl ⟨input, rfl⟩
  | cons b bs ih =>
    match input with
    | [] => exact .inr (.inr ⟨[], List.nil_prefix, by simp, rfl⟩)
    | none :: rest => exact .inr (.inl ⟨[], rest, List.nil_prefix, by simp, rfl⟩)
    | some b' :: input =>
      obtain ⟨rfl, hbs⟩ : b' = b ∧ Input.bytes input <+: bs ++ tail := List.cons_prefix_cons.1 h
      rcases ih hbs with ⟨rest, rfl⟩ | ⟨cut, rest, hcut, hne, rfl⟩ | ⟨cut, hcut, hne, rfl⟩
      · exact .inl ⟨rest, rfl⟩
      · refine .inr (.inl ⟨b' :: cut, rest, (List.prefix_cons_inj b').2 hcut, ?_, rfl⟩)
        exact fun heq => hne (List.cons.inj heq).2
      · refine .inr (.inr ⟨b' :: cut, (List.prefix_cons_inj b').2 hcut, ?_, rfl⟩)
        exact fun heq => hne (List.cons.inj heq).2

/-! ## Turns -/

theorem turn_frame {f : Frame} (hf : f.Fits) (hopen : f.tag ≠ tag 'X') (s : Session)
    (rest : Input) :
    turn s (sent f.encode ++ rest) = .inr (s.push f.tag (toBe 4 f.len) f.body, rest) := by
  have hbody : fromBe (toBe 4 f.len) - 4 = f.body.length := by
    rw [fromBe_len hf, Frame.len]
    omega
  have htag : readExact 1 (sent f.encode ++ rest) =
      .ok [f.tag] (sent (toBe 4 f.len) ++ (sent f.body ++ rest)) := by
    rw [Frame.encode, sent_cons, sent_append, List.cons_append, List.append_assoc]
    rfl
  have hfield := readExact_sent (toBe 4 f.len) (sent f.body ++ rest)
  rw [length_toBe] at hfield
  have hrest := readExact_sent f.body rest
  rw [turn, htag]
  dsimp only
  rw [List.headD_cons, if_neg hopen, hfield]
  dsimp only
  rw [hbody, hrest]

/-- A part of a message that is not empty is its tag, and a part of the rest. -/
theorem cut_cases {f : Frame} {cut : List UInt8} (hcut : cut <+: f.encode) (hne : cut ≠ f.encode)
    (hpos : cut ≠ []) : ∃ more, cut = f.tag :: more ∧ (more.length < 4 ∨
      ∃ part, more = toBe 4 f.len ++ part ∧ part.length < f.body.length) := by
  obtain ⟨b, more, rfl⟩ := List.exists_cons_of_ne_nil hpos
  obtain ⟨rfl, hmore⟩ := List.cons_prefix_cons.1 hcut
  refine ⟨more, rfl, ?_⟩
  by_cases hlen : more.length < 4
  · exact .inl hlen
  have hfield : toBe 4 f.len <+: more :=
    List.prefix_of_prefix_length_le (List.prefix_append _ _) hmore (by simp; omega)
  obtain ⟨part, rfl⟩ := hfield
  have hpart := (List.prefix_append_right_inj _).1 hmore
  refine .inr ⟨part, rfl, lt_of_le_of_ne hpart.length_le fun heq => hne ?_⟩
  rw [hpart.eq_of_length heq]
  rfl

theorem turn_paused {f : Frame} (hf : f.Fits) (hopen : f.tag ≠ tag 'X') {cut : List UInt8}
    (hcut : cut <+: f.encode) (hne : cut ≠ f.encode) (hpos : cut ≠ []) (s : Session)
    (rest : Input) : turn s (sent cut ++ none :: rest) = .inl (.timedOut s) := by
  obtain ⟨more, rfl, hcases⟩ := cut_cases hcut hne hpos
  have htag : readExact 1 (sent (f.tag :: more) ++ none :: rest) =
      .ok [f.tag] (sent more ++ none :: rest) := rfl
  rw [turn, htag]
  dsimp only
  rw [List.headD_cons, if_neg hopen]
  rcases hcases with hshort | ⟨part, rfl, hpart⟩
  · rw [readExact_paused hshort]
  · have hfield := readExact_sent (toBe 4 f.len) (sent part ++ none :: rest)
    have hbody : part.length < fromBe (toBe 4 f.len) - 4 := by
      rw [fromBe_len hf, Frame.len]
      omega
    rw [length_toBe] at hfield
    rw [sent_append, List.append_assoc, hfield]
    dsimp only
    rw [readExact_paused hbody]

theorem turn_cut {f : Frame} (hf : f.Fits) (hopen : f.tag ≠ tag 'X') {cut : List UInt8}
    (hcut : cut <+: f.encode) (hne : cut ≠ f.encode) (s : Session) :
    turn s (sent cut) = .inl (.waiting s) := by
  by_cases hpos : cut = []
  · rw [hpos]
    rfl
  obtain ⟨more, rfl, hcases⟩ := cut_cases hcut hne hpos
  have htag : readExact 1 (sent (f.tag :: more)) = .ok [f.tag] (sent more) := rfl
  rw [turn, htag]
  dsimp only
  rw [List.headD_cons, if_neg hopen]
  rcases hcases with hshort | ⟨part, rfl, hpart⟩
  · rw [readExact_short hshort]
  · have hfield := readExact_sent (toBe 4 f.len) (sent part)
    have hbody : part.length < fromBe (toBe 4 f.len) - 4 := by
      rw [fromBe_len hf, Frame.len]
      omega
    rw [length_toBe] at hfield
    rw [sent_append, hfield]
    dsimp only
    rw [readExact_short hbody]

theorem turn_terminate (s : Session) (rest : Input) :
    turn s (some (tag 'X') :: rest) = .inl (.terminated s) := rfl

theorem turn_none (s : Session) (rest : Input) : turn s (none :: rest) = .inr (s, rest) := rfl

theorem turn_nil (s : Session) : turn s [] = .inl (.waiting s) := rfl

/-! ## What has been read -/

/-- The message does not end a batch. -/
def isOpen (f : Frame) : Bool := !endsBatch f.tag

/-- The messages that were read: up to the last that ends a batch they are forwarded, the others are
pending. -/
structure Session.Holds (s : Session) (done : List Frame) : Prop where
  forwarded : s.forwarded.flatten = encodeAll (done.rdropWhile isOpen)
  pending : s.pending = encodeAll (done.rtakeWhile isOpen)

theorem holds_start : Session.start.Holds [] := ⟨rfl, rfl⟩

theorem Session.Holds.push {s : Session} {done : List Frame} (h : s.Holds done) (f : Frame) :
    (s.push f.tag (toBe 4 f.len) f.body).Holds (done ++ [f]) := by
  have hbytes : s.pending ++ [f.tag] ++ toBe 4 f.len ++ f.body =
      encodeAll (done.rtakeWhile isOpen ++ [f]) := by
    rw [h.pending, encodeAll_append]
    simp [encodeAll, Frame.encode]
  unfold Session.push
  dsimp only
  rw [hbytes]
  cases hend : endsBatch f.tag with
  | true =>
    have hopen : isOpen f = false := by simp [isOpen, hend]
    refine ⟨?_, ?_⟩
    · rw [if_pos rfl, List.rdropWhile_concat, hopen, if_neg Bool.false_ne_true]
      simp only [List.flatten_append, List.flatten_singleton, h.forwarded]
      rw [← encodeAll_append, ← List.append_assoc, List.rdropWhile_append_rtakeWhile]
    · rw [if_pos rfl, List.rtakeWhile_concat, hopen, if_neg Bool.false_ne_true]
      rfl
  | false =>
    have hopen : isOpen f = true := by simp [isOpen, hend]
    refine ⟨?_, ?_⟩
    · rw [if_neg Bool.false_ne_true, List.rdropWhile_concat, hopen, if_pos rfl]
      exact h.forwarded
    · rw [if_neg Bool.false_ne_true, List.rtakeWhile_concat, hopen, if_pos rfl]

/-! ## Timeouts inside of messages -/

/-- A timeout comes inside of a message that is read: behind its first byte and before its last. A
`Terminate` is not read beyond its tag. -/
def Interrupted (fs : List Frame) (input : Input) : Prop :=
  ∃ before f after pre post, fs = before ++ f :: after ∧
    (∀ g ∈ before ++ [f], g.tag ≠ tag 'X') ∧ input = pre ++ none :: post ∧
    (encodeAll before).length < (Input.bytes pre).length ∧
    (Input.bytes pre).length < (encodeAll (before ++ [f])).length

theorem interrupted_nil {fs : List Frame} : ¬ Interrupted fs [] := by
  rintro ⟨before, f, after, pre, post, -, -, hinput, -⟩
  exact absurd hinput (by simp)

theorem interrupted_none {fs : List Frame} {rest : Input} :
    Interrupted fs (none :: rest) ↔ Interrupted fs rest := by
  constructor
  · rintro ⟨before, f, after, pre, post, hfs, hopen, hinput, hpos, hlt⟩
    cases pre with
    | nil => simp [Input.bytes] at hpos
    | cons x pre =>
      obtain ⟨rfl, rfl⟩ := List.cons.inj hinput
      exact ⟨before, f, after, pre, post, hfs, hopen, rfl, hpos, hlt⟩
  · rintro ⟨before, f, after, pre, post, hfs, hopen, rfl, hpos, hlt⟩
    exact ⟨before, f, after, none :: pre, post, hfs, hopen, rfl, hpos, hlt⟩

theorem not_interrupted_terminate {f : Frame} {fs : List Frame} (h : f.tag = tag 'X')
    (input : Input) : ¬ Interrupted (f :: fs) input := by
  rintro ⟨before, g, after, pre, post, hfs, hopen, -⟩
  have hmem : f ∈ before ++ [g] := by
    cases before with
    | nil => simp [(List.cons.inj hfs).1]
    | cons g' before => simp [(List.cons.inj hfs).1]
  exact hopen f hmem h

/-- A timeout among what came after these bytes. -/
theorem sent_append_eq {bs : List UInt8} {rest pre post : Input}
    (h : sent bs ++ rest = pre ++ none :: post) :
    ∃ pre', pre = sent bs ++ pre' ∧ rest = pre' ++ none :: post := by
  rcases List.append_eq_append_iff.1 h with ⟨pre', hpre, hrest⟩ | ⟨more, hsent, hmore⟩
  · exact ⟨pre', hpre, hrest⟩
  · cases more with
    | nil => exact ⟨[], by simpa using hsent.symm, by simpa using hmore.symm⟩
    | cons x more =>
      obtain ⟨rfl, -⟩ := List.cons.inj hmore
      have hmem : none ∈ sent bs := by simp [hsent]
      simp [sent] at hmem

theorem interrupted_frame {f : Frame} {fs : List Frame} (hopen : f.tag ≠ tag 'X') {rest : Input} :
    Interrupted (f :: fs) (sent f.encode ++ rest) ↔ Interrupted fs rest := by
  constructor
  · rintro ⟨before, g, after, pre, post, hfs, hall, hinput, hpos, hlt⟩
    obtain ⟨pre', rfl, rfl⟩ := sent_append_eq hinput
    rw [bytes_append, bytes_sent, List.length_append] at hpos hlt
    cases before with
    | nil =>
      obtain ⟨rfl, rfl⟩ := List.cons.inj hfs
      rw [List.nil_append, encodeAll_cons, encodeAll_nil, List.append_nil] at hlt
      omega
    | cons g' before =>
      obtain ⟨rfl, rfl⟩ := List.cons.inj hfs
      rw [encodeAll_cons, List.length_append] at hpos
      rw [List.cons_append, encodeAll_cons, List.length_append] at hlt
      refine ⟨before, g, after, pre', post, rfl, fun x hx => hall x (List.mem_cons_of_mem _ hx),
        rfl, by omega, by omega⟩
  · rintro ⟨before, g, after, pre, post, rfl, hall, rfl, hpos, hlt⟩
    refine ⟨f :: before, g, after, sent f.encode ++ pre, post, rfl, ?_, by simp, ?_, ?_⟩
    · rw [List.cons_append, List.forall_mem_cons]
      exact ⟨hopen, hall⟩
    · simp only [encodeAll_cons, bytes_append, bytes_sent, List.length_append]
      omega
    · simp only [List.cons_append, encodeAll_cons, bytes_append, bytes_sent, List.length_append]
      omega

theorem interrupted_cut {f : Frame} {fs : List Frame} (hopen : f.tag ≠ tag 'X') {cut : List UInt8}
    (hcut : cut <+: f.encode) (hne : cut ≠ f.encode) (hpos : cut ≠ []) (rest : Input) :
    Interrupted (f :: fs) (sent cut ++ none :: rest) := by
  refine ⟨[], f, fs, sent cut, rest, rfl, by simpa using hopen, rfl, ?_, ?_⟩
  · simpa using List.length_pos_iff.2 hpos
  · rw [bytes_sent]
    simpa [encodeAll] using lt_of_le_of_ne hcut.length_le fun heq => hne (hcut.eq_of_length heq)

/-! ## The whole stream -/

/-- The messages before a `Terminate`. -/
def beforeTerminate (fs : List Frame) : List Frame :=
  fs.takeWhile fun f => f.tag ≠ tag 'X'

/-- **Spec of the loop.** A timeout inside of a message ends the session. Without one, the messages
are read up to a `Terminate`. -/
theorem serve_spec {fs done : List Frame} {input : Input} {s : Session} (hfits : ∀ f ∈ fs, f.Fits)
    (hbytes : input.bytes = encodeAll fs) (hs : s.Holds done) :
    (Interrupted fs input ∧ ∃ s', serve s input = .timedOut s') ∨
      (¬ Interrupted fs input ∧ ∃ s', s'.Holds (done ++ beforeTerminate fs) ∧
        serve s input =
          if ∀ f ∈ fs, f.tag ≠ tag 'X' then .waiting s' else .terminated s') := by
  induction hlen : input.length using Nat.strong_induction_on generalizing fs done input s with
  | _ len ih =>
    cases input with
    | nil =>
      obtain rfl : fs = [] := by
        cases fs with
        | nil => rfl
        | cons f fs => simp [Input.bytes, Frame.encode] at hbytes
      refine .inr ⟨interrupted_nil, s, by simpa [beforeTerminate] using hs, ?_⟩
      rw [serve_inl (turn_nil s), if_pos (by simp)]
    | cons x rest =>
    cases x with
    | none =>
      rw [interrupted_none, serve_inr (turn_none s rest)]
      exact ih rest.length (hlen ▸ Nat.lt_succ_self _) hfits hbytes hs rfl
    | some b =>
      cases fs with
      | nil => simp [Input.bytes] at hbytes
      | cons f fs =>
        obtain ⟨hf, hfs⟩ := List.forall_mem_cons.1 hfits
        have hb : b = f.tag := by
          have hcons : b :: Input.bytes rest = f.tag :: (toBe 4 f.len ++ f.body ++ encodeAll fs) := by
            simpa [Input.bytes, Frame.encode] using hbytes
          exact (List.cons.inj hcons).1
        by_cases hopen : f.tag = tag 'X'
        · refine .inr ⟨not_interrupted_terminate hopen _, s, ?_, ?_⟩
          · simpa [beforeTerminate, hopen] using hs
          · have hnot : ¬ ∀ g ∈ f :: fs, g.tag ≠ tag 'X' := fun hall =>
              hall f List.mem_cons_self hopen
            rw [if_neg hnot, hb, hopen, serve_inl (turn_terminate s rest)]
        · have hprefix : Input.bytes (some b :: rest) <+: f.encode ++ encodeAll fs :=
            ⟨[], by rw [List.append_nil, hbytes, encodeAll_cons]⟩
          rcases sent_cases hprefix with
            ⟨rest', hrest⟩ | ⟨cut, rest', hcut, hne, hrest⟩ | ⟨cut, hcut, hne, hrest⟩
          · have hbytes' : rest'.bytes = encodeAll fs := by
              rw [hrest, bytes_append, bytes_sent, encodeAll_cons] at hbytes
              exact List.append_cancel_left hbytes
            have hshorter : rest'.length < len := by
              rw [← hlen, hrest, List.length_append]
              simp [sent]
            have hdone : done ++ beforeTerminate (f :: fs) = (done ++ [f]) ++ beforeTerminate fs := by
              simp [beforeTerminate, hopen]
            have hall : (∀ g ∈ f :: fs, g.tag ≠ tag 'X') ↔ ∀ g ∈ fs, g.tag ≠ tag 'X' := by
              rw [List.forall_mem_cons, and_iff_right hopen]
            rw [hrest, interrupted_frame hopen, serve_inr (turn_frame hf hopen s rest'), hdone]
            simp only [hall]
            exact ih _ hshorter hfs hbytes' (hs.push f) rfl
          · have hpos : cut ≠ [] := by
              rintro rfl
              cases (List.cons.inj hrest).1
            rw [hrest]
            exact .inl ⟨interrupted_cut hopen hcut hne hpos rest',
              s, serve_inl (turn_paused hf hopen hcut hne hpos s rest')⟩
          · rw [hrest, bytes_sent, encodeAll_cons] at hbytes
            have hlt : cut.length < f.encode.length :=
              lt_of_le_of_ne hcut.length_le fun heq => hne (hcut.eq_of_length heq)
            rw [hbytes, List.length_append] at hlt
            omega

/-- The longest beginning that ends with a message that ends a batch, before any `Terminate`. -/
def batches (fs : List Frame) : List Frame :=
  (beforeTerminate fs).rdropWhile isOpen

/-- **Timeouts.** What is forwarded is the same as without them, and none closes the connection,
exactly when no timeout comes inside of a message. -/
theorem pauses_harmless_iff {fs : List Frame} (hfits : ∀ f ∈ fs, f.Fits) {input : Input}
    (hbytes : input.bytes = encodeAll fs) :
    ((serve .start input).session.forwarded.flatten = encodeAll (batches fs) ∧
      ∀ s, serve .start input ≠ .timedOut s) ↔ ¬ Interrupted fs input := by
  rcases serve_spec hfits hbytes holds_start with ⟨hin, s, hs⟩ | ⟨hin, s, hs, hserve⟩
  · exact iff_of_false (fun h => h.2 s hs) fun h => h hin
  · refine iff_of_true ⟨?_, fun s' => ?_⟩ hin
    · have hsession : (serve .start input).session = s := by
        rw [hserve]
        split <;> rfl
      rw [hsession, hs.forwarded, List.nil_append]
      rfl
    · rw [hserve]
      split <;> nofun

/-- A pause before a query. -/
theorem pauses_harmless_iff_query :
    ((serve .start (none :: sent (encodeAll [⟨tag 'Q', [0]⟩]))).session.forwarded.flatten =
        encodeAll (batches [⟨tag 'Q', [0]⟩]) ∧
      ∀ s, serve .start (none :: sent (encodeAll [⟨tag 'Q', [0]⟩])) ≠ .timedOut s) ↔
    ¬ Interrupted [⟨tag 'Q', [0]⟩] (none :: sent (encodeAll [⟨tag 'Q', [0]⟩])) :=
  pauses_harmless_iff (by decide) (by decide)

/-- A query whose client stalls behind its first byte is not forwarded, and ends the session. -/
theorem pause_in_query : ¬ ∀ (fs : List Frame) (input : Input), (∀ f ∈ fs, f.Fits) →
    input.bytes = encodeAll fs →
    (serve .start input).session.forwarded.flatten = encodeAll (batches fs) ∧
      ∀ s, serve .start input ≠ .timedOut s := by
  intro h
  have hstall : serve .start (some (tag 'Q') :: none :: sent [0, 0, 0, 5, 0]) = .timedOut .start :=
    serve_inl (by decide)
  have hquery := h [⟨tag 'Q', [0]⟩] (some (tag 'Q') :: none :: sent [0, 0, 0, 5, 0]) (by decide)
    (by decide)
  exact hquery.2 .start hstall

/-! ## What is withheld -/

/-- The message obliges the server to answer before it gets more. For the end of a copy that is so
while a copy is in progress. -/
def obliges (copying : Bool) (t : UInt8) : Bool :=
  t = tag 'Q' || t = tag 'F' || t = tag 'S' || t = tag 'H' ||
    (copying && (t = tag 'c' || t = tag 'f'))

/-- What was read is a beginning of the messages, wherever the session waits. -/
theorem waiting_holds {fs done : List Frame} {input : Input} {s s' : Session}
    (hfits : ∀ f ∈ fs, f.Fits) (hbytes : input.bytes <+: encodeAll fs) (hs : s.Holds done)
    (hserve : serve s input = .waiting s') :
    ∃ more, more <+: beforeTerminate fs ∧ s'.Holds (done ++ more) := by
  induction hlen : input.length using Nat.strong_induction_on generalizing fs done input s with
  | _ len ih =>
    cases input with
    | nil =>
      rw [serve_inl (turn_nil s)] at hserve
      obtain rfl := Outcome.waiting.inj hserve
      exact ⟨[], List.nil_prefix, by simpa using hs⟩
    | cons x rest =>
    cases x with
    | none =>
      have hbytes' : Input.bytes rest <+: encodeAll fs := hbytes
      rw [serve_inr (turn_none s rest)] at hserve
      exact ih rest.length (hlen ▸ Nat.lt_succ_self _) hfits hbytes' hs hserve rfl
    | some b =>
      cases fs with
      | nil => simp [Input.bytes] at hbytes
      | cons f fs =>
        obtain ⟨hf, hfs⟩ := List.forall_mem_cons.1 hfits
        have hb : b = f.tag := by
          have hcons : b :: Input.bytes rest <+:
              f.tag :: (toBe 4 f.len ++ f.body ++ encodeAll fs) := by
            simpa [Input.bytes, Frame.encode] using hbytes
          exact (List.cons_prefix_cons.1 hcons).1
        by_cases hopen : f.tag = tag 'X'
        · rw [hb, hopen, serve_inl (turn_terminate s rest)] at hserve
          cases hserve
        rw [encodeAll_cons] at hbytes
        rcases sent_cases hbytes with
          ⟨rest', hrest⟩ | ⟨cut, rest', hcut, hne, hrest⟩ | ⟨cut, hcut, hne, hrest⟩
        · have hbytes' : rest'.bytes <+: encodeAll fs := by
            rw [hrest, bytes_append, bytes_sent] at hbytes
            exact (List.prefix_append_right_inj _).1 hbytes
          have hshorter : rest'.length < len := by
            rw [← hlen, hrest, List.length_append]
            simp [sent]
          rw [hrest, serve_inr (turn_frame hf hopen s rest')] at hserve
          obtain ⟨more, hmore, hholds⟩ := ih _ hshorter hfs hbytes' (hs.push f) hserve rfl
          have hbefore : beforeTerminate (f :: fs) = f :: beforeTerminate fs := by
            simp [beforeTerminate, hopen]
          refine ⟨f :: more, ?_, by simpa using hholds⟩
          rw [hbefore]
          exact (List.prefix_cons_inj f).2 hmore
        · have hpos : cut ≠ [] := by
            rintro rfl
            cases (List.cons.inj hrest).1
          rw [hrest, serve_inl (turn_paused hf hopen hcut hne hpos s rest')] at hserve
          cases hserve
        · rw [hrest, serve_inl (turn_cut hf hopen hcut hne s)] at hserve
          obtain rfl := Outcome.waiting.inj hserve
          exact ⟨[], List.nil_prefix, by simpa using hs⟩

/-- **What is withheld.** While the gateway waits for the next byte it has forwarded every message
that the server has to answer, exactly when the client never sends a `Flush`. -/
theorem nothing_withheld_iff {fs : List Frame} (hfits : ∀ f ∈ fs, f.Fits) :
    (∀ input : Input, input.bytes <+: encodeAll fs → ∀ s, serve .start input = .waiting s →
      ∀ gs, Parses s.pending gs → ∀ g ∈ gs, ∀ copying, obliges copying g.tag = false) ↔
    ∀ f ∈ beforeTerminate fs, f.tag ≠ tag 'H' := by
  constructor
  · intro h f hf hflush
    obtain ⟨before, after, hsplit⟩ := List.append_of_mem hf
    have hbefore : before ++ [f] <+: beforeTerminate fs := ⟨after, by rw [hsplit]; simp⟩
    have hsub : before ++ [f] <+: fs := hbefore.trans (List.takeWhile_prefix _)
    have hfits' : ∀ g ∈ before ++ [f], g.Fits := fun g hg => hfits g (hsub.subset hg)
    have hrun : ∀ g ∈ before ++ [f], g.tag ≠ tag 'X' := fun g hg => by
      simpa using List.mem_takeWhile_imp (hbefore.subset hg)
    have hall : beforeTerminate (before ++ [f]) = before ++ [f] :=
      List.takeWhile_eq_self_iff.2 fun g hg => by simpa using hrun g hg
    have hin : ¬ Interrupted (before ++ [f]) (sent (encodeAll (before ++ [f]))) := by
      rintro ⟨_, _, _, pre, post, _, _, hinput, _⟩
      have hmem : none ∈ sent (encodeAll (before ++ [f])) := by simp [hinput]
      simp [sent] at hmem
    rcases serve_spec hfits' (bytes_sent _) holds_start with ⟨hpaused, -⟩ | ⟨-, s, hs, hserve⟩
    · exact hin hpaused
    rw [if_pos hrun] at hserve
    rw [List.nil_append, hall] at hs
    have hopen : isOpen f = true := by
      rw [isOpen, hflush]
      decide
    have hpending := hs.pending
    rw [List.rtakeWhile_concat, hopen, if_pos rfl] at hpending
    have hparses : Parses s.pending (before.rtakeWhile isOpen ++ [f]) := by
      refine parses_iff.2 ⟨fun g hg => hfits' g ?_, hpending⟩
      rcases List.mem_append.1 hg with hg | hg
      · exact List.mem_append_left _ ((List.rtakeWhile_suffix _ _).subset hg)
      · exact List.mem_append_right _ hg
    have hprefix : (sent (encodeAll (before ++ [f]))).bytes <+: encodeAll fs := by
      obtain ⟨rest, hrest⟩ := hsub
      rw [bytes_sent, ← hrest, encodeAll_append _ rest]
      exact List.prefix_append _ _
    have hanswer := h _ hprefix s hserve _ hparses f (by simp) false
    rw [hflush] at hanswer
    exact absurd hanswer (by decide)
  · intro h input hbytes s hserve gs hparses g hg copying
    obtain ⟨more, hmore, hs⟩ := waiting_holds hfits hbytes holds_start hserve
    rw [List.nil_append] at hs
    have hgs : gs = more.rtakeWhile isOpen := by
      have hfits' : ∀ f ∈ more.rtakeWhile isOpen, f.Fits := fun f hf =>
        hfits f ((hmore.trans (List.takeWhile_prefix _)).subset ((List.rtakeWhile_suffix _ _).subset hf))
      exact hparses.unique (parses_iff.2 ⟨hfits', hs.pending⟩)
    subst hgs
    have hopen : isOpen g = true := List.mem_rtakeWhile_imp hg
    have hflush := h g (hmore.subset ((List.rtakeWhile_suffix _ _).subset hg))
    simp only [isOpen, endsBatch, obliges, Bool.not_eq_true', Bool.or_eq_false_iff,
      decide_eq_false_iff_not] at hopen ⊢
    obtain ⟨⟨⟨⟨hQ, hF⟩, hS⟩, hc⟩, hff⟩ := hopen
    simp [hQ, hF, hS, hc, hff, hflush]

theorem nothing_withheld_iff_sync :
    (∀ input : Input, input.bytes <+: encodeAll [⟨tag 'D', [83, 0]⟩, ⟨tag 'S', []⟩] →
      ∀ s, serve .start input = .waiting s →
      ∀ gs, Parses s.pending gs → ∀ g ∈ gs, ∀ copying, obliges copying g.tag = false) ↔
    ∀ f ∈ beforeTerminate [⟨tag 'D', [83, 0]⟩, ⟨tag 'S', []⟩], f.tag ≠ tag 'H' :=
  nothing_withheld_iff (by decide)

/-- A client that describes a statement and asks for the answer with `Flush`. -/
theorem flush_withheld : ¬ ∀ fs : List Frame, (∀ f ∈ fs, f.Fits) →
    ∀ input : Input, input.bytes <+: encodeAll fs → ∀ s, serve .start input = .waiting s →
      ∀ gs, Parses s.pending gs → ∀ g ∈ gs, ∀ copying, obliges copying g.tag = false := by
  intro h
  let fs : List Frame := [⟨tag 'D', [83, 0]⟩, ⟨tag 'H', []⟩]
  have hserve : serve .start (sent (encodeAll fs)) = .waiting ⟨encodeAll fs, []⟩ := by
    have hfirst : turn .start (sent (encodeAll fs)) =
        .inr (⟨Frame.encode ⟨tag 'D', [83, 0]⟩, []⟩, sent (Frame.encode ⟨tag 'H', []⟩)) := by
      decide
    have hsecond : turn ⟨Frame.encode ⟨tag 'D', [83, 0]⟩, []⟩ (sent (Frame.encode ⟨tag 'H', []⟩)) =
        .inr (⟨encodeAll fs, []⟩, []) := by
      decide
    rw [serve_inr hfirst, serve_inr hsecond, serve_inl (turn_nil _)]
  have hanswer := h fs (by decide) (sent (encodeAll fs)) (by simp) _ hserve fs
    (parses_iff.2 ⟨by decide, rfl⟩) ⟨tag 'H', []⟩ (by decide) false
  exact absurd hanswer (by decide)

end GatewayReader

end Pglite
