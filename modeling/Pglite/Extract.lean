import Mathlib.Data.List.AList
import Pglite.Runs
import Pglite.TaskList

/-!
# Extracting the runtime

`extract_runtime_to` unpacks the archive into a staging directory that is named after the process,
writes `.extracted` there and renames the directory. Calls take turns at every step in the file
system. Calls of one process have the same staging directory.

Main results: `trustworthy_of_alone`, that a marker stands in a whole tree when the calls of a
process keep out of each other's staging directory, and `overlap_not_trustworthy`, that they do
not.
-/

namespace Pglite.Extract

open Runs

/-! ## The disk -/

/-- What can be in a directory: files, and `.extracted`. -/
inductive Entry (μ : Type)
  | file (path : μ)
  | marker
deriving DecidableEq

/-- The entries of a directory tree, and whether each is complete. -/
abbrev Tree (μ : Type) := AList fun _ : Entry μ => Bool

section Tree

variable {μ : Type} [DecidableEq μ]

/-- `.extracted` is there. -/
def Tree.extracted (t : Tree μ) : Bool :=
  (t.lookup .marker).isSome

/-- Every one of the files is there and complete. -/
def Tree.Whole (files : List μ) (t : Tree μ) : Prop :=
  ∀ m ∈ files, t.lookup (.file m) = some true

end Tree

/-- The runtime directory, and the staging directory of each process. -/
structure Disk (μ : Type) where
  runtime : Option (Tree μ)
  staging : Nat → Option (Tree μ)

/-- Where a call of `extract_runtime_to` stands. -/
inductive Pc (μ : Type)
  | checking
  /-- It removes the staging directory. -/
  | clearing
  | creating
  | unpacking (rest : List μ)
  | moving
  /-- It removes the staging directory because the rename has failed. -/
  | cleaning
  | finished (result : Except String Unit)
  /-- It has returned an I/O error, or its process is gone. -/
  | stopped

/-- The staging directory is being filled. -/
def Pc.filling {μ : Type} : Pc μ → Bool
  | .unpacking _ | .moving => true
  | _ => false

structure Call (μ : Type) where
  pid : Nat
  pc : Pc μ

structure State (μ : Type) where
  disk : Disk μ
  calls : List (Call μ)

/-- A step of a call. -/
inductive Action (μ : Type)
  | check
  | unlink (e : Entry μ)
  | rmdir
  /-- `remove_dir_all` has ended, with an error or not. -/
  | removed
  | create
  | unpack
  | mark
  | rename
  | renameFails
  /-- The call stops. A file that it was about to unpack may be there in part. -/
  | stop (touched : Bool)

inductive Event (μ : Type)
  | call (pid : Nat)
  | act (i : Nat) (a : Action μ)

section Steps

variable {μ : Type} [DecidableEq μ]

namespace Disk

def extracted (d : Disk μ) : Bool :=
  match d.runtime with
  | some t => t.extracted
  | none => false

/-- A directory can be renamed to the runtime directory. -/
def free (d : Disk μ) : Bool :=
  match d.runtime with
  | some t => t.entries.isEmpty
  | none => true

def setStaging (d : Disk μ) (pid : Nat) (t : Option (Tree μ)) : Disk μ :=
  { d with staging := Function.update d.staging pid t }

def unlink (d : Disk μ) (pid : Nat) (e : Entry μ) : Disk μ :=
  d.setStaging pid ((d.staging pid).map fun t => t.erase e)

/-- The directory is made when it is not there. -/
def create (d : Disk μ) (pid : Nat) : Disk μ :=
  d.setStaging pid (some ((d.staging pid).getD ∅))

/-- Missing parents are made. -/
def put (d : Disk μ) (pid : Nat) (e : Entry μ) (complete : Bool) : Disk μ :=
  d.setStaging pid (some (((d.staging pid).getD ∅).insert e complete))

end Disk

/-- A step of a call of the process `pid`. -/
def act (archive : List μ) (d : Disk μ) (pid : Nat) : Pc μ → Action μ → Option (Disk μ × Pc μ)
  | .checking, .check => some (d, if d.extracted then .finished (.ok ()) else .clearing)
  | .clearing, .unlink e => some (d.unlink pid e, .clearing)
  | .clearing, .rmdir =>
    match d.staging pid with
    | some t => if t.entries.isEmpty then some (d.setStaging pid none, .clearing) else none
    | none => none
  | .clearing, .removed => some (d, .creating)
  | .creating, .create => some (d.create pid, .unpacking archive)
  | .unpacking (m :: rest), .unpack => some (d.put pid (.file m) true, .unpacking rest)
  | .unpacking [], .mark =>
    -- The write makes no parents.
    match d.staging pid with
    | some _ => some (d.put pid .marker true, .moving)
    | none => none
  | .moving, .rename =>
    match d.staging pid with
    | some t =>
      if d.free then some ({ d.setStaging pid none with runtime := some t }, .finished (.ok ()))
      else none
    | none => none
  | .moving, .renameFails => some (d, .cleaning)
  | .cleaning, .unlink e => some (d.unlink pid e, .cleaning)
  | .cleaning, .rmdir =>
    match d.staging pid with
    | some t => if t.entries.isEmpty then some (d.setStaging pid none, .cleaning) else none
    | none => none
  | .cleaning, .removed =>
    some (d, .finished (if d.extracted then .ok ()
      else .error "runtime extraction race lost and target invalid"))
  | .unpacking (m :: _), .stop true => some (d.put pid (.file m) false, .stopped)
  | .finished _, .stop _ => none
  | .stopped, .stop _ => none
  | _, .stop _ => some (d, .stopped)
  | _, _ => none

def step (archive : List μ) (s : State μ) : Event μ → Option (State μ)
  | .call pid => some { s with calls := s.calls ++ [⟨pid, .checking⟩] }
  | .act i a =>
    (s.calls[i]?).bind fun c => (act archive s.disk c.pid c.pc a).map fun (d, pc) =>
      ⟨d, s.calls.set i ⟨c.pid, pc⟩⟩

/-- No call has begun. -/
def start (d : Disk μ) : State μ := ⟨d, []⟩

/-- A marker in the runtime directory stands for the whole archive. -/
def Trustworthy (archive : List μ) (d : Disk μ) : Prop :=
  ∀ t, d.runtime = some t → t.extracted = true → t.Whole archive

/-- The marker is in the runtime directory, with the whole archive. -/
def Extracted (archive : List μ) (d : Disk μ) : Prop :=
  ∃ t, d.runtime = some t ∧ t.extracted = true ∧ t.Whole archive

/-- The step removes or makes the staging directory. -/
def Action.clears : Action μ → Bool
  | .unlink _ | .rmdir | .create => true
  | _ => false

/-- A call removes or makes its staging directory only while no other call of its process fills
it. -/
def Alone (s : State μ) : Event μ → Prop
  | .call _ => True
  | .act i a => a.clears = true → ∀ c ∈ s.calls[i]?, ∀ c' ∈ s.calls.eraseIdx i, c'.pid = c.pid →
    c'.pc.filling = false

instance (s : State μ) : DecidablePred (Alone s)
  | .call _ => inferInstanceAs (Decidable True)
  | .act i a => inferInstanceAs (Decidable (a.clears = true → ∀ c ∈ s.calls[i]?,
    ∀ c' ∈ s.calls.eraseIdx i, c'.pid = c.pid → c'.pc.filling = false))

/-! ## What a step of a call does -/

/-- The ways in which a step of a call changes the disk. -/
inductive Effect (archive : List μ) (d : Disk μ) (pid : Nat) :
    Pc μ → Action μ → Disk μ → Pc μ → Prop
  | idle {pc a pc'} (hfilling : pc'.filling = false)
    (hok : pc' = .finished (.ok ()) → d.extracted = true) : Effect archive d pid pc a d pc'
  | clear {pc a} (t : Option (Tree μ)) (hclears : a.clears = true) (hfilling : pc.filling = false)
    (hok : pc ≠ .finished (.ok ())) : Effect archive d pid pc a (d.setStaging pid t) pc
  | create {pc} : Effect archive d pid pc .create (d.create pid) (.unpacking archive)
  | unpack {a} (m : μ) (rest : List μ) :
    Effect archive d pid (.unpacking (m :: rest)) a (d.put pid (.file m) true) (.unpacking rest)
  | mark {a} : Effect archive d pid (.unpacking []) a (d.put pid .marker true) .moving
  | rename {a} (t : Tree μ) (hstaging : d.staging pid = some t) (hfree : d.free = true) :
    Effect archive d pid .moving a { d.setStaging pid none with runtime := some t }
      (.finished (.ok ()))
  | torn {a} (m : μ) (rest : List μ) :
    Effect archive d pid (.unpacking (m :: rest)) a (d.put pid (.file m) false) .stopped

variable {archive : List μ} {d d' : Disk μ} {pid : Nat} {pc pc' : Pc μ} {a : Action μ}

theorem act_effect (h : act archive d pid pc a = some (d', pc')) :
    Effect archive d pid pc a d' pc' := by
  cases pc with
  | checking =>
    cases a <;> cases h
    · refine .idle ?_ ?_ <;> split <;> simp_all [Pc.filling]
    · exact .idle rfl (by simp)
  | clearing =>
    cases a with
    | unlink e =>
      cases h
      exact .clear _ rfl rfl (by simp)
    | rmdir =>
      rw [act] at h
      split at h
      · split at h
        · cases h
          exact .clear _ rfl rfl (by simp)
        · cases h
      · cases h
    | removed =>
      cases h
      exact .idle rfl (by simp)
    | stop touched =>
      cases h
      exact .idle rfl (by simp)
    | _ => cases h
  | creating =>
    cases a <;> cases h
    · exact .create
    · exact .idle rfl (by simp)
  | unpacking rest =>
    cases rest with
    | nil =>
      cases a with
      | mark =>
        rw [act] at h
        split at h
        · cases h
          exact .mark
        · cases h
      | stop touched =>
        cases h
        exact .idle rfl (by simp)
      | _ => cases h
    | cons m rest =>
      cases a with
      | unpack =>
        cases h
        exact .unpack m rest
      | stop touched =>
        cases touched <;> cases h
        · exact .idle rfl (by simp)
        · exact .torn m rest
      | _ => cases h
  | moving =>
    cases a with
    | rename =>
      rw [act] at h
      split at h
      · next t ht =>
        split at h
        · next hfree =>
          cases h
          exact .rename t ht hfree
        · cases h
      · cases h
    | renameFails =>
      cases h
      exact .idle rfl (by simp)
    | stop touched =>
      cases h
      exact .idle rfl (by simp)
    | _ => cases h
  | cleaning =>
    cases a with
    | unlink e =>
      cases h
      exact .clear _ rfl rfl (by simp)
    | rmdir =>
      rw [act] at h
      split at h
      · split at h
        · cases h
          exact .clear _ rfl rfl (by simp)
        · cases h
      · cases h
    | removed =>
      cases h
      refine .idle rfl fun hok => ?_
      by_contra hno
      rw [if_neg hno] at hok
      cases hok
    | stop touched =>
      cases h
      exact .idle rfl (by simp)
    | _ => cases h
  | finished result => cases a <;> cases h
  | stopped => cases a <;> cases h

namespace Effect

/-- A call only works on the staging directory of its process. -/
theorem staging_of_ne (h : Effect archive d pid pc a d' pc') {q : Nat} (hq : q ≠ pid) :
    d'.staging q = d.staging q := by
  cases h with
  | idle => rfl
  | _ => exact Function.update_of_ne hq ..

/-- It touches that directory only if it clears it or fills it. -/
theorem still (h : Effect archive d pid pc a d' pc') :
    d' = d ∨ a.clears = true ∨ pc.filling = true := by
  cases h with
  | idle => exact .inl rfl
  | clear t hclears => exact .inr (.inl hclears)
  | create => exact .inr (.inl rfl)
  | _ => exact .inr (.inr rfl)

/-- It begins to fill it only by making it. -/
theorem filling (h : Effect archive d pid pc a d' pc') (hpc : pc'.filling = true) :
    pc.filling = true ∨ a.clears = true := by
  cases h with
  | idle hfilling =>
    rw [hfilling] at hpc
    cases hpc
  | clear => exact .inl hpc
  | create => exact .inr rfl
  | unpack => exact .inl rfl
  | mark => exact .inl rfl
  | rename => cases hpc
  | torn => cases hpc

end Effect

/-! ## Filling -/

/-- What is in the staging directory that a call fills. -/
def Filled (archive : List μ) (d : Disk μ) (c : Call μ) : Prop :=
  match c.pc with
  | .unpacking rest =>
    ∃ done t, archive = done ++ rest ∧ d.staging c.pid = some t ∧ t.Whole done
  | .moving => ∃ t, d.staging c.pid = some t ∧ t.extracted = true ∧ t.Whole archive
  | _ => True

theorem filled_of_not_filling {c : Call μ} (h : c.pc.filling = false) : Filled archive d c := by
  obtain ⟨pid, pc⟩ := c
  cases pc with
  | unpacking rest => cases h
  | moving => cases h
  | _ => trivial

theorem Filled.congr {c : Call μ} (h : Filled archive d c)
    (heq : d'.staging c.pid = d.staging c.pid) : Filled archive d' c := by
  obtain ⟨pid, pc⟩ := c
  cases pc with
  | unpacking rest =>
    obtain ⟨done, t, harchive, ht, hwhole⟩ := h
    exact ⟨done, t, harchive, heq.trans ht, hwhole⟩
  | moving =>
    obtain ⟨t, ht, hmarker, hwhole⟩ := h
    exact ⟨t, heq.trans ht, hmarker, hwhole⟩
  | _ => trivial

omit [DecidableEq μ] in
theorem setStaging_self (d : Disk μ) (pid : Nat) (t : Option (Tree μ)) :
    (d.setStaging pid t).staging pid = t :=
  Function.update_self ..

theorem put_staging (d : Disk μ) (pid : Nat) (e : Entry μ) (complete : Bool) {t : Tree μ}
    (ht : d.staging pid = some t) : (d.put pid e complete).staging pid = some (t.insert e complete) := by
  rw [Disk.put, ht]
  exact setStaging_self d pid _

theorem Effect.filled (h : Effect archive d pid pc a d' pc') (hfilled : Filled archive d ⟨pid, pc⟩) :
    Filled archive d' ⟨pid, pc'⟩ := by
  cases h with
  | idle hfilling => exact filled_of_not_filling hfilling
  | clear t hclears hfilling => exact filled_of_not_filling hfilling
  | create => exact ⟨[], _, rfl, setStaging_self d pid _, fun m hm => absurd hm List.not_mem_nil⟩
  | unpack m rest =>
    obtain ⟨done, t, rfl, ht, hwhole⟩ := hfilled
    refine ⟨done ++ [m], _, by simp, put_staging d pid _ _ ht, fun m' hm' => ?_⟩
    by_cases hm : m' = m
    · subst hm
      exact AList.lookup_insert t
    · rw [AList.lookup_insert_ne (by simpa using hm)]
      refine hwhole m' ((List.mem_append.1 hm').resolve_right fun hlast => ?_)
      exact hm (List.mem_singleton.1 hlast)
  | mark =>
    obtain ⟨done, t, harchive, ht, hwhole⟩ := hfilled
    rw [List.append_nil] at harchive
    refine ⟨_, put_staging d pid _ _ ht, ?_, fun m hm => ?_⟩
    · rw [Tree.extracted, AList.lookup_insert]
      rfl
    · rw [AList.lookup_insert_ne (by simp)]
      exact hwhole m (harchive ▸ hm)
  | rename => trivial
  | torn => trivial

/-! ## The runtime directory -/

theorem not_extracted_of_free (h : d.free = true) : d.extracted = false := by
  unfold Disk.free at h
  unfold Disk.extracted
  cases hruntime : d.runtime with
  | none => rfl
  | some t =>
    rw [hruntime] at h
    have hempty : t = ∅ := AList.ext (List.isEmpty_iff.1 h)
    rw [hempty]
    rfl

theorem Effect.trustworthy (h : Effect archive d pid pc a d' pc')
    (hfilled : Filled archive d ⟨pid, pc⟩) (ht : Trustworthy archive d) :
    Trustworthy archive d' := by
  cases h with
  | rename t hstaging hfree =>
    obtain ⟨t', ht', -, hwhole⟩ := hfilled
    obtain rfl : t = t' := Option.some.inj (hstaging.symm.trans ht')
    intro u hu _
    exact Option.some.inj hu ▸ hwhole
  | _ => exact ht

/-- A marker stays. -/
theorem Effect.extracted (h : Effect archive d pid pc a d' pc') (hd : d.extracted = true) :
    d'.extracted = true := by
  cases h with
  | rename t hstaging hfree =>
    rw [not_extracted_of_free hfree] at hd
    cases hd
  | _ => exact hd

/-- A call returns `Ok` only when the marker is there. -/
theorem Effect.ok (h : Effect archive d pid pc a d' pc') (hfilled : Filled archive d ⟨pid, pc⟩)
    (hok : pc' = .finished (.ok ())) : d'.extracted = true := by
  cases h with
  | idle hfilling hextracted => exact hextracted hok
  | clear t hclears hfilling hne => exact absurd hok hne
  | rename t hstaging hfree =>
    obtain ⟨t', ht', hmarker, -⟩ := hfilled
    obtain rfl : t = t' := Option.some.inj (hstaging.symm.trans ht')
    exact hmarker
  | _ => cases hok

/-! ## Runs -/

structure Inv (archive : List μ) (s : State μ) : Prop where
  exclusive : ∀ (i j : Nat) (c c' : Call μ), s.calls[i]? = some c → s.calls[j]? = some c' →
    c.pc.filling = true → c'.pc.filling = true → c.pid = c'.pid → i = j
  filled : ∀ (i : Nat) (c : Call μ), s.calls[i]? = some c → Filled archive s.disk c
  trustworthy : Trustworthy archive s.disk
  extracted : ∀ (i : Nat) (c : Call μ), s.calls[i]? = some c →
    c.pc = .finished (.ok ()) → s.disk.extracted = true

variable {s s' : State μ} {e : Event μ}

theorem inv_start (h : Trustworthy archive d) : Inv archive (start d) where
  exclusive i j c c' hc := by simp [start] at hc
  filled i c hc := by simp [start] at hc
  trustworthy := h
  extracted i c hc := by simp [start] at hc

/-- A new call has done nothing yet. -/
theorem inv_call (hinv : Inv archive s) (pid : Nat) :
    Inv archive { s with calls := s.calls ++ [⟨pid, .checking⟩] } := by
  have hcases : ∀ {i : Nat} {c : Call μ}, (s.calls ++ [⟨pid, .checking⟩])[i]? = some c →
      s.calls[i]? = some c ∨ c = ⟨pid, .checking⟩ := by
    intro i c hc
    rw [List.getElem?_append] at hc
    split at hc
    · exact .inl hc
    · rw [List.getElem?_singleton] at hc
      split at hc
      · exact .inr (Option.some.inj hc).symm
      · cases hc
  refine ⟨fun i j c c' hc hc' hf hf' hpid => ?_, fun i c hc => ?_, hinv.trustworthy,
    fun i c hc hok => ?_⟩
  · rcases hcases hc with hold | rfl
    · rcases hcases hc' with hold' | rfl
      · exact hinv.exclusive i j c c' hold hold' hf hf' hpid
      · cases hf'
    · cases hf
  · rcases hcases hc with hold | rfl
    · exact hinv.filled i c hold
    · trivial
  · rcases hcases hc with hold | rfl
    · exact hinv.extracted i c hold hok
    · cases hok

/-- A step of a call, while no other call of its process fills the directory that it clears. -/
theorem inv_act (hinv : Inv archive s) {i : Nat} {c : Call μ} (hc : s.calls[i]? = some c)
    (halone : Alone s (.act i a))
    (heffect : Effect archive s.disk c.pid c.pc a d' pc') :
    Inv archive ⟨d', s.calls.set i ⟨c.pid, pc'⟩⟩ := by
  have hfilled := hinv.filled i c hc
  -- No other call fills the directory of the process, if this one fills or clears it.
  have hother : ∀ j c', j ≠ i → s.calls[j]? = some c' → c'.pc.filling = true →
      c.pc.filling = true ∨ a.clears = true → c'.pid ≠ c.pid := by
    intro j c' hj hc' hf hstep hpid
    rcases hstep with hfill | hclears
    · exact hj (hinv.exclusive j i c' c hc' hc hf hfill hpid)
    · have hmem : c' ∈ s.calls.eraseIdx i := List.mem_eraseIdx_iff_getElem?.2 ⟨j, hj, hc'⟩
      rw [halone hclears c hc c' hmem hpid] at hf
      cases hf
  refine ⟨fun j k c₁ c₂ h₁ h₂ hf₁ hf₂ hpid => ?_, fun j c₁ h₁ => ?_,
    heffect.trustworthy hfilled hinv.trustworthy, fun j c₁ h₁ hok => ?_⟩
  · rcases TaskList.getElem?_set_cases h₁ with ⟨rfl, rfl⟩ | ⟨hj, hold₁⟩
    · rcases TaskList.getElem?_set_cases h₂ with ⟨rfl, rfl⟩ | ⟨hk, hold₂⟩
      · rfl
      · exact absurd hpid.symm (hother k c₂ hk hold₂ hf₂ (heffect.filling hf₁))
    · rcases TaskList.getElem?_set_cases h₂ with ⟨rfl, rfl⟩ | ⟨hk, hold₂⟩
      · exact absurd hpid (hother j c₁ hj hold₁ hf₁ (heffect.filling hf₂))
      · exact hinv.exclusive j k c₁ c₂ hold₁ hold₂ hf₁ hf₂ hpid
  · rcases TaskList.getElem?_set_cases h₁ with ⟨rfl, rfl⟩ | ⟨hj, hold₁⟩
    · exact heffect.filled hfilled
    · cases hf : c₁.pc.filling with
      | false => exact filled_of_not_filling hf
      | true =>
        rcases heffect.still with rfl | hclears | hfill
        · exact hinv.filled j c₁ hold₁
        · have hne := hother j c₁ hj hold₁ hf (.inr hclears)
          exact (hinv.filled j c₁ hold₁).congr (heffect.staging_of_ne hne)
        · have hne := hother j c₁ hj hold₁ hf (.inl hfill)
          exact (hinv.filled j c₁ hold₁).congr (heffect.staging_of_ne hne)
  · rcases TaskList.getElem?_set_cases h₁ with ⟨rfl, rfl⟩ | ⟨hj, hold₁⟩
    · exact heffect.ok hfilled hok
    · exact heffect.extracted (hinv.extracted j c₁ hold₁ hok)

theorem inv_step (hinv : Inv archive s) (halone : Alone s e) (h : step archive s e = some s') :
    Inv archive s' := by
  cases e with
  | call pid =>
    cases h
    exact inv_call hinv pid
  | act i a =>
    obtain ⟨c, hc, h⟩ := Option.bind_eq_some_iff.1 h
    obtain ⟨⟨d', pc'⟩, hact, rfl⟩ := Option.map_eq_some_iff.1 h
    exact inv_act hinv hc halone (act_effect hact)

theorem trustworthy_of_alone (archive : List μ) {d : Disk μ} (hd : Trustworthy archive d)
    {es : List (Event μ)} (halone : Guarded (step archive) Alone (start d) es) {s : State μ}
    (hrun : run (step archive) (start d) es = some s) :
    Trustworthy archive s.disk ∧
      ∀ c ∈ s.calls, c.pc = .finished (.ok ()) → Extracted archive s.disk := by
  have hinv : Inv archive s :=
    run_invariant (fun s e s' hs ha hstep => inv_step hs ha hstep) (inv_start hd) halone hrun
  refine ⟨hinv.trustworthy, fun c hc hok => ?_⟩
  obtain ⟨i, hi⟩ := List.mem_iff_getElem?.1 hc
  have hextracted := hinv.extracted i c hi hok
  cases hruntime : s.disk.runtime with
  | none =>
    rw [Disk.extracted, hruntime] at hextracted
    cases hextracted
  | some t =>
    rw [Disk.extracted, hruntime] at hextracted
    exact ⟨t, hruntime, hextracted, hinv.trustworthy t hruntime hextracted⟩

end Steps

/-- Two calls of one process in turn, and one of another process in between. -/
def turns : List (Event Nat) :=
  [.call 7, .call 8, .act 0 .check, .act 1 .check, .act 0 .removed, .act 1 .removed, .act 0 .create,
    .act 0 .unpack, .act 1 .create, .act 1 .unpack, .act 0 .unpack, .act 0 .mark, .act 0 .rename,
    .act 1 .unpack, .act 1 .mark, .act 1 .renameFails, .act 1 .removed, .call 7, .act 2 .check]

theorem trustworthy_turns :
    ∃ s, run (step [1, 2]) (start ⟨none, fun _ => none⟩) turns = some s ∧
      Trustworthy [1, 2] s.disk ∧
        ∀ c ∈ s.calls, c.pc = .finished (.ok ()) → Extracted [1, 2] s.disk := by
  have hstart : Trustworthy [1, 2] ⟨none, fun _ => none⟩ := by
    intro t ht
    cases ht
  exact ⟨_, rfl, trustworthy_of_alone [1, 2] hstart (by decide : Guarded _ _ _ turns) rfl⟩

/-- A call removes what another call of its process has unpacked. -/
def overlap : List (Event Nat) :=
  [.call 7, .call 7, .act 0 .check, .act 1 .check, .act 0 .removed, .act 0 .create, .act 0 .unpack,
    .act 1 (.unlink (.file 1)), .act 0 .unpack, .act 0 .mark, .act 0 .rename]

theorem overlap_not_trustworthy :
    ¬ ∀ (archive : List Nat) (d : Disk Nat), Trustworthy archive d →
      ∀ (es : List (Event Nat)) (s : State Nat), run (step archive) (start d) es = some s →
        Trustworthy archive s.disk := by
  intro h
  have hstart : Trustworthy [1, 2] ⟨none, fun _ => none⟩ := by
    intro t ht
    cases ht
  have hwhole := h [1, 2] _ hstart overlap _ rfl _ rfl rfl
  exact absurd (hwhole 1 (by decide)) (by decide)

end Pglite.Extract
