import Pglite.EngineThread
import Pglite.Runs
import Pglite.TaskList

/-!
# One engine in a process

`OPEN` alone is no lock: after a `close` a later drop stores `false` while another call holds it.
`BOOTED` makes up for it, since no engine can start any more by then (`Process.Single`).

Main results: `one_engine`, over any interleaving of calls of `open_inner`, `close` and drops, and
`engine_in_order`, what becomes of the commands in it.
-/

namespace Pglite.Engine

open Frames Runs

variable {σ τ : Type}

/-! ## The flags -/

/-- The call is still on its way. -/
def OpenCall.InProgress : OpenCall → Prop
  | .swapped | .refused | .booting _ | .sweeping _ => True
  | _ => False

/-- The calls that start no engine. -/
def OpenCall.Outside (c : OpenCall) : Prop :=
  c = .swapped ∨ c = .refused ∨ c = .returned (.error .alreadyOpen) ∨
    c = .returned (.error .reopenUnsupported)

/-- Where the call is that has started the engine. -/
inductive Instance.Opened (inst : Instance σ) : OpenCall → Prop
  | booting (hclones : inst.clones = 0) (hheld : inst.closing = .held) : Opened inst (.booting 0)
  | sweeping (hclones : inst.clones = 0) (hheld : inst.closing = .held)
      (hboot : inst.thread.bootResult = some (.ok ())) : Opened inst (.sweeping 0)
  | returned (hboot : inst.thread.bootResult = some (.ok ())) : Opened inst (.returned (.ok ()))
  | failed (e : Error) (hclones : inst.clones = 0) : Opened inst (.returned (.error e))
  | dropped (hclones : inst.clones = 0) : Opened inst .dropped

namespace Process

/-- Before the engine: `OPEN` is a lock that one call holds. -/
structure Fresh (isOpen : Bool) (calls : List OpenCall) : Prop where
  early : ∀ (i : Nat) (c : OpenCall), calls[i]? = some c →
    c = .swapped ∨ c = .returned (.error .alreadyOpen)
  holder : ∀ i : Nat, calls[i]? = some .swapped → isOpen = true
  unique : ∀ i j : Nat, calls[i]? = some .swapped → calls[j]? = some .swapped → i = j
  owner : isOpen = true → ∃ i : Nat, calls[i]? = some .swapped

/-- Who keeps `OPEN` set. -/
def Owned (calls : List OpenCall) (inst : Instance σ) : Prop :=
  (∃ (i : Nat) (c : OpenCall), calls[i]? = some c ∧ c.InProgress) ∨ 0 < inst.clones ∨ inst.closing = .joining ∨
    (calls[inst.opener]? = some .dropped ∧ inst.closing = .held)

/-- With its one engine. -/
structure Single (isOpen : Bool) (calls : List OpenCall) (inst : Instance σ) : Prop where
  thread : inst.thread.Inv
  booted : inst.thread.Booted
  /-- Before the thread returns no other call is behind the first check, so that none can store `false`. -/
  alive : inst.thread.phase ≠ .ended →
    isOpen = true ∧ ∀ (i : Nat) (c : OpenCall), calls[i]? = some c → c ≠ .swapped ∧ c ≠ .refused
  opener : ∃ c, calls[inst.opener]? = some c ∧ inst.Opened c
  others : ∀ (i : Nat) (c : OpenCall), i ≠ inst.opener → calls[i]? = some c → c.Outside
  closes : ∀ k ∈ inst.closes, inst.thread.sent[k]? = some .close
  owner : isOpen = true → Owned calls inst

/-- The invariant of a process. -/
def Inv (p : Process σ) : Prop :=
  (p.booted = false ∧ p.instances = [] ∧ Fresh p.isOpen p.calls) ∨
    (p.booted = true ∧ ∃ inst, p.instances = [inst] ∧ Single p.isOpen p.calls inst)

theorem getElem?_set_same {calls : List OpenCall} {i : Nat} {c : OpenCall}
    (h : calls[i]? = some c) (c' : OpenCall) : (calls.set i c')[i]? = some c' :=
  List.getElem?_set_self (List.getElem?_eq_some_iff.1 h).1

/-- A place of the list after a new call. -/
theorem getElem?_append_cases {calls : List OpenCall} {c c' : OpenCall} {j : Nat}
    (h : (calls ++ [c])[j]? = some c') : (j = calls.length ∧ c' = c) ∨ calls[j]? = some c' := by
  rcases Nat.lt_trichotomy j calls.length with hlt | rfl | hgt
  · rw [List.getElem?_append_left hlt] at h
    exact .inr h
  · rw [List.getElem?_concat_length] at h
    exact .inl ⟨rfl, (Option.some.inj h).symm⟩
  · rw [List.getElem?_eq_none (by simp; omega)] at h
    cases h

theorem getElem?_append_same {calls : List OpenCall} {c : OpenCall} {j : Nat}
    (h : calls[j]? = some c) (c' : OpenCall) : (calls ++ [c'])[j]? = some c := by
  rw [List.getElem?_append_left (List.getElem?_eq_some_iff.1 h).1, h]

/-! ### Steps before the engine -/

namespace Fresh

variable {isOpen : Bool} {calls : List OpenCall}

theorem start : Fresh false [] := ⟨by simp, by simp, by simp, by simp⟩

theorem refuse (h : Fresh true calls) : Fresh true (calls ++ [.returned (.error .alreadyOpen)]) where
  early i c hc := by
    rcases getElem?_append_cases hc with ⟨-, rfl⟩ | hc
    · exact .inr rfl
    · exact h.early i c hc
  holder _ _ := rfl
  unique i j hi hj := by
    rcases getElem?_append_cases hi with ⟨-, hne⟩ | hi
    · cases hne
    · rcases getElem?_append_cases hj with ⟨-, hne⟩ | hj
      · cases hne
      · exact h.unique i j hi hj
  owner ho := by
    obtain ⟨i, hi⟩ := h.owner ho
    exact ⟨i, getElem?_append_same hi _⟩

theorem enter (h : Fresh false calls) : Fresh true (calls ++ [.swapped]) := by
  have hnew : ∀ i, (calls ++ [.swapped])[i]? = some .swapped → i = calls.length := by
    intro i hi
    rcases getElem?_append_cases hi with ⟨rfl, -⟩ | hi
    · rfl
    · cases h.holder i hi
  exact {
    early := by
      intro i c hc
      rcases getElem?_append_cases hc with ⟨-, rfl⟩ | hc
      · exact .inl rfl
      · exact h.early i c hc
    holder := fun _ _ => rfl
    unique := fun i j hi hj => (hnew i hi).trans (hnew j hj).symm
    owner := fun _ => ⟨calls.length, List.getElem?_concat_length⟩ }

/-- The call that holds `OPEN` starts the engine. -/
theorem spawn (h : Fresh isOpen calls) {i : Nat} (hi : calls[i]? = some .swapped) :
    Single (σ := σ) isOpen (calls.set i (.booting 0)) ⟨i, .spawn, 0, .held, []⟩ where
  thread := EngineThread.inv_spawn
  booted := ⟨fun _ => rfl, fun _ he => by cases he⟩
  alive _ := by
    refine ⟨h.holder i hi, fun j c hc => ?_⟩
    rcases TaskList.getElem?_set_cases hc with ⟨-, rfl⟩ | ⟨hne, hc⟩
    · simp
    · rcases h.early j c hc with rfl | rfl
      · exact (hne (h.unique j i hc hi)).elim
      · simp
  opener := ⟨.booting 0, getElem?_set_same hi _, .booting rfl rfl⟩
  others j c hne hc := by
    rcases TaskList.getElem?_set_cases hc with ⟨heq, -⟩ | ⟨-, hc⟩
    · exact (hne heq).elim
    · rcases h.early j c hc with rfl | rfl
      · exact .inl rfl
      · exact .inr (.inr (.inl rfl))
  closes := by simp
  owner _ := .inl ⟨i, .booting 0, getElem?_set_same hi _, trivial⟩

end Fresh

/-! ### Steps with the engine -/

namespace Single

variable {N : Native σ} {isOpen : Bool} {calls : List OpenCall} {inst : Instance σ}

/-- A step of the thread. -/
theorem move (h : Single isOpen calls inst) {t' : EngineThread σ}
    (hmove : EngineThread.Move N (fun _ => True) (fun _ => True) inst.thread t') :
    Single isOpen calls { inst with thread := t' } where
  thread := h.thread.move hmove
  booted := h.booted.move hmove
  alive halive := h.alive (hmove.keeps.1 halive)
  opener := by
    obtain ⟨c, hc, hopened⟩ := h.opener
    refine ⟨c, hc, ?_⟩
    have hresult : inst.thread.bootResult = some (.ok ()) → t'.bootResult = some (.ok ()) := by
      intro hboot
      have hne : inst.thread.phase ≠ .booting := fun heq => by
        rw [h.booted.booting heq] at hboot
        cases hboot
      rw [(hmove.keeps.2.2 hne).1, hboot]
    cases hopened with
    | booting hclones hheld => exact .booting hclones hheld
    | sweeping hclones hheld hboot => exact .sweeping hclones hheld (hresult hboot)
    | returned hboot => exact .returned (hresult hboot)
    | failed e hclones => exact .failed e hclones
    | dropped hclones => exact .dropped hclones
  others := h.others
  closes k hk := hmove.keeps.2.1 k _ (h.closes k hk)
  owner := h.owner

/-- Other clones, as long as there are some, and other calls of `close`. -/
theorem handles (h : Single isOpen calls inst) {m : Nat} (hm : 0 < m ↔ 0 < inst.clones)
    {closes : List Nat} (hcloses : ∀ k ∈ closes, inst.thread.sent[k]? = some .close) :
    Single isOpen calls { inst with clones := m, closes } where
  thread := h.thread
  booted := h.booted
  alive := h.alive
  opener := by
    obtain ⟨c, hc, hopened⟩ := h.opener
    have hzero : inst.clones = 0 → m = 0 := by omega
    refine ⟨c, hc, ?_⟩
    cases hopened with
    | booting hclones hheld => exact .booting (hzero hclones) hheld
    | sweeping hclones hheld hboot => exact .sweeping (hzero hclones) hheld hboot
    | returned hboot => exact .returned hboot
    | failed e hclones => exact .failed e (hzero hclones)
    | dropped hclones => exact .dropped (hzero hclones)
  others := h.others
  closes := hcloses
  owner hopen := by
    rcases h.owner hopen with howner | howner | howner | howner
    · exact .inl howner
    · exact .inr (.inl (hm.2 howner))
    · exact .inr (.inr (.inl howner))
    · exact .inr (.inr (.inr howner))

/-- The call that has started the engine goes on. -/
theorem goto_opener (h : Single isOpen calls inst) {c : OpenCall} {m : Nat} {o : Bool}
    (hopened : Instance.Opened { inst with clones := m } c)
    (halive : inst.thread.phase ≠ .ended → o = isOpen)
    (howner : o = true → c.InProgress ∨ 0 < m ∨ (c = .dropped ∧ inst.closing = .held)) :
    Single o (calls.set inst.opener c) { inst with clones := m } := by
  obtain ⟨c₀, hc₀, -⟩ := h.opener
  have hself : (calls.set inst.opener c)[inst.opener]? = some c := getElem?_set_same hc₀ c
  exact {
    thread := h.thread
    booted := h.booted
    alive := by
      intro hne
      refine ⟨(halive hne).trans (h.alive hne).1, fun i c' hc' => ?_⟩
      rcases TaskList.getElem?_set_cases hc' with ⟨-, rfl⟩ | ⟨-, hc'⟩
      · cases hopened <;> simp
      · exact (h.alive hne).2 i c' hc'
    opener := ⟨c, hself, hopened⟩
    others := by
      intro i c' hne hc'
      rcases TaskList.getElem?_set_cases hc' with ⟨heq, -⟩ | ⟨-, hc'⟩
      · exact (hne heq).elim
      · exact h.others i c' hne hc'
    closes := h.closes
    owner := by
      intro ho
      rcases howner ho with hprogress | hclones | ⟨rfl, hheld⟩
      · exact .inl ⟨inst.opener, c, hself, hprogress⟩
      · exact .inr (.inl hclones)
      · exact .inr (.inr (.inr ⟨hself, hheld⟩)) }

/-- `CloseOnDrop` begins, with the last clone or in the call that has it. -/
theorem dropLast (h : Single isOpen calls inst) {c : OpenCall}
    (hopened : Instance.Opened inst.dropLast c) :
    Single isOpen (calls.set inst.opener c) inst.dropLast := by
  obtain ⟨c₀, hc₀, -⟩ := h.opener
  have hmove : EngineThread.Move ⟨fun _ => 0, fun s => .ret (0, s), .ret, .ret, .ret⟩
    (fun _ => True) (fun _ => True) inst.thread (inst.thread.send .close) := .send trivial
  exact {
    thread := h.thread.move hmove
    booted := h.booted.move hmove
    alive := by
      intro hne
      have halive := hmove.keeps.1 hne
      refine ⟨(h.alive halive).1, fun i c' hc' => ?_⟩
      rcases TaskList.getElem?_set_cases hc' with ⟨-, rfl⟩ | ⟨-, hc'⟩
      · cases hopened <;> simp
      · exact (h.alive halive).2 i c' hc'
    opener := ⟨c, getElem?_set_same hc₀ c, hopened⟩
    others := by
      intro i c' hne hc'
      rcases TaskList.getElem?_set_cases hc' with ⟨heq, -⟩ | ⟨-, hc'⟩
      · exact (hne heq).elim
      · exact h.others i c' hne hc'
    closes := fun k hk => hmove.keeps.2.1 k _ (h.closes k hk)
    owner := fun _ => .inr (.inr (.inl rfl)) }

/-- A new call finds `OPEN` set. -/
theorem refuse (h : Single true calls inst) :
    Single true (calls ++ [.returned (.error .alreadyOpen)]) inst where
  thread := h.thread
  booted := h.booted
  alive halive := by
    refine ⟨rfl, fun i c hc => ?_⟩
    rcases getElem?_append_cases hc with ⟨-, rfl⟩ | hc
    · simp
    · exact (h.alive halive).2 i c hc
  opener := by
    obtain ⟨c, hc, hopened⟩ := h.opener
    exact ⟨c, getElem?_append_same hc _, hopened⟩
  others i c hne hc := by
    rcases getElem?_append_cases hc with ⟨-, rfl⟩ | hc
    · exact .inr (.inr (.inl rfl))
    · exact h.others i c hne hc
  closes := h.closes
  owner ho := by
    rcases h.owner ho with ⟨i, c, hc, hprogress⟩ | howner | howner | ⟨hc, hheld⟩
    · exact .inl ⟨i, c, getElem?_append_same hc _, hprogress⟩
    · exact .inr (.inl howner)
    · exact .inr (.inr (.inl howner))
    · exact .inr (.inr (.inr ⟨getElem?_append_same hc _, hheld⟩))

/-- A new call finds it unset: the thread has returned. -/
theorem enter (h : Single false calls inst) : Single true (calls ++ [.swapped]) inst where
  thread := h.thread
  booted := h.booted
  alive halive := by cases (h.alive halive).1
  opener := by
    obtain ⟨c, hc, hopened⟩ := h.opener
    exact ⟨c, getElem?_append_same hc _, hopened⟩
  others i c hne hc := by
    rcases getElem?_append_cases hc with ⟨-, rfl⟩ | hc
    · exact .inl rfl
    · exact h.others i c hne hc
  closes := h.closes
  owner _ := .inl ⟨calls.length, .swapped, List.getElem?_concat_length, trivial⟩

/-- The call is not the one that has started the engine. -/
theorem ne_opener (h : Single isOpen calls inst) {i : Nat} {c : OpenCall} (hi : calls[i]? = some c)
    (hc : c = .swapped ∨ c = .refused) : i ≠ inst.opener ∧ inst.thread.phase = .ended := by
  refine ⟨?_, ?_⟩
  · rintro rfl
    obtain ⟨c', hc', hopened⟩ := h.opener
    obtain rfl : c = c' := Option.some.inj (hi.symm.trans hc')
    rcases hc with rfl | rfl <;> cases hopened
  · by_contra halive
    have hne := (h.alive halive).2 i c hi
    rcases hc with rfl | rfl
    · exact hne.1 rfl
    · exact hne.2 rfl

/-- A call behind the first check goes on. -/
theorem goto_other (h : Single isOpen calls inst) {i : Nat} {c c' : OpenCall}
    (hi : calls[i]? = some c) (hc : c = .swapped ∨ c = .refused) (hout : c'.Outside) {o : Bool}
    (howner : o = true → c'.InProgress) : Single o (calls.set i c') inst := by
  obtain ⟨hne, hended⟩ := h.ne_opener hi hc
  exact {
    thread := h.thread
    booted := h.booted
    alive := fun halive => (halive hended).elim
    opener := by
      obtain ⟨c₀, hc₀, hopened⟩ := h.opener
      exact ⟨c₀, by rw [List.getElem?_set_ne hne, hc₀], hopened⟩
    others := by
      intro j c₀ hj hc₀
      rcases TaskList.getElem?_set_cases hc₀ with ⟨-, rfl⟩ | ⟨-, hc₀⟩
      · exact hout
      · exact h.others j c₀ hj hc₀
    closes := h.closes
    owner := fun ho => .inl ⟨i, c', getElem?_set_same hi c', howner ho⟩ }

/-- A `Close` gets its reply from a thread that returns. -/
theorem ended_of_reply (h : Single isOpen calls inst) {k : Nat} (hk : k ∈ inst.closes)
    (hreply : k ∈ inst.thread.replies.map Prod.fst) : inst.thread.phase = .ended := by
  by_contra halive
  obtain ⟨tail, hreplies, -, htail⟩ := h.thread.replies
  rw [htail halive, List.append_nil] at hreplies
  rw [hreplies, EngineThread.answered, List.map_map] at hreply
  obtain ⟨x, hx, rfl⟩ := List.mem_map.1 hreply
  obtain ⟨j, hj⟩ := List.mem_iff_getElem?.1 hx
  have hcmd := h.thread.served_cmd hj
  have hclose := h.closes _ hk
  rw [Function.comp_apply, hcmd.1, hcmd.2] at hclose
  cases hclose

/-- `OPEN` is unset when the thread has returned. -/
theorem release (h : Single isOpen calls inst) (hended : inst.thread.phase = .ended)
    {closing : Closing} (hclosing : inst.closing = .held → closing = .held) {closes : List Nat}
    (hcloses : ∀ k ∈ closes, inst.thread.sent[k]? = some .close) :
    Single false calls { inst with closing, closes } where
  thread := h.thread
  booted := h.booted
  alive halive := (halive hended).elim
  opener := by
    obtain ⟨c, hc, hopened⟩ := h.opener
    refine ⟨c, hc, ?_⟩
    cases hopened with
    | booting hclones hheld => exact .booting hclones (hclosing hheld)
    | sweeping hclones hheld hboot => exact .sweeping hclones (hclosing hheld) hboot
    | returned hboot => exact .returned hboot
    | failed e hclones => exact .failed e hclones
    | dropped hclones => exact .dropped hclones
  others := h.others
  closes := hcloses
  owner ho := by cases ho

end Single

/-- Any step of the threads and handles is on the one engine. -/
theorem getElem?_singleton {inst inst' : Instance σ} {e : Nat} (h : [inst][e]? = some inst') :
    e = 0 ∧ inst' = inst := by
  cases e with
  | zero => exact ⟨rfl, (Option.some.inj h).symm⟩
  | succ e => cases h

theorem onInstance_eq_some {p p' : Process σ} {e : Nat} {f : Instance σ → Option (Instance σ)}
    (h : p.onInstance e f = some p') :
    ∃ inst inst', p.instances[e]? = some inst ∧ f inst = some inst' ∧ p' = p.put e inst' := by
  unfold onInstance at h
  split at h
  · cases h
  · rename_i inst hinst
    obtain ⟨inst', hf, rfl⟩ := Option.map_eq_some_iff.1 h
    exact ⟨inst, inst', hinst, hf, rfl⟩

theorem onThread_eq_some {p p' : Process σ} {e : Nat}
    {f : EngineThread σ → Option (EngineThread σ)} (h : p.onThread e f = some p') :
    ∃ inst t', p.instances[e]? = some inst ∧ f inst.thread = some t' ∧
      p' = p.put e { inst with thread := t' } := by
  unfold onThread at h
  split at h
  · cases h
  · rename_i inst hinst
    obtain ⟨t', hf, rfl⟩ := Option.map_eq_some_iff.1 h
    exact ⟨inst, t', hinst, hf, rfl⟩

/-- What a step of the handles may do to an engine. -/
theorem drop_cases {inst inst' : Instance σ} (h : inst.drop = some inst') :
    (inst.clones = 1 ∧ inst' = inst.dropLast) ∨
      ∃ n, inst.clones = n + 2 ∧ inst' = { inst with clones := n + 1 } := by
  unfold Instance.drop at h
  split at h
  · cases h
  · rename_i hone
    exact .inl ⟨hone, (Option.some.inj h).symm⟩
  · rename_i n hmore
    exact .inr ⟨n, hmore, (Option.some.inj h).symm⟩

theorem close_cases {inst inst' : Instance σ} (h : inst.close = some inst') :
    ∃ closes, inst' = { inst with thread := inst.thread.send .close, closes } ∧
      ∀ k ∈ closes, k ∈ inst.closes ∨ k = inst.thread.sent.length := by
  unfold Instance.close at h
  split at h
  · cases h
  · exact ⟨inst.closes, (Option.some.inj h).symm, fun k hk => .inl hk⟩
  · refine ⟨_, (Option.some.inj h).symm, fun k hk => ?_⟩
    rcases List.mem_append.1 hk with hk | hk
    · exact .inl hk
    · exact .inr (List.mem_singleton.1 hk)

variable {N : Native σ} {isOpen : Bool} {calls : List OpenCall} {inst : Instance σ}
  {ev : Event σ} {p' : Process σ}

/-- Without an engine a call can only come to one of the two checks. -/
theorem Fresh.step (h : Fresh isOpen calls)
    (hstep : step N ⟨isOpen, false, calls, []⟩ ev = some p') : p'.Inv := by
  have hearly : ∀ {i : Nat} {c : OpenCall}, calls[i]? = some c →
      c = .swapped ∨ c = .returned (.error .alreadyOpen) := fun hi => h.early _ _ hi
  have hnone : ∀ {e : Nat} {inst : Instance σ}, ([] : List (Instance σ))[e]? ≠ some inst := by simp
  cases ev with
  | swapOpen =>
    cases isOpen with
    | true => exact Option.some.inj hstep ▸ .inl ⟨rfl, rfl, h.refuse⟩
    | false => exact Option.some.inj hstep ▸ .inl ⟨rfl, rfl, h.enter⟩
  | swapBooted i =>
    simp only [Process.step] at hstep
    split at hstep
    · rename_i hi
      exact Option.some.inj hstep ▸ .inr ⟨rfl, _, rfl, h.spawn hi⟩
    · cases hstep
  | giveBack i | bootResult i =>
    simp only [Process.step] at hstep
    split at hstep
    · rename_i hi
      rcases hearly hi with hc | hc <;> cases hc
    · cases hstep
  | abandon i =>
    simp only [Process.step] at hstep
    split at hstep
    · rename_i hi
      rcases hearly hi with hc | hc <;> cases hc
    · rename_i hi
      rcases hearly hi with hc | hc <;> cases hc
    · cases hstep
  | swept i r =>
    cases r with
    | ok _ | error _ =>
      simp only [Process.step] at hstep
      split at hstep
      · rename_i hi
        rcases hearly hi with hc | hc <;> cases hc
      · cases hstep
  | boot e r | work e fuel =>
    simp only [Process.step] at hstep
    obtain ⟨inst, t', hinst, -⟩ := onThread_eq_some hstep
    exact (hnone hinst).elim
  | send e wire | clone e | drop e | close e | abandonClose e k =>
    simp only [Process.step] at hstep
    obtain ⟨inst, inst', hinst, -⟩ := onInstance_eq_some hstep
    exact (hnone hinst).elim
  | join e | closed e k | hangup e =>
    simp only [Process.step] at hstep
    split at hstep
    · cases hstep
    · rename_i hinst
      exact (hnone hinst).elim

/-- **Step lemma.** -/
theorem Single.step (h : Single isOpen calls inst)
    (hstep : step N ⟨isOpen, true, calls, [inst]⟩ ev = some p') : p'.Inv := by
  have hopener : ∀ {i : Nat} {c : OpenCall}, calls[i]? = some c → ¬ c.Outside →
      i = inst.opener ∧ inst.Opened c := by
    intro i c hi hout
    obtain rfl : i = inst.opener := by
      by_contra hne
      exact hout (h.others i c hne hi)
    obtain ⟨c', hc', hopened⟩ := h.opener
    obtain rfl : c = c' := Option.some.inj (hi.symm.trans hc')
    exact ⟨rfl, hopened⟩
  cases ev with
  | swapOpen =>
    cases isOpen with
    | true => exact Option.some.inj hstep ▸ .inr ⟨rfl, inst, rfl, h.refuse⟩
    | false => exact Option.some.inj hstep ▸ .inr ⟨rfl, inst, rfl, h.enter⟩
  | swapBooted i =>
    simp only [Process.step] at hstep
    split at hstep
    · rename_i hi
      exact Option.some.inj hstep ▸
        .inr ⟨rfl, inst, rfl, h.goto_other hi (.inl rfl) (.inr (.inl rfl)) fun _ => trivial⟩
    · cases hstep
  | giveBack i =>
    simp only [Process.step] at hstep
    split at hstep
    · rename_i hi
      exact Option.some.inj hstep ▸
        .inr ⟨rfl, inst, rfl, h.goto_other hi (.inr rfl) (.inr (.inr (.inr rfl))) fun ho => by cases ho⟩
    · cases hstep
  | boot e r =>
    simp only [Process.step] at hstep
    obtain ⟨inst', t', hinst, hboot, rfl⟩ := onThread_eq_some hstep
    obtain ⟨rfl, rfl⟩ := getElem?_singleton hinst
    exact .inr ⟨rfl, _, rfl, h.move (N := N) (.boot (fun _ _ => trivial) hboot)⟩
  | work e fuel =>
    simp only [Process.step] at hstep
    obtain ⟨inst', t', hinst, hwork, rfl⟩ := onThread_eq_some hstep
    obtain ⟨rfl, rfl⟩ := getElem?_singleton hinst
    exact .inr ⟨rfl, _, rfl, h.move (.work hwork)⟩
  | hangup e =>
    simp only [Process.step] at hstep
    split at hstep
    · cases hstep
    · split_ifs at hstep with hsender
      obtain ⟨inst', t', hinst, hhangup, rfl⟩ := onThread_eq_some hstep
      obtain ⟨rfl, rfl⟩ := getElem?_singleton hinst
      exact .inr ⟨rfl, _, rfl, h.move (N := N) (.hangup hhangup)⟩
  | bootResult i =>
    simp only [Process.step] at hstep
    split at hstep
    · rename_i e hi
      obtain ⟨rfl, hopened⟩ := hopener hi (by simp [OpenCall.Outside])
      split at hstep
      · cases hstep
      · rename_i inst' hinst
        obtain ⟨rfl, rfl⟩ := getElem?_singleton hinst
        cases hopened with
        | booting hclones hheld =>
          split at hstep
          · cases hstep
          · rename_i hresult
            exact Option.some.inj hstep ▸ .inr ⟨rfl, inst', rfl,
              h.goto_opener (m := inst'.clones) (.sweeping hclones hheld hresult) (fun _ => rfl)
                fun _ => .inl trivial⟩
          · rename_i err hresult
            have hended := h.booted.failed err hresult
            exact Option.some.inj hstep ▸ .inr ⟨rfl, inst', rfl,
              h.goto_opener (m := inst'.clones) (.failed err hclones) (fun hne => (hne hended).elim)
                fun ho => by cases ho⟩
    · cases hstep
  | swept i r =>
    cases r with
    | ok r =>
      simp only [Process.step] at hstep
      split at hstep
      · rename_i e hi
        obtain ⟨rfl, hopened⟩ := hopener hi (by simp [OpenCall.Outside])
        obtain ⟨inst', inst'', hinst, hf, rfl⟩ := onInstance_eq_some hstep
        obtain ⟨rfl, rfl⟩ := getElem?_singleton hinst
        cases hopened with
        | sweeping hclones hheld hboot =>
          exact Option.some.inj hf ▸ .inr ⟨rfl, _, rfl,
            h.goto_opener (m := 1) (.returned hboot) (fun _ => rfl) fun _ => .inr (.inl Nat.one_pos)⟩
      · cases hstep
    | error err =>
      simp only [Process.step] at hstep
      split at hstep
      · rename_i e hi
        obtain ⟨rfl, hopened⟩ := hopener hi (by simp [OpenCall.Outside])
        obtain ⟨inst', inst'', hinst, hf, rfl⟩ := onInstance_eq_some hstep
        obtain ⟨rfl, rfl⟩ := getElem?_singleton hinst
        exact Option.some.inj hf ▸ .inr ⟨rfl, _, rfl, h.dropLast (.failed err rfl)⟩
      · cases hstep
  | abandon i =>
    simp only [Process.step] at hstep
    split at hstep
    · rename_i e hi
      obtain ⟨rfl, hopened⟩ := hopener hi (by simp [OpenCall.Outside])
      cases hopened with
      | booting hclones hheld =>
        exact Option.some.inj hstep ▸ .inr ⟨rfl, inst, rfl,
          h.goto_opener (m := inst.clones) (.dropped hclones) (fun _ => rfl)
            fun _ => .inr (.inr ⟨rfl, hheld⟩)⟩
    · rename_i e hi
      obtain ⟨rfl, hopened⟩ := hopener hi (by simp [OpenCall.Outside])
      obtain ⟨inst', inst'', hinst, hf, rfl⟩ := onInstance_eq_some hstep
      obtain ⟨rfl, rfl⟩ := getElem?_singleton hinst
      exact Option.some.inj hf ▸ .inr ⟨rfl, _, rfl, h.dropLast (.dropped rfl)⟩
    · cases hstep
  | send e wire =>
    simp only [Process.step] at hstep
    obtain ⟨inst', inst'', hinst, hf, rfl⟩ := onInstance_eq_some hstep
    obtain ⟨rfl, rfl⟩ := getElem?_singleton hinst
    split_ifs at hf
    exact Option.some.inj hf ▸ .inr ⟨rfl, _, rfl, h.move (N := N) (.send trivial)⟩
  | clone e =>
    simp only [Process.step] at hstep
    obtain ⟨inst', inst'', hinst, hf, rfl⟩ := onInstance_eq_some hstep
    obtain ⟨rfl, rfl⟩ := getElem?_singleton hinst
    split_ifs at hf with hclones
    exact Option.some.inj hf ▸ .inr ⟨rfl, _, rfl, h.handles (by omega) h.closes⟩
  | drop e =>
    simp only [Process.step] at hstep
    obtain ⟨inst', inst'', hinst, hf, rfl⟩ := onInstance_eq_some hstep
    obtain ⟨rfl, rfl⟩ := getElem?_singleton hinst
    obtain ⟨hone, rfl⟩ | ⟨n, hclones, rfl⟩ := drop_cases hf
    · obtain ⟨c, hc, hopened⟩ := h.opener
      have hlast : inst'.dropLast.Opened c := by
        cases hopened with
        | returned hboot => exact .returned (by simpa [Instance.dropLast] using hboot)
        | booting hclones | sweeping hclones | failed _ hclones | dropped hclones =>
          rw [hone] at hclones
          cases hclones
      have hsame : calls.set inst'.opener c = calls := by
        obtain ⟨hlt, rfl⟩ := List.getElem?_eq_some_iff.1 hc
        exact List.set_getElem_self hlt
      exact .inr ⟨rfl, _, rfl, hsame ▸ h.dropLast hlast⟩
    · exact .inr ⟨rfl, _, rfl, h.handles (by omega) h.closes⟩
  | join e =>
    simp only [Process.step] at hstep
    split at hstep
    · cases hstep
    · rename_i inst' hinst
      obtain ⟨rfl, rfl⟩ := getElem?_singleton hinst
      split at hstep
      · rename_i hjoining hended
        exact Option.some.inj hstep ▸ .inr ⟨rfl, _, rfl,
          h.release hended (fun hheld => by rw [hjoining] at hheld; cases hheld) h.closes⟩
      · cases hstep
  | close e =>
    simp only [Process.step] at hstep
    obtain ⟨inst', inst'', hinst, hf, rfl⟩ := onInstance_eq_some hstep
    obtain ⟨rfl, rfl⟩ := getElem?_singleton hinst
    obtain ⟨closes, rfl, hcloses⟩ := close_cases hf
    have hmove : Single isOpen calls { inst' with thread := inst'.thread.send .close } :=
      h.move (N := N) (.send trivial)
    refine .inr ⟨rfl, _, rfl, hmove.handles Iff.rfl fun k hk => ?_⟩
    rcases hcloses k hk with hk | rfl
    · exact hmove.closes k hk
    · show (inst'.thread.send .close).sent[_]? = _
      rw [EngineThread.send_sent]
      exact List.getElem?_concat_length
  | closed e k =>
    simp only [Process.step] at hstep
    split at hstep
    · cases hstep
    · rename_i inst' hinst
      obtain ⟨rfl, rfl⟩ := getElem?_singleton hinst
      split_ifs at hstep with hreply
      have hended := h.ended_of_reply hreply.1 hreply.2
      exact Option.some.inj hstep ▸ .inr ⟨rfl, _, rfl,
        h.release hended id fun j hj => h.closes j (List.mem_of_mem_erase hj)⟩
  | abandonClose e k =>
    simp only [Process.step] at hstep
    obtain ⟨inst', inst'', hinst, hf, rfl⟩ := onInstance_eq_some hstep
    obtain ⟨rfl, rfl⟩ := getElem?_singleton hinst
    exact Option.some.inj hf ▸ .inr ⟨rfl, _, rfl,
      h.handles Iff.rfl fun j hj => h.closes j (List.mem_of_mem_erase hj)⟩

theorem inv_step {p p' : Process σ} {ev : Event σ} (h : p.Inv) (hstep : p.step N ev = some p') :
    p'.Inv := by
  obtain ⟨isOpen, booted, calls, instances⟩ := p
  obtain ⟨hbooted, hinstances, hfresh⟩ | ⟨hbooted, inst, hinstances, hsingle⟩ := h
  · cases hbooted
    cases hinstances
    exact hfresh.step hstep
  · cases hbooted
    cases hinstances
    exact hsingle.step hstep

theorem inv_start : (start : Process σ).Inv := .inl ⟨rfl, rfl, Fresh.start⟩

/-- There is one engine in a process, ever. -/
structure Exclusive (p : Process σ) : Prop where
  one : p.instances.length ≤ 1
  /-- While its thread runs, another call of `open_inner` finds `OPEN` set. -/
  alive : ∀ inst ∈ p.instances, inst.thread.phase ≠ .ended → p.isOpen = true
  opened : ∀ i j : Nat, p.calls[i]? = some (.returned (.ok ())) →
    p.calls[j]? = some (.returned (.ok ())) → i = j
  /-- Any call but the one that started the engine is told that there is one or has been one. -/
  refused : ∀ (i : Nat) (r : Except Error Unit), p.calls[i]? = some (.returned r) →
    (∃ inst ∈ p.instances, inst.opener = i) ∨ r = .error .alreadyOpen ∨
      r = .error .reopenUnsupported
  /-- `OPEN` is set for a reason: a call is on its way, there is a clone, a drop waits for the thread, or
  the call that started the engine was dropped before it had a result. -/
  owned : p.isOpen = true → (∃ c ∈ p.calls, c.InProgress) ∨ ∃ inst ∈ p.instances,
    0 < inst.clones ∨ inst.closing = .joining ∨
      (p.calls[inst.opener]? = some .dropped ∧ inst.closing = .held)

theorem Inv.exclusive {p : Process σ} (h : p.Inv) : p.Exclusive := by
  obtain ⟨isOpen, booted, calls, instances⟩ := p
  obtain ⟨hbooted, hinstances, hfresh⟩ | ⟨hbooted, inst, hinstances, hsingle⟩ := h
  · cases hinstances
    have hearly : ∀ (i : Nat) (r : Except Error Unit), calls[i]? = some (.returned r) →
        r = .error .alreadyOpen := by
      intro i r hi
      rcases hfresh.early i _ hi with hc | hc <;> cases hc
      rfl
    exact {
      one := Nat.zero_le 1
      alive := by simp
      opened := fun i j hi _ => by cases hearly i _ hi
      refused := fun i r hi => .inr (.inl (hearly i r hi))
      owned := fun ho => by
        obtain ⟨i, hi⟩ := hfresh.owner ho
        exact .inl ⟨_, List.mem_of_getElem? hi, trivial⟩ }
  · cases hinstances
    have hother : ∀ (i : Nat) (r : Except Error Unit), i ≠ inst.opener →
        calls[i]? = some (.returned r) → r = .error .alreadyOpen ∨ r = .error .reopenUnsupported := by
      intro i r hne hi
      rcases hsingle.others i _ hne hi with hc | hc | hc | hc <;> cases hc
      · exact .inl rfl
      · exact .inr rfl
    have hok : ∀ i : Nat, calls[i]? = some (.returned (.ok ())) → i = inst.opener := by
      intro i hi
      by_contra hne
      rcases hother i _ hne hi with hr | hr <;> cases hr
    exact {
      one := Nat.le_refl 1
      alive := fun inst' hinst halive => by
        obtain rfl := List.mem_singleton.1 hinst
        exact (hsingle.alive halive).1
      opened := fun i j hi hj => (hok i hi).trans (hok j hj).symm
      refused := fun i r hi => by
        by_cases heq : i = inst.opener
        · exact .inl ⟨inst, List.mem_singleton_self inst, heq.symm⟩
        · exact .inr (hother i r heq hi)
      owned := fun ho => by
        rcases hsingle.owner ho with ⟨i, c, hc, hprogress⟩ | howner
        · exact .inl ⟨c, List.mem_of_getElem? hc, hprogress⟩
        · exact .inr ⟨inst, List.mem_singleton_self inst, howner⟩ }

/-- Only commands in `C` are sent, and the backend starts in a state in `B`. -/
def Allowed (C : EngineCommand → Prop) (B : σ → Prop) : Event σ → Prop
  | .send _ wire => C (.exec wire)
  | .boot _ (some (.ok s)) => B s
  | _ => True

/-- A step of the process is at most one move of each thread. -/
theorem step_threads {C : EngineCommand → Prop} {B : σ → Prop} (hclose : C .close) {p p' : Process σ}
    {ev : Event σ} (hev : Allowed C B ev) (hstep : p.step N ev = some p') {inst' : Instance σ}
    (hinst' : inst' ∈ p'.instances) :
    (∃ inst ∈ p.instances,
      inst'.thread = inst.thread ∨ EngineThread.Move N C B inst.thread inst'.thread) ∨
    inst'.thread = .spawn := by
  have hsame : p'.instances = p.instances →
      (∃ inst ∈ p.instances,
        inst'.thread = inst.thread ∨ EngineThread.Move N C B inst.thread inst'.thread) ∨
      inst'.thread = .spawn := fun heq =>
    .inl ⟨inst', heq ▸ hinst', .inl rfl⟩
  have hput : ∀ {e : Nat} {inst inst₀ : Instance σ}, p.instances[e]? = some inst →
      p'.instances = p.instances.set e inst₀ →
      (inst₀.thread = inst.thread ∨ EngineThread.Move N C B inst.thread inst₀.thread) →
      (∃ inst ∈ p.instances,
        inst'.thread = inst.thread ∨ EngineThread.Move N C B inst.thread inst'.thread) ∨
      inst'.thread = .spawn := by
    intro e inst inst₀ hinst heq hthread
    rw [heq] at hinst'
    rcases List.mem_or_eq_of_mem_set hinst' with hmem | rfl
    · exact .inl ⟨inst', hmem, .inl rfl⟩
    · exact .inl ⟨inst, List.mem_of_getElem? hinst, hthread⟩
  cases ev with
  | swapOpen =>
    refine hsame ?_
    rw [← Option.some.inj hstep]
    cases p.isOpen <;> rfl
  | swapBooted i =>
    simp only [step] at hstep
    split at hstep
    · cases hbooted : p.booted with
      | true =>
        rw [hbooted] at hstep
        exact hsame (Option.some.inj hstep ▸ rfl)
      | false =>
        rw [hbooted] at hstep
        rw [← Option.some.inj hstep] at hinst'
        rcases List.mem_append.1 hinst' with hmem | hnew
        · exact .inl ⟨inst', hmem, .inl rfl⟩
        · rw [List.mem_singleton.1 hnew]
          exact .inr rfl
    · cases hstep
  | giveBack i =>
    simp only [step] at hstep
    split at hstep
    · exact hsame (Option.some.inj hstep ▸ rfl)
    · cases hstep
  | boot e r =>
    simp only [step] at hstep
    obtain ⟨inst, t', hinst, hboot, rfl⟩ := onThread_eq_some hstep
    refine hput hinst rfl (.inr (.boot ?_ hboot))
    rintro s rfl
    exact hev
  | bootResult i =>
    simp only [step] at hstep
    split at hstep
    · split at hstep
      · cases hstep
      · split at hstep
        · cases hstep
        · exact hsame (Option.some.inj hstep ▸ rfl)
        · exact hsame (Option.some.inj hstep ▸ rfl)
    · cases hstep
  | swept i r =>
    cases r with
    | ok r | error err =>
      simp only [step] at hstep
      split at hstep
      · obtain ⟨inst, inst₀, hinst, hf, rfl⟩ := onInstance_eq_some hstep
        obtain rfl := Option.some.inj hf
        first
        | exact hput hinst rfl (.inl rfl)
        | exact hput hinst rfl (.inr (.send hclose))
      · cases hstep
  | abandon i =>
    simp only [step] at hstep
    split at hstep
    · exact hsame (Option.some.inj hstep ▸ rfl)
    · obtain ⟨inst, inst₀, hinst, hf, rfl⟩ := onInstance_eq_some hstep
      obtain rfl := Option.some.inj hf
      exact hput hinst rfl (.inr (.send hclose))
    · cases hstep
  | send e wire =>
    simp only [step] at hstep
    obtain ⟨inst, inst₀, hinst, hf, rfl⟩ := onInstance_eq_some hstep
    split_ifs at hf
    obtain rfl := Option.some.inj hf
    exact hput hinst rfl (.inr (.send hev))
  | clone e =>
    simp only [step] at hstep
    obtain ⟨inst, inst₀, hinst, hf, rfl⟩ := onInstance_eq_some hstep
    split_ifs at hf
    obtain rfl := Option.some.inj hf
    exact hput hinst rfl (.inl rfl)
  | drop e =>
    simp only [step] at hstep
    obtain ⟨inst, inst₀, hinst, hf, rfl⟩ := onInstance_eq_some hstep
    obtain ⟨-, rfl⟩ | ⟨n, -, rfl⟩ := drop_cases hf
    · exact hput hinst rfl (.inr (.send hclose))
    · exact hput hinst rfl (.inl rfl)
  | join e =>
    simp only [step] at hstep
    split at hstep
    · cases hstep
    · rename_i inst hinst
      split at hstep
      · obtain rfl := Option.some.inj hstep
        exact hput hinst rfl (.inl rfl)
      · cases hstep
  | close e =>
    simp only [step] at hstep
    obtain ⟨inst, inst₀, hinst, hf, rfl⟩ := onInstance_eq_some hstep
    obtain ⟨closes, rfl, -⟩ := close_cases hf
    exact hput hinst rfl (.inr (.send hclose))
  | closed e k =>
    simp only [step] at hstep
    split at hstep
    · cases hstep
    · rename_i inst hinst
      split_ifs at hstep
      obtain rfl := Option.some.inj hstep
      exact hput hinst rfl (.inl rfl)
  | abandonClose e k =>
    simp only [step] at hstep
    obtain ⟨inst, inst₀, hinst, hf, rfl⟩ := onInstance_eq_some hstep
    obtain rfl := Option.some.inj hf
    exact hput hinst rfl (.inl rfl)
  | work e fuel =>
    simp only [step] at hstep
    obtain ⟨inst, t', hinst, hwork, rfl⟩ := onThread_eq_some hstep
    exact hput hinst rfl (.inr (.work hwork))
  | hangup e =>
    simp only [step] at hstep
    split at hstep
    · cases hstep
    · split_ifs at hstep
      obtain ⟨inst, t', hinst, hhangup, rfl⟩ := onThread_eq_some hstep
      exact hput hinst rfl (.inr (.hangup hhangup))

/-- What becomes of the commands of an engine. -/
structure InOrder (N : Native σ) (M : Machine τ) (m : τ) (t : EngineThread σ) : Prop where
  /-- The first commands are answered as the session answers them, one after the other, and a `Close`
  that is answered comes right after these. -/
  commands : ∃ fss : List (List Frame),
    (fss.map fun fs => EngineCommand.exec (encodeAll fs)) <+: t.sent ∧
    (∀ k out, (k, Reply.response out) ∈ t.replies ↔ (M.respondAll m fss).2[k]? = some out) ∧
    ∀ k, (k, Reply.closed) ∈ t.replies → k = fss.length ∧ t.sent[k]? = some .close
  once : (t.replies.map Prod.fst).Nodup
  told : t.phase = .ended → ∀ k < t.sent.length, ∃ r, (k, r) ∈ t.replies
  torn : t.resets ≤ 1 ∧ (t.resets = 1 → t.phase = .ended)
  /-- The next command is executed. -/
  runs : ∀ s, t.phase = .serving s → t.queue ≠ [] → ∃ fuel t', t.work N fuel = some t'

theorem inOrder_of_follows {M : Machine τ} {R : N.Runs M} {m : τ} {t : EngineThread σ}
    (ht : t.Inv) {fss : List (List Frame)} (h : t.Follows R m fss) : InOrder N M m t where
  commands := by
    refine ⟨fss, ?_, fun k out => ?_, fun k hk => ?_⟩
    · have hwires : (t.served.map fun x => EngineCommand.exec x.wire) =
          fss.map fun fs => EngineCommand.exec (encodeAll fs) := by
        have hmap := congrArg (List.map EngineCommand.exec) h.wires
        rwa [List.map_map, List.map_map] at hmap
      rw [← hwires]
      exact ht.executed
    · obtain ⟨tail, hreplies, htail, -⟩ := ht.replies
      rw [hreplies, ← h.responses]
      constructor
      · intro hmem
        rcases List.mem_append.1 hmem with hmem | hmem
        · obtain ⟨x, hx, heq⟩ := List.mem_map.1 hmem
          obtain ⟨rfl, hout⟩ := Prod.mk.inj heq
          obtain ⟨j, hj⟩ := List.mem_iff_getElem?.1 hx
          rw [(ht.served_cmd hj).1, List.getElem?_map, hj]
          exact congrArg some (Reply.response.inj hout)
        · exact (htail _ hmem out rfl).elim
      · intro hk
        rw [List.getElem?_map] at hk
        obtain ⟨x, hx, rfl⟩ := Option.map_eq_some_iff.1 hk
        refine List.mem_append_left _ (List.mem_map.2 ⟨x, List.mem_of_getElem? hx, ?_⟩)
        rw [(ht.served_cmd hx).1]
    · obtain ⟨hlen, hclose⟩ := ht.closed k hk
      have hwires := congrArg List.length h.wires
      rw [List.length_map, List.length_map] at hwires
      exact ⟨hlen.trans hwires, hclose⟩
  once := by
    have hnodup := List.nodup_range (n := t.sent.length)
    rw [← ht.order] at hnodup
    exact (List.nodup_append.1 hnodup).1
  told := by
    intro hended k hk
    have hmem : k ∈ t.replies.map Prod.fst := by
      have horder := ht.order
      rw [ht.idle hended, List.map_nil, List.append_nil] at horder
      rw [horder]
      exact List.mem_range.2 hk
    obtain ⟨⟨k', r⟩, hr, rfl⟩ := List.mem_map.1 hmem
    exact ⟨r, hr⟩
  torn := by
    refine ⟨ht.resets.1, fun hone => ?_⟩
    by_contra halive
    rw [ht.resets.2 halive] at hone
    cases hone
  runs s hphase hqueue := h.work_returns hphase hqueue

/-- **Theorem.** Whoever sends commands, and however that interleaves with everything else, the engine
answers them as one session that takes them one after the other. The first `Close` is the last one it
takes, and whoever else waits is told. -/
theorem engine_in_order {M : Machine τ} (R : N.Runs M) (m : τ) {evs : List (Event σ)} {p : Process σ}
    (hevs : ∀ ev ∈ evs, Allowed EngineThread.Framed (fun s => R.Idle s ∧ R.session s = m) ev)
    (hrun : run (step N) start evs = some p) :
    ∀ inst ∈ p.instances, InOrder N M m inst.thread := by
  have hclose : EngineThread.Framed .close := fun wire hwire => by cases hwire
  have hinv : ∀ inst ∈ p.instances, inst.thread.Inv ∧ ∃ fss, inst.thread.Follows R m fss := by
    refine run_invariant (I := fun p : Process σ => ∀ inst ∈ p.instances, inst.thread.Inv ∧
      ∃ fss, inst.thread.Follows R m fss) ?_ (by simp [start]) (guarded_of_forall hevs) hrun
    intro p ev p' hp hev hstep inst' hinst'
    obtain ⟨inst, hinst, hsame | hmove⟩ | hspawn := step_threads hclose hev hstep hinst'
    · rw [hsame]
      exact hp inst hinst
    · obtain ⟨hthread, fss, hfollows⟩ := hp inst hinst
      exact ⟨hthread.move hmove, hfollows.move hmove⟩
    · rw [hspawn]
      exact ⟨EngineThread.inv_spawn, [], rfl, rfl, by simp [EngineThread.spawn],
        by simp [EngineThread.spawn], fun _ => rfl⟩
  intro inst hinst
  obtain ⟨ht, fss, hfollows⟩ := hinv inst hinst
  exact inOrder_of_follows ht hfollows

/-! ### A backend for empty queries -/

/-- It answers every message but a `Terminate` with `EmptyQueryResponse`. The state tells whether a
`ReadyForQuery` is due. -/
def emptySession : Machine Bool where
  turn due f rest := if f.tag = 88 then (due, [], rest) else (true, [73, 0, 0, 0, 4], rest)
  turn_suffix due f rest := by
    split_ifs
    · exact List.suffix_refl rest
    · exact List.suffix_refl rest
  ready due := (false, if due then [90, 0, 0, 0, 5, 73] else [])

/-- It reads a tag with its length, and then the body. At a `Terminate` it jumps. -/
def emptyBackend : Native Bool where
  bufferRemaining _ := 0
  pump due := .read 5 fun head => .read (ByteReader.fromBe (head.drop 1) - 4) fun _ =>
    if head.head? = some 88 then .ret (100, due) else .write [73, 0, 0, 0, 4] (.ret (0, true))
  mainLongJmp due := .ret due
  sendReadyForQueryIfNecessary due :=
    if due then .write [90, 0, 0, 0, 5, 73] (.ret false) else .ret false
  pqFlush due := .ret due

/-- A message is read whole, in two reads. -/
theorem emptyBackend_pump (due : Bool) {io : EngineIo} {f : Frame} {rest : List Frame} (hf : f.Fits)
    (hin : io.left = encodeAll (f :: rest)) :
    ∃ io', io'.left = encodeAll rest ∧ io'.output = io.output ∧
      (emptyBackend.pump due).run io =
        if f.tag = 88 then ((100, due), io') else ((0, true), io'.writeCb [73, 0, 0, 0, 4]) := by
  have hhead : io.left = (f.tag :: ByteReader.toBe 4 f.len) ++ (f.body ++ encodeAll rest) := by
    rw [hin, encodeAll_cons, Frame.encode, List.cons_append, List.cons_append, List.append_assoc]
  have hfive : (f.tag :: ByteReader.toBe 4 f.len).length = 5 := by simp
  obtain ⟨hgot, hleft⟩ := EngineIo.readCb_of_left hhead
  rw [hfive] at hgot hleft
  have hbody : ByteReader.fromBe (List.drop 1 (f.tag :: ByteReader.toBe 4 f.len)) - 4 =
      f.body.length := by
    rw [List.drop_succ_cons, List.drop_zero, fromBe_len hf, Frame.len, Nat.add_sub_cancel]
  obtain ⟨-, hrest⟩ := EngineIo.readCb_of_left hleft
  refine ⟨((io.readCb 5).2.readCb f.body.length).2, hrest, rfl, ?_⟩
  simp only [emptyBackend, Act.run, hgot, hbody, List.head?_cons, Option.some.injEq]
  split_ifs <;> rfl

def emptyRuns : emptyBackend.Runs emptySession where
  session := id
  buffered _ := []
  held _ := []
  remaining _ := rfl
  turn due io f rest hfits hin := by
    obtain ⟨io', hleft, hout, hpump⟩ := emptyBackend_pump due (hfits f List.mem_cons_self) hin
    unfold Native.turn
    rw [hpump]
    by_cases htag : f.tag = 88
    · simp [htag, emptySession, emptyBackend, Act.run, hleft, hout]
    · have hwritten : (io'.writeCb [73, 0, 0, 0, 4]).output = io.output ++ [73, 0, 0, 0, 4] :=
        congrArg (· ++ [73, 0, 0, 0, 4]) hout
      simp [htag, emptySession, hleft, hwritten]
  ready due io := by
    cases due <;> simp [emptyBackend, emptySession, Act.run, EngineIo.writeCb]
  flush due io := by simp [emptyBackend, Act.run]

/-- The message of an empty query. -/
def emptyQuery : Frame := ⟨81, [0]⟩

/-- Two callers, a `close` between their commands, and a command behind it. -/
def busyClose : List (Event Bool) :=
  [.swapOpen, .swapBooted 0, .boot 0 (some (.ok false)), .bootResult 0, .swept 0 (.ok ()), .clone 0,
    .send 0 emptyQuery.encode, .send 0 (encodeAll [emptyQuery, emptyQuery]), .close 0,
    .send 0 emptyQuery.encode, .work 0 2, .work 0 3, .work 0 2, .closed 0 2]

theorem busyClose_allowed : ∀ ev ∈ busyClose,
    Allowed EngineThread.Framed (fun s => emptyRuns.Idle s ∧ emptyRuns.session s = false) ev := by
  have hone : EngineThread.Framed (.exec emptyQuery.encode) := fun wire hwire => by
    cases hwire
    exact ⟨[emptyQuery], by decide, by decide⟩
  have htwo : EngineThread.Framed (.exec (encodeAll [emptyQuery, emptyQuery])) := fun wire hwire => by
    cases hwire
    exact ⟨[emptyQuery, emptyQuery], by decide, rfl⟩
  simp only [busyClose, List.forall_mem_cons, Allowed, hone, htwo, true_and]
  exact ⟨⟨⟨rfl, rfl⟩, rfl⟩, by simp⟩

theorem engine_in_order_busy : ∃ p, run (step emptyBackend) start busyClose = some p ∧
    ∀ inst ∈ p.instances, InOrder emptyBackend emptySession false inst.thread :=
  ⟨_, rfl, engine_in_order emptyRuns false busyClose_allowed rfl⟩

end Process

end Pglite.Engine
