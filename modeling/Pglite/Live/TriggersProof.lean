import Mathlib.Algebra.Order.BigOperators.Group.List
import Mathlib.Algebra.Order.Group.Nat
import Mathlib.Algebra.Ring.Nat
import Pglite.Live.Triggers
import Pglite.Runs
import Pglite.TaskList

/-!
# Counts and triggers

The count of a table is what the calls hold of it (`Triggers.Inv.counted`). A counted table has
its trigger, or a call is about to make it; a table that nobody counts has none, or a call is
about to drop it.

The code loses this where a call ends without giving back what it holds, and where the last
`unsubscribe` of a table drops the trigger that a new live query has made in the meantime. A run
without such a step (`Triggers.harms`) keeps it.
-/

namespace Pglite.Live

open Runs

variable {τ : Type*} [DecidableEq τ]

namespace Pc

/-- The tables of the call, the ones it has still to count included. -/
def tables : Pc τ → List τ
  | .counting seen _ rest => seen ++ rest
  | .creating seen _ t rest => seen ++ t :: rest
  | pc => pc.holds

/-- The trigger of the table is created by the open transaction, or is about to be. -/
def makes (t : τ) (pc : Pc τ) : Bool :=
  pc.creates t || decide (t ∈ pc.made)

end Pc

namespace Triggers

/-! ## Steps that do harm -/

/-- The table is counted, and no call is about to create its trigger. -/
def wanted (s : Triggers τ) (t : τ) : Bool :=
  decide (0 < s.count t) && !s.tasks.any (Pc.creates t)

/-- A call fails with tables it has counted, or the trigger is dropped or stays against the
count. -/
def harms (s : Triggers τ) : Event τ → Bool
  | .dropped i =>
    match s.tasks[i]? with
    | some (.dropping t _) => s.wanted t
    | _ => false
  | .fail i took =>
    match s.tasks[i]? with
    | some (.creating _ _ _ _) => true
    | some (.committing seen _) => !seen.isEmpty
    | some (.setup watched) | some (.unlistening watched) => !watched.isEmpty
    | some (.dropping t rest) =>
      !rest.isEmpty || if took then s.wanted t else s.trigger t && decide (s.count t = 0)
    | _ => false
  | _ => false

/-- No call is in progress. -/
def Settled (s : Triggers τ) : Prop :=
  ∀ pc ∈ s.tasks, pc.settled = true

instance Settled.decidable (s : Triggers τ) : Decidable s.Settled :=
  inferInstanceAs (Decidable (∀ pc ∈ s.tasks, pc.settled = true))

/-- The count of each table is the number of live queries on it, and its trigger exists exactly
when there is one. -/
def Match (s : Triggers τ) : Prop :=
  s.Settled → ∀ t, s.count t = s.tasks.countP (Pc.watches t) ∧
    (s.trigger t = true ↔ 0 < s.count t)

/-! ## The invariant -/

structure Inv (s : Triggers τ) : Prop where
  counted : ∀ t, s.count t = (s.tasks.map fun pc => pc.holds.count t).sum
  nodup : ∀ pc ∈ s.tasks, pc.tables.Nodup
  made : ∀ pc ∈ s.tasks, ∀ t ∈ pc.made, t ∈ pc.holds
  created : ∀ t, 0 < s.count t → s.trigger t = true ∨ ∃ pc ∈ s.tasks, pc.makes t = true
  dropped : ∀ t, s.trigger t = true → s.count t = 0 → ∃ pc ∈ s.tasks, pc.drops t = true

/-- A table that a call holds is counted. -/
theorem Inv.pos {s : Triggers τ} (h : s.Inv) {pc : Pc τ} (hpc : pc ∈ s.tasks) {t : τ}
    (ht : t ∈ pc.holds) : 0 < s.count t := by
  have hle : pc.holds.count t ≤ (s.tasks.map fun pc => pc.holds.count t).sum :=
    List.le_sum_of_mem (List.mem_map_of_mem hpc)
  have hcount := List.count_pos_iff.2 ht
  rw [h.counted]
  omega

/-- One call moves on, and changes counts and triggers in accordance with what it holds, makes
and drops. -/
theorem Inv.move {s : Triggers τ} (h : s.Inv) {i : Nat} {pc pc' : Pc τ}
    (hpc : s.tasks[i]? = some pc) {count : τ → Nat} {trigger : τ → Bool}
    (hcount : ∀ t, count t + pc.holds.count t = s.count t + pc'.holds.count t)
    (hnodup : pc.tables.Nodup → pc'.tables.Nodup)
    (hmade : (∀ t ∈ pc.made, t ∈ pc.holds) → ∀ t ∈ pc'.made, t ∈ pc'.holds)
    (hcreated : ∀ t, 0 < count t →
      (0 < s.count t ∧ (s.trigger t = true → trigger t = true) ∧
        (pc.makes t = true → pc'.makes t = true ∨ trigger t = true)) ∨
      ∃ pc ∈ s.tasks.set i pc', pc.makes t = true)
    (hdropped : ∀ t, trigger t = true → count t = 0 →
      (s.trigger t = true ∧ s.count t = 0 ∧ pc.drops t = false) ∨ pc'.drops t = true) :
    Inv ⟨count, trigger, s.tasks.set i pc'⟩ where
  counted t := by
    have hsum := TaskList.sum_map_set_add hpc pc' fun pc => pc.holds.count t
    have hold := h.counted t
    have hnew := hcount t
    simp only at hsum ⊢
    omega
  nodup pc₀ hmem := by
    rcases List.mem_or_eq_of_mem_set hmem with hmem | rfl
    · exact h.nodup pc₀ hmem
    · exact hnodup (h.nodup pc (List.mem_of_getElem? hpc))
  made pc₀ hmem := by
    rcases List.mem_or_eq_of_mem_set hmem with hmem | rfl
    · exact h.made pc₀ hmem
    · exact hmade (h.made pc (List.mem_of_getElem? hpc))
  created t ht := by
    rcases hcreated t ht with ⟨hpos, htrigger, hmakes⟩ | hmakes
    · rcases h.created t hpos with hold | hold
      · exact .inl (htrigger hold)
      · by_cases hnew : trigger t = true
        · exact .inl hnew
        · exact .inr (TaskList.exists_mem_set hpc hold fun hm => (hmakes hm).resolve_right hnew)
    · exact .inr hmakes
  dropped t ht hzero := by
    rcases hdropped t ht hzero with ⟨htrigger, hcount, hnot⟩ | hdrops
    · refine TaskList.exists_mem_set hpc (h.dropped t htrigger hcount) fun hd => ?_
      rw [hnot] at hd
      cases hd
    · obtain ⟨hi, -⟩ := List.getElem?_eq_some_iff.1 hpc
      exact ⟨pc', List.mem_set hi pc', hdrops⟩

/-- A call moves on and changes neither counts nor triggers. -/
theorem Inv.goto {s : Triggers τ} (h : s.Inv) {i : Nat} {pc pc' : Pc τ}
    (hpc : s.tasks[i]? = some pc) (hholds : pc'.holds = pc.holds)
    (htables : pc.tables.Nodup → pc'.tables.Nodup)
    (hmade : (∀ t ∈ pc.made, t ∈ pc.holds) → ∀ t ∈ pc'.made, t ∈ pc'.holds)
    (hmakes : ∀ t, pc.makes t = true → pc'.makes t = true)
    (hdrops : ∀ t, pc.drops t = false) : (s.goto i pc').Inv :=
  h.move hpc (fun t => by rw [hholds]) htables hmade
    (fun t hpos => .inl ⟨hpos, id, fun hm => .inl (hmakes t hm)⟩)
    (fun t htrigger hzero => .inl ⟨htrigger, hzero, hdrops t⟩)

/-! ## Steps -/

theorem Inv.call {s : Triggers τ} (h : s.Inv) :
    Inv { s with tasks := s.tasks ++ [.opening] } where
  counted t := by simp [h.counted t, Pc.holds]
  nodup pc hpc := by
    rcases List.mem_append.1 hpc with hpc | hpc
    · exact h.nodup pc hpc
    · obtain rfl := List.mem_singleton.1 hpc
      exact List.nodup_nil
  made pc hpc := by
    rcases List.mem_append.1 hpc with hpc | hpc
    · exact h.made pc hpc
    · obtain rfl := List.mem_singleton.1 hpc
      exact fun t ht => ht
  created t ht := (h.created t ht).imp_right fun ⟨pc, hpc, hm⟩ =>
    ⟨pc, List.mem_append_left _ hpc, hm⟩
  dropped t ht hzero :=
    have ⟨pc, hpc, hd⟩ := h.dropped t ht hzero
    ⟨pc, List.mem_append_left _ hpc, hd⟩

/-- A table is counted. The first call to count it is about to create its trigger. -/
theorem Inv.count {s : Triggers τ} (h : s.Inv) {i : Nat} {seen made rest : List τ} {t : τ}
    (hpc : s.tasks[i]? = some (.counting seen made (t :: rest))) {pc' : Pc τ}
    (hholds : pc'.holds = seen ++ [t]) (htables : pc'.tables = seen ++ t :: rest)
    (hmade : pc'.made = made) (hfirst : s.count t = 0 → pc'.creates t = true) :
    Inv ⟨Function.update s.count t (s.count t + 1), s.trigger, s.tasks.set i pc'⟩ := by
  refine h.move hpc (fun u => ?_) (fun hnodup => ?_) (fun hold u hu => ?_) (fun u hu => ?_)
    (fun u htrigger hzero => ?_)
  · rw [hholds, List.count_append, List.count_singleton, Function.update_apply]
    show _ + seen.count u = _
    by_cases hut : u = t
    · subst hut
      simp only [if_true, BEq.rfl]
      omega
    · simp only [if_neg hut, beq_iff_eq, if_neg (Ne.symm hut)]
      omega
  · rw [htables]
    exact hnodup
  · rw [hmade] at hu
    rw [hholds]
    exact List.mem_append_left _ (hold u hu)
  · by_cases hzero : s.count u = 0
    · have hut : u = t := by
        by_contra hne
        rw [Function.update_of_ne hne] at hu
        omega
      subst hut
      obtain ⟨hi, -⟩ := List.getElem?_eq_some_iff.1 hpc
      exact .inr ⟨pc', List.mem_set hi pc', by simp [Pc.makes, hfirst hzero]⟩
    · refine .inl ⟨Nat.pos_of_ne_zero hzero, id, fun hm => .inl ?_⟩
      simp only [Pc.makes, Pc.creates, Pc.made, Bool.false_or] at hm
      simp [Pc.makes, hmade, of_decide_eq_true hm]
  · have hut : u ≠ t := by
      rintro rfl
      simp at hzero
    rw [Function.update_of_ne hut] at hzero
    exact .inl ⟨htrigger, hzero, rfl⟩

theorem Inv.create {s : Triggers τ} (h : s.Inv) {i : Nat} {seen made : List τ}
    (hpc : s.tasks[i]? = some (.committing seen made)) :
    ((s.create made).goto i (.setup seen)).Inv := by
  have hheld : ∀ t ∈ made, t ∈ seen := h.made _ (List.mem_of_getElem? hpc)
  refine h.move hpc (fun t => rfl) id (fun _ t ht => absurd ht List.not_mem_nil)
    (fun t hpos => .inl ⟨hpos, fun hold => ?_, fun hm => .inr ?_⟩) (fun t htrigger hzero => ?_)
  · show (s.trigger t || _) = true
    rw [hold, Bool.true_or]
  · simp only [Pc.makes, Pc.creates, Pc.made, Bool.false_or] at hm
    exact Bool.or_eq_true_iff.2 (.inr (decide_eq_true (of_decide_eq_true hm)))
  · rcases Bool.or_eq_true_iff.1 htrigger with hold | hnew
    · exact .inl ⟨hold, hzero, rfl⟩
    · have hpos := h.pos (List.mem_of_getElem? hpc) (hheld t (of_decide_eq_true hnew))
      have hnot : s.count t = 0 := hzero
      omega

/-- A table is given back. The last call to do so is about to drop its trigger. -/
theorem Inv.release {s : Triggers τ} (h : s.Inv) {i n : Nat} {t : τ} {rest : List τ}
    (hpc : s.tasks[i]? = some (.releasing (t :: rest))) (hn : s.count t = n + 1) {pc' : Pc τ}
    (hholds : pc'.holds = rest) (htables : pc'.tables = rest) (hmade : pc'.made = [])
    (hlast : n = 0 → pc'.drops t = true) :
    Inv ⟨Function.update s.count t n, s.trigger, s.tasks.set i pc'⟩ := by
  refine h.move hpc (fun u => ?_) (fun hnodup => ?_) (fun _ u hu => ?_)
    (fun u hu => .inl ⟨?_, id, fun hm => absurd hm (by simp [Pc.makes, Pc.creates, Pc.made])⟩)
    (fun u htrigger hzero => ?_)
  · show _ + (t :: rest).count u = _
    rw [hholds, List.count_cons, Function.update_apply]
    by_cases hut : u = t
    · subst hut
      simp only [if_true, BEq.rfl]
      omega
    · simp only [if_neg hut, beq_iff_eq, if_neg (Ne.symm hut)]
      omega
  · rw [htables]
    exact (List.nodup_cons.1 hnodup).2
  · rw [hmade] at hu
    exact absurd hu List.not_mem_nil
  · by_cases hut : u = t
    · subst hut
      omega
    · rwa [Function.update_of_ne hut] at hu
  · by_cases hut : u = t
    · subst hut
      rw [Function.update_self] at hzero
      exact .inr (hlast hzero)
    · rw [Function.update_of_ne hut] at hzero
      exact .inl ⟨htrigger, hzero, rfl⟩

/-- The trigger is dropped, and nobody counts the table, or its new trigger is not made yet. -/
theorem Inv.drop {s : Triggers τ} (h : s.Inv) {i : Nat} {t : τ} {rest : List τ}
    (hpc : s.tasks[i]? = some (.dropping t rest)) (hok : s.wanted t = false) {pc' : Pc τ}
    (hholds : pc'.holds = rest) (htables : pc'.tables = rest) (hmade : pc'.made = []) :
    ((s.drop t).goto i pc').Inv := by
  refine h.move hpc (fun u => by rw [hholds]; rfl) (fun hnodup => htables ▸ hnodup)
    (fun _ u hu => ?_) (fun u hpos => ?_) (fun u htrigger hzero => ?_)
  · rw [hmade] at hu
    exact absurd hu List.not_mem_nil
  · by_cases hut : u = t
    · -- The call that counts the table again has still to create the trigger.
      subst hut
      obtain ⟨pc, hmem, hcreates⟩ : ∃ pc ∈ s.tasks, pc.creates u = true := by
        by_contra hnot
        have hpos' : 0 < s.count u := hpos
        simp_all [wanted]
      right
      refine TaskList.exists_mem_set hpc ⟨pc, hmem, ?_⟩ ?_
      · simp [Pc.makes, hcreates]
      · simp [Pc.makes, Pc.creates, Pc.made]
    · refine .inl ⟨hpos, fun hold => ?_, fun hm => absurd hm ?_⟩
      · exact (Function.update_of_ne hut _ _).trans hold
      · simp [Pc.makes, Pc.creates, Pc.made]
  · have hut : u ≠ t := by
      rintro rfl
      simp [Triggers.drop] at htrigger
    refine .inl ⟨(Function.update_of_ne hut _ _).symm.trans htrigger, hzero, ?_⟩
    simp [Pc.drops, Ne.symm hut]

theorem create_nil (s : Triggers τ) : s.create [] = s := by
  cases s
  simp [create]

/-- A failing command leaves the invariant when the call has nothing left to give back, and the
trigger is not dropped or left against the count. -/
theorem Inv.fail {s s' : Triggers τ} (h : s.Inv) {i : Nat} {took : Bool}
    (hok : s.harms (.fail i took) = false) {pc : Pc τ} (hpc : s.tasks[i]? = some pc)
    (hstep : s.failed i took pc = some s') : s'.Inv := by
  have hgoto : ∀ {pc : Pc τ}, s.tasks[i]? = some pc → pc.holds = [] →
      (∀ t, pc.makes t = false) → (∀ t, pc.drops t = false) → (s.goto i .ended).Inv := by
    intro pc hpc hholds hmakes hdrops
    refine h.goto hpc hholds.symm (fun _ => List.nodup_nil) (fun _ t ht => ht) (fun t hm => ?_)
      hdrops
    rw [hmakes] at hm
    cases hm
  cases pc with
  | opening =>
    obtain rfl := Option.some.inj hstep
    exact hgoto hpc rfl (fun _ => rfl) (fun _ => rfl)
  | closing =>
    obtain rfl := Option.some.inj hstep
    exact hgoto hpc rfl (fun _ => rfl) (fun _ => rfl)
  | creating seen made t rest => simp [harms, hpc] at hok
  | setup watched =>
    obtain rfl := Option.some.inj hstep
    obtain rfl : watched = [] := by simpa [harms, hpc] using hok
    exact hgoto hpc rfl (fun _ => rfl) (fun _ => rfl)
  | unlistening watched =>
    obtain rfl := Option.some.inj hstep
    obtain rfl : watched = [] := by simpa [harms, hpc] using hok
    exact hgoto hpc rfl (fun _ => rfl) (fun _ => rfl)
  | committing seen made =>
    obtain rfl := Option.some.inj hstep
    obtain rfl : seen = [] := by simpa [harms, hpc] using hok
    have hheld : ∀ t ∈ made, t ∈ [] := h.made _ (List.mem_of_getElem? hpc)
    obtain rfl : made = [] :=
      List.eq_nil_iff_forall_not_mem.2 fun t ht => List.not_mem_nil (hheld t ht)
    rw [create_nil, ite_self]
    exact hgoto hpc rfl (fun _ => rfl) (fun _ => rfl)
  | dropping t rest =>
    obtain ⟨rfl, htook⟩ : rest = [] ∧
        (if took then s.wanted t else s.trigger t && decide (s.count t = 0)) = false := by
      simpa [harms, hpc] using hok
    simp only [failed] at hstep
    split_ifs at hstep with hlocked htaken <;> obtain rfl := Option.some.inj hstep
    · exact h.drop hpc (by simpa [htaken] using htook) rfl rfl rfl
    · have hkept : s.trigger t = true → 0 < s.count t := by
        intro htrigger
        have hne : s.count t ≠ 0 := by simpa [htaken, htrigger] using htook
        exact Nat.pos_of_ne_zero hne
      refine h.move hpc (fun u => rfl) (fun _ => List.nodup_nil)
        (fun _ u hu => absurd hu List.not_mem_nil) (fun u hpos => .inl ⟨hpos, id, fun hm => ?_⟩)
        (fun u htrigger hzero => ?_)
      · simp [Pc.makes, Pc.creates, Pc.made] at hm
      · have hut : u ≠ t := by
          rintro rfl
          have hpos := hkept htrigger
          omega
        refine .inl ⟨htrigger, hzero, ?_⟩
        simp [Pc.drops, Ne.symm hut]
  | counting seen made rest => cases hstep
  | live watched => cases hstep
  | releasing rest => cases hstep
  | ended => cases hstep

/-- **Step lemma.** A step that does no harm keeps counts and triggers together. -/
theorem Inv.step {s s' : Triggers τ} {e : Event τ} (h : s.Inv) (hok : s.harms e = false)
    (hstep : Triggers.step s e = some s') : s'.Inv := by
  cases e with
  | call =>
    obtain rfl := Option.some.inj hstep
    exact h.call
  | opened i watched =>
    rw [Triggers.step] at hstep
    split at hstep
    · next hpc =>
      split_ifs at hstep with hnodup
      obtain rfl := Option.some.inj hstep
      exact h.goto hpc rfl (fun _ => hnodup) (fun _ t ht => ht) (fun _ hm => hm) (fun _ => rfl)
    · cases hstep
  | count i =>
    rw [Triggers.step] at hstep
    split at hstep
    · next seen made hpc =>
      obtain rfl := Option.some.inj hstep
      refine h.goto hpc rfl (fun hnodup => ?_) id (fun _ hm => hm) (fun _ => rfl)
      simpa [Pc.tables, Pc.holds] using hnodup
    · next seen made t rest hpc =>
      split_ifs at hstep with hzero <;> obtain rfl := Option.some.inj hstep
      · exact h.count hpc rfl rfl rfl fun _ => by simp [Pc.creates]
      · refine h.count hpc rfl ?_ rfl fun hnot => absurd hnot hzero
        simp [Pc.tables]
    · cases hstep
  | created i =>
    rw [Triggers.step] at hstep
    split at hstep
    · next seen made t rest hpc =>
      split_ifs at hstep
      obtain rfl := Option.some.inj hstep
      refine h.goto hpc rfl (fun hnodup => ?_) (fun hmade u hu => ?_) (fun u hm => ?_)
        (fun _ => rfl)
      · simpa [Pc.tables] using hnodup
      · rcases List.mem_append.1 hu with hu | hu
        · exact hmade u hu
        · exact List.mem_append_right _ hu
      · refine Bool.or_eq_true_iff.2 (.inr (decide_eq_true ?_))
        rcases Bool.or_eq_true_iff.1 hm with hm | hm
        · exact List.mem_append_right _ (List.mem_singleton.2 (of_decide_eq_true hm).symm)
        · exact List.mem_append_left _ (of_decide_eq_true hm)
    · cases hstep
  | committed i =>
    rw [Triggers.step] at hstep
    split at hstep
    · next hpc =>
      obtain rfl := Option.some.inj hstep
      exact h.create hpc
    · cases hstep
  | ready i =>
    rw [Triggers.step] at hstep
    split at hstep
    · next hpc =>
      obtain rfl := Option.some.inj hstep
      exact h.goto hpc rfl id (fun hmade => hmade) (fun _ hm => hm) (fun _ => rfl)
    · cases hstep
  | unsubscribe i =>
    rw [Triggers.step] at hstep
    split at hstep
    · next hpc =>
      obtain rfl := Option.some.inj hstep
      exact h.goto hpc rfl id (fun hmade => hmade) (fun _ hm => hm) (fun _ => rfl)
    · cases hstep
  | unlistened i =>
    rw [Triggers.step] at hstep
    split at hstep
    · next hpc =>
      obtain rfl := Option.some.inj hstep
      exact h.goto hpc rfl id (fun hmade => hmade) (fun _ hm => hm) (fun _ => rfl)
    · cases hstep
  | release i =>
    rw [Triggers.step] at hstep
    split at hstep
    · next hpc =>
      obtain rfl := Option.some.inj hstep
      exact h.goto hpc rfl id (fun hmade => hmade) (fun _ hm => hm) (fun _ => rfl)
    · next t rest hpc =>
      split at hstep <;> obtain rfl := Option.some.inj hstep
      · next hzero =>
        have hpos := h.pos (List.mem_of_getElem? hpc) (t := t) List.mem_cons_self
        omega
      · next hone => exact h.release hpc hone rfl rfl rfl fun _ => by simp [Pc.drops]
      · next n hn => exact h.release hpc hn rfl rfl rfl fun hnot => absurd hnot (by omega)
    · cases hstep
  | dropped i =>
    rw [Triggers.step] at hstep
    split at hstep
    · next t rest hpc =>
      split_ifs at hstep
      obtain rfl := Option.some.inj hstep
      have hwanted : s.wanted t = false := by simpa [harms, hpc] using hok
      exact h.drop hpc hwanted rfl rfl rfl
    · cases hstep
  | closed i =>
    rw [Triggers.step] at hstep
    split at hstep
    · next hpc =>
      obtain rfl := Option.some.inj hstep
      exact h.goto hpc rfl id (fun hmade => hmade) (fun _ hm => hm) (fun _ => rfl)
    · cases hstep
  | fail i took =>
    obtain ⟨pc, hpc, hfailed⟩ := Option.bind_eq_some_iff.1 hstep
    exact h.fail hok hpc hfailed

theorem start_inv : (start : Triggers τ).Inv where
  counted _ := rfl
  nodup _ hpc := absurd hpc List.not_mem_nil
  made _ hpc := absurd hpc List.not_mem_nil
  created _ hpos := absurd hpos (Nat.lt_irrefl 0)
  dropped _ ht := absurd ht Bool.false_ne_true

/-- Among settled calls only the live queries on a table hold it, each once. -/
theorem sum_holds_settled {l : List (Pc τ)} (hsettled : ∀ pc ∈ l, pc.settled = true)
    (hnodup : ∀ pc ∈ l, pc.tables.Nodup) (t : τ) :
    (l.map fun pc => pc.holds.count t).sum = l.countP (Pc.watches t) := by
  induction l with
  | nil => rfl
  | cons pc l ih =>
    have hrest := ih (fun pc hpc => hsettled pc (List.mem_cons_of_mem _ hpc))
      (fun pc hpc => hnodup pc (List.mem_cons_of_mem _ hpc))
    have hpc := hsettled pc List.mem_cons_self
    have hdup := hnodup pc List.mem_cons_self
    rw [List.map_cons, List.sum_cons, List.countP_cons, hrest]
    cases pc with
    | live watched =>
      have hcount : watched.count t = if t ∈ watched then 1 else 0 :=
        List.Nodup.count hdup
      simp only [Pc.holds, Pc.watches, hcount, decide_eq_true_eq]
      omega
    | ended => simp [Pc.holds, Pc.watches]
    | _ => cases hpc

theorem Inv.match {s : Triggers τ} (h : s.Inv) : s.Match := by
  intro hsettled t
  have hcount : s.count t = s.tasks.countP (Pc.watches t) := by
    rw [h.counted, sum_holds_settled hsettled h.nodup]
  refine ⟨hcount, fun htrigger => ?_, fun hpos => ?_⟩
  · by_contra hnot
    obtain ⟨pc, hpc, hdrops⟩ := h.dropped t htrigger (by omega)
    have hset := hsettled pc hpc
    cases pc <;> cases hset <;> cases hdrops
  · refine (h.created t hpos).resolve_right ?_
    rintro ⟨pc, hpc, hmakes⟩
    have hset := hsettled pc hpc
    cases pc <;> cases hset <;> simp [Pc.makes, Pc.creates, Pc.made] at hmakes

end Triggers

/-- **Theorem.** Whenever no call of `live_query` or `unsubscribe` is in progress, the count of
each table is the number of live queries on it, and its trigger exists exactly when that is
positive, as long as no call fails that still has tables to give back and no trigger is dropped
under a table that is counted again. -/
theorem live_triggers_match {t : Triggers τ} (es : List (Triggers.Event τ))
    (hok : Guarded Triggers.step (fun s e => s.harms e = false) Triggers.start es)
    (hrun : run Triggers.step Triggers.start es = some t) : t.Match :=
  have hstep : ∀ (s : Triggers τ) e s', s.Inv → s.harms e = false → Triggers.step s e = some s' →
      s'.Inv := fun _ _ _ h hok hs => h.step hok hs
  (run_invariant hstep Triggers.start_inv hok hrun).match

/-- Two live queries share a table, and the second call of `unsubscribe` overlaps with a third
live query, whose trigger is created after the drop. A failing first call harms nobody. -/
theorem live_triggers_match_shared :
    ∃ t, run Triggers.step (Triggers.start : Triggers String)
        [.call, .fail 0 false, .call, .opened 1 ["todos"], .count 1, .created 1, .count 1,
          .committed 1, .call, .opened 2 ["todos", "users"], .count 2, .count 2, .ready 1,
          .unsubscribe 1, .unlistened 1, .release 1, .release 1, .closed 1, .created 2, .count 2,
          .committed 2, .ready 2, .unsubscribe 2, .unlistened 2, .release 2, .call,
          .opened 3 ["todos"], .count 3, .dropped 2, .release 2, .dropped 2, .release 2,
          .fail 2 false, .created 3, .count 3, .committed 3, .ready 3] = some t ∧
      t.Settled ∧ t.count "todos" = 1 ∧ t.trigger "todos" = true ∧ t.Match :=
  ⟨_, rfl, by decide, by decide, by decide, live_triggers_match
    [.call, .fail 0 false, .call, .opened 1 ["todos"], .count 1, .created 1, .count 1,
      .committed 1, .call, .opened 2 ["todos", "users"], .count 2, .count 2, .ready 1,
      .unsubscribe 1, .unlistened 1, .release 1, .release 1, .closed 1, .created 2, .count 2,
      .committed 2, .ready 2, .unsubscribe 2, .unlistened 2, .release 2, .call,
      .opened 3 ["todos"], .count 3, .dropped 2, .release 2, .dropped 2, .release 2,
      .fail 2 false, .created 3, .count 3, .committed 3, .ready 3] (by decide) rfl⟩

/-- The trigger cannot be created: the call fails, and the table stays counted. -/
theorem live_triggers_diverge :
    ¬ ∀ (t : Triggers String) (es : List (Triggers.Event String)),
      run Triggers.step Triggers.start es = some t → t.Match := by
  intro h
  have hmatch := h _ [.call, .opened 0 ["todos"], .count 0, .fail 0 false] rfl (by decide) "todos"
  exact absurd hmatch.1 (by decide)

end Pglite.Live
