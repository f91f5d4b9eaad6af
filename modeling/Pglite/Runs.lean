import Mathlib.Data.List.Basic
import Mathlib.Logic.Relation

/-!
# Runs of a step function

A system is a partial step function `step : S → E → Option S`. The event carries every choice
made outside the program (a schedule, an answer, a failure), so a list of events determines a
run, and a disabled event gives `none`.

* `run`: the state after a list of events. One that works on a part of the state is a run of that
  part (`run_map`). It comes to its end when each event is enabled after those before it
  (`run_isSome_of_enabled`).
* `Guarded`: every step of the run meets a condition in the state it starts from.
* `run_invariant`: a property kept by every guarded step holds at the end of a guarded run.
* `run_refines`: when every guarded step is some moves of another system, so is a guarded run.
* `recorded`: a run with a record of its own past beside the state, which it does not look at.
* `Along`: a property of every state that a run goes through. `along_iff_guarded` says when it
  holds.
* `run_update`: when every step sets a key of its own, the state has what each of them set.
* `run_keyedStep_iff`: when every step works on the value of one key, a run is a run on each key.
* `run_iff_forall`: when it depends on the event alone whether a step is enabled, so does the run on
  the events.
* `run_iff_guarded`: when each step keeps a property exactly if it meets the condition, the
  property holds at the end of a run exactly if the whole run is guarded.
-/

namespace Runs

variable {S E : Type*} {step : S → E → Option S}

/-- The state after a list of events, when all of them are enabled in turn. -/
def run (step : S → E → Option S) : S → List E → Option S
  | s, [] => some s
  | s, e :: es => (step s e).bind fun s' => run step s' es

@[simp] theorem run_nil (s : S) : run step s [] = some s := rfl

theorem run_cons_eq_some {s t : S} {e : E} {es : List E} :
    run step s (e :: es) = some t ↔ ∃ s', step s e = some s' ∧ run step s' es = some t := by
  simp [run, Option.bind_eq_some_iff]

theorem run_append_eq_some {s t : S} {es fs : List E} :
    run step s (es ++ fs) = some t ↔ ∃ s', run step s es = some s' ∧ run step s' fs = some t := by
  induction es generalizing s with
  | nil => simp
  | cons e es ih =>
    simp only [List.cons_append, run_cons_eq_some, ih]
    constructor
    · rintro ⟨u, hu, v, hv, ht⟩
      exact ⟨v, ⟨u, hu, hv⟩, ht⟩
    · rintro ⟨v, ⟨u, hu, hv⟩, ht⟩
      exact ⟨u, hu, v, hv, ht⟩

theorem run_append_of {s t : S} {es : List E} (h : run step s es = some t) (fs : List E) :
    run step s (es ++ fs) = run step t fs := by
  apply Option.ext
  intro u
  simp [run_append_eq_some, h]

/-- A run that comes to its end comes to the end of each of its beginnings. -/
theorem run_prefix {s t : S} {es fs : List E} (h : run step s es = some t) (hfs : fs <+: es) :
    ∃ u, run step s fs = some u := by
  obtain ⟨rest, rfl⟩ := hfs
  obtain ⟨u, hu, -⟩ := run_append_eq_some.1 h
  exact ⟨u, hu⟩

/-- A run comes to its end when each event is enabled after those before it. -/
theorem run_isSome_of_enabled {s : S} {es : List E}
    (h : ∀ fs e t, fs ++ [e] <+: es → run step s fs = some t → (step t e).isSome) :
    (run step s es).isSome := by
  induction es generalizing s with
  | nil => rfl
  | cons e es ih =>
    have hfirst : [e] <+: e :: es := ⟨es, rfl⟩
    obtain ⟨s', hs'⟩ := Option.isSome_iff_exists.1 (h [] e s hfirst rfl)
    rw [run, hs']
    refine ih fun fs e' t hfs ht => ?_
    exact h (e :: fs) e' t (List.prefix_cons_inj e |>.2 hfs) (run_cons_eq_some.2 ⟨s', hs', ht⟩)

/-- A beginning of two lists ends in the first or in the second. -/
theorem snoc_prefix_append {es fs gs : List E} {e : E} (h : es ++ [e] <+: fs ++ gs) :
    es ++ [e] <+: fs ∨ ∃ rest, es = fs ++ rest ∧ rest ++ [e] <+: gs := by
  rcases List.prefix_or_prefix_of_prefix h (List.prefix_append fs gs) with hfs | hfs
  · exact .inl hfs
  rcases List.prefix_concat_iff.1 hfs with rfl | ⟨rest, rfl⟩
  · exact .inl List.prefix_rfl
  · rw [List.append_assoc, List.prefix_append_right_inj] at h
    exact .inr ⟨rest, rfl, h⟩

/-- A beginning of the events of several parts ends in the events of one of them. -/
theorem snoc_prefix_flatMap {P : Type*} {events : P → List E} {ps : List P} {es : List E} {e : E}
    (h : es ++ [e] <+: ps.flatMap events) : ∃ as p bs rest, ps = as ++ p :: bs ∧
      es = as.flatMap events ++ rest ∧ rest ++ [e] <+: events p := by
  induction ps generalizing es with
  | nil => simp at h
  | cons p ps ih =>
    rcases snoc_prefix_append h with hp | ⟨rest, rfl, hrest⟩
    · exact ⟨[], p, ps, es, rfl, rfl, hp⟩
    · obtain ⟨as, q, bs, rest, rfl, rfl, hq⟩ := ih hrest
      exact ⟨p :: as, q, bs, rest, rfl, by rw [List.flatMap_cons, List.append_assoc], hq⟩

theorem snoc_prefix_map {X : Type*} {f : X → E} {xs : List X} {es : List E} {e : E}
    (h : es ++ [e] <+: xs.map f) : ∃ ys x, ys ++ [x] <+: xs ∧ es = ys.map f ∧ e = f x := by
  obtain ⟨zs, hzs, heq⟩ := List.prefix_map_iff.1 h
  obtain ⟨ys, rest, rfl, hys, hrest⟩ := List.map_eq_append_iff.1 heq.symm
  obtain ⟨x, rfl, hx⟩ := List.map_eq_singleton_iff.1 hrest
  exact ⟨ys, x, hzs, hys.symm, hx.symm⟩

/-- A run that works on one part of the state only. -/
theorem run_map {B F : Type*} {sub : B → F → Option B} {put : B → S} {ev : F → E}
    (hstep : ∀ b f, step (put b) (ev f) = (sub b f).map put) (b : B) (fs : List F) :
    run step (put b) (fs.map ev) = (run sub b fs).map put := by
  induction fs generalizing b with
  | nil => rfl
  | cons f fs ih =>
    rw [List.map_cons, run, hstep, run]
    cases sub b f with
    | none => rfl
    | some b' => exact ih b'

/-- The events of a step are events of a finer step. -/
theorem run_flatMap {X : Type*} (f : X → List E) (s : S) (xs : List X) :
    run step s (xs.flatMap f) = run (fun s x => run step s (f x)) s xs := by
  induction xs generalizing s with
  | nil => rfl
  | cons x xs ih =>
    apply Option.ext
    intro t
    simp only [List.flatMap_cons, run_append_eq_some, run_cons_eq_some, ih]

/-! ## Steps that are enabled or not by the event alone -/

/-- Such a run comes to its end exactly when every event is enabled. -/
theorem run_map_iff {X : Type*} {ev : X → E} {ok : X → Prop} [DecidablePred ok] {upd : S → X → S}
    (hstep : ∀ s x, step s (ev x) = if ok x then some (upd s x) else none) {s t : S}
    {xs : List X} :
    run step s (xs.map ev) = some t ↔ (∀ x ∈ xs, ok x) ∧ t = xs.foldl upd s := by
  induction xs generalizing s with
  | nil => simp [eq_comm]
  | cons x xs ih =>
    rw [List.map_cons, run_cons_eq_some, List.forall_mem_cons, List.foldl_cons]
    constructor
    · rintro ⟨u, hu, ht⟩
      rw [hstep] at hu
      split_ifs at hu with hok
      obtain rfl := Option.some.inj hu
      obtain ⟨hrest, rfl⟩ := ih.1 ht
      exact ⟨⟨hok, hrest⟩, rfl⟩
    · rintro ⟨⟨hok, hrest⟩, rfl⟩
      exact ⟨upd s x, by rw [hstep, if_pos hok], ih.2 ⟨hrest, rfl⟩⟩

theorem run_iff_forall {ok : E → Prop} [DecidablePred ok] {upd : S → E → S}
    (hstep : ∀ s e, step s e = if ok e then some (upd s e) else none) {s t : S} {es : List E} :
    run step s es = some t ↔ (∀ e ∈ es, ok e) ∧ t = es.foldl upd s := by
  have h : run step s (es.map id) = some t ↔ (∀ e ∈ es, ok e) ∧ t = es.foldl upd s :=
    run_map_iff hstep
  rwa [List.map_id] at h

/-- Steps that are always enabled. -/
theorem run_some (upd : S → E → S) (s : S) (es : List E) :
    run (fun s e => some (upd s e)) s es = some (es.foldl upd s) := by
  induction es generalizing s with
  | nil => rfl
  | cons e es ih => exact ih (upd s e)

/-! ## Runs on the keys of a map -/

section Keys

variable {K V : Type*} {key : E → K} {kstep : (K → V) → E → Option (K → V)}

/-- A key that no event is about keeps its value. -/
theorem run_frame (hstep : ∀ m e m', kstep m e = some m' → ∀ k, k ≠ key e → m' k = m k)
    {m m' : K → V} {es : List E} {k : K} (hk : k ∉ es.map key) (hrun : run kstep m es = some m') :
    m' k = m k := by
  induction es generalizing m with
  | nil =>
    obtain rfl : m = m' := by simpa using hrun
    rfl
  | cons e es ih =>
    obtain ⟨u, hu, hm'⟩ := run_cons_eq_some.1 hrun
    rw [List.map_cons, List.mem_cons, not_or] at hk
    rw [ih hk.2 hm', hstep m e u hu k hk.1]

/-- **Keyed steps.** Every event sets its own key from what the key had. -/
theorem run_update [DecidableEq K] {f : E → V → V}
    (hstep : ∀ m e m', kstep m e = some m' →
      m' = Function.update m (key e) (f e (m (key e))))
    {m m' : K → V} {es : List E} (hnodup : (es.map key).Nodup)
    (hrun : run kstep m es = some m') {e : E} (he : e ∈ es) :
    m' (key e) = f e (m (key e)) := by
  have hframe : ∀ m e m', kstep m e = some m' → ∀ k, k ≠ key e → m' k = m k := by
    intro m e m' h k hk
    rw [hstep m e m' h, Function.update_of_ne hk]
  induction es generalizing m with
  | nil => cases he
  | cons e₀ es ih =>
    obtain ⟨u, hu, hm'⟩ := run_cons_eq_some.1 hrun
    rw [List.map_cons, List.nodup_cons] at hnodup
    rcases List.mem_cons.1 he with rfl | he
    · rw [run_frame hframe hnodup.1 hm', hstep m e u hu, Function.update_self]
    · rw [ih hnodup.2 hm' he, hframe m e₀ u hu (key e)]
      intro hkey
      exact hnodup.1 (hkey ▸ List.mem_map_of_mem he)

theorem run_sets [DecidableEq K] {f : E → V → V} {m m' : K → V} {es : List E}
    (hnodup : (es.map key).Nodup)
    (hrun : run (fun m e => some (Function.update m (key e) (f e (m (key e))))) m es = some m') :
    (∀ e ∈ es, m' (key e) = f e (m (key e))) ∧ ∀ k ∉ es.map key, m' k = m k := by
  constructor
  · intro e he
    exact run_update (fun m e m' hm => (Option.some.inj hm).symm) hnodup hrun he
  · intro k hk
    refine run_frame (fun m e m' hm k hk => ?_) hk hrun
    cases hm
    rw [Function.update_of_ne hk]

/-- Every event sets its own key to a value of its own: the last one counts. -/
theorem foldl_update_apply [DecidableEq K] {val : E → V} (m : K → V) (es : List E) (k : K) :
    es.foldl (fun m e => Function.update m (key e) (val e)) m k =
      ((es.reverse.find? fun e => decide (key e = k)).map val).getD (m k) := by
  induction es generalizing m with
  | nil => rfl
  | cons e es ih =>
    rw [List.foldl_cons, ih, List.reverse_cons, List.find?_append]
    cases es.reverse.find? fun e => decide (key e = k) with
    | some e' => rfl
    | none =>
      by_cases hk : key e = k
      · simp [hk]
      · simp [hk, Function.update_of_ne (Ne.symm hk)]

/-- A step on the value of one key, or on none. -/
def keyedStep [DecidableEq K] (key : E → Option K) (vstep : V → E → Option V) (m : K → V) (e : E) :
    Option (K → V) :=
  match key e with
  | none => some m
  | some k => (vstep (m k) e).map (Function.update m k)

theorem keyedStep_of_ne [DecidableEq K] {key : E → Option K} {vstep : V → E → Option V}
    {m m' : K → V} {e : E} {k : K} (hk : key e ≠ some k) (h : keyedStep key vstep m e = some m') :
    m' k = m k := by
  unfold keyedStep at h
  cases hkey : key e with
  | none =>
    rw [hkey] at h
    rw [Option.some.inj h]
  | some k₀ =>
    rw [hkey] at h
    obtain ⟨v, -, rfl⟩ := Option.map_eq_some_iff.1 h
    refine Function.update_of_ne (fun heq => hk ?_) _ _
    rw [hkey, heq]

/-- **A run key by key.** It is a run on the value of each key of the events on that key. -/
theorem run_keyedStep_iff [DecidableEq K] {key : E → Option K} {vstep : V → E → Option V}
    {m m' : K → V} {es : List E} : run (keyedStep key vstep) m es = some m' ↔
      ∀ k, run vstep (m k) (es.filter fun e => decide (key e = some k)) = some (m' k) := by
  induction es generalizing m with
  | nil => simp [funext_iff]
  | cons e es ih =>
    rw [run_cons_eq_some]
    cases hkey : key e with
    | none =>
      have hstep : keyedStep key vstep m e = some m := by simp [keyedStep, hkey]
      have hfilter : ∀ k, (e :: es).filter (fun e => decide (key e = some k)) =
          es.filter fun e => decide (key e = some k) := fun k =>
        List.filter_cons_of_neg (by simp [hkey])
      simp only [hstep, Option.some.injEq, exists_eq_left', hfilter, ih]
    | some k₀ =>
      have hstep : keyedStep key vstep m e = (vstep (m k₀) e).map (Function.update m k₀) := by
        simp [keyedStep, hkey]
      have hown : (e :: es).filter (fun e => decide (key e = some k₀)) =
          e :: es.filter fun e => decide (key e = some k₀) :=
        List.filter_cons_of_pos (by simp [hkey])
      have hother : ∀ k, k ≠ k₀ → (e :: es).filter (fun e => decide (key e = some k)) =
          es.filter fun e => decide (key e = some k) := fun k hk =>
        List.filter_cons_of_neg (by simpa [hkey] using Ne.symm hk)
      rw [hstep]
      constructor
      · rintro ⟨u, hu, hrun⟩ k
        obtain ⟨v, hv, rfl⟩ := Option.map_eq_some_iff.1 hu
        have hk := ih.1 hrun k
        by_cases heq : k = k₀
        · subst heq
          rw [Function.update_self] at hk
          rw [hown]
          exact run_cons_eq_some.2 ⟨v, hv, hk⟩
        · rw [Function.update_of_ne heq] at hk
          rwa [hother k heq]
      · intro hall
        have hk₀ := hall k₀
        rw [hown] at hk₀
        obtain ⟨v, hv, hrest⟩ := run_cons_eq_some.1 hk₀
        refine ⟨Function.update m k₀ v, by rw [hv, Option.map_some], ih.2 fun k => ?_⟩
        by_cases heq : k = k₀
        · subst heq
          rwa [Function.update_self]
        · rw [Function.update_of_ne heq, ← hother k heq]
          exact hall k

/-- When the events of several parts are on no key or on that of their part, those on a key are
those of the part that has it. -/
theorem filter_flatMap_key [DecidableEq K] {P : Type*} {pkey : P → K} {key : E → Option K}
    {events : P → List E} {ps : List P} (hnodup : (ps.map pkey).Nodup)
    (hown : ∀ p ∈ ps, ∀ e ∈ events p, ∀ k, key e = some k → k = pkey p) {p : P} (hp : p ∈ ps) :
    (ps.flatMap events).filter (fun e => decide (key e = some (pkey p))) =
      (events p).filter fun e => decide (key e = some (pkey p)) := by
  induction ps with
  | nil => cases hp
  | cons q ps ih =>
    rw [List.map_cons, List.nodup_cons] at hnodup
    rw [List.forall_mem_cons] at hown
    rw [List.flatMap_cons, List.filter_append]
    rcases List.mem_cons.1 hp with rfl | hp
    · have hrest : (ps.flatMap events).filter (fun e => decide (key e = some (pkey p))) = [] := by
        refine List.filter_eq_nil_iff.2 fun e he => ?_
        obtain ⟨q, hq, he⟩ := List.mem_flatMap.1 he
        rw [decide_eq_true_iff]
        intro hkey
        exact hnodup.1 (hown.2 q hq e he _ hkey ▸ List.mem_map_of_mem hq)
      rw [hrest, List.append_nil]
    · have hfirst : (events q).filter (fun e => decide (key e = some (pkey p))) = [] := by
        refine List.filter_eq_nil_iff.2 fun e he => ?_
        rw [decide_eq_true_iff]
        intro hkey
        exact hnodup.1 (hown.1 e he _ hkey ▸ List.mem_map_of_mem hp)
      rw [hfirst, List.nil_append, ih hnodup.2 hown.2 hp]

/-- No part has the key. -/
theorem filter_flatMap_key_eq_nil [DecidableEq K] {P : Type*} {pkey : P → K} {key : E → Option K}
    {events : P → List E} {ps : List P}
    (hown : ∀ p ∈ ps, ∀ e ∈ events p, ∀ k, key e = some k → k = pkey p) {k : K}
    (hk : k ∉ ps.map pkey) : (ps.flatMap events).filter (fun e => decide (key e = some k)) = [] := by
  refine List.filter_eq_nil_iff.2 fun e he => ?_
  obtain ⟨p, hp, he⟩ := List.mem_flatMap.1 he
  rw [decide_eq_true_iff]
  intro hkey
  exact hk (hown p hp e he k hkey ▸ List.mem_map_of_mem hp)

end Keys

/-! ## Guarded runs -/

/-- Every step of the run meets the condition `ok` in the state it starts from. -/
def Guarded (step : S → E → Option S) (ok : S → E → Prop) : S → List E → Prop
  | _, [] => True
  | s, e :: es => ok s e ∧ ∀ s', step s e = some s' → Guarded step ok s' es

instance Guarded.decidable {ok : S → E → Prop} [∀ s e, Decidable (ok s e)] :
    ∀ s es, Decidable (Guarded step ok s es)
  | _, [] => .isTrue trivial
  | s, e :: es =>
    have : Decidable (∀ s', step s e = some s' → Guarded step ok s' es) :=
      match step s e with
      | none => .isTrue fun _ hs' => nomatch hs'
      | some s' =>
        have : Decidable (Guarded step ok s' es) := Guarded.decidable s' es
        decidable_of_iff (Guarded step ok s' es)
          ⟨fun hg _ hs' => Option.some.inj hs' ▸ hg, fun hg => hg s' rfl⟩
    inferInstanceAs (Decidable (_ ∧ _))

/-- A condition on the events alone is checked on the list. -/
theorem guarded_of_forall {ok : E → Prop} {s : S} {es : List E} (h : ∀ e ∈ es, ok e) :
    Guarded step (fun _ e => ok e) s es := by
  induction es generalizing s with
  | nil => trivial
  | cons e es ih =>
    exact ⟨h e List.mem_cons_self, fun _ _ => ih fun e he => h e (List.mem_cons_of_mem _ he)⟩

/-- When every event is enabled, a condition on the events alone is exactly checked on the
list. -/
theorem guarded_iff_forall {ok : E → Prop} (htotal : ∀ s e, (step s e).isSome) {s : S}
    {es : List E} : Guarded step (fun _ e => ok e) s es ↔ ∀ e ∈ es, ok e := by
  induction es generalizing s with
  | nil => simp [Guarded]
  | cons e es ih =>
    obtain ⟨s', hs'⟩ := Option.isSome_iff_exists.1 (htotal s e)
    rw [Guarded, List.forall_mem_cons]
    refine and_congr_right fun _ => ⟨fun h => ih.1 (h s' hs'), fun h u _ => ih.2 h⟩

theorem Guarded.mono {ok ok' : S → E → Prop} (h : ∀ s e, ok s e → ok' s e) {s : S} {es : List E}
    (hg : Guarded step ok s es) : Guarded step ok' s es := by
  induction es generalizing s with
  | nil => trivial
  | cons e es ih => exact ⟨h s e hg.1, fun s' hs' => ih (hg.2 s' hs')⟩

theorem Guarded.and {ok ok' : S → E → Prop} {s : S} {es : List E} (h : Guarded step ok s es)
    (h' : Guarded step ok' s es) : Guarded step (fun s e => ok s e ∧ ok' s e) s es := by
  induction es generalizing s with
  | nil => trivial
  | cons e es ih => exact ⟨⟨h.1, h'.1⟩, fun s' hs' => ih (h.2 s' hs') (h'.2 s' hs')⟩

/-- A guarded run is guarded up to any of its states, and from there on. -/
theorem guarded_append {ok : S → E → Prop} {s t : S} {es fs : List E}
    (hg : Guarded step ok s (es ++ fs)) (hrun : run step s es = some t) :
    Guarded step ok s es ∧ Guarded step ok t fs := by
  induction es generalizing s with
  | nil =>
    obtain rfl : s = t := by simpa using hrun
    exact ⟨trivial, hg⟩
  | cons e es ih =>
    obtain ⟨s', hs', ht⟩ := run_cons_eq_some.1 hrun
    obtain ⟨hes, hfs⟩ := ih (hg.2 s' hs') ht
    refine ⟨⟨hg.1, fun u hu => ?_⟩, hfs⟩
    rwa [← Option.some.inj (hs'.symm.trans hu)]

/-- **Invariant rule.** The condition may be used at every step of the run. -/
theorem run_invariant {ok : S → E → Prop} {I : S → Prop}
    (hstep : ∀ s e s', I s → ok s e → step s e = some s' → I s') {s t : S} {es : List E}
    (hs : I s) (hg : Guarded step ok s es) (hrun : run step s es = some t) : I t := by
  induction es generalizing s with
  | nil =>
    obtain rfl : s = t := by simpa using hrun
    exact hs
  | cons e es ih =>
    obtain ⟨s', hs', ht⟩ := run_cons_eq_some.1 hrun
    exact ih (hstep s e s' hs hg.1 hs') (hg.2 s' hs') ht

/-- The invariant rule for runs without a condition. -/
theorem run_invariant' {I : S → Prop} (hstep : ∀ s e s', I s → step s e = some s' → I s')
    {s t : S} {es : List E} (hs : I s) (hrun : run step s es = some t) : I t :=
  have hg : Guarded step (fun _ _ => True) s es := guarded_of_forall fun _ _ => trivial
  run_invariant (fun s e s' h _ => hstep s e s' h) hs hg hrun

/-- **Simulation rule.** If every step is, through `view`, a step of another system for the same
event, then so is every run. -/
theorem run_view {A : Type*} {astep : A → E → Option A} {view : S → A}
    (hstep : ∀ s e s', step s e = some s' → astep (view s) e = some (view s')) {s t : S}
    {es : List E} (hrun : run step s es = some t) : run astep (view s) es = some (view t) := by
  induction es generalizing s with
  | nil =>
    obtain rfl : s = t := by simpa using hrun
    rfl
  | cons e es ih =>
    obtain ⟨s', hs', ht⟩ := run_cons_eq_some.1 hrun
    exact run_cons_eq_some.2 ⟨view s', hstep s e s' hs', ih ht⟩

/-- **Refinement rule.** If every step that meets the condition is, through `view`, some moves of
another system, then so is every guarded run. -/
theorem run_refines {A : Type*} {ok : S → E → Prop} {I : S → Prop} {view : S → A}
    {Move : A → A → Prop} (hI : ∀ s e s', I s → step s e = some s' → I s')
    (hstep : ∀ s e s', I s → ok s e → step s e = some s' →
      Relation.ReflTransGen Move (view s) (view s'))
    {s t : S} {es : List E} (hs : I s) (hg : Guarded step ok s es)
    (hrun : run step s es = some t) : Relation.ReflTransGen Move (view s) (view t) := by
  induction es generalizing s with
  | nil =>
    obtain rfl : s = t := by simpa using hrun
    exact .refl
  | cons e es ih =>
    obtain ⟨s', hs', ht⟩ := run_cons_eq_some.1 hrun
    have hfirst := hstep s e s' hs hg.1 hs'
    exact hfirst.trans (ih (hI s e s' hs hs') (hg.2 s' hs') ht)

/-- A property kept by every move is kept by any number of them. -/
theorem moves_invariant {A : Type*} {Move : A → A → Prop} {J : A → Prop}
    (hmove : ∀ a b, J a → Move a b → J b) {a b : A} (ha : J a)
    (h : Relation.ReflTransGen Move a b) : J b := by
  induction h with
  | refl => exact ha
  | tail _ hbc ih => exact hmove _ _ ih hbc

/-- **Exactness rule.** If, under an invariant, a step keeps `P` exactly when it meets the
condition, then `P` holds after a run exactly when it held before and every step met it. -/
theorem run_iff_guarded {ok : S → E → Prop} {I P : S → Prop}
    (hI : ∀ s e s', I s → step s e = some s' → I s')
    (hP : ∀ s e s', I s → step s e = some s' → (P s' ↔ P s ∧ ok s e))
    {s t : S} {es : List E} (hs : I s) (hrun : run step s es = some t) :
    P t ↔ P s ∧ Guarded step ok s es := by
  induction es generalizing s with
  | nil =>
    obtain rfl : s = t := by simpa using hrun
    simp [Guarded]
  | cons e es ih =>
    obtain ⟨s', hs', ht⟩ := run_cons_eq_some.1 hrun
    rw [ih (hI s e s' hs hs') ht, hP s e s' hs hs', Guarded, and_assoc]
    refine and_congr_right fun _ => and_congr_right fun _ => ⟨fun h u hu => ?_, fun h => h s' hs'⟩
    rwa [Option.some.inj (hu.symm.trans hs')]

/-! ## Runs with a record -/

/-- The step, and what it adds to a record of the run. -/
def recorded {G : Type*} (step : S → E → Option S) (note : S → E → G → G) (p : S × G) (e : E) :
    Option (S × G) :=
  (step p.1 e).map fun s' => (s', note p.1 e p.2)

/-- A record changes nothing: every run has one. -/
theorem run_recorded {G : Type*} {note : S → E → G → G} {s t : S} {es : List E}
    (h : run step s es = some t) (g : G) : ∃ g', run (recorded step note) (s, g) es = some (t, g') := by
  induction es generalizing s g with
  | nil =>
    obtain rfl : s = t := by simpa using h
    exact ⟨g, rfl⟩
  | cons e es ih =>
    obtain ⟨s', hs', ht⟩ := run_cons_eq_some.1 h
    obtain ⟨g', hg'⟩ := ih ht (note s e g)
    exact ⟨g', run_cons_eq_some.2 ⟨(s', note s e g), by simp [recorded, hs'], hg'⟩⟩

/-! ## Every state on the way -/

/-- `P` holds in every state that the run goes through, its first and its last included. The run
may stop anywhere, so this is also about a run that fails half-way. -/
def Along (step : S → E → Option S) (P : S → Prop) (s : S) (es : List E) : Prop :=
  ∀ fs t, fs <+: es → run step s fs = some t → P t

theorem along_nil {P : S → Prop} {s : S} : Along step P s [] ↔ P s := by
  constructor
  · intro h
    exact h [] s List.prefix_rfl rfl
  · intro h fs t hfs hrun
    obtain rfl : fs = [] := List.prefix_nil.1 hfs
    obtain rfl : s = t := by simpa using hrun
    exact h

theorem Along.first {P : S → Prop} {s : S} {es : List E} (h : Along step P s es) : P s :=
  h [] s List.nil_prefix rfl

theorem Along.cons {P : S → Prop} {s : S} {e : E} {es : List E} (hs : P s)
    (hrest : ∀ s', step s e = some s' → Along step P s' es) : Along step P s (e :: es) := by
  intro fs t hfs hrun
  cases fs with
  | nil =>
    obtain rfl : s = t := by simpa using hrun
    exact hs
  | cons f fs =>
    obtain ⟨rfl, hfs'⟩ := List.cons_prefix_cons.1 hfs
    obtain ⟨u, hu, ht⟩ := run_cons_eq_some.1 hrun
    exact hrest u hu fs t hfs' ht

theorem along_cons {P : S → Prop} {s s' : S} {e : E} {es : List E} (hstep : step s e = some s') :
    Along step P s (e :: es) ↔ P s ∧ Along step P s' es := by
  constructor
  · intro h
    refine ⟨h.first, fun fs t hfs hrun => ?_⟩
    exact h (e :: fs) t ((List.prefix_cons_inj e).2 hfs) (run_cons_eq_some.2 ⟨s', hstep, hrun⟩)
  · rintro ⟨hs, hrest⟩
    refine Along.cons hs fun u hu => ?_
    obtain rfl : s' = u := Option.some.inj (hstep.symm.trans hu)
    exact hrest

/-- **Exactness rule for every state.** If every event is enabled and, where `P` holds, a step
keeps it exactly when it meets the condition, then `P` holds all the way exactly when every step
meets it. -/
theorem along_iff_guarded {ok : S → E → Prop} {I P : S → Prop}
    (htotal : ∀ s e, (step s e).isSome)
    (hI : ∀ s e s', I s → step s e = some s' → I s')
    (hP : ∀ s e s', I s → P s → step s e = some s' → (P s' ↔ ok s e))
    {s : S} {es : List E} (hs : I s) (hPs : P s) :
    Along step P s es ↔ Guarded step ok s es := by
  induction es generalizing s with
  | nil => exact ⟨fun _ => trivial, fun _ => along_nil.2 hPs⟩
  | cons e es ih =>
    obtain ⟨s', hs'⟩ := Option.isSome_iff_exists.1 (htotal s e)
    have hstep := hP s e s' hs hPs hs'
    rw [along_cons hs', Guarded]
    constructor
    · rintro ⟨-, hrest⟩
      have hPs' := hrest [] s' List.nil_prefix rfl
      refine ⟨hstep.1 hPs', fun u hu => ?_⟩
      obtain rfl : s' = u := Option.some.inj (hs'.symm.trans hu)
      exact (ih (hI s e s' hs hs') hPs').1 hrest
    · rintro ⟨hok, hrest⟩
      exact ⟨hPs, (ih (hI s e s' hs hs') (hstep.2 hok)).2 (hrest s' hs')⟩

theorem prefix_append_cases {fs es es' : List E} (h : fs <+: es ++ es') :
    fs <+: es ∨ ∃ gs, gs <+: es' ∧ fs = es ++ gs := by
  obtain ⟨rest, hrest⟩ := h
  rcases List.append_eq_append_iff.1 hrest with ⟨gs, hes, -⟩ | ⟨gs, hfs, hes'⟩
  · exact .inl ⟨gs, hes.symm⟩
  · exact .inr ⟨gs, ⟨rest, hes'.symm⟩, hfs⟩

theorem Along.append {P : S → Prop} {s : S} {es es' : List E} (h : Along step P s es)
    (h' : ∀ s', run step s es = some s' → Along step P s' es') : Along step P s (es ++ es') := by
  intro fs t hfs hrun
  rcases prefix_append_cases hfs with hfs | ⟨gs, hgs, rfl⟩
  · exact h fs t hfs hrun
  · obtain ⟨s', hs', ht⟩ := run_append_eq_some.1 hrun
    exact h' s' hs' gs t hgs ht

theorem Along.mono {P Q : S → Prop} {s : S} {es : List E} (h : Along step P s es)
    (hPQ : ∀ s, P s → Q s) : Along step Q s es :=
  fun fs t hfs hrun => hPQ t (h fs t hfs hrun)

/-- What each of the events keeps holds all the way. -/
theorem along_invariant {I : S → Prop} {s : S} {es : List E}
    (hstep : ∀ s e s', I s → e ∈ es → step s e = some s' → I s') (hs : I s) :
    Along step I s es :=
  fun _ _ hfs hrun =>
    run_invariant hstep hs (guarded_of_forall fun _ he => hfs.subset he) hrun

/-- On the way of a run that works on one part of the state. -/
theorem Along.map {B F : Type*} {sub : B → F → Option B} {put : B → S} {ev : F → E}
    (hstep : ∀ b f, step (put b) (ev f) = (sub b f).map put) {P : S → Prop} {b : B} {fs : List F}
    (h : Along sub (fun b => P (put b)) b fs) : Along step P (put b) (fs.map ev) := by
  intro gs t hgs hrun
  obtain ⟨fs', hfs', rfl⟩ := List.prefix_map_iff.1 hgs
  rw [run_map hstep] at hrun
  obtain ⟨b', hb', rfl⟩ := Option.map_eq_some_iff.1 hrun
  exact h fs' b' hfs' hb'

end Runs
