import Mathlib.Data.Fintype.EquivFin
import Mathlib.Logic.Relation

/-!
# Depth-first post-order

A depth-first search with a stack of its own. A node lists the keys of the nodes it needs, and an
index finds the node of a key, if there is one. The search paints a node grey when it is first
looked at and black when everything it needs is black. A grey node that is needed again closes a
cycle.

- **Good.** The black nodes are those that are listed, each once and after all it needs.
- **Visited.** A white node on the stack is taken off it after `2 * k - 1` turns, when `k` nodes
  that it leads to are listed.
- **Stuck.** Or the loop ends on a cycle, after fewer turns than twice the nodes it has painted.

`postorder_cases` puts the visits of all starting nodes together: `2 * card` turns are enough for
each, the nodes that they lead to are listed, and those listed up to the first starting node are
those it leads to.
-/

namespace Postorder

open Relation

/-! ## Orders -/

section Orders

variable {ν μ : Type} (R : ν → ν → Prop)

/-- No node needs itself, directly or by way of others. -/
def Acyclic : Prop :=
  ∀ v, ¬ TransGen R v v

/-- Every node in the list comes after all it needs. -/
def Closed (order : List ν) : Prop :=
  ∀ pre v post, order = pre ++ v :: post → ∀ w, R v w → w ∈ pre

/-- What the starting nodes lead to is listed once, after all it needs, and what is listed before
the first starting node is what that one leads to. -/
structure IsPostorder (starts order : List ν) : Prop where
  nodup : order.Nodup
  closed : Closed R order
  mem_iff : ∀ v, v ∈ order ↔ ∃ start ∈ starts, ReflTransGen R start v
  first : ∀ start others, starts = start :: others → ∃ new more, order = new ++ start :: more ∧
    ∀ u ∈ new, TransGen R start u

variable {R} {v : ν} {starts order : List ν}

theorem Closed.concat (h : Closed R order) (hv : ∀ w, R v w → w ∈ order) :
    Closed R (order ++ [v]) := by
  intro pre x post heq w hw
  rcases List.eq_nil_or_concat' post with rfl | ⟨post, y, rfl⟩
  · obtain ⟨rfl, hx⟩ := List.append_inj' heq rfl
    obtain rfl := List.singleton_inj.1 hx
    exact hv w hw
  · rw [← List.cons_append, ← List.append_assoc] at heq
    exact h pre x post (List.append_inj' heq rfl).1 w hw

/-- What a listed node leads to is listed before it. -/
theorem Closed.mem_of_transGen {pre post : List ν} (h : Closed R order)
    (heq : order = pre ++ v :: post) {w : ν} (hw : TransGen R v w) : w ∈ pre := by
  induction hw with
  | single hedge => exact h pre v post heq _ hedge
  | tail _ hedge ih =>
    obtain ⟨pre', post', rfl⟩ := List.append_of_mem ih
    rw [List.append_assoc, List.cons_append] at heq
    exact List.mem_append_left _ (h pre' _ _ heq _ hedge)

/-- Nothing that is listed is on a cycle. -/
theorem IsPostorder.not_cyclic (h : IsPostorder R starts order) (hv : v ∈ order) :
    ¬ TransGen R v v := by
  intro hcycle
  obtain ⟨pre, post, heq⟩ := List.append_of_mem hv
  have hpre := h.closed.mem_of_transGen heq hcycle
  have hnodup := h.nodup
  rw [heq, List.nodup_append] at hnodup
  exact hnodup.2.2 v hpre v List.mem_cons_self rfl

section Map

variable {S : μ → μ → Prop} {g : ν → μ}

/-- A run of edges from the image of a node stays in the image. -/
theorem exists_of_reflTransGen (hedge : ∀ a y, S (g a) y ↔ ∃ b, g b = y ∧ R a b) {a : ν} {y : μ}
    (h : ReflTransGen S (g a) y) : ∃ b, g b = y ∧ ReflTransGen R a b := by
  induction h with
  | refl => exact ⟨a, rfl, .refl⟩
  | tail _ hlast ih =>
    obtain ⟨b, rfl, hb⟩ := ih
    obtain ⟨c, rfl, hc⟩ := (hedge b _).1 hlast
    exact ⟨c, rfl, hb.tail hc⟩

theorem Acyclic.of_map (hedge : ∀ a y, S (g a) y ↔ ∃ b, g b = y ∧ R a b) (h : Acyclic S) :
    Acyclic R := fun a ha =>
  h (g a) (ha.lift g fun a b hab => (hedge a (g b)).2 ⟨b, rfl, hab⟩)

/-- The order of some nodes is one of what the nodes stand for. -/
theorem IsPostorder.map (h : IsPostorder R starts order) (hinj : Function.Injective g)
    (hedge : ∀ a y, S (g a) y ↔ ∃ b, g b = y ∧ R a b) :
    IsPostorder S (starts.map g) (order.map g) := by
  have hlift : ∀ a b, R a b → S (g a) (g b) := fun a b hab => (hedge a (g b)).2 ⟨b, rfl, hab⟩
  refine ⟨h.nodup.map hinj, ?_, fun y => ⟨?_, ?_⟩, ?_⟩
  · intro pre x post heq y hy
    obtain ⟨pre', rest, hsplit, rfl, hrest⟩ := List.map_eq_append_iff.1 heq
    obtain ⟨a, post', rfl, rfl, -⟩ := List.map_eq_cons_iff.1 hrest
    obtain ⟨b, rfl, hb⟩ := (hedge a y).1 hy
    exact List.mem_map_of_mem (h.closed pre' a post' hsplit b hb)
  · intro hy
    obtain ⟨a, ha, rfl⟩ := List.mem_map.1 hy
    obtain ⟨start, hstart, hpath⟩ := (h.mem_iff a).1 ha
    exact ⟨g start, List.mem_map_of_mem hstart, hpath.lift g hlift⟩
  · rintro ⟨start, hstart, hpath⟩
    obtain ⟨a, ha, rfl⟩ := List.mem_map.1 hstart
    obtain ⟨b, rfl, hb⟩ := exists_of_reflTransGen hedge hpath
    exact List.mem_map_of_mem ((h.mem_iff b).2 ⟨a, ha, hb⟩)
  · intro start others heq
    obtain ⟨a, others', hstarts, rfl, -⟩ := List.map_eq_cons_iff.1 heq
    obtain ⟨new, more, rfl, hnew⟩ := h.first a others' hstarts
    refine ⟨new.map g, more.map g, by simp, fun u hu => ?_⟩
    obtain ⟨b, hb, rfl⟩ := List.mem_map.1 hu
    exact (hnew b hb).lift g hlift

end Map

end Orders

/-! ## The search -/

/-- `0`, `1` and `2` in the state vector. -/
inductive Color
  | white
  | grey
  | black
  deriving DecidableEq

/-- The nodes are `ν` and the keys `κ`. -/
structure Graph (ν κ : Type) where
  needs : ν → List κ
  index : κ → Option ν

/-- The stack has each node with the place in its list of needs where it goes on. -/
structure Search (ν : Type) where
  color : ν → Color
  stack : List (ν × Nat)
  order : List ν

/-- What is found in the rest of a list of needs. -/
inductive Found (ν : Type)
  | next (place : Nat) (node : ν)
  | cycle
  | nothing

/-- Why there is no order. -/
inductive Halt (ν : Type)
  | cycle (node : ν)
  | outOfTurns

namespace Graph

variable {ν κ : Type} (G : Graph ν κ)

/-- A node needs another one. -/
def Edge (a b : ν) : Prop :=
  ∃ d ∈ G.needs a, G.index d = some b

section Good

variable {G}

/-- The black nodes are those that are listed. -/
structure Good (G : Graph ν κ) (s : Search ν) : Prop where
  black : ∀ v, s.color v = .black ↔ v ∈ s.order
  nodup : s.order.Nodup
  closed : Closed G.Edge s.order

theorem Good.congr {s t : Search ν} (h : G.Good s)
    (hblack : ∀ v, t.color v = .black ↔ s.color v = .black) (horder : t.order = s.order) : G.Good t where
  black v := by rw [hblack, horder, h.black]
  nodup := horder ▸ h.nodup
  closed := horder ▸ h.closed

end Good

variable [DecidableEq ν]

/-- The first white node from a place on, with the place after it. -/
def scan (color : ν → Color) : Nat → List κ → Found ν
  | _, [] => .nothing
  | k, d :: ds =>
    match G.index d with
    | none => scan color (k + 1) ds
    | some j =>
      match color j with
      | .white => .next (k + 1) j
      | .grey => .cycle
      | .black => scan color (k + 1) ds

/-- A node is painted grey when it is looked at from its first place on. -/
def paint (color : ν → Color) (node : ν) (k : Nat) : ν → Color :=
  if k = 0 then Function.update color node .grey else color

/-- One turn of the loop over the stack, if there is something on it. -/
def turn (s : Search ν) : Except ν (Option (Search ν)) :=
  match s.stack with
  | [] => .ok none
  | (node, k) :: rest =>
    let color := paint s.color node k
    match G.scan color k ((G.needs node).drop k) with
    | .cycle => .error node
    | .next k' j => .ok (some ⟨color, (j, 0) :: (node, k') :: rest, s.order⟩)
    | .nothing => .ok (some ⟨Function.update color node .black, rest, s.order ++ [node]⟩)

/-- The loop over the stack. -/
def loop : Nat → Search ν → Except (Halt ν) (Search ν)
  | 0, _ => .error .outOfTurns
  | turns + 1, s =>
    match G.turn s with
    | .error node => .error (.cycle node)
    | .ok none => .ok s
    | .ok (some s') => loop turns s'

/-- The loop over the starting nodes. -/
def search (turns : Nat) : List ν → Search ν → Except (Halt ν) (Search ν)
  | [], s => .ok s
  | start :: starts, s =>
    if s.color start = .white then
      match G.loop turns { s with stack := [(start, 0)] } with
      | .error e => .error e
      | .ok s' => search turns starts s'
    else search turns starts s

/-- The nodes in the order in which they are painted black. -/
def postorder (turns : Nat) (starts : List ν) : Except (Halt ν) (List ν) :=
  (G.search turns starts ⟨fun _ => .white, [], []⟩).map Search.order

/-! ## Turns -/

/-- A number of turns lead from one state to another. -/
def Turns : Nat → Search ν → Search ν → Prop
  | 0, s, t => s = t
  | n + 1, s, t => ∃ s', G.turn s = .ok (some s') ∧ Turns n s' t

variable {G} {s t u : Search ν} {v : ν} {k m n : Nat} {rest : List (ν × Nat)}

theorem Turns.one (h : G.turn s = .ok (some t)) : G.Turns 1 s t :=
  ⟨t, h, rfl⟩

theorem Turns.trans (h : G.Turns m s t) (h' : G.Turns n t u) : G.Turns (m + n) s u := by
  induction m generalizing s with
  | zero =>
    obtain rfl : s = t := h
    rwa [Nat.zero_add]
  | succ m ih =>
    obtain ⟨s', hturn, hrest⟩ := h
    rw [Nat.add_right_comm]
    exact ⟨s', hturn, ih hrest⟩

theorem Turns.of_turn_eq (hturn : G.turn s = G.turn t) (h : G.Turns (n + 1) t u) :
    G.Turns (n + 1) s u := by
  obtain ⟨t', ht, hrest⟩ := h
  exact ⟨t', hturn.trans ht, hrest⟩

theorem Turns.loop_eq (h : G.Turns n s t) (turns : Nat) :
    G.loop (n + turns) s = G.loop turns t := by
  induction n generalizing s with
  | zero =>
    obtain rfl : s = t := h
    rw [Nat.zero_add]
  | succ n ih =>
    obtain ⟨s', hturn, hrest⟩ := h
    rw [Nat.add_right_comm, loop, hturn]
    exact ih hrest

/-- The loop ends on a cycle after a number of turns. -/
def Halts (G : Graph ν κ) (s : Search ν) (k : Nat) : Prop :=
  ∃ t node, G.Turns k s t ∧ G.turn t = .error node ∧ TransGen G.Edge node node

theorem Halts.of_turn_eq (hturn : G.turn s = G.turn t) (h : G.Halts t k) : G.Halts s k := by
  obtain ⟨u, node, hturns, herror, hcycle⟩ := h
  cases k with
  | zero =>
    obtain rfl : t = u := hturns
    exact ⟨s, node, rfl, hturn.trans herror, hcycle⟩
  | succ k => exact ⟨u, node, hturns.of_turn_eq hturn, herror, hcycle⟩

theorem Turns.halts (h : G.Turns m s t) (hhalts : G.Halts t k) : G.Halts s (m + k) := by
  obtain ⟨u, node, hturns, herror, hcycle⟩ := hhalts
  exact ⟨u, node, h.trans hturns, herror, hcycle⟩

theorem Halts.loop_eq (h : G.Halts s k) {turns : Nat} (hk : k + 1 ≤ turns) :
    ∃ node, G.loop turns s = .error (.cycle node) ∧ TransGen G.Edge node node := by
  obtain ⟨t, node, hturns, herror, hcycle⟩ := h
  obtain ⟨more, rfl⟩ := Nat.exists_eq_add_of_le hk
  refine ⟨node, ?_, hcycle⟩
  rw [Nat.add_assoc, hturns.loop_eq, Nat.add_comm, loop, herror]

theorem paint_grey {color : ν → Color} (h : color v = .grey) (k : Nat) :
    paint color v k = color := by
  unfold paint
  split
  · rw [← h, Function.update_eq_self]
  · rfl

/-- The first turn on a node paints it grey. -/
theorem turn_white (hstack : s.stack = (v, 0) :: rest) :
    G.turn s = G.turn { s with color := Function.update s.color v .grey } := by
  have hcolor : paint (Function.update s.color v .grey) v 0 = paint s.color v 0 :=
    paint_grey (Function.update_self ..) 0
  simp only [turn, hstack, hcolor]

/-- A need that leads nowhere new is passed over. -/
theorem turn_skip {d : κ} {ds : List κ} (hstack : s.stack = (v, k) :: rest)
    (hgrey : s.color v = .grey) (hds : (G.needs v).drop k = d :: ds)
    (hd : ∀ j, G.index d = some j → s.color j = .black) :
    G.turn s = G.turn { s with stack := (v, k + 1) :: rest } := by
  have hdrop : (G.needs v).drop (k + 1) = ds := by
    rw [← List.drop_drop, hds]
    rfl
  have hscan : G.scan s.color k (d :: ds) = G.scan s.color (k + 1) ds := by
    rw [scan]
    cases hindex : G.index d with
    | none => rfl
    | some j =>
      dsimp only
      rw [hd j hindex]
  simp only [turn, hstack, paint_grey hgrey, hds, hdrop, hscan]

/-- A white node that is needed goes on the stack. -/
theorem turn_next {d : κ} {ds : List κ} {j : ν} (hstack : s.stack = (v, k) :: rest)
    (hgrey : s.color v = .grey) (hds : (G.needs v).drop k = d :: ds)
    (hd : G.index d = some j) (hj : s.color j = .white) :
    G.turn s = .ok (some { s with stack := (j, 0) :: (v, k + 1) :: rest }) := by
  simp only [turn, hstack, paint_grey hgrey, hds, scan, hd, hj]

/-- A grey node that is needed ends the loop. -/
theorem turn_cycle {d : κ} {ds : List κ} {j : ν} (hstack : s.stack = (v, k) :: rest)
    (hgrey : s.color v = .grey) (hds : (G.needs v).drop k = d :: ds)
    (hd : G.index d = some j) (hj : s.color j = .grey) : G.turn s = .error v := by
  simp only [turn, hstack, paint_grey hgrey, hds, scan, hd, hj]

/-- A node is done when all it needs has been looked at. -/
theorem turn_done (hstack : s.stack = (v, k) :: rest) (hgrey : s.color v = .grey)
    (hds : (G.needs v).drop k = []) :
    G.turn s =
      .ok (some ⟨Function.update s.color v .black, rest, s.order ++ [v]⟩) := by
  simp only [turn, hstack, paint_grey hgrey, hds, scan]

/-! ## Visits -/

/-- A node that is done joins the listed ones. -/
theorem Good.done (h : G.Good s) (hgrey : s.color v = .grey)
    (hneeds : ∀ w, G.Edge v w → s.color w = .black) :
    G.Good ⟨Function.update s.color v .black, rest, s.order ++ [v]⟩ where
  black w := by
    by_cases hw : w = v
    · subst hw
      simp
    · simp [hw, h.black w]
  nodup := by
    have hnot : v ∉ s.order := fun hmem => by
      rw [← h.black, hgrey] at hmem
      cases hmem
    exact List.nodup_append.2 ⟨h.nodup, List.nodup_singleton v, fun a ha b hb hab =>
      hnot (by rwa [← List.mem_singleton.1 hb, ← hab])⟩
  closed := h.closed.concat fun w hw => (h.black w).1 (hneeds w hw)

/-- A node has been taken off the stack, and listed after the nodes `new`, after a number of
turns. -/
structure Visited (G : Graph ν κ) (v : ν) (rest : List (ν × Nat)) (s t : Search ν)
    (new : List ν) : Prop where
  turns : G.Turns (2 * new.length + 1) s t
  stack : t.stack = rest
  order : t.order = s.order ++ (new ++ [v])
  good : G.Good t
  grey : ∀ u, t.color u = .grey ↔ s.color u = .grey ∧ u ≠ v
  leads : ∀ u ∈ new, TransGen G.Edge v u

namespace Visited

variable {new : List ν}

theorem not_grey (h : G.Visited v rest s t new) (hnone : ∀ u, s.color u ≠ .grey) (u : ν) :
    t.color u ≠ .grey :=
  fun hu => hnone u ((h.grey u).1 hu).1

theorem black (h : G.Visited v rest s t new) {u : ν} (hu : s.color u = .black) (hs : G.Good s) :
    t.color u = .black := by
  rw [h.good.black, h.order]
  exact List.mem_append_left _ ((hs.black u).1 hu)

theorem black_of_mem (h : G.Visited v rest s t new) {u : ν} (hu : u ∈ new ++ [v]) :
    t.color u = .black := by
  rw [h.good.black, h.order]
  exact List.mem_append_right _ hu

/-- No node turns white. -/
theorem white (h : G.Visited v rest s t new) (hs : G.Good s) {u : ν} (hu : t.color u = .white) :
    s.color u = .white := by
  cases hcolor : s.color u with
  | white => rfl
  | grey =>
    have huv : u ≠ v := by
      rintro rfl
      rw [h.black_of_mem (by simp)] at hu
      cases hu
    rw [(h.grey u).2 ⟨hcolor, huv⟩] at hu
    cases hu
  | black =>
    rw [h.black hcolor hs] at hu
    cases hu

/-- The nodes that are listed before it were white. -/
theorem white_of_mem (h : G.Visited v rest s t new) (hs : G.Good s) {u : ν} (hu : u ∈ new) :
    s.color u = .white := by
  have hnodup := h.good.nodup
  rw [h.order, List.nodup_append] at hnodup
  obtain ⟨-, hnew, hdisjoint⟩ := hnodup
  cases hcolor : s.color u with
  | white => rfl
  | grey =>
    have huv : u ≠ v := (List.nodup_append.1 hnew).2.2 u hu v (List.mem_singleton_self v)
    have hblack := h.black_of_mem (List.mem_append_left [v] hu)
    rw [(h.grey u).2 ⟨hcolor, huv⟩] at hblack
    cases hblack
  | black =>
    exact absurd rfl (hdisjoint u ((hs.black u).1 hcolor) u (List.mem_append_left _ hu))

end Visited

/-- The loop ends on a cycle, and has painted these nodes by then. -/
structure Stuck (G : Graph ν κ) (s : Search ν) (k : Nat) (painted : List ν) : Prop where
  halts : G.Halts s k
  nodup : painted.Nodup
  white : ∀ u ∈ painted, s.color u = .white

/-- What a visit of a white node comes to, when at most `n` nodes are white. -/
def Visits [Fintype ν] (G : Graph ν κ) (n : Nat) : Prop :=
  ∀ (v : ν) (s : Search ν) (rest : List (ν × Nat)), s.stack = (v, 0) :: rest →
    s.color v = .white → G.Good s → (∀ u, s.color u = .grey → TransGen G.Edge u v) →
    (Finset.univ.filter fun u => s.color u = .white).card ≤ n →
    (∃ t new, G.Visited v rest s t new) ∨
      ∃ k painted, G.Stuck s k painted ∧ k + 1 ≤ 2 * painted.length

section Visits

variable [Fintype ν]

/-- A visit from a place on: all that is needed before it is black. The induction is on the needs
that are left. -/
theorem Visits.from_place (ih : G.Visits n) (ds : List κ) :
    ∀ (k : Nat) (s : Search ν), (G.needs v).drop k = ds → s.stack = (v, k) :: rest →
      s.color v = .grey → G.Good s → (∀ u, s.color u = .grey → u = v ∨ TransGen G.Edge u v) →
      (∀ d ∈ (G.needs v).take k, ∀ w, G.index d = some w → s.color w = .black) →
      (Finset.univ.filter fun u => s.color u = .white).card ≤ n →
      (∃ t new, G.Visited v rest s t new) ∨
        ∃ m painted, G.Stuck s m painted ∧ m ≤ 2 * painted.length := by
  induction ds with
  | nil =>
    intro k s hds hstack hgrey hgood hpath hbefore hcard
    have hall : ∀ w, G.Edge v w → s.color w = .black := by
      rintro w ⟨d, hd, hw⟩
      rw [← List.take_append_drop k (G.needs v), hds, List.append_nil] at hd
      exact hbefore d hd w hw
    refine .inl ⟨_, [], .one (turn_done hstack hgrey hds), rfl, rfl, hgood.done hgrey hall, ?_, ?_⟩
    · intro u
      by_cases hu : u = v
      · subst hu
        simp
      · simp [hu]
    · exact fun u hu => absurd hu List.not_mem_nil
  | cons d ds ihds =>
    intro k s hds hstack hgrey hgood hpath hbefore hcard
    have hmem : d ∈ G.needs v := by
      have hd : d ∈ (G.needs v).drop k := by
        rw [hds]
        exact List.mem_cons_self
      exact List.mem_of_mem_drop hd
    have hdrop : (G.needs v).drop (k + 1) = ds := by
      rw [← List.drop_drop, hds]
      rfl
    have hnext : ∀ {t : Search ν}, (∀ d ∈ (G.needs v).take k, ∀ w, G.index d = some w →
        t.color w = .black) → (∀ w, G.index d = some w → t.color w = .black) →
        ∀ d ∈ (G.needs v).take (k + 1), ∀ w, G.index d = some w → t.color w = .black := by
      intro t hbefore hd d' hd'
      rw [List.take_add, hds] at hd'
      rcases List.mem_append.1 hd' with hd' | hd'
      · exact hbefore d' hd'
      · rw [List.mem_singleton.1 hd']
        exact hd
    -- The key is passed over when it is in no node or in a black one.
    have hskip : (∀ j, G.index d = some j → s.color j = .black) →
        (∃ t new, G.Visited v rest s t new) ∨
          ∃ m painted, G.Stuck s m painted ∧ m ≤ 2 * painted.length := by
      intro hd
      have hturn := turn_skip hstack hgrey hds hd
      rcases ihds (k + 1) { s with stack := (v, k + 1) :: rest } hdrop rfl hgrey
        (hgood.congr (fun _ => Iff.rfl) rfl) hpath (hnext hbefore hd) hcard with
        ⟨t, new, h⟩ | ⟨m, painted, h, hm⟩
      · exact .inl ⟨t, new, h.turns.of_turn_eq hturn, h.stack, h.order, h.good, h.grey, h.leads⟩
      · exact .inr ⟨m, painted, ⟨h.halts.of_turn_eq hturn, h.nodup, h.white⟩, hm⟩
    cases hindex : G.index d with
    | none => exact hskip fun j hj => by rw [hindex] at hj; cases hj
    | some j =>
      have hedge : G.Edge v j := ⟨d, hmem, hindex⟩
      cases hj : s.color j with
      | black =>
        refine hskip fun j' hj' => ?_
        rw [hindex] at hj'
        rwa [← Option.some.inj hj']
      | grey =>
        -- The grey node leads back to the one that needs it.
        have hcycle : TransGen G.Edge v v := by
          rcases hpath j hj with rfl | hback
          · exact .single hedge
          · exact hback.head hedge
        exact .inr ⟨0, [], ⟨⟨s, v, rfl, turn_cycle hstack hgrey hds hindex hj, hcycle⟩,
          List.nodup_nil, fun u hu => absurd hu List.not_mem_nil⟩, Nat.zero_le _⟩
      | white =>
        have hfirst := Turns.one (turn_next hstack hgrey hds hindex hj)
        have hvj : v ≠ j := by
          rintro rfl
          rw [hgrey] at hj
          cases hj
        rcases ih j { s with stack := (j, 0) :: (v, k + 1) :: rest } ((v, k + 1) :: rest) rfl hj
          (hgood.congr (fun _ => Iff.rfl) rfl) (fun u hu => by
            rcases hpath u hu with rfl | hu
            · exact .single hedge
            · exact hu.tail hedge) hcard with ⟨t, new, h⟩ | ⟨m, painted, h, hm⟩
        swap
        · exact .inr ⟨1 + m, painted, ⟨hfirst.halts h.halts, h.nodup, h.white⟩, by omega⟩
        have hgood' : G.Good { s with stack := (j, 0) :: (v, k + 1) :: rest } :=
          hgood.congr (fun _ => Iff.rfl) rfl
        have hcard' : (Finset.univ.filter fun u => t.color u = .white).card ≤ n :=
          (Finset.card_le_card fun u hu => by simpa using h.white hgood' (by simpa using hu)).trans
            hcard
        have hbefore' := hnext (fun d' hd' w hw => h.black (hbefore d' hd' w hw) hgood')
          fun w hw => by
            rw [hindex] at hw
            exact h.black_of_mem (by simp [Option.some.inj hw])
        rcases ihds (k + 1) t hdrop h.stack ((h.grey v).2 ⟨hgrey, hvj⟩) h.good
          (fun u hu => hpath u ((h.grey u).1 hu).1) hbefore' hcard' with
          ⟨t', new', h'⟩ | ⟨m, painted, h', hm⟩
        · refine .inl ⟨t', (new ++ [j]) ++ new', ?_, h'.stack, ?_, h'.good, ?_, ?_⟩
          · have hlen : 2 * ((new ++ [j]) ++ new').length + 1 =
                1 + (2 * new.length + 1) + (2 * new'.length + 1) := by
              simp only [List.length_append, List.length_singleton]
              omega
            rw [hlen]
            exact (hfirst.trans h.turns).trans h'.turns
          · rw [h'.order, h.order]
            simp
          · intro u
            rw [h'.grey, h.grey]
            constructor
            · rintro ⟨⟨hu, -⟩, huv⟩
              exact ⟨hu, huv⟩
            · rintro ⟨hu, huv⟩
              refine ⟨⟨hu, ?_⟩, huv⟩
              rintro rfl
              rw [show s.color u = .grey from hu] at hj
              cases hj
          · intro u hu
            rcases List.mem_append.1 hu with hu | hu
            · rcases List.mem_append.1 hu with hu | hu
              · exact (h.leads u hu).head hedge
              · rw [List.mem_singleton.1 hu]
                exact .single hedge
            · exact h'.leads u hu
        · have hlisted : ∀ u ∈ new ++ [j], s.color u = .white := by
            intro u hu
            rcases List.mem_append.1 hu with hu | hu
            · exact h.white_of_mem hgood' hu
            · rwa [List.mem_singleton.1 hu]
          have hnodup : (new ++ [j]).Nodup := by
            have hnodup := h.good.nodup
            rw [h.order, List.nodup_append] at hnodup
            exact hnodup.2.1
          refine .inr ⟨1 + (2 * new.length + 1) + m, (new ++ [j]) ++ painted,
            ⟨(hfirst.trans h.turns).halts h'.halts, ?_, ?_⟩, ?_⟩
          · refine List.nodup_append.2 ⟨hnodup, h'.nodup, fun u hu w hw huw => ?_⟩
            have hblack := h.black_of_mem hu
            rw [huw, h'.white w hw] at hblack
            cases hblack
          · intro u hu
            rcases List.mem_append.1 hu with hu | hu
            · exact hlisted u hu
            · exact h.white hgood' (h'.white u hu)
          · simp only [List.length_append, List.length_singleton]
            omega

/-- Every white node is visited, or leads to a cycle. The induction is on the number of white
nodes: the node that is visited is painted first. -/
theorem visits (G : Graph ν κ) (n : Nat) : G.Visits n := by
  induction n with
  | zero =>
    intro v s rest _ hwhite _ _ hcard
    have hv : v ∈ Finset.univ.filter fun u => s.color u = .white := by simpa using hwhite
    exact absurd (Finset.card_pos.2 ⟨v, hv⟩) (by omega)
  | succ n ih =>
    intro v s rest hstack hwhite hgood hpath hcard
    have hcolor : ∀ u, u ≠ v → Function.update s.color v .grey u = s.color u := fun u hu =>
      Function.update_of_ne hu ..
    have hblack : ∀ u, Function.update s.color v .grey u = .black ↔ s.color u = .black := by
      intro u
      by_cases hu : u = v
      · subst hu
        simp [hwhite]
      · rw [hcolor u hu]
    have hgrey : ∀ u, Function.update s.color v .grey u = .grey → u = v ∨ TransGen G.Edge u v := by
      intro u hu
      by_cases huv : u = v
      · exact .inl huv
      · rw [hcolor u huv] at hu
        exact .inr (hpath u hu)
    have hstill : ∀ u, Function.update s.color v .grey u = .white ↔ u ≠ v ∧ s.color u = .white := by
      intro u
      by_cases hu : u = v
      · subst hu
        simp
      · simp [hu]
    have hcard' :
        (Finset.univ.filter fun u => Function.update s.color v .grey u = .white).card ≤ n := by
      have herase : (Finset.univ.filter fun u => Function.update s.color v .grey u = .white) =
          (Finset.univ.filter fun u => s.color u = .white).erase v := by
        ext u
        simp [hstill u]
      rw [herase, Finset.card_erase_of_mem (by simpa using hwhite)]
      omega
    rcases ih.from_place (v := v) (G.needs v) 0
      { s with color := Function.update s.color v .grey } rfl hstack
      (Function.update_self ..) (hgood.congr hblack rfl) hgrey (by simp) hcard' with
      ⟨t, new, h⟩ | ⟨k, painted, h, hk⟩
    · refine .inl ⟨t, new, h.turns.of_turn_eq (turn_white hstack), h.stack, h.order, h.good, ?_,
        h.leads⟩
      intro u
      rw [h.grey]
      by_cases hu : u = v
      · simp [hu]
      · simp [hu]
    · have hpainted : ∀ u ∈ painted, u ≠ v ∧ s.color u = .white := fun u hu =>
        (hstill u).1 (h.white u hu)
      refine .inr ⟨k, v :: painted, ⟨h.halts.of_turn_eq (turn_white hstack), ?_, ?_⟩, ?_⟩
      · exact List.nodup_cons.2 ⟨fun hv => (hpainted v hv).1 rfl, h.nodup⟩
      · exact List.forall_mem_cons.2 ⟨hwhite, fun u hu => (hpainted u hu).2⟩
      · rw [List.length_cons]
        omega

/-! ## Starting nodes -/

variable {turns : Nat}

/-- The loop takes the starting node off the stack, or ends on a cycle. -/
theorem loop_cases (hturns : 2 * Fintype.card ν ≤ turns) (hgood : G.Good s)
    (hnone : ∀ u, s.color u ≠ .grey) (hwhite : s.color v = .white) :
    (∃ t new, G.loop turns { s with stack := [(v, 0)] } = .ok t ∧
      G.Visited v [] { s with stack := [(v, 0)] } t new) ∨
    ∃ node, G.loop turns { s with stack := [(v, 0)] } = .error (.cycle node) ∧
      TransGen G.Edge node node := by
  rcases visits G _ v { s with stack := [(v, 0)] } [] rfl hwhite
    (hgood.congr (fun _ => Iff.rfl) rfl) (fun u hu => absurd hu (hnone u)) (Nat.le_refl _) with
    ⟨t, new, h⟩ | ⟨k, painted, h, hk⟩
  · have hcard : new.length + 1 ≤ Fintype.card ν := by
      have hle := h.good.nodup.length_le_card
      rw [h.order, List.length_append, List.length_append, List.length_singleton] at hle
      omega
    obtain ⟨more, rfl⟩ := Nat.exists_eq_add_of_le
      (show 2 * new.length + 1 + 1 ≤ turns by omega)
    refine .inl ⟨t, new, ?_, h⟩
    rw [Nat.add_assoc, h.turns.loop_eq, Nat.add_comm, loop, turn, h.stack]
  · have hcard := h.nodup.length_le_card
    exact .inr (h.halts.loop_eq (by omega))

/-- The search lists what the starting nodes lead to, behind what is listed, or ends on a
cycle. -/
theorem search_cases (hturns : 2 * Fintype.card ν ≤ turns) (starts : List ν) (hgood : G.Good s)
    (hnone : ∀ u, s.color u ≠ .grey) :
    (∃ t new, G.search turns starts s = .ok t ∧ G.Good t ∧ t.order = s.order ++ new ∧
      (∀ u ∈ new, ∃ start ∈ starts, ReflTransGen G.Edge start u) ∧
      ∀ start ∈ starts, start ∈ t.order) ∨
    ∃ node, G.search turns starts s = .error (.cycle node) ∧ TransGen G.Edge node node := by
  induction starts generalizing s with
  | nil => exact .inl ⟨s, [], rfl, hgood, by simp, by simp, by simp⟩
  | cons start starts ih =>
    rw [search]
    split
    · next hwhite =>
      rcases loop_cases hturns hgood hnone hwhite with ⟨t, new, hloop, h⟩ | ⟨node, hloop, hcycle⟩
      swap
      · rw [hloop]
        exact .inr ⟨node, rfl, hcycle⟩
      rw [hloop]
      rcases ih h.good (h.not_grey hnone) with ⟨t', new', hsearch, hgood', horder, hleads, hall⟩ | h'
      swap
      · exact .inr h'
      rw [h.order] at horder
      refine .inl ⟨t', (new ++ [start]) ++ new', hsearch, hgood', ?_, ?_, ?_⟩
      · rw [horder, List.append_assoc]
      · intro u hu
        rcases List.mem_append.1 hu with hu | hu
        · refine ⟨start, List.mem_cons_self, ?_⟩
          rcases List.mem_append.1 hu with hu | hu
          · exact (h.leads u hu).to_reflTransGen
          · rw [List.mem_singleton.1 hu]
        · obtain ⟨start', hstart', hu⟩ := hleads u hu
          exact ⟨start', List.mem_cons_of_mem _ hstart', hu⟩
      · refine List.forall_mem_cons.2 ⟨?_, hall⟩
        rw [horder]
        simp
    · next hcolor =>
      rcases ih hgood hnone with ⟨t, new, hsearch, hgood', horder, hleads, hall⟩ | h
      swap
      · exact .inr h
      have hblack : start ∈ s.order := by
        rw [← hgood.black]
        cases hstart : s.color start with
        | white => exact absurd hstart hcolor
        | grey => exact absurd hstart (hnone start)
        | black => rfl
      refine .inl ⟨t, new, hsearch, hgood', horder, fun u hu => ?_, ?_⟩
      · obtain ⟨start', hstart', hu⟩ := hleads u hu
        exact ⟨start', List.mem_cons_of_mem _ hstart', hu⟩
      · refine List.forall_mem_cons.2 ⟨?_, hall⟩
        rw [horder]
        exact List.mem_append_left _ hblack

/-- Twice as many turns as there are nodes are enough for each starting node, to list what the
starting nodes lead to or to find a cycle. -/
theorem postorder_cases (hturns : 2 * Fintype.card ν ≤ turns) (starts : List ν) :
    (∃ order, G.postorder turns starts = .ok order ∧ IsPostorder G.Edge starts order) ∨
    ∃ node, G.postorder turns starts = .error (.cycle node) ∧ TransGen G.Edge node node := by
  have hempty : G.Good ⟨fun _ => .white, [], []⟩ :=
    ⟨fun v => by simp, List.nodup_nil, fun pre v post h => absurd h (by simp)⟩
  rcases search_cases hturns starts hempty fun _ => by simp with
    ⟨t, new, hsearch, hgood, horder, hleads, hall⟩ | ⟨node, hsearch, hcycle⟩
  swap
  · exact .inr ⟨node, by rw [postorder, hsearch]; rfl, hcycle⟩
  rw [List.nil_append] at horder
  refine .inl ⟨t.order, by rw [postorder, hsearch]; rfl, hgood.nodup, hgood.closed, fun v => ?_, ?_⟩
  · constructor
    · rw [horder]
      exact hleads v
    · rintro ⟨start, hstart, hv⟩
      rcases reflTransGen_iff_eq_or_transGen.1 hv with rfl | hv
      · exact hall _ hstart
      · obtain ⟨pre, post, heq⟩ := List.append_of_mem (hall start hstart)
        rw [heq]
        exact List.mem_append_left _ (hgood.closed.mem_of_transGen heq hv)
  · -- The first visit starts with nothing listed.
    rintro start others rfl
    rw [search, if_pos rfl] at hsearch
    rcases loop_cases (v := start) hturns hempty (fun _ => by simp) rfl with
      ⟨u, first, hloop, h⟩ | ⟨node, hloop, -⟩
    · rw [hloop] at hsearch
      rcases search_cases hturns others h.good (h.not_grey fun _ => by simp) with
        ⟨t', more, hsearch', -, hmore, -⟩ | ⟨node, hsearch', -⟩
      · obtain rfl : t' = t := Except.ok.inj (hsearch'.symm.trans hsearch)
        refine ⟨first, more, ?_, h.leads⟩
        rw [hmore, h.order]
        simp
      · cases hsearch'.symm.trans hsearch
    · rw [hloop] at hsearch
      cases hsearch

end Visits

end Graph

end Postorder
