import Mathlib.Data.Prod.Lex
import Mathlib.Data.List.Basic

/-!
# Items of a text that arrives in pieces

A reader keeps what has arrived and was not used, takes the first item of it, and waits for more
when none is complete. What it finds does not depend on where the text was cut.

* `Parser.items`: all items of a text. What was put together is found again (`items_flatMap`), as far
  as it has come (`items_cut`).
* `Parser.next`: the first item of what arrives. It is the first item of the whole text that is still
  to be used, or there is none in it (`next_spec`).
* `Parser.consume`: a loop over the items. On a stream that only brings text it does what the same
  loop does on the items of the whole text (`consume_steady`).
-/

namespace Incremental

variable {α β γ δ ε σ : Type}

/-- The first item of a text and what is behind it, `none` while it is not complete. -/
structure Parser (β α δ : Type) where
  parse : List β → Except δ (Option (α × List β))
  shorter : ∀ {bs a rest}, parse bs = .ok (some (a, rest)) → rest.length < bs.length
  /-- What is found or refused does not depend on what follows. -/
  found : ∀ {bs a rest}, parse bs = .ok (some (a, rest)) →
    ∀ more, parse (bs ++ more) = .ok (some (a, rest ++ more))
  refused : ∀ {bs e}, parse bs = .error e → ∀ more, parse (bs ++ more) = .error e

/-- What is behind the last item of a text. -/
inductive Tail (β δ : Type)
  | cut (bs : List β)
  | bad (e : δ)

/-- What a read from the stream gives. -/
inductive Arrival (β ε : Type)
  | chunk (bs : List β)
  | timeout
  | closed
  | failed (e : ε)

/-- What has arrived and was not used, and what the next reads will give. -/
structure Inflow (β ε : Type) where
  buf : List β
  arrivals : List (Arrival β ε)

/-- The text that arrives before the stream ends. -/
def text : List (Arrival β ε) → List β
  | [] => []
  | .chunk bs :: rest => bs ++ text rest
  | .timeout :: rest => text rest
  | .closed :: _ => []
  | .failed _ :: _ => []

/-- The text that is still to be used. -/
def Inflow.unread (c : Inflow β ε) : List β := c.buf ++ text c.arrivals

/-- Nothing but pieces arrives. -/
def Inflow.Steady (c : Inflow β ε) : Prop := ∀ x ∈ c.arrivals, ∃ bs, x = .chunk bs

/-- What is found next. -/
inductive Next (α δ ε : Type)
  | item (a : α)
  | refused (e : δ)
  | timeout
  | closed
  | failed (e : ε)

/-- What ends a loop that has not seen what it waits for. -/
inductive Stop (δ ε : Type)
  | refused (e : δ)
  | timeout
  | closed
  | failed (e : ε)

/-- The arrival that a reader was told of. -/
def Next.arrival : Next α δ ε → List (Arrival β ε)
  | .item _ => []
  | .refused _ => []
  | .timeout => [.timeout]
  | .closed => [.closed]
  | .failed e => [.failed e]

/-- The arrival that ended a loop. -/
def Stop.arrival : Stop δ ε → List (Arrival β ε)
  | .refused _ => []
  | .timeout => [.timeout]
  | .closed => [.closed]
  | .failed e => [.failed e]

/-- What a loop was told of at its end. -/
def arrivalOf : Except (Stop δ ε × σ) γ → List (Arrival β ε)
  | .ok _ => []
  | .error (stop, _) => stop.arrival

namespace Parser

variable (P : Parser β α δ)

/-! ## The items of a text -/

/-- The items, and what is behind them. -/
def items (bs : List β) : List α × Tail β δ :=
  match _h : P.parse bs with
  | .error e => ([], .bad e)
  | .ok none => ([], .cut bs)
  | .ok (some (a, rest)) => (a :: (items rest).1, (items rest).2)
termination_by bs.length
decreasing_by all_goals exact P.shorter _h

variable {P} {bs rest : List β} {a : α} {e : δ}

theorem items_of_refused (h : P.parse bs = .error e) : P.items bs = ([], .bad e) := by
  rw [items]
  split <;> simp_all

theorem items_of_none (h : P.parse bs = .ok none) : P.items bs = ([], .cut bs) := by
  rw [items]
  split <;> simp_all

theorem items_of_found (h : P.parse bs = .ok (some (a, rest))) :
    P.items bs = (a :: (P.items rest).1, (P.items rest).2) := by
  rw [items]
  split <;> simp_all

/-- The items of a text that was put together from them. -/
theorem items_flatMap {ι : Type} {encode : ι → List β} {value : ι → α} {xs : List ι}
    (h : ∀ x ∈ xs, ∀ rest, P.parse (encode x ++ rest) = .ok (some (value x, rest)))
    (more : List β) : P.items (xs.flatMap encode ++ more) =
      (xs.map value ++ (P.items more).1, (P.items more).2) := by
  induction xs with
  | nil => rfl
  | cons x xs ih =>
    obtain ⟨hx, hxs⟩ := List.forall_mem_cons.1 h
    rw [List.flatMap_cons, List.append_assoc, items_of_found (hx _), ih hxs]
    rfl

/-- The items of a part of such a text are those that are complete in it. Less than the next one is
left. -/
theorem items_cut {ι : Type} {encode : ι → List β} {value : ι → α} {xs : List ι}
    (h : ∀ x ∈ xs, ∀ rest, P.parse (encode x ++ rest) = .ok (some (value x, rest)))
    (hpart : ∀ x ∈ xs, ∀ cut, cut <+: encode x → cut ≠ encode x → P.parse cut = .ok none)
    (hnothing : P.parse [] = .ok none) (hbs : bs <+: xs.flatMap encode) :
    ∃ found missing cut, xs = found ++ missing ∧ bs = found.flatMap encode ++ cut ∧
      (∀ x ∈ missing.head?, cut.length < (encode x).length) ∧
      P.items bs = (found.map value, .cut cut) := by
  induction xs generalizing bs with
  | nil =>
    obtain rfl := List.prefix_nil.1 hbs
    exact ⟨[], [], [], rfl, rfl, nofun, items_of_none hnothing⟩
  | cons x xs ih =>
    obtain ⟨hx, hxs⟩ := List.forall_mem_cons.1 h
    obtain ⟨hpartx, hpartxs⟩ := List.forall_mem_cons.1 hpart
    rw [List.flatMap_cons] at hbs
    rcases List.prefix_or_prefix_of_prefix hbs (List.prefix_append _ _) with hless | ⟨more, rfl⟩
    · by_cases hwhole : bs = encode x
      · refine ⟨[x], xs, [], rfl, by simp [hwhole], fun y hy => ?_, ?_⟩
        · by_contra hzero
          have hnil : encode y = [] := List.length_eq_zero_iff.1 (by simpa using hzero)
          have hfound := hxs y (List.mem_of_mem_head? hy) []
          rw [hnil, List.append_nil, hnothing] at hfound
          cases hfound
        · have hfound := hx []
          rw [List.append_nil] at hfound
          rw [hwhole, items_of_found hfound, items_of_none hnothing]
          rfl
      · have hlt : bs.length < (encode x).length :=
          lt_of_le_of_ne hless.length_le fun heq => hwhole (hless.eq_of_length heq)
        refine ⟨[], x :: xs, bs, rfl, rfl, fun y hy => ?_, items_of_none (hpartx bs hless hwhole)⟩
        obtain rfl := Option.some.inj hy
        exact hlt
    · obtain ⟨found, missing, cut, rfl, rfl, hcut, hitems⟩ :=
        ih hxs hpartxs ((List.prefix_append_right_inj _).1 hbs)
      refine ⟨x :: found, missing, cut, rfl, by simp, hcut, ?_⟩
      rw [items_of_found (hx _), hitems]
      rfl

/-! ## The next item -/

variable (P)

/-- The first item of what arrives. There is none yet when the arrivals are used up. -/
def nextFrom (buf : List β) (arrivals : List (Arrival β ε)) :
    Option (Next α δ ε × Inflow β ε) :=
  match P.parse buf with
  | .error e => some (.refused e, ⟨buf, arrivals⟩)
  | .ok (some (a, rest)) => some (.item a, ⟨rest, arrivals⟩)
  | .ok none =>
    match arrivals with
    | [] => none
    | .chunk bs :: arrivals => nextFrom (buf ++ bs) arrivals
    | .timeout :: arrivals => some (.timeout, ⟨buf, arrivals⟩)
    | .closed :: arrivals => some (.closed, ⟨buf, arrivals⟩)
    | .failed e :: arrivals => some (.failed e, ⟨buf, arrivals⟩)

def next (c : Inflow β ε) : Option (Next α δ ε × Inflow β ε) := P.nextFrom c.buf c.arrivals

/-- What was found, as a statement about the whole text. -/
def Finds (c : Inflow β ε) : Option (Next α δ ε × Inflow β ε) → Prop
  | none => P.parse c.unread = .ok none
  | some (.item a, c') => P.parse c.unread = .ok (some (a, c'.unread))
  | some (.refused e, _) => P.parse c.unread = .error e
  | some (.timeout, c') => c'.unread = c.unread ∧ c'.arrivals.length < c.arrivals.length
  | some (.closed, _) => P.parse c.unread = .ok none
  | some (.failed _, _) => P.parse c.unread = .ok none

variable {P} in
/-- A piece that has arrived is a part of the text. -/
theorem Finds.of_chunk {buf bs : List β} {arrivals : List (Arrival β ε)}
    {r : Option (Next α δ ε × Inflow β ε)} (h : P.Finds ⟨buf ++ bs, arrivals⟩ r) :
    P.Finds ⟨buf, .chunk bs :: arrivals⟩ r := by
  have hunread : Inflow.unread ⟨buf, .chunk bs :: arrivals⟩ =
      Inflow.unread (⟨buf ++ bs, arrivals⟩ : Inflow β ε) := by
    simp [Inflow.unread, text]
  cases r with
  | none => exact (congrArg P.parse hunread).trans h
  | some p =>
    obtain ⟨n, c'⟩ := p
    cases n with
    | timeout => exact ⟨h.1.trans hunread.symm, h.2.trans (Nat.lt_succ_self _)⟩
    | item a => exact (congrArg P.parse hunread).trans h
    | refused e => exact (congrArg P.parse hunread).trans h
    | closed => exact (congrArg P.parse hunread).trans h
    | failed e => exact (congrArg P.parse hunread).trans h

/-- **The next item** is the first one of the whole text. -/
theorem next_spec (c : Inflow β ε) : P.Finds c (P.next c) := by
  obtain ⟨buf, arrivals⟩ := c
  unfold next
  dsimp only
  induction arrivals generalizing buf with
  | nil =>
    unfold nextFrom
    cases hparse : P.parse buf with
    | error e => simpa [Finds, Inflow.unread, text] using hparse
    | ok found => cases found <;> simpa [Finds, Inflow.unread, text] using hparse
  | cons arrival arrivals ih =>
    unfold nextFrom
    cases hparse : P.parse buf with
    | error e => exact P.refused hparse _
    | ok found =>
      cases found with
      | some p => exact P.found hparse _
      | none =>
        cases arrival with
        | chunk bs => exact Finds.of_chunk (ih (buf ++ bs))
        | timeout => exact ⟨rfl, Nat.lt_succ_self _⟩
        | closed => simpa [Finds, Inflow.unread, text] using hparse
        | failed e => simpa [Finds, Inflow.unread, text] using hparse

/-- An item is taken off the text. -/
theorem next_lt {c c' : Inflow β ε} {a : α} (h : P.next c = some (.item a, c')) :
    c'.unread.length < c.unread.length := by
  have hfinds := P.next_spec c
  rw [h] at hfinds
  exact P.shorter hfinds

/-- What has been read: pieces, and what the reader was told of. -/
theorem next_arrivals {c c' : Inflow β ε} {n : Next α δ ε} (h : P.next c = some (n, c')) :
    ∃ pieces : List (List β), c.arrivals = pieces.map .chunk ++ (n.arrival ++ c'.arrivals) := by
  obtain ⟨buf, arrivals⟩ := c
  unfold next at h
  dsimp only at h ⊢
  induction arrivals generalizing buf with
  | nil =>
    unfold nextFrom at h
    cases hparse : P.parse buf with
    | error e =>
      rw [hparse] at h
      cases h
      exact ⟨[], rfl⟩
    | ok found =>
      rw [hparse] at h
      cases found with
      | none => cases h
      | some p =>
        cases h
        exact ⟨[], rfl⟩
  | cons arrival arrivals ih =>
    unfold nextFrom at h
    cases hparse : P.parse buf with
    | error e =>
      rw [hparse] at h
      cases h
      exact ⟨[], rfl⟩
    | ok found =>
      rw [hparse] at h
      cases found with
      | some p =>
        cases h
        exact ⟨[], rfl⟩
      | none =>
        cases arrival with
        | chunk bs =>
          obtain ⟨pieces, harrivals⟩ := ih _ h
          exact ⟨bs :: pieces, congrArg (List.cons _) harrivals⟩
        | timeout | closed | failed =>
          cases h
          exact ⟨[], rfl⟩

/-! ## Loops -/

section Consume

variable (step : σ → α → σ ⊕ γ)

/-- Items are taken until one of them gives the result. Otherwise the state is what is left. -/
def consume (s : σ) (c : Inflow β ε) : Option (Except (Stop δ ε × σ) γ × Inflow β ε) :=
  match _h : P.next c with
  | none => none
  | some (.item a, c') =>
    match step s a with
    | .inl s' => consume s' c'
    | .inr g => some (.ok g, c')
  | some (.refused e, c') => some (.error (.refused e, s), c')
  | some (.timeout, c') => some (.error (.timeout, s), c')
  | some (.closed, c') => some (.error (.closed, s), c')
  | some (.failed e, c') => some (.error (.failed e, s), c')
termination_by c.unread.length
decreasing_by exact P.next_lt _h

/-- The state after items that give no result. -/
def skipAll : σ → List α → Option σ
  | s, [] => some s
  | s, a :: as =>
    match step s a with
    | .inl s' => skipAll s' as
    | .inr _ => none

/-- How the loop ends, as a statement about the whole text: it has skipped `as` and come to `s'`. -/
def Consumes (c : Inflow β ε) (as : List α) (s' : σ) :
    Option (Except (Stop δ ε × σ) γ × Inflow β ε) → Prop
  | none => ∃ rest, P.items c.unread = (as, .cut rest)
  | some (.ok g, c') => ∃ a, step s' a = .inr g ∧
    P.items c.unread = (as ++ a :: (P.items c'.unread).1, (P.items c'.unread).2)
  | some (.error (.refused e, s), _) => s = s' ∧ P.items c.unread = (as, .bad e)
  | some (.error (.timeout, s), c') => s = s' ∧
    P.items c.unread = (as ++ (P.items c'.unread).1, (P.items c'.unread).2)
  | some (.error (.closed, s), _) => s = s' ∧ ∃ rest, P.items c.unread = (as, .cut rest)
  | some (.error (.failed _, s), _) => s = s' ∧ ∃ rest, P.items c.unread = (as, .cut rest)

variable {P} {step}

/-- One more item is skipped at first. -/
theorem Consumes.cons {c c₁ : Inflow β ε} {a : α} {as : List α} {s' : σ}
    {r : Option (Except (Stop δ ε × σ) γ × Inflow β ε)}
    (hitems : P.items c.unread = (a :: (P.items c₁.unread).1, (P.items c₁.unread).2))
    (h : P.Consumes step c₁ as s' r) : P.Consumes step c (a :: as) s' r := by
  cases r with
  | none =>
    obtain ⟨rest, hrest⟩ := h
    exact ⟨rest, by rw [hitems, hrest]⟩
  | some p =>
    obtain ⟨e, c'⟩ := p
    cases e with
    | ok g =>
      obtain ⟨b, hb, hrest⟩ := h
      exact ⟨b, hb, by rw [hitems, hrest, List.cons_append]⟩
    | error stop =>
      obtain ⟨stop, s⟩ := stop
      cases stop with
      | refused e =>
        obtain ⟨hs, hrest⟩ := h
        exact ⟨hs, by rw [hitems, hrest]⟩
      | timeout =>
        obtain ⟨hs, hrest⟩ := h
        exact ⟨hs, by rw [hitems, hrest, List.cons_append]⟩
      | closed | failed =>
        obtain ⟨hs, rest, hrest⟩ := h
        exact ⟨hs, rest, by rw [hitems, hrest]⟩

/-- **A loop** takes the items of the whole text in their order, wherever it was cut. -/
theorem consume_spec (s : σ) (c : Inflow β ε) : ∃ as s', skipAll step s as = some s' ∧
    P.Consumes step c as s' (P.consume step s c) := by
  induction hn : c.unread.length using Nat.strong_induction_on generalizing s c with
  | _ n ih =>
    have hfinds := P.next_spec c
    unfold consume
    split
    · next hnext =>
      rw [hnext] at hfinds
      exact ⟨[], s, rfl, _, items_of_none hfinds⟩
    · next a c₁ hnext =>
      rw [hnext] at hfinds
      have hitems := items_of_found hfinds
      cases hstep : step s a with
      | inl s₁ =>
        obtain ⟨as, s', hskip, hconsumes⟩ := ih _ (hn ▸ P.next_lt hnext) s₁ c₁ rfl
        refine ⟨a :: as, s', ?_, hconsumes.cons hitems⟩
        rw [skipAll, hstep]
        exact hskip
      | inr g => exact ⟨[], s, rfl, a, hstep, hitems⟩
    · next e c₁ hnext =>
      rw [hnext] at hfinds
      exact ⟨[], s, rfl, rfl, items_of_refused hfinds⟩
    · next c₁ hnext =>
      rw [hnext] at hfinds
      refine ⟨[], s, rfl, rfl, ?_⟩
      rw [← hfinds.1]
      rfl
    · next c₁ hnext =>
      rw [hnext] at hfinds
      exact ⟨[], s, rfl, rfl, _, items_of_none hfinds⟩
    · next e c₁ hnext =>
      rw [hnext] at hfinds
      exact ⟨[], s, rfl, rfl, _, items_of_none hfinds⟩

/-- The arrivals that a loop uses. -/
theorem consume_arrivals {s : σ} {c c' : Inflow β ε} {r : Except (Stop δ ε × σ) γ}
    (h : P.consume step s c = some (r, c')) : ∃ pieces : List (List β),
      c.arrivals = pieces.map .chunk ++ (arrivalOf r ++ c'.arrivals) := by
  induction hn : c.unread.length using Nat.strong_induction_on generalizing s c with
  | _ n ih =>
    unfold consume at h
    split at h
    · cases h
    · next a c₁ hnext =>
      obtain ⟨pieces, harrivals⟩ := P.next_arrivals hnext
      cases hstep : step s a with
      | inl s₁ =>
        rw [hstep] at h
        obtain ⟨more, hmore⟩ := ih _ (hn ▸ P.next_lt hnext) h rfl
        refine ⟨pieces ++ more, ?_⟩
        rw [harrivals, hmore]
        simp [Next.arrival]
      | inr g =>
        rw [hstep] at h
        cases h
        exact ⟨pieces, harrivals⟩
    · next hnext =>
      cases h
      exact P.next_arrivals hnext
    · next hnext =>
      cases h
      exact P.next_arrivals hnext
    · next hnext =>
      cases h
      exact P.next_arrivals hnext
    · next hnext =>
      cases h
      exact P.next_arrivals hnext

/-- The result of a loop, and what is behind the item that gave it. -/
def consumeItems (step : σ → α → σ ⊕ γ) : σ → List α → Option (γ × List α)
  | _, [] => none
  | s, a :: as =>
    match step s a with
    | .inl s' => consumeItems step s' as
    | .inr g => some (g, as)

theorem consumeItems_append {s s' : σ} {as : List α} (h : skipAll step s as = some s')
    (more : List α) : consumeItems step s (as ++ more) = consumeItems step s' more := by
  induction as generalizing s with
  | nil =>
    cases h
    rfl
  | cons a as ih =>
    rw [skipAll] at h
    rw [List.cons_append, consumeItems]
    cases hstep : step s a with
    | inl s₁ =>
      rw [hstep] at h
      exact ih h
    | inr g =>
      rw [hstep] at h
      cases h

end Consume

/-! ## Streams that only bring text -/

section Steady

variable {step : σ → α → σ ⊕ γ}

variable {P}

/-- A loop ends with its result, or the text is refused. -/
theorem consume_steady {s : σ} {c c' : Inflow β ε} {r : Except (Stop δ ε × σ) γ}
    (hc : c.Steady) (h : P.consume step s c = some (r, c')) :
    c'.Steady ∧ ∀ stop s', r = .error (stop, s') → ∃ e, stop = .refused e := by
  obtain ⟨pieces, harrivals⟩ := consume_arrivals h
  refine ⟨fun x hx => hc x ?_, ?_⟩
  · rw [harrivals]
    exact List.mem_append_right _ (List.mem_append_right _ hx)
  · rintro stop s' rfl
    have hmem : ∀ x ∈ (stop.arrival : List (Arrival β ε)), ∃ bs, x = .chunk bs := by
      intro x hx
      refine hc x ?_
      rw [harrivals]
      exact List.mem_append_right _ (List.mem_append_left _ hx)
    cases stop with
    | refused e => exact ⟨e, rfl⟩
    | timeout | closed | failed =>
      obtain ⟨bs, hbs⟩ := hmem _ (List.mem_singleton_self _)
      cases hbs

/-- **On a steady stream** a loop does what it does on the items of the whole text. -/
theorem consume_items {s : σ} {c : Inflow β ε} (hc : c.Steady) {g : γ} {rest : List α}
    (h : consumeItems step s (P.items c.unread).1 = some (g, rest)) :
    ∃ c', P.consume step s c = some (.ok g, c') ∧ c'.Steady ∧
      P.items c'.unread = (rest, (P.items c.unread).2) := by
  have hspec : ∃ as s', skipAll step s as = some s' ∧
      P.Consumes step c as s' (P.consume step s c) := consume_spec s c
  obtain ⟨as, s', hskip, hconsumes⟩ := hspec
  have hnone : consumeItems step s as = none := by
    have happend := consumeItems_append hskip []
    rwa [List.append_nil] at happend
  cases hr : P.consume step s c with
  | none =>
    rw [hr] at hconsumes
    obtain ⟨tail, htail⟩ := hconsumes
    rw [htail, hnone] at h
    cases h
  | some p =>
    obtain ⟨r, c'⟩ := p
    obtain ⟨hc', hstop⟩ := consume_steady hc hr
    rw [hr] at hconsumes
    cases r with
    | ok g' =>
      obtain ⟨a, ha, hitems⟩ := hconsumes
      rw [hitems, consumeItems_append hskip, consumeItems, ha] at h
      cases h
      exact ⟨c', rfl, hc', by rw [hitems]⟩
    | error stop =>
      obtain ⟨stop, s₁⟩ := stop
      obtain ⟨e, rfl⟩ := hstop stop s₁ rfl
      have hitems : P.items c.unread = (as, .bad e) := hconsumes.2
      rw [hitems, hnone] at h
      cases h

end Steady

end Parser

end Incremental
