import Pglite.Runs
import Pglite.ServerProof
import Pglite.Transaction

/-!
# Transactions: where statements run, and what `commit` says

A transaction that has begun is in one of two states. Either the session that ran its `BEGIN` is
still there and still in that block (`Held`), or that session is gone, the server has rolled the
block back, and whatever the worker talks to now is in no block (`Lost`). One lemma per round
trip says how it moves between the two.
-/

namespace Pglite

variable {α : Type*} {ls : Listeners} {d : Catalog α}

/-! ## Held and lost blocks -/

/-- The session that ran `BEGIN` is still there, in the block it opened. -/
structure Link.Held (l : Link α) : Prop where
  epoch : l.epoch = 0
  alive : l.alive = true
  opener : l.server.session.block.opener? = some 0
  ended : l.server.ended = []

/-- The session that ran `BEGIN` is gone and the server has rolled its block back. -/
structure Link.Lost (l : Link α) : Prop where
  gone : l.alive = true → l.epoch ≠ 0
  idle : l.server.session.block = .idle
  ended : l.server.ended = [(0, false)]

theorem Link.Held.hangUp {l : Link α} (h : l.Held) (s : Server Nat α)
    (hs : s.session.block.opener? = l.server.session.block.opener? ∧ s.ended = l.server.ended)
    (alive : Bool) :
    Link.Lost { server := s.hangUp, epoch := if alive then l.epoch + 1 else l.epoch,
                alive := alive } where
  gone := by rintro ⟨⟩; simp
  idle := rfl
  ended := by simp [Server.hangUp, hs.1, hs.2, h.opener, h.ended]

theorem Link.Lost.hangUp {l : Link α} (h : l.Lost) (s : Server Nat α)
    (hs : s.session.block.opener? = l.server.session.block.opener? ∧ s.ended = l.server.ended)
    (alive : Bool) :
    Link.Lost { server := s.hangUp, epoch := if alive then l.epoch + 1 else l.epoch,
                alive := alive } where
  gone := by rintro ⟨⟩; simp
  idle := rfl
  ended := by simp [Server.hangUp, hs.1, hs.2, h.idle, h.ended]

/-- A statement that is answered leaves a held block held and a lost one lost. -/
theorem Link.Held.exec {l : Link α} (h : l.Held) {b : Batch α} (hb : b.isStatement = true) (v : Verdict) :
    Link.Held { l with server := (l.server.exec d l.epoch b v).1 } := by
  obtain ⟨hopener, hended, -⟩ := Server.exec_stmt_spec (d := d) l.server l.epoch hb v
  exact ⟨h.epoch, h.alive, hopener.trans h.opener, hended.trans h.ended⟩

theorem Link.Lost.exec {l : Link α} (h : l.Lost) {b : Batch α} (hb : b.isStatement = true) (v : Verdict) :
    Link.Lost { l with server := (l.server.exec d l.epoch b v).1 } := by
  obtain ⟨hopener, hended, -⟩ := Server.exec_stmt_spec (d := d) l.server l.epoch hb v
  refine ⟨h.gone, ?_, hended.trans h.ended⟩
  rw [h.idle] at hopener
  simpa using hopener

/-- A round trip on a held block is answered there, or the block is lost with it. -/
theorem route_held (via : Via) {l : Link α} (h : l.Held) {b : Batch α} (hb : b.isStatement = true)
    (o : Outcome) :
    (∃ v, o = .answered v ∧ route d via l b o =
      ({ l with server := (l.server.exec d l.epoch b v).1 }, .ok (l.server.exec d l.epoch b v).2)) ∨
    (∃ e, (route d via l b o).2 = .error e) ∧ (route d via l b o).1.Lost := by
  cases o with
  | answered v =>
    left
    cases via <;> exact ⟨v, rfl, by simp [route, Engine.roundtrip, Conn.roundtrip, h.alive]⟩
  | lost ran e reconnects =>
    right
    cases via with
    | backend =>
      refine ⟨⟨.closed, by simp [route, Engine.roundtrip, h.alive]⟩, ?_⟩
      simpa [route, Engine.roundtrip, h.alive] using h.hangUp l.server ⟨rfl, rfl⟩ false
    | pin =>
      refine ⟨⟨.io e, by simp [route, Conn.roundtrip, h.alive]⟩, ?_⟩
      cases ran with
      | none => simpa [route, Conn.roundtrip, h.alive] using h.hangUp l.server ⟨rfl, rfl⟩ reconnects
      | some v =>
        obtain ⟨hopener, hended, -⟩ := Server.exec_stmt_spec (d := d) l.server l.epoch hb v
        simpa [route, Conn.roundtrip, h.alive] using h.hangUp _ ⟨hopener, hended⟩ reconnects

/-- A lost block stays lost. -/
theorem route_lost (via : Via) {l : Link α} (h : l.Lost) {b : Batch α} (hb : b.isStatement = true)
    (o : Outcome) : (route d via l b o).1.Lost := by
  cases ha : l.alive with
  | false => cases via <;> simpa [route, Engine.roundtrip, Conn.roundtrip, ha] using h
  | true =>
    cases o with
    | answered v =>
      cases via <;> simpa [route, Engine.roundtrip, Conn.roundtrip, ha] using h.exec hb v
    | lost ran e reconnects =>
      cases via with
      | backend =>
        simpa [route, Engine.roundtrip, ha] using h.hangUp l.server ⟨rfl, rfl⟩ false
      | pin =>
        cases ran with
        | none => simpa [route, Conn.roundtrip, ha] using h.hangUp l.server ⟨rfl, rfl⟩ reconnects
        | some v =>
          obtain ⟨hopener, hended, -⟩ := Server.exec_stmt_spec (d := d) l.server l.epoch hb v
          simpa [route, Conn.roundtrip, ha] using h.hangUp _ ⟨hopener, hended⟩ reconnects

/-! ## Beginning a transaction -/

/-- The transactions `Transaction::begin` returns on a session that is in no block. -/
def Transaction.Begun (ls : Listeners) (d : Catalog α) (tx : Transaction α) : Prop :=
  ∃ via store unnamed o oDrop l,
    Transaction.begin ls d via (Link.checkedOut store unnamed) o oDrop = (l, .ok tx)

/-- A begun transaction: its block is open on the session it holds, and nothing has run. -/
theorem Transaction.Begun.spec {tx : Transaction α} (h : tx.Begun ls d) :
    tx.link.Held ∧ tx.link.server.session.block = .active 0 ∧
      tx.link.server.session.unnamed = none ∧ tx.link.server.ran = [] ∧ tx.returned = [] := by
  obtain ⟨via, store, unnamed, o, oDrop, l, h⟩ := h
  unfold Transaction.begin at h
  split at h
  case h_2 => cases via <;> simp at h
  case h_1 l' hexec =>
    obtain ⟨-, rfl⟩ : l' = l ∧ _ := by simpa using h
    have halive : (Link.checkedOut store unnamed).alive = true := rfl
    have hidle : (Link.checkedOut store unnamed).server.session.block = .idle := rfl
    cases o with
    | lost ran e reconnects =>
      cases via <;> simp [execVia, route, Engine.roundtrip, Conn.roundtrip, halive] at hexec
    | answered v =>
      have hroute : route d via (Link.checkedOut store unnamed) .begin (.answered v) =
          ({ Link.checkedOut store unnamed with
              server := ((Link.checkedOut store unnamed).server.exec d 0 .begin v).1 },
            .ok ((Link.checkedOut store unnamed).server.exec d 0 .begin v).2) := by
        cases via <;> simp [route, Engine.roundtrip, Conn.roundtrip, Link.checkedOut]
      rw [execVia, hroute] at hexec
      rcases Server.exec_begin_idle (d := d) hidle 0 v with ⟨fields, hr⟩ | hr
      · simp [hr, Server.raise, Server.ready, processResponse] at hexec
      · rw [hr] at hexec
        obtain ⟨rfl, -⟩ : _ = l' ∧ _ := by simpa using hexec
        exact ⟨⟨rfl, rfl, rfl, rfl⟩, rfl, rfl, rfl, rfl⟩

/-! ## Calls -/

/-- The link after `exec` is that of its round trip. -/
theorem execVia_fst (ls : Listeners) (via : Via) (l : Link α) (b : Batch α) (o : Outcome) :
    (execVia ls d via l b o).1 = (route d via l b o).1 := by
  unfold execVia
  split <;> simp_all

theorem Transaction.exec_link (tx : Transaction α) (a : α) (o : Outcome) :
    (tx.exec ls d a o).1.link = (route d tx.via tx.link (.query a) o).1 := by
  rw [← execVia_fst ls]
  unfold Transaction.exec
  split <;> simp_all

theorem Transaction.query_link (tx : Transaction α) (a : α) (params : List Param)
    (o₁ o₂ : Outcome) :
    (tx.query ls d a params o₁ o₂).1.link = (queryVia ls d tx.via tx.link a params o₁ o₂).1 := by
  unfold Transaction.query
  split <;> simp_all

/-- `query_via` ends after its first round trip, or makes a second one. -/
theorem queryVia_cases (ls : Listeners) (via : Via) (l : Link α) (a : α) (params : List Param) (o₁ o₂ : Outcome) :
    ((∃ e, (queryVia ls d via l a params o₁ o₂).2 = .error e) ∧
      (queryVia ls d via l a params o₁ o₂).1 = (route d via l (.parse a) o₁).1 ∧
      ∀ response, (route d via l (.parse a) o₁).2 = .ok response →
        ∃ e, queryDescribed ls params response = .error e) ∨
    (∃ response columns, (route d via l (.parse a) o₁).2 = .ok response ∧
      queryDescribed ls params response = .ok columns ∧
      (queryVia ls d via l a params o₁ o₂).1 =
        (route d via (route d via l (.parse a) o₁).1 .bind o₂).1) := by
  unfold queryVia
  rcases route d via l (.parse a) o₁ with ⟨l', e | response⟩
  · left; simp
  · rcases hq : queryDescribed ls params response with e | columns
    · left; simp [hq]
    · right
      refine ⟨response, columns, rfl, hq, ?_⟩
      simp only [hq]
      split <;> simp_all

/-- The block the transaction opened is held, or it is lost. -/
def Transaction.HeldOrLost (tx : Transaction α) : Prop :=
  tx.link.Held ∨ tx.link.Lost

theorem route_heldOrLost (via : Via) {l : Link α} (h : l.Held ∨ l.Lost) {b : Batch α}
    (hb : b.isStatement = true) (o : Outcome) :
    (route d via l b o).1.Held ∨ (route d via l b o).1.Lost := by
  rcases h with h | h
  · rcases route_held (d := d) via h hb o with ⟨v, -, hr⟩ | ⟨-, hl⟩
    · left
      rw [hr]
      exact h.exec hb v
    · exact Or.inr hl
  · exact Or.inr (route_lost _ h hb o)

/-- **Step lemma.** A call keeps the block held or lost. -/
theorem Transaction.HeldOrLost.call {tx : Transaction α} (h : tx.HeldOrLost) (c : Call α) :
    (tx.call ls d c).HeldOrLost := by
  cases c with
  | exec a o =>
    rw [HeldOrLost, Transaction.call, exec_link]
    exact route_heldOrLost _ h (b := .query a) rfl o
  | query a params o₁ o₂ =>
    have first : _ ∨ _ := route_heldOrLost (d := d) tx.via h (b := .parse a) rfl o₁
    rw [HeldOrLost, Transaction.call, query_link]
    rcases queryVia_cases (d := d) ls tx.via tx.link a params o₁ o₂ with
      ⟨-, hl, -⟩ | ⟨response, columns, -, -, hl⟩
    · rw [hl]
      exact first
    · rw [hl]
      exact route_heldOrLost _ first (b := .bind) rfl o₂

theorem Transaction.call_via (tx : Transaction α) (c : Call α) : (tx.call ls d c).via = tx.via := by
  cases c with
  | exec a o =>
    show (tx.exec ls d a o).1.via = tx.via
    unfold Transaction.exec
    split <;> rfl
  | query a params o₁ o₂ =>
    show (tx.query ls d a params o₁ o₂).1.via = tx.via
    unfold Transaction.query
    split <;> rfl

/-! ## What the server says about a statement it parses -/

/-- The parameters are as many as the statement takes, and each can be encoded. -/
def Catalog.fits (d : Catalog α) (a : α) (params : List Param) : Prop :=
  d.params a = params.length ∧ ∀ p ∈ params, ∃ v, p = .ok v

/-- Outside a failed block, `query_via` goes on after its first answer exactly when the server
took the statement and the parameters fit it, and it goes on with the statement's columns. -/
theorem queryDescribed_parse {s : Server Nat α} (hs : ∀ p, s.session.block ≠ .failed p) (o : Nat)
    (a : α) (v : Verdict) (params : List Param) (columns : List (String × Nat)) :
    queryDescribed ls params (s.exec d o (.parse a) v).2 = .ok columns ↔
      (∃ rows, v = .accept rows) ∧ d.fits a params ∧ columns = d.columns a := by
  cases v with
  | reject fields =>
    simp [Server.exec_parse_reject hs, queryDescribed, Server.raise, Server.ready, processResponse,
      bind, Except.bind]
  | accept rows =>
    rw [Server.exec_parse_accept hs, Server.ready]
    by_cases hlen : d.params a = params.length
    · simp only [queryDescribed, processResponse, parseDescribe, Catalog.fits, bind, Except.bind, hlen,
        List.length_replicate, List.map_cons, List.map_nil, List.foldl_cons, List.cons_append,
        List.nil_append, List.foldl_nil, ne_eq, not_true_eq_false, if_false]
      split
      case h_1 e es hbad =>
        have : ¬ ∀ p ∈ params, ∃ v, p = Except.ok v := by
          intro hall
          have he := hbad ▸ List.mem_cons_self (a := e) (l := es)
          obtain ⟨p, hp, hpe⟩ := List.mem_filterMap.1 he
          obtain ⟨v, rfl⟩ := hall p hp
          cases hpe
        simp [this, throw, throwThe, MonadExceptOf.throw]
      case h_2 hgood =>
        have : ∀ p ∈ params, ∃ v, p = Except.ok v := by
          intro p hp
          have hp' := List.filterMap_eq_nil_iff.1 hgood p hp
          cases p with
          | ok v => exact ⟨v, rfl⟩
          | error e => cases hp'
        simp only [pure, Except.pure, Except.ok.injEq, true_and]
        exact ⟨fun h => ⟨⟨rows, rfl⟩, this, h.symm⟩, fun h => h.2.2.symm⟩
    · simp [queryDescribed, processResponse, parseDescribe, Catalog.fits, bind, Except.bind, hlen,
        throw, throwThe, MonadExceptOf.throw]

/-- When `query_via` goes on after its first answer, the server has taken the statement, the
parameters fit it, and the statement is now the session's unnamed one. -/
theorem route_parse_described {via : Via} {l : Link α} {a : α} {params : List Param}
    {o : Outcome} {response : List Message} {columns : List (String × Nat)}
    (hok : (route d via l (.parse a) o).2 = .ok response)
    (hq : queryDescribed ls params response = .ok columns) :
    l.alive = true ∧ (∃ rows, o = .answered (.accept rows)) ∧ d.fits a params ∧
      columns = d.columns a ∧ (∀ p, l.server.session.block ≠ .failed p) ∧
      (route d via l (.parse a) o).1 =
        { l with server := { l.server with session.unnamed := some a } } := by
  have ha : l.alive = true := by
    by_contra ha
    cases via <;> simp [route, Engine.roundtrip, Conn.roundtrip, ha] at hok
  cases o with
  | lost ran e reconnects =>
    cases via <;> simp [route, Engine.roundtrip, Conn.roundtrip, ha] at hok
  | answered v =>
    have hr : route d via l (.parse a) (.answered v) =
        ({ l with server := (l.server.exec d l.epoch (.parse a) v).1 },
          .ok (l.server.exec d l.epoch (.parse a) v).2) := by
      cases via <;> simp [route, Engine.roundtrip, Conn.roundtrip, ha]
    rw [hr] at hok ⊢
    obtain rfl := Except.ok.inj hok
    have hblock : ∀ p, l.server.session.block ≠ .failed p := by
      intro p hp
      rw [Server.exec_failed hp l.epoch (b := .parse a) rfl v] at hq
      simp [queryDescribed, Server.raise, Server.ready, processResponse, bind, Except.bind] at hq
    obtain ⟨⟨rows, rfl⟩, hfits, hcols⟩ := (queryDescribed_parse hblock _ a v params _).1 hq
    refine ⟨ha, ⟨rows, rfl⟩, hfits, hcols, hblock, ?_⟩
    rw [Server.exec_parse_accept hblock, Server.ready]

/-! ## Where statements run -/

/-- Every statement so far ran in the block that `BEGIN` opened. -/
def Link.InBlock (l : Link α) : Prop :=
  ∀ x ∈ l.server.ran, x.2.opener? = some 0

/-- What a round trip on a pooled connection makes the server run. -/
theorem route_pin_ran (l : Link α) {b : Batch α} (hb : b.isStatement = true) (o : Outcome) :
    (route d .pin l b o).1.server.ran = l.server.ran ++
      if l.alive ∧ o.served.isSome then
        ((l.server.session.runs b).map fun a => (a, l.server.session.block)).toList
      else [] := by
  by_cases ha : l.alive
  · cases o with
    | answered v =>
      obtain ⟨-, -, hran⟩ := Server.exec_stmt_spec (d := d) l.server l.epoch hb v
      simpa [route, Conn.roundtrip, Outcome.served, ha] using hran
    | lost ran e reconnects =>
      cases ran with
      | none => simp [route, Conn.roundtrip, Outcome.served, Server.hangUp, ha]
      | some v =>
        obtain ⟨-, -, hran⟩ := Server.exec_stmt_spec (d := d) l.server l.epoch hb v
        simpa [route, Conn.roundtrip, Outcome.served, Server.hangUp, ha] using hran
  · simp [route, Conn.roundtrip, ha]

/-- On a held block every statement runs inside it. -/
theorem Link.Held.inBlock_iff {l : Link α} (h : l.Held) {b : Batch α} (hb : b.isStatement = true)
    (o : Outcome) : (route d .pin l b o).1.InBlock ↔ l.InBlock := by
  have inside : ∀ x ∈ ((l.server.session.runs b).map fun a => (a, l.server.session.block)).toList,
      x.2.opener? = some 0 := by
    intro x hx
    obtain ⟨a, -, rfl⟩ : ∃ a, l.server.session.runs b = some a ∧ _ = x := by simpa using hx
    exact h.opener
  rw [InBlock, route_pin_ran l hb o, List.forall_mem_append]
  refine and_iff_left ?_
  split
  · exact inside
  · simp

/-- On a lost block every statement that is run runs outside it. -/
theorem Link.Lost.inBlock_iff {l : Link α} (h : l.Lost) {b : Batch α} (hb : b.isStatement = true)
    (o : Outcome) : (route d .pin l b o).1.InBlock ↔
      l.InBlock ∧ (l.alive = true → o.served.isSome → l.server.session.runs b = none) := by
  rw [InBlock, route_pin_ran l hb o, List.forall_mem_append]
  refine and_congr_right fun _ => ?_
  by_cases ho : l.alive = true ∧ o.served.isSome
  · rw [if_pos ho]
    cases hr : l.server.session.runs b with
    | none => simp
    | some a => simp [h.idle, ho.1, ho.2]
  · rw [if_neg ho]
    simp only [List.not_mem_nil, false_implies, implies_true, true_iff]
    exact fun ha hs => absurd ⟨ha, hs⟩ ho

/-- The call makes the server run its statement, if the session takes it and the worker is
there. -/
def Call.reaches (d : Catalog α) : Call α → Prop
  | .exec _ o => o.served.isSome
  | .query a params o₁ o₂ =>
    (∃ rows, o₁ = .answered (.accept rows)) ∧ d.fits a params ∧ o₂.served.isSome

theorem Link.Held.inBlock_queryVia {l : Link α} (h : l.Held) (a : α) (params : List Param)
    (o₁ o₂ : Outcome) :
    (queryVia ls d .pin l a params o₁ o₂).1.InBlock ↔
      l.InBlock ∧ (l.alive = true → (Call.query a params o₁ o₂).reaches d → l.epoch = 0) := by
  have hepoch := h.epoch
  have first : (route d .pin l (.parse a) o₁).1.InBlock ↔ l.InBlock :=
    h.inBlock_iff (b := .parse a) rfl o₁
  rcases queryVia_cases (d := d) ls .pin l a params o₁ o₂ with
    ⟨-, hl, -⟩ | ⟨response, columns, hok, -, hl⟩
  · simp [hl, first, hepoch]
  · have held : (route d .pin l (.parse a) o₁).1.Held := by
      rcases route_held (d := d) .pin h (b := .parse a) rfl o₁ with
        ⟨v, -, hr⟩ | ⟨⟨e, he⟩, -⟩
      · rw [hr]
        exact h.exec (b := .parse a) rfl v
      · rw [he] at hok
        cases hok
    have second : (route d .pin (route d .pin l (.parse a) o₁).1 .bind o₂).1.InBlock ↔ _ :=
      held.inBlock_iff (b := .bind) rfl o₂
    simp [hl, second, first, hepoch]

theorem Link.Lost.inBlock_queryVia {l : Link α} (h : l.Lost) (a : α) (params : List Param)
    (o₁ o₂ : Outcome) :
    (queryVia ls d .pin l a params o₁ o₂).1.InBlock ↔
      l.InBlock ∧ (l.alive = true → (Call.query a params o₁ o₂).reaches d → l.epoch = 0) := by
  have hidle : ∀ p, l.server.session.block ≠ .failed p := by simp [h.idle]
  have first : (route d .pin l (.parse a) o₁).1.InBlock ↔ l.InBlock := by
    have := h.inBlock_iff (d := d) (b := .parse a) rfl o₁
    simpa [Session.runs] using this
  rcases queryVia_cases (d := d) ls .pin l a params o₁ o₂ with
    ⟨-, hl, hstop⟩ | ⟨response, columns, hok, hq, hl⟩
  · -- The statement is not run, so its batches did not both go through.
    rw [hl, first]
    refine (and_iff_left ?_).symm
    rintro ha ⟨⟨rows, rfl⟩, hfits, -⟩
    have hresponse : (route d .pin l (.parse a) (.answered (.accept rows))).2 =
        .ok (l.server.exec d l.epoch (.parse a) (.accept rows)).2 := by
      simp [route, Conn.roundtrip, ha]
    obtain ⟨e, he⟩ := hstop _ hresponse
    rw [(queryDescribed_parse hidle _ a _ params _).2 ⟨⟨rows, rfl⟩, hfits, rfl⟩] at he
    cases he
  · -- The second batch runs on a live worker with the statement of the first.
    obtain ⟨ha, ⟨rows, rfl⟩, hfits, -, -, hr⟩ := route_parse_described hok hq
    have hlost : (route d .pin l (.parse a) (.answered (.accept rows))).1.Lost :=
      route_lost _ h (b := .parse a) rfl _
    have second := hlost.inBlock_iff (d := d) (b := .bind) rfl o₂
    have hruns : (route d .pin l (.parse a) (.answered (.accept rows))).1.server.session.runs
        (.bind : Batch α) = some a := by
      simp [hr, Session.runs, h.idle]
    have ha' : (route d .pin l (.parse a) (.answered (.accept rows))).1.alive = true := by
      rw [hr]
      exact ha
    rw [hl]
    refine second.trans ?_
    rw [first, hruns]
    refine and_congr_right fun _ => ⟨fun hn _ hreach => ?_, fun hn _ hs => ?_⟩
    · exact absurd (hn ha' hreach.2.2) (by simp)
    · exact absurd (hn ha ⟨⟨rows, rfl⟩, hfits, hs⟩) (h.gone ha)

/-- **Step lemma.** A call keeps every statement in the block exactly if, when its statement is
run, the worker still has the session of `BEGIN`. -/
theorem Transaction.inBlock_call {tx : Transaction α} (h : tx.HeldOrLost) (hvia : tx.via = .pin)
    (c : Call α) :
    (tx.call ls d c).link.InBlock ↔
      tx.link.InBlock ∧ (tx.link.alive = true → c.reaches d → tx.link.epoch = 0) := by
  cases c with
  | exec a o =>
    show (tx.exec ls d a o).1.link.InBlock ↔ _
    rw [exec_link, hvia]
    rcases h with h | h
    · have := h.epoch
      have hb := h.inBlock_iff (d := d) (b := .query a) rfl o
      simp [hb, this]
    · have hb := h.inBlock_iff (d := d) (b := .query a) rfl o
      have hruns : tx.link.server.session.runs (.query a) = some a := by
        simp [Session.runs, h.idle]
      have := h.gone
      simp only [hb, hruns, Call.reaches, reduceCtorEq]
      refine and_congr_right fun _ => ⟨fun hn ha hs => (hn ha hs).elim, fun hn ha hs => ?_⟩
      exact h.gone ha (hn ha hs)
  | query a params o₁ o₂ =>
    show (tx.query ls d a params o₁ o₂).1.link.InBlock ↔ _
    rw [query_link, hvia]
    rcases h with h | h
    · exact h.inBlock_queryVia a params o₁ o₂
    · exact h.inBlock_queryVia a params o₁ o₂

open Runs

/-- **Theorem.** However the calls on a pinned transaction go, its statements all ran in the
block of its `BEGIN` exactly if none was run after the worker had replaced its session. -/
theorem transaction_inBlock_iff {tx t : Transaction α} (hb : tx.Begun ls d)
    (hpin : tx.via = .pin) (cs : List (Call α))
    (hrun : run (Transaction.callStep ls d) tx cs = some t) :
    t.link.InBlock ↔
      Guarded (Transaction.callStep ls d)
        (fun tx c => tx.link.alive = true → c.reaches d → tx.link.epoch = 0) tx cs := by
  obtain ⟨hheld, -, -, hran, -⟩ := hb.spec
  have hI : ∀ (tx : Transaction α) c tx', tx.HeldOrLost ∧ tx.via = .pin →
      Transaction.callStep ls d tx c = some tx' → tx'.HeldOrLost ∧ tx'.via = .pin := by
    rintro tx c _ ⟨h, hvia⟩ ⟨⟩
    exact ⟨h.call c, (tx.call_via c).trans hvia⟩
  have hP : ∀ (tx : Transaction α) c tx', tx.HeldOrLost ∧ tx.via = .pin →
      Transaction.callStep ls d tx c = some tx' → (tx'.link.InBlock ↔ tx.link.InBlock ∧
        (tx.link.alive = true → c.reaches d → tx.link.epoch = 0)) := by
    rintro tx c _ ⟨h, hvia⟩ ⟨⟩
    exact tx.inBlock_call h hvia c
  have start : tx.link.InBlock := by
    intro x hx
    rw [hran] at hx
    cases hx
  rw [run_iff_guarded hI hP ⟨Or.inl hheld, hpin⟩ hrun]
  exact and_iff_right start

/-- A pinned transaction just begun. -/
def Transaction.pinned (α : Type*) : Transaction α where
  via := .pin
  link :=
    { server := { session := ⟨.active 0, [], none⟩, store := [], ran := [], ended := [] }
      epoch := 0
      alive := true }
  done := false
  returned := []

theorem Transaction.pinned_begun (ls : Listeners) (d : Catalog α) : (pinned α).Begun ls d :=
  ⟨.pin, [], none, .answered (.accept []), .answered (.accept []), _, rfl⟩

/-- Two statements and a query, and the socket fails at the last of them. -/
def insertAndSelect : List (Call String) :=
  [.exec "insert into t values (1)" (.answered (.accept [])),
    .query "select * from t" [] (.answered (.accept [])) (.answered (.accept [[some "1"]])),
    .exec "insert into t values (2)" (.lost none "connection reset" true)]

theorem transaction_inBlock_iff_insert :
    ∃ t, run (Transaction.callStep Listeners.none Catalog.plain) (Transaction.pinned String)
        insertAndSelect = some t ∧ t.link.InBlock ∧ t.link.server.ran.length = 2 := by
  refine ⟨_, rfl, (transaction_inBlock_iff (Transaction.pinned_begun _ _) rfl insertAndSelect
    rfl).2 ⟨fun _ _ => rfl, ?_⟩, rfl⟩
  rintro _ ⟨⟩
  refine ⟨fun _ _ => rfl, ?_⟩
  rintro _ ⟨⟩
  exact ⟨fun _ _ => rfl, fun _ _ => trivial⟩

/-- The socket fails at the first statement, and the second runs on the new session. -/
theorem transaction_leaves_block :
    ¬ ∀ (tx t : Transaction String) (cs : List (Call String)),
      tx.Begun Listeners.none Catalog.plain → tx.via = .pin →
      run (Transaction.callStep Listeners.none Catalog.plain) tx cs = some t →
      t.link.InBlock := by
  intro h
  have hblock := h (Transaction.pinned String) _
    [.exec "insert into t values (1)" (.lost none "connection reset" true),
      .exec "insert into t values (2)" (.answered (.accept []))]
    (Transaction.pinned_begun _ _) rfl rfl
  exact absurd (hblock ("insert into t values (2)", .idle) (by decide)) (by decide)

end Pglite
