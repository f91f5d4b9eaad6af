import Pglite.OrderedLog
import Pglite.Query
import Pglite.TransactionProof

/-!
# Does a query run the statement it prepared?

The session has one unnamed statement, so a `Bind` runs what the last `Parse` on its session
prepared. A call runs its own statement exactly if its second round trip goes to the session of
its first, and that session has carried no other round trip in between. Nothing in `query_via`
or in the pool sees to that.

* `Queries.Inv`: what a call has prepared is what its session holds, as long as the session has
  carried nothing else; and if no call has run a statement of another so far, then whatever a
  session holds belongs to a call that is done or to one that has just prepared it there.
* `Queries.step_own_iff`: one step keeps all calls on their own statements exactly if it is not a
  `Bind` that goes astray.
-/

namespace Pglite

open Runs

variable {α : Type*} {ls : Listeners} {d : Catalog α}

/-! ## What a round trip leaves in the session -/

/-- After a `Parse` the session can only run the statement it brought. -/
theorem route_parse_runs {via : Via} {l : Link α} {a x : α} {o : Outcome}
    (ha : (route d via l (.parse a) o).1.alive = true)
    (hx : (route d via l (.parse a) o).1.server.session.runs .bind = some x) : x = a := by
  by_cases hl : l.alive = true
  · cases o with
    | lost ran e reconnects =>
      cases via <;>
        simp [route, Engine.roundtrip, Conn.roundtrip, hl, Server.hangUp, Session.fresh,
          Session.runs] at hx
    | answered v =>
      have hr : (route d via l (.parse a) (.answered v)).1.server =
          (l.server.exec d l.epoch (.parse a) v).1 := by
        cases via <;> simp [route, Engine.roundtrip, Conn.roundtrip, hl]
      rw [hr] at hx
      cases hblock : l.server.session.block with
      | failed p =>
        rw [Server.exec_failed hblock l.epoch (b := .parse a) rfl v] at hx
        simp [Server.raise, Server.ready, Session.runs, hblock, Block.fail] at hx
      | _ =>
        have hactive : ∀ p, l.server.session.block ≠ .failed p := by simp [hblock]
        cases v with
        | accept rows =>
          rw [Server.exec_parse_accept hactive] at hx
          simpa [Server.ready, Session.runs, hblock, eq_comm] using hx
        | reject fields =>
          rw [Server.exec_parse_reject hactive] at hx
          simp [Server.raise, Server.ready, Session.runs, Server.dropUnnamed, hblock,
            Block.fail] at hx
  · cases via <;> simp [route, Engine.roundtrip, Conn.roundtrip, hl] at ha

theorem Session.runs_bind_eq_some {s : Session Nat α} {x : α} :
    s.runs .bind = some x ↔ (∀ p, s.block ≠ .failed p) ∧ s.unnamed = some x := by
  cases hs : s.block <;> simp [Session.runs, hs]

theorem Server.runStmt_unnamed (s : Server Nat α) (a : α) (v : Verdict) (before : List Message) :
    (s.runStmt a v before).1.session.unnamed = s.session.unnamed := by
  cases v with
  | reject fields => rfl
  | accept rows => cases hs : s.session.block <;> simp [runStmt, ready, hs]

/-- A `Bind` keeps the unnamed statement, and a failed block stays failed. -/
theorem Server.exec_bind_session (s : Server Nat α) (o : Nat) (v : Verdict) :
    (s.exec d o .bind v).1.session.unnamed = s.session.unnamed ∧
      ∀ p, s.session.block = .failed p → (s.exec d o .bind v).1.session.block = .failed p := by
  cases hs : s.session.block with
  | failed p =>
    rw [exec_failed hs o (b := .bind) rfl v]
    simp [raise, ready, Block.fail, hs]
  | _ =>
    refine ⟨?_, by simp⟩
    cases hu : s.session.unnamed with
    | none => simp [exec, hs, hu, raise, ready]
    | some a => simp [exec, hs, hu, runStmt_unnamed]

/-- After a `Bind` the session can only run what it could run before, and it has seen the
`Bind`. -/
theorem route_bind_runs {via : Via} {l : Link α} {x : α} {o : Outcome}
    (ha : (route d via l .bind o).1.alive = true)
    (hx : (route d via l .bind o).1.server.session.runs .bind = some x) :
    l.reached via o = true ∧ l.server.session.runs .bind = some x := by
  by_cases hl : l.alive = true
  · cases o with
    | lost ran e reconnects =>
      cases via <;>
        simp [route, Engine.roundtrip, Conn.roundtrip, hl, Server.hangUp, Session.fresh,
          Session.runs] at hx
    | answered v =>
      refine ⟨by simp [Link.reached, hl], ?_⟩
      have hr : (route d via l .bind (.answered v)).1.server =
          (l.server.exec d l.epoch .bind v).1 := by
        cases via <;> simp [route, Engine.roundtrip, Conn.roundtrip, hl]
      obtain ⟨hunnamed, hfailed⟩ := Server.exec_bind_session (d := d) l.server l.epoch v
      rw [hr, Session.runs_bind_eq_some, hunnamed] at hx
      rw [Session.runs_bind_eq_some]
      exact ⟨fun p hp => hx.1 p (hfailed p hp), hx.2⟩
  · cases via <;> simp [route, Engine.roundtrip, Conn.roundtrip, hl] at ha

/-- When the statement is described, the session can run it. -/
theorem route_described_runs {via : Via} {l : Link α} {a : α} {params : List Param}
    {o : Outcome} {response : List Message} {columns : List (String × Nat)}
    (hok : (route d via l (.parse a) o).2 = .ok response)
    (hq : queryDescribed ls params response = .ok columns) :
    columns = d.columns a ∧
      (route d via l (.parse a) o).1.server.session.runs .bind = some a := by
  obtain ⟨-, -, -, hcols, hblock, hr⟩ := route_parse_described hok hq
  rw [hr, Session.runs_bind_eq_some]
  exact ⟨hcols, hblock, rfl⟩

theorem queryRows_columns {columns : List (String × Nat)} {response : List Message}
    {rows : List Row} (h : queryRows ls columns response = .ok rows) :
    ∀ r ∈ rows, r.columns = columns := by
  unfold queryRows at h
  rcases hres : (processResponse ls (response.map .ok)).2 with e | u
  · simp [hres, bind, Except.bind] at h
  · intro r hr
    simp only [hres, bind, Except.bind, pure, Except.pure, Except.ok.injEq] at h
    rw [← h] at hr
    obtain ⟨m, -, hm⟩ := List.mem_filterMap.1 hr
    cases m with
    | dataRow cells =>
      obtain rfl := Option.some.inj hm
      rfl
    | _ => cases hm

/-! ## Whose statement runs -/

namespace Queries

/-- Every `Bind` so far ran the statement of its own call, with its columns. -/
def Own (d : Catalog α) (s : Queries α) : Prop :=
  ∀ b ∈ s.bound, b.ran = some (b.call, b.stmt) ∧ b.columns = d.columns b.stmt

/-- Every row a call returned is decoded with the columns of its statement. -/
def Decoded (d : Catalog α) (s : Queries α) : Prop :=
  ∀ call ∈ s.calls, ∀ rows, call.stage = .returned (.ok rows) →
    ∀ r ∈ rows, r.columns = d.columns call.stmt

/-- Every call ran its own statement and returned rows with the columns of that. -/
def Faithful (d : Catalog α) (s : Queries α) : Prop :=
  s.Own d ∧ s.Decoded d

/-- A `Bind` that reaches the server goes to the session of its `Parse`, and that has carried
nothing in between. -/
def keeps (via : Via) (s : Queries α) : Event α → Bool
  | .bind i c o =>
    match s.calls[i]? with
    | some ⟨_, _, .described c' trip _⟩ =>
      !(s.link c).reached via o || (c' == c && trip == s.trips c)
    | _ => true
  | _ => true

/-- What connects the calls to their sessions. -/
structure Inv (d : Catalog α) (s : Queries α) : Prop where
  decoded : s.Decoded d
  described : ∀ i call c trip columns, s.calls[i]? = some call →
    call.stage = .described c trip columns →
      columns = d.columns call.stmt ∧ trip ≤ s.trips c ∧
        (trip = s.trips c → (s.link c).server.session.runs .bind = some (i, call.stmt))
  owned : s.Own d → ∀ c i a, (s.link c).alive = true →
    (s.link c).server.session.runs .bind = some (i, a) →
      ∃ call, s.calls[i]? = some call ∧ ((∃ res, call.stage = .returned res) ∨
        ∃ columns, call.stage = .described c (s.trips c) columns)

theorem getElem?_set_call {calls : List (QueryCall α)} {i j : Nat} {call call' : QueryCall α}
    (hi : calls[i]? = some call) :
    (calls.set i call')[j]? = if j = i then some call' else calls[j]? := by
  have hlt : i < calls.length := (List.getElem?_eq_some_iff.1 hi).1
  rw [List.getElem?_set]
  by_cases hij : i = j
  · rw [if_pos hij, if_pos hlt, if_pos hij.symm]
  · rw [if_neg hij, if_neg (Ne.symm hij)]

/-- A round trip of the call `i` on the session `c` keeps the invariant, if the call is done
after it or has just prepared its statement there, and the session can run nobody else's. -/
theorem Inv.of_advance {s : Queries α} (h : s.Inv d) {i c : Nat} {l : Link (Nat × α)}
    {call call' : QueryCall α} {bound : List (Bound α)} (hi : s.calls[i]? = some call)
    (hstmt : call'.stmt = call.stmt)
    (hstage : (∃ res, call'.stage = .returned res) ∨ call.stage = .parse ∧
      call'.stage = .described c (s.trips c + 1) (d.columns call.stmt) ∧
        l.server.session.runs .bind = some (i, call.stmt))
    (hrows : ∀ rows, call'.stage = .returned (.ok rows) →
      ∀ r ∈ rows, r.columns = d.columns call.stmt)
    (hbound : ∀ b ∈ s.bound, b ∈ bound)
    (hmine : (∀ b ∈ bound, b.ran = some (b.call, b.stmt) ∧ b.columns = d.columns b.stmt) →
      ∀ j a, l.alive = true → l.server.session.runs .bind = some (j, a) → j = i) :
    Inv d { s.advance i c l call' with bound := bound } where
  decoded := by
    intro k hk rows hrows' r hr
    rcases List.mem_or_eq_of_mem_set hk with hk | rfl
    · exact h.decoded k hk rows hrows' r hr
    · rw [hstmt]
      exact hrows rows hrows' r hr
  described := by
    intro j k c' trip columns hj hk
    simp only [advance] at hj ⊢
    rw [getElem?_set_call hi] at hj
    by_cases hji : j = i
    · subst hji
      rw [if_pos rfl] at hj
      obtain rfl := Option.some.inj hj
      rcases hstage with ⟨res, hres⟩ | ⟨-, hdescribed, hruns⟩
      · rw [hres] at hk
        cases hk
      · rw [hdescribed] at hk
        cases hk
        simp only [Function.update_self, hstmt]
        exact ⟨trivial, Nat.le_refl _, fun _ => hruns⟩
    · rw [if_neg hji] at hj
      obtain ⟨hcols, hle, hruns⟩ := h.described j k c' trip columns hj hk
      refine ⟨hcols, ?_⟩
      by_cases hc : c' = c
      · subst hc
        simp only [Function.update_self]
        exact ⟨by omega, fun htrip => by omega⟩
      · rw [Function.update_of_ne hc, Function.update_of_ne hc]
        exact ⟨hle, hruns⟩
  owned := by
    intro hown c' j a halive hruns
    simp only [advance] at halive hruns ⊢
    rw [getElem?_set_call hi]
    by_cases hc : c' = c
    · subst hc
      rw [Function.update_self] at halive hruns
      obtain rfl := hmine hown j a halive hruns
      rw [if_pos rfl]
      refine ⟨call', rfl, ?_⟩
      rcases hstage with hres | ⟨-, hdescribed, -⟩
      · exact Or.inl hres
      · right
        rw [Function.update_self]
        exact ⟨_, hdescribed⟩
    · rw [Function.update_of_ne hc] at halive hruns ⊢
      have howned := h.owned (fun b hb => hown b (hbound b hb)) c' j a halive hruns
      obtain ⟨k, hk, hkstage⟩ := howned
      by_cases hji : j = i
      · subst hji
        obtain rfl := Option.some.inj (hk.symm.trans hi)
        rw [if_pos rfl]
        refine ⟨call', rfl, ?_⟩
        rcases hstage with hres | ⟨hparse, -⟩
        · exact Or.inl hres
        · rw [hparse] at hkstage
          rcases hkstage with ⟨res, hres⟩ | ⟨columns, hcolumns⟩
          · cases hres
          · cases hcolumns
      · rw [if_neg hji]
        exact ⟨k, hk, hkstage⟩

/-! ## Steps -/

theorem step_start {s : Queries α} (h : s.Inv d) (a : α) (params : List Param) :
    Inv d { s with calls := s.calls ++ [⟨a, params, .parse⟩] } where
  decoded := by
    intro k hk rows hrows
    rcases List.mem_append.1 hk with hk | hk
    · exact h.decoded k hk rows hrows
    · rw [List.mem_singleton.1 hk] at hrows
      cases hrows
  described := by
    intro i k c trip columns hi hk
    rcases OrderedLog.getElem?_append_single hi with hi | ⟨-, rfl⟩
    · exact h.described i k c trip columns hi hk
    · cases hk
  owned := by
    intro hown c i b halive hruns
    obtain ⟨k, hk, hstage⟩ := h.owned hown c i b halive hruns
    have hlt : i < s.calls.length := (List.getElem?_eq_some_iff.1 hk).1
    exact ⟨k, by rw [List.getElem?_append_left hlt]; exact hk, hstage⟩

/-- The stage a call reaches with the answer to its first batch. -/
theorem step_parse {via : Via} {s : Queries α} (h : s.Inv d) {i c : Nat} {o : Outcome} {a : α}
    {params : List Param} (hi : s.calls[i]? = some ⟨a, params, .parse⟩) {stage : Stage}
    (hstage : stage = match (route d.tag via (s.link c) (.parse (i, a)) o).2 with
      | .error e => .returned (.error e)
      | .ok response =>
        match queryDescribed ls params response with
        | .error e => .returned (.error e)
        | .ok columns => .described c (s.trips c + 1) columns) :
    Inv d (s.advance i c (route d.tag via (s.link c) (.parse (i, a)) o).1
      ⟨a, params, stage⟩) := by
  have hmine : ∀ j b,
      (route d.tag via (s.link c) (.parse (i, a)) o).1.alive = true →
      (route d.tag via (s.link c) (.parse (i, a)) o).1.server.session.runs .bind = some (j, b) →
      j = i := by
    intro j b halive hruns
    have := route_parse_runs halive hruns
    exact congrArg Prod.fst this
  rcases hr : (route d.tag via (s.link c) (.parse (i, a)) o).2 with e | response
  · simp only [hr] at hstage
    refine h.of_advance hi rfl (Or.inl ⟨_, hstage⟩) ?_ (fun b hb => hb) (fun _ => hmine)
    intro rows hrows
    rw [hstage] at hrows
    cases hrows
  · rcases hq : queryDescribed ls params response with e | columns
    · simp only [hr, hq] at hstage
      refine h.of_advance hi rfl (Or.inl ⟨_, hstage⟩) ?_ (fun b hb => hb) (fun _ => hmine)
      intro rows hrows
      rw [hstage] at hrows
      cases hrows
    · simp only [hr, hq] at hstage
      obtain ⟨hcols, hruns⟩ := route_described_runs hr hq
      have hcols' : columns = d.columns a := hcols
      rw [hcols'] at hstage
      refine h.of_advance hi rfl (Or.inr ⟨rfl, hstage, hruns⟩) ?_ (fun b hb => hb) (fun _ => hmine)
      intro rows hrows
      rw [hstage] at hrows
      cases hrows

/-- The answer to its second batch ends a call. -/
theorem step_bind {via : Via} {s : Queries α} (h : s.Inv d) {i c : Nat} {o : Outcome} {a : α}
    {params : List Param} {c' trip : Nat} {columns : List (String × Nat)}
    (hi : s.calls[i]? = some ⟨a, params, .described c' trip columns⟩)
    {res : Except Error (List Row)}
    (hrows : ∀ rows, res = .ok rows → ∀ r ∈ rows, r.columns = columns) {bound : List (Bound α)}
    (hbound : ∀ b ∈ s.bound, b ∈ bound)
    (hran : (s.link c).reached via o = true →
      ∃ b ∈ bound, b.call = i ∧ b.ran = (s.link c).server.session.runs .bind) :
    Inv d { s.advance i c (route d.tag via (s.link c) .bind o).1 ⟨a, params, .returned res⟩ with
      bound := bound } := by
  obtain ⟨hcols, -, -⟩ := h.described i _ c' trip columns hi rfl
  refine h.of_advance hi rfl (Or.inl ⟨res, rfl⟩) ?_ hbound ?_
  · intro rows hstage r hr
    have hres : res = .ok rows := by simpa using hstage
    rw [hrows rows hres r hr]
    exact hcols
  · -- What the session can still run is what this call has just run.
    intro hown j b halive hruns
    obtain ⟨hreached, hbefore⟩ := route_bind_runs halive hruns
    obtain ⟨x, hx, hcall, hxran⟩ := hran hreached
    have hxown := (hown x hx).1
    rw [hxran, hbefore, hcall] at hxown
    exact congrArg Prod.fst (Option.some.inj hxown)

/-- A `Bind` runs the statement of its own call exactly if nothing came in between. -/
theorem bind_own_iff {via : Via} {s : Queries α} (h : s.Inv d) (hown : s.Own d) {i c : Nat}
    {o : Outcome} {a : α} {params : List Param} {c' trip : Nat} {columns : List (String × Nat)}
    (hi : s.calls[i]? = some ⟨a, params, .described c' trip columns⟩)
    (hreached : (s.link c).reached via o = true) :
    (s.link c).server.session.runs .bind = some (i, a) ↔ c' = c ∧ trip = s.trips c := by
  have halive : (s.link c).alive = true := by
    unfold Link.reached at hreached
    exact (Bool.and_eq_true_iff.1 hreached).1
  constructor
  · intro hruns
    obtain ⟨k, hk, hstage⟩ := h.owned hown c i a halive hruns
    obtain rfl := Option.some.inj (hk.symm.trans hi)
    rcases hstage with ⟨res, hres⟩ | ⟨columns', hdescribed⟩
    · cases hres
    · cases hdescribed
      exact ⟨rfl, rfl⟩
  · rintro ⟨rfl, htrip⟩
    exact (h.described i _ c' trip columns hi rfl).2.2 htrip

/-- **Step lemma.** A step keeps the invariant, and it keeps every call on its own statement
exactly if it is not a `Bind` that goes astray. -/
theorem step_own_iff {via : Via} {s s' : Queries α} {e : Event α} (h : s.Inv d)
    (hstep : s.step ls d via e = some s') :
    s'.Inv d ∧ (s'.Own d ↔ s.Own d ∧ s.keeps via e = true) := by
  cases e with
  | start a params =>
    obtain rfl := Option.some.inj hstep
    exact ⟨step_start h a params, by simp [Own, keeps]⟩
  | parse i c o =>
    simp only [step] at hstep
    split at hstep
    case h_2 => cases hstep
    case h_1 a params hi =>
      obtain rfl := Option.some.inj hstep
      exact ⟨step_parse h hi rfl, by simp [Own, keeps, advance]⟩
  | bind i c o =>
    simp only [step] at hstep
    split at hstep
    case h_2 => cases hstep
    case h_1 a params c' trip columns hi =>
      obtain ⟨hcols, -, -⟩ := h.described i _ c' trip columns hi rfl
      have hrows : ∀ rows, (match (route d.tag via (s.link c) .bind o).2 with
          | .error e => .error e
          | .ok response => queryRows ls columns response) = Except.ok rows →
          ∀ r ∈ rows, r.columns = columns := by
        intro rows hrows
        split at hrows
        · cases hrows
        · exact queryRows_columns hrows
      by_cases hreached : (s.link c).reached via o = true
      · rw [if_pos hreached] at hstep
        obtain rfl := Option.some.inj hstep
        refine ⟨step_bind h hi hrows (fun b hb => List.mem_append_left _ hb)
          fun _ => ⟨_, List.mem_append_right _ List.mem_cons_self, rfl, rfl⟩, ?_⟩
        rw [Own, List.forall_mem_append, keeps, hi]
        refine and_congr_right fun hown => ?_
        have hiff := bind_own_iff h hown hi hreached
        rw [List.forall_mem_singleton]
        simp only [hreached, Bool.not_true, Bool.false_or, Bool.and_eq_true, beq_iff_eq]
        rw [hiff]
        exact and_iff_left hcols
      · rw [if_neg hreached] at hstep
        obtain rfl := Option.some.inj hstep
        refine ⟨step_bind h hi hrows (fun b hb => hb) fun hr => absurd hr hreached, ?_⟩
        simp [Own, keeps, advance, hi, hreached]

/-! ## Starts -/

/-- Calls that have not begun, on sessions that hold no statement. -/
theorem inv_start {link : Nat → Link (Nat × α)}
    (h : ∀ c, (link c).server.session.unnamed = none) :
    Inv d ⟨link, fun _ => 0, [], []⟩ where
  decoded := by simp [Decoded]
  described := by simp
  owned := by
    intro _ c i a _ hruns
    rw [Session.runs_bind_eq_some, h c] at hruns
    cases hruns.2

theorem own_start (link : Nat → Link (Nat × α)) : Own d ⟨link, fun _ => 0, [], []⟩ := by
  simp [Own]

/-- Concurrent calls on one transaction. -/
theorem transaction_faithful_iff {tx : Transaction (Nat × α)} (hb : tx.Begun ls d.tag) {via : Via}
    {es : List (Event α)} {s : Queries α}
    (hrun : run (stepTransaction ls d via) (ofTransaction tx) es = some s) :
    s.Faithful d ↔
      Guarded (stepTransaction ls d via) (fun s e => s.keeps via e = true) (ofTransaction tx) es := by
  obtain ⟨-, -, hunnamed, -⟩ := hb.spec
  have hstart : (ofTransaction tx).Inv d := inv_start fun _ => hunnamed
  have hstep : ∀ (s : Queries α) e s', s.Inv d → stepTransaction ls d via s e = some s' →
      s'.Inv d ∧ (s'.Own d ↔ s.Own d ∧ s.keeps via e = true) := by
    intro s e s' h hs
    unfold stepTransaction at hs
    split at hs
    · exact step_own_iff h hs
    · cases hs
  have hI : ∀ (s : Queries α) e s', s.Inv d → stepTransaction ls d via s e = some s' → s'.Inv d :=
    fun s e s' h hs => (hstep s e s' h hs).1
  have hs : s.Inv d := run_invariant' hI hstart hrun
  rw [Faithful, and_iff_left hs.decoded,
    run_iff_guarded hI (fun s e s' h hs => (hstep s e s' h hs).2) hstart hrun]
  exact and_iff_right (own_start _)

end Queries

/-! ## In multi-process mode -/

namespace PooledQueries

/-- The event does not send a `Bind` astray. -/
def keeps (s : PooledQueries α) (e : Event α) : Bool :=
  match s.queryEvent e with
  | some q => s.queries.keeps .pin q
  | none => true

/-- A step of the pool and the calls is one of the calls, or none. -/
theorem step_queries {cfg : PoolConfig} {s s' : PooledQueries α} {e : Event α}
    (h : s.step cfg ls d e = some s') :
    (∃ q, s.queryEvent e = some q ∧ s.queries.step ls d .pin q = some s'.queries) ∨
      (s.queryEvent e = none ∧ s'.queries = s.queries) := by
  unfold step at h
  split at h
  case h_1 => cases h
  case h_2 pool hpool =>
    split at h
    case h_1 hq =>
      obtain rfl := Option.some.inj h
      exact Or.inr ⟨hq, rfl⟩
    case h_2 q hq =>
      obtain ⟨queries, hqueries, rfl⟩ := Option.map_eq_some_iff.1 h
      exact Or.inl ⟨q, hq, hqueries⟩

theorem step_own_iff {cfg : PoolConfig} {s s' : PooledQueries α} {e : Event α}
    (h : s.queries.Inv d) (hstep : s.step cfg ls d e = some s') :
    s'.queries.Inv d ∧ (s'.queries.Own d ↔ s.queries.Own d ∧ s.keeps e = true) := by
  rcases step_queries hstep with ⟨q, hq, hqueries⟩ | ⟨hq, hsame⟩
  · have := Queries.step_own_iff h hqueries
    simpa only [keeps, hq] using this
  · rw [hsame]
    simp [keeps, hq, h]

/-- Concurrent calls of `PGlite::query` in multi-process mode. -/
theorem faithful_iff {cfg : PoolConfig} {now : Nat} {es : List (Event α)} {s : PooledQueries α}
    (hrun : run (step cfg ls d) (start α cfg now) es = some s) :
    s.queries.Faithful d ↔
      Guarded (step cfg ls d) (fun s e => s.keeps e = true) (start α cfg now) es := by
  have hstart : (start α cfg now).queries.Inv d := Queries.inv_start fun _ => rfl
  have hI : ∀ (s : PooledQueries α) e s', s.queries.Inv d → step cfg ls d s e = some s' →
      s'.queries.Inv d := fun s e s' h hs => (step_own_iff h hs).1
  have hs : s.queries.Inv d := run_invariant' hI hstart hrun
  rw [Queries.Faithful, and_iff_left hs.decoded,
    run_iff_guarded hI (fun s e s' h hs => (step_own_iff h hs).2) hstart hrun]
  exact and_iff_right (Queries.own_start _)

end PooledQueries

/-- **Theorem.** Concurrent calls of `query`, over the pool or on one transaction, all run the
statements they prepared exactly if each `Bind` that reaches a server goes to the session of its
call's `Parse` and that session has carried nothing in between. -/
theorem query_faithful_iff (ls : Listeners) (d : Catalog α) :
    (∀ (cfg : PoolConfig) (now : Nat) (es : List (PooledQueries.Event α)) (s : PooledQueries α),
      run (PooledQueries.step cfg ls d) (PooledQueries.start α cfg now) es = some s →
        (s.queries.Faithful d ↔
          Guarded (PooledQueries.step cfg ls d) (fun s e => s.keeps e = true)
            (PooledQueries.start α cfg now) es)) ∧
    (∀ (tx : Transaction (Nat × α)) (es : List (Queries.Event α)) (s : Queries α),
      tx.Begun ls d.tag →
      run (Queries.stepTransaction ls d tx.via) (Queries.ofTransaction tx) es = some s →
        (s.Faithful d ↔
          Guarded (Queries.stepTransaction ls d tx.via) (fun s e => s.keeps tx.via e = true)
            (Queries.ofTransaction tx) es)) :=
  ⟨fun _ _ _ _ hrun => PooledQueries.faithful_iff hrun,
    fun _ _ _ hb hrun => Queries.transaction_faithful_iff hb hrun⟩

/-- Two queries that come in between each other, each on a connection of its own. -/
def twoOnPool : List (PooledQueries.Event String) :=
  [.query "select 1" [], .query "select 2" [], .pool (.lock 0), .pool (.lock 1),
    .pool (.created 1 true 0), .finish 0 1 (.answered (.accept [])), .pool (.putBack 0), .again 0,
    .pool (.lock 2), .finish 1 2 (.answered (.accept [])), .pool (.putBack 1), .again 1,
    .pool (.lock 3), .finish 2 3 (.answered (.accept [[some "1"]])),
    .finish 3 3 (.answered (.accept [[some "2"]]))]

/-- One query after the other. -/
def twoOnTransaction : List (Queries.Event String) :=
  [.start "select 1" [], .parse 0 0 (.answered (.accept [])),
    .bind 0 0 (.answered (.accept [[some "1"]])), .start "select 2" [],
    .parse 1 0 (.answered (.accept [])), .bind 1 0 (.answered (.accept [[some "2"]]))]

theorem query_faithful_iff_select :
    (∃ s, run (PooledQueries.step ⟨1, 2, 60⟩ Listeners.none Catalog.plain)
        (PooledQueries.start String ⟨1, 2, 60⟩ 0) twoOnPool = some s ∧
      s.queries.Faithful Catalog.plain ∧ s.queries.calls.length = 2) ∧
    ∃ s, run (Queries.stepTransaction Listeners.none Catalog.plain .pin)
        (Queries.ofTransaction (Transaction.pinned (Nat × String))) twoOnTransaction = some s ∧
      s.Faithful Catalog.plain ∧ s.calls.length = 2 :=
  ⟨⟨_, rfl, ((query_faithful_iff Listeners.none Catalog.plain).1 ⟨1, 2, 60⟩ 0 twoOnPool _ rfl).2
      (by decide), rfl⟩,
    ⟨_, rfl, ((query_faithful_iff Listeners.none Catalog.plain).2
      (Transaction.pinned (Nat × String)) twoOnTransaction _
      (Transaction.pinned_begun _ _) rfl).2 (by decide), rfl⟩⟩

/-- With one connection, the second of two queries gets it between the two batches of the first;
on a transaction the second just comes in between. Either way the first runs the second's
statement. -/
theorem query_runs_another :
    (¬ ∀ (cfg : PoolConfig) (now : Nat) (es : List (PooledQueries.Event String))
      (s : PooledQueries String),
      run (PooledQueries.step cfg Listeners.none Catalog.plain) (PooledQueries.start String cfg now)
        es = some s → s.queries.Faithful Catalog.plain) ∧
    ¬ ∀ (tx : Transaction (Nat × String)) (es : List (Queries.Event String)) (s : Queries String),
      tx.Begun Listeners.none Catalog.plain.tag →
      run (Queries.stepTransaction Listeners.none Catalog.plain tx.via) (Queries.ofTransaction tx)
        es = some s → s.Faithful Catalog.plain := by
  constructor
  · intro h
    have hown := (h ⟨1, 1, 60⟩ 0
      [.query "select 1" [], .query "select 2" [], .pool (.lock 0), .pool (.lock 1),
        .finish 0 1 (.answered (.accept [])), .pool (.putBack 0), .again 0, .pool (.lock 2),
        .pool (.receive 1), .finish 1 2 (.answered (.accept [])), .pool (.putBack 1),
        .pool (.receive 2), .finish 2 3 (.answered (.accept [[some "2"]]))] _ rfl).1
    have hran := (hown ⟨0, "select 1", some (1, "select 2"), []⟩ List.mem_cons_self).1
    exact absurd hran (by decide)
  · intro h
    have hown := (h (Transaction.pinned (Nat × String))
      [.start "select 1" [], .start "select 2" [], .parse 0 0 (.answered (.accept [])),
        .parse 1 0 (.answered (.accept [])), .bind 0 0 (.answered (.accept [[some "2"]]))] _
      (Transaction.pinned_begun _ _) rfl).1
    have hran := (hown ⟨0, "select 1", some (1, "select 2"), []⟩ List.mem_cons_self).1
    exact absurd hran (by decide)

end Pglite
