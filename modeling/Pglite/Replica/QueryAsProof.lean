import Mathlib.Data.List.Basic
import Pglite.Replica.QueryAs
import Pglite.Runs

/-!
# `query_as` leaves no trace

While the call holds a line its session is opened from the plain one, and rolls back to it; what
is in the queue when the call lets go of the line still ends with the `ROLLBACK` that leads there,
and statements of other calls come before or after (`Owes`, `Fits`). So other calls find the plain
session. The caller's SQL is sent only after both settings have been answered with `Ok`
(`QueryAs.Forced`).

This needs that `BEGIN` finds no open block, that nobody abandons a `BEGIN` without a `ROLLBACK`
to follow, and that the server takes the role and the claims as they are given.
-/

namespace Pglite.Replica

open Runs
open Settings (Block)
open Settings.Session

/-! ## The settings of the call -/

/-- The statement's setting is in force. -/
def AsStmt.InForce (cur : Settings) : AsStmt → Prop
  | .claims c => cur "request.jwt.claims" = some c
  | .role r => cur "role" = some r
  | .sql _ _ => True

/-- The role and the claims, if any, are in force. -/
def QueryAs.InForce (q : QueryAs) (cur : Settings) : Prop :=
  cur "role" = some q.role ∧ ∀ c, q.claims = some c → cur "request.jwt.claims" = some c

/-- The settings of the script are in force but for those still to be made. -/
def QueryAs.Forced (q : QueryAs) (rest : List AsBatch) (cur : Settings) : Prop :=
  ∀ stmt ∈ q.stmts, .bind stmt ∉ rest → stmt.InForce cur

theorem QueryAs.forced_script (q : QueryAs) (cur : Settings) : q.Forced q.script cur :=
  fun stmt hstmt hnot => absurd (List.mem_flatMap.2 ⟨stmt, hstmt, by simp⟩) hnot

theorem QueryAs.mem_stmts {q : QueryAs} {stmt : AsStmt} (h : stmt ∈ q.stmts) :
    (∃ c, q.claims = some c ∧ stmt = .claims c) ∨ stmt = .role q.role ∨
      stmt = .sql q.text q.sql := by
  rcases List.mem_append.1 h with h | h
  · obtain ⟨c, hc, rfl⟩ := Option.map_eq_some_iff.1 (Option.mem_toList.1 h)
    exact .inl ⟨c, hc, rfl⟩
  · exact .inr (List.mem_pair.1 h)

/-- The caller's SQL is last. -/
theorem QueryAs.last_of_isSql {q : QueryAs} {b : AsBatch} {rest : List AsBatch}
    (hsuffix : b :: rest <:+ q.script) (hb : b.isSql = true) :
    b :: rest <:+ [.parse (.sql q.text q.sql), .bind (.sql q.text q.sql)] := by
  cases hclaims : q.claims with
  | none =>
    have hscript : q.script = [.parse (.role q.role), .bind (.role q.role),
        .parse (.sql q.text q.sql), .bind (.sql q.text q.sql)] := by
      simp [QueryAs.script, QueryAs.stmts, hclaims]
    rw [hscript, List.suffix_cons_iff, List.suffix_cons_iff] at hsuffix
    rcases hsuffix with h | h | h
    · cases h
      cases hb
    · cases h
      cases hb
    · exact h
  | some c =>
    have hscript : q.script = [.parse (.claims c), .bind (.claims c), .parse (.role q.role),
        .bind (.role q.role), .parse (.sql q.text q.sql), .bind (.sql q.text q.sql)] := by
      simp [QueryAs.script, QueryAs.stmts, hclaims]
    rw [hscript, List.suffix_cons_iff, List.suffix_cons_iff, List.suffix_cons_iff,
      List.suffix_cons_iff] at hsuffix
    rcases hsuffix with h | h | h | h | h
    · cases h
      cases hb
    · cases h
      cases hb
    · cases h
      cases hb
    · cases h
      cases hb
    · exact h

theorem QueryAs.inForce_of_isSql {q : QueryAs} {b : AsBatch} {rest : List AsBatch}
    {cur : Settings} (hsuffix : b :: rest <:+ q.script) (hb : b.isSql = true)
    (h : q.Forced (b :: rest) cur) : q.InForce cur := by
  have hrest : ∀ stmt, .bind stmt ∈ b :: rest → stmt = .sql q.text q.sql := by
    intro stmt hmem
    have hlast := (QueryAs.last_of_isSql hsuffix hb).subset hmem
    rcases List.mem_pair.1 hlast with h | h
    · cases h
    · exact AsBatch.bind.inj h
  constructor
  · exact h (.role q.role) (by simp [QueryAs.stmts]) fun hmem => by cases hrest _ hmem
  · intro c hc
    exact h (.claims c) (by simp [QueryAs.stmts, hc]) fun hmem => by cases hrest _ hmem

/-! ## The session under the call's batches -/

/-- The server takes the statement as it is given. -/
def AsStmt.Plain (cur : Settings) : AsStmt → Prop
  | .claims c => ¬ (cur "standard_conforming_strings" = some "off" ∧ '\\' ∈ c.toList)
  | .role r => r ≠ "none" ∧ r.utf8ByteSize ≤ 63
  | .sql _ _ => True

/-- `BEGIN` finds no open block, and the settings are taken as they are given. -/
def AsBatch.Fine (s : Settings.Session) : AsBatch → Prop
  | .begin => s.block = none
  | .bind stmt => stmt.Plain s.cur
  | _ => True

section Session

variable {cl : Cluster} {q : QueryAs} {s g : Settings.Session} {b : AsBatch}
  {rest : List AsBatch} {accept : Bool}

/-- A batch between `BEGIN` and `ROLLBACK`. -/
def AsBatch.isStmt : AsBatch → Bool
  | .parse _ => true
  | .bind _ => true
  | _ => false

theorem QueryAs.isStmt_of_suffix (hsuffix : b :: rest <:+ q.script) : b.isStmt = true := by
  have hmem : b ∈ q.script := hsuffix.subset List.mem_cons_self
  obtain ⟨stmt, -, hb⟩ := List.mem_flatMap.1 hmem
  rcases List.mem_pair.1 hb with rfl | rfl <;> rfl

theorem Sql.exec_rollsBackTo (h : OpenedFrom s g) (sql : Sql) : RollsBackTo (sql.exec s) g := by
  have hg : RollsBackTo g g := rollsBackTo_self h.1
  have hchain : RollsBackTo g.begin g := (begin_openedFrom h.1).rollsBackTo
  cases sql with
  | begin =>
    rw [Sql.exec, h.begin_eq]
    exact h.rollsBackTo
  | commit chain =>
    rw [Sql.exec, h.commit_eq]
    split_ifs
    · exact hchain
    · exact hg
  | rollback chain =>
    rw [Sql.exec, h.rollsBackTo.2]
    split_ifs
    · exact hchain
    · exact hg
  | plain f => exact h.change_rollsBackTo f

theorem AsStmt.exec_rollsBackTo (h : OpenedFrom s g) (stmt : AsStmt) :
    RollsBackTo (stmt.exec cl s) g := by
  cases stmt with
  | claims c => exact (h.setLocal _ _).rollsBackTo
  | role r => exact (h.setLocal _ _).rollsBackTo
  | sql t action => exact Sql.exec_rollsBackTo h action

/-- Whatever a statement does in the block, the session rolls back to the plain one. -/
theorem AsBatch.exec_rollsBackTo (h : OpenedFrom s g) (hb : b.isStmt = true) :
    RollsBackTo (b.exec cl s accept).1 g := by
  cases b with
  | begin => cases hb
  | rollback => cases hb
  | parse stmt =>
    rw [AsBatch.exec]
    split_ifs
    · exact h.fail.rollsBackTo
    · exact h.rollsBackTo
  | bind stmt =>
    rw [AsBatch.exec]
    split_ifs
    · exact h.fail.rollsBackTo
    · exact stmt.exec_rollsBackTo h

/-- After a setting it is in force, and so are those that were. -/
theorem QueryAs.Forced.setLocal {name value : String} {stmt : AsStmt} (hopen : OpenedFrom s g)
    (h : q.Forced (.bind stmt :: rest) s.cur)
    (hstmt : stmt.InForce (Function.update s.cur name (some value)))
    (hother : ∀ stmt' ∈ q.stmts, stmt' ≠ stmt → stmt'.InForce s.cur →
      stmt'.InForce (Function.update s.cur name (some value))) :
    q.Forced rest (s.setLocal name (some value)).cur := by
  intro stmt' hmem hnot
  rw [hopen.setLocal_cur]
  by_cases heq : stmt' = stmt
  · exact heq ▸ hstmt
  · refine hother stmt' hmem heq (h stmt' hmem fun hcons => ?_)
    rcases List.mem_cons.1 hcons with hb | hrest
    · exact heq (AsBatch.bind.inj hb)
    · exact hnot hrest

/-- After a setting that is answered with `Ok` the session is still in its block, with one more
setting in force. -/
theorem AsBatch.exec_ok (hopen : OpenedFrom s g) (hsuffix : b :: rest <:+ q.script)
    (hforced : q.Forced (b :: rest) s.cur) (hfine : b.Fine s) (hrest : rest ≠ [])
    (hok : (b.exec cl s accept).2 = true) :
    OpenedFrom (b.exec cl s accept).1 g ∧ q.Forced rest (b.exec cl s accept).1.cur := by
  have hmem : b ∈ q.script := hsuffix.subset List.mem_cons_self
  obtain ⟨stmt, hstmt, hb⟩ := List.mem_flatMap.1 hmem
  rcases List.mem_pair.1 hb with rfl | rfl
  · rw [AsBatch.exec] at hok ⊢
    split_ifs at hok ⊢
    refine ⟨hopen, fun stmt' hstmt' hnot => hforced stmt' hstmt' fun hcons => ?_⟩
    rcases List.mem_cons.1 hcons with hb | hrest
    · cases hb
    · exact hnot hrest
  · rw [AsBatch.exec] at hok ⊢
    split_ifs at hok ⊢
    rcases QueryAs.mem_stmts hstmt with ⟨c, hc, rfl⟩ | rfl | rfl
    · refine ⟨hopen.setLocal _ _, hforced.setLocal hopen ?_ fun stmt' hstmt' hne hforce => ?_⟩
      · show Function.update s.cur _ _ _ = some c
        rw [Function.update_self, Cluster.literal, if_neg hfine]
      · rcases QueryAs.mem_stmts hstmt' with ⟨c', hc', rfl⟩ | rfl | rfl
        · exact absurd (congrArg AsStmt.claims (Option.some.inj (hc'.symm.trans hc))) hne
        · exact (Function.update_of_ne (by decide) _ _).trans hforce
        · trivial
    · have hrole : cl.role q.role = some q.role := by
        rw [Cluster.role, if_neg hfine.1, if_pos hfine.2]
      show OpenedFrom (s.setLocal "role" (cl.role q.role)) g ∧
        q.Forced rest (s.setLocal "role" (cl.role q.role)).cur
      rw [hrole]
      refine ⟨hopen.setLocal _ _, hforced.setLocal hopen ?_ fun stmt' hstmt' hne hforce => ?_⟩
      · exact Function.update_self _ _ _
      · rcases QueryAs.mem_stmts hstmt' with ⟨c', hc', rfl⟩ | rfl | rfl
        · exact (Function.update_of_ne (by decide) _ _).trans hforce
        · exact absurd rfl hne
        · trivial
    · -- Nothing comes after the caller's SQL.
      have hlast := QueryAs.last_of_isSql hsuffix rfl
      rw [List.suffix_cons_iff, List.suffix_cons_iff, List.suffix_nil] at hlast
      rcases hlast with h | h | h
      · cases h
      · exact absurd (List.cons.inj h).2 hrest
      · cases h

end Session

/-! ## What is still to be run -/

/-- What the call has in the queue of a line that it has let go of. The session is the plain one
once it has been run. -/
inductive Owes (q : QueryAs) : List AsBatch → Settings.Session → Settings.Session → Prop
  | nothing {s : Settings.Session} : Owes q [] s s
  | begin {s : Settings.Session} : Owes q [.begin, .rollback] s s
  | stmt {b : AsBatch} {rest : List AsBatch} {s g : Settings.Session}
      (hsuffix : b :: rest <:+ q.script) (hopen : OpenedFrom s g)
      (hforced : q.Forced (b :: rest) s.cur) : Owes q [b, .rollback] s g
  | rollback {s g : Settings.Session} (hback : RollsBackTo s g) : Owes q [.rollback] s g

/-- Where the call is, what it has in the queue, and what its session is to the plain one. -/
inductive AsPhase (q : QueryAs) :
    AsPc → Option Bool → List AsBatch → Settings.Session → Settings.Session → Prop
  | beginning {s : Settings.Session} : AsPhase q .begin none [.begin] s s
  | begun {r : Bool} {s g : Settings.Session} (hback : RollsBackTo s g)
      (hopen : r = true → OpenedFrom s g) : AsPhase q .begin (some r) [] s g
  | running {b : AsBatch} {rest : List AsBatch} {s g : Settings.Session}
      (hsuffix : b :: rest <:+ q.script) (hopen : OpenedFrom s g)
      (hforced : q.Forced (b :: rest) s.cur) : AsPhase q (.running b rest) none [b] s g
  | ran {b : AsBatch} {rest : List AsBatch} {r : Bool} {s g : Settings.Session}
      (hsuffix : b :: rest <:+ q.script) (hback : RollsBackTo s g)
      (hopen : r = true → rest ≠ [] → OpenedFrom s g ∧ q.Forced rest s.cur) :
      AsPhase q (.running b rest) (some r) [] s g
  | ending {s g : Settings.Session} (hback : RollsBackTo s g) :
      AsPhase q .ending none [.rollback] s g
  | ended {r : Bool} {s : Settings.Session} : AsPhase q .ending (some r) [] s s
  | done {reply : Option Bool} {own : List AsBatch} {s g : Settings.Session}
      (howes : Owes q own s g) : AsPhase q .done reply own s g

/-- The call holds its line. -/
def AsPc.holds : AsPc → Bool
  | .begin => true
  | .running _ _ => true
  | .ending => true
  | _ => false

section AsPhase

variable {q : QueryAs} {pc : AsPc} {reply : Option Bool} {b : AsBatch} {own : List AsBatch}
  {s g : Settings.Session}

theorem begin_exec (hs : s.block = none) (cl : Cluster) (accept : Bool) :
    RollsBackTo (AsBatch.begin.exec cl s accept).1 s ∧
      ((AsBatch.begin.exec cl s accept).2 = true →
        OpenedFrom (AsBatch.begin.exec cl s accept).1 s) := by
  have hopen := begin_openedFrom hs
  have hfail : s.fail = s := by
    unfold Settings.Session.fail
    rw [hs]
    exact (eq_of_block_none hs rfl).symm
  rw [AsBatch.exec]
  split_ifs
  · rw [hfail]
    exact ⟨rollsBackTo_self hs, fun h => absurd h (by decide)⟩
  · exact ⟨hopen.rollsBackTo, fun _ => hopen⟩

/-- The line runs a batch of the call. -/
theorem AsPhase.exec (h : AsPhase q pc reply (b :: own) s g) (hfine : b.Fine s) (cl : Cluster)
    (accept understood : Bool) :
    (b.isSql = true → q.InForce s.cur) ∧
      AsPhase q pc (some ((b.exec cl s accept).2 && understood)) own (b.exec cl s accept).1 g := by
  cases h with
  | beginning =>
    obtain ⟨hback, hopen⟩ := begin_exec hfine cl accept
    exact ⟨fun hb => absurd hb (by decide),
      .begun hback fun hok => hopen (Bool.and_eq_true_iff.1 hok).1⟩
  | running hsuffix hopen hforced =>
    refine ⟨fun hb => QueryAs.inForce_of_isSql hsuffix hb hforced, .ran hsuffix ?_ ?_⟩
    · exact AsBatch.exec_rollsBackTo hopen (QueryAs.isStmt_of_suffix hsuffix)
    · intro hok hrest
      exact AsBatch.exec_ok hopen hsuffix hforced hfine hrest (Bool.and_eq_true_iff.1 hok).1
  | ending hback =>
    refine ⟨fun hb => absurd hb (by decide), ?_⟩
    rw [show (AsBatch.rollback.exec cl s accept).1 = g from hback.2]
    exact .ended
  | done howes =>
    cases howes with
    | begin =>
      obtain ⟨hback, -⟩ := begin_exec hfine cl accept
      exact ⟨fun hb => absurd hb (by decide), .done (.rollback hback)⟩
    | stmt hsuffix hopen hforced =>
      refine ⟨fun hb => QueryAs.inForce_of_isSql hsuffix hb hforced, .done (.rollback ?_)⟩
      exact AsBatch.exec_rollsBackTo hopen (QueryAs.isStmt_of_suffix hsuffix)
    | rollback hback =>
      refine ⟨fun hb => absurd hb (by decide), ?_⟩
      rw [show (AsBatch.rollback.exec cl s accept).1 = g from hback.2]
      exact .done .nothing

/-- The session is replaced under a batch of the call. -/
theorem AsPhase.lost (h : AsPhase q pc reply (b :: own) s g) (cl : Cluster) :
    (b.isSql = true → q.InForce s.cur) ∧ AsPhase q pc (some false) own cl.fresh cl.fresh := by
  have hback : RollsBackTo cl.fresh cl.fresh := rollsBackTo_self rfl
  cases h with
  | beginning => exact ⟨fun hb => absurd hb (by decide), .begun hback fun hr => absurd hr (by decide)⟩
  | running hsuffix hopen hforced =>
    exact ⟨fun hb => QueryAs.inForce_of_isSql hsuffix hb hforced,
      .ran hsuffix hback fun hr => absurd hr (by decide)⟩
  | ending => exact ⟨fun hb => absurd hb (by decide), .ended⟩
  | done howes =>
    cases howes with
    | begin => exact ⟨fun hb => absurd hb (by decide), .done (.rollback hback)⟩
    | stmt hsuffix hopen hforced =>
      exact ⟨fun hb => QueryAs.inForce_of_isSql hsuffix hb hforced, .done (.rollback hback)⟩
    | rollback => exact ⟨fun hb => absurd hb (by decide), .done .nothing⟩

/-- Before the call's `BEGIN`, and after its `ROLLBACK`, the session is the plain one. -/
theorem AsPhase.eq_plain (h : AsPhase q pc reply own s g)
    (hwhen : own.head? = some .begin ∨ own = [] ∧ pc.holds = false) :
    s = g ∧ ∀ s', AsPhase q pc reply own s' s' := by
  cases h with
  | beginning => exact ⟨rfl, fun _ => .beginning⟩
  | begun | ran => rcases hwhen with h | ⟨-, h⟩ <;> cases h
  | running hsuffix =>
    rcases hwhen with h | ⟨h, -⟩
    · obtain rfl := Option.some.inj h
      exact absurd (QueryAs.isStmt_of_suffix hsuffix) (by decide)
    · cases h
  | ending => rcases hwhen with h | ⟨h, -⟩ <;> cases h
  | ended => exact ⟨rfl, fun _ => .ended⟩
  | done howes =>
    cases howes with
    | nothing => exact ⟨rfl, fun _ => .done .nothing⟩
    | begin => exact ⟨rfl, fun _ => .done .begin⟩
    | stmt hsuffix =>
      rcases hwhen with h | ⟨h, -⟩
      · obtain rfl := Option.some.inj h
        exact absurd (QueryAs.isStmt_of_suffix hsuffix) (by decide)
      · cases h
    | rollback => rcases hwhen with h | ⟨h, -⟩ <;> cases h

/-- `BEGIN` has been answered with `Ok`. -/
theorem AsPhase.ok_begin (h : AsPhase q .begin (some true) own s g) : own = [] ∧ OpenedFrom s g := by
  cases h with
  | begun hback hopen => exact ⟨rfl, hopen rfl⟩

/-- A batch after it has been answered with `Ok`. -/
theorem AsPhase.ok_running {rest : List AsBatch}
    (h : AsPhase q (.running b rest) (some true) own s g) :
    own = [] ∧ RollsBackTo s g ∧ (rest ≠ [] → OpenedFrom s g ∧ q.Forced rest s.cur) := by
  cases h with
  | ran hsuffix hback hopen => exact ⟨rfl, hback, hopen rfl⟩

theorem AsPhase.suffix {rest : List AsBatch} (h : AsPhase q (.running b rest) reply own s g) :
    rest <:+ q.script := by
  cases h with
  | running hsuffix => exact (List.suffix_cons b rest).trans hsuffix
  | ran hsuffix => exact (List.suffix_cons b rest).trans hsuffix

/-- A `ROLLBACK` at the end of what the call has sent. -/
theorem AsPhase.owes_drop (h : AsPhase q pc reply own s g) (hholds : pc.holds = true)
    (hending : pc ≠ .ending) : Owes q (own ++ [.rollback]) s g := by
  cases h with
  | beginning => exact .begin
  | begun hback => exact .rollback hback
  | running hsuffix hopen hforced => exact .stmt hsuffix hopen hforced
  | ran hsuffix hback => exact .rollback hback
  | ending | ended => exact absurd rfl hending
  | done => cases hholds

theorem AsPhase.owes_ending (h : AsPhase q .ending reply own s g) : Owes q own s g := by
  cases h with
  | ending hback => exact .rollback hback
  | ended => exact .nothing

/-- A `BEGIN` that has been answered and has not opened a block. -/
theorem AsPhase.owes_begin (h : AsPhase q .begin reply own s g) (hnone : own ≠ [.begin])
    (hblock : s.block = none) : Owes q own s g := by
  cases h with
  | beginning => exact absurd rfl hnone
  | begun hback =>
    rw [← hback.2, rollback_of_none hblock]
    exact .nothing

end AsPhase

/-! ## Lines -/

/-- The call has nothing to do with the line. -/
structure Untouched (l : Line) : Prop where
  holder : l.holder ≠ .own
  plain : l.session = l.plain
  queue : ∃ fs : List (Settings.Session → Settings.Session), l.queue = fs.map .other

/-- The line of the call. What it has in the queue follows statements of other calls only as long
as it starts with `BEGIN`, and other calls come after it only when it has let go of the line. -/
structure Fits (q : QueryAs) (pc : AsPc) (reply : Option Bool) (l : Line) : Prop where
  holder : l.holder = .own ↔ pc.holds = true
  queue : ∃ (pre post : List (Settings.Session → Settings.Session)) (own : List AsBatch),
    l.queue = pre.map .other ++ own.map .own ++ post.map .other ∧
      (pre = [] ∨ own.head? = some .begin) ∧ (pc.holds = true → post = []) ∧
      AsPhase q pc reply own l.session l.plain

section Lines

variable {q : QueryAs} {pc : AsPc} {reply : Option Bool} {l : Line}

theorem Untouched.held (h : Untouched l) {holder : Holder} (hholder : holder ≠ .own) :
    Untouched (l.held holder) :=
  ⟨hholder, h.plain, h.queue⟩

theorem Untouched.send (h : Untouched l) (f : Settings.Session → Settings.Session) :
    Untouched (l.send (.other f)) := by
  obtain ⟨fs, hfs⟩ := h.queue
  refine ⟨h.holder, h.plain, fs ++ [f], ?_⟩
  show l.queue ++ [.other f] = _
  rw [hfs, List.map_append]
  rfl

theorem Untouched.head (h : Untouched l) {item : Item} {rest : List Item}
    (hitem : l.queue = item :: rest) :
    ∃ f, item = .other f ∧ ∀ s' alive, Untouched ⟨s', s', rest, l.holder, alive⟩ := by
  obtain ⟨fs, hfs⟩ := h.queue
  rw [hfs] at hitem
  cases fs with
  | nil => cases hitem
  | cons f fs =>
    obtain ⟨rfl, rfl⟩ := List.cons.inj hitem
    exact ⟨f, rfl, fun s' _ => ⟨h.holder, rfl, fs, rfl⟩⟩

/-- The call gives up before it has a line. -/
theorem Untouched.fits (h : Untouched l) : Fits q .done reply l := by
  obtain ⟨fs, hfs⟩ := h.queue
  refine ⟨⟨fun hown => absurd hown h.holder, fun hholds => absurd hholds (by decide)⟩,
    [], fs, [], hfs, .inl rfl, fun hholds => absurd hholds (by decide), ?_⟩
  rw [h.plain]
  exact .done .nothing

/-- The call takes the line, and sends `BEGIN`. -/
theorem Untouched.acquire (h : Untouched l) :
    Fits q .begin none ((l.held .own).send (.own .begin)) := by
  obtain ⟨fs, hfs⟩ := h.queue
  refine ⟨⟨fun _ => rfl, fun _ => rfl⟩, fs, [], [.begin], ?_, .inr rfl, fun _ => rfl, ?_⟩
  · show l.queue ++ [.own .begin] = _
    rw [hfs]
    simp
  · show AsPhase q .begin none [.begin] l.session l.plain
    rw [h.plain]
    exact .beginning

theorem Fits.held (h : Fits q pc reply l) (hl : l.holder ≠ .own) {holder : Holder}
    (hholder : holder ≠ .own) : Fits q pc reply (l.held holder) where
  holder := ⟨fun hown => absurd hown hholder, fun hholds => absurd (h.holder.2 hholds) hl⟩
  queue := h.queue

theorem Fits.send (h : Fits q pc reply l) (hl : l.holder ≠ .own)
    (f : Settings.Session → Settings.Session) : Fits q pc reply (l.send (.other f)) := by
  obtain ⟨pre, post, own, hqueue, hpre, -, hphase⟩ := h.queue
  have hholds : pc.holds ≠ true := fun hholds => hl (h.holder.2 hholds)
  refine ⟨h.holder, pre, post ++ [f], own, ?_, hpre, fun hh => absurd hh hholds, hphase⟩
  show l.queue ++ [.other f] = _
  rw [hqueue]
  simp

/-- What the line runs next is a statement of another call, to which the session is the plain one,
or a batch of this one. -/
theorem Fits.head (h : Fits q pc reply l) {item : Item} {rest : List Item}
    (hitem : l.queue = item :: rest) :
    (∃ f, item = .other f ∧ l.session = l.plain ∧
      ∀ s' alive, Fits q pc reply ⟨s', s', rest, l.holder, alive⟩) ∨
    ∃ b own, item = .own b ∧ AsPhase q pc reply (b :: own) l.session l.plain ∧
      ∀ reply' s' g' alive, AsPhase q pc reply' own s' g' →
        Fits q pc reply' ⟨s', g', rest, l.holder, alive⟩ := by
  obtain ⟨pre, post, own, hqueue, hpre, hpost, hphase⟩ := h.queue
  rw [hqueue] at hitem
  cases pre with
  | cons f pre =>
    obtain ⟨rfl, rfl⟩ := List.cons.inj hitem
    have hbegin : own.head? = some .begin := hpre.resolve_left (List.cons_ne_nil f pre)
    obtain ⟨hplain, hrun⟩ := hphase.eq_plain (.inl hbegin)
    exact .inl ⟨f, rfl, hplain, fun s' _ =>
      ⟨h.holder, pre, post, own, rfl, .inr hbegin, hpost, hrun s'⟩⟩
  | nil =>
    cases own with
    | cons b own =>
      obtain ⟨rfl, rfl⟩ := List.cons.inj hitem
      exact .inr ⟨b, own, rfl, hphase, fun _ _ _ _ hphase' =>
        ⟨h.holder, [], post, own, rfl, .inl rfl, hpost, hphase'⟩⟩
    | nil =>
      cases post with
      | nil => cases hitem
      | cons f post =>
        obtain ⟨rfl, rfl⟩ := List.cons.inj hitem
        have hholds : pc.holds = false :=
          Bool.eq_false_iff.2 fun hholds => List.cons_ne_nil f post (hpost hholds)
        obtain ⟨hplain, hrun⟩ := hphase.eq_plain (.inr ⟨rfl, hholds⟩)
        exact .inl ⟨f, rfl, hplain, fun s' _ => ⟨h.holder, [], post, [], rfl, .inl rfl,
          fun hh => absurd (hh.symm.trans hholds) (by decide), hrun s'⟩⟩

/-- The call sends a batch when all it has sent has been run. -/
theorem Fits.sendOwn (h : Fits q pc reply l) (hholds : pc.holds = true)
    {pc' : AsPc} {b : AsBatch} (hpc' : pc'.holds = true)
    (hphase : ∀ own, AsPhase q pc reply own l.session l.plain →
      own = [] ∧ AsPhase q pc' none [b] l.session l.plain) :
    Fits q pc' none (l.send (.own b)) := by
  obtain ⟨pre, post, own, hqueue, hpre, hpost, hown⟩ := h.queue
  obtain ⟨rfl, hnew⟩ := hphase own hown
  obtain rfl : pre = [] := hpre.resolve_right (by simp)
  obtain rfl := hpost hholds
  refine ⟨⟨fun _ => hpc', fun _ => h.holder.2 hholds⟩, [], [], [b], ?_, .inl rfl, fun _ => rfl, hnew⟩
  show l.queue ++ [.own b] = _
  rw [hqueue]
  rfl

/-- The call lets go of the line, with a `ROLLBACK` at the end of the queue. -/
theorem Fits.drop (h : Fits q pc reply l) (hholds : pc.holds = true)
    (hphase : ∀ own, AsPhase q pc reply own l.session l.plain →
      Owes q (own ++ [.rollback]) l.session l.plain) :
    Fits q .done reply ((l.send (.own .rollback)).held .free) := by
  obtain ⟨pre, post, own, hqueue, hpre, hpost, hown⟩ := h.queue
  obtain rfl := hpost hholds
  refine ⟨⟨fun hh => (by cases hh), fun hh => (by cases hh)⟩, pre, [], own ++ [.rollback], ?_, ?_, fun hh => absurd hh (by decide), .done (hphase own hown)⟩
  · show l.queue ++ [.own .rollback] = _
    rw [hqueue]
    simp
  · refine hpre.imp_right fun hbegin => ?_
    rw [List.head?_append, hbegin]
    rfl

/-- The call lets go of the line as it is. -/
theorem Fits.leave (h : Fits q pc reply l)
    (hphase : ∀ own, (∀ b ∈ own, .own b ∈ l.queue) → AsPhase q pc reply own l.session l.plain →
      Owes q own l.session l.plain) : Fits q .done reply (l.held .free) := by
  obtain ⟨pre, post, own, hqueue, hpre, -, hown⟩ := h.queue
  have hmem : ∀ b ∈ own, .own b ∈ l.queue := by
    intro b hb
    rw [hqueue]
    exact List.mem_append_left _ (List.mem_append_right _ (List.mem_map_of_mem hb))
  exact ⟨⟨fun hh => (by cases hh), fun hh => (by cases hh)⟩, pre, post, own, hqueue, hpre,
    fun hh => (by cases hh), .done (hphase own hmem hown)⟩

end Lines

/-! ## The system -/

def Item.isOwn : Item → Bool
  | .own _ => true
  | .other _ => false

instance AsStmt.plainDecidable (cur : Settings) : ∀ stmt : AsStmt, Decidable (stmt.Plain cur)
  | .claims c =>
    inferInstanceAs (Decidable (¬ (cur "standard_conforming_strings" = some "off" ∧ '\\' ∈ c.toList)))
  | .role r => inferInstanceAs (Decidable (r ≠ "none" ∧ r.utf8ByteSize ≤ 63))
  | .sql _ _ => .isTrue trivial

instance AsBatch.fineDecidable (s : Settings.Session) : ∀ b : AsBatch, Decidable (b.Fine s)
  | .begin => inferInstanceAs (Decidable (s.block = none))
  | .bind stmt => inferInstanceAs (Decidable (stmt.Plain s.cur))
  | .parse _ => .isTrue trivial
  | .rollback => .isTrue trivial

/-- What comes next in the queue may be run. -/
def HeadFine (s : Settings.Session) : List Item → Prop
  | .own b :: _ => b.Fine s
  | _ => True

instance headFineDecidable (s : Settings.Session) : ∀ queue, Decidable (HeadFine s queue)
  | .own b :: _ => inferInstanceAs (Decidable (b.Fine s))
  | .other _ :: _ | [] => .isTrue trivial

namespace AsSystem

/-- In single-process mode the call does not give up on a `BEGIN` that opens a block, or may yet
open one. -/
def BeginSafe (via : Via) (s : AsSystem) : Prop :=
  match via, s.pc with
  | .backend, .begin => (s.lines s.line).alive = true →
    (∀ item ∈ (s.lines s.line).queue, item.isOwn = false) ∧
      (s.lines s.line).session.block = none
  | _, _ => True

/-- `BEGIN` finds no open block, the settings are taken as they are given, and `BEGIN` is not
abandoned. -/
def Fine (via : Via) (s : AsSystem) : AsEvent → Prop
  | .engine c _ => HeadFine (s.lines c).session (s.lines c).queue
  | .resume => s.answer = some false → s.BeginSafe via
  | .cancel => s.BeginSafe via
  | _ => True

instance beginSafeDecidable (via : Via) (s : AsSystem) : Decidable (s.BeginSafe via) := by
  unfold BeginSafe
  split <;> infer_instance

instance fineDecidable (via : Via) (s : AsSystem) : ∀ e, Decidable (s.Fine via e)
  | .engine c _ => inferInstanceAs (Decidable (HeadFine (s.lines c).session (s.lines c).queue))
  | .resume => inferInstanceAs (Decidable (s.answer = some false → s.BeginSafe via))
  | .cancel => inferInstanceAs (Decidable (s.BeginSafe via))
  | .otherAcquire _ | .otherSend _ _ | .otherRelease _ | .acquire _ => .isTrue trivial

structure Inv (q : QueryAs) (s : AsSystem) : Prop where
  others : ∀ c, s.pc = .waiting ∨ c ≠ s.line → Untouched (s.lines c)
  mine : s.pc ≠ .waiting → (s.lines s.line).alive = true →
    Fits q s.pc s.reply (s.lines s.line)
  seen : ∀ x ∈ s.seen, x.found = x.plain
  sent : ∀ cur ∈ s.sent, q.InForce cur

section Inv

variable {cl : Cluster} {via : Via} {q : QueryAs} {s s' : AsSystem} {c : Nat} {l : Line}

/-- A step on a line that the call has nothing to do with. -/
theorem Inv.other (h : Inv q s) (hc : s.pc = .waiting ∨ c ≠ s.line) (hl : Untouched l)
    {seen : List Seen} (hseen : ∀ x ∈ seen, x.found = x.plain) :
    Inv q { s.update c l with seen := seen } where
  others c' hc' := by
    show Untouched (Function.update s.lines c l c')
    by_cases heq : c' = c
    · subst heq
      rwa [Function.update_self]
    · rw [Function.update_of_ne heq]
      exact h.others c' hc'
  mine hpc halive := by
    have hne : s.line ≠ c := (hc.resolve_left hpc).symm
    have hsame : Function.update s.lines c l s.line = s.lines s.line := Function.update_of_ne hne _ _
    change (Function.update s.lines c l s.line).alive = true at halive
    show Fits q s.pc s.reply (Function.update s.lines c l s.line)
    rw [hsame] at halive ⊢
    exact h.mine hpc halive
  seen := hseen
  sent := h.sent

/-- A step on the line of the call. -/
theorem inv_mine {lines : Nat → Line} {line : Nat} {pc : AsPc} {reply : Option Bool}
    {seen : List Seen} {sent : List Settings} (hothers : ∀ c, c ≠ line → Untouched (lines c))
    (hpc : pc ≠ .waiting) (hl : l.alive = true → Fits q pc reply l)
    (hseen : ∀ x ∈ seen, x.found = x.plain) (hsent : ∀ cur ∈ sent, q.InForce cur) :
    Inv q ⟨Function.update lines line l, pc, line, reply, seen, sent⟩ where
  others c hc := by
    have hne : c ≠ line := hc.resolve_left hpc
    show Untouched (Function.update lines line l c)
    rw [Function.update_of_ne hne]
    exact hothers c hne
  mine _ halive := by
    simp only [Function.update_self] at halive ⊢
    exact hl halive
  seen := hseen
  sent := hsent

/-- A step of another call, on any line. -/
theorem Inv.byOther (h : Inv q s) (hun : Untouched (s.lines c) → Untouched l)
    (hfits : Fits q s.pc s.reply (s.lines c) → Fits q s.pc s.reply l)
    (halive : l.alive = true → (s.lines c).alive = true) {seen : List Seen}
    (hseen : ∀ x ∈ seen, x.found = x.plain) : Inv q { s.update c l with seen := seen } := by
  by_cases hc : s.pc = .waiting ∨ c ≠ s.line
  · exact h.other hc (hun (h.others c hc)) hseen
  · obtain ⟨hpc, hline⟩ := not_or.1 hc
    obtain rfl := not_ne_iff.1 hline
    exact inv_mine (fun c hc => h.others c (.inr hc)) hpc
      (fun hl => hfits (h.mine hpc (halive hl))) hseen h.sent

/-- The item that a line runs next. -/
theorem Inv.exec {item : Item} {rest : List Item} {o : LineOutcome} (h : Inv q s)
    (halive : (s.lines c).alive = true) (hitem : (s.lines c).queue = item :: rest)
    (hfine : ∀ b, item = .own b → b.Fine (s.lines c).session) :
    Inv q (s.exec cl via c item rest o) := by
  cases item with
  | other f =>
    have hplain : (s.lines c).session = (s.lines c).plain := by
      by_cases hc : s.pc = .waiting ∨ c ≠ s.line
      · exact (h.others c hc).plain
      · obtain ⟨hpc, hline⟩ := not_or.1 hc
        obtain rfl := not_ne_iff.1 hline
        rcases (h.mine hpc halive).head hitem with ⟨-, -, hplain, -⟩ | ⟨b, -, heq, -⟩
        · exact hplain
        · cases heq
    have hun : ∀ s' alive, Untouched (s.lines c) →
        Untouched ⟨s', s', rest, (s.lines c).holder, alive⟩ := by
      intro s' alive hc
      obtain ⟨-, -, hrun⟩ := hc.head hitem
      exact hrun s' alive
    have hfits : ∀ s' alive, Fits q s.pc s.reply (s.lines c) →
        Fits q s.pc s.reply ⟨s', s', rest, (s.lines c).holder, alive⟩ := by
      intro s' alive hc
      rcases hc.head hitem with ⟨-, -, -, hrun⟩ | ⟨b, -, heq, -⟩
      · exact hrun s' alive
      · cases heq
    have hnew : ∀ x ∈ s.seen ++ [⟨c, (s.lines c).session.cur, (s.lines c).plain.cur⟩],
        Seen.found x = x.plain := by
      intro x hx
      rcases List.mem_append.1 hx with hx | hx
      · exact h.seen x hx
      · obtain rfl := List.mem_singleton.1 hx
        exact congrArg Settings.Session.cur hplain
    cases o with
    | answered accept understood =>
      refine h.byOther ?_ ?_ (fun _ => halive) hnew
      · rw [← hplain]
        exact hun _ _
      · rw [← hplain]
        exact hfits _ _
    | lost ran reconnects =>
      refine h.byOther (hun _ _) (hfits _ _) (fun _ => halive) ?_
      split_ifs
      · exact hnew
      · exact h.seen
  | own b =>
    have hc : ¬ (s.pc = .waiting ∨ c ≠ s.line) := by
      intro hc
      obtain ⟨f, heq, -⟩ := (h.others c hc).head hitem
      cases heq
    obtain ⟨hpc, hline⟩ := not_or.1 hc
    obtain rfl := not_ne_iff.1 hline
    have hothers : ∀ c, c ≠ s.line → Untouched (s.lines c) := fun c hc => h.others c (.inr hc)
    rcases (h.mine hpc halive).head hitem with ⟨f, heq, -⟩ | ⟨b', own, heq, hphase, hrun⟩
    · cases heq
    obtain rfl := Item.own.inj heq
    have hsent : ∀ ran : Bool, (b.isSql = true → q.InForce (s.lines s.line).session.cur) →
        ∀ cur ∈ (if (ran && b.isSql) = true then s.sent ++ [(s.lines s.line).session.cur]
          else s.sent), q.InForce cur := by
      intro ran hforce cur hcur
      split_ifs at hcur with hb
      · rcases List.mem_append.1 hcur with hcur | hcur
        · exact h.sent cur hcur
        · obtain rfl := List.mem_singleton.1 hcur
          exact hforce (Bool.and_eq_true_iff.1 hb).2
      · exact h.sent cur hcur
    cases o with
    | answered accept understood =>
      obtain ⟨hforce, hnew⟩ := hphase.exec (hfine b rfl) cl accept understood
      exact inv_mine hothers hpc (fun _ => hrun _ _ _ _ hnew) h.seen (hsent true hforce)
    | lost ran reconnects =>
      obtain ⟨hforce, hnew⟩ := hphase.lost cl
      exact inv_mine hothers hpc (fun _ => hrun _ _ _ _ hnew) h.seen (hsent ran hforce)

/-- The call has an answer, and what it has sent has been run. -/
theorem Inv.next (h : Inv q s) (hholds : s.pc.holds = true)
    (halive : (s.lines s.line).alive = true) {rest : List AsBatch} (hsuffix : rest <:+ q.script)
    (hphase : ∀ own, AsPhase q s.pc s.reply own (s.lines s.line).session (s.lines s.line).plain →
      own = [] ∧ RollsBackTo (s.lines s.line).session (s.lines s.line).plain ∧
        (rest ≠ [] → OpenedFrom (s.lines s.line).session (s.lines s.line).plain ∧
          q.Forced rest (s.lines s.line).session.cur)) : Inv q (s.next rest) := by
  have hpc : s.pc ≠ .waiting := by
    intro hpc
    rw [hpc] at hholds
    cases hholds
  have hothers : ∀ c, c ≠ s.line → Untouched (s.lines c) := fun c hc => h.others c (.inr hc)
  have hfits := h.mine hpc halive
  cases rest with
  | nil =>
    refine inv_mine hothers (fun hpc => (by cases hpc)) (fun _ => ?_) h.seen h.sent
    refine hfits.sendOwn hholds rfl fun own hown => ?_
    obtain ⟨hnil, hback, -⟩ := hphase own hown
    exact ⟨hnil, .ending hback⟩
  | cons b rest =>
    obtain ⟨-, -, own, -, -, -, hown⟩ := hfits.queue
    obtain ⟨hopen, hforced⟩ := (hphase own hown).2.2 (List.cons_ne_nil b rest)
    rw [AsSystem.next]
    split_ifs
    · refine inv_mine hothers (fun hpc => (by cases hpc)) (fun _ => ?_) h.seen ?_
      · exact hfits.sendOwn hholds rfl fun own hown =>
          ⟨(hphase own hown).1, .running hsuffix hopen hforced⟩
      · intro cur hcur
        split_ifs at hcur with hb
        · rcases List.mem_append.1 hcur with hcur | hcur
          · exact h.sent cur hcur
          · obtain rfl := List.mem_singleton.1 hcur
            exact QueryAs.inForce_of_isSql hsuffix hb hforced
        · exact h.sent cur hcur
    · refine inv_mine hothers (fun hpc => (by cases hpc)) (fun _ => ?_) h.seen h.sent
      refine hfits.drop hholds fun own hown => ?_
      obtain ⟨rfl, hback, -⟩ := hphase own hown
      exact .rollback hback

/-- The call ends where it awaits. -/
theorem Inv.abandon (h : Inv q s) (hsafe : s.BeginSafe via) : Inv q (s.abandon via) := by
  have hothers : ∀ c, c ≠ s.line → Untouched (s.lines c) := fun c hc => h.others c (.inr hc)
  cases hpc : s.pc with
  | waiting =>
    have hun := fun c => h.others c (.inl hpc)
    have habandon : s.abandon via = { s with pc := .done } := by
      unfold AsSystem.abandon
      rw [hpc]
    rw [habandon]
    exact ⟨fun c _ => hun c, fun _ _ => (hun s.line).fits, h.seen, h.sent⟩
  | done =>
    have habandon : s.abandon via = s := by
      unfold AsSystem.abandon
      rw [hpc]
    rw [habandon]
    exact h
  | begin =>
    have hmine := h.mine (by simp [hpc])
    rw [hpc] at hmine
    cases via with
    | backend =>
      have habandon : s.abandon .backend = s.leave := by
        unfold AsSystem.abandon
        rw [hpc]
      unfold BeginSafe at hsafe
      rw [hpc] at hsafe
      rw [habandon]
      refine inv_mine hothers (fun hpc => (by cases hpc)) (fun halive => ?_) h.seen h.sent
      obtain ⟨hnone, hblock⟩ := hsafe halive
      refine (hmine halive).leave fun own hmem hown => hown.owes_begin ?_ hblock
      rintro rfl
      exact absurd (hnone _ (hmem _ List.mem_cons_self)) (by decide)
    | pin =>
      have habandon : s.abandon .pin = s.drop := by
        unfold AsSystem.abandon
        rw [hpc]
      rw [habandon]
      refine inv_mine hothers (fun hpc => (by cases hpc)) (fun halive => ?_) h.seen h.sent
      exact (hmine halive).drop rfl fun own hown => hown.owes_drop rfl fun hpc => (by cases hpc)
  | running b rest =>
    have hmine := h.mine (by simp [hpc])
    rw [hpc] at hmine
    have habandon : s.abandon via = s.drop := by
      unfold AsSystem.abandon
      rw [hpc]
    rw [habandon]
    refine inv_mine hothers (fun hpc => (by cases hpc)) (fun halive => ?_) h.seen h.sent
    exact (hmine halive).drop rfl fun own hown => hown.owes_drop rfl fun hpc => (by cases hpc)
  | ending =>
    have hmine := h.mine (by simp [hpc])
    rw [hpc] at hmine
    have habandon : s.abandon via = s.leave := by
      unfold AsSystem.abandon
      rw [hpc]
    rw [habandon]
    refine inv_mine hothers (fun hpc => (by cases hpc)) (fun halive => ?_) h.seen h.sent
    exact (hmine halive).leave fun own _ hown => hown.owes_ending

theorem answer_eq_true (h : s.answer = some true) :
    (s.lines s.line).alive = true ∧ s.reply = some true := by
  unfold answer at h
  split_ifs at h with halive
  · exact ⟨halive, h⟩
  · cases h

theorem Inv.resume (h : Inv q s) (hsafe : s.answer = some false → s.BeginSafe via)
    (hstep : s.resume via q = some s') : Inv q s' := by
  unfold AsSystem.resume at hstep
  split at hstep
  · next hpc hanswer =>
    obtain rfl := Option.some.inj hstep
    obtain ⟨halive, hreply⟩ := answer_eq_true hanswer
    refine h.next (by rw [hpc]; rfl) halive (List.suffix_refl _) fun own hown => ?_
    rw [hpc, hreply] at hown
    obtain ⟨hnil, hopen⟩ := hown.ok_begin
    exact ⟨hnil, hopen.rollsBackTo, fun _ => ⟨hopen, q.forced_script _⟩⟩
  · next hanswer =>
    obtain rfl := Option.some.inj hstep
    exact h.abandon (hsafe hanswer)
  · next b rest hpc hanswer =>
    obtain rfl := Option.some.inj hstep
    obtain ⟨halive, hreply⟩ := answer_eq_true hanswer
    obtain ⟨-, -, own, -, -, -, hown⟩ := (h.mine (by simp [hpc]) halive).queue
    rw [hpc] at hown
    refine h.next (by rw [hpc]; rfl) halive hown.suffix fun own hown => ?_
    rw [hpc, hreply] at hown
    exact hown.ok_running
  · next hanswer =>
    obtain rfl := Option.some.inj hstep
    exact h.abandon (hsafe hanswer)
  · next hpc hanswer =>
    obtain rfl := Option.some.inj hstep
    have hleave : s.abandon via = s.leave := by
      unfold AsSystem.abandon
      rw [hpc]
    rw [← hleave]
    refine h.abandon ?_
    unfold BeginSafe
    rw [hpc]
    cases via <;> trivial
  · cases hstep

/-- **Step lemma.** -/
theorem Inv.step {e : AsEvent} (h : Inv q s) (hfine : s.Fine via e)
    (hstep : s.step cl via q e = some s') : Inv q s' := by
  cases e with
  | otherAcquire c =>
    rw [AsSystem.step] at hstep
    split_ifs at hstep with hfree
    obtain rfl := Option.some.inj hstep
    have hown : (s.lines c).holder ≠ .own := by
      rw [hfree.1]
      decide
    have hnew : Holder.other ≠ .own := by decide
    exact h.byOther (fun hun => hun.held hnew) (fun hfits => hfits.held hown hnew)
      (fun halive => halive) h.seen
  | otherSend c f =>
    rw [AsSystem.step] at hstep
    split_ifs at hstep with hother
    obtain rfl := Option.some.inj hstep
    have hown : (s.lines c).holder ≠ .own := by
      rw [hother]
      decide
    exact h.byOther (fun hun => hun.send f) (fun hfits => hfits.send hown f)
      (fun halive => halive) h.seen
  | otherRelease c =>
    rw [AsSystem.step] at hstep
    split_ifs at hstep with hother
    obtain rfl := Option.some.inj hstep
    have hown : (s.lines c).holder ≠ .own := by
      rw [hother]
      decide
    have hnew : Holder.free ≠ .own := by decide
    exact h.byOther (fun hun => hun.held hnew) (fun hfits => hfits.held hown hnew)
      (fun halive => halive) h.seen
  | acquire c =>
    rw [AsSystem.step] at hstep
    split at hstep
    · next hpc =>
      split_ifs at hstep with hfree
      obtain rfl := Option.some.inj hstep
      have hun := fun c => h.others c (.inl hpc)
      have hlines : ({ s.update c ((s.lines c).held .own) with line := c }.sendOwn .begin .begin) =
          ⟨Function.update s.lines c (((s.lines c).held .own).send (.own .begin)), .begin, c, none,
            s.seen, s.sent⟩ := by
        simp [AsSystem.sendOwn, AsSystem.update, AsBatch.isSql]
      rw [hlines]
      exact inv_mine (fun c _ => hun c) (fun hpc => (by cases hpc)) (fun _ => (hun c).acquire)
        h.seen h.sent
    · cases hstep
  | engine c o =>
    rw [AsSystem.step] at hstep
    split at hstep
    · next item rest halive hitem =>
      obtain rfl := Option.some.inj hstep
      refine h.exec halive hitem fun b hb => ?_
      subst hb
      change HeadFine (s.lines c).session (s.lines c).queue at hfine
      rwa [hitem] at hfine
    · cases hstep
  | resume => exact h.resume hfine hstep
  | cancel =>
    rw [AsSystem.step] at hstep
    split at hstep
    · cases hstep
    · obtain rfl := Option.some.inj hstep
      exact h.abandon hfine

theorem inv_start (q : QueryAs) (sessions : Nat → Settings.Session) :
    Inv q (AsSystem.start sessions) where
  others _ _ := ⟨fun hown => (by cases hown), rfl, [], rfl⟩
  mine hpc := absurd rfl hpc
  seen _ hx := absurd hx List.not_mem_nil
  sent _ hcur := absurd hcur List.not_mem_nil

end Inv

end AsSystem

/-- **Theorem.** Every statement of another call runs under the settings that its session would
have without the call of `query_as`, and the caller's SQL is sent and run only where the role and
the claims are in force, as long as the call's `BEGIN` finds no open block, the server takes the
role and the claims as they are given, and the call does not give up on its `BEGIN` in
single-process mode. -/
theorem query_as_no_trace {cl : Cluster} {via : Via} {q : QueryAs}
    {sessions : Nat → Settings.Session} {s : AsSystem} (es : List AsEvent)
    (hfine : Guarded (AsSystem.step cl via q) (AsSystem.Fine via) (.start sessions) es)
    (hrun : run (AsSystem.step cl via q) (.start sessions) es = some s) :
    (∀ x ∈ s.seen, x.found = x.plain) ∧ ∀ cur ∈ s.sent, q.InForce cur := by
  have hinv := run_invariant (fun _ _ _ h hok hstep => AsSystem.Inv.step h hok hstep)
    (AsSystem.inv_start q sessions) hfine hrun
  exact ⟨hinv.seen, hinv.sent⟩

/-- A server with default settings. -/
def Cluster.plain : Cluster := ⟨fun _ => none, id, id⟩

/-- A session without a block, at its default settings. -/
def freshSessions (_ : Nat) : Settings.Session := ⟨fun _ => none, none⟩

/-- A call whose SQL is a `COMMIT`. -/
def QueryAs.commit : QueryAs := ⟨"app", some "{}", "COMMIT", .commit false⟩

/-- The engine runs a batch, and the call goes on. -/
def answeredWell : List AsEvent := [.engine 0 (.answered true true), .resume]

/-- Another call makes a setting on the connection. Then `query_as` commits its transaction
before it rolls back, and a statement of another call is run after that. -/
theorem query_as_no_trace_commit :
    ∃ s, run (AsSystem.step .plain .pin .commit) (.start freshSessions)
        ([.otherAcquire 0, .otherSend 0 (Settings.Session.set "search_path" (some "app")),
          .otherRelease 0, .acquire 0, .engine 0 (.answered true true)] ++
          (List.replicate 8 answeredWell).flatten ++
          [.otherAcquire 0, .otherSend 0 id, .engine 0 (.answered true true)]) = some s ∧
      s.seen.length = 2 ∧ s.sent.length = 4 ∧ (∀ x ∈ s.seen, x.found = x.plain) ∧
        ∀ cur ∈ s.sent, QueryAs.commit.InForce cur := by
  have h : (run (AsSystem.step .plain .pin .commit) (.start freshSessions)
      ([.otherAcquire 0, .otherSend 0 (Settings.Session.set "search_path" (some "app")),
        .otherRelease 0, .acquire 0, .engine 0 (.answered true true)] ++
        (List.replicate 8 answeredWell).flatten ++
        [.otherAcquire 0, .otherSend 0 id, .engine 0 (.answered true true)])).map
        (fun s => (s.seen.length, s.sent.length)) = some (2, 4) := by
    decide +kernel
  obtain ⟨s, hrun, hlengths⟩ := Option.map_eq_some_iff.1 h
  obtain ⟨hseen, hsent⟩ := Prod.mk.inj hlengths
  exact ⟨s, hrun, hseen, hsent, query_as_no_trace _ (by decide +kernel) hrun⟩

/-- The future is dropped while it awaits the answer to `BEGIN`, and the block stays open: a
setting that another call makes in it is undone by the rollback of a third. -/
theorem query_as_leaves_block :
    ¬ ∀ (cl : Cluster) (via : Via) (q : QueryAs) (sessions : Nat → Settings.Session)
      (es : List AsEvent) (s : AsSystem),
      run (AsSystem.step cl via q) (.start sessions) es = some s →
        (∀ x ∈ s.seen, x.found = x.plain) ∧ ∀ cur ∈ s.sent, q.InForce cur := by
  intro h
  have hrun : (run (AsSystem.step .plain .backend .commit) (.start freshSessions)
      [.acquire 0, .cancel, .otherAcquire 0,
        .otherSend 0 (Settings.Session.set "search_path" (some "app")),
        .otherSend 0 Settings.Session.begin, .otherSend 0 Settings.Session.rollback,
        .otherSend 0 id, .engine 0 (.answered true true), .engine 0 (.answered true true),
        .engine 0 (.answered true true), .engine 0 (.answered true true),
        .engine 0 (.answered true true)]).map
        (fun s => s.seen.map fun x => (x.found "search_path", x.plain "search_path")) =
      some [(none, none), (some "app", some "app"), (some "app", some "app"),
        (none, some "app")] := by
    decide +kernel
  obtain ⟨s, hs, hmap⟩ := Option.map_eq_some_iff.1 hrun
  have hseen := (h _ _ _ _ _ s hs).1
  have hlast : (none, some "app") ∈
      s.seen.map fun x => (x.found "search_path", x.plain "search_path") := by
    rw [hmap]
    decide
  obtain ⟨x, hx, hpair⟩ := List.mem_map.1 hlast
  obtain ⟨hfound, hplain⟩ := Prod.mk.inj hpair
  rw [hseen x hx] at hfound
  exact absurd (hfound.symm.trans hplain) (by decide)

end Pglite.Replica
