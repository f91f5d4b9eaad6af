import Pglite.Replica.Security
import Pglite.Runs
import Pglite.Text

/-!
# Security introspection

`resync_security` runs the five queries of `introspect_security` on a connection of its own,
each in a transaction of its own, while the upstream goes on changing its catalogs. (`first_run`
runs the same queries inside a snapshot transaction.)

An introspection is not torn if some moment can be found that all its answers are of. One is, when
up to that moment no commit changes what was already answered, and from there on none changes what
is still to be asked. What is answered is the catalog of that moment if the login sees all grants.
-/

namespace Pglite.Replica

open Runs

/-- The upstream, the answers so far, and the moments from the first query to the last. -/
structure Introspection where
  now : Upstream
  answers : List Rows
  moments : List Upstream

inductive Introspection.Event
  /-- A transaction changes the upstream catalogs. -/
  | commit (u : Upstream)
  /-- The next query is answered. -/
  | query

namespace Introspection

def start (u : Upstream) : Introspection where
  now := u
  answers := []
  moments := []

def finished (s : Introspection) : Bool :=
  s.answers.length == 5

/-- The first query is answered, and the last is not. -/
def underWay (s : Introspection) : Bool :=
  decide (0 < s.answers.length) && decide (s.answers.length < 5)

def step (s : Introspection) : Event → Option Introspection
  | .commit u =>
    some { s with now := u, moments := if s.underWay then s.moments ++ [u] else s.moments }
  | .query =>
    if s.finished then none
    else some { s with
      answers := s.answers ++ [s.now.seen.answer s.answers.length]
      moments := if s.answers = [] then [s.now] else s.moments }

/-- The catalog it returns is the one of a moment between the first and the last query, and it
names no role that it does not list. -/
def NotTorn (s : Introspection) : Prop :=
  s.finished = true → ∃ u ∈ s.moments, SecurityCatalog.ofAnswers s.answers = u.security ∧
    (SecurityCatalog.ofAnswers s.answers).Closed u.builtinNames

/-- The answers to the queries with these numbers are the same. -/
def sameAnswers (u v : Upstream) (queries : List Nat) : Bool :=
  queries.all fun i => decide (u.seen.answer i = v.seen.answer i)

/-- A commit leaves what was already answered as it is. -/
def keepsAnswered (s : Introspection) : Event → Bool
  | .commit u => sameAnswers s.now u (List.range s.answers.length)
  | .query => true

/-- A commit leaves what is still to be asked as it is. -/
def keepsUnanswered (s : Introspection) : Event → Bool
  | .commit u => sameAnswers s.now u (List.range' s.answers.length (5 - s.answers.length))
  | .query => true

/-! ## Up to the moment -/

theorem sameAnswers_iff {u v : Upstream} {queries : List Nat} :
    sameAnswers u v queries = true ↔
      ∀ i ∈ queries, u.seen.answer i = v.seen.answer i := by
  simp [sameAnswers]

/-- Everything answered so far is an answer of now. -/
structure UpToNow (s : Introspection) : Prop where
  answered : s.answers = (List.range s.answers.length).map s.now.seen.answer
  le : s.answers.length ≤ 5
  asked : s.moments ≠ [] → s.answers ≠ []

theorem start_upToNow (u : Upstream) : (start u).UpToNow where
  answered := rfl
  le := Nat.zero_le 5
  asked hne := absurd rfl hne

/-- The next answer is of the catalog that the answers before it are of. -/
theorem answered_concat {answers : List Rows} {answer : Nat → Rows}
    (h : answers = (List.range answers.length).map answer) :
    answers ++ [answer answers.length] =
      (List.range (answers ++ [answer answers.length]).length).map answer := by
  rw [List.length_append, List.length_singleton, List.range_succ, List.map_append, ← h]
  rfl

theorem UpToNow.step {s s' : Introspection} {e : Event} (h : s.UpToNow)
    (hok : s.keepsAnswered e = true) (hstep : step s e = some s') : s'.UpToNow := by
  cases e with
  | commit u =>
    obtain rfl := Option.some.inj hstep
    have hsame := sameAnswers_iff.1 hok
    refine ⟨h.answered.trans (List.map_congr_left hsame), h.le, fun hne hnil => ?_⟩
    have hmoments : s.moments = [] := by
      by_contra hmoments
      exact h.asked hmoments hnil
    simp [hmoments, underWay, show s.answers = [] from hnil] at hne
  | query =>
    rw [Introspection.step] at hstep
    split at hstep
    · cases hstep
    · next hfinished =>
      obtain rfl := Option.some.inj hstep
      have hlt : s.answers.length ≠ 5 := by simpa [finished] using hfinished
      refine ⟨answered_concat h.answered, ?_, fun _ => by simp⟩
      have hle := h.le
      simp only [List.length_append, List.length_singleton]
      omega

/-! ## From the moment on -/

/-- What is answered is an answer of the moment `u`, and so will be what is still to be asked. -/
structure Of (u : Upstream) (s : Introspection) : Prop where
  answered : s.answers = (List.range s.answers.length).map u.seen.answer
  le : s.answers.length ≤ 5
  toAsk : ∀ i, s.answers.length ≤ i → i < 5 → s.now.seen.answer i = u.seen.answer i
  moment : u ∈ s.moments
  asked : s.answers ≠ []

theorem Of.step {u : Upstream} {s s' : Introspection} {e : Event} (h : s.Of u)
    (hok : s.keepsUnanswered e = true) (hstep : step s e = some s') : s'.Of u := by
  cases e with
  | commit v =>
    obtain rfl := Option.some.inj hstep
    have hsame := sameAnswers_iff.1 hok
    refine ⟨h.answered, h.le, fun i hle hlt => ?_, ?_, h.asked⟩
    · have hlen : s.answers.length ≤ i := hle
      have hi : i ∈ List.range' s.answers.length (5 - s.answers.length) := by
        rw [List.mem_range'_1]
        omega
      exact (hsame i hi).symm.trans (h.toAsk i hle hlt)
    · show u ∈ if s.underWay then s.moments ++ [v] else s.moments
      split_ifs
      · exact List.mem_append_left _ h.moment
      · exact h.moment
  | query =>
    rw [Introspection.step] at hstep
    split at hstep
    · cases hstep
    · next hfinished =>
      obtain rfl := Option.some.inj hstep
      have hne : s.answers.length ≠ 5 := by simpa [finished] using hfinished
      have hle := h.le
      have hnext := h.toAsk s.answers.length (Nat.le_refl _) (by omega)
      refine ⟨?_, ?_, fun i hi hlt => h.toAsk i ?_ hlt, ?_, by simp⟩
      · simp only [hnext]
        exact answered_concat h.answered
      · simp only [List.length_append, List.length_singleton]
        omega
      · simp only [List.length_append, List.length_singleton] at hi
        omega
      · simp only [if_neg h.asked]
        exact h.moment

theorem Of.notTorn {u : Upstream} {s : Introspection} (h : s.Of u)
    (hcomma : u.security.noComma = true) (hshows : u.showsGrants = true) : s.NotTorn := by
  intro hfinished
  have hlength : s.answers.length = 5 := by simpa [finished] using hfinished
  have hanswers := h.answered
  rw [hlength] at hanswers
  have hcatalog : SecurityCatalog.ofAnswers s.answers = u.security := by
    rw [hanswers, Upstream.seen_eq_security hshows, SecurityCatalog.ofAnswers_answer hcomma]
  exact ⟨u, h.moment, hcatalog, hcatalog ▸ u.security_closed⟩

end Introspection

/-- **Theorem.** The catalog that `introspect_security` returns is the one of a single moment, if
there is a moment between the first and the last query such that every commit before it leaves
what is answered as it is, every commit after it what is still to be asked, the login is shown every
grant, and no policy is for a role with a comma in its name. -/
theorem introspection_not_torn {u : Upstream} {s t : Introspection}
    (es fs : List Introspection.Event)
    (hes : Guarded Introspection.step (fun s e => s.keepsAnswered e = true)
      (Introspection.start u) es)
    (hs : run Introspection.step (Introspection.start u) es = some s)
    (hmoment : s.now ∈ s.moments) (hcomma : s.now.security.noComma = true)
    (hshows : s.now.showsGrants = true)
    (hfs : Guarded Introspection.step (fun s e => s.keepsUnanswered e = true) s fs)
    (ht : run Introspection.step s fs = some t) : t.NotTorn := by
  have hup : s.UpToNow :=
    run_invariant (fun _ _ _ h hok hstep => h.step hok hstep) (Introspection.start_upToNow u)
      hes hs
  have hof : s.Of s.now :=
    ⟨hup.answered, hup.le, fun _ _ _ => rfl, hmoment, hup.asked (List.ne_nil_of_mem hmoment)⟩
  exact (run_invariant (fun _ _ _ h hok hstep => h.step hok hstep) hof hfs ht).notTorn hcomma
    hshows

/-- An upstream with these roles and one published table, which some of them may read. The login is
the superuser. -/
def Upstream.notes (roles : List (Nat × String)) (readers : List Nat) : Upstream where
  roles := roles.map fun r => ⟨r.1, r.2, true⟩
  members := []
  tables :=
    [⟨"public", "notes", true, false, false, readers.map fun oid => ⟨10, oid, "SELECT"⟩, []⟩]
  enabledRoles := roles.map Prod.fst

/-- A grant is revoked before the grants are read, and a role is added after that. -/
theorem introspection_not_torn_revoke :
    ∃ s t, run Introspection.step (.start (.notes [(10, "postgres"), (16400, "app")] [16400]))
        [.query, .commit (.notes [(10, "postgres"), (16400, "app")] []), .query] = some s ∧
      run Introspection.step s
        [.query, .query, .commit (.notes [(10, "postgres"), (16400, "app"), (16401, "web")] [16401]), .query] =
          some t ∧
      t.finished = true ∧ t.NotTorn :=
  ⟨_, _, rfl, rfl, rfl, introspection_not_torn
    [.query, .commit (.notes [(10, "postgres"), (16400, "app")] []), .query]
    [.query, .query, .commit (.notes [(10, "postgres"), (16400, "app"), (16401, "web")] [16401]),
      .query]
    (by decide) rfl (by decide) (by decide) (by decide) (by decide) rfl⟩

/-- Another login is shown another catalog, also when nothing changes meanwhile. -/
example : (({ Upstream.notes [(10, "postgres"), (16400, "app"), (16401, "repl")] [16400] with
    enabledRoles := [16401] }).seen).grants = [] := by
  decide

/-- A role is created and granted `SELECT` between the query for the roles and the one for the
grants. -/
theorem introspection_torn :
    ¬ ∀ (u : Upstream) (es : List Introspection.Event) (t : Introspection),
      run Introspection.step (.start u) es = some t → t.NotTorn := by
  intro h
  have hnot := h (.notes [(10, "postgres"), (16400, "app")] [16400])
    [.query, .commit (.notes [(10, "postgres"), (16400, "app"), (16401, "web")] [16400, 16401]),
      .query, .query, .query, .query] _ rfl
  obtain ⟨u, -, -, hclosed⟩ := hnot rfl
  have hweb := hclosed.grants ⟨"public", "notes", "web"⟩ (by decide)
  exact absurd hweb (by decide)

end Pglite.Replica
