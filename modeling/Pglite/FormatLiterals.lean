import Mathlib.Data.Set.List
import Pglite.PgFormat
import Pglite.Transaction

/-!
# The parameters of a live query

A view has no parameters, so `live_query` puts the values into the text. `format_literals` of
`src/db.rs` writes each `$n` as `%nL` and has the server format the result with the values.

In a specifier of `format` a number alone is a width. So `%nL` takes the next value and not the
`n`-th one, and a percent sign of the text, or a `$` before a digit in a constant or a name, is no
longer what it was.

* `formatLiterals`: the function. The server counts the parameters of the statement, and formats.
* `Substituted`: the text with the parameters, as the server's lexer finds them, replaced.
* `filled`: the text with the next value for each parameter. It comes out when nothing else looks
  like a specifier (`format_subbed`), which shows in what `NULL`s bring (`plain_of_nulls`).
* `ordered_of_filled`: the next value is as good as the right one only where it is the same.
* `format_literals_faithful_iff`: the values of a statement get where they belong, whatever they
  are, exactly when its parameters are `$1`, `$2` and so on in their order, each once, and nothing
  else looks like a specifier.
-/

namespace Pglite.FormatLiterals

open SqlLexer PgFormat

/-! ## The function -/

/-- The loop over the characters. `digits` is set while it copies those of a placeholder. -/
def subbed (digits : Bool) : List Char → List Char
  | [] => if digits then ['L'] else []
  | c :: cs =>
    if digits && c.isDigit then c :: subbed true cs
    else
      (if digits then ['L'] else []) ++
        if c = '$' ∧ cs.head?.any Char.isDigit then '%' :: subbed true cs
        else c :: subbed false cs

/-- The server: what it says about a statement, and about a call of a function. -/
structure Server where
  /-- How many parameters a statement takes. -/
  describe : String → Except Error Nat
  /-- `max_function_args`. -/
  maxFunctionArgs : Nat
  maxFunctionArgs_le : maxFunctionArgs ≤ maxNumber
  /-- Its error for a call of `format` that it refuses. -/
  refused : Error

/-- `SELECT format($1, $2, …)`. -/
def Server.selectFormat (srv : Server) (text : List Char) (values : List (Option String)) :
    Except Error String :=
  if srv.maxFunctionArgs < values.length + 1 then .error srv.refused
  else
    match format (values.map quoteLiteral) .text 0 text with
    | some out => .ok (String.ofList out)
    | none => .error srv.refused

/-- `PGlite::format_literals`. -/
def formatLiterals (srv : Server) (sql : String) (params : List Param) : Except Error String :=
  if params = [] then .ok sql
  else
    match srv.describe sql with
    | .error e => .error e
    | .ok k =>
      if k ≠ params.length then
        .error (.protocol s!"statement takes {k} parameters, {params.length} given")
      else
        match (params.mapM id : Except String (List (Option String))) with
        | .error e => .error (.protocol e)
        | .ok values => srv.selectFormat (subbed false sql.toList) values

/-! ## What it is for -/

/-- The number of a parameter. -/
def paramNumber (l : Lexeme) : Nat := number l.raw.tail

/-- The numbers of the parameters of a statement, in their order. -/
def placeholders (ls : List Lexeme) : List Nat :=
  (ls.filter fun l => decide (l.kind = .param)).map paramNumber

/-- The text with each parameter replaced by its literal, with any blanks around it. -/
inductive Substituted (lits : List (List Char)) : List Lexeme → List Char → Prop
  | nil : Substituted lits [] []
  | other {l : Lexeme} {ls : List Lexeme} {out : List Char} : l.kind ≠ .param →
    Substituted lits ls out → Substituted lits (l :: ls) (l.raw ++ out)
  | param {l : Lexeme} {ls : List Lexeme} {lit out : List Char} (m n : Nat) : l.kind = .param →
    lits[paramNumber l - 1]? = some lit → Substituted lits ls out →
    Substituted lits (l :: ls)
      (List.replicate m ' ' ++ (lit ++ (List.replicate n ' ' ++ out)))

/-- The server accepts the statement with these parameters. -/
structure Accepted (srv : Server) (sql : String) (params : List Param) : Prop where
  describe : srv.describe sql = .ok params.length
  encoded : ∀ p ∈ params, ∃ v, p = .ok v

/-- What is returned is the text with its parameters replaced, and it is returned for what the
server accepts. -/
structure Faithful (srv : Server) (sql : String) (params : List Param) : Prop where
  substituted : ∀ out, formatLiterals srv sql params = .ok out →
    ∃ (values : List (Option String)) (ls : List Lexeme), params = values.map .ok ∧ lexemes sql.toList = some ls ∧
      Substituted (values.map quoteLiteral) ls out.toList
  returns : Accepted srv sql params → ∃ out, formatLiterals srv sql params = .ok out

/-- A statement that takes `k` parameters can be read, and has `$1` up to `$k` in it. -/
def Server.Counts (srv : Server) : Prop :=
  ∀ sql k, srv.describe sql = .ok k →
    ∃ ls, lexemes sql.toList = some ls ∧ ∀ n, n ∈ placeholders ls ↔ 1 ≤ n ∧ n ≤ k

/-- How often a digit follows a `$`. -/
def slots : List Char → Nat
  | [] => 0
  | c :: cs => (if c = '$' ∧ cs.head?.any Char.isDigit then 1 else 0) + slots cs

/-- The parameters are `$1` up to `$k`, in this order, and there are no percent signs and no other
`$` with a digit behind it. -/
structure InOrder (sql : String) (k : Nat) : Prop where
  percentFree : '%' ∉ sql.toList
  noOther : slots sql.toList ≤ k
  numbers : (lexemes sql.toList).map placeholders = some (List.range' 1 k)

/-! ## Lexemes and their characters -/

/-- A parameter is a `$` with digits, and all of those that follow. -/
def WellCut : List Lexeme → Prop
  | [] => True
  | l :: ls =>
    (l.kind = .param → ∃ ds, ds ≠ [] ∧ (∀ d ∈ ds, d.isDigit = true) ∧ l.raw = '$' :: ds ∧
      (ls.flatMap Lexeme.raw).head?.any Char.isDigit = false) ∧ WellCut ls

/-- What a parameter has so far. -/
def Begun (m : Mode) (raw : List Char) : Prop :=
  (m = .dollar → raw = ['$']) ∧
    (m = .param → ∃ ds, ds ≠ [] ∧ (∀ d ∈ ds, d.isDigit = true) ∧ raw = '$' :: ds)

theorem begun_first (c : Char) : Begun (.first c) [c] := by
  unfold Mode.first
  constructor
  · intro h
    split_ifs at h with _ _ _ hdollar
    rw [hdollar]
  · intro h
    split_ifs at h

theorem Begun.extend {m m' : Mode} {raw : List Char} {c : Char} (h : Begun m raw)
    (hext : m.extend raw c = some m') : Begun m' (raw ++ [c]) := by
  cases m with
  | dollar =>
    obtain rfl := h.1 rfl
    rw [Mode.extend] at hext
    have hm' := Option.some.inj hext
    split_ifs at hm' with hdigit
    · subst hm'
      exact ⟨by simp, fun _ => ⟨[c], by simp, by simpa using hdigit, rfl⟩⟩
    all_goals
      subst hm'
      exact ⟨by simp, by simp⟩
  | param =>
    obtain ⟨ds, hne, hds, rfl⟩ := h.2 rfl
    rw [Mode.extend] at hext
    split_ifs at hext with hdigit
    · obtain rfl := Option.some.inj hext
      refine ⟨by simp, fun _ => ⟨ds ++ [c], by simp, fun d hd => ?_, rfl⟩⟩
      rcases List.mem_append.1 hd with hd | hd
      · exact hds d hd
      · rw [List.mem_singleton.1 hd]
        exact hdigit
    · obtain rfl := Option.some.inj hext
      exact ⟨by simp, by simp⟩
  | _ =>
    -- No other lexeme becomes a parameter.
    constructor <;> rintro rfl <;> simp only [Mode.extend] at hext <;>
      (try split_ifs at hext) <;> cases hext

theorem kind_eq_param {m : Mode} (h : m.kind = some .param) : m = .param := by
  cases m with
  | stringEnd escapes => cases escapes <;> cases h
  | param => rfl
  | _ => cases h

/-- Lexemes put together are the text. -/
theorem lexFrom_cut {m : Mode} {raw cs : List Char} {ls : List Lexeme} (hm : Begun m raw)
    (h : lexFrom m raw cs = some ls) : raw ++ cs = ls.flatMap Lexeme.raw ∧ WellCut ls := by
  induction cs generalizing m raw ls with
  | nil =>
    obtain ⟨k, hk, rfl⟩ := Option.map_eq_some_iff.1 h
    refine ⟨by simp, fun hparam => ?_, trivial⟩
    obtain rfl : k = .param := hparam
    obtain ⟨ds, hne, hds, rfl⟩ := hm.2 (kind_eq_param hk)
    exact ⟨ds, hne, hds, rfl, rfl⟩
  | cons c cs ih =>
    rw [lexFrom] at h
    cases hext : m.extend raw c with
    | some m' =>
      rw [hext] at h
      obtain ⟨htext, hcut⟩ := ih (hm.extend hext) h
      exact ⟨by rw [← htext, List.append_assoc, List.singleton_append], hcut⟩
    | none =>
      rw [hext] at h
      obtain ⟨k, hk, h⟩ := Option.bind_eq_some_iff.1 h
      obtain ⟨ls, hls, rfl⟩ := Option.map_eq_some_iff.1 h
      obtain ⟨htext, hcut⟩ := ih (begun_first c) hls
      rw [List.singleton_append] at htext
      refine ⟨by rw [List.flatMap_cons, ← htext], fun hparam => ?_, hcut⟩
      obtain rfl : k = .param := hparam
      obtain rfl := kind_eq_param hk
      obtain ⟨ds, hne, hds, rfl⟩ := hm.2 rfl
      refine ⟨ds, hne, hds, rfl, ?_⟩
      rw [← htext, List.head?_cons, Option.any_some]
      rw [Mode.extend] at hext
      split_ifs at hext with hdigit
      simpa using hdigit

theorem lexemes_cut {cs : List Char} {ls : List Lexeme} (h : lexemes cs = some ls) :
    cs = ls.flatMap Lexeme.raw ∧ WellCut ls := by
  cases cs with
  | nil =>
    obtain rfl := Option.some.inj h
    exact ⟨rfl, trivial⟩
  | cons c cs => exact lexFrom_cut (begun_first c) h

theorem ne_of_isDigit {d c : Char} (h : d.isDigit = true) (hc : c.isDigit = false) : d ≠ c := by
  rintro rfl
  rw [h] at hc
  cases hc

/-! ## The loop -/

variable {lits : List (List Char)} {ls : List Lexeme} {cs rest out ds : List Char}

theorem slots_digits (hds : ∀ d ∈ ds, d.isDigit = true) (rest : List Char) :
    slots (ds ++ rest) = slots rest := by
  induction ds with
  | nil => rfl
  | cons d ds ih =>
    rw [List.forall_mem_cons] at hds
    rw [List.cons_append, slots, if_neg fun h => ne_of_isDigit hds.1 (by decide) h.1, ih hds.2,
      Nat.zero_add]

theorem slots_param (hne : ds ≠ []) (hds : ∀ d ∈ ds, d.isDigit = true) (rest : List Char) :
    slots ('$' :: ds ++ rest) = slots rest + 1 := by
  obtain ⟨d, ds, rfl⟩ := List.exists_cons_of_ne_nil hne
  have hhead : (d :: ds ++ rest).head?.any Char.isDigit = true := hds d List.mem_cons_self
  rw [List.cons_append, slots, if_pos ⟨rfl, hhead⟩, slots_digits hds, Nat.add_comm]

theorem slots_le_append (cs rest : List Char) : slots rest ≤ slots (cs ++ rest) := by
  induction cs with
  | nil => exact le_rfl
  | cons c cs ih =>
    rw [List.cons_append, slots]
    omega

theorem subbed_slot (h : cs.head?.any Char.isDigit = true) :
    subbed false ('$' :: cs) = '%' :: subbed true cs := by
  rw [subbed, Bool.false_and, if_neg (by decide), if_neg (by decide), if_pos ⟨rfl, h⟩]
  rfl

theorem subbed_copy {c : Char} (h : ¬(c = '$' ∧ cs.head?.any Char.isDigit = true)) :
    subbed false (c :: cs) = c :: subbed false cs := by
  rw [subbed, Bool.false_and, if_neg (by decide), if_neg h]
  rfl

theorem subbed_digits (hds : ∀ d ∈ ds, d.isDigit = true)
    (hrest : rest.head?.any Char.isDigit = false) :
    subbed true (ds ++ rest) = ds ++ 'L' :: subbed false rest := by
  induction ds with
  | nil =>
    cases rest with
    | nil => rfl
    | cons c rest =>
      have hc : c.isDigit = false := hrest
      simp [subbed, hc]
  | cons d ds ih =>
    rw [List.forall_mem_cons] at hds
    simp [subbed, hds.1, ih hds.2]

/-- A parameter becomes a specifier. -/
theorem subbed_param (hne : ds ≠ []) (hds : ∀ d ∈ ds, d.isDigit = true)
    (hrest : rest.head?.any Char.isDigit = false) :
    subbed false ('$' :: ds ++ rest) = '%' :: (ds ++ 'L' :: subbed false rest) := by
  have hhead : (ds ++ rest).head?.any Char.isDigit = true := by
    obtain ⟨d, ds, rfl⟩ := List.exists_cons_of_ne_nil hne
    exact hds d List.mem_cons_self
  rw [List.cons_append, subbed_slot hhead, subbed_digits hds hrest]

/-- Where no placeholder begins, the text is copied. -/
theorem subbed_text (h : slots (cs ++ rest) = slots rest) :
    subbed false (cs ++ rest) = cs ++ subbed false rest := by
  induction cs with
  | nil => rfl
  | cons c cs ih =>
    have hle := slots_le_append cs rest
    rw [List.cons_append, slots] at h
    split_ifs at h with hslot
    · omega
    · rw [List.cons_append, subbed_copy hslot, ih (by omega)]
      rfl

/-- A placeholder costs a `$` and brings a percent sign. Other characters stay. -/
theorem count_subbed {a : Char} (ha : a ≠ 'L') (digits : Bool) (cs : List Char) :
    (subbed digits cs).count a + (if a = '$' then slots cs else 0) =
      cs.count a + if a = '%' then slots cs else 0 := by
  have hlast : (if digits then ['L'] else []).count a = 0 := by
    cases digits <;> simp [Ne.symm ha]
  induction cs generalizing digits with
  | nil =>
    rw [subbed, hlast]
    simp [slots]
  | cons c cs ih =>
    have ihTrue := ih true (by simp [Ne.symm ha])
    have ihFalse := ih false (by simp)
    rw [subbed, slots]
    by_cases hdigit : (digits && c.isDigit) = true
    · have hslot : ¬(c = '$' ∧ cs.head?.any Char.isDigit = true) := fun h =>
        ne_of_isDigit (Bool.and_eq_true_iff.1 hdigit).2 (by decide) h.1
      rw [if_pos hdigit, if_neg hslot, Nat.zero_add, List.count_cons, List.count_cons]
      omega
    · rw [if_neg hdigit, List.count_append, hlast, Nat.zero_add]
      by_cases hslot : c = '$' ∧ cs.head?.any Char.isDigit = true
      · obtain rfl := hslot.1
        rw [if_pos hslot, if_pos hslot, List.count_cons, List.count_cons]
        simp only [beq_iff_eq, eq_comm (b := a)]
        split_ifs at ihTrue ⊢ <;> omega
      · rw [if_neg hslot, if_neg hslot, Nat.zero_add, List.count_cons, List.count_cons]
        omega

/-! ## Parameters and placeholders -/

theorem placeholders_cons_param {l : Lexeme} (h : l.kind = .param) (ls : List Lexeme) :
    placeholders (l :: ls) = paramNumber l :: placeholders ls := by
  simp [placeholders, h]

theorem placeholders_cons_other {l : Lexeme} (h : l.kind ≠ .param) (ls : List Lexeme) :
    placeholders (l :: ls) = placeholders ls := by
  simp [placeholders, h]

/-- Every parameter is a placeholder. -/
theorem length_placeholders_le (hcut : WellCut ls) :
    (placeholders ls).length ≤ slots (ls.flatMap Lexeme.raw) := by
  induction ls with
  | nil => exact le_rfl
  | cons l ls ih =>
    have hle := ih hcut.2
    rw [List.flatMap_cons]
    by_cases hl : l.kind = .param
    · obtain ⟨ds, hne, hds, hraw, -⟩ := hcut.1 hl
      rw [placeholders_cons_param hl, List.length_cons, hraw, slots_param hne hds]
      omega
    · rw [placeholders_cons_other hl]
      exact hle.trans (slots_le_append _ _)

/-- How often a character is in a text whose parameters were replaced. -/
theorem Substituted.count {a : Char} {w : Nat} (ha : a ≠ ' ') (hdigit : a.isDigit = false)
    (hlits : ∀ lit ∈ lits, lit.count a = w) (hcut : WellCut ls) (h : Substituted lits ls out) :
    out.count a + (if a = '$' then (placeholders ls).length else 0) =
      (ls.flatMap Lexeme.raw).count a + (placeholders ls).length * w := by
  induction h with
  | nil => simp [placeholders]
  | @other l ls out hl _ ih =>
    have hrest := ih hcut.2
    rw [List.flatMap_cons, List.count_append, List.count_append, placeholders_cons_other hl]
    omega
  | @param l ls lit out m n hl hlit _ ih =>
    obtain ⟨ds, hne, hds, hraw, -⟩ := hcut.1 hl
    have hrest := ih hcut.2
    have hblanks : ∀ k, (List.replicate k ' ').count a = 0 := fun k =>
      List.count_eq_zero.2 fun hmem => ha (List.eq_of_mem_replicate hmem)
    have hnone : ds.count a = 0 :=
      List.count_eq_zero.2 fun hmem => ne_of_isDigit (hds a hmem) hdigit rfl
    rw [List.flatMap_cons, placeholders_cons_param hl, hraw]
    simp only [List.count_append, List.count_cons, hblanks, hnone, List.length_cons,
      hlits lit (List.mem_of_getElem? hlit), Nat.add_mul, beq_iff_eq]
    by_cases hdollar : a = '$'
    · subst hdollar
      simp only [if_true] at hrest ⊢
      omega
    · rw [if_neg hdollar] at hrest ⊢
      rw [if_neg (Ne.symm hdollar)]
      omega

/-! ## The text that comes out -/

/-- The text with the next value for each parameter, when nothing else is a specifier. -/
def filled (lits : List (List Char)) : Nat → List Lexeme → Option (List Char)
  | _, [] => some []
  | j, l :: ls =>
    if l.kind = .param then
      (lits[j]?).bind fun lit =>
        (filled lits (j + 1) ls).map (pad false (paramNumber l) lit ++ ·)
    else (filled lits j ls).map (l.raw ++ ·)

theorem format_subbed (hcut : WellCut ls) (hpercent : '%' ∉ ls.flatMap Lexeme.raw)
    (hslots : slots (ls.flatMap Lexeme.raw) = (placeholders ls).length)
    (hmax : ∀ n ∈ placeholders ls, n ≤ maxNumber) (j : Nat) :
    format lits .text j (subbed false (ls.flatMap Lexeme.raw)) = filled lits j ls := by
  induction ls generalizing j with
  | nil => rfl
  | cons l ls ih =>
    rw [List.flatMap_cons] at hpercent hslots ⊢
    rw [List.mem_append, not_or] at hpercent
    rw [filled]
    by_cases hl : l.kind = .param
    · obtain ⟨ds, hne, hds, hraw, hrest⟩ := hcut.1 hl
      rw [placeholders_cons_param hl] at hslots hmax
      rw [hraw, slots_param hne hds, List.length_cons] at hslots
      rw [List.forall_mem_cons, paramNumber, hraw] at hmax
      rw [if_pos hl, hraw, subbed_param hne hds hrest, format_width hne hds hmax.1,
        ih hcut.2 hpercent.2 (Nat.succ.inj hslots) hmax.2, paramNumber, hraw]
      rfl
    · rw [placeholders_cons_other hl] at hslots hmax
      have hsame : slots (l.raw ++ ls.flatMap Lexeme.raw) = slots (ls.flatMap Lexeme.raw) := by
        have hle := length_placeholders_le hcut.2
        have hmore := slots_le_append l.raw (ls.flatMap Lexeme.raw)
        omega
      rw [if_neg hl, subbed_text hsame, format_text hpercent.1,
        ih hcut.2 hpercent.2 (hsame.symm.trans hslots) hmax]

/-- There is a value for each parameter. -/
theorem length_of_filled {j : Nat} (hj : j ≤ lits.length) (h : filled lits j ls = some out) :
    j + (placeholders ls).length ≤ lits.length := by
  induction ls generalizing j out with
  | nil => exact hj
  | cons l ls ih =>
    rw [filled] at h
    split_ifs at h with hl
    · obtain ⟨lit, hlit, h⟩ := Option.bind_eq_some_iff.1 h
      obtain ⟨out', hout, -⟩ := Option.map_eq_some_iff.1 h
      have hlt := (List.getElem?_eq_some_iff.1 hlit).1
      have hle := ih hlt hout
      rw [placeholders_cons_param hl, List.length_cons]
      omega
    · obtain ⟨out', hout, -⟩ := Option.map_eq_some_iff.1 h
      rw [placeholders_cons_other hl]
      exact ih hj hout

/-- The next value is the right one for each parameter. -/
def Ordered (lits : List (List Char)) (j : Nat) (ls : List Lexeme) : Prop :=
  ∀ i n, (placeholders ls)[i]? = some n → lits[n - 1]? = lits[j + i]?

theorem filled_of_ordered {j : Nat} (hlen : j + (placeholders ls).length ≤ lits.length)
    (h : Ordered lits j ls) : ∃ out, filled lits j ls = some out ∧ Substituted lits ls out := by
  induction ls generalizing j with
  | nil => exact ⟨[], rfl, .nil⟩
  | cons l ls ih =>
    rw [filled]
    by_cases hl : l.kind = .param
    · rw [placeholders_cons_param hl, List.length_cons] at hlen
      have hordered : ∀ i n, (paramNumber l :: placeholders ls)[i]? = some n →
          lits[n - 1]? = lits[j + i]? := placeholders_cons_param hl ls ▸ h
      obtain ⟨out, hout, hsub⟩ := ih (j := j + 1) (by omega) fun i n hn => by
        rw [hordered (i + 1) n (by simpa using hn)]
        congr 1
        omega
      obtain ⟨lit, hlit⟩ : ∃ lit, lits[j]? = some lit := ⟨_, List.getElem?_eq_getElem (by omega)⟩
      have hown : lits[paramNumber l - 1]? = some lit := (hordered 0 _ rfl).trans hlit
      refine ⟨pad false (paramNumber l) lit ++ out, by rw [if_pos hl, hlit, hout]; rfl, ?_⟩
      have hsubst := Substituted.param (paramNumber l - lit.length) 0 hl hown hsub
      rw [pad_false, List.append_assoc]
      exact hsubst
    · rw [placeholders_cons_other hl] at hlen
      obtain ⟨out, hout, hsub⟩ := ih hlen fun i n hn => h i n (placeholders_cons_other hl ls ▸ hn)
      exact ⟨l.raw ++ out, by rw [if_neg hl, hout]; rfl, .other hl hsub⟩

/-! ## Literals that tell which value they are -/

/-- None of the literals begins with a blank, and none is the beginning of another. -/
structure Apart (lits : List (List Char)) : Prop where
  first : ∀ lit ∈ lits, ∃ c cs, lit = c :: cs ∧ c ≠ ' '
  apart : ∀ a ∈ lits, ∀ b ∈ lits, ∀ r s, a ++ r = b ++ s → a = b

/-- Blanks before something else. -/
theorem blanks_cancel {m n : Nat} {c d : Char} {cs ds : List Char} (hc : c ≠ ' ') (hd : d ≠ ' ')
    (h : List.replicate m ' ' ++ c :: cs = List.replicate n ' ' ++ d :: ds) :
    c :: cs = d :: ds := by
  induction m generalizing n with
  | zero =>
    cases n with
    | zero => exact h
    | succ n =>
      rw [List.replicate_succ, List.replicate_zero, List.nil_append, List.cons_append] at h
      exact absurd (List.cons.inj h).1 hc
  | succ m ih =>
    cases n with
    | zero =>
      rw [List.replicate_succ, List.replicate_zero, List.nil_append, List.cons_append] at h
      exact absurd (List.cons.inj h).1.symm hd
    | succ n =>
      rw [List.replicate_succ, List.replicate_succ, List.cons_append, List.cons_append] at h
      exact ih (List.cons.inj h).2

/-- Blanks that are too many before some text are too many behind it. -/
theorem blanks_shift {m : Nat} {xs ys raw : List Char}
    (h : raw ++ xs = List.replicate m ' ' ++ (raw ++ ys)) : xs = List.replicate m ' ' ++ ys := by
  induction raw with
  | nil => exact h
  | cons c raw ih =>
    cases m with
    | zero => exact List.append_cancel_left h
    | succ m =>
      rw [List.replicate_succ, List.cons_append, List.cons_append, List.cons_append] at h
      obtain ⟨rfl, h⟩ := List.cons.inj h
      refine ih (h.trans ?_)
      rw [List.replicate_succ', List.append_assoc]
      rfl

/-- **The order shows.** Where the next value is as good as the right one, it is the same. -/
theorem ordered_of_filled (hlits : Apart lits) {j m : Nat} {out' : List Char}
    (hfilled : filled lits j ls = some out') (hsub : Substituted lits ls out)
    (hout : out' = List.replicate m ' ' ++ out) : Ordered lits j ls := by
  induction hsub generalizing j m out' with
  | nil =>
    intro i n hn
    cases hn
  | @other l ls out hl _ ih =>
    rw [filled, if_neg hl] at hfilled
    obtain ⟨more, hmore, rfl⟩ := Option.map_eq_some_iff.1 hfilled
    intro i n hn
    exact ih hmore (blanks_shift hout) i n (placeholders_cons_other hl ls ▸ hn)
  | @param l ls lit out p q hl hlit _ ih =>
    rw [filled, if_pos hl] at hfilled
    obtain ⟨next, hnext, h⟩ := Option.bind_eq_some_iff.1 hfilled
    obtain ⟨more, hmore, rfl⟩ := Option.map_eq_some_iff.1 h
    have hmemNext := List.mem_of_getElem? hnext
    have hmemLit := List.mem_of_getElem? hlit
    -- Without the blanks before them, the literals and what follows are the same.
    have hsame : next ++ more = lit ++ (List.replicate q ' ' ++ out) := by
      obtain ⟨c, cs, rfl, hc⟩ := hlits.first next hmemNext
      obtain ⟨d, ds, rfl, hd⟩ := hlits.first lit hmemLit
      refine blanks_cancel (m := paramNumber l - (c :: cs).length) (n := m + p) hc hd ?_
      rw [pad_false, List.append_assoc] at hout
      rw [List.replicate_add, List.append_assoc]
      exact hout
    obtain rfl := hlits.apart _ hmemNext _ hmemLit _ _ hsame
    have hrest := ih hmore (List.append_cancel_left hsame)
    intro i n hn
    rw [placeholders_cons_param hl] at hn
    cases i with
    | zero =>
      obtain rfl := Option.some.inj hn
      exact hlit.trans hnext.symm
    | succ i =>
      rw [hrest i n (by simpa using hn)]
      congr 1
      omega

/-! ## The values -/

variable {srv : Server} {sql : String} {params : List Param} {k : Nat}

/-- The values are what the parameters are encoded as, if they all are. -/
theorem mapM_id_ok {values : List (Option String)} :
    params.mapM id = .ok values ↔ params = values.map .ok := by
  constructor
  · intro h
    induction params generalizing values with
    | nil =>
      obtain rfl := Except.ok.inj h
      rfl
    | cons p params ih =>
      rw [List.mapM_cons] at h
      cases p with
      | error e => cases h
      | ok v =>
        cases hparams : params.mapM id with
        | error e =>
          rw [hparams] at h
          cases h
        | ok vs =>
          rw [hparams] at h
          obtain rfl := Except.ok.inj h
          rw [ih hparams]
          rfl
  · rintro rfl
    induction values with
    | nil => rfl
    | cons v values ih =>
      rw [List.map_cons, List.mapM_cons, ih]
      rfl

theorem exists_values (h : ∀ p ∈ params, ∃ v, p = .ok v) :
    ∃ values : List (Option String), params = values.map .ok := by
  have hmem : params ∈ Set.range (List.map (Except.ok : Option String → Param)) := by
    rw [Set.range_list_map]
    exact fun p hp => (h p hp).imp fun _ hv => hv.symm
  obtain ⟨values, hvalues⟩ := hmem
  exact ⟨values, hvalues.symm⟩

/-- With parameters, the result is what `format` returns for their values. -/
theorem formatLiterals_ok_iff {out : String} (hne : params ≠ [])
    (hk : srv.describe sql = .ok params.length) :
    formatLiterals srv sql params = .ok out ↔
      ∃ values : List (Option String), params = values.map .ok ∧
        params.length < srv.maxFunctionArgs ∧
        format (values.map quoteLiteral) .text 0 (subbed false sql.toList) = some out.toList := by
  rw [formatLiterals, if_neg hne, hk]
  simp only [ne_eq, not_true_eq_false, if_false]
  cases hvalues : (params.mapM id : Except String (List (Option String))) with
  | error e =>
    constructor
    · intro h
      cases h
    · rintro ⟨values, hparams, -, -⟩
      rw [mapM_id_ok.2 hparams] at hvalues
      cases hvalues
  | ok values =>
    have hparams := mapM_id_ok.1 hvalues
    have hlen : params.length = values.length := by rw [hparams, List.length_map]
    constructor
    · intro h
      refine ⟨values, hparams, ?_⟩
      simp only [Server.selectFormat] at h
      split_ifs at h with hargs
      split at h
      · next chars hformat =>
        obtain rfl := Except.ok.inj h
        exact ⟨by omega, by rw [hformat, String.toList_ofList]⟩
      · cases h
    · rintro ⟨values', hparams', hargs, hformat⟩
      rw [mapM_id_ok.2 hparams'] at hvalues
      obtain rfl := Except.ok.inj hvalues
      simp only [Server.selectFormat]
      rw [if_neg (by omega), hformat]
      simp

theorem Substituted.copy (h : placeholders ls = []) :
    Substituted lits ls (ls.flatMap Lexeme.raw) := by
  induction ls with
  | nil => exact .nil
  | cons l ls ih =>
    by_cases hl : l.kind = .param
    · rw [placeholders_cons_param hl] at h
      cases h
    · rw [placeholders_cons_other hl] at h
      exact .other hl (ih h)

/-! ## Parameters in their order -/

theorem faithful_of_nil (hsrv : srv.Counts) (hk : srv.describe sql = .ok 0) :
    Faithful srv sql [] := by
  obtain ⟨ls, hls, hnumbers⟩ := hsrv sql 0 hk
  have hnone : placeholders ls = [] := by
    refine List.eq_nil_iff_forall_not_mem.2 fun n hn => ?_
    have hbounds := (hnumbers n).1 hn
    omega
  refine ⟨fun out hout => ⟨[], ls, rfl, hls, ?_⟩, fun _ => ⟨sql, rfl⟩⟩
  obtain rfl := Except.ok.inj hout
  rw [(lexemes_cut hls).1]
  exact .copy hnone

/-- What is formatted, when nothing but the parameters looks like one. -/
theorem format_of_inOrder (h : InOrder sql k) (hk : k ≤ maxNumber) :
    ∃ ls, lexemes sql.toList = some ls ∧ (placeholders ls).length = k ∧
      ∀ lits : List (List Char), lits.length = k →
        ∃ out, format lits .text 0 (subbed false sql.toList) = some out ∧
          Substituted lits ls out := by
  obtain ⟨ls, hls, hnumbers⟩ := Option.map_eq_some_iff.1 h.numbers
  obtain ⟨htext, hcut⟩ := lexemes_cut hls
  have hlen : (placeholders ls).length = k := by rw [hnumbers, List.length_range']
  have hslots : slots (ls.flatMap Lexeme.raw) = (placeholders ls).length :=
    le_antisymm (by rw [hlen, ← htext]; exact h.noOther) (length_placeholders_le hcut)
  refine ⟨ls, hls, hlen, fun lits hlits => ?_⟩
  have hordered : Ordered lits 0 ls := by
    intro i n hn
    rw [hnumbers] at hn
    obtain ⟨hi, rfl⟩ := List.getElem?_eq_some_iff.1 hn
    rw [List.getElem_range', Nat.zero_add]
    congr 1
    omega
  obtain ⟨out, hout, hsub⟩ := filled_of_ordered (by omega) hordered
  refine ⟨out, ?_, hsub⟩
  rw [htext, format_subbed hcut (htext ▸ h.percentFree) hslots ?_ 0, hout]
  intro n hn
  rw [hnumbers, List.mem_range'_1] at hn
  omega

theorem faithful_of_inOrder (hk : srv.describe sql = .ok params.length) (hne : params ≠ [])
    (hargs : params.length < srv.maxFunctionArgs) (h : InOrder sql params.length) :
    Faithful srv sql params := by
  have hmax : params.length ≤ maxNumber := hargs.le.trans srv.maxFunctionArgs_le
  obtain ⟨ls, hls, -, hformat⟩ := format_of_inOrder h hmax
  constructor
  · intro out hout
    obtain ⟨values, hparams, -, hout⟩ := (formatLiterals_ok_iff hne hk).1 hout
    obtain ⟨out', hout', hsub⟩ := hformat (values.map quoteLiteral) (by simp [hparams])
    obtain rfl := Option.some.inj (hout'.symm.trans hout)
    exact ⟨values, ls, hparams, hls, hsub⟩
  · intro haccepted
    obtain ⟨values, hparams⟩ := exists_values haccepted.encoded
    obtain ⟨out, hout, -⟩ := hformat (values.map quoteLiteral) (by simp [hparams])
    exact ⟨String.ofList out, (formatLiterals_ok_iff hne hk).2
      ⟨values, hparams, hargs, by rw [hout, String.toList_ofList]⟩⟩

/-- With `NULL` for each of them, nothing but the parameters is a specifier. -/
theorem plain_of_nulls (hcut : WellCut ls)
    (hformat : format (List.replicate k "NULL".toList) .text 0
      (subbed false (ls.flatMap Lexeme.raw)) = some out)
    (hsub : Substituted (List.replicate k "NULL".toList) ls out) :
    '%' ∉ ls.flatMap Lexeme.raw ∧
      slots (ls.flatMap Lexeme.raw) = (placeholders ls).length := by
  have hnull : ∀ lit ∈ List.replicate k "NULL".toList, lit = "NULL".toList := fun lit hmem =>
    List.eq_of_mem_replicate hmem
  have hcount : ∀ (a : Char) (w : Nat), "NULL".toList.count a = w →
      ∀ lit ∈ List.replicate k "NULL".toList, lit.count a = w := fun a w ha lit hmem => by
    rw [hnull lit hmem, ha]
  -- A `$` that is left has no digit behind it.
  have hdollar := count_format_le (a := '$') (by decide) (hcount '$' 0 (by decide)) hformat
  have hdollarSubbed := count_subbed (a := '$') (by decide) false (ls.flatMap Lexeme.raw)
  have hdollarSub := hsub.count (a := '$') (by decide) (by decide) (hcount '$' 0 (by decide)) hcut
  have hle := length_placeholders_le hcut
  -- Each specifier brings one `U`.
  have hweight := weight_format_le (a := 'U') (by decide) (fun lit hmem =>
    ⟨(hcount 'U' 1 (by decide) lit hmem).le, hcount '%' 0 (by decide) lit hmem⟩) hformat
  have hletterSubbed := count_subbed (a := 'U') (by decide) false (ls.flatMap Lexeme.raw)
  have hletterSub := hsub.count (a := 'U') (by decide) (by decide) (hcount 'U' 1 (by decide)) hcut
  have hpercentSubbed := count_subbed (a := '%') (by decide) false (ls.flatMap Lexeme.raw)
  have hpercentSub := hsub.count (a := '%') (by decide) (by decide) (hcount '%' 0 (by decide)) hcut
  rw [if_pos rfl, if_neg (by decide)] at hdollarSubbed
  rw [if_pos rfl] at hdollarSub hweight
  rw [if_neg (by decide), if_neg (by decide)] at hletterSubbed
  rw [if_neg (by decide)] at hletterSub hpercentSub
  rw [if_neg (by decide), if_pos rfl] at hpercentSubbed
  rw [← List.count_eq_zero]
  constructor <;> omega

/-- What a faithful result says about what was formatted. -/
theorem formatted_of_faithful (hk : srv.describe sql = .ok k) (hpos : k ≠ 0)
    (hls : lexemes sql.toList = some ls) {values : List (Option String)} (hlen : values.length = k)
    (h : Faithful srv sql (values.map .ok)) :
    k < srv.maxFunctionArgs ∧
      ∃ out, format (values.map quoteLiteral) .text 0 (subbed false sql.toList) = some out ∧
        Substituted (values.map quoteLiteral) ls out := by
  have hinj : Function.Injective (List.map (Except.ok : Option String → Param)) :=
    List.map_injective_iff.2 fun _ _ => Except.ok.inj
  have hsame : (values.map Except.ok : List Param).length = k := by rw [List.length_map, hlen]
  have hparams : (values.map Except.ok : List Param) ≠ [] := by
    intro hnil
    rw [hnil] at hsame
    exact hpos hsame.symm
  have hdescribe : srv.describe sql = .ok (values.map Except.ok : List Param).length := by
    rw [hk, hsame]
  obtain ⟨out, hout⟩ := h.returns ⟨hdescribe, by simp⟩
  obtain ⟨values', ls', hvalues, hls', hsub⟩ := h.substituted out hout
  obtain rfl := hinj hvalues
  obtain rfl := Option.some.inj (hls.symm.trans hls')
  obtain ⟨values', hvalues, hargs, hformat⟩ := (formatLiterals_ok_iff hparams hdescribe).1 hout
  obtain rfl := hinj hvalues
  exact ⟨hsame ▸ hargs, out.toList, hformat, hsub⟩

/-- `NULL` for each parameter but one. -/
def marked (k i : Nat) : List (Option String) := (List.replicate k none).set i (some "x")

theorem length_marked (k i : Nat) : (marked k i).length = k := by
  rw [marked, List.length_set, List.length_replicate]

theorem quoteLiteral_marked {i j : Nat} (h : j < k) :
    ((marked k i).map quoteLiteral)[j]? =
      some (if i = j then [singleQuote, 'x', singleQuote] else "NULL".toList) := by
  rw [List.getElem?_map, marked, List.getElem?_set, List.getElem?_replicate,
    List.length_replicate, if_pos h]
  by_cases hij : i = j
  · rw [if_pos hij, if_pos hij, if_pos (hij ▸ h)]
    decide
  · rw [if_neg hij, if_neg hij]
    rfl

theorem apart_marked (k i : Nat) : Apart ((marked k i).map quoteLiteral) := by
  have hcases : ∀ lit ∈ (marked k i).map quoteLiteral,
      lit = [singleQuote, 'x', singleQuote] ∨ lit = "NULL".toList := by
    intro lit hmem
    obtain ⟨j, hj, rfl⟩ := List.mem_iff_getElem.1 hmem
    rw [List.length_map, length_marked] at hj
    have hlit := quoteLiteral_marked (i := i) hj
    rw [List.getElem?_eq_getElem (by simpa [length_marked] using hj)] at hlit
    rw [Option.some.inj hlit]
    split_ifs <;> simp
  constructor
  · intro lit hmem
    obtain rfl | rfl := hcases lit hmem
    · exact ⟨singleQuote, ['x', singleQuote], rfl, by decide⟩
    · exact ⟨'N', ['U', 'L', 'L'], rfl, by decide⟩
  · intro a ha b hb r s h
    obtain rfl | rfl := hcases a ha <;> obtain rfl | rfl := hcases b hb
    · rfl
    · exact absurd (List.cons.inj h).1 (by decide)
    · exact absurd (List.cons.inj h).1 (by decide)
    · rfl

theorem eq_range'_of_getElem? {ns : List Nat} (h : ∀ i n, ns[i]? = some n → n = i + 1) :
    ns = List.range' 1 ns.length := by
  refine List.ext_getElem (by simp) fun i hi _ => ?_
  rw [List.getElem_range', h i _ (List.getElem?_eq_getElem hi)]
  omega

/-- The values `NULL`, and the one that is not among them, show that the condition holds. -/
theorem inOrder_of_faithful (hsrv : srv.Counts) (hk : srv.describe sql = .ok k) (hpos : k ≠ 0)
    (h : ∀ params : List Param, params.length = k → Faithful srv sql params) :
    k < srv.maxFunctionArgs ∧ InOrder sql k := by
  obtain ⟨ls, hls, hnumbers⟩ := hsrv sql k hk
  obtain ⟨htext, hcut⟩ := lexemes_cut hls
  obtain ⟨hargs, out, hout, hsub⟩ := formatted_of_faithful hk hpos hls
    (List.length_replicate (a := none)) (h _ (by simp))
  rw [List.map_replicate] at hout hsub
  rw [htext] at hout
  obtain ⟨hpercent, hslots⟩ := plain_of_nulls hcut hout hsub
  have hmax : ∀ n ∈ placeholders ls, n ≤ maxNumber := fun n hn =>
    ((hnumbers n).1 hn).2.trans (hargs.le.trans srv.maxFunctionArgs_le)
  rw [format_subbed hcut hpercent hslots hmax] at hout
  have hle : (placeholders ls).length ≤ k := by
    simpa using length_of_filled (Nat.zero_le _) hout
  -- The value of the `n`-th parameter, when it is the only one, is where the `n`-th one is.
  have horder : ∀ i n, (placeholders ls)[i]? = some n → n = i + 1 := by
    intro i n hn
    obtain ⟨hn1, hnk⟩ := (hnumbers n).1 (List.mem_of_getElem? hn)
    have hi : i < k := (List.getElem?_eq_some_iff.1 hn).1.trans_le hle
    obtain ⟨-, out', hout', hsub'⟩ := formatted_of_faithful hk hpos hls
      (length_marked k (n - 1)) (h _ (by rw [List.length_map, length_marked]))
    rw [htext, format_subbed hcut hpercent hslots hmax] at hout'
    have hordered := ordered_of_filled (m := 0) (apart_marked k (n - 1)) hout' hsub' rfl i n hn
    rw [quoteLiteral_marked (by omega), if_pos rfl, Nat.zero_add, quoteLiteral_marked hi]
      at hordered
    split_ifs at hordered with heq
    · omega
    · exact absurd (Option.some.inj hordered) (by decide)
  have hall := eq_range'_of_getElem? horder
  have hlast : k ∈ placeholders ls := (hnumbers k).2 ⟨by omega, le_rfl⟩
  have hlen : (placeholders ls).length = k := by
    rw [hall, List.mem_range'_1] at hlast
    omega
  refine ⟨hargs, ⟨htext ▸ hpercent, ?_, ?_⟩⟩
  · rw [htext, hslots, hlen]
  · rw [hls, Option.map_some, hall, hlen]

/-- **Literals get where they belong** for all values of a statement exactly when it has no
parameters, or not as many as a function can have arguments, and in their order. -/
theorem format_literals_faithful_iff (srv : Server) (hsrv : srv.Counts) (sql : String) (k : Nat)
    (hk : srv.describe sql = .ok k) :
    (∀ params : List Param, params.length = k → Faithful srv sql params) ↔
      k = 0 ∨ (k < srv.maxFunctionArgs ∧ InOrder sql k) := by
  constructor
  · intro h
    by_cases hpos : k = 0
    · exact .inl hpos
    · exact .inr (inOrder_of_faithful hsrv hk hpos h)
  · rintro (rfl | ⟨hargs, horder⟩) params hlen
    · rw [List.length_eq_zero_iff.1 hlen]
      exact faithful_of_nil hsrv hk
    · subst hlen
      by_cases hne : params = []
      · subst hne
        exact faithful_of_nil hsrv hk
      · exact faithful_of_inOrder hk hne hargs horder

/-! ## A server -/

/-- A server that takes what it can read, when the parameters have no gap. -/
def readingServer : Server where
  describe sql :=
    match lexemes sql.toList with
    | none => .error (.protocol "syntax error")
    | some ls =>
      let k := (placeholders ls).max?.getD 0
      if (∀ n ∈ placeholders ls, 1 ≤ n) ∧ ∀ n ∈ List.range' 1 k, n ∈ placeholders ls then .ok k
      else .error (.protocol "could not determine data type of parameter")
  maxFunctionArgs := 100
  maxFunctionArgs_le := by decide
  refused := .protocol "format"

theorem counts_readingServer : readingServer.Counts := by
  intro sql k hk
  simp only [readingServer] at hk
  split at hk
  · cases hk
  · next ls hls =>
    split_ifs at hk with hnumbers
    obtain rfl := Except.ok.inj hk
    refine ⟨ls, hls, fun n => ⟨fun hn => ⟨hnumbers.1 n hn, List.le_max?_getD_of_mem hn⟩, ?_⟩⟩
    rintro ⟨hn1, hnk⟩
    exact hnumbers.2 n (List.mem_range'_1.2 ⟨hn1, by omega⟩)

theorem format_literals_in_order :
    formatLiterals readingServer "SELECT '5$' FROM todos WHERE done = $1 AND owner = $2"
        [.ok (some "f"), .ok none] =
      .ok "SELECT '5$' FROM todos WHERE done = 'f' AND owner = NULL" ∧
    Faithful readingServer "SELECT '5$' FROM todos WHERE done = $1 AND owner = $2"
      [.ok (some "f"), .ok none] :=
  ⟨rfl, (format_literals_faithful_iff readingServer counts_readingServer _ 2 rfl).2
    (.inr ⟨by decide, ⟨by decide, by decide, by decide⟩⟩) _ rfl⟩

/-- The other way round, each value gets into the place of the other one, and what `LIKE` needs is
refused. -/
theorem format_literals_swaps :
    formatLiterals readingServer "SELECT * FROM t WHERE up IS NOT DISTINCT FROM $2 AND owner = $1"
        [.ok (some "x"), .ok none] =
      .ok "SELECT * FROM t WHERE up IS NOT DISTINCT FROM 'x' AND owner = NULL" ∧
    ¬ Faithful readingServer "SELECT * FROM t WHERE up IS NOT DISTINCT FROM $2 AND owner = $1"
        [.ok (some "x"), .ok none] ∧
    ¬ Faithful readingServer "SELECT * FROM t WHERE title LIKE 'a%' AND owner = $1"
        [.ok (some "x")] := by
  have hformatted : formatLiterals readingServer
      "SELECT * FROM t WHERE up IS NOT DISTINCT FROM $2 AND owner = $1"
      [.ok (some "x"), .ok none] =
    .ok "SELECT * FROM t WHERE up IS NOT DISTINCT FROM 'x' AND owner = NULL" := rfl
  refine ⟨hformatted, fun h => ?_, fun h => ?_⟩
  · obtain ⟨values, ls, hvalues, hls, hsub⟩ := h.substituted _ hformatted
    obtain rfl : marked 2 0 = values :=
      List.map_injective_iff.2 (fun _ _ => Except.ok.inj) hvalues
    have hfilled : (lexemes
        "SELECT * FROM t WHERE up IS NOT DISTINCT FROM $2 AND owner = $1".toList).bind
        (filled ((marked 2 0).map quoteLiteral) 0) =
      some "SELECT * FROM t WHERE up IS NOT DISTINCT FROM 'x' AND owner = NULL".toList := rfl
    have hnumbers : (lexemes
        "SELECT * FROM t WHERE up IS NOT DISTINCT FROM $2 AND owner = $1".toList).map
        placeholders = some [2, 1] := rfl
    rw [hls] at hfilled hnumbers
    have hordered := ordered_of_filled (m := 0) (apart_marked 2 0) hfilled hsub rfl 0 2
      (by rw [Option.some.inj hnumbers]; rfl)
    exact absurd hordered (by decide)
  · obtain ⟨out, hout⟩ := h.returns ⟨rfl, by simp⟩
    cases hout

end Pglite.FormatLiterals
