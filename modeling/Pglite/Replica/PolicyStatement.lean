import Mathlib.Data.Finset.Dedup
import Pglite.Replica.RowStatement
import Pglite.Replica.Reconcile

/-!
# Reading `CREATE POLICY`

A policy of the upstream goes through a row of the answer, where its roles are one text joined with
commas, into a `PolicyDef`, and from there into the statement that makes it locally. The statement
is read back here with the rules of SQL.

`policy_audience_kept_iff`: it is the policy, audience included, exactly when no role has a comma in
its name, or the policy is for `PUBLIC` anyway.
-/

namespace Pglite.Replica

open Text SqlLexer

/-! ## Statements -/

/-- Whom a policy is for. -/
inductive Audience
  | everyone
  | roles (names : Finset String)
deriving DecidableEq

/-- The audience that a list of role names stands for: `public` is everyone. -/
def Audience.ofNames (names : List String) : Audience :=
  if "public" ∈ names then .everyone else .roles names.toFinset

structure PolicyStatement where
  name : String
  schema : String
  table : String
  permissive : Bool
  cmd : String
  audience : Audience
  usingTokens : Option (List Token)
  checkTokens : Option (List Token)
deriving DecidableEq

/-- The policy as a statement on its table. -/
def PolicyDef.statement (p : PolicyDef) : PolicyStatement where
  name := p.name
  schema := p.schema
  table := p.table
  permissive := p.permissive
  cmd := p.cmd
  audience := Audience.ofNames p.roles
  usingTokens := p.usingExpr.bind fun e => tokens e.toList
  checkTokens := p.checkExpr.bind fun e => tokens e.toList

/-! ## Reading -/

def readKind : Token → Option Bool
  | .word "permissive" => some true
  | .word "restrictive" => some false
  | _ => none

/-- The commands of a policy, as the catalog spells them. -/
def policyCmds : List String :=
  ["ALL", "SELECT", "INSERT", "UPDATE", "DELETE"]

def readCmd (t : Token) : Option String :=
  policyCmds.find? fun cmd => decide (t = .word (String.ofList (cmd.toList.map Char.toLower)))

/-- A role, as its name for `Audience.ofNames`. Also a quoted `public` is everyone. -/
def readRole : List Token → Option String
  | [.word "public"] => some "public"
  | [.name s] => some s
  | _ => none

def readUsing : List Token → Option (Option (List Token) × List Token)
  | .word "using" :: .symbol '(' :: ts => (matchParen 0 ts).map fun p => (some p.1, p.2)
  | ts => some (none, ts)

def readCheck : List Token → Option (Option (List Token) × List Token)
  | .word "with" :: .word "check" :: .symbol '(' :: ts =>
    (matchParen 0 ts).map fun p => (some p.1, p.2)
  | ts => some (none, ts)

/-- The token belongs to the list of roles. -/
def isRoleToken (t : Token) : Bool :=
  decide (t ≠ .word "using") && decide (t ≠ .word "with")

/-- The audience and the expressions. -/
def readClauses (ts : List Token) : Option (Audience × Option (List Token) × Option (List Token)) := do
  let names ← readList (.symbol ',') readRole (ts.takeWhile isRoleToken)
  let (usingTokens, ts) ← readUsing (ts.dropWhile isRoleToken)
  let (checkTokens, ts) ← readCheck ts
  if ts = [] then some (Audience.ofNames names, usingTokens, checkTokens) else none

def readPolicy : List Token → Option PolicyStatement
  | .word "create" :: .word "policy" :: .name name :: .word "on" :: .name schema :: .symbol '.' ::
      .name table :: .word "as" :: kind :: .word "for" :: cmd :: .word "to" :: ts => do
    let permissive ← readKind kind
    let cmd ← readCmd cmd
    let (audience, usingTokens, checkTokens) ← readClauses ts
    some ⟨name, schema, table, permissive, cmd, audience, usingTokens, checkTokens⟩
  | _ => none

def readPolicySql (sql : String) : Option (List PolicyStatement) :=
  readScript readPolicy sql

/-! ## Tokens -/

/-- A `USING` or `WITH CHECK` clause, by its key words. -/
def clauseTokens (words : List Token) : Option (List Token) → List Token
  | none => []
  | some ts => words ++ .symbol '(' :: (ts ++ [.symbol ')'])

/-- The names of a policy are names, its command is one, and its expressions are some. -/
structure PolicyDef.Proper (p : PolicyDef) : Prop where
  schema : p.schema ≠ ""
  table : p.table ≠ ""
  name : p.name ≠ ""
  cmd : p.cmd ∈ policyCmds
  usingExpr : ∀ e ∈ p.usingExpr, IsExpr e
  checkExpr : ∀ e ∈ p.checkExpr, IsExpr e

/-- What a clause adds to the statement. -/
structure Clause (text : String) (words : List Token) (expr : Option (List Token)) : Prop where
  reads : Reads text.toList (clauseTokens words expr)
  delimited : Delimited text.toList
  balanced : ∀ e ∈ expr, balance 0 e = some 0 ∧ .symbol ';' ∉ e

/-- A clause is its key words with an expression in parentheses behind them. -/
theorem clause_of {words : List Token} {start : List Char} (hsep : Separates start words)
    {f : String → String} (hf : ∀ e, (f e).toList = start ++ '(' :: (e.toList ++ [')']))
    {expr : Option String} (h : ∀ e ∈ expr, IsExpr e) :
    Clause ((expr.map f).getD "") words (expr.bind fun e => tokens e.toList) := by
  cases expr with
  | none => exact ⟨reads_nil, delimited_nil, nofun⟩
  | some e =>
    obtain ⟨ts, htokens, hreads, hbalance⟩ := (h e rfl).reads
    rw [Option.map_some, Option.getD_some, Option.bind_some, htokens]
    refine ⟨?_, ?_, ?_⟩
    · rw [hf, clauseTokens]
      exact hsep.reads hreads
    · rw [hf]
      exact hsep.delimited _
    · rintro e' ⟨⟩
      exact hbalance

theorem clause_using {expr : Option String} (h : ∀ e ∈ expr, IsExpr e) :
    Clause ((expr.map fun e => s!" USING ({e})").getD "") [.word "using"]
      (expr.bind fun e => tokens e.toList) := by
  refine clause_of (separates_word "USING".toList (by decide)) (fun e => ?_) h
  have htext : s!" USING ({e})" = " USING (" ++ e ++ ")" := rfl
  simp [htext]

theorem clause_check {expr : Option String} (h : ∀ e ∈ expr, IsExpr e) :
    Clause ((expr.map fun e => s!" WITH CHECK ({e})").getD "") [.word "with", .word "check"]
      (expr.bind fun e => tokens e.toList) := by
  have hcheck : Reads "CHECK".toList [.word "check"] := reads_word (by decide)
  have hwords : Separates " WITH CHECK ".toList [.word "with", .word "check"] := by
    have hwith := separates_word "WITH".toList (by decide)
    refine ⟨fun rest => delimited_cons (by decide), fun {text ts} ht => ?_⟩
    simpa using hwith.reads (hcheck.space ht)
  refine clause_of hwords (fun e => ?_) h
  have htext : s!" WITH CHECK ({e})" = " WITH CHECK (" ++ e ++ ")" := rfl
  simp [htext]

theorem readUsing_tokens {expr : Option (List Token)} (h : ∀ e ∈ expr, balance 0 e = some 0)
    (rest : List Token) (hrest : rest.head? ≠ some (.word "using")) :
    readUsing (clauseTokens [.word "using"] expr ++ rest) = some (expr, rest) := by
  cases expr with
  | none =>
    rw [clauseTokens, List.nil_append, readUsing]
    rintro ts rfl
    exact hrest rfl
  | some e =>
    have hmatch := matchParen_append (h e rfl) rest
    simp [clauseTokens, readUsing, hmatch]

theorem readCheck_tokens {expr : Option (List Token)} (h : ∀ e ∈ expr, balance 0 e = some 0) :
    readCheck (clauseTokens [.word "with", .word "check"] expr) = some (expr, []) := by
  cases expr with
  | none => rfl
  | some e =>
    have hmatch := matchParen_append (h e rfl) []
    simp [clauseTokens, readCheck, hmatch]

/-- The tokens of the `TO` clause. -/
def PolicyDef.roleTokens (p : PolicyDef) : List Token :=
  if p.forAll then [.word "public"]
  else [.symbol ','].intercalate (p.roles.map fun r => [.name r])

theorem forAll_iff {p : PolicyDef} : p.forAll ↔ "public" ∈ p.roles := by
  simp [PolicyDef.forAll]

theorem isRoleToken_of_mem {p : PolicyDef} {t : Token} (h : t ∈ p.roleTokens) :
    isRoleToken t ∧ t ≠ .symbol ';' := by
  unfold PolicyDef.roleTokens at h
  split at h
  · obtain rfl := List.mem_singleton.1 h
    decide
  · rcases mem_intercalate h with rfl | ⟨ts, hts, hmem⟩
    · decide
    · obtain ⟨r, -, rfl⟩ := List.mem_map.1 hts
      obtain rfl := List.mem_singleton.1 hmem
      simp [isRoleToken]

theorem reads_roles {p : PolicyDef} (h : ∀ r ∈ p.roles, r ≠ "") :
    Reads (if p.forAll then "PUBLIC" else ", ".intercalate (p.roles.map ident)).toList
      p.roleTokens := by
  rw [PolicyDef.roleTokens]
  by_cases hall : p.forAll
  · rw [if_pos hall, if_pos hall]
    exact reads_word (by decide)
  · rw [if_neg hall, if_neg hall]
    exact reads_commas ident (fun r => [.name r]) fun r hr => reads_ident (h r hr)

theorem readList_roles (p : PolicyDef) :
    (readList (.symbol ',') readRole p.roleTokens).map Audience.ofNames =
      if p.roles = [] then none else some (Audience.ofNames p.roles) := by
  rw [PolicyDef.roleTokens]
  by_cases hall : p.forAll
  · have hpublic := forAll_iff.1 hall
    rw [if_pos hall, if_neg (List.ne_nil_of_mem hpublic)]
    simp [readList, List.splitOn_eq_singleton, readRole, Audience.ofNames, hpublic]
  · rw [if_neg hall]
    by_cases hnil : p.roles = []
    · rw [if_pos hnil, hnil]
      rfl
    · have hread : readList (.symbol ',') readRole
          ([.symbol ','].intercalate (p.roles.map fun r => [.name r])) = some (p.roles.map id) :=
        readList_intercalate hnil (by simp) fun r _ => rfl
      rw [if_neg hnil, hread, List.map_id]
      rfl

theorem readClauses_tokens (p : PolicyDef) {u c : Option (List Token)}
    (hu : ∀ e ∈ u, balance 0 e = some 0) (hc : ∀ e ∈ c, balance 0 e = some 0) :
    readClauses (p.roleTokens ++ (clauseTokens [.word "using"] u ++
      clauseTokens [.word "with", .word "check"] c)) =
        if p.roles = [] then none else some (Audience.ofNames p.roles, u, c) := by
  have hroles : ∀ t ∈ p.roleTokens, isRoleToken t := fun t ht => (isRoleToken_of_mem ht).1
  have husing := readUsing_tokens hu (clauseTokens [.word "with", .word "check"] c)
    (by cases c <;> simp [clauseTokens])
  have hcheck := readCheck_tokens hc
  have hend : (clauseTokens [.word "using"] u ++
      clauseTokens [.word "with", .word "check"] c).takeWhile isRoleToken = [] ∧
        (clauseTokens [.word "using"] u ++
          clauseTokens [.word "with", .word "check"] c).dropWhile isRoleToken =
            clauseTokens [.word "using"] u ++ clauseTokens [.word "with", .word "check"] c := by
    cases u <;> cases c <;> simp [clauseTokens, isRoleToken]
  have hnames := readList_roles p
  rw [readClauses, List.takeWhile_append_of_pos hroles, List.dropWhile_append_of_pos hroles,
    hend.1, hend.2, List.append_nil, husing]
  cases hread : readList (.symbol ',') readRole p.roleTokens with
  | none =>
    rw [hread, Option.map_none] at hnames
    by_cases hnil : p.roles = []
    · rw [if_pos hnil]
      rfl
    · rw [if_neg hnil] at hnames
      cases hnames
  | some names =>
    rw [hread, Option.map_some] at hnames
    by_cases hnil : p.roles = []
    · rw [if_pos hnil] at hnames
      cases hnames
    · rw [if_neg hnil] at hnames ⊢
      simp [hcheck, Option.some.inj hnames]

theorem readCmd_tokens {cmd : String} (h : cmd ∈ policyCmds) :
    isWord cmd.toList ∧
      readCmd (.word (String.ofList (cmd.toList.map Char.toLower))) = some cmd := by
  have hall : ∀ cmd ∈ policyCmds, isWord cmd.toList ∧
      readCmd (.word (String.ofList (cmd.toList.map Char.toLower))) = some cmd := by
    decide
  exact hall cmd h

theorem createPolicySql_eq (p : PolicyDef) (target : String) :
    createPolicySql p target = "CREATE POLICY " ++ ident p.name ++ " ON " ++ target ++ " AS " ++
      (if p.permissive then "PERMISSIVE" else "RESTRICTIVE") ++ " FOR " ++ p.cmd ++ " TO " ++
      (if p.forAll then "PUBLIC" else ", ".intercalate (p.roles.map ident)) ++
      (p.usingExpr.map fun e => s!" USING ({e})").getD "" ++
      (p.checkExpr.map fun e => s!" WITH CHECK ({e})").getD "" := rfl

theorem reads_kind (permissive : Bool) : ∃ kind : Token,
    Reads (if permissive then "PERMISSIVE" else "RESTRICTIVE").toList [kind] ∧
      readKind kind = some permissive ∧ kind ≠ .symbol ';' := by
  cases permissive with
  | true => exact ⟨.word "permissive", reads_word (by decide), rfl, by decide⟩
  | false => exact ⟨.word "restrictive", reads_word (by decide), rfl, by decide⟩

theorem semicolon_not_mem_clause (words : List Token) (hwords : .symbol ';' ∉ words)
    {expr : Option (List Token)} (h : ∀ e ∈ expr, .symbol ';' ∉ e) :
    .symbol ';' ∉ clauseTokens words expr := by
  cases expr with
  | none => exact List.not_mem_nil
  | some e => simp [clauseTokens, hwords, h e rfl]

/-- **The statement of a policy is read back**, unless it names no role. -/
theorem readPolicySql_createPolicySql {p : PolicyDef} (h : p.Proper)
    (hroles : ∀ r ∈ p.roles, r ≠ "") :
    readPolicySql (createPolicySql p (ident p.schema ++ "." ++ ident p.table)) =
      if p.roles = [] then none else some [p.statement] := by
  obtain ⟨kind, hkind, hreadKind, hkindSemi⟩ := reads_kind p.permissive
  obtain ⟨hcmdWord, hreadCmd⟩ := readCmd_tokens h.cmd
  have husing := clause_using h.usingExpr
  have hcheck := clause_check h.checkExpr
  have hclauses := readClauses_tokens p (fun e he => (husing.balanced e he).1)
    fun e he => (hcheck.balanced e he).1
  have hend := (reads_roles hroles).append (husing.reads.append hcheck.reads hcheck.delimited)
    (husing.delimited.append hcheck.delimited)
  have hcreate : Reads "CREATE".toList [.word "create"] := reads_word (by decide)
  have hpolicy : Reads "POLICY".toList [.word "policy"] := reads_word (by decide)
  have hon : Reads "ON".toList [.word "on"] := reads_word (by decide)
  have has : Reads "AS".toList [.word "as"] := reads_word (by decide)
  have hfor : Reads "FOR".toList [.word "for"] := reads_word (by decide)
  have hto : Reads "TO".toList [.word "to"] := reads_word (by decide)
  have htext := hcreate.space (hpolicy.space ((reads_ident h.name).space (hon.space
    ((reads_table h.schema h.table).space (has.space (hkind.space (hfor.space
      ((reads_word hcmdWord).space (hto.space hend)))))))))
  have hsemiRoles : .symbol ';' ∉ p.roleTokens := fun hmem => (isRoleToken_of_mem hmem).2 rfl
  have hsemiUsing := semicolon_not_mem_clause [.word "using"] (by decide)
    fun e he => (husing.balanced e he).2
  have hsemiCheck := semicolon_not_mem_clause [.word "with", .word "check"]
    (by decide) fun e he => (hcheck.balanced e he).2
  rw [readPolicySql, readScript_eq readPolicy (by simpa [createPolicySql_eq] using htext)
    (by simp [hsemiRoles, hsemiUsing, hsemiCheck, Ne.symm hkindSemi]) (by simp)]
  simp only [readPolicy, hreadKind, hreadCmd, hclauses]
  by_cases hnil : p.roles = []
  · simp [hnil]
  · simp [hnil, PolicyDef.statement]

/-! ## On the way through the answer -/

open SecurityCatalog

/-- Each role comes out as its own pieces. -/
theorem splitRoles_join (roles : List String) :
    splitRoles (",".intercalate roles) = roles.flatMap splitRoles := by
  induction roles with
  | nil => decide
  | cons r rest ih =>
    cases rest with
    | nil => simp
    | cons r' rest =>
      have hjoin : (",".intercalate (r :: r' :: rest)).toList =
          r.toList ++ ',' :: (",".intercalate (r' :: rest)).toList := by
        simp [String.toList_intercalate, List.intercalate]
      have hsplit : splitRoles (",".intercalate (r :: r' :: rest)) =
          splitRoles r ++ splitRoles (",".intercalate (r' :: rest)) := by
        simp only [splitRoles, hjoin, List.splitOn_append_cons_self, List.filter_append,
          List.map_append]
      rw [hsplit, ih]
      simp only [List.flatMap_cons]

/-- A piece is not empty and has no comma. -/
theorem of_mem_splitRoles {s r : String} (h : r ∈ splitRoles s) : r ≠ "" ∧ ',' ∉ r.toList := by
  obtain ⟨cs, hcs, rfl⟩ := List.mem_map.1 h
  obtain ⟨hmem, hne⟩ := List.mem_filter.1 hcs
  refine ⟨?_, ?_⟩
  · simpa using hne
  · rw [String.toList_ofList]
    exact not_mem_of_mem_splitOn hmem

/-- What `introspect_security` makes of an upstream policy. -/
def PolicyDef.read (p : PolicyDef) : PolicyDef :=
  policyOfRow (policyRow p)

theorem PolicyDef.read_eq (p : PolicyDef) :
    p.read = { p with roles := splitRoles (",".intercalate p.roles) } := by
  cases p
  simp [PolicyDef.read, policyOfRow, policyRow, text, cell]

theorem PolicyDef.Proper.read {p : PolicyDef} (h : p.Proper) : p.read.Proper := by
  rw [PolicyDef.read_eq]
  exact ⟨h.schema, h.table, h.name, h.cmd, h.usingExpr, h.checkExpr⟩

/-- The audience is the same after the way through the answer in these cases only. -/
theorem ofNames_splitRoles_iff {roles : List String} (hne : roles ≠ [])
    (h : ∀ r ∈ roles, r ≠ "") :
    (splitRoles (",".intercalate roles) ≠ [] ∧
      Audience.ofNames (splitRoles (",".intercalate roles)) = Audience.ofNames roles) ↔
        "public" ∈ roles ∨ ∀ r ∈ roles, ',' ∉ r.toList := by
  constructor
  · rintro ⟨-, haudience⟩
    by_cases hpublic : "public" ∈ roles
    · exact .inl hpublic
    · refine .inr fun r hr => ?_
      rw [Audience.ofNames, Audience.ofNames, if_neg hpublic] at haudience
      split_ifs at haudience
      have hset := Audience.roles.inj haudience
      have hmem : r ∈ splitRoles (",".intercalate roles) := by
        rw [← List.mem_toFinset, hset, List.mem_toFinset]
        exact hr
      exact (of_mem_splitRoles hmem).2
  · rintro (hpublic | hplain)
    · have hpiece : "public" ∈ splitRoles (",".intercalate roles) := by
        rw [splitRoles_join]
        exact List.mem_flatMap.2 ⟨"public", hpublic, by decide⟩
      refine ⟨List.ne_nil_of_mem hpiece, ?_⟩
      rw [Audience.ofNames, Audience.ofNames, if_pos hpublic, if_pos hpiece]
    · rw [splitRoles_intercalate fun r hr => ⟨h r hr, hplain r hr⟩]
      exact ⟨hne, rfl⟩

/-- **A policy keeps its audience** exactly when none of its role names has a comma, or it is for
everyone. -/
theorem policy_audience_kept_iff (p : PolicyDef) (h : p.Proper) (hne : p.roles ≠ [])
    (hroles : ∀ r ∈ p.roles, r ≠ "") :
    readPolicySql (createPolicySql p.read (ident p.schema ++ "." ++ ident p.table)) =
        some [p.statement] ↔
      "public" ∈ p.roles ∨ ∀ r ∈ p.roles, ',' ∉ r.toList := by
  have hread := readPolicySql_createPolicySql h.read fun r hr => by
    rw [PolicyDef.read_eq] at hr
    exact (of_mem_splitRoles hr).1
  have htable : ident p.read.schema ++ "." ++ ident p.read.table =
      ident p.schema ++ "." ++ ident p.table := by
    rw [PolicyDef.read_eq]
  rw [htable] at hread
  rw [hread, ← ofNames_splitRoles_iff hne hroles, PolicyDef.read_eq]
  by_cases hnil : splitRoles (",".intercalate p.roles) = []
  · simp [hnil]
  · simp [hnil, PolicyDef.statement]

/-- A policy for a role that is called `a,b`. -/
def commaPolicy : PolicyDef :=
  ⟨"public", "items", "p", true, "SELECT", ["a,b"], some "(owner = 'x')", none⟩

theorem policy_audience_kept_comma :
    readPolicySql (createPolicySql commaPolicy.read (ident "public" ++ "." ++ ident "items")) ≠
      some [commaPolicy.statement] := by
  decide +kernel

/-- A policy for the two roles `a` and `b`. -/
def plainPolicy : PolicyDef :=
  { commaPolicy with roles := ["a", "b"] }

theorem policy_audience_kept_plain :
    readPolicySql (createPolicySql plainPolicy.read (ident "public" ++ "." ++ ident "items")) =
      some [plainPolicy.statement] := by
  have hequal : Reads ['='] [.symbol '='] :=
    reads_piece (m := .symbol) (k := .symbol) rfl rfl (by decide) (by decide)
  have hcolumn : Reads "owner".toList [.word "owner"] := reads_word (by decide)
  have hclosed := (hcolumn.space (hequal.space (reads_const "x"))).sep (c := ')') (by decide)
    reads_nil
  have hexpr : IsExpr "(owner = 'x')" :=
    ⟨_, hclosed.delimiter (c := '(') (by decide), by decide, by decide⟩
  refine (policy_audience_kept_iff plainPolicy ⟨by decide, by decide, by decide, by decide, ?_, ?_⟩
    (by decide) (by decide)).2 (.inr (by decide))
  · rintro e ⟨⟩
    exact hexpr
  · rintro e ⟨⟩

end Pglite.Replica
