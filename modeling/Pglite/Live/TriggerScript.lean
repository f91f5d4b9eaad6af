import Pglite.Live.Tables
import Pglite.SqlLexer

/-!
# The scripts of the notify triggers

What the server reads in the script of `trigger_ddl` and in the one of `unsubscribe`. Both put the
names of the schema and of the table between double quotes as they are.

Main results: `targets_iff`, the names for which the two scripts are their two statements each, on
the table, and `quote_not_targets`, a name for which they are not.
-/

namespace Pglite.Live

open SqlLexer

/-! ## Reading -/

inductive Statement
  /-- A trigger function that notifies a channel. -/
  | createFunction (name channel : String)
  | createTrigger (name schema table function : String)
  | dropTrigger (name schema table : String)
  | dropFunction (name : String)
deriving DecidableEq

def keys (words : List String) : List Token :=
  words.map Token.word

/-- The tokens behind the expected ones. -/
def strip (expected ts : List Token) : Option (List Token) :=
  if expected.isPrefixOf ts then some (ts.drop expected.length) else none

def readName : List Token → Option (String × List Token)
  | .name s :: ts => some (s, ts)
  | _ => none

/-- `"schema"."table"`. -/
def readTable (ts : List Token) : Option (String × String × List Token) :=
  (readName ts).bind fun (schema, ts) => (strip [.symbol '.'] ts).bind fun ts =>
    (readName ts).map fun (table, ts) => (schema, table, ts)

/-- The channel that a function body notifies. -/
def readBody : Token → Option String
  | .other ⟨.dollarString, raw⟩ =>
    (tokens ((raw.drop 2).take (raw.length - 4))).bind fun ts =>
      (strip (keys ["begin", "perform", "pg_notify"] ++ [.symbol '(']) ts).bind fun ts =>
        match ts with
        | .const channel :: ts =>
          if ts = [.symbol ',', .const "", .symbol ')', .symbol ';'] ++ keys ["return", "null"] ++
            [.symbol ';'] ++ keys ["end"] ++ [.symbol ';'] then some channel else none
        | _ => none
  | _ => none

/-- `CREATE FUNCTION`, with the body that notifies. -/
def readCreateFunction (ts : List Token) : Option Statement :=
  (strip (keys ["create", "or", "replace", "function"]) ts).bind fun ts =>
    (readName ts).bind fun (name, ts) =>
      (strip ([.symbol '(', .symbol ')'] ++ keys ["returns", "trigger", "as"]) ts).bind fun ts =>
        match ts with
        | body :: ts =>
          if ts = keys ["language", "plpgsql"] then (readBody body).map (.createFunction name)
          else none
        | [] => none

def readCreateTrigger (ts : List Token) : Option Statement :=
  (strip (keys ["create", "or", "replace", "trigger"]) ts).bind fun ts =>
    (readName ts).bind fun (name, ts) =>
      (strip (keys ["after", "insert", "or", "update", "or", "delete", "on"]) ts).bind fun ts =>
        (readTable ts).bind fun (schema, table, ts) =>
          (strip (keys ["for", "each", "statement", "execute", "function"]) ts).bind fun ts =>
            (readName ts).bind fun (function, ts) =>
              if ts = [.symbol '(', .symbol ')'] then some (.createTrigger name schema table function)
              else none

def readDropTrigger (ts : List Token) : Option Statement :=
  (strip (keys ["drop", "trigger", "if", "exists"]) ts).bind fun ts =>
    (readName ts).bind fun (name, ts) => (strip (keys ["on"]) ts).bind fun ts =>
      (readTable ts).bind fun (schema, table, ts) =>
        if ts = [] then some (.dropTrigger name schema table) else none

def readDropFunction (ts : List Token) : Option Statement :=
  (strip (keys ["drop", "function", "if", "exists"]) ts).bind fun ts =>
    (readName ts).bind fun (name, ts) =>
      if ts = [.symbol '(', .symbol ')'] then some (.dropFunction name) else none

/-- A statement that one of the readers accepts. -/
def readStatement (ts : List Token) : Option Statement :=
  readCreateFunction ts <|> readCreateTrigger ts <|> readDropTrigger ts <|> readDropFunction ts

/-- Both scripts are their two statements: on the table, with one trigger and one function, which
notifies the channel that is listened to. -/
def Targets (w : Watched) : Prop :=
  ∃ trigger function,
    readScript readStatement (triggerDdl w) =
      some [.createFunction function (channelName w.schemaOid w.tableOid),
        .createTrigger trigger w.schemaName w.tableName function] ∧
    readScript readStatement (teardownDdl w) =
      some [.dropTrigger trigger w.schemaName w.tableName, .dropFunction function]

/-! ## The statements -/

theorem strip_append (expected ts : List Token) : strip expected (expected ++ ts) = some ts := by
  rw [strip, if_pos (List.isPrefixOf_iff_prefix.2 (List.prefix_append _ _)), List.drop_left]

theorem strip_eq_some {expected ts rest : List Token} (h : strip expected ts = some rest) :
    ts = expected ++ rest := by
  unfold strip at h
  split at h
  · next hpre =>
    obtain ⟨ts', rfl⟩ := List.isPrefixOf_iff_prefix.1 hpre
    rw [List.drop_left] at h
    rw [Option.some.inj h]
  · cases h

theorem readName_eq_some {ts rest : List Token} {s : String} (h : readName ts = some (s, rest)) :
    ts = .name s :: rest := by
  unfold readName at h
  split at h
  · obtain ⟨rfl, rfl⟩ := Prod.mk.inj (Option.some.inj h)
    rfl
  · cases h

theorem readTable_cons (schema table : String) (ts : List Token) :
    readTable (.name schema :: .symbol '.' :: .name table :: ts) = some (schema, table, ts) := by
  have hdot := strip_append [.symbol '.'] (.name table :: ts)
  rw [readTable, readName, Option.bind_some]
  dsimp only
  rw [List.singleton_append] at hdot
  rw [hdot]
  rfl

theorem readTable_eq_some {ts rest : List Token} {schema table : String}
    (h : readTable ts = some (schema, table, rest)) :
    ts = .name schema :: .symbol '.' :: .name table :: rest := by
  obtain ⟨⟨s, ts₁⟩, hs, h⟩ := Option.bind_eq_some_iff.1 h
  obtain ⟨ts₂, hdot, h⟩ := Option.bind_eq_some_iff.1 h
  obtain ⟨⟨t, ts₃⟩, ht, heq⟩ := Option.map_eq_some_iff.1 h
  obtain ⟨rfl, rest⟩ := Prod.mk.inj heq
  obtain ⟨rfl, rfl⟩ := Prod.mk.inj rest
  rw [readName_eq_some hs, strip_eq_some hdot, readName_eq_some ht]
  rfl

/-- A trigger on a table has the table's two names behind `ON`. -/
theorem readCreateTrigger_eq_some {ts : List Token} {name schema table function : String}
    (h : readCreateTrigger ts = some (.createTrigger name schema table function)) :
    ∃ rest, ts = keys ["create", "or", "replace", "trigger"] ++ .name name ::
      (keys ["after", "insert", "or", "update", "or", "delete", "on"] ++
        .name schema :: .symbol '.' :: .name table :: rest) := by
  obtain ⟨ts₁, h₁, h⟩ := Option.bind_eq_some_iff.1 h
  obtain ⟨⟨n, ts₂⟩, h₂, h⟩ := Option.bind_eq_some_iff.1 h
  obtain ⟨ts₃, h₃, h⟩ := Option.bind_eq_some_iff.1 h
  obtain ⟨⟨s, t, ts₄⟩, h₄, h⟩ := Option.bind_eq_some_iff.1 h
  obtain ⟨ts₅, h₅, h⟩ := Option.bind_eq_some_iff.1 h
  obtain ⟨⟨f, ts₆⟩, h₆, h⟩ := Option.bind_eq_some_iff.1 h
  dsimp only at h
  split at h
  · obtain ⟨rfl, rfl, rfl, rfl⟩ := Statement.createTrigger.inj (Option.some.inj h)
    refine ⟨ts₄, ?_⟩
    rw [strip_eq_some h₁, readName_eq_some h₂, strip_eq_some h₃, readTable_eq_some h₄]
  · cases h

/-! ## The texts -/

def functionName (w : Watched) : String := s!"_notify_{w.schemaOid}_{w.tableOid}"

def triggerName (w : Watched) : String := s!"_notify_trigger_{w.schemaOid}_{w.tableOid}"

/-- A name between double quotes as it is, and what follows. -/
def asIs (s : String) (rest : List Char) : List Char :=
  doubleQuote :: (s.toList ++ doubleQuote :: rest)

def onTable (w : Watched) (rest : List Char) : List Char :=
  asIs w.schemaName ('.' :: asIs w.tableName rest)

def functionBody (w : Watched) : List Char :=
  "\nBEGIN\n  PERFORM pg_notify(".toList ++ singleQuote ::
    ((channelName w.schemaOid w.tableOid).toList ++ singleQuote ::
      ", '');\n  RETURN NULL;\nEND;\n".toList)

/-- The end of `trigger_ddl`, behind the table. -/
def execute (w : Watched) : List Char :=
  "\nFOR EACH STATEMENT EXECUTE FUNCTION ".toList ++ asIs (functionName w) "();".toList

theorem toString_string (s : String) : toString s = s := rfl

/-- The script of `unsubscribe`, cut at its names. -/
theorem teardownDdl_toList (w : Watched) : (teardownDdl w).toList =
    "DROP TRIGGER IF EXISTS ".toList ++ asIs (triggerName w) (" ON ".toList ++ onTable w
      (";\nDROP FUNCTION IF EXISTS ".toList ++ asIs (functionName w) "()".toList)) := by
  have h₁ : "DROP TRIGGER IF EXISTS \"_notify_trigger_".toList =
      "DROP TRIGGER IF EXISTS ".toList ++ doubleQuote :: "_notify_trigger_".toList := by
    decide +kernel
  have h₂ : "\" ON \"".toList = doubleQuote :: (" ON ".toList ++ [doubleQuote]) := by
    decide +kernel
  have h₃ : "\".\"".toList = [doubleQuote, '.', doubleQuote] := by
    decide +kernel
  have h₄ : "\";\nDROP FUNCTION IF EXISTS \"_notify_".toList =
      doubleQuote :: (";\nDROP FUNCTION IF EXISTS ".toList ++ doubleQuote :: "_notify_".toList) := by
    decide +kernel
  have h₅ : "\"()".toList = doubleQuote :: "()".toList := by
    decide +kernel
  unfold teardownDdl onTable asIs triggerName functionName
  simp only [String.toList_append, toString_string]
  rw [h₁, h₂, h₃, h₄, h₅]
  simp only [List.append_assoc, List.cons_append, List.nil_append]

/-- The script of `trigger_ddl`, cut at its names and at the quotes of the body. -/
theorem triggerDdl_toList (w : Watched) : (triggerDdl w).toList =
    "CREATE OR REPLACE FUNCTION ".toList ++ asIs (functionName w)
      ("() RETURNS TRIGGER AS ".toList ++ ('$' :: '$' :: (functionBody w ++ ['$', '$']) ++
        (" LANGUAGE plpgsql;\nCREATE OR REPLACE TRIGGER ".toList ++ asIs (triggerName w)
          ("\nAFTER INSERT OR UPDATE OR DELETE ON ".toList ++ onTable w (execute w))))) := by
  have hevents : " OR ".intercalate (triggerEvents.map TriggerEvent.sql) =
      "INSERT OR UPDATE OR DELETE" := by
    decide +kernel
  have h₁ : "CREATE OR REPLACE FUNCTION \"_notify_".toList =
      "CREATE OR REPLACE FUNCTION ".toList ++ doubleQuote :: "_notify_".toList := by
    decide +kernel
  have h₂ : "\"() RETURNS TRIGGER AS $$\nBEGIN\n  PERFORM pg_notify('table_change__".toList =
      doubleQuote :: ("() RETURNS TRIGGER AS ".toList ++ '$' :: '$' ::
        ("\nBEGIN\n  PERFORM pg_notify(".toList ++ singleQuote :: "table_change__".toList)) := by
    decide +kernel
  have h₃ : "', '');
  RETURN NULL;
END;
$$ LANGUAGE plpgsql;
CREATE OR REPLACE TRIGGER \"_notify_trigger_".toList =
      singleQuote :: (", '');\n  RETURN NULL;\nEND;\n".toList ++ '$' :: '$' ::
        (" LANGUAGE plpgsql;\nCREATE OR REPLACE TRIGGER ".toList ++
          doubleQuote :: "_notify_trigger_".toList)) := by
    decide +kernel
  have h₄ : "\"\nAFTER ".toList = doubleQuote :: "\nAFTER ".toList := by
    decide +kernel
  have h₈ : " ON \"".toList = " ON ".toList ++ [doubleQuote] := by
    decide +kernel
  have h₉ : "\nAFTER INSERT OR UPDATE OR DELETE ON ".toList =
      "\nAFTER ".toList ++ ("INSERT OR UPDATE OR DELETE".toList ++ " ON ".toList) := by
    decide +kernel
  have h₅ : "\".\"".toList = [doubleQuote, '.', doubleQuote] := by
    decide +kernel
  have h₆ : "\"\nFOR EACH STATEMENT EXECUTE FUNCTION \"_notify_".toList =
      doubleQuote :: ("\nFOR EACH STATEMENT EXECUTE FUNCTION ".toList ++
        doubleQuote :: "_notify_".toList) := by
    decide +kernel
  have h₇ : "\"();".toList = doubleQuote :: "();".toList := by
    decide +kernel
  unfold triggerDdl onTable execute functionBody asIs triggerName functionName channelName
  rw [hevents]
  simp only [String.toList_append, toString_string]
  rw [h₁, h₂, h₃, h₄, h₅, h₆, h₇, h₈, h₉]
  simp only [List.append_assoc, List.cons_append, List.nil_append]

/-! ## Names -/

theorem isDigit_toString {oid : UInt32} {c : Char} (h : c ∈ (toString oid).toList) :
    c.isDigit = true := by
  have hdigits : (toString oid).toList = Nat.toDigits 10 oid.toNat := by
    show (String.ofList (Nat.toDigits 10 oid.toNat)).toList = _
    rw [String.toList_ofList]
  rw [hdigits] at h
  exact Nat.isDigit_of_mem_toDigits (by decide) (by decide) h

/-- A name that is numbered by two oids. -/
theorem notMem_numbered {c : Char} (hc : c.isDigit = false) {first sep : String}
    (hfirst : c ∉ first.toList) (hsep : c ∉ sep.toList) (a b : UInt32) :
    c ∉ (first ++ toString a ++ sep ++ toString b).toList := by
  have hdigit : ∀ oid : UInt32, c ∉ (toString oid).toList := by
    intro oid hmem
    rw [isDigit_toString hmem] at hc
    cases hc
  simp only [String.toList_append, List.mem_append, not_or]
  exact ⟨⟨⟨hfirst, hdigit a⟩, hsep⟩, hdigit b⟩

theorem doubleQuote_notMem_functionName (w : Watched) : doubleQuote ∉ (functionName w).toList :=
  notMem_numbered (by decide) (by decide +kernel) (by decide +kernel) _ _

theorem doubleQuote_notMem_triggerName (w : Watched) : doubleQuote ∉ (triggerName w).toList :=
  notMem_numbered (by decide) (by decide +kernel) (by decide +kernel) _ _

theorem numbered_ne {first : String} (hfirst : first ≠ "") (sep : String) (a b : UInt32) :
    first ++ toString a ++ sep ++ toString b ≠ "" := by
  intro h
  rw [String.append_eq_empty_iff, String.append_eq_empty_iff, String.append_eq_empty_iff] at h
  exact hfirst h.1.1.1

theorem functionName_ne (w : Watched) : functionName w ≠ "" :=
  numbered_ne (by decide) _ _ _

theorem triggerName_ne (w : Watched) : triggerName w ≠ "" :=
  numbered_ne (by decide) _ _ _

/-- A name without quotes is read as it is. -/
theorem tokens_asIs {s : String} (hne : s ≠ "") (hs : doubleQuote ∉ s.toList) {rest : List Char}
    (hrest : rest.head? ≠ some doubleQuote) :
    tokens (asIs s rest) = (tokens rest).map ([.name s] ++ ·) := by
  have hquoted : asIs s rest = quoted doubleQuote s ++ rest := by
    rw [asIs, quoted, Text.double_eq_self hs]
    simp only [List.append_assoc, List.cons_append, List.nil_append]
  rw [hquoted, tokens_name hne hrest]

/-! ## The tokens -/

/-- Everything up to the table of the trigger. -/
def createTokens (w : Watched) : List Token :=
  keys ["create", "or", "replace", "function"] ++ .name (functionName w) ::
    ([.symbol '(', .symbol ')'] ++ keys ["returns", "trigger", "as"] ++
      .other ⟨.dollarString, '$' :: '$' :: (functionBody w ++ ['$', '$'])⟩ ::
        (keys ["language", "plpgsql"] ++ .symbol ';' ::
          (keys ["create", "or", "replace", "trigger"] ++ .name (triggerName w) ::
            keys ["after", "insert", "or", "update", "or", "delete", "on"])))

def executeTokens (w : Watched) : List Token :=
  keys ["for", "each", "statement", "execute", "function"] ++
    [.name (functionName w), .symbol '(', .symbol ')', .symbol ';']

/-- The first character of a text that others follow. -/
theorem head_append (text : List Char) {c : Char} (h : text.head? = some c) (rest : List Char) :
    (text ++ rest).head? = some c := by
  rw [List.head?_append, h]
  rfl

theorem head_ne (text : List Char) {c : Char} (h : text.head? = some c) (hc : c ≠ doubleQuote)
    (rest : List Char) : (text ++ rest).head? ≠ some doubleQuote := by
  rw [head_append text h]
  simpa using hc

theorem delimited_of_head (text : List Char) {c : Char} (h : text.head? = some c)
    (hc : isDelimiter c) (rest : List Char) : Delimited (text ++ rest) := by
  intro d hd
  rw [head_append text h] at hd
  obtain rfl : c = d := by simpa using hd
  exact hc

theorem dollar_notMem_functionBody (w : Watched) : '$' ∉ functionBody w := by
  have hchannel : '$' ∉ (channelName w.schemaOid w.tableOid).toList :=
    notMem_numbered (by decide) (by decide +kernel) (by decide +kernel) _ _
  have hfirst : '$' ∉ "\nBEGIN\n  PERFORM pg_notify(".toList := by decide +kernel
  have hlast : '$' ∉ ", '');\n  RETURN NULL;\nEND;\n".toList := by decide +kernel
  intro hmem
  rcases List.mem_append.1 hmem with hmem | hmem
  · exact hfirst hmem
  rcases List.mem_cons.1 hmem with hmem | hmem
  · exact absurd hmem (by decide)
  rcases List.mem_append.1 hmem with hmem | hmem
  · exact hchannel hmem
  rcases List.mem_cons.1 hmem with hmem | hmem
  · exact absurd hmem (by decide)
  · exact hlast hmem

theorem tokens_triggerDdl (w : Watched) : tokens (triggerDdl w).toList =
    (tokens (onTable w (execute w))).map (createTokens w ++ ·) := by
  have h₁ : fixed "CREATE OR REPLACE FUNCTION ".toList =
      some (keys ["create", "or", "replace", "function"]) := by
    decide +kernel
  have h₂ : fixed "() RETURNS TRIGGER AS ".toList =
      some ([.symbol '(', .symbol ')'] ++ keys ["returns", "trigger", "as"]) := by
    decide +kernel
  have h₃ : fixed " LANGUAGE plpgsql;\nCREATE OR REPLACE TRIGGER ".toList =
      some (keys ["language", "plpgsql"] ++ .symbol ';' ::
        keys ["create", "or", "replace", "trigger"]) := by
    decide +kernel
  have h₄ : fixed "\nAFTER INSERT OR UPDATE OR DELETE ON ".toList =
      some (keys ["after", "insert", "or", "update", "or", "delete", "on"]) := by
    decide +kernel
  have hreturns := head_ne "() RETURNS TRIGGER AS ".toList (by decide +kernel)
    (by decide : '(' ≠ doubleQuote)
  have hlanguage := delimited_of_head
    " LANGUAGE plpgsql;\nCREATE OR REPLACE TRIGGER ".toList (by decide +kernel)
    (by decide : isDelimiter ' ')
  have hafter := head_ne "\nAFTER INSERT OR UPDATE OR DELETE ON ".toList
    (by decide +kernel) (by decide : '\n' ≠ doubleQuote)
  rw [triggerDdl_toList, tokens_fixed h₁, tokens_asIs (functionName_ne w)
    (doubleQuote_notMem_functionName w) (hreturns _), tokens_fixed h₂,
    reads_dollar (dollar_notMem_functionBody w) _ (hlanguage _), tokens_fixed h₃,
    tokens_asIs (triggerName_ne w) (doubleQuote_notMem_triggerName w) (hafter _), tokens_fixed h₄]
  simp only [Option.map_map]
  congr 1

/-- The table is read as it is named, when its names have no quotes. -/
theorem tokens_onTable {w : Watched} (hschema : w.schemaName ≠ "") (htable : w.tableName ≠ "")
    (hs : doubleQuote ∉ w.schemaName.toList) (ht : doubleQuote ∉ w.tableName.toList)
    {rest : List Char} (hrest : rest.head? ≠ some doubleQuote) :
    tokens (onTable w rest) = (tokens rest).map
      ([.name w.schemaName, .symbol '.', .name w.tableName] ++ ·) := by
  have hdot : ∀ text, ('.' :: text).head? ≠ some doubleQuote := by
    intro text h
    exact absurd (Option.some.inj h) (by decide)
  rw [onTable, tokens_asIs hschema hs (hdot _), tokens_delimiter (by decide),
    tokens_asIs htable ht hrest, Option.map_map, Option.map_map]
  rfl

theorem tokens_execute (w : Watched) : tokens (execute w) = some (executeTokens w) := by
  have h₁ : fixed "\nFOR EACH STATEMENT EXECUTE FUNCTION ".toList =
      some (keys ["for", "each", "statement", "execute", "function"]) := by
    decide +kernel
  have h₂ : tokens "();".toList = some [.symbol '(', .symbol ')', .symbol ';'] := by
    decide +kernel
  refine (tokens_fixed h₁ _).trans ?_
  rw [tokens_asIs (functionName_ne w) (doubleQuote_notMem_functionName w) (by decide +kernel), h₂]
  rfl

theorem tokens_teardownDdl {w : Watched} (hschema : w.schemaName ≠ "") (htable : w.tableName ≠ "")
    (hs : doubleQuote ∉ w.schemaName.toList) (ht : doubleQuote ∉ w.tableName.toList) :
    tokens (teardownDdl w).toList = some (keys ["drop", "trigger", "if", "exists"] ++
      .name (triggerName w) :: (keys ["on"] ++ .name w.schemaName :: .symbol '.' ::
        .name w.tableName :: .symbol ';' :: (keys ["drop", "function", "if", "exists"] ++
          [.name (functionName w), .symbol '(', .symbol ')']))) := by
  have h₁ : fixed "DROP TRIGGER IF EXISTS ".toList =
      some (keys ["drop", "trigger", "if", "exists"]) := by
    decide +kernel
  have h₂ : fixed " ON ".toList = some (keys ["on"]) := by
    decide +kernel
  have h₃ : fixed ";\nDROP FUNCTION IF EXISTS ".toList =
      some (.symbol ';' :: keys ["drop", "function", "if", "exists"]) := by
    decide +kernel
  have h₄ : tokens "()".toList = some [.symbol '(', .symbol ')'] := by
    decide +kernel
  have hon := head_ne " ON ".toList (by decide +kernel) (by decide : ' ' ≠ doubleQuote)
  have hdrop := head_ne ";\nDROP FUNCTION IF EXISTS ".toList (by decide +kernel)
    (by decide : ';' ≠ doubleQuote)
  rw [teardownDdl_toList, tokens_fixed h₁, tokens_asIs (triggerName_ne w)
    (doubleQuote_notMem_triggerName w) (hon _), tokens_fixed h₂,
    tokens_onTable hschema htable hs ht (hdrop _), tokens_fixed h₃,
    tokens_asIs (functionName_ne w) (doubleQuote_notMem_functionName w) (by decide +kernel), h₄]
  rfl

/-- The body is a text of its own, with the channel as a constant. -/
theorem tokens_functionBody (w : Watched) : tokens (functionBody w) =
    some (keys ["begin", "perform", "pg_notify"] ++ [.symbol '('] ++
      .const (channelName w.schemaOid w.tableOid) ::
        ([.symbol ',', .const "", .symbol ')', .symbol ';'] ++ keys ["return", "null"] ++
          [.symbol ';'] ++ keys ["end"] ++ [.symbol ';'])) := by
  have h₁ : fixed "\nBEGIN\n  PERFORM pg_notify(".toList =
      some (keys ["begin", "perform", "pg_notify"] ++ [.symbol '(']) := by
    decide +kernel
  have h₂ : tokens ", '');\n  RETURN NULL;\nEND;\n".toList =
      some ([.symbol ',', .const "", .symbol ')', .symbol ';'] ++ keys ["return", "null"] ++
          [.symbol ';'] ++ keys ["end"] ++ [.symbol ';']) := by
    decide +kernel
  have hchannel : singleQuote ∉ (channelName w.schemaOid w.tableOid).toList :=
    notMem_numbered (by decide) (by decide +kernel) (by decide +kernel) _ _
  have hquoted : ∀ rest, singleQuote :: ((channelName w.schemaOid w.tableOid).toList ++
      singleQuote :: rest) = quoted singleQuote (channelName w.schemaOid w.tableOid) ++ rest := by
    intro rest
    rw [quoted, Text.double_eq_self hchannel]
    simp only [List.append_assoc, List.cons_append, List.nil_append]
  have hcomma : Delimited ", '');\n  RETURN NULL;\nEND;\n".toList := by
    have h := delimited_of_head ", '');\n  RETURN NULL;\nEND;\n".toList
      (by decide +kernel) (by decide : isDelimiter ',') []
    rwa [List.append_nil] at h
  refine (tokens_fixed h₁ _).trans ?_
  rw [hquoted, reads_const _ _ hcomma, h₂]
  rfl

/-! ## The statements of the scripts -/

theorem readBody_functionBody (w : Watched) :
    readBody (.other ⟨.dollarString, '$' :: '$' :: (functionBody w ++ ['$', '$'])⟩) =
      some (channelName w.schemaOid w.tableOid) := by
  have hbody : (('$' :: '$' :: (functionBody w ++ ['$', '$'])).drop 2).take
      (('$' :: '$' :: (functionBody w ++ ['$', '$'])).length - 4) = functionBody w := by
    have hlength : ('$' :: '$' :: (functionBody w ++ ['$', '$'])).length - 4 =
        (functionBody w).length := by
      simp only [List.length_cons, List.length_append, List.length_nil]
      omega
    rw [hlength]
    exact List.take_left
  rw [readBody, hbody, tokens_functionBody, Option.bind_some, strip_append, Option.bind_some]
  exact if_pos rfl

/-- The tokens of the first statement of `trigger_ddl`. -/
def functionTokens (w : Watched) : List Token :=
  keys ["create", "or", "replace", "function"] ++ .name (functionName w) ::
    ([.symbol '(', .symbol ')'] ++ keys ["returns", "trigger", "as"] ++
      .other ⟨.dollarString, '$' :: '$' :: (functionBody w ++ ['$', '$'])⟩ ::
        keys ["language", "plpgsql"])

def triggerTokens (w : Watched) : List Token :=
  keys ["create", "or", "replace", "trigger"] ++ .name (triggerName w) ::
    keys ["after", "insert", "or", "update", "or", "delete", "on"]

theorem createTokens_eq (w : Watched) :
    createTokens w = functionTokens w ++ .symbol ';' :: triggerTokens w := rfl

theorem semicolon_notMem_functionTokens (w : Watched) : .symbol ';' ∉ functionTokens w := by
  simp [functionTokens, keys]

theorem semicolon_notMem_triggerTokens (w : Watched) : .symbol ';' ∉ triggerTokens w := by
  simp [triggerTokens, keys]

/-- The first statement of `trigger_ddl`. -/
theorem readStatement_function (w : Watched) : readStatement (functionTokens w) =
    some (.createFunction (functionName w) (channelName w.schemaOid w.tableOid)) := by
  have hread : readCreateFunction (functionTokens w) =
      some (.createFunction (functionName w) (channelName w.schemaOid w.tableOid)) := by
    rw [readCreateFunction, functionTokens, strip_append, Option.bind_some, readName,
      Option.bind_some]
    dsimp only
    rw [List.append_assoc, ← List.append_assoc, strip_append, Option.bind_some]
    dsimp only
    rw [if_pos rfl, readBody_functionBody]
    rfl
  rw [readStatement, hread]
  rfl

theorem strip_eq_none {expected ts : List Token} (h : ¬ expected <+: ts) : strip expected ts = none :=
  if_neg fun hpre => h (List.isPrefixOf_iff_prefix.1 hpre)

/-- Only one of the readers reads on behind these tokens. -/
theorem readStatement_triggerTokens (w : Watched) (rest : List Token) :
    readStatement (triggerTokens w ++ rest) = readCreateTrigger (triggerTokens w ++ rest) := by
  have hfunction : readCreateFunction (triggerTokens w ++ rest) = none := by
    rw [readCreateFunction, strip_eq_none (by simp [triggerTokens, keys])]
    rfl
  have hdrop : readDropTrigger (triggerTokens w ++ rest) = none := by
    rw [readDropTrigger, strip_eq_none (by simp [triggerTokens, keys])]
    rfl
  have hdropFunction : readDropFunction (triggerTokens w ++ rest) = none := by
    rw [readDropFunction, strip_eq_none (by simp [triggerTokens, keys])]
    rfl
  rw [readStatement, hfunction, hdrop, hdropFunction]
  cases readCreateTrigger (triggerTokens w ++ rest) <;> rfl

/-- The second one, for the names that were read. -/
theorem readStatement_trigger (w : Watched) (schema table : String) :
    readStatement (triggerTokens w ++ .name schema :: .symbol '.' :: .name table ::
      (keys ["for", "each", "statement", "execute", "function"] ++
        [.name (functionName w), .symbol '(', .symbol ')'])) =
      some (.createTrigger (triggerName w) schema table (functionName w)) := by
  rw [readStatement_triggerTokens, readCreateTrigger, triggerTokens, List.append_assoc, strip_append,
    Option.bind_some, List.cons_append, readName, Option.bind_some]
  dsimp only
  rw [strip_append, Option.bind_some, readTable_cons, Option.bind_some]
  dsimp only
  rw [strip_append, Option.bind_some, readName, Option.bind_some]
  exact if_pos rfl

/-- The first statement of `unsubscribe`. -/
theorem readStatement_dropTrigger (name schema table : String) :
    readStatement (keys ["drop", "trigger", "if", "exists"] ++ .name name :: (keys ["on"] ++
      [.name schema, .symbol '.', .name table])) = some (.dropTrigger name schema table) := by
  have hfunction : ∀ rest, readCreateFunction (keys ["drop", "trigger", "if", "exists"] ++ rest) =
      none := by
    intro rest
    rw [readCreateFunction, strip_eq_none (by simp [keys])]
    rfl
  have htrigger : ∀ rest, readCreateTrigger (keys ["drop", "trigger", "if", "exists"] ++ rest) =
      none := by
    intro rest
    rw [readCreateTrigger, strip_eq_none (by simp [keys])]
    rfl
  have hread : readDropTrigger (keys ["drop", "trigger", "if", "exists"] ++ .name name ::
      (keys ["on"] ++ [.name schema, .symbol '.', .name table])) =
        some (.dropTrigger name schema table) := by
    rw [readDropTrigger, strip_append, Option.bind_some, readName, Option.bind_some]
    dsimp only
    rw [strip_append, Option.bind_some, readTable_cons, Option.bind_some]
    exact if_pos rfl
  rw [readStatement, hfunction, htrigger, hread]
  rfl

/-- Its second one. -/
theorem readStatement_dropFunction (name : String) :
    readStatement (keys ["drop", "function", "if", "exists"] ++
      [.name name, .symbol '(', .symbol ')']) = some (.dropFunction name) := by
  have hfunction : readCreateFunction (keys ["drop", "function", "if", "exists"] ++
      [.name name, .symbol '(', .symbol ')']) = none := by
    rw [readCreateFunction, strip_eq_none (by simp [keys])]
    rfl
  have htrigger : readCreateTrigger (keys ["drop", "function", "if", "exists"] ++
      [.name name, .symbol '(', .symbol ')']) = none := by
    rw [readCreateTrigger, strip_eq_none (by simp [keys])]
    rfl
  have hdrop : readDropTrigger (keys ["drop", "function", "if", "exists"] ++
      [.name name, .symbol '(', .symbol ')']) = none := by
    rw [readDropTrigger, strip_eq_none (by simp [keys])]
    rfl
  have hread : readDropFunction (keys ["drop", "function", "if", "exists"] ++
      [.name name, .symbol '(', .symbol ')']) = some (.dropFunction name) := by
    rw [readDropFunction, strip_append, Option.bind_some, readName, Option.bind_some]
    exact if_pos rfl
  rw [readStatement, hfunction, htrigger, hdrop, hread]
  rfl

/-- The names of the table have no quotes. -/
def Unquoted (w : Watched) : Prop :=
  doubleQuote ∉ w.schemaName.toList ∧ doubleQuote ∉ w.tableName.toList

/-- Without quotes in the names both scripts are read as they were meant. -/
theorem targets_of_unquoted {w : Watched} (hschema : w.schemaName ≠ "") (htable : w.tableName ≠ "")
    (h : Unquoted w) : Targets w := by
  refine ⟨triggerName w, functionName w, ?_, ?_⟩
  · have htokens : tokens (triggerDdl w).toList = some (functionTokens w ++ .symbol ';' ::
        ((triggerTokens w ++ .name w.schemaName :: .symbol '.' :: .name w.tableName ::
          (keys ["for", "each", "statement", "execute", "function"] ++
            [.name (functionName w), .symbol '(', .symbol ')'])) ++ [.symbol ';'])) := by
      have hexecute : (execute w).head? ≠ some doubleQuote :=
        head_ne "\nFOR EACH STATEMENT EXECUTE FUNCTION ".toList (by decide +kernel)
          (by decide : '\n' ≠ doubleQuote) _
      rw [tokens_triggerDdl, tokens_onTable hschema htable h.1 h.2 hexecute, tokens_execute,
        createTokens_eq]
      simp [executeTokens]
    refine readScript_two htokens (semicolon_notMem_functionTokens w) ?_ (.inr rfl)
      (readStatement_function w) (readStatement_trigger w _ _) ?_ ?_
    · simp [triggerTokens, keys]
    · simp [functionTokens, keys]
    · simp [triggerTokens, keys]
  · have htokens : tokens (teardownDdl w).toList = some ((keys ["drop", "trigger", "if", "exists"] ++
        .name (triggerName w) :: (keys ["on"] ++
          [.name w.schemaName, .symbol '.', .name w.tableName])) ++ .symbol ';' ::
        ((keys ["drop", "function", "if", "exists"] ++
          [.name (functionName w), .symbol '(', .symbol ')']) ++ [])) := by
      rw [tokens_teardownDdl hschema htable h.1 h.2]
      simp
    refine readScript_two htokens ?_ ?_ (.inl rfl) (readStatement_dropTrigger _ _ _)
      (readStatement_dropFunction _) ?_ ?_ <;> simp [keys]

/-- In a script that is read as on the table, the names have no quotes. -/
theorem unquoted_of_script {w : Watched} (hschema : w.schemaName ≠ "") {first : Statement}
    {trigger function : String}
    (h : readScript readStatement (triggerDdl w) =
      some [first, .createTrigger trigger w.schemaName w.tableName function]) : Unquoted w := by
  obtain ⟨ts, hts, h⟩ := Option.bind_eq_some_iff.1 h
  rw [tokens_triggerDdl] at hts
  obtain ⟨us, hus, rfl⟩ := Option.map_eq_some_iff.1 hts
  -- The second statement begins with the trigger's name and goes on with the first of `us`.
  obtain ⟨part, rest, hpart⟩ : ∃ part rest, us.splitOn (.symbol ';') = part :: rest := by
    cases hs : us.splitOn (.symbol ';') with
    | nil => exact absurd hs (List.splitOn_ne_nil _ _)
    | cons part rest => exact ⟨part, rest, rfl⟩
  have hsplit : (createTokens w ++ us).splitOn (.symbol ';') =
      functionTokens w :: (triggerTokens w ++ part) :: rest := by
    rw [createTokens_eq, List.append_assoc, List.cons_append,
      List.splitOn_append_cons_self_of_not_mem (semicolon_notMem_functionTokens w),
      Text.splitOn_append_of_notMem (semicolon_notMem_triggerTokens w), hpart]
    rfl
  have hsecond : readStatement (triggerTokens w ++ part) =
      some (.createTrigger trigger w.schemaName w.tableName function) := by
    rw [hsplit, List.filter_cons_of_pos (by simp [functionTokens, keys]),
      List.filter_cons_of_pos (by simp [triggerTokens, keys]), List.mapM_cons, List.mapM_cons] at h
    obtain ⟨s₁, -, h⟩ := Option.bind_eq_some_iff.1 h
    obtain ⟨ss, hss, heq⟩ := Option.bind_eq_some_iff.1 h
    obtain ⟨-, rfl⟩ := List.cons.inj (Option.some.inj heq)
    obtain ⟨s₂, hs₂, hss⟩ := Option.bind_eq_some_iff.1 hss
    obtain ⟨ss', -, heq⟩ := Option.bind_eq_some_iff.1 hss
    obtain ⟨rfl, -⟩ := List.cons.inj (Option.some.inj heq)
    exact hs₂
  rw [readStatement_triggerTokens] at hsecond
  obtain ⟨ts', hts'⟩ := readCreateTrigger_eq_some hsecond
  have hpart_eq : part = .name w.schemaName :: .symbol '.' :: .name w.tableName :: ts' := by
    simp only [triggerTokens, List.append_assoc, List.cons_append] at hts'
    obtain ⟨-, htail⟩ := List.cons.inj (List.append_cancel_left hts')
    exact List.append_cancel_left htail
  obtain ⟨us', rfl⟩ := Text.prefix_of_splitOn hpart
  rw [hpart_eq] at hus
  have hs : doubleQuote ∉ w.schemaName.toList :=
    not_quote_of_tokens (by decide : '.' ≠ doubleQuote) hus
  have hdot : ∀ text, ('.' :: text).head? ≠ some doubleQuote := by
    intro text h
    exact absurd (Option.some.inj h) (by decide)
  rw [onTable, tokens_asIs hschema hs (hdot _), tokens_delimiter (by decide)] at hus
  obtain ⟨vs, hvs, heq⟩ := Option.map_eq_some_iff.1 hus
  obtain ⟨vs', hvs', rfl⟩ := Option.map_eq_some_iff.1 hvs
  have hvs_eq : vs' = .name w.tableName :: (ts' ++ us') :=
    (List.cons.inj (List.cons.inj heq).2).2
  have hnewline : (execute w).head? = some '\n' :=
    head_append "\nFOR EACH STATEMENT EXECUTE FUNCTION ".toList (by decide +kernel) _
  cases hexecute : execute w with
  | nil =>
    rw [hexecute] at hnewline
    cases hnewline
  | cons d text =>
    rw [hexecute] at hnewline
    obtain rfl := Option.some.inj hnewline
    rw [hexecute, hvs_eq] at hvs'
    exact ⟨hs, not_quote_of_tokens (by decide : '\n' ≠ doubleQuote) hvs'⟩

/-- For every table that the server admits: the scripts are their statements on it iff neither name
has a double quote. -/
theorem targets_iff (w : Watched) (hschema : w.schemaName ≠ "") (htable : w.tableName ≠ "") :
    Targets w ↔ Unquoted w := by
  constructor
  · rintro ⟨trigger, function, hcreate, -⟩
    exact unquoted_of_script hschema hcreate
  · exact targets_of_unquoted hschema htable

theorem targets_orders : Targets ⟨2200, 16385, "public", "order items"⟩ ↔
    Unquoted ⟨2200, 16385, "public", "order items"⟩ :=
  targets_iff ⟨2200, 16385, "public", "order items"⟩ (by decide) (by decide)

/-- A name that ends its quotes. -/
theorem quote_not_targets : ¬ ∀ w : Watched, w.schemaName ≠ "" → w.tableName ≠ "" →
    Char.ofNat 0 ∉ w.schemaName.toList → Char.ofNat 0 ∉ w.tableName.toList → Targets w := by
  intro h
  obtain ⟨trigger, function, hcreate, -⟩ := h ⟨2200, 16385, "public", "a\"b"⟩ (by decide)
    (by decide) (by decide +kernel) (by decide +kernel)
  have hunquoted := unquoted_of_script (by decide) hcreate
  exact absurd hunquoted.2 (by decide +kernel)

end Pglite.Live
