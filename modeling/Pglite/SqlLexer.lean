import Mathlib.Data.List.Infix
import Pglite.Text

/-!
# The lexical structure of SQL

SQL text with `standard_conforming_strings` on, cut into lexemes character by character. A `Mode`
says what the scanner is in the middle of; `Mode.extend` says whether the next character still
belongs to it.

* `lexemes`: the pieces of a text, with their characters. Text whose last piece does not end has
  none.
* `lexemes_piece`: a complete piece is cut off when what follows does not extend it.
* `tokens`: what the parser sees of them, quoting removed. Space and comments are dropped, and a
  quoted name without characters is an error.
* `Reads`: a text is read as the given tokens, whatever follows it, as long as that begins with a
  delimiter. Names and constants are read back however they are doubled
  (`reads_name`, `reads_const`), and readings are put together by `Reads.append`.
* `fixed`: a text that ends in a space or a symbol is read by itself, before any other text.
* `not_quote_of_tokens`: a name between quotes that are not doubled has none of its own, if it is
  read back.

Two cases are simpler than in the server: a symbol is one character, and constants with only a
line end between them stay two.
-/

namespace SqlLexer

open Text

/-! ## Characters -/

def doubleQuote : Char := Char.ofNat 0x22

def singleQuote : Char := Char.ofNat 0x27

def backslash : Char := Char.ofNat 0x5c

def isSpace (c : Char) : Bool :=
  c = ' ' || c = '\t' || c = '\n' || c = '\r' || c = Char.ofNat 0x0b || c = Char.ofNat 0x0c

/-- A character that can begin a name without quotes. -/
def isIdentStart (c : Char) : Bool :=
  c.isAlpha || c = '_' || 128 ≤ c.toNat

def isIdentCont (c : Char) : Bool :=
  isIdentStart c || c.isDigit || c = '$'

/-! ## Modes -/

/-- What the scanner is in the middle of. -/
inductive Mode
  | space
  | word
  | number
  | symbol
  /-- Inside a quoted name, and behind a quote that ends it unless another follows. -/
  | ident
  | identEnd
  /-- Inside a string constant, with or without backslash escapes. -/
  | string (escapes : Bool)
  | escape
  | stringEnd (escapes : Bool)
  /-- Behind a `$`, in a parameter, in the tag of a dollar quote, and in its body. -/
  | dollar
  | param
  | tag
  | body (opening sofar : List Char)
  | bodyEnd
  /-- Behind a `-`, and in a comment to the end of the line. -/
  | minus
  | line
  /-- Behind a `/`, and in a comment with so many others around it. -/
  | slash
  | block (depth : Nat)
  | blockStar (depth : Nat)
  | blockSlash (depth : Nat)
  | blockEnd
  | bad
deriving DecidableEq

/-- The mode behind the first character of a lexeme. -/
def Mode.first (c : Char) : Mode :=
  if isSpace c then .space
  else if isIdentStart c then .word
  else if c.isDigit then .number
  else if c = '$' then .dollar
  else if c = doubleQuote then .ident
  else if c = singleQuote then .string false
  else if c = '-' then .minus
  else if c = '/' then .slash
  else .symbol

/-- The mode behind one more character, unless it begins the next lexeme. `raw` is what the lexeme
has so far. -/
def Mode.extend (raw : List Char) (c : Char) : Mode → Option Mode
  | .space => none
  | .word =>
    if isIdentCont c then some .word
    else if c = singleQuote ∧ (raw = ['e'] ∨ raw = ['E']) then some (.string true)
    else none
  | .number => if c.isDigit then some .number else none
  | .symbol => none
  | .ident => some (if c = doubleQuote then .identEnd else .ident)
  | .identEnd => if c = doubleQuote then some .ident else none
  | .string escapes =>
    some (if c = singleQuote then .stringEnd escapes
      else if escapes ∧ c = backslash then .escape
      else .string escapes)
  | .escape => some (.string true)
  | .stringEnd escapes => if c = singleQuote then some (.string escapes) else none
  | .dollar =>
    some (if c.isDigit then .param
      else if c = '$' then .body ['$', '$'] []
      else if isIdentStart c then .tag
      else .bad)
  | .param =>
    if c.isDigit then some .param
    else if isIdentStart c then some .bad
    else none
  | .tag =>
    some (if c = '$' then .body (raw ++ [c]) []
      else if isIdentCont c then .tag
      else .bad)
  | .body opening sofar =>
    some (if opening <:+ sofar ++ [c] then .bodyEnd else .body opening (sofar ++ [c]))
  | .bodyEnd => none
  | .minus => if c = '-' then some .line else none
  | .line => if c = '\n' ∨ c = '\r' then none else some .line
  | .slash => if c = '*' then some (.block 0) else none
  | .block depth =>
    some (if c = '*' then .blockStar depth
      else if c = '/' then .blockSlash depth
      else .block depth)
  | .blockStar depth =>
    some (if c = '/' then (if depth = 0 then .blockEnd else .block (depth - 1))
      else if c = '*' then .blockStar depth
      else .block depth)
  | .blockSlash depth =>
    some (if c = '*' then .block (depth + 1)
      else if c = '/' then .blockSlash depth
      else .block depth)
  | .blockEnd => none
  | .bad => some .bad

/-! ## Lexemes -/

inductive Kind
  | space
  | comment
  | word
  | number
  | param
  | ident
  | string
  | escapeString
  | dollarString
  | symbol
deriving DecidableEq

/-- What a lexeme is that ends in this mode. In the other modes it cannot end. -/
def Mode.kind : Mode → Option Kind
  | .space => some .space
  | .word => some .word
  | .number => some .number
  | .symbol => some .symbol
  | .identEnd => some .ident
  | .stringEnd false => some .string
  | .stringEnd true => some .escapeString
  | .param => some .param
  | .bodyEnd => some .dollarString
  | .minus => some .symbol
  | .line => some .comment
  | .slash => some .symbol
  | .blockEnd => some .comment
  | _ => none

structure Lexeme where
  kind : Kind
  raw : List Char
deriving DecidableEq

/-- The lexemes of the rest of a text, from the middle of one. -/
def lexFrom : Mode → List Char → List Char → Option (List Lexeme)
  | m, raw, [] => m.kind.map fun k => [⟨k, raw⟩]
  | m, raw, c :: cs =>
    match m.extend raw c with
    | some m' => lexFrom m' (raw ++ [c]) cs
    | none => m.kind.bind fun k => (lexFrom (.first c) [c] cs).map (⟨k, raw⟩ :: ·)

def lexemes : List Char → Option (List Lexeme)
  | [] => some []
  | c :: cs => lexFrom (.first c) [c] cs

/-- The mode behind characters that all extend the lexeme. -/
def advance : Mode → List Char → List Char → Option Mode
  | m, _, [] => some m
  | m, raw, c :: cs => (m.extend raw c).bind fun m' => advance m' (raw ++ [c]) cs

theorem lexFrom_advance {m m' : Mode} {raw cs : List Char} (h : advance m raw cs = some m')
    (rest : List Char) : lexFrom m raw (cs ++ rest) = lexFrom m' (raw ++ cs) rest := by
  induction cs generalizing m raw with
  | nil =>
    obtain rfl : m = m' := Option.some.inj h
    simp
  | cons c cs ih =>
    obtain ⟨m₁, hm₁, hadv⟩ := Option.bind_eq_some_iff.1 h
    rw [List.cons_append, lexFrom, hm₁]
    simpa using ih hadv

/-- Nothing that begins like `rest` extends a lexeme with the characters `raw`. -/
def Ends (m : Mode) (raw rest : List Char) : Prop :=
  ∀ d ∈ rest.head?, m.extend raw d = none

/-- **A complete piece is cut off.** -/
theorem lexemes_piece {c : Char} {cs rest : List Char} {m : Mode} {k : Kind}
    (h : advance (.first c) [c] cs = some m) (hk : m.kind = some k)
    (hend : Ends m (c :: cs) rest) :
    lexemes (c :: cs ++ rest) = (lexemes rest).map (⟨k, c :: cs⟩ :: ·) := by
  rw [List.cons_append, lexemes, lexFrom_advance h, List.singleton_append]
  cases rest with
  | nil => simp [lexFrom, hk, lexemes]
  | cons d ds => rw [lexFrom, hend d rfl, hk, Option.bind_some, lexemes]

theorem advance_append {m : Mode} {raw xs ys : List Char} :
    advance m raw (xs ++ ys) = (advance m raw xs).bind fun m' => advance m' (raw ++ xs) ys := by
  induction xs generalizing m raw with
  | nil => simp [advance]
  | cons x xs ih =>
    rw [List.cons_append, advance, advance, Option.bind_assoc]
    cases m.extend raw x with
    | none => rfl
    | some m' => simp [ih]

/-! ## Tokens -/

inductive Token
  /-- A key word or a name without quotes, in small letters. -/
  | word (s : String)
  /-- A quoted name. -/
  | name (s : String)
  /-- A string constant. -/
  | const (s : String)
  | symbol (c : Char)
  | other (l : Lexeme)
deriving DecidableEq

/-- What stands between the quotes, the doubled ones single. -/
def undouble (q : Char) : List Char → List Char
  | [] => []
  | [c] => [c]
  | c :: d :: cs =>
    if c = q ∧ d = q then q :: undouble q cs else c :: undouble q (d :: cs)

/-- The text between the quotes of a lexeme. -/
def Lexeme.quoted (q : Char) (l : Lexeme) : String :=
  String.ofList (undouble q l.raw.tail.dropLast)

def Lexeme.tokens (l : Lexeme) : Option (List Token) :=
  match l.kind with
  | .space => some []
  | .comment => some []
  | .word => some [.word (String.ofList (l.raw.map Char.toLower))]
  | .ident => if l.raw.length ≤ 2 then none else some [.name (l.quoted doubleQuote)]
  | .string => some [.const (l.quoted singleQuote)]
  | .symbol => some (l.raw.map .symbol)
  | _ => some [.other l]

/-- The tokens of lexemes. -/
def readAll : List Lexeme → Option (List Token)
  | [] => some []
  | l :: ls => l.tokens.bind fun ts => (readAll ls).map (ts ++ ·)

/-- The tokens of a text. -/
def tokens (text : List Char) : Option (List Token) :=
  (lexemes text).bind readAll

@[simp] theorem tokens_nil : tokens [] = some [] := rfl

theorem tokens_piece (c : Char) (cs : List Char) {rest : List Char} {m : Mode} {k : Kind}
    {ts : List Token} (h : advance (.first c) [c] cs = some m) (hk : m.kind = some k)
    (hend : Ends m (c :: cs) rest) (hts : Lexeme.tokens ⟨k, c :: cs⟩ = some ts) :
    tokens (c :: cs ++ rest) = (tokens rest).map (ts ++ ·) := by
  rw [tokens, lexemes_piece h hk hend, tokens]
  cases lexemes rest with
  | none => rfl
  | some ls => simp [readAll, hts]

/-! ## Readings -/

/-- A character that begins a lexeme of its own after any complete one, and that nothing
extends. -/
def isDelimiter (c : Char) : Bool :=
  c = ' ' || c = ',' || c = '.' || c = '(' || c = ')' || c = ';'

/-- The text is empty or begins with a delimiter. -/
def Delimited (text : List Char) : Prop :=
  ∀ d ∈ text.head?, isDelimiter d

/-- **A reading.** Whatever delimited text follows, the text is read as these tokens. -/
def Reads (text : List Char) (ts : List Token) : Prop :=
  ∀ rest, Delimited rest → tokens (text ++ rest) = (tokens rest).map (ts ++ ·)

theorem delimited_nil : Delimited [] := fun _ hd => nomatch hd

theorem delimited_cons {c : Char} {cs : List Char} (h : isDelimiter c) : Delimited (c :: cs) := by
  intro d hd
  obtain rfl : c = d := by simpa using hd
  exact h

theorem Delimited.append {xs ys : List Char} (hxs : Delimited xs) (hys : Delimited ys) :
    Delimited (xs ++ ys) := by
  cases xs with
  | nil => exact hys
  | cons x xs => exact delimited_cons (hxs x rfl)

theorem Reads.tokens_eq {text : List Char} {ts : List Token} (h : Reads text ts) :
    tokens text = some ts := by
  have := h [] delimited_nil
  simpa using this

theorem reads_nil : Reads [] [] := fun rest _ => by simp

theorem Reads.append {xs ys : List Char} {ts us : List Token} (hxs : Reads xs ts)
    (hys : Reads ys us) (hd : Delimited ys) : Reads (xs ++ ys) (ts ++ us) := by
  intro rest hrest
  rw [List.append_assoc, hxs _ (hd.append hrest), hys _ hrest, Option.map_map]
  congr 1
  funext vs
  simp

/-- The tokens of a delimiter. -/
def delimiterTokens (c : Char) : List Token :=
  if c = ' ' then [] else [.symbol c]

/-- A delimiter ends a lexeme that is complete. -/
theorem extend_delimiter {m : Mode} {raw : List Char} {k : Kind} {c : Char} (hk : m.kind = some k)
    (hline : m ≠ .line) (h : isDelimiter c) : m.extend raw c = none := by
  have hcases : c = ' ' ∨ c = ',' ∨ c = '.' ∨ c = '(' ∨ c = ')' ∨ c = ';' := by
    simpa [isDelimiter, or_assoc] using h
  have hcont : isIdentCont c = false ∧ isIdentStart c = false ∧ c.isDigit = false ∧
      c ≠ singleQuote ∧ c ≠ doubleQuote ∧ c ≠ '-' ∧ c ≠ '*' := by
    obtain rfl | rfl | rfl | rfl | rfl | rfl := hcases <;> decide
  obtain ⟨h1, h2, h3, h4, h5, h6, h7⟩ := hcont
  cases m with
  | line => exact absurd rfl hline
  | _ => simp_all [Mode.extend, Mode.kind]

/-- A delimiter is read by itself, whatever follows. -/
theorem tokens_delimiter {c : Char} (h : isDelimiter c) (rest : List Char) :
    tokens (c :: rest) = (tokens rest).map (delimiterTokens c ++ ·) := by
  have hcases : c = ' ' ∨ c = ',' ∨ c = '.' ∨ c = '(' ∨ c = ')' ∨ c = ';' := by
    simpa [isDelimiter, or_assoc] using h
  obtain rfl | hrest := hcases
  · exact tokens_piece ' ' [] (k := .space) rfl rfl (fun _ _ => rfl) rfl
  · have hfirst : Mode.first c = .symbol ∧ delimiterTokens c = [.symbol c] := by
      obtain rfl | rfl | rfl | rfl | rfl := hrest <;> decide
    rw [hfirst.2]
    exact tokens_piece c [] (m := .symbol) (by rw [hfirst.1]; rfl) rfl (fun _ _ => rfl) rfl

theorem Reads.delimiter {c : Char} (h : isDelimiter c) {text : List Char} {ts : List Token}
    (ht : Reads text ts) : Reads (c :: text) (delimiterTokens c ++ ts) := by
  intro rest hrest
  rw [List.cons_append, tokens_delimiter h, ht rest hrest, Option.map_map]
  congr 1
  funext vs
  simp

/-- Two readings with a delimiter in between. -/
theorem Reads.sep {xs ys : List Char} {ts us : List Token} (hxs : Reads xs ts) {c : Char}
    (h : isDelimiter c) (hys : Reads ys us) :
    Reads (xs ++ c :: ys) (ts ++ (delimiterTokens c ++ us)) :=
  hxs.append (hys.delimiter h) (delimited_cons h)

/-- Two readings with a space in between. -/
theorem Reads.space {xs ys : List Char} {ts us : List Token} (hxs : Reads xs ts)
    (hys : Reads ys us) : Reads (xs ++ ' ' :: ys) (ts ++ us) :=
  hxs.sep (c := ' ') (by decide) hys

/-- A complete lexeme, other than a comment to the end of the line, is read as its tokens. -/
theorem reads_piece {c : Char} {cs : List Char} {m : Mode} {k : Kind} {ts : List Token}
    (h : advance (.first c) [c] cs = some m) (hk : m.kind = some k) (hline : m ≠ .line)
    (hts : Lexeme.tokens ⟨k, c :: cs⟩ = some ts) : Reads (c :: cs) ts :=
  fun _ hrest => tokens_piece c cs h hk (fun d hd => extend_delimiter hk hline (hrest d hd)) hts

/-! ## Words, names and constants -/

theorem advance_forall {m : Mode} {ok : Char → Prop}
    (hm : ∀ raw c, ok c → m.extend raw c = some m) {raw cs : List Char} (h : ∀ c ∈ cs, ok c) :
    advance m raw cs = some m := by
  induction cs generalizing raw with
  | nil => rfl
  | cons c cs ih =>
    obtain ⟨hc, hcs⟩ := List.forall_mem_cons.1 h
    rw [advance, hm raw c hc, Option.bind_some]
    exact ih hcs

/-- The characters of a key word, or of a name that needs no quotes. -/
def isWord : List Char → Bool
  | [] => false
  | c :: cs => isIdentStart c && !isSpace c && cs.all isIdentCont

theorem reads_word {text : List Char} (h : isWord text) :
    Reads text [.word (String.ofList (text.map Char.toLower))] := by
  cases text with
  | nil => cases h
  | cons c cs =>
    obtain ⟨⟨hstart, hspace⟩, hcs⟩ : (isIdentStart c ∧ isSpace c = false) ∧
        ∀ d ∈ cs, isIdentCont d := by
      simpa [isWord] using h
    have hfirst : Mode.first c = .word := by simp [Mode.first, hspace, hstart]
    have hadv : advance (.first c) [c] cs = some .word := by
      rw [hfirst]
      exact advance_forall (fun raw d hd => by simp [Mode.extend, hd]) hcs
    exact reads_piece hadv (k := .word) rfl (by decide) rfl

/-- The text between quotes that are doubled inside. -/
def quoted (q : Char) (s : String) : List Char :=
  q :: ((double q s).toList ++ [q])

theorem double_toList_cons (q c : Char) (cs : List Char) :
    (double q (String.ofList (c :: cs))).toList =
      (if c = q then [q, q] else [c]) ++ (double q (String.ofList cs)).toList := by
  simp [double]

theorem undouble_cons_of_ne {q c : Char} (h : c ≠ q) (cs : List Char) :
    undouble q (c :: cs) = c :: undouble q cs := by
  cases cs with
  | nil => rfl
  | cons d ds => rw [undouble, if_neg fun hcd => h hcd.1]

/-- What was doubled is undone. -/
theorem undouble_double (q : Char) (s : String) : undouble q (double q s).toList = s.toList := by
  suffices h : ∀ cs, undouble q (double q (String.ofList cs)).toList = cs by
    simpa using h s.toList
  intro cs
  induction cs with
  | nil => simp [double, undouble]
  | cons c cs ih =>
    rw [double_toList_cons]
    by_cases hc : c = q
    · subst hc
      rw [if_pos rfl]
      simp [undouble, ih]
    · rw [if_neg hc, List.singleton_append, undouble_cons_of_ne hc, ih]

theorem quoted_quoted (q : Char) (k : Kind) (s : String) :
    Lexeme.quoted q ⟨k, quoted q s⟩ = s := by
  simp [Lexeme.quoted, quoted, undouble_double]

/-- Doubled text does not leave the quotes. -/
theorem advance_double {q : Char} {m : Mode} (m' : Mode) (hq : ∀ raw, m.extend raw q = some m')
    (hqq : ∀ raw, m'.extend raw q = some m)
    (hne : ∀ raw c, c ≠ q → m.extend raw c = some m) (s : String) (raw : List Char) :
    advance m raw (double q s).toList = some m := by
  suffices h : ∀ cs raw, advance m raw (double q (String.ofList cs)).toList = some m by
    simpa using h s.toList raw
  intro cs
  induction cs with
  | nil =>
    intro raw
    simp [double, advance]
  | cons c cs ih =>
    intro raw
    rw [double_toList_cons]
    by_cases hc : c = q
    · subst hc
      rw [if_pos rfl]
      simp [advance, hq, hqq, ih]
    · rw [if_neg hc, List.singleton_append, advance, hne raw c hc, Option.bind_some]
      exact ih _

/-- A name between double quotes, before anything but another quote. -/
theorem tokens_name {s : String} (h : s ≠ "") {rest : List Char}
    (hrest : rest.head? ≠ some doubleQuote) :
    tokens (quoted doubleQuote s ++ rest) = (tokens rest).map ([.name s] ++ ·) := by
  have hadv : advance .ident [doubleQuote] ((double doubleQuote s).toList ++ [doubleQuote]) =
      some .identEnd := by
    rw [advance_append, advance_double .identEnd (fun raw => by simp [Mode.extend])
      (fun raw => by simp [Mode.extend]) (fun raw c hc => by simp [Mode.extend, hc])]
    rfl
  have hlen : ¬ (quoted doubleQuote s).length ≤ 2 := by
    have hne : s.toList ≠ [] := fun hnil => h (String.toList_eq_nil_iff.1 hnil)
    have hdouble : (double doubleQuote s).toList ≠ [] := by
      intro hnil
      have hund := undouble_double doubleQuote s
      rw [hnil] at hund
      exact hne hund.symm
    have := List.length_pos_iff.2 hdouble
    simp only [quoted, List.length_cons, List.length_append, List.length_nil]
    omega
  have hend : Ends .identEnd (quoted doubleQuote s) rest := by
    intro d hd
    have hne : d ≠ doubleQuote := fun heq => hrest (heq ▸ hd)
    exact if_neg hne
  refine tokens_piece (m := .identEnd) (k := .ident) _ _ hadv rfl hend ?_
  change (if (quoted doubleQuote s).length ≤ 2 then none else
    some [Token.name (Lexeme.quoted doubleQuote ⟨.ident, quoted doubleQuote s⟩)]) = _
  rw [if_neg hlen, quoted_quoted]

/-- **A name between double quotes is read back**, whatever characters it has. -/
theorem reads_name {s : String} (h : s ≠ "") : Reads (quoted doubleQuote s) [.name s] := by
  intro rest hrest
  refine tokens_name h fun hhead => ?_
  exact absurd (hrest _ hhead) (by decide)

/-- **A constant between single quotes is read back**, whatever characters it has. -/
theorem reads_const (s : String) : Reads (quoted singleQuote s) [.const s] := by
  have hadv : advance (.string false) [singleQuote]
      ((double singleQuote s).toList ++ [singleQuote]) = some (.stringEnd false) := by
    rw [advance_append, advance_double (.stringEnd false)
      (fun raw => by simp [Mode.extend]) (fun raw => by simp [Mode.extend])
      (fun raw c hc => by simp [Mode.extend, hc])]
    rfl
  refine reads_piece (m := .stringEnd false) (k := .string) hadv rfl (by decide) ?_
  change some [Token.const (Lexeme.quoted singleQuote ⟨.string, quoted singleQuote s⟩)] = _
  rw [quoted_quoted]

/-! ## Lists -/

/-- A text that separates readings: it begins with a delimiter, and puts its own tokens before
whatever is read after it. -/
structure Separates (sep : List Char) (seps : List Token) : Prop where
  delimited : ∀ rest, Delimited (sep ++ rest)
  reads : ∀ {text ts}, Reads text ts → Reads (sep ++ text) (seps ++ ts)

/-- A list of readings with separators in between. -/
theorem reads_intercalate {sep : List Char} {seps : List Token} (hsep : Separates sep seps)
    {α : Type*} {text : α → List Char} {ts : α → List Token} {xs : List α}
    (h : ∀ x ∈ xs, Reads (text x) (ts x)) :
    Reads (sep.intercalate (xs.map text)) (seps.intercalate (xs.map ts)) := by
  induction xs with
  | nil => exact reads_nil
  | cons x xs ih =>
    obtain ⟨hx, hxs⟩ := List.forall_mem_cons.1 h
    cases xs with
    | nil => simpa using hx
    | cons y ys =>
      simp only [List.map_cons, List.intercalate_cons_cons] at ih ⊢
      rw [List.append_assoc, List.append_assoc]
      exact hx.append (hsep.reads (ih hxs)) (hsep.delimited _)

theorem separates_comma : Separates [',', ' '] [.symbol ','] where
  delimited rest := delimited_cons (by decide)
  reads h := (h.delimiter (c := ' ') (by decide)).delimiter (c := ',') (by decide)

/-- A key word with a space on either side. -/
theorem separates_word (word : List Char) (h : isWord word) :
    Separates (' ' :: (word ++ [' '])) [.word (String.ofList (word.map Char.toLower))] where
  delimited rest := delimited_cons (by decide)
  reads {text ts} ht := by
    have hspace : Reads (' ' :: text) ts := ht.delimiter (c := ' ') (by decide)
    have hword := (reads_word h).append hspace (delimited_cons (by decide))
    simpa [delimiterTokens] using hword.delimiter (c := ' ') (by decide)

/-! ## Cutting tokens -/

/-- What is before the first such token, and what is behind it. -/
def cutAt (t : Token) : List Token → Option (List Token × List Token)
  | [] => none
  | u :: us =>
    if u = t then some ([], us) else (cutAt t us).map fun (before, rest) => (u :: before, rest)

theorem cutAt_append {t : Token} {before : List Token} (h : t ∉ before) (rest : List Token) :
    cutAt t (before ++ t :: rest) = some (before, rest) := by
  induction before with
  | nil => simp [cutAt]
  | cons u us ih =>
    obtain ⟨hu, hus⟩ := List.ne_and_not_mem_of_not_mem_cons h
    rw [List.cons_append, cutAt, if_neg (Ne.symm hu), ih hus]
    rfl

/-- A list of items with a token in between. -/
def readList {α : Type*} (sep : Token) (item : List Token → Option α) (ts : List Token) :
    Option (List α) :=
  (ts.splitOn sep).mapM item

theorem mem_intercalate {sep t : Token} {tss : List (List Token)}
    (h : t ∈ [sep].intercalate tss) : t = sep ∨ ∃ ts ∈ tss, t ∈ ts := by
  induction tss with
  | nil => simp at h
  | cons ts tss ih =>
    cases tss with
    | nil => exact .inr ⟨ts, List.mem_cons_self, by simpa using h⟩
    | cons us tss =>
      rw [List.intercalate_cons_cons] at h
      rcases List.mem_append.1 h with h | h
      · rcases List.mem_append.1 h with h | h
        · exact .inr ⟨ts, List.mem_cons_self, h⟩
        · exact .inl (List.mem_singleton.1 h)
      · rcases ih h with hsep | ⟨vs, hvs, ht⟩
        · exact .inl hsep
        · exact .inr ⟨vs, List.mem_cons_of_mem _ hvs, ht⟩

/-- The items are read back. -/
theorem readList_intercalate {α β : Type*} {sep : Token} {item : List Token → Option α}
    {ts : β → List Token} {f : β → α} {xs : List β} (hne : xs ≠ [])
    (hsep : ∀ x ∈ xs, sep ∉ ts x) (hitem : ∀ x ∈ xs, item (ts x) = some (f x)) :
    readList sep item ([sep].intercalate (xs.map ts)) = some (xs.map f) := by
  have hsplit : ([sep].intercalate (xs.map ts)).splitOn sep = xs.map ts := by
    refine List.splitOn_intercalate sep ?_ (by simpa using hne)
    intro l hl
    obtain ⟨x, hx, rfl⟩ := List.mem_map.1 hl
    exact hsep x hx
  rw [readList, hsplit]
  clear hsplit hsep hne
  induction xs with
  | nil => rfl
  | cons x xs ih =>
    obtain ⟨hx, hxs⟩ := List.forall_mem_cons.1 hitem
    rw [List.map_cons, List.mapM_cons, hx, ih hxs]
    rfl

/-- The statements of a script, separated by semicolons, those without tokens left out. -/
def readScript {α : Type*} (statement : List Token → Option α) (sql : String) :
    Option (List α) :=
  (tokens sql.toList).bind fun ts =>
    ((ts.splitOn (.symbol ';')).filter fun ts => !ts.isEmpty).mapM statement

/-- A text without a semicolon among its tokens is at most one statement. -/
theorem readScript_eq {α : Type*} (statement : List Token → Option α) {sql : String}
    {ts : List Token} (hreads : Reads sql.toList ts) (hsemi : Token.symbol ';' ∉ ts)
    (hne : ts ≠ []) : readScript statement sql = (statement ts).map fun stmt => [stmt] := by
  rw [readScript, hreads.tokens_eq, Option.bind_some, List.splitOn_eq_singleton hsemi]
  cases hstmt : statement ts <;> simp [hne, hstmt]

theorem readScript_one {α : Type*} {statement : List Token → Option α} {sql : String}
    {ts : List Token} {stmt : α} (hreads : Reads sql.toList ts)
    (hsemi : Token.symbol ';' ∉ ts) (hstmt : statement ts = some stmt) (hne : ts ≠ []) :
    readScript statement sql = some [stmt] := by
  rw [readScript_eq statement hreads hsemi hne, hstmt]
  rfl

/-- Two statements, with or without a semicolon behind the second. -/
theorem readScript_two {α : Type*} {statement : List Token → Option α} {sql : String}
    {first second rest : List Token} {stmt stmt' : α}
    (htokens : tokens sql.toList = some (first ++ .symbol ';' :: (second ++ rest)))
    (hfirst : .symbol ';' ∉ first) (hsecond : .symbol ';' ∉ second)
    (hrest : rest = [] ∨ rest = [.symbol ';']) (hstmt : statement first = some stmt)
    (hstmt' : statement second = some stmt') (hne : first ≠ []) (hne' : second ≠ []) :
    readScript statement sql = some [stmt, stmt'] := by
  have hsplit : (first ++ .symbol ';' :: (second ++ rest)).splitOn (.symbol ';') =
      [first, second] ++ (if rest = [] then [] else [[]]) := by
    rw [List.splitOn_append_cons_self_of_not_mem hfirst]
    rcases hrest with rfl | rfl
    · rw [List.append_nil, List.splitOn_eq_singleton hsecond]
      rfl
    · rw [List.splitOn_append_cons_self_of_not_mem hsecond]
      rfl
  rw [readScript, htokens, Option.bind_some, hsplit]
  rcases hrest with rfl | rfl <;> simp [hne, hne', hstmt, hstmt']

/-! ## Parentheses -/

/-- The depth behind the tokens, as long as no parenthesis closes that none opens. -/
def balance : Nat → List Token → Option Nat
  | depth, [] => some depth
  | depth, t :: ts =>
    if t = .symbol '(' then balance (depth + 1) ts
    else if t = .symbol ')' then
      (if depth = 0 then none else balance (depth - 1) ts)
    else balance depth ts

/-- The tokens up to the parenthesis that closes, and those behind it. -/
def matchParen : Nat → List Token → Option (List Token × List Token)
  | _, [] => none
  | depth, t :: ts =>
    if t = .symbol '(' then (matchParen (depth + 1) ts).map fun p => (t :: p.1, p.2)
    else if t = .symbol ')' then
      (if depth = 0 then some ([], ts)
      else (matchParen (depth - 1) ts).map fun p => (t :: p.1, p.2))
    else (matchParen depth ts).map fun p => (t :: p.1, p.2)

/-- Balanced tokens are what is between their parentheses. -/
theorem matchParen_append {depth : Nat} {ts : List Token} (h : balance depth ts = some 0)
    (rest : List Token) : matchParen depth (ts ++ .symbol ')' :: rest) = some (ts, rest) := by
  induction ts generalizing depth with
  | nil =>
    obtain rfl : depth = 0 := Option.some.inj h
    rfl
  | cons t ts ih =>
    rw [balance] at h
    rw [List.cons_append, matchParen]
    by_cases hopen : t = .symbol '('
    · rw [if_pos hopen] at h
      rw [if_pos hopen, ih h]
      rfl
    · rw [if_neg hopen] at h
      rw [if_neg hopen]
      by_cases hclose : t = .symbol ')'
      · rw [if_pos hclose] at h
        rw [if_pos hclose]
        by_cases hdepth : depth = 0
        · rw [if_pos hdepth] at h
          cases h
        · rw [if_neg hdepth] at h
          rw [if_neg hdepth, ih h]
          rfl
      · rw [if_neg hclose] at h
        rw [if_neg hclose, ih h]
        rfl

/-- The text of an expression: it is read by itself, its parentheses match, and it does not end
the statement. -/
def IsExpr (text : String) : Prop :=
  ∃ ts, Reads text.toList ts ∧ balance 0 ts = some 0 ∧ .symbol ';' ∉ ts

/-- An expression in parentheses. -/
theorem IsExpr.reads {text : String} (h : IsExpr text) : ∃ ts, tokens text.toList = some ts ∧
    Reads ('(' :: (text.toList ++ [')'])) (.symbol '(' :: (ts ++ [.symbol ')'])) ∧
    balance 0 ts = some 0 ∧ .symbol ';' ∉ ts := by
  obtain ⟨ts, hreads, hbalance, hsemi⟩ := h
  refine ⟨ts, hreads.tokens_eq, ?_, hbalance, hsemi⟩
  have hclosed := hreads.sep (c := ')') (by decide) reads_nil
  simpa [delimiterTokens] using hclosed.delimiter (c := '(') (by decide)

/-! ## Fixed texts -/

/-- The lexemes of a text that ends in a space or a symbol, so that no other text extends them. -/
def fixedFrom : Mode → List Char → List Char → Option (List Lexeme)
  | m, raw, [] => if m = .space ∨ m = .symbol then m.kind.map fun k => [⟨k, raw⟩] else none
  | m, raw, c :: cs =>
    match m.extend raw c with
    | some m' => fixedFrom m' (raw ++ [c]) cs
    | none => m.kind.bind fun k => (fixedFrom (.first c) [c] cs).map (⟨k, raw⟩ :: ·)

def fixed : List Char → Option (List Token)
  | [] => some []
  | c :: cs => (fixedFrom (.first c) [c] cs).bind readAll

theorem lexFrom_fixed {m : Mode} {raw cs : List Char} {ls : List Lexeme}
    (h : fixedFrom m raw cs = some ls) (rest : List Char) :
    lexFrom m raw (cs ++ rest) = (lexemes rest).map (ls ++ ·) := by
  induction cs generalizing m raw ls with
  | nil =>
    rw [fixedFrom] at h
    split at h
    · next hm =>
      obtain ⟨k, hk, rfl⟩ := Option.map_eq_some_iff.1 h
      cases rest with
      | nil =>
        rw [List.append_nil, lexFrom, hk]
        rfl
      | cons c cs =>
        have hend : m.extend raw c = none := by
          rcases hm with rfl | rfl <;> rfl
        rw [List.nil_append, lexFrom, hend, hk]
        rfl
    · cases h
  | cons c cs ih =>
    rw [fixedFrom] at h
    rw [List.cons_append, lexFrom]
    cases hm : m.extend raw c with
    | some m' =>
      rw [hm] at h
      exact ih h
    | none =>
      rw [hm] at h
      obtain ⟨k, hk, h⟩ := Option.bind_eq_some_iff.1 h
      obtain ⟨ls', hls', rfl⟩ := Option.map_eq_some_iff.1 h
      dsimp only
      rw [hk, Option.bind_some, ih hls', Option.map_map]
      rfl

theorem readAll_append {ls ls' : List Lexeme} {ts : List Token} (h : readAll ls = some ts) :
    readAll (ls ++ ls') = (readAll ls').map (ts ++ ·) := by
  induction ls generalizing ts with
  | nil =>
    obtain rfl := Option.some.inj h
    simp
  | cons l ls ih =>
    obtain ⟨us, hus, h⟩ := Option.bind_eq_some_iff.1 h
    obtain ⟨vs, hvs, rfl⟩ := Option.map_eq_some_iff.1 h
    rw [List.cons_append, readAll, hus, Option.bind_some, ih hvs, Option.map_map]
    congr 1
    funext ws
    rw [Function.comp_apply, List.append_assoc]

/-- **A fixed text is read by itself**, whatever follows. -/
theorem tokens_fixed {text : List Char} {ts : List Token} (h : fixed text = some ts)
    (rest : List Char) : tokens (text ++ rest) = (tokens rest).map (ts ++ ·) := by
  cases text with
  | nil =>
    obtain rfl := Option.some.inj h
    simp
  | cons c cs =>
    obtain ⟨ls, hls, hread⟩ := Option.bind_eq_some_iff.1 h
    rw [List.cons_append, tokens, lexemes, lexFrom_fixed hls, tokens]
    cases lexemes rest with
    | none => rfl
    | some ls' => exact readAll_append hread

/-! ## Dollar quotes -/

/-- A body without a `$` is in one piece. -/
theorem advance_body {sofar body : List Char} (h : '$' ∉ body) (raw : List Char) :
    advance (.body ['$', '$'] sofar) raw body = some (.body ['$', '$'] (sofar ++ body)) := by
  induction body generalizing sofar raw with
  | nil => rw [advance, List.append_nil]
  | cons c cs ih =>
    obtain ⟨hc, hcs⟩ := List.ne_and_not_mem_of_not_mem_cons h
    have hopen : ¬ ['$', '$'] <:+ sofar ++ [c] := by
      rintro ⟨w, hw⟩
      have hlast := congrArg List.getLast? hw
      simp at hlast
      exact hc hlast
    rw [advance, Mode.extend, if_neg hopen, Option.bind_some, ih hcs, List.append_assoc,
      List.singleton_append]

theorem reads_dollar {body : List Char} (h : '$' ∉ body) :
    Reads ('$' :: '$' :: (body ++ ['$', '$']))
      [.other ⟨.dollarString, '$' :: '$' :: (body ++ ['$', '$'])⟩] := by
  have hfirst : ¬ ['$', '$'] <:+ body ++ ['$'] := by
    rintro ⟨w, hw⟩
    have hcut : w ++ ['$'] = body := by
      have happend : (w ++ ['$']) ++ ['$'] = body ++ ['$'] := by simpa using hw
      exact List.append_cancel_right happend
    exact h (hcut ▸ List.mem_append_right _ List.mem_cons_self)
  have hsecond : ['$', '$'] <:+ body ++ ['$'] ++ ['$'] := ⟨body, by simp⟩
  have hend : advance (.body ['$', '$'] body) (['$', '$'] ++ body) ['$', '$'] = some .bodyEnd := by
    rw [advance, Mode.extend, if_neg hfirst, Option.bind_some, advance, Mode.extend,
      if_pos hsecond, Option.bind_some, advance]
  have hadv : advance (.first '$') ['$'] ('$' :: (body ++ ['$', '$'])) = some .bodyEnd := by
    have hopen : advance (.first '$') ['$'] ['$'] = some (.body ['$', '$'] []) := by decide
    show advance (.first '$') ['$'] (['$'] ++ (body ++ ['$', '$'])) = some .bodyEnd
    rw [advance_append, hopen, Option.bind_some, advance_append, advance_body h, Option.bind_some]
    exact hend
  exact reads_piece (m := .bodyEnd) hadv (k := .dollarString) rfl (by decide) rfl

/-! ## Names that are not doubled -/

/-- A quoted name ends at the first quote that is not doubled. -/
theorem lexFrom_ident {raw cs : List Char} {ls : List Lexeme}
    (h : lexFrom .ident raw cs = some ls) :
    ∃ v rest ls', cs = (double doubleQuote v).toList ++ doubleQuote :: rest ∧
      rest.head? ≠ some doubleQuote ∧
      ls = ⟨.ident, raw ++ (double doubleQuote v).toList ++ [doubleQuote]⟩ :: ls' := by
  induction cs using (undouble.induct doubleQuote) generalizing raw ls with
  | case1 => cases h
  | case2 c =>
    by_cases hc : c = doubleQuote
    · subst hc
      rw [lexFrom, Mode.extend, if_pos rfl] at h
      obtain rfl := Option.some.inj h
      exact ⟨"", [], [], rfl, by simp, by simp [double]⟩
    · rw [lexFrom, Mode.extend, if_neg hc] at h
      cases h
  | case3 c d cs hcd ih =>
    obtain ⟨rfl, rfl⟩ := hcd
    rw [lexFrom, Mode.extend, if_pos rfl] at h
    dsimp only at h
    rw [lexFrom, Mode.extend, if_pos rfl] at h
    obtain ⟨v, rest, ls', rfl, hrest, rfl⟩ := ih h
    refine ⟨String.ofList (doubleQuote :: v.toList), rest, ls', ?_, hrest, ?_⟩
    · rw [double_toList_cons, if_pos rfl, String.ofList_toList]
      rfl
    · rw [double_toList_cons, if_pos rfl, String.ofList_toList]
      simp
  | case4 c d cs hcd ih =>
    by_cases hc : c = doubleQuote
    · subst hc
      have hd : d ≠ doubleQuote := fun hd => hcd ⟨rfl, hd⟩
      rw [lexFrom, Mode.extend, if_pos rfl] at h
      dsimp only at h
      rw [lexFrom, Mode.extend, if_neg hd] at h
      obtain ⟨k, hk, h⟩ := Option.bind_eq_some_iff.1 h
      obtain rfl := Option.some.inj hk
      obtain ⟨ls', -, rfl⟩ := Option.map_eq_some_iff.1 h
      exact ⟨"", d :: cs, ls', rfl, by simpa using hd, by simp [double]⟩
    · rw [lexFrom, Mode.extend, if_neg hc] at h
      obtain ⟨v, rest, ls', hcut, hrest, rfl⟩ := ih h
      refine ⟨String.ofList (c :: v.toList), rest, ls', ?_, hrest, ?_⟩
      · rw [double_toList_cons, if_neg hc, String.ofList_toList, hcut]
        rfl
      · rw [double_toList_cons, if_neg hc, String.ofList_toList]
        simp

/-- A text that equals its own doubling up to the closing quote has no quote. `k` quotes are ahead. -/
theorem not_quote_of_double {q d : Char} (hd : d ≠ q) {s rest rest' : List Char} {k : Nat}
    (h : s ++ q :: d :: rest =
      List.replicate k q ++ ((double q (String.ofList s)).toList ++ q :: rest')) :
    k = 0 ∧ q ∉ s := by
  induction s generalizing k with
  | nil =>
    cases k with
    | zero => exact ⟨rfl, List.not_mem_nil⟩
    | succ k =>
      have htail := (List.cons.inj h).2
      cases k with
      | zero => exact absurd (List.cons.inj htail).1 hd
      | succ k => exact absurd (List.cons.inj htail).1 hd
  | cons x xs ih =>
    rw [double_toList_cons] at h
    cases k with
    | zero =>
      rw [List.replicate_zero, List.nil_append, List.cons_append] at h
      by_cases hx : x = q
      · rw [if_pos hx, List.cons_append, List.cons_append, List.cons.injEq] at h
        have hone : xs ++ q :: d :: rest = List.replicate 1 q ++
            ((double q (String.ofList xs)).toList ++ q :: rest') := by
          simpa using h.2
        exact absurd (ih hone).1 (by decide)
      · rw [if_neg hx, List.cons_append, List.cons_append, List.cons.injEq, List.nil_append] at h
        have hnone : xs ++ q :: d :: rest = List.replicate 0 q ++
            ((double q (String.ofList xs)).toList ++ q :: rest') := by
          simpa using h.2
        refine ⟨rfl, ?_⟩
        rw [List.mem_cons, not_or]
        exact ⟨Ne.symm hx, (ih hnone).2⟩
    | succ k =>
      rw [List.replicate_succ, List.cons_append, List.cons_append, List.cons.injEq] at h
      obtain ⟨rfl, htail⟩ := h
      have hmore : List.replicate k x ++ ((if x = x then [x, x] else [x]) ++
          (double x (String.ofList xs)).toList ++ x :: rest') = List.replicate (k + 2) x ++
            ((double x (String.ofList xs)).toList ++ x :: rest') := by
        rw [if_pos rfl, List.replicate_add, List.append_assoc, List.append_assoc]
        rfl
      rw [hmore] at htail
      exact absurd (ih htail).1 (by omega)

/-- **A name that is put between quotes as it is** is read as another one if it has a quote. -/
theorem not_quote_of_tokens {s : String} {d : Char} (hd : d ≠ doubleQuote) {rest : List Char}
    {ts : List Token}
    (h : tokens (doubleQuote :: (s.toList ++ doubleQuote :: d :: rest)) = some (.name s :: ts)) :
    doubleQuote ∉ s.toList := by
  obtain ⟨ls, hls, hread⟩ := Option.bind_eq_some_iff.1 h
  obtain ⟨v, rest', ls', hcut, hrest, rfl⟩ := lexFrom_ident hls
  obtain ⟨us, hus, hrest'⟩ := Option.bind_eq_some_iff.1 hread
  obtain ⟨rest'', -, heq⟩ := Option.map_eq_some_iff.1 hrest'
  have hname : us = [.name v] := by
    change (if (quoted doubleQuote v).length ≤ 2 then none else
      some [Token.name (Lexeme.quoted doubleQuote ⟨.ident, quoted doubleQuote v⟩)]) = some us at hus
    rw [quoted_quoted] at hus
    split at hus
    · cases hus
    · exact (Option.some.inj hus).symm
  rw [hname, List.singleton_append, List.cons.injEq] at heq
  obtain rfl := Token.name.inj heq.1
  have hdouble : v.toList ++ doubleQuote :: d :: rest = List.replicate 0 doubleQuote ++
      ((double doubleQuote (String.ofList v.toList)).toList ++ doubleQuote :: rest') := by
    rw [List.replicate_zero, List.nil_append, String.ofList_toList]
    exact hcut
  exact (not_quote_of_double hd hdouble).2

end SqlLexer
