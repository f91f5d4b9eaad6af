import Mathlib.Data.List.TakeWhile
import Mathlib.Logic.Function.Basic
import Pglite.Text

/-!
# Connection URIs

How `libpq` reads `postgresql://user@host:port/dbname?keyword=value&…`. The user goes up to the
first `@`, unless a `/` comes before it. The authority goes up to the first `/` or `?`, the path up
to the first `?`, and the parameters are cut at `&` and `=`. Every part is percent-decoded.

- A text without `%` is decoded to itself, any other one to a shorter one (`decode_length`), which
  has fewer `%` or else only escapes that cost it a `2` (`decode_count`).
- The parameters start at the first `?` after the user (`dropWhile_path`).
- A `?` in a keyword makes it one that there is not, so the text is refused (`params_eq_none`).
-/

namespace Libpq

open Text

abbrev Bytes := List UInt8

def ascii (s : String) : Bytes :=
  s.toList.map Char.toUInt8

def hexDigit (b : UInt8) : Option Nat :=
  toDigit 16 (Char.ofNat b.toNat)

/-- Percent-decoding. A zero byte is refused. -/
def decode : Bytes → Option Bytes
  | [] => some []
  | b :: bs =>
    if b = '%'.toUInt8 then
      match bs with
      | hi :: lo :: rest =>
        (hexDigit hi).bind fun hi => (hexDigit lo).bind fun lo =>
          if hi * 16 + lo = 0 then none
          else (decode rest).map (UInt8.ofNat (hi * 16 + lo) :: ·)
      | _ => none
    else (decode bs).map (b :: ·)

/-- The options that are set. -/
abbrev Options := Bytes → Option Bytes

/-- A part of the URI, which sets an option unless it is empty. -/
def store (opts : Options) (keyword : String) (text : Bytes) : Option Options :=
  if text = [] then some opts
  else (decode text).map fun value => Function.update opts (ascii keyword) (some value)

/-- What can be in a user name or a password. -/
def inUserinfo (b : UInt8) : Bool :=
  b ≠ '@'.toUInt8 ∧ b ≠ '/'.toUInt8

/-- The user and the password, when there is an `@`, and what follows. -/
def userinfo (start : Bytes) : Option (Options × Bytes) :=
  let text := start.takeWhile inUserinfo
  match start.dropWhile inUserinfo with
  | b :: rest =>
    if b = '@'.toUInt8 then
      (store (fun _ => none) "user" (text.takeWhile (· ≠ ':'.toUInt8))).bind fun opts =>
        (store opts "password" ((text.dropWhile (· ≠ ':'.toUInt8)).drop 1)).map (·, rest)
    else some (fun _ => none, start)
  | [] => some (fun _ => none, start)

/-- What can be in the hosts and ports. -/
def inNetloc (b : UInt8) : Bool :=
  b ≠ '/'.toUInt8 ∧ b ≠ '?'.toUInt8

/-- The hosts and the ports, and what follows. -/
def netloc (opts : Options) (text : Bytes) : Option (Options × Bytes) :=
  let hosts := (text.takeWhile inNetloc).splitOn ','.toUInt8
  let host := [','.toUInt8].intercalate (hosts.map (·.takeWhile (· ≠ ':'.toUInt8)))
  let port := [','.toUInt8].intercalate (hosts.map fun h => (h.dropWhile (· ≠ ':'.toUInt8)).drop 1)
  (store opts "host" host).bind fun opts =>
    (store opts "port" port).map (·, text.dropWhile inNetloc)

/-- The database, and what follows. -/
def path (opts : Options) (text : Bytes) : Option (Options × Bytes) :=
  match text with
  | b :: rest =>
    if b = '/'.toUInt8 then
      (store opts "dbname" (rest.takeWhile (· ≠ '?'.toUInt8))).map
        (·, rest.dropWhile (· ≠ '?'.toUInt8))
    else some (opts, text)
  | [] => some (opts, text)

/-- A parameter, with one `=` and a keyword that there is. -/
def param (known : Bytes → Bool) (opts : Options) (text : Bytes) : Option Options :=
  match text.splitOn '='.toUInt8 with
  | [keyword, value] =>
    (decode keyword).bind fun keyword => (decode value).bind fun value =>
      if known keyword then some (Function.update opts keyword (some value)) else none
  | _ => none

/-- The parameters between the `&`. Nothing may follow the last `&`. -/
def params (known : Bytes → Bool) : Options → List Bytes → Option Options
  | opts, [] => some opts
  | opts, [text] => if text = [] then some opts else param known opts text
  | opts, text :: texts => (param known opts text).bind fun opts => params known opts texts

/-- The text after the first of some prefixes that it has. -/
def stripScheme (schemes : List String) (text : Bytes) : Option Bytes :=
  (schemes.find? fun scheme => (ascii scheme).isPrefixOf text).map fun scheme =>
    text.drop (ascii scheme).length

/-- `conninfo_uri_parse_options`. A zero byte cannot be passed on. -/
def parseUri (known : Bytes → Bool) (uri : Bytes) : Option Options :=
  if (0 : UInt8) ∈ uri then none
  else
    (stripScheme ["postgresql://", "postgres://"] uri).bind fun start =>
      (userinfo start).bind fun (opts, text) => (netloc opts text).bind fun (opts, text) =>
        (path opts text).bind fun (opts, text) => params known opts (text.tail.splitOn '&'.toUInt8)

def digits (n : Nat) : Bytes :=
  (Nat.toDigits 10 n).map Char.toUInt8

/-- The port, which is 5432 unless one is set. -/
def portNumber (opts : Options) : Option Nat :=
  match opts (ascii "port") with
  | none => some 5432
  | some port =>
    if port = [] then some 5432 else fromStrRadix (2 ^ 16) 10 (port.map fun b => Char.ofNat b.toNat)

/-- The socket that is connected to, when there is one host and it is a directory. -/
def socketPath (opts : Options) : Option Bytes :=
  (opts (ascii "host")).bind fun host =>
    if host.head? = some '/'.toUInt8 ∧ ','.toUInt8 ∉ host then
      (portNumber opts).map fun port => host ++ ascii "/.s.PGSQL." ++ digits port
    else none

/-- None of the characters is in the text. -/
def Without (chars : String) (text : Bytes) : Prop :=
  ∀ b ∈ ascii chars, b ∉ text

/-! ## Decoding -/

theorem decode_cons {b : UInt8} (h : b ≠ '%'.toUInt8) (bs : Bytes) :
    decode (b :: bs) = (decode bs).map (b :: ·) := by
  rcases bs with _ | ⟨x, _ | ⟨y, rest⟩⟩
  · rw [decode.eq_3 b [] (by simp), if_neg h]
  · rw [decode.eq_3 b [x] (by simp), if_neg h]
  · rw [decode.eq_2, if_neg h]

/-- What an escape stands for. -/
theorem decode_escape {hi lo : UInt8} {rest t : Bytes}
    (h : decode ('%'.toUInt8 :: hi :: lo :: rest) = some t) :
    ∃ m n t', hexDigit hi = some m ∧ hexDigit lo = some n ∧ decode rest = some t' ∧
      t = UInt8.ofNat (m * 16 + n) :: t' := by
  rw [decode.eq_2, if_pos rfl] at h
  obtain ⟨m, hm, h⟩ := Option.bind_eq_some_iff.1 h
  obtain ⟨n, hn, h⟩ := Option.bind_eq_some_iff.1 h
  split at h
  · cases h
  · obtain ⟨t', ht', rfl⟩ := Option.map_eq_some_iff.1 h
    exact ⟨m, n, t', hm, hn, ht', rfl⟩

theorem decode_eq_self {s : Bytes} (h : '%'.toUInt8 ∉ s) : decode s = some s := by
  induction s with
  | nil => rfl
  | cons b bs ih =>
    obtain ⟨hb, hbs⟩ := List.ne_and_not_mem_of_not_mem_cons h
    rw [decode_cons (Ne.symm hb), ih hbs]
    rfl

/-- An escape makes a text shorter. -/
theorem decode_length {s t : Bytes} (h : decode s = some t) :
    t.length ≤ s.length ∧ (s.length ≤ t.length → '%'.toUInt8 ∉ s) := by
  induction s using decode.induct generalizing t with
  | case1 =>
    cases h
    exact ⟨Nat.le_refl _, fun _ => List.not_mem_nil⟩
  | case2 hi lo rest ih =>
    obtain ⟨m, n, t', -, -, ht', rfl⟩ := decode_escape h
    have hle := (ih ht').1
    simp only [List.length_cons]
    exact ⟨by omega, fun hlt => absurd hlt (by omega)⟩
  | case3 bs hshort =>
    rw [decode.eq_3 _ bs hshort, if_pos rfl] at h
    cases h
  | case4 b bs hb ih =>
    rw [decode_cons hb] at h
    obtain ⟨t', ht', rfl⟩ := Option.map_eq_some_iff.1 h
    obtain ⟨hle, hno⟩ := ih ht'
    simp only [List.length_cons]
    refine ⟨by omega, fun hlt => ?_⟩
    rw [List.mem_cons, not_or]
    exact ⟨Ne.symm hb, hno (by omega)⟩

theorem decode_eq_self_iff {s : Bytes} : decode s = some s ↔ '%'.toUInt8 ∉ s :=
  ⟨fun h => (decode_length h).2 (Nat.le_refl _), decode_eq_self⟩

theorem hexDigit_lt {b : UInt8} {n : Nat} (h : hexDigit b = some n) : n < 16 := by
  rw [hexDigit, toDigit, Option.filter_eq_some_iff] at h
  exact of_decide_eq_true h.2

/-- Every byte but `2` and `5` stands for another digit or for none. -/
theorem eq_of_hexDigit (b : UInt8) :
    (hexDigit b = some 2 → b = '2'.toUInt8) ∧ (hexDigit b = some 5 → b = '5'.toUInt8) := by
  have hall : ∀ n : Fin 256,
      (hexDigit (UInt8.ofFin n) = some 2 → UInt8.ofFin n = '2'.toUInt8) ∧
        (hexDigit (UInt8.ofFin n) = some 5 → UInt8.ofFin n = '5'.toUInt8) := by
    decide +kernel
  exact hall b.toFin

/-- Only `%25` stands for a `%`. -/
theorem percent_escape {hi lo : UInt8} {m n : Nat} (hm : hexDigit hi = some m)
    (hn : hexDigit lo = some n) (h : UInt8.ofNat (m * 16 + n) = '%'.toUInt8) :
    hi = '2'.toUInt8 ∧ lo = '5'.toUInt8 := by
  have hm16 := hexDigit_lt hm
  have hn16 := hexDigit_lt hn
  have hcode : m * 16 + n = 37 := by
    have hnat := congrArg UInt8.toNat h
    rw [UInt8.toNat_ofNat', Nat.mod_eq_of_lt (by omega)] at hnat
    exact hnat
  obtain ⟨rfl, rfl⟩ : m = 2 ∧ n = 5 := by omega
  exact ⟨(eq_of_hexDigit hi).1 hm, (eq_of_hexDigit lo).2 hn⟩

/-- Where no `%` is lost, every escape is `%25`: each of them costs a `2`, and every other
character is one of the text. -/
theorem decode_count {s t : Bytes} (h : decode s = some t) :
    t.count '%'.toUInt8 ≤ s.count '%'.toUInt8 ∧
      (s.count '%'.toUInt8 ≤ t.count '%'.toUInt8 →
        t.count '2'.toUInt8 + s.count '%'.toUInt8 ≤ s.count '2'.toUInt8 ∧
          ∀ b ∈ t, b ≠ '%'.toUInt8 → b ∈ s) := by
  induction s using decode.induct generalizing t with
  | case1 =>
    cases h
    exact ⟨Nat.le_refl _, fun _ => ⟨Nat.le_refl _, fun b hb => absurd hb List.not_mem_nil⟩⟩
  | case2 hi lo rest ih =>
    obtain ⟨m, n, t', hm, hn, ht', rfl⟩ := decode_escape h
    obtain ⟨hle, hno⟩ := ih ht'
    have hnot : ∀ b k, hexDigit b = some k → b ≠ '%'.toUInt8 := by
      rintro b k hb rfl
      cases hb
    have hhi := hnot hi m hm
    have hlo := hnot lo n hn
    rw [List.count_cons_self, List.count_cons_of_ne hhi, List.count_cons_of_ne hlo]
    by_cases hx : UInt8.ofNat (m * 16 + n) = '%'.toUInt8
    · obtain ⟨rfl, rfl⟩ := percent_escape hm hn hx
      rw [hx, List.count_cons_self]
      refine ⟨by omega, fun hge => ?_⟩
      obtain ⟨htwo, hmem⟩ := hno (by omega)
      have hfive : '5'.toUInt8 ≠ '2'.toUInt8 := by decide
      have hescape : '%'.toUInt8 ≠ '2'.toUInt8 := by decide
      rw [List.count_cons_of_ne hescape, List.count_cons_of_ne hescape, List.count_cons_self,
        List.count_cons_of_ne hfive]
      refine ⟨by omega, fun c hc hne => ?_⟩
      rcases List.mem_cons.1 hc with rfl | hc
      · exact List.mem_cons_self
      · simp [hmem c hc hne]
    · rw [List.count_cons_of_ne hx]
      exact ⟨by omega, fun hge => absurd hge (by omega)⟩
  | case3 bs hshort =>
    rw [decode.eq_3 _ bs hshort, if_pos rfl] at h
    cases h
  | case4 b bs hb ih =>
    rw [decode_cons hb] at h
    obtain ⟨t', ht', rfl⟩ := Option.map_eq_some_iff.1 h
    obtain ⟨hle, hno⟩ := ih ht'
    rw [List.count_cons_of_ne hb, List.count_cons_of_ne hb]
    refine ⟨hle, fun hge => ?_⟩
    obtain ⟨htwo, hmem⟩ := hno hge
    refine ⟨?_, fun c hc hne => ?_⟩
    · rw [List.count_cons, List.count_cons]
      omega
    · rcases List.mem_cons.1 hc with rfl | hc
      · exact List.mem_cons_self
      · exact List.mem_cons_of_mem _ (hmem c hc hne)

/-- A byte that is part of no escape is still there. -/
theorem mem_decode {s t : Bytes} {b : UInt8} (h : decode s = some t) (hb : b ∈ s)
    (hpercent : b ≠ '%'.toUInt8) (hhex : hexDigit b = none) : b ∈ t := by
  induction s using decode.induct generalizing t with
  | case1 => cases hb
  | case2 hi lo rest ih =>
    obtain ⟨m, n, t', hm, hn, ht', rfl⟩ := decode_escape h
    rcases List.mem_cons.1 hb with rfl | hb
    · exact absurd rfl hpercent
    rcases List.mem_cons.1 hb with rfl | hb
    · rw [hhex] at hm
      cases hm
    rcases List.mem_cons.1 hb with rfl | hb
    · rw [hhex] at hn
      cases hn
    · exact List.mem_cons_of_mem _ (ih ht' hb)
  | case3 bs hshort =>
    rw [decode.eq_3 _ bs hshort, if_pos rfl] at h
    cases h
  | case4 c bs hc ih =>
    rw [decode_cons hc] at h
    obtain ⟨t', ht', rfl⟩ := Option.map_eq_some_iff.1 h
    rcases List.mem_cons.1 hb with rfl | hb
    · exact List.mem_cons_self
    · exact List.mem_cons_of_mem _ (ih ht' hb)

/-! ## Pieces -/

section Pieces

variable {sep : UInt8} {piece s t : Bytes}

theorem sublist_of_mem_splitOn (h : piece ∈ s.splitOn sep) : piece.Sublist s := by
  induction s generalizing piece with
  | nil =>
    obtain rfl : piece = [] := by simpa using h
    exact List.Sublist.refl _
  | cons x xs ih =>
    rw [List.splitOn_cons_eq_if_modifyHead] at h
    cases hs : xs.splitOn sep with
    | nil => exact absurd hs (List.splitOn_ne_nil sep xs)
    | cons p ps =>
      rw [hs] at h ih
      split at h
      · rcases List.mem_cons.1 h with rfl | h
        · exact List.nil_sublist _
        · exact (ih h).cons x
      · rw [List.modifyHead_cons] at h
        rcases List.mem_cons.1 h with rfl | h
        · exact (ih List.mem_cons_self).cons_cons x
        · exact (ih (List.mem_cons_of_mem _ h)).cons x

/-- A text without the separator is in one piece. -/
theorem exists_piece (ht : sep ∉ t) (a b : Bytes) :
    ∃ piece ∈ (a ++ (t ++ b)).splitOn sep, t <:+: piece := by
  induction a with
  | nil =>
    have hhead : ∃ p ps, (t ++ b).splitOn sep = (t ++ p) :: ps := by
      rw [splitOn_append_of_notMem ht]
      cases hs : b.splitOn sep with
      | nil => exact absurd hs (List.splitOn_ne_nil sep b)
      | cons p ps => exact ⟨p, ps, rfl⟩
    obtain ⟨p, ps, hsplit⟩ := hhead
    rw [List.nil_append, hsplit]
    exact ⟨t ++ p, List.mem_cons_self, [], p, by simp⟩
  | cons c cs ih =>
    obtain ⟨piece, hpiece, hinfix⟩ := ih
    rw [List.cons_append, List.splitOn_cons_eq_if_modifyHead]
    split
    · exact ⟨piece, List.mem_cons_of_mem _ hpiece, hinfix⟩
    · cases hs : (cs ++ (t ++ b)).splitOn sep with
      | nil => exact absurd hs (List.splitOn_ne_nil sep _)
      | cons p ps =>
        rw [hs] at hpiece
        rw [List.modifyHead_cons]
        rcases List.mem_cons.1 hpiece with rfl | hpiece
        · exact ⟨c :: piece, List.mem_cons_self, hinfix.trans (List.suffix_cons c piece).isInfix⟩
        · exact ⟨piece, List.mem_cons_of_mem _ hpiece, hinfix⟩

end Pieces

/-! ## Parameters -/

variable {known : Bytes → Bool} {opts opts' : Options} {text keyword value : Bytes}

theorem param_eq_some (h : param known opts text = some opts') :
    ∃ key val keyword value, text.splitOn '='.toUInt8 = [key, val] ∧
      decode key = some keyword ∧ decode val = some value ∧ known keyword = true ∧
      opts' = Function.update opts keyword (some value) := by
  unfold param at h
  split at h
  · next key val hsplit =>
    obtain ⟨keyword, hkey, h⟩ := Option.bind_eq_some_iff.1 h
    obtain ⟨value, hval, h⟩ := Option.bind_eq_some_iff.1 h
    split at h
    · next hknown => exact ⟨key, val, keyword, value, hsplit, hkey, hval, hknown,
        (Option.some.inj h).symm⟩
    · cases h
  · cases h

/-- A parameter sets an option to a part of its text, decoded. -/
theorem param_value (h : param known opts text = some opts') (hvalue : opts' keyword = some value) :
    opts keyword = some value ∨ ∃ val, val.Sublist text ∧ decode val = some value := by
  obtain ⟨key, val, k, v, hsplit, -, hval, -, rfl⟩ := param_eq_some h
  by_cases hkey : keyword = k
  · subst hkey
    rw [Function.update_self] at hvalue
    obtain rfl := Option.some.inj hvalue
    have hmem : val ∈ text.splitOn '='.toUInt8 := by simp [hsplit]
    exact .inr ⟨val, sublist_of_mem_splitOn hmem, hval⟩
  · rw [Function.update_of_ne hkey] at hvalue
    exact .inl hvalue

theorem params_value {texts : List Bytes} (h : params known opts texts = some opts')
    (hvalue : opts' keyword = some value) :
    opts keyword = some value ∨
      ∃ text ∈ texts, ∃ val, val.Sublist text ∧ decode val = some value := by
  induction texts generalizing opts with
  | nil =>
    cases h
    exact .inl hvalue
  | cons text texts ih =>
    cases texts with
    | nil =>
      rw [params] at h
      split at h
      · cases h
        exact .inl hvalue
      · rcases param_value h hvalue with hold | hnew
        · exact .inl hold
        · exact .inr ⟨text, List.mem_cons_self, hnew⟩
    | cons text' texts =>
      rw [params] at h
      · obtain ⟨opts₁, hfirst, hrest⟩ := Option.bind_eq_some_iff.1 h
        rcases ih hrest with hold | ⟨t, ht, hnew⟩
        · rcases param_value hfirst hold with hold | hnew
          · exact .inl hold
          · exact .inr ⟨text, List.mem_cons_self, hnew⟩
        · exact .inr ⟨t, List.mem_cons_of_mem _ ht, hnew⟩
      · simp

/-- A parameter that no options accept. -/
theorem params_none {texts : List Bytes} (htext : text ∈ texts) (hne : text ≠ [])
    (h : ∀ opts, param known opts text = none) : params known opts texts = none := by
  induction texts generalizing opts with
  | nil => cases htext
  | cons t ts ih =>
    cases ts with
    | nil =>
      obtain rfl := List.mem_singleton.1 htext
      rw [params, if_neg hne, h]
    | cons t' ts =>
      rw [params]
      · rcases List.mem_cons.1 htext with rfl | htext
        · rw [h]
          rfl
        · cases param known opts t with
          | none => rfl
          | some opts₁ => exact ih htext
      · simp

theorem eq_of_splitOn_pair {key val : Bytes} (h : text.splitOn '='.toUInt8 = [key, val]) :
    text = key ++ '='.toUInt8 :: val ∧ '='.toUInt8 ∉ key ∧ '='.toUInt8 ∉ val := by
  have hjoin : ['='.toUInt8].intercalate (text.splitOn '='.toUInt8) = text :=
    List.intercalate_splitOn _
  rw [h] at hjoin
  refine ⟨by simpa using hjoin.symm, ?_, ?_⟩ <;> exact not_mem_of_mem_splitOn (by rw [h]; simp)

/-- A keyword and a value without `=`. -/
theorem param_append {key : Bytes} (hkey : '='.toUInt8 ∉ key) (val : Bytes)
    (h : param known opts (key ++ '='.toUInt8 :: val) = some opts') :
    '='.toUInt8 ∉ val ∧ ∃ keyword value, decode key = some keyword ∧ decode val = some value ∧
      known keyword = true ∧ opts' = Function.update opts keyword (some value) := by
  obtain ⟨key', val', keyword, value, hsplit, hkeyword, hvalue, hknown, hopts⟩ := param_eq_some h
  obtain ⟨hcut, hkey', hval'⟩ := eq_of_splitOn_pair hsplit
  obtain ⟨rfl, -, rfl⟩ := (List.append_cons_inj_of_notMem hkey' hval').1 hcut.symm
  exact ⟨hval', keyword, value, hkeyword, hvalue, hknown, hopts⟩

theorem param_eq {key val : Bytes} (hkey : '='.toUInt8 ∉ key) (hval : '='.toUInt8 ∉ val) :
    param known opts (key ++ '='.toUInt8 :: val) =
      (decode key).bind fun keyword => (decode val).bind fun value =>
        if known keyword then some (Function.update opts keyword (some value)) else none := by
  rw [param, List.splitOn_append_cons_self, List.splitOn_eq_singleton hkey,
    List.splitOn_eq_singleton hval]
  rfl

/-- No keyword has a `?`, so a text in which `?host=` is a part of the parameters is refused. -/
theorem params_eq_none (hknown : ∀ k, known k = true → '?'.toUInt8 ∉ k) (a dir : Bytes) :
    params known opts ((a ++ '?'.toUInt8 :: (ascii "host=" ++ dir)).splitOn '&'.toUInt8) = none := by
  have hmiddle : a ++ '?'.toUInt8 :: (ascii "host=" ++ dir) = a ++ (ascii "?host=" ++ dir) := rfl
  have hno : '&'.toUInt8 ∉ ascii "?host=" := by decide
  rw [hmiddle]
  obtain ⟨piece, hpiece, x, y, rfl⟩ := exists_piece hno a dir
  refine params_none hpiece ?_ fun opts => ?_
  · intro hnil
    rw [List.append_eq_nil_iff, List.append_eq_nil_iff] at hnil
    exact absurd hnil.1.2 (by decide)
  · cases hparam : param known opts (x ++ ascii "?host=" ++ y) with
    | none => rfl
    | some opts' =>
      obtain ⟨key, val, keyword, value, hsplit, hkey, -, hkeyword, -⟩ := param_eq_some hparam
      obtain ⟨hcut, hno_key, hno_val⟩ := eq_of_splitOn_pair hsplit
      have hpiece : key ++ '='.toUInt8 :: val = (x ++ ascii "?host") ++ '='.toUInt8 :: y := by
        rw [← hcut, show ascii "?host=" = ascii "?host" ++ ['='.toUInt8] from rfl]
        simp only [List.append_assoc, List.cons_append, List.nil_append]
      obtain ⟨rfl, -, -⟩ := (List.append_cons_inj_of_notMem hno_key hno_val).1 hpiece
      have hquestion : '?'.toUInt8 ∈ x ++ ascii "?host" :=
        List.mem_append_right _ (by decide)
      exact absurd (mem_decode hkey hquestion (by decide) (by decide)) (hknown _ hkeyword)

/-- `keyword=text` as the only parameter, where the text has no other `%`, `2` and `&` than the
value that is set: nothing in it ends it or is decoded. -/
theorem params_only {key : Bytes} (hkey : Without "&=%" key) {val : Bytes}
    (hpercent : val.count '%'.toUInt8 ≤ value.count '%'.toUInt8)
    (htwo : val.count '2'.toUInt8 ≤ value.count '2'.toUInt8)
    (hand : '&'.toUInt8 ∈ val → '&'.toUInt8 ∈ value)
    (h : params known opts ((key ++ '='.toUInt8 :: val).splitOn '&'.toUInt8) = some opts')
    (hvalue : opts' key = some value) :
    Without "&=%" val ∧ val = value ∧ opts' = Function.update opts key (some value) := by
  have hdecode : decode key = some key := decode_eq_self (hkey '%'.toUInt8 (by decide))
  have hno : '='.toUInt8 ∉ key := hkey '='.toUInt8 (by decide)
  have hcut : ∀ v, '&'.toUInt8 ∉ v → '&'.toUInt8 ∉ key ++ '='.toUInt8 :: v := by
    intro v hv hmem
    rcases List.mem_append.1 hmem with hmem | hmem
    · exact hkey '&'.toUInt8 (by decide) hmem
    · rcases List.mem_cons.1 hmem with hmem | hmem
      · exact absurd hmem (by decide)
      · exact hv hmem
  -- No part of the text without an `&` is decoded to a value with one.
  have hpart : ∀ part : Bytes, part.Sublist val → '&'.toUInt8 ∉ part →
      decode part = some value → '&'.toUInt8 ∉ val := by
    intro part hsub hpart hdec hmem
    have hle := (hsub.count_le '%'.toUInt8).trans hpercent
    exact hpart (((decode_count hdec).2 hle).2 _ (hand hmem) (by decide))
  by_cases hamp : '&'.toUInt8 ∈ val
  · obtain ⟨v, w, rfl, hv⟩ := List.eq_append_cons_of_mem hamp
    rw [← List.cons_append, ← List.append_assoc,
      List.splitOn_append_cons_self_of_not_mem (hcut v hv)] at h
    rw [params] at h
    · obtain ⟨opts₁, hparam, hrest⟩ := Option.bind_eq_some_iff.1 h
      obtain ⟨-, keyword, value', hk, hval, -, rfl⟩ := param_append hno v hparam
      obtain rfl := Option.some.inj (hdecode.symm.trans hk)
      rcases params_value hrest hvalue with hold | ⟨text, htext, part, hsub, hdec⟩
      · rw [Function.update_self] at hold
        obtain rfl := Option.some.inj hold
        exact absurd hamp (hpart v (List.sublist_append_left _ _) hv hval)
      · have hlater : part.Sublist w := hsub.trans (sublist_of_mem_splitOn htext)
        have hpart_no : '&'.toUInt8 ∉ part := fun hmem =>
          not_mem_of_mem_splitOn htext (hsub.subset hmem)
        exact absurd hamp (hpart part ((hlater.cons _).trans (List.sublist_append_right _ _))
          hpart_no hdec)
    · exact fun hnil => List.splitOn_ne_nil _ _ hnil
  · rw [List.splitOn_eq_singleton (hcut val hamp), params, if_neg (by simp)] at h
    obtain ⟨heq, keyword, value', hk, hval, -, rfl⟩ := param_append hno val h
    obtain rfl := Option.some.inj (hdecode.symm.trans hk)
    rw [Function.update_self] at hvalue
    obtain rfl := Option.some.inj hvalue
    have hzero : val.count '%'.toUInt8 = 0 := by
      have hcount := ((decode_count hval).2 hpercent).1
      omega
    have hno_percent : '%'.toUInt8 ∉ val := List.count_eq_zero.1 hzero
    obtain rfl := Option.some.inj ((decode_eq_self hno_percent).symm.trans hval)
    refine ⟨?_, rfl, rfl⟩
    intro b hb
    have hcases : b = '&'.toUInt8 ∨ b = '='.toUInt8 ∨ b = '%'.toUInt8 := by
      simpa [ascii] using hb
    rcases hcases with rfl | rfl | rfl
    · exact hamp
    · exact heq
    · exact hno_percent

theorem params_only_eq {key val : Bytes} (hkey : Without "&=%" key) (hval : Without "&=%" val)
    (hknown : known key = true) :
    params known opts ((key ++ '='.toUInt8 :: val).splitOn '&'.toUInt8) =
      some (Function.update opts key (some val)) := by
  have hamp : '&'.toUInt8 ∉ key ++ '='.toUInt8 :: val := by
    rw [List.mem_append, List.mem_cons]
    rintro (hmem | hmem | hmem)
    · exact hkey '&'.toUInt8 (by decide) hmem
    · exact absurd hmem (by decide)
    · exact hval '&'.toUInt8 (by decide) hmem
  rw [List.splitOn_eq_singleton hamp, params, if_neg (by simp),
    param_eq (hkey _ (by decide)) (hval _ (by decide)), decode_eq_self (hkey _ (by decide)),
    decode_eq_self (hval _ (by decide))]
  simp [hknown]

/-! ## The parts before the parameters -/

theorem store_of_ne {word : String} {opts opts' : Options} (h : store opts word text = some opts')
    {k : Bytes} (hk : k ≠ ascii word) : opts' k = opts k := by
  unfold store at h
  split at h
  · cases h
    rfl
  · obtain ⟨value, -, rfl⟩ := Option.map_eq_some_iff.1 h
    exact Function.update_of_ne hk _ _

/-- An option that was not set before. -/
theorem store_self {word : String} (h : store opts word text = some opts')
    (hnone : opts (ascii word) = none) (hvalue : opts' (ascii word) = some value) :
    text ≠ [] ∧ decode text = some value := by
  unfold store at h
  split at h
  · cases h
    rw [hnone] at hvalue
    cases hvalue
  · next hne =>
    obtain ⟨v, hv, rfl⟩ := Option.map_eq_some_iff.1 h
    rw [Function.update_self] at hvalue
    exact ⟨hne, hvalue ▸ hv⟩

theorem store_eq {word : String} (hne : text ≠ []) (hno : '%'.toUInt8 ∉ text) :
    store opts word text = some (Function.update opts (ascii word) (some text)) := by
  rw [store, if_neg hne, decode_eq_self hno]
  rfl

section Cut

variable {p : UInt8 → Bool} {s : Bytes}

/-- A text is cut at its first byte that does not satisfy `p`. -/
theorem all_or_cut (p : UInt8 → Bool) (s : Bytes) :
    (∀ b ∈ s, p b = true) ∨
      ∃ first b rest, s = first ++ b :: rest ∧ (∀ x ∈ first, p x = true) ∧ p b = false := by
  induction s with
  | nil => exact .inl fun b hb => absurd hb List.not_mem_nil
  | cons x xs ih =>
    cases hx : p x with
    | false => exact .inr ⟨[], x, xs, rfl, fun y hy => absurd hy List.not_mem_nil, hx⟩
    | true =>
      rcases ih with hall | ⟨first, b, rest, rfl, hfirst, hb⟩
      · exact .inl (List.forall_mem_cons.2 ⟨hx, hall⟩)
      · exact .inr ⟨x :: first, b, rest, rfl, List.forall_mem_cons.2 ⟨hx, hfirst⟩, hb⟩

theorem takeWhile_cut {first : Bytes} (hfirst : ∀ x ∈ first, p x = true) {b : UInt8}
    (hb : p b = false) (rest : Bytes) : (first ++ b :: rest).takeWhile p = first := by
  rw [List.takeWhile_append_of_pos hfirst, List.takeWhile_cons_of_neg (by simp [hb]),
    List.append_nil]

theorem dropWhile_cut {first : Bytes} (hfirst : ∀ x ∈ first, p x = true) {b : UInt8}
    (hb : p b = false) (rest : Bytes) : (first ++ b :: rest).dropWhile p = b :: rest := by
  rw [List.dropWhile_append_of_pos hfirst, List.dropWhile_cons_of_neg (by simp [hb])]

/-- Up to a byte that is not there, there is all of the text. -/
theorem takeWhile_ne {b : UInt8} (h : b ∉ s) : s.takeWhile (· ≠ b) = s :=
  List.takeWhile_eq_self_iff.2 fun x hx => by simpa using ne_of_mem_of_not_mem hx h

theorem dropWhile_ne {b : UInt8} (h : b ∉ s) : s.dropWhile (· ≠ b) = [] :=
  List.dropWhile_eq_nil_iff.2 fun x hx => by simpa using ne_of_mem_of_not_mem hx h

theorem takeWhile_length_le (p : UInt8 → Bool) (s : Bytes) :
    (s.takeWhile p).length ≤ s.length :=
  (List.takeWhile_prefix p).length_le

end Cut

theorem userinfo_cut {first : Bytes} (hfirst : ∀ x ∈ first, inUserinfo x = true) (rest : Bytes) :
    userinfo (first ++ '@'.toUInt8 :: rest) =
      (store (fun _ => none) "user" (first.takeWhile (· ≠ ':'.toUInt8))).bind fun opts =>
        (store opts "password" ((first.dropWhile (· ≠ ':'.toUInt8)).drop 1)).map (·, rest) := by
  rw [userinfo, takeWhile_cut hfirst (by decide), dropWhile_cut hfirst (by decide)]
  rfl

/-- The user's name is the text before the `@`, when nothing in it ends it or is decoded. -/
theorem userinfo_eq {user : Bytes} (hne : user ≠ []) (huser : Without "@/:%" user) (tail : Bytes) :
    userinfo (user ++ '@'.toUInt8 :: tail) =
      some (Function.update (fun _ => none) (ascii "user") (some user), tail) := by
  have hin : ∀ b ∈ user, inUserinfo b = true := by
    intro b hb
    have h1 : b ≠ '@'.toUInt8 := ne_of_mem_of_not_mem hb (huser _ (by decide))
    have h2 : b ≠ '/'.toUInt8 := ne_of_mem_of_not_mem hb (huser _ (by decide))
    simp [inUserinfo, h1, h2]
  have hcolon : ':'.toUInt8 ∉ user := huser _ (by decide)
  rw [userinfo_cut hin, takeWhile_ne hcolon, dropWhile_ne hcolon,
    store_eq hne (huser _ (by decide))]
  rfl

/-- Where the user is the text before an `@`, nothing in it ends it or is decoded. -/
theorem userinfo_append (user tail : Bytes) {rest : Bytes}
    (h : userinfo (user ++ '@'.toUInt8 :: tail) = some (opts, rest)) :
    ∃ w, rest = w ++ tail ∧
      (opts (ascii "user") = some user → user ≠ [] ∧ Without "@/:%" user) := by
  rcases all_or_cut inUserinfo user with hin | ⟨first, b, q, rfl, hfirst, hb⟩
  · rw [userinfo_cut hin] at h
    obtain ⟨opts₁, huser, h⟩ := Option.bind_eq_some_iff.1 h
    obtain ⟨opts₂, hpassword, heq⟩ := Option.map_eq_some_iff.1 h
    obtain ⟨rfl, rfl⟩ := Prod.mk.inj heq
    refine ⟨[], rfl, fun hvalue => ?_⟩
    rw [store_of_ne hpassword (by decide)] at hvalue
    obtain ⟨hne, hdecode⟩ := store_self huser rfl hvalue
    have hfull : user.takeWhile (· ≠ ':'.toUInt8) = user :=
      (List.takeWhile_prefix _).eq_of_length_le (decode_length hdecode).1
    rw [hfull] at hne hdecode
    refine ⟨hne, fun b hb hmem => ?_⟩
    have hcases : b = '@'.toUInt8 ∨ b = '/'.toUInt8 ∨ b = ':'.toUInt8 ∨ b = '%'.toUInt8 := by
      simpa [ascii] using hb
    rcases hcases with rfl | rfl | rfl | rfl
    · exact absurd (hin _ hmem) (by decide)
    · exact absurd (hin _ hmem) (by decide)
    · exact absurd (List.takeWhile_eq_self_iff.1 hfull _ hmem) (by decide)
    · exact decode_eq_self_iff.1 hdecode hmem
  · rw [List.append_assoc, List.cons_append] at h
    have hcases : b = '@'.toUInt8 ∨ b = '/'.toUInt8 := by
      rw [inUserinfo, decide_eq_false_iff_not, not_and_or, not_not, not_not] at hb
      exact hb
    rcases hcases with rfl | rfl
    · rw [userinfo_cut hfirst] at h
      obtain ⟨opts₁, huser, h⟩ := Option.bind_eq_some_iff.1 h
      obtain ⟨opts₂, hpassword, heq⟩ := Option.map_eq_some_iff.1 h
      obtain ⟨rfl, rfl⟩ := Prod.mk.inj heq
      refine ⟨q ++ ['@'.toUInt8], by simp, fun hvalue => ?_⟩
      rw [store_of_ne hpassword (by decide)] at hvalue
      have hle := (decode_length (store_self huser rfl hvalue).2).1.trans (takeWhile_length_le _ _)
      rw [List.length_append, List.length_cons] at hle
      omega
    · rw [userinfo, dropWhile_cut hfirst (by decide)] at h
      simp only [show '/'.toUInt8 ≠ '@'.toUInt8 by decide, if_false] at h
      obtain ⟨rfl, rfl⟩ := Prod.mk.inj (Option.some.inj h)
      refine ⟨first ++ '/'.toUInt8 :: (q ++ ['@'.toUInt8]), by simp, fun hvalue => ?_⟩
      cases hvalue

/-- The parameters start at the first `?`, and only the user's part sets the user. -/
theorem dropWhile_path {opts₁ opts₂ : Options} {text₁ text₂ : Bytes}
    (hnet : netloc opts text = some (opts₁, text₁)) (hpath : path opts₁ text₁ = some (opts₂, text₂)) :
    text₂ = text.dropWhile (· ≠ '?'.toUInt8) ∧ opts₂ (ascii "user") = opts (ascii "user") := by
  obtain ⟨opts', hhost, hnet⟩ := Option.bind_eq_some_iff.1 hnet
  obtain ⟨opts'', hport, heq⟩ := Option.map_eq_some_iff.1 hnet
  obtain ⟨rfl, rfl⟩ := Prod.mk.inj heq
  have huser : opts'' (ascii "user") = opts (ascii "user") := by
    rw [store_of_ne hport (by decide), store_of_ne hhost (by decide)]
  have hin : ∀ b, inNetloc b = true → decide (b ≠ '?'.toUInt8) = true := by
    intro b hb
    rw [inNetloc, decide_eq_true_iff] at hb
    exact decide_eq_true hb.2
  rcases all_or_cut inNetloc text with hall | ⟨first, b, rest, rfl, hfirst, hb⟩
  · rw [List.dropWhile_eq_nil_iff.2 hall] at hpath
    obtain ⟨rfl, rfl⟩ := Prod.mk.inj (Option.some.inj hpath)
    exact ⟨(List.dropWhile_eq_nil_iff.2 fun x hx => hin x (hall x hx)).symm, huser⟩
  · rw [dropWhile_cut hfirst hb] at hpath
    rw [List.dropWhile_append_of_pos fun x hx => hin x (hfirst x hx)]
    rw [path] at hpath
    split at hpath
    · next hslash =>
      obtain ⟨opts₃, hdb, heq⟩ := Option.map_eq_some_iff.1 hpath
      obtain ⟨rfl, rfl⟩ := Prod.mk.inj heq
      refine ⟨?_, by rw [store_of_ne hdb (by decide), huser]⟩
      rw [hslash, List.dropWhile_cons_of_pos (by decide)]
    · next hslash =>
      obtain ⟨rfl, rfl⟩ := Prod.mk.inj (Option.some.inj hpath)
      rw [inNetloc, decide_eq_false_iff_not, not_and_or, not_not, not_not] at hb
      obtain rfl := hb.resolve_left hslash
      rw [List.dropWhile_cons_of_neg (by decide)]
      exact ⟨rfl, huser⟩

/-- The database is the text up to the first `?`. -/
theorem path_eq {db : Bytes} (hdb : '?'.toUInt8 ∉ db) (rest : Bytes) :
    path opts ('/'.toUInt8 :: (db ++ '?'.toUInt8 :: rest)) =
      (store opts "dbname" db).map (·, '?'.toUInt8 :: rest) := by
  have hin : ∀ b ∈ db, decide (b ≠ '?'.toUInt8) = true := fun b hb =>
    decide_eq_true (ne_of_mem_of_not_mem hb hdb)
  rw [path, if_pos rfl, takeWhile_cut hin (by decide), dropWhile_cut hin (by decide)]

/-- A host without a port, a `,` or an escape. -/
theorem netloc_eq {host : Bytes} (hne : host ≠ []) (hhost : Without "/?,:%" host) (rest : Bytes) :
    netloc opts (host ++ '/'.toUInt8 :: rest) =
      some (Function.update opts (ascii "host") (some host), '/'.toUInt8 :: rest) := by
  have hin : ∀ b ∈ host, inNetloc b = true := by
    intro b hb
    have h1 : b ≠ '/'.toUInt8 := ne_of_mem_of_not_mem hb (hhost _ (by decide))
    have h2 : b ≠ '?'.toUInt8 := ne_of_mem_of_not_mem hb (hhost _ (by decide))
    simp [inNetloc, h1, h2]
  have hcolon : ':'.toUInt8 ∉ host := hhost _ (by decide)
  rw [netloc, takeWhile_cut hin (by decide), dropWhile_cut hin (by decide),
    List.splitOn_eq_singleton (hhost _ (by decide)), List.map_singleton, List.map_singleton,
    takeWhile_ne hcolon, dropWhile_ne hcolon, List.intercalate_singleton,
    store_eq hne (hhost _ (by decide))]
  rfl

/-- What follows the scheme is read part by part. -/
theorem parseUri_eq_some {start : Bytes} :
    parseUri known (ascii "postgresql://" ++ start) = some opts ↔
      (0 : UInt8) ∉ start ∧ ∃ opts₁ text₁ opts₂ text₂ opts₃ text₃,
        userinfo start = some (opts₁, text₁) ∧ netloc opts₁ text₁ = some (opts₂, text₂) ∧
          path opts₂ text₂ = some (opts₃, text₃) ∧
            params known opts₃ (text₃.tail.splitOn '&'.toUInt8) = some opts := by
  by_cases hzero : (0 : UInt8) ∈ start
  · rw [parseUri, if_pos (List.mem_append_right _ hzero)]
    refine ⟨fun h => ?_, fun h => absurd hzero h.1⟩
    cases h
  · have hall : (0 : UInt8) ∉ ascii "postgresql://" ++ start := by
      rw [List.mem_append, not_or]
      exact ⟨by decide, hzero⟩
    have hscheme : stripScheme ["postgresql://", "postgres://"] (ascii "postgresql://" ++ start) =
      some start := rfl
    rw [parseUri, if_neg hall, hscheme, Option.bind_some]
    constructor
    · intro h
      obtain ⟨⟨opts₁, text₁⟩, hinfo, h⟩ := Option.bind_eq_some_iff.1 h
      obtain ⟨⟨opts₂, text₂⟩, hnet, h⟩ := Option.bind_eq_some_iff.1 h
      obtain ⟨⟨opts₃, text₃⟩, hpath, h⟩ := Option.bind_eq_some_iff.1 h
      exact ⟨hzero, opts₁, text₁, opts₂, text₂, opts₃, text₃, hinfo, hnet, hpath, h⟩
    · rintro ⟨-, opts₁, text₁, opts₂, text₂, opts₃, text₃, hinfo, hnet, hpath, h⟩
      simp only [hinfo, hnet, hpath, Option.bind_some]
      exact h

/-! ## Digits -/

theorem toNat_of_isDigit {c : Char} (h : c.isDigit = true) :
    c.toUInt8.toNat = c.toNat ∧ 48 ≤ c.toNat ∧ c.toNat ≤ 57 := by
  have hrange : 48 ≤ c.toNat ∧ c.toNat ≤ 57 := by
    rw [Char.isDigit, Bool.and_eq_true, decide_eq_true_iff, decide_eq_true_iff] at h
    exact h
  refine ⟨?_, hrange⟩
  show c.val.toUInt8.toNat = c.toNat
  rw [UInt32.toNat_toUInt8]
  exact Nat.mod_eq_of_lt (hrange.2.trans_lt (by decide))

theorem isDigit_toDigits {n : Nat} {c : Char} (h : c ∈ Nat.toDigits 10 n) : c.isDigit = true :=
  Nat.isDigit_of_mem_toDigits (by decide) (by decide) h

theorem slash_notMem_digits (n : Nat) : '/'.toUInt8 ∉ digits n := by
  intro hmem
  obtain ⟨c, hc, heq⟩ := List.mem_map.1 hmem
  obtain ⟨hnat, hlow, -⟩ := toNat_of_isDigit (isDigit_toDigits hc)
  rw [heq] at hnat
  rw [← hnat] at hlow
  exact absurd hlow (by decide)

theorem digits_injective {m n : Nat} (h : digits m = digits n) : m = n := by
  have hchars : ∀ k, (digits k).map (fun b => Char.ofNat b.toNat) = Nat.toDigits 10 k := by
    intro k
    rw [digits, List.map_map]
    conv_rhs => rw [← List.map_id (Nat.toDigits 10 k)]
    refine List.map_congr_left fun c hc => ?_
    rw [Function.comp_apply, (toNat_of_isDigit (isDigit_toDigits hc)).1]
    exact Char.ofNat_toNat c
  have hread : ∀ k, readDigits 10 0 (Nat.toDigits 10 k) = some k := by
    intro k
    have hdigits : readDigits 10 0 ((Nat.toDigits 10 k).map id) = some k :=
      readDigits_toDigits (by decide) (by decide) id (fun d _ => .inl rfl) k
    rwa [List.map_id] at hdigits
  have hmn : Nat.toDigits 10 m = Nat.toDigits 10 n := by
    rw [← hchars m, h, hchars n]
  exact Option.some.inj ((hread m).symm.trans (hmn ▸ hread n))

end Libpq
