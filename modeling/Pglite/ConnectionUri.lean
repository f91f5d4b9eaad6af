import Pglite.Libpq
import Pglite.Lossy

/-!
# The URI of a server or a gateway

Both listen on a socket in a directory of their own, and both hand out a URI for clients that are
not part of the process. The user, the database and the directory are put into it as they are.

Main results: `leads_back_iff`, what these texts and the port have to be for a client to come back
to the socket, and `port_not_leads_back`, a port for which it does not.
-/

namespace Pglite.ConnectionUri

open Libpq Lossy

/-- `Path::join` of a name that does not begin with `/`. -/
def join (dir name : Bytes) : Bytes :=
  if dir = [] ∨ dir.getLast? = some '/'.toUInt8 then dir ++ name else dir ++ '/'.toUInt8 :: name

/-- Where a `postmaster` or a gateway listens. -/
structure Socket where
  sockDir : Bytes
  sockPath : Bytes

def listen (base name : Bytes) (port : Nat) : Option Socket :=
  let sockDir := join base name
  let sockPath := join sockDir (ascii ".s.PGSQL." ++ digits port)
  if 96 < sockPath.length then none else some ⟨sockDir, sockPath⟩

/-- `Server::spawn`, in `ram_backed_dir` and for the instance `n` of the process. -/
def spawn (base : Bytes) (pid n : Nat) (port : Option UInt16) : Option Socket :=
  listen base (ascii "pgl-" ++ digits pid ++ ascii "-" ++ digits n) (port.getD 5432).toNat

/-- `start_gateway`. -/
def startGateway (base : Bytes) (pid n : Nat) : Option Socket :=
  listen base (ascii "pgl-gw-" ++ digits pid ++ ascii "-" ++ digits n) 5432

/-- `connection_uri`, and the one of a gateway. The directory is displayed. -/
def uri (user database : Bytes) (socket : Socket) : Bytes :=
  ascii "postgresql://" ++ user ++ ascii "@localhost/" ++ database ++ ascii "?host=" ++
    lossy socket.sockDir

/-- A client that is given the URI logs in as the user, to the database and at the socket. -/
def LeadsBack (known : Bytes → Bool) (uri user database sockPath : Bytes) : Prop :=
  ∃ opts, parseUri known uri = some opts ∧ opts (ascii "user") = some user ∧
    opts (ascii "dbname") = some database ∧ socketPath opts = some sockPath

/-- Nothing in the texts means something else in a URI, and the directory is an absolute path in
UTF-8. -/
structure Plain (user database sockDir : Bytes) : Prop where
  zero : (0 : UInt8) ∉ user ++ database ++ sockDir
  user_ne : user ≠ []
  user : Without "@/:%" user
  database_ne : database ≠ []
  database : Without "?%" database
  absolute : sockDir.head? = some '/'.toUInt8
  dir : Without "&=%" sockDir
  comma : ','.toUInt8 ∉ sockDir
  utf8 : lossy sockDir = sockDir

/-! ## The socket -/

/-- A name that ends in a digit is followed by a `/`, so the port can be read from the path. -/
theorem listen_eq_some {base word : Bytes} {n port : Nat} {socket : Socket}
    (h : listen base (word ++ digits n) port = some socket) :
    socket.sockPath = socket.sockDir ++ ascii "/.s.PGSQL." ++ digits port := by
  unfold listen at h
  dsimp only at h
  split at h
  · cases h
  · obtain rfl := Option.some.inj h
    have hne : digits n ≠ [] := by
      rw [digits, Ne, List.map_eq_nil_iff]
      exact Nat.toDigits_ne_nil
    have hlast : ∀ first : Bytes,
        ¬ (first ++ digits n = [] ∨ (first ++ digits n).getLast? = some '/'.toUInt8) := by
      rintro first (hnil | hslash)
      · exact hne (List.append_eq_nil_iff.1 hnil).2
      · rw [List.getLast?_append_of_ne_nil _ hne] at hslash
        exact slash_notMem_digits n (List.mem_of_getLast? hslash)
    have hdir : ∃ first, join base (word ++ digits n) = first ++ digits n := by
      unfold join
      split
      · exact ⟨base ++ word, by rw [List.append_assoc]⟩
      · exact ⟨base ++ '/'.toUInt8 :: word, by rw [List.append_assoc, List.cons_append]⟩
    obtain ⟨first, hfirst⟩ := hdir
    rw [hfirst, join, if_neg (hlast first), List.append_assoc (first ++ digits n)]
    rfl

theorem spawn_eq_some {base : Bytes} {pid n : Nat} {port : Option UInt16} {server : Socket}
    (h : spawn base pid n port = some server) :
    server.sockPath = server.sockDir ++ ascii "/.s.PGSQL." ++ digits (port.getD 5432).toNat :=
  listen_eq_some h

theorem startGateway_eq_some {base : Bytes} {pid n : Nat} {gateway : Socket}
    (h : startGateway base pid n = some gateway) :
    gateway.sockPath = gateway.sockDir ++ ascii "/.s.PGSQL." ++ digits 5432 :=
  listen_eq_some h

/-- A text is cut at its last separator in one way. -/
theorem append_last_inj {c : UInt8} {a a' z z' : Bytes} (hz : c ∉ z) (hz' : c ∉ z')
    (h : a ++ c :: z = a' ++ c :: z') : a = a' ∧ z = z' := by
  rcases List.append_eq_append_iff.1 h with ⟨w, rfl, hw⟩ | ⟨w, rfl, hw⟩
  · cases w with
    | nil =>
      rw [List.nil_append] at hw
      exact ⟨(List.append_nil a).symm, (List.cons.inj hw).2⟩
    | cons x xs =>
      obtain ⟨-, rfl⟩ := List.cons.inj hw
      exact absurd (List.mem_append_right xs List.mem_cons_self) hz
  · cases w with
    | nil =>
      rw [List.nil_append] at hw
      exact ⟨List.append_nil a', (List.cons.inj hw).2.symm⟩
    | cons x xs =>
      obtain ⟨-, rfl⟩ := List.cons.inj hw
      exact absurd (List.mem_append_right xs List.mem_cons_self) hz'

/-- The directory and the port of a path are known from the path. -/
theorem sockPath_inj {dir dir' : Bytes} {port port' : Nat}
    (h : dir ++ ascii "/.s.PGSQL." ++ digits port = dir' ++ ascii "/.s.PGSQL." ++ digits port') :
    dir = dir' ∧ port = port' := by
  have hcut : ∀ (d : Bytes) k, d ++ ascii "/.s.PGSQL." ++ digits k =
      d ++ '/'.toUInt8 :: (ascii ".s.PGSQL." ++ digits k) := by
    intro d k
    rw [List.append_assoc]
    rfl
  have hno : ∀ k, '/'.toUInt8 ∉ ascii ".s.PGSQL." ++ digits k := by
    intro k hmem
    rcases List.mem_append.1 hmem with hmem | hmem
    · exact absurd hmem (by decide)
    · exact slash_notMem_digits k hmem
  rw [hcut, hcut] at h
  obtain ⟨hdir, hname⟩ := append_last_inj (hno _) (hno _) h
  exact ⟨hdir, digits_injective (List.append_cancel_left hname)⟩

/-! ## Reading the URI -/

variable {known : Bytes → Bool} {user database : Bytes} {socket : Socket} {opts : Options}

/-- The text after the scheme. -/
def parts (user database dir : Bytes) : Bytes :=
  user ++ '@'.toUInt8 :: (ascii "localhost" ++ '/'.toUInt8 ::
    (database ++ '?'.toUInt8 :: (ascii "host=" ++ dir)))

theorem uri_eq (user database : Bytes) (socket : Socket) :
    uri user database socket =
      ascii "postgresql://" ++ parts user database (lossy socket.sockDir) := by
  simp only [uri, parts, List.append_assoc, show ascii "@localhost/" =
    '@'.toUInt8 :: (ascii "localhost" ++ ['/'.toUInt8]) from rfl,
    show ascii "?host=" = '?'.toUInt8 :: ascii "host=" from rfl, List.cons_append,
    List.nil_append]

theorem zero_notMem_parts {user database dir : Bytes} :
    (0 : UInt8) ∉ parts user database dir ↔ (0 : UInt8) ∉ user ++ database ++ dir := by
  have h1 : (0 : UInt8) ∉ ascii "localhost" := by decide
  have h2 : (0 : UInt8) ∉ ascii "host=" := by decide
  have h3 : (0 : UInt8) ≠ '@'.toUInt8 ∧ (0 : UInt8) ≠ '/'.toUInt8 ∧ (0 : UInt8) ≠ '?'.toUInt8 := by
    decide
  simp only [parts, List.mem_append, List.mem_cons, h1, h2, h3.1, h3.2.1, h3.2.2, false_or,
    not_or, and_assoc]

theorem localhost_plain : Without "/?,:%" (ascii "localhost") := by
  unfold Without
  decide +kernel

theorem host_plain : Without "&=%" (ascii "host") := by
  unfold Without
  decide +kernel

/-- Plain texts are read as they are, and the port is 5432. -/
theorem parse_plain (hhost : known (ascii "host") = true)
    (h : Plain user database socket.sockDir) :
    LeadsBack known (uri user database socket) user database
      (socket.sockDir ++ ascii "/.s.PGSQL." ++ digits 5432) := by
  have hpath : ∀ opts, path opts ('/'.toUInt8 ::
      (database ++ '?'.toUInt8 :: (ascii "host=" ++ socket.sockDir))) =
        some (Function.update opts (ascii "dbname") (some database),
          '?'.toUInt8 :: (ascii "host=" ++ socket.sockDir)) := by
    intro opts
    rw [path_eq (h.database _ (by decide)), store_eq h.database_ne (h.database _ (by decide))]
    rfl
  have hparams : ∀ opts, params known opts
      ((ascii "host=" ++ socket.sockDir).splitOn '&'.toUInt8) =
        some (Function.update opts (ascii "host") (some socket.sockDir)) := fun opts =>
    params_only_eq host_plain h.dir hhost
  rw [LeadsBack, uri_eq, h.utf8]
  refine ⟨_, parseUri_eq_some.2 ⟨zero_notMem_parts.2 h.zero, _, _, _, _, _, _,
    userinfo_eq h.user_ne h.user _, netloc_eq (by decide) localhost_plain _, hpath _, hparams _⟩,
    ?_, ?_, ?_⟩
  · rfl
  · rfl
  · rw [socketPath, Function.update_self, Option.bind_some, if_pos ⟨h.absolute, h.comma⟩]
    rfl

/-- The parameters of the URI are the directory's, since no keyword has a `?`. -/
theorem query_eq {opts : Options} (hplain : ∀ k, known k = true → '?'.toUInt8 ∉ k)
    {first query : Bytes}
    (h : params known opts ((((first ++ '?'.toUInt8 :: (ascii "host=" ++ query)).dropWhile
      (· ≠ '?'.toUInt8)).tail).splitOn '&'.toUInt8) ≠ none) : '?'.toUInt8 ∉ first := by
  intro hmem
  obtain ⟨a, b, rfl, ha⟩ := List.eq_append_cons_of_mem hmem
  have hin : ∀ c ∈ a, decide (c ≠ '?'.toUInt8) = true := fun c hc =>
    decide_eq_true (ne_of_mem_of_not_mem hc ha)
  rw [List.append_assoc, List.cons_append, dropWhile_cut hin (by decide), List.tail_cons] at h
  exact h (params_eq_none hplain b query)

/-- A URI that leads back has only plain texts, and the port is 5432. -/
theorem plain_of_leadsBack (hplain : ∀ k, known k = true → '?'.toUInt8 ∉ k) (port : Nat)
    (h : LeadsBack known (uri user database socket) user database
      (socket.sockDir ++ ascii "/.s.PGSQL." ++ digits port)) :
    Plain user database socket.sockDir ∧ port = 5432 := by
  obtain ⟨opts, hparse, huser, hdb, hsocket⟩ := h
  rw [uri_eq, parseUri_eq_some] at hparse
  obtain ⟨hzero, opts₁, text₁, opts₂, text₂, opts₃, text₃, hinfo, hnet, hpath, hparams⟩ := hparse
  obtain ⟨rfl, huser₃⟩ := dropWhile_path hnet hpath
  obtain ⟨w, rfl, hname⟩ := userinfo_append user _ hinfo
  have hfirst : w ++ (ascii "localhost" ++ '/'.toUInt8 ::
      (database ++ '?'.toUInt8 :: (ascii "host=" ++ lossy socket.sockDir))) =
        (w ++ ascii "localhost" ++ '/'.toUInt8 :: database) ++
          '?'.toUInt8 :: (ascii "host=" ++ lossy socket.sockDir) := by
    simp only [List.append_assoc, List.cons_append]
  rw [hfirst] at hparams
  have hquestion := query_eq hplain (by rw [hparams]; exact Option.some_ne_none _)
  rw [dropWhile_cut (fun b hb => decide_eq_true (ne_of_mem_of_not_mem hb hquestion)) (by decide),
    List.tail_cons] at hparams
  obtain ⟨host, hhost, hsocket⟩ := Option.bind_eq_some_iff.1 hsocket
  split at hsocket
  · next habs =>
    obtain ⟨number, hnumber, hpath_eq⟩ := Option.map_eq_some_iff.1 hsocket
    obtain ⟨rfl, rfl⟩ := sockPath_inj hpath_eq
    obtain ⟨hdir, hutf8, rfl⟩ := params_only host_plain (count_lossy (by decide) _).le
      (count_lossy (by decide) _).le (mem_lossy (by decide)).1 hparams hhost
    rw [Function.update_of_ne (by decide), huser₃] at huser
    rw [Function.update_of_ne (by decide)] at hdb
    obtain ⟨huser_ne, huser_free⟩ := hname huser
    -- Nothing was in the way of the user, so the other parts are where they were put.
    rw [parts, userinfo_eq huser_ne huser_free] at hinfo
    obtain ⟨rfl, hw⟩ := Prod.mk.inj (Option.some.inj hinfo)
    rw [← hw, netloc_eq (by decide) localhost_plain] at hnet
    obtain ⟨rfl, rfl⟩ := Prod.mk.inj (Option.some.inj hnet)
    have hdb_question : '?'.toUInt8 ∉ database := fun hmem =>
      hquestion (List.mem_append_right _ (List.mem_cons_of_mem _ hmem))
    rw [path_eq hdb_question] at hpath
    obtain ⟨opts₄, hstore, heq⟩ := Option.map_eq_some_iff.1 hpath
    obtain ⟨rfl, -⟩ := Prod.mk.inj heq
    obtain ⟨hdb_ne, hdecode⟩ := store_self hstore rfl hdb
    have hport : portNumber (Function.update opts₄ (ascii "host") (some socket.sockDir)) =
        some 5432 := by
      rw [portNumber, Function.update_of_ne (by decide), store_of_ne hstore (by decide)]
      rfl
    rw [hutf8] at hdir hzero
    refine ⟨⟨zero_notMem_parts.1 hzero, huser_ne, huser_free, hdb_ne, ?_, habs.1, hdir, habs.2,
      hutf8⟩, Option.some.inj (hnumber.symm.trans hport)⟩
    intro b hb
    have hcases : b = '?'.toUInt8 ∨ b = '%'.toUInt8 := by simpa [ascii] using hb
    rcases hcases with rfl | rfl
    · exact hdb_question
    · exact decode_eq_self_iff.1 hdecode
  · cases hsocket

/-- For every user, database and directory, with the keywords that `libpq` has: a server's URI leads
back to it iff its texts are plain and its port is 5432, and a gateway's iff its texts are plain. -/
theorem leads_back_iff (hhost : known (ascii "host") = true)
    (hplain : ∀ k, known k = true → '?'.toUInt8 ∉ k) (user database base : Bytes) (pid n : Nat) :
    (∀ port server, spawn base pid n port = some server →
      (LeadsBack known (uri user database server) user database server.sockPath ↔
        Plain user database server.sockDir ∧ port.getD 5432 = 5432)) ∧
    (∀ gateway, startGateway base pid n = some gateway →
      (LeadsBack known (uri user database gateway) user database gateway.sockPath ↔
        Plain user database gateway.sockDir)) := by
  constructor
  · intro port server hserver
    rw [spawn_eq_some hserver]
    constructor
    · intro h
      obtain ⟨hall, hport⟩ := plain_of_leadsBack hplain _ h
      exact ⟨hall, UInt16.toNat_inj.1 hport⟩
    · rintro ⟨hall, hport⟩
      rw [hport]
      exact parse_plain hhost hall
  · intro gateway hgateway
    rw [startGateway_eq_some hgateway]
    exact ⟨fun h => (plain_of_leadsBack hplain _ h).1, parse_plain hhost⟩

/-- Some of the keywords. -/
def keywords (k : Bytes) : Bool :=
  k ∈ ["host", "hostaddr", "port", "dbname", "user", "password", "sslmode", "options",
    "application_name", "connect_timeout"].map ascii

theorem leads_back_shm :
    ∃ server gateway, spawn (ascii "/dev/shm") 7 0 none = some server ∧
      startGateway (ascii "/dev/shm") 7 0 = some gateway ∧
      (LeadsBack keywords (uri (ascii "postgres") (ascii "template1") server) (ascii "postgres")
          (ascii "template1") server.sockPath ↔
        Plain (ascii "postgres") (ascii "template1") server.sockDir ∧
          (none : Option UInt16).getD 5432 = 5432) ∧
      (LeadsBack keywords (uri (ascii "postgres") (ascii "template1") gateway) (ascii "postgres")
          (ascii "template1") gateway.sockPath ↔
        Plain (ascii "postgres") (ascii "template1") gateway.sockDir) := by
  have hhost : keywords (ascii "host") = true := by decide +kernel
  have hplain : ∀ k, keywords k = true → '?'.toUInt8 ∉ k := by
    intro k hk
    have hall : ∀ word ∈ ["host", "hostaddr", "port", "dbname", "user", "password", "sslmode",
        "options", "application_name", "connect_timeout"].map ascii, '?'.toUInt8 ∉ word := by
      decide +kernel
    exact hall k (of_decide_eq_true hk)
  obtain ⟨hserver, hgateway⟩ := leads_back_iff hhost hplain (ascii "postgres") (ascii "template1")
    (ascii "/dev/shm") 7 0
  exact ⟨_, _, rfl, rfl, hserver none _ rfl, hgateway _ rfl⟩

/-- Another port than 5432 is not in the URI. -/
theorem port_not_leads_back :
    ¬ ∀ (known : Bytes → Bool), known (ascii "host") = true →
      (∀ k, known k = true → '?'.toUInt8 ∉ k) →
      ∀ (user database base : Bytes) (pid n : Nat) (port : Option UInt16) (server : Socket),
        spawn base pid n port = some server →
          LeadsBack known (uri user database server) user database server.sockPath := by
  intro h
  have hhost : ∀ k : Bytes, decide (k = ascii "host") = true → '?'.toUInt8 ∉ k := by
    intro k hk
    rw [of_decide_eq_true hk]
    decide
  have hlead := h (fun k => decide (k = ascii "host")) (by decide) hhost (ascii "postgres")
    (ascii "template1") (ascii "/dev/shm") 7 0 (some 5433) _ rfl
  have hport := (plain_of_leadsBack hhost 5433 hlead).2
  exact absurd hport (by decide)

end Pglite.ConnectionUri
