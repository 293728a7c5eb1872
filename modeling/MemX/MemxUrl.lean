import MemX.CliConnect
import MemX.IpText

namespace MemX.MemxUrl

open MachineInt DecimalText EscapedText IpText TextCase CliConnect

/-! The parts of `net/url` that `Parse` and `ConnString` rest on. -/

inductive Encoding
  | path
  | userPassword
  | host
  | zone
deriving DecidableEq

def isLetter (c : UInt8) : Bool := (97 ≤ c && c ≤ 122) || (65 ≤ c && c ≤ 90)

def shouldEscape (mode : Encoding) (c : UInt8) : Bool :=
  if isLetter c || isDigit c then false
  else if (mode = .host || mode = .zone) && (ascii "!$&'()*+,;=:[]<>\"").contains c then false
  else if (ascii "-_.~").contains c then false
  else if (ascii "$&+,/:;=?@").contains c then
    match mode with
    | .path => c = 63
    | .userPassword => (ascii "@/?:").contains c
    | _ => true
  else true

def escapeFor (mode : Encoding) (s : Bytes) : Bytes := escape (fun c => !shouldEscape mode c) s

/-- In a host only bytes beyond ASCII are escaped, and the percent sign of a zone. -/
def unescapeFor : Encoding → Bytes → Except Fault Bytes
  | .host => unescape (fun c => 0x80 ≤ c || !shouldEscape .host c) fun c => 0x80 ≤ c || c = 37
  | .zone => unescape (fun c => 0x80 ≤ c || !shouldEscape .zone c) fun c => c = 37 || c = 32 || !shouldEscape .host c
  | _ => unescape (fun _ => true) fun _ => true

inductive NetError
  | control
  | missingScheme
  | colonInSegment
  | missingBracket
  | badPort (colonPort : Bytes)
  | invalidHost
  | invalidLiteral
  | userinfo
  | text (f : Fault)

def decoded (mode : Encoding) (s : Bytes) : Except NetError Bytes := (unescapeFor mode s).mapError .text

def schemeLoop (raw read : Bytes) : Bytes → Except NetError (Bytes × Bytes)
  | [] => .ok ([], raw)
  | c :: s =>
    if isLetter c then schemeLoop raw (read ++ [c]) s
    else if isDigit c || (ascii "+-.").contains c then
      if read = [] then .ok ([], raw) else schemeLoop raw (read ++ [c]) s
    else if c = 58 then if read = [] then .error .missingScheme else .ok (read, s)
    else .ok ([], raw)

def getScheme (raw : Bytes) : Except NetError (Bytes × Bytes) := schemeLoop raw [] raw

def validOptionalPort : Bytes → Bool
  | [] => true
  | c :: s => c = 58 && s.all isDigit

def findZone : Bytes → Option (Bytes × Bytes)
  | [] => none
  | c :: s =>
    if (ascii "%25").isPrefixOf (c :: s) then some ([], c :: s) else (findZone s).map (Prod.map (c :: ·) id)

def parseLiteral (name : Bytes) : Except NetError Bytes := do
  let name ←
    match findZone name with
    | some (address, zone) => do .ok ((← decoded .host address) ++ (← decoded .zone zone))
    | none => decoded .host name
  match parseAddr name with
  | none => .error .invalidHost
  | some .v4 => .error .invalidLiteral
  | some .v6 => .ok name

/-- A bracketed host is an IPv6 address; otherwise the first colon is the one
of the port. -/
def parseHost (host : Bytes) : Except NetError Bytes :=
  match cutLast 91 host with
  | some (before, _) =>
    if before ≠ [] then .error .invalidLiteral
    else
      match cutLast 93 host with
      | none => .error .missingBracket
      | some (inner, colonPort) =>
        if validOptionalPort colonPort then do
          let colonPort ← decoded .host colonPort
          let name ← parseLiteral (inner.drop 1)
          .ok (91 :: (name ++ 93 :: colonPort))
        else .error (.badPort colonPort)
  | none =>
    match cutFirst 58 host with
    | some (_, port) => if validOptionalPort (58 :: port) then decoded .host host else .error (.badPort (58 :: port))
    | none => decoded .host host

structure Userinfo where
  username : Bytes
  password : Option Bytes

def validUserinfo (s : Bytes) : Bool :=
  s.all fun c => isLetter c || isDigit c || (ascii "-._:~!$&'()*+,;=%@").contains c

def parseUserinfo (s : Bytes) : Except NetError Userinfo :=
  if validUserinfo s then
    match cutFirst 58 s with
    | none => (decoded .userPassword s).map (⟨·, none⟩)
    | some (username, password) => do
      let username ← decoded .userPassword username
      let password ← decoded .userPassword password
      .ok ⟨username, some password⟩
  else .error .userinfo

def parseAuthority (authority : Bytes) : Except NetError (Option Userinfo × Bytes) :=
  match cutLast 64 authority with
  | none => (parseHost authority).map (none, ·)
  | some (userinfo, host) => do
    let host ← parseHost host
    let user ← parseUserinfo userinfo
    .ok (some user, host)

structure NetURL where
  scheme : Bytes
  user : Option Userinfo
  host : Bytes
  path : Bytes

def parseHier (scheme rest : Bytes) : Except NetError NetURL :=
  if rest.head? ≠ some 47 ∧ scheme ≠ [] then .ok ⟨scheme, none, [], []⟩
  else if rest.head? ≠ some 47 ∧ (rest.takeWhile (· ≠ 47)).contains 58 then .error .colonInSegment
  else if (scheme ≠ [] ∨ (ascii "///").isPrefixOf rest = false) ∧ (ascii "//").isPrefixOf rest then do
    let (user, host) ← parseAuthority ((rest.drop 2).takeWhile (· ≠ 47))
    let path ← decoded .path ((rest.drop 2).dropWhile (· ≠ 47))
    .ok ⟨scheme, user, host, path⟩
  else do .ok ⟨scheme, none, [], ← decoded .path rest⟩

def parseMain (raw : Bytes) : Except NetError NetURL :=
  if raw.any fun c => c < 32 || c = 127 then .error .control
  else if raw = ascii "*" then .ok ⟨[], none, [], raw⟩
  else do
    let (scheme, rest) ← getScheme raw
    parseHier (scheme.map lowerByte) (rest.takeWhile (· ≠ 63))

/-- `url.Parse`: the fragment is only checked. -/
def parseURL (raw : Bytes) : Except NetError NetURL :=
  match cutFirst 35 raw with
  | none => parseMain raw
  | some (u, fragment) => do
    let url ← parseMain u
    let _ ← (unescape (fun _ => true) (fun _ => true) fragment).mapError NetError.text
    .ok url

def Userinfo.text (u : Userinfo) : Bytes :=
  escapeFor .userPassword u.username ++
    match u.password with
    | none => []
    | some password => 58 :: escapeFor .userPassword password

/-- `URL.String` for a URL with a host, and a path that is not rooted. -/
def NetURL.text (u : NetURL) : Bytes :=
  (if u.scheme = [] then [] else u.scheme ++ [58]) ++ 47 :: 47 ::
    ((match u.user with
      | none => []
      | some user => user.text ++ [64]) ++
    (escapeFor .host u.host ++ if u.path = [] then [] else 47 :: escapeFor .path u.path))

def stripBrackets (host : Bytes) : Bytes :=
  if host.head? = some 91 ∧ host.getLast? = some 93 then (host.drop 1).dropLast else host

def splitHostPort (hostPort : Bytes) : Bytes × Bytes :=
  match cutLast 58 hostPort with
  | none => (stripBrackets hostPort, [])
  | some (host, port) =>
    if validOptionalPort (58 :: port) then (stripBrackets host, port) else (stripBrackets hostPort, [])

def joinHostPort (host port : Bytes) : Bytes :=
  if host.contains 58 then 91 :: (host ++ 93 :: 58 :: port) else host ++ 58 :: port

/-! The package itself. -/

structure URL where
  scheme : Bytes
  host : Bytes
  port : Bytes
  user : Bytes
  password : Bytes
  db : Int
  tls : Bool

inductive ParseError
  | net (e : NetError)
  | scheme (s : Bytes)
  | noHost (raw : Bytes)
  | invalidDB (path : Bytes)

def defaultPort (scheme : Bytes) : Bytes := if scheme = ascii "memxs" then ascii "6380" else ascii "6379"

def parseDB (path : Bytes) : Except ParseError Int :=
  let digits := path.dropWhile (· = 47)
  if digits = [] then .ok 0
  else
    match parseInt digits with
    | none => .error (.invalidDB path)
    | some db => .ok db

def parse (raw : Bytes) : Except ParseError URL := do
  let u ← (parseURL raw).mapError ParseError.net
  if u.scheme ≠ ascii "memx" ∧ u.scheme ≠ ascii "memxs" then .error (.scheme u.scheme)
  else if (splitHostPort u.host).1 = [] then .error (.noHost raw)
  else do
    let port := (splitHostPort u.host).2
    let db ← parseDB u.path
    .ok ⟨u.scheme, (splitHostPort u.host).1, if port = [] then defaultPort u.scheme else port,
      (u.user.map Userinfo.username).getD [], (u.user.bind Userinfo.password).getD [], db, u.scheme = ascii "memxs"⟩

def URL.addr (u : URL) : Bytes := joinHostPort u.host u.port

def new (scheme host port user password : Bytes) (db : Int) : URL :=
  let scheme := if scheme ≠ ascii "memxs" then ascii "memx" else scheme
  ⟨scheme, host, if port = [] then defaultPort scheme else port, user, password, db, scheme = ascii "memxs"⟩

def URL.connString (u : URL) : Bytes :=
  let user : Option Userinfo :=
    if u.user ≠ [] ∨ u.password ≠ [] then some ⟨u.user, if u.password ≠ [] then some u.password else none⟩ else none
  NetURL.text ⟨u.scheme, user, u.addr, if u.db ≠ 0 then formatInt u.db else []⟩

def isURL (t : CaseTable) (s : Bytes) : Bool :=
  (ascii "memx://").isPrefixOf (toLower t s) || (ascii "memxs://").isPrefixOf (toLower t s)

inductive TargetError
  | scheme (arg : Bytes)
  | url (e : ParseError)

def hasAuthority : Bytes → Bool
  | [] => false
  | c :: s => (ascii "://").isPrefixOf (c :: s) || hasAuthority s

def resolveTarget (t : CaseTable) (arg : Bytes) : Except TargetError ConnTarget :=
  if isURL t arg then
    match parse arg with
    | .error e => .error (.url e)
    | .ok u => .ok ⟨u.addr, u.password, u.db, u.tls⟩
  else if hasAuthority arg then .error (.scheme arg)
  else .ok ⟨arg, [], 0, false⟩

/-! What `ConnString` writes, and how `Parse` takes it apart. -/

/-- A byte that may stand before the query and the fragment. -/
def beforeQuery (c : UInt8) : Bool := 32 ≤ c && c < 127 && c ≠ 35 && c ≠ 63

/-- A byte that ends neither the authority nor the part of it in front of the host. -/
def inAuthority (c : UInt8) : Bool := beforeQuery c && c ≠ 47 && c ≠ 64

theorem kept_user : ∀ c, (!shouldEscape .userPassword c) = true →
    (inAuthority c && validUserinfo [c]) = true ∧ c ≠ 58 ∧ c ≠ 37 := by
  refine byte_cases ?_
  decide +kernel

theorem kept_host : ∀ c, (!shouldEscape .host c) = true → inAuthority c = true ∧ c ≠ 37 := by
  refine byte_cases ?_
  decide +kernel

theorem hex_user : ∀ n < 16, (inAuthority (upperHex n) && validUserinfo [upperHex n]) = true ∧ upperHex n ≠ 58 := by
  decide

theorem digit_kept {c : UInt8} (h : isDigit c = true) :
    (!shouldEscape .host c) = true ∧ (!shouldEscape .path c) = true := by
  simp [shouldEscape, h]

theorem escapeFor_append (mode : Encoding) (s t : Bytes) :
    escapeFor mode (s ++ t) = escapeFor mode s ++ escapeFor mode t := escape_append _ s t

theorem userText_bytes (s : Bytes) : ∀ x ∈ escapeFor .userPassword s,
    (inAuthority x && validUserinfo [x]) = true ∧ x ≠ 58 :=
  forall_mem_escape (fun b _ hk => ⟨(kept_user b hk).1, (kept_user b hk).2.1⟩) (by decide) hex_user

theorem hostText_bytes (s : Bytes) : ∀ x ∈ escapeFor .host s, inAuthority x = true :=
  forall_mem_escape (fun b _ hk => (kept_host b hk).1) (by decide) fun n hn =>
    (Bool.and_eq_true_iff.mp (hex_user n hn).1).1

theorem decoded_user (s : Bytes) : decoded .userPassword (escapeFor .userPassword s) = .ok s := by
  have h : unescapeFor .userPassword (escapeFor .userPassword s) = .ok s :=
    unescape_escape (fun b _ hk => ⟨(kept_user b hk).2.2, rfl⟩) fun _ _ _ => rfl
  rw [decoded, h]
  rfl

def hostByte (c : UInt8) : Bool := 0x80 ≤ c || c = 37 || !shouldEscape .host c

theorem decoded_host {s : Bytes} (hs : ∀ b ∈ s, hostByte b = true) : decoded .host (escapeFor .host s) = .ok s := by
  have h : unescapeFor .host (escapeFor .host s) = .ok s := by
    refine unescape_escape (fun b _ hk => ⟨(kept_host b hk).2, ?_⟩) fun b hb hk => ?_
    · rw [hk, Bool.or_true]
    · have hbyte := hs b hb
      rwa [hostByte, hk, Bool.or_false] at hbyte
  rw [decoded, h]
  rfl

/-- The bytes of an IPv6 address and its zone that are read back. -/
def zoneByte (c : UInt8) : Bool := c = 37 || c = 32 || !shouldEscape .host c

theorem kept_zone : ∀ c, (!shouldEscape .host c) = true → (!shouldEscape .zone c) = true := by
  refine byte_cases ?_
  decide +kernel

theorem decoded_zone {s : Bytes} (hs : ∀ b ∈ s, zoneByte b = true) : decoded .zone (escapeFor .host s) = .ok s := by
  have h : unescapeFor .zone (escapeFor .host s) = .ok s := by
    refine unescape_escape (fun b _ hk => ⟨(kept_host b hk).2, ?_⟩) fun b hb hk => ?_
    · rw [kept_zone b hk, Bool.or_true]
    · have hbyte := hs b hb
      rw [zoneByte, hk, Bool.or_false] at hbyte
      rw [hbyte, Bool.true_or]
  rw [decoded, h]
  rfl

theorem kept_address : ∀ c, addressByte c = true → (!shouldEscape .host c) = true ∧ c ≠ 37 := by
  refine byte_cases ?_
  decide +kernel

theorem validUserinfo_of {s : Bytes} (h : ∀ x ∈ s, validUserinfo [x] = true) : validUserinfo s = true :=
  List.all_eq_true.mpr fun x hx => by simpa [validUserinfo] using h x hx

theorem userText_valid (s : Bytes) : ∀ x ∈ escapeFor .userPassword s, validUserinfo [x] = true := fun x hx =>
  (Bool.and_eq_true_iff.mp (userText_bytes s x hx).1).2

theorem no_colon (s : Bytes) : (58 : UInt8) ∉ escapeFor .userPassword s := fun h => (userText_bytes s 58 h).2 rfl

theorem parseUserinfo_text (u : Userinfo) : parseUserinfo u.text = .ok u := by
  obtain ⟨user, password⟩ := u
  cases password with
  | none =>
    have htext : Userinfo.text ⟨user, none⟩ = escapeFor .userPassword user := List.append_nil _
    rw [htext, parseUserinfo, if_pos (validUserinfo_of (userText_valid user)), cutFirst_none (no_colon user)]
    simp [decoded_user, Except.map]
  | some password =>
    have hvalid : validUserinfo (Userinfo.text ⟨user, some password⟩) = true := by
      refine validUserinfo_of fun x hx => ?_
      obtain hx | hx := List.mem_append.mp hx
      · exact userText_valid user x hx
      · obtain rfl | hx := List.mem_cons.mp hx
        · decide
        · exact userText_valid password x hx
    have hcut : cutFirst 58 (Userinfo.text ⟨user, some password⟩) =
        some (escapeFor .userPassword user, escapeFor .userPassword password) := cutFirst_append (no_colon user)
    rw [parseUserinfo, if_pos hvalid, hcut]
    simp [decoded_user, bind, Except.bind]

/-- A host that is an IPv6 address if it has a colon, and a port of digits. -/
structure HostPort (host port : Bytes) : Prop where
  ne : host ≠ []
  address : 58 ∈ host → parseAddr host = some .v6 ∧ ∀ b ∈ host, zoneByte b = true
  name : 58 ∉ host → ∀ b ∈ host, hostByte b = true
  bracket : 91 ∉ host
  digits : ∀ b ∈ port, isDigit b = true

section Host

variable {host port : Bytes} (h : HostPort host port)

include h

theorem HostPort.not_mem {c : UInt8} (hc : isDigit c = false) : c ∉ port := fun hm => by
  rw [h.digits c hm] at hc
  cases hc

theorem HostPort.valid : validOptionalPort (58 :: port) = true := by
  simpa [validOptionalPort] using h.digits

theorem HostPort.escape_tail : escapeFor .host (58 :: port) = 58 :: port :=
  escape_kept (List.forall_mem_cons.mpr ⟨by decide, fun b hb => (digit_kept (h.digits b hb)).1⟩)

theorem HostPort.tail_bytes : ∀ b ∈ 58 :: port, hostByte b = true :=
  List.forall_mem_cons.mpr ⟨by decide, fun b hb => by rw [hostByte, (digit_kept (h.digits b hb)).1, Bool.or_true]⟩

theorem HostPort.decoded_tail : decoded .host (58 :: port) = .ok (58 :: port) := by
  have hd := decoded_host h.tail_bytes
  rwa [h.escape_tail] at hd

theorem HostPort.escape_join : escapeFor .host (joinHostPort host port) =
    if host.contains 58 then 91 :: (escapeFor .host host ++ 93 :: 58 :: port)
    else escapeFor .host host ++ 58 :: port := by
  have hopen : escapeFor .host [91] = [91] := by decide +kernel
  have hclose : escapeFor .host [93] = [93] := by decide +kernel
  unfold joinHostPort
  split_ifs
  · change escapeFor .host ([91] ++ (host ++ ([93] ++ 58 :: port))) = _
    rw [escapeFor_append, escapeFor_append, escapeFor_append, h.escape_tail, hopen, hclose]
    rfl
  · rw [escapeFor_append, h.escape_tail]

theorem HostPort.split_join : splitHostPort (joinHostPort host port) = (host, port) := by
  have hno : (58 : UInt8) ∉ port := h.not_mem (by decide)
  unfold splitHostPort joinHostPort
  split_ifs with hcolon
  · have hsplit : 91 :: (host ++ 93 :: 58 :: port) = (91 :: host ++ [93]) ++ 58 :: port := by simp
    have hlast : (91 :: host ++ [93]).getLast? = some 93 := List.getLast?_concat
    have hstrip : stripBrackets (91 :: host ++ [93]) = host := by
      rw [stripBrackets, if_pos ⟨rfl, hlast⟩]
      simp
    rw [hsplit, cutLast_append hno]
    simp only [h.valid, ↓reduceIte, hstrip]
  · have hhead : host.head? ≠ some 91 := fun hh => h.bracket (List.mem_of_mem_head? hh)
    rw [cutLast_append hno]
    simp [h.valid, stripBrackets, hhead]

end Host

theorem findZone_none {s : Bytes} (h : (37 : UInt8) ∉ s) : findZone s = none := by
  induction s with
  | nil => rfl
  | cons c s ih =>
    obtain ⟨hc, hs⟩ := not_or.mp (mt List.mem_cons.mpr h)
    have hno : (ascii "%25").isPrefixOf (c :: s) = false := by simp [ascii, List.isPrefixOf, hc]
    rw [findZone, hno, ih hs]
    rfl

theorem findZone_append {a s : Bytes} (h : (37 : UInt8) ∉ a) :
    findZone (a ++ (ascii "%25" ++ s)) = some (a, ascii "%25" ++ s) := by
  induction a with
  | nil => rfl
  | cons c a ih =>
    obtain ⟨hc, ha⟩ := not_or.mp (mt List.mem_cons.mpr h)
    have hno : (ascii "%25").isPrefixOf (c :: (a ++ (ascii "%25" ++ s))) = false := by
      simp [ascii, List.isPrefixOf, hc]
    rw [List.cons_append, findZone, hno, ih ha]
    rfl

theorem not_mem_escape {c : UInt8} (hc : c ≠ 37) (hx : ∀ n < 16, upperHex n ≠ c) {host : Bytes} (h : c ∉ host) :
    c ∉ escapeFor .host host := fun hm =>
  forall_mem_escape (p := (· ≠ c)) (fun _ hb _ he => h (he ▸ hb)) hc.symm hx c hm rfl

theorem parseLiteral_escape {host : Bytes} (haddr : parseAddr host = some .v6) (hz : ∀ b ∈ host, zoneByte b = true) :
    parseLiteral (escapeFor .host host) = .ok host := by
  obtain ⟨a, ha, hparts⟩ := address_parts haddr
  have hno : (37 : UInt8) ∉ a := fun hm => (kept_address 37 (ha 37 hm)).2 rfl
  have hkept : escapeFor .host a = a := escape_kept fun b hb => (kept_address b (ha b hb)).1
  have hdecoded : decoded .host a = .ok a := by
    have hd := decoded_host (s := a) fun b hb => by
      rw [hostByte, (kept_address b (ha b hb)).1, Bool.or_true]
    rwa [hkept] at hd
  obtain rfl | ⟨zone, rfl⟩ := hparts
  · simp [parseLiteral, hkept, findZone_none hno, hdecoded, haddr, bind, Except.bind]
  · have hpercent : escapeFor .host (37 :: zone) = ascii "%25" ++ escapeFor .host zone := by
      change escapeFor .host ([37] ++ zone) = _
      rw [escapeFor_append]
      rfl
    have hzone := decoded_zone (List.forall_mem_append.mp hz).2
    rw [escapeFor_append, hkept, hpercent]
    rw [hpercent] at hzone
    simp [parseLiteral, findZone_append hno, hdecoded, hzone, haddr, bind, Except.bind]

theorem parseHost_join {host port : Bytes} (h : HostPort host port) :
    parseHost (escapeFor .host (joinHostPort host port)) = .ok (joinHostPort host port) := by
  have hbracket : (91 : UInt8) ∉ escapeFor .host host := not_mem_escape (by decide) (by decide) h.bracket
  rw [h.escape_join]
  unfold parseHost joinHostPort
  by_cases hcolon : host.contains 58 = true
  · obtain ⟨haddr, hz⟩ := h.address (by simpa using hcolon)
    have hopen : cutLast 91 (91 :: (escapeFor .host host ++ 93 :: 58 :: port)) =
        some ([], escapeFor .host host ++ 93 :: 58 :: port) := by
      refine cutLast_append (a := []) ?_
      simpa using ⟨hbracket, h.not_mem (c := 91) (by decide)⟩
    have hclose : cutLast 93 (91 :: (escapeFor .host host ++ 93 :: 58 :: port)) =
        some (91 :: escapeFor .host host, 58 :: port) :=
      cutLast_append (a := 91 :: escapeFor .host host) (by simpa using h.not_mem (c := 93) (by decide))
    rw [if_pos hcolon, if_pos hcolon, hopen, hclose]
    simp [h.valid, h.decoded_tail, parseLiteral_escape haddr hz, bind, Except.bind]
  · have hno : (58 : UInt8) ∉ host := by simpa using hcolon
    have hopen : (91 : UInt8) ∉ escapeFor .host host ++ 58 :: port := by
      simpa using ⟨hbracket, h.not_mem (c := 91) (by decide)⟩
    have hdecoded : decoded .host (escapeFor .host host ++ 58 :: port) = .ok (host ++ 58 :: port) := by
      have hd := decoded_host (List.forall_mem_append.mpr ⟨h.name hno, h.tail_bytes⟩)
      rwa [escapeFor_append, h.escape_tail] at hd
    rw [if_neg hcolon, if_neg hcolon, cutLast_none hopen,
      cutFirst_append (not_mem_escape (by decide) (by decide) hno)]
    simp only [h.valid, ↓reduceIte, hdecoded]

def authority (user : Option Userinfo) (hostPort : Bytes) : Bytes :=
  (match user with
    | none => []
    | some user => user.text ++ [64]) ++ escapeFor .host hostPort

theorem parseAuthority_text (user : Option Userinfo) {host port : Bytes} (h : HostPort host port) :
    parseAuthority (authority user (joinHostPort host port)) = .ok (user, joinHostPort host port) := by
  have hno : (64 : UInt8) ∉ escapeFor .host (joinHostPort host port) := fun hm => by
    have hin := hostText_bytes _ 64 hm
    exact absurd hin (by decide)
  unfold parseAuthority authority
  cases user with
  | none =>
    rw [List.nil_append, cutLast_none hno]
    simp [parseHost_join h, Except.map]
  | some user =>
    rw [List.append_assoc, List.singleton_append, cutLast_append hno]
    simp [parseHost_join h, parseUserinfo_text, bind, Except.bind]

theorem authority_bytes (user : Option Userinfo) (hostPort : Bytes) :
    ∀ x ∈ authority user hostPort, (beforeQuery x && x ≠ 47) = true := by
  have hplain : ∀ x, inAuthority x = true → (beforeQuery x && x ≠ 47) = true := fun x hx =>
    (Bool.and_eq_true_iff.mp hx).1
  have huser : ∀ s, ∀ x ∈ escapeFor .userPassword s, (beforeQuery x && x ≠ 47) = true := fun s x hx =>
    hplain x (Bool.and_eq_true_iff.mp (userText_bytes s x hx).1).1
  have hhost : ∀ x ∈ escapeFor .host hostPort, (beforeQuery x && x ≠ 47) = true := fun x hx =>
    hplain x (hostText_bytes _ x hx)
  have hat : (beforeQuery 64 && (64 : UInt8) ≠ 47) = true := by decide
  have hcolon : (beforeQuery 58 && (58 : UInt8) ≠ 47) = true := by decide
  unfold authority
  cases user with
  | none => exact hhost
  | some user =>
    obtain ⟨name, password⟩ := user
    have htext : ∀ x ∈ Userinfo.text ⟨name, password⟩, (beforeQuery x && x ≠ 47) = true := by
      cases password with
      | none => exact List.forall_mem_append.mpr ⟨huser name, List.forall_mem_nil _⟩
      | some password =>
        exact List.forall_mem_append.mpr ⟨huser name, List.forall_mem_cons.mpr ⟨hcolon, huser password⟩⟩
    exact List.forall_mem_append.mpr ⟨List.forall_mem_append.mpr ⟨htext, List.forall_mem_singleton.mpr hat⟩, hhost⟩

section Whole

variable {scheme rest path : Bytes}

theorem getScheme_memx (hs : scheme = ascii "memx" ∨ scheme = ascii "memxs") (rest : Bytes) :
    getScheme (scheme ++ 58 :: rest) = .ok (scheme, rest) := by
  obtain rfl | rfl := hs <;> rfl

theorem takeWhile_ne {c : UInt8} {s : Bytes} (h : c ∉ s) : s.takeWhile (· ≠ c) = s :=
  List.takeWhile_eq_self_iff.mpr fun _ hx => decide_eq_true fun he => h (he ▸ hx)

theorem authority_split {auth path : Bytes} (hauth : (47 : UInt8) ∉ auth) (hroot : path = [] ∨ path.head? = some 47) :
    (auth ++ path).takeWhile (· ≠ 47) = auth ∧ (auth ++ path).dropWhile (· ≠ 47) = path := by
  have hall : ∀ x ∈ auth, decide (x ≠ 47) = true := fun x hx => decide_eq_true fun he => hauth (he ▸ hx)
  rw [List.takeWhile_append_of_pos hall, List.dropWhile_append_of_pos hall]
  obtain rfl | hroot := hroot
  · simp
  · obtain ⟨s, rfl⟩ : ∃ s, path = 47 :: s := ⟨path.tail, (List.cons_head?_tail hroot).symm⟩
    simp

theorem parseHier_parts (hs : scheme ≠ []) {auth : Bytes} (hauth : (47 : UInt8) ∉ auth)
    (hroot : path = [] ∨ path.head? = some 47) {user : Option Userinfo} {host p : Bytes}
    (ha : parseAuthority auth = .ok (user, host)) (hp : decoded .path path = .ok p) :
    parseHier scheme (47 :: 47 :: (auth ++ path)) = .ok ⟨scheme, user, host, p⟩ := by
  obtain ⟨htake, hdrop⟩ := authority_split hauth hroot
  have hslashes : (ascii "//").isPrefixOf (47 :: 47 :: (auth ++ path)) = true := by simp [ascii]
  rw [parseHier, if_neg fun h => h.1 rfl, if_neg fun h => h.1 rfl, if_pos ⟨.inl hs, hslashes⟩]
  simp only [List.drop_succ_cons, List.drop_zero, htake, hdrop, ha, hp]
  rfl

theorem url_bytes (hs : scheme = ascii "memx" ∨ scheme = ascii "memxs") {auth : Bytes}
    (hauth : ∀ x ∈ auth, (beforeQuery x && x ≠ 47) = true) (hpath : ∀ x ∈ path, beforeQuery x = true) :
    ∀ x ∈ scheme ++ 58 :: 47 :: 47 :: (auth ++ path), beforeQuery x = true := by
  have hscheme : ∀ x ∈ scheme, beforeQuery x = true := List.all_eq_true.mp (by obtain rfl | rfl := hs <;> decide)
  simp only [List.forall_mem_cons, List.forall_mem_append]
  exact ⟨hscheme, by decide, by decide, by decide, fun x hx => (Bool.and_eq_true_iff.mp (hauth x hx)).1, hpath⟩

theorem parseURL_parts (hs : scheme = ascii "memx" ∨ scheme = ascii "memxs") {auth : Bytes}
    (hauth : ∀ x ∈ auth, (beforeQuery x && x ≠ 47) = true) (hpath : ∀ x ∈ path, beforeQuery x = true)
    (hroot : path = [] ∨ path.head? = some 47) {user : Option Userinfo} {host p : Bytes}
    (ha : parseAuthority auth = .ok (user, host)) (hp : decoded .path path = .ok p) :
    parseURL (scheme ++ 58 :: 47 :: 47 :: (auth ++ path)) = .ok ⟨scheme, user, host, p⟩ := by
  have hne : scheme ≠ [] := by obtain rfl | rfl := hs <;> decide
  have hlower : scheme.map lowerByte = scheme := by obtain rfl | rfl := hs <;> decide
  have hraw := url_bytes hs hauth hpath
  have hhash : (35 : UInt8) ∉ scheme ++ 58 :: 47 :: 47 :: (auth ++ path) := fun h => absurd (hraw _ h) (by decide)
  have hquery : (63 : UInt8) ∉ 47 :: 47 :: (auth ++ path) := fun h =>
    absurd (hraw _ (List.mem_append_right _ (List.mem_cons_of_mem _ h))) (by decide)
  have hslash : (47 : UInt8) ∉ auth := fun h => absurd (hauth _ h) (by decide)
  have hcontrol : (scheme ++ 58 :: 47 :: 47 :: (auth ++ path)).any (fun c => c < 32 || c = 127) = false := by
    refine List.any_eq_false.mpr fun x hx => ?_
    have hx := hraw x hx
    simp only [beforeQuery, Bool.and_eq_true, decide_eq_true_eq] at hx
    simp only [Bool.or_eq_true, decide_eq_true_eq, not_or]
    exact ⟨UInt8.not_lt.mpr hx.1.1.1, fun he => absurd (he ▸ hx.1.1.2) (by decide)⟩
  have hstar : scheme ++ 58 :: 47 :: 47 :: (auth ++ path) ≠ ascii "*" := by
    obtain rfl | rfl := hs <;> simp [ascii]
  rw [parseURL, cutFirst_none hhash]
  simp only [parseMain, hcontrol, Bool.false_eq_true, ↓reduceIte, hstar, getScheme_memx hs, bind, Except.bind, hlower,
    takeWhile_ne hquery]
  exact parseHier_parts hne hslash hroot ha hp

end Whole

theorem kept_path {c : UInt8} (h : c = 45 ∨ isDigit c = true) :
    (!shouldEscape .path c) = true ∧ beforeQuery c = true ∧ c ≠ 37 ∧ c ≠ 47 := by
  have hall : ∀ c : UInt8, c = 45 ∨ isDigit c = true →
      (!shouldEscape .path c) = true ∧ beforeQuery c = true ∧ c ≠ 37 ∧ c ≠ 47 := by
    refine byte_cases ?_
    decide +kernel
  exact hall c h

def dbPath (db : Int) : Bytes := if db ≠ 0 then 47 :: formatInt db else []

theorem dbPath_bytes (db : Int) : ∀ x ∈ dbPath db, beforeQuery x = true ∧ x ≠ 37 := by
  unfold dbPath
  split_ifs
  · exact List.forall_mem_cons.mpr ⟨by decide, fun x hx => ⟨(kept_path (mem_formatInt hx)).2.1,
      (kept_path (mem_formatInt hx)).2.2.1⟩⟩
  · exact List.forall_mem_nil _

theorem decoded_dbPath (db : Int) : decoded .path (dbPath db) = .ok (dbPath db) := by
  have h : unescape (fun _ => true) (fun _ => true) (escape (fun _ => true) (dbPath db)) = .ok (dbPath db) :=
    unescape_escape (fun b hb _ => ⟨(dbPath_bytes db b hb).2, rfl⟩) fun _ _ _ => rfl
  rw [escape_kept fun _ _ => rfl] at h
  have hpath : unescapeFor .path (dbPath db) = .ok (dbPath db) := h
  rw [decoded, hpath]
  rfl

theorem parseDB_dbPath {db : Int} (hr : InRange db) : parseDB (dbPath db) = .ok db := by
  unfold dbPath
  split_ifs with hdb
  · have hdrop : (47 :: formatInt db).dropWhile (· = 47) = formatInt db := by
      rw [List.dropWhile_cons_of_pos (by decide), List.dropWhile_eq_self_iff]
      exact fun hpos => by simpa using (kept_path (mem_formatInt (List.getElem_mem hpos))).2.2.2
    simp only [parseDB, hdrop, formatInt_ne_nil, ↓reduceIte, parseInt_formatInt hr]
  · simp [parseDB, not_not.mp hdb]

/-- The URLs that `New` builds from a usable host and port. -/
structure Valid (u : URL) : Prop where
  scheme : u.scheme = ascii "memx" ∨ u.scheme = ascii "memxs"
  hostPort : HostPort u.host u.port
  port : u.port ≠ []
  db : InRange u.db
  tls : u.tls = decide (u.scheme = ascii "memxs")

def URL.userinfo (u : URL) : Option Userinfo :=
  if u.user ≠ [] ∨ u.password ≠ [] then some ⟨u.user, if u.password ≠ [] then some u.password else none⟩ else none

theorem connString_eq {u : URL} (hs : u.scheme ≠ []) :
    u.connString = u.scheme ++ 58 :: 47 :: 47 :: (authority u.userinfo u.addr ++ dbPath u.db) := by
  have hkept : escapeFor .path (formatInt u.db) = formatInt u.db :=
    escape_kept fun b hb => (kept_path (mem_formatInt hb)).1
  have hpath : (if (if u.db ≠ 0 then formatInt u.db else []) = [] then []
      else 47 :: escapeFor .path (if u.db ≠ 0 then formatInt u.db else [])) = dbPath u.db := by
    unfold dbPath
    by_cases hdb : u.db = 0
    · simp [hdb]
    · simp only [ne_eq, hdb, not_false_eq_true, ↓reduceIte, formatInt_ne_nil, hkept]
  rw [URL.connString, NetURL.text]
  dsimp only
  rw [hpath, if_neg hs, List.append_assoc, List.singleton_append, ← List.append_assoc _ (escapeFor _ _)]
  rfl

theorem userinfo_parts (u : URL) : (u.userinfo.map Userinfo.username).getD [] = u.user ∧
    (u.userinfo.bind Userinfo.password).getD [] = u.password := by
  unfold URL.userinfo
  by_cases hp : u.password = []
  · by_cases hu : u.user = [] <;> simp [hp, hu]
  · simp [hp]

theorem parse_connString {u : URL} (hu : Valid u) : parse u.connString = .ok u := by
  have hs : u.scheme ≠ [] := by obtain h | h := hu.scheme <;> rw [h] <;> decide
  have hroot : dbPath u.db = [] ∨ (dbPath u.db).head? = some 47 := by
    unfold dbPath
    split_ifs
    · exact .inr rfl
    · exact .inl rfl
  have hparts := parseURL_parts hu.scheme (authority_bytes u.userinfo u.addr)
    (fun x hx => (dbPath_bytes u.db x hx).1) hroot (parseAuthority_text u.userinfo hu.hostPort) (decoded_dbPath u.db)
  have hscheme : ¬ (u.scheme ≠ ascii "memx" ∧ u.scheme ≠ ascii "memxs") := fun h => hu.scheme.elim h.1 h.2
  obtain ⟨huser, hpassword⟩ := userinfo_parts u
  rw [connString_eq hs, parse, hparts]
  simp only [Except.mapError, bind, Except.bind, hscheme, ↓reduceIte, hu.hostPort.split_join, hu.hostPort.ne, hu.port,
    parseDB_dbPath hu.db, huser, hpassword, ← hu.tls]

theorem defaultPort_digits (scheme : Bytes) :
    (∀ b ∈ defaultPort scheme, isDigit b = true) ∧ defaultPort scheme ≠ [] := by
  unfold defaultPort
  split_ifs
  · exact ⟨List.all_eq_true.mp (by decide), by decide⟩
  · exact ⟨List.all_eq_true.mp (by decide), by decide⟩

theorem valid_new {scheme host port user password : Bytes} {db : Int} (h : HostPort host port) (hdb : InRange db) :
    Valid (new scheme host port user password db) := by
  have hscheme : (new scheme host port user password db).scheme = ascii "memx" ∨
      (new scheme host port user password db).scheme = ascii "memxs" := by
    by_cases hs : scheme = ascii "memxs"
    · exact .inr (by simp [new, hs])
    · exact .inl (by simp [new, hs])
  have hport : (∀ b ∈ (new scheme host port user password db).port, isDigit b = true) ∧
      (new scheme host port user password db).port ≠ [] := by
    by_cases hp : port = []
    · simpa [new, hp] using defaultPort_digits _
    · simpa [new, hp] using h.digits
  exact ⟨hscheme, { h with digits := hport.1 }, hport.2, hdb, rfl⟩

theorem isURL_connString (t : CaseTable) {u : URL} (hu : Valid u) : isURL t u.connString = true := by
  have hs : u.scheme ≠ [] := by obtain h | h := hu.scheme <;> rw [h] <;> decide
  have hascii : ∀ x ∈ u.connString, x < 0x80 := fun x hx => by
    rw [connString_eq hs] at hx
    have hx := url_bytes hu.scheme (authority_bytes _ _) (fun x hx => (dbPath_bytes u.db x hx).1) x hx
    simp only [beforeQuery, Bool.and_eq_true, decide_eq_true_eq] at hx
    exact UInt8.lt_trans hx.1.1.2 (by decide)
  rw [isURL, toLower_ascii t hascii, connString_eq hs]
  obtain h | h := hu.scheme <;> rw [h] <;> simp [ascii, lowerByte]

/-- The URL that `memx-url` prints is the one that `memx-cli` connects to. -/
theorem url_round_trip (t : CaseTable) (scheme : Bytes) {host port : Bytes} (h : HostPort host port)
    (user password : Bytes) {db : Int} (hdb : InRange db) :
    let u := new scheme host port user password db
    parse u.connString = .ok u ∧ resolveTarget t u.connString = .ok ⟨u.addr, password, db, u.tls⟩ := by
  intro u
  have hu : Valid u := valid_new h hdb
  refine ⟨parse_connString hu, ?_⟩
  rw [resolveTarget, if_pos (isURL_connString t hu), parse_connString hu]
  rfl

def markedURL : URL := new (ascii "memxs") (ascii "fe80::1%eth0") [] (ascii "alice") (ascii "p:w/@#") 2

theorem markedURL_round_trip : parse markedURL.connString = .ok markedURL ∧
    resolveTarget asciiTable markedURL.connString = .ok ⟨markedURL.addr, ascii "p:w/@#", 2, markedURL.tls⟩ :=
  have hbytes : (ascii "fe80::1%eth0").all zoneByte = true := by decide
  have hhost : HostPort (ascii "fe80::1%eth0") [] :=
    ⟨by decide, fun _ => ⟨by decide +kernel, List.all_eq_true.mp hbytes⟩, fun hno => absurd (by decide) hno, by decide,
      List.forall_mem_nil _⟩
  url_round_trip asciiTable (ascii "memxs") hhost (ascii "alice") (ascii "p:w/@#") (by decide)

end MemX.MemxUrl
