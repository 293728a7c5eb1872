import MemX.CliClient
import MemX.CommandNames

namespace MemX.CliConnect

open MachineInt DecimalText Clock StoreState TextCase TextFold
open CommandProgram CommandHandlers CommandRegistry CommandWrites CommandNames
open RespRead RespWrite RespRoundTrip RespReply BufReader PersistLimits ServerConn ServerFrames ServerBuffers CliClient

variable {c : Config}

structure ConnTarget where
  dialAddr : Bytes
  password : Bytes
  db : Int
  tls : Bool

inductive SetupError
  | failed (name : Bytes) (err : ReadErr)
  | rejected (name msg : Bytes)

def errText : ReadErr → Bytes
  | .eof => ascii "EOF"
  | .unexpectedEOF => ascii "unexpected EOF"
  | .protocol msg => msg

def SetupError.text : SetupError → Bytes
  | .failed name err => name ++ (ascii ": " ++ errText err)
  | .rejected name msg => name ++ (ascii " rejected: " ++ msg)

structure Transit (c : Config) where
  requestCuts : List Nat
  replyCuts : List Nat
  round : Round c

def exchange (name : String) (value : Bytes) (p : Transit c) : Exchange c :=
  ⟨⟨[ascii name, value], List.cons_ne_nil _ _⟩, p.requestCuts, p.replyCuts, p.round⟩

/-- One command of `applyConnOptions`, on a connection that the server may
already have closed. -/
def sendOption (h : Host) (requirePass : Bytes) (lim : Limits) (name : String) (value : Bytes) (p : Transit c) :
    Option (Link c) → Except SetupError (Option (Link c))
  | none => .error (.failed (ascii name) .eof)
  | some l =>
    match roundTrip h requirePass lim (exchange name value p) l with
    | (.error e, _) => .error (.failed (ascii name) e)
    | (.ok (.error msg), _) => .error (.rejected (ascii name) msg)
    | (.ok _, l) => .ok l

def sendPassword (h : Host) (requirePass : Bytes) (lim : Limits) (password : Bytes) (p : Transit c) (l : Link c) :
    Except SetupError (Option (Link c)) :=
  if password ≠ [] then sendOption h requirePass lim "AUTH" password p (some l) else .ok (some l)

def sendDB (h : Host) (requirePass : Bytes) (lim : Limits) (db : Int) (p : Transit c) (l : Option (Link c)) :
    Except SetupError (Option (Link c)) :=
  if db ≠ 0 then sendOption h requirePass lim "SELECT" (formatInt db) p l else .ok l

def applyConnOptions (h : Host) (requirePass : Bytes) (lim : Limits) (t : ConnTarget) (auth select : Transit c)
    (l : Link c) : Except SetupError (Option (Link c)) :=
  (sendPassword h requirePass lim t.password auth l).bind (sendDB h requirePass lim t.db select)

section Replies

variable (h : Host) (requirePass : Bytes) (now : Readings) (w : World c)

theorem toLower_name (t : CaseTable) {name : String} (hascii : (ascii name).all (· < 0x80) = true) :
    toLower t (ascii name) = (ascii name).map lowerByte := toLower_ascii t (by simpa using hascii)

theorem findCommand_auth : findCommand h (ascii "auth") = none := by
  have hnames : ∀ name ∈ (commands h).map Command.name, ascii name ≠ ascii "auth" := by
    simp only [commands, List.map_cons, List.map_nil]
    decide +kernel
  exact List.find?_eq_none.mpr fun cmd hm => by simpa using hnames _ (List.mem_map_of_mem hm)

/-- A server without a password does not know the command. -/
theorem dispatch_auth (password : Bytes) : dispatch h [ascii "AUTH", password] =
    .refuse (.error (unknownCommand (ascii "auth") [password])) := by
  have hl : lowerString h.cases (ascii "AUTH") = ascii "auth" := by
    rw [lowerString_upper h.cases (by decide), toLower_name _ (by decide)]
    decide
  have hne : ascii "auth" ≠ [] := by decide
  simp only [dispatch, parse, hl, hne, ↓reduceIte, findCommand_auth]

theorem dispatch_select (db : Bytes) : dispatch h [ascii "SELECT", db] =
    .run ⟨"select", 1, some 1, false, hSelect⟩ [db] :=
  dispatch_of_name (by decide) (by decide) (by decide) (by simp [commands]) rfl

theorem respond_auth_open (password : Bytes) (p : Transit c) :
    respond h requirePass now true w (exchange "AUTH" password p).args =
      (.executed (.error (unknownCommand (ascii "auth") [password])), true, ⟨w.store, w.log ++ []⟩) := by
  simp only [respond, exchange, execute, dispatch_auth]
  rfl

theorem respond_auth_gated (password : Bytes) (p : Transit c) :
    respond h requirePass now false w (exchange "AUTH" password p).args =
      if password = requirePass then (.gated okText, true, w)
      else (.gated (.error (ascii "WRONGPASS invalid username-password pair or user is disabled.")), false, w) := by
  have hlow : toLower h.cases (ascii "AUTH") = ascii "auth" := (toLower_name _ (by decide)).trans (by decide)
  simp only [respond, gate, exchange, List.head_cons, hlow]
  by_cases hp : password = requirePass <;> simp [hp, arg]

/-- The only database is 0, and no other index gets past the gate. -/
theorem respond_select {db : Int} (hdb : db ≠ 0) (hr : InRange db) (authed : Bool) (p : Transit c) :
    ∃ msg, (respond h requirePass now authed w (exchange "SELECT" (formatInt db) p).args).1.reply = .error msg ∧
      (msg = ascii "ERR DB index is out of range" ∨ msg = ascii "NOAUTH Authentication required.") := by
  cases authed with
  | true =>
    refine ⟨_, ?_, .inl rfl⟩
    have hsel : hSelect [formatInt db] = fail (ascii "DB index is out of range") :=
      if_neg fun h0 => hdb (Option.some.inj ((parseInt_formatInt hr).symm.trans h0))
    simp only [respond, exchange, execute, dispatch_select, hsel]
    rfl
  | false =>
    refine ⟨_, ?_, .inr rfl⟩
    have hlow : toLower h.cases (ascii "SELECT") ≠ ascii "auth" := by
      rw [toLower_name _ (by decide)]
      decide
    simp [respond, gate, exchange, hlow, Response.reply]

end Replies

theorem unknownCommand_auth (password : Bytes) : unknownCommand (ascii "auth") [password] =
    ascii "ERR unknown command 'auth', with args beginning with: '" ++ (password.take 128 ++ ascii "'") := by
  have htext : ascii "ERR unknown command " ++ quoted (ascii "auth") ++ ascii ", with args beginning with: " ++
      ascii "'" = ascii "ERR unknown command 'auth', with args beginning with: '" := by decide
  simp [unknownCommand, preview, quoted, ← htext]

def Readable (msg : Bytes) : Prop := Sendable defaultLimits (.error msg) ∧ Short (.error msg)

theorem readable_of {msg : Bytes} (hlf : (10 : UInt8) ∉ msg) (hlen : msg.length ≤ 200) : Readable msg :=
  ⟨⟨hlf, by simp only [defaultLimits]; omega⟩, by simp only [Short, clientBuffer]; omega⟩

theorem readable_unknown {password : Bytes} (hlf : (10 : UInt8) ∉ password) :
    Readable (unknownCommand (ascii "auth") [password]) := by
  rw [unknownCommand_auth]
  refine readable_of ?_ ?_
  · have htake : (10 : UInt8) ∉ password.take 128 := fun hm => hlf (List.mem_of_mem_take hm)
    have hhead : (10 : UInt8) ∉ ascii "ERR unknown command 'auth', with args beginning with: '" := by decide
    have hend : (10 : UInt8) ∉ ascii "'" := by decide
    simp [htake, hhead, hend]
  · have hhead : (ascii "ERR unknown command 'auth', with args beginning with: '").length = 55 := by decide
    have hend : (ascii "'").length = 1 := by decide
    rw [List.length_append, List.length_append, List.length_take, hhead, hend]
    omega

section Setup

variable {h : Host} {requirePass : Bytes} {lim : Limits} {name : String} {value : Bytes} {p : Transit c} {l : Link c}

def answer (h : Host) (requirePass : Bytes) (name : String) (value : Bytes) (p : Transit c) (l : Link c) :
    Response × Bool × World c :=
  respond h requirePass p.round.now l.authed (p.round.meanwhile l.world) (exchange name value p).args

variable (hh : 21 ≤ lim.maxHeaderLen) (hb : lim.maxBulkLen < 2 ^ 63) (ha : lim.maxArgs < 2 ^ 63)

include hh hb ha

theorem option_trip (hl : Idle l) (hx : Within lim [ascii name, value])
    (hfit : Sendable defaultLimits (answer h requirePass name value p l).1.reply ∧
      Short (answer h requirePass name value p l).1.reply) :
    ∃ l', roundTrip h requirePass lim (exchange name value p) l =
        (.ok (answer h requirePass name value p l).1.reply, some l') ∧
      Idle l' ∧ l'.authed = (answer h requirePass name value p l).2.1 := by
  obtain ⟨l', htrip, hidle, hauthed, -⟩ := roundTrip_reads (x := exchange name value p) hh hb ha hl hx hfit
  exact ⟨l', htrip, hidle, hauthed⟩

theorem sendOption_rejects (hl : Idle l) (hx : Within lim [ascii name, value]) {msg : Bytes}
    (hr : (answer h requirePass name value p l).1.reply = .error msg) (hmsg : Readable msg) :
    sendOption h requirePass lim name value p (some l) = .error (.rejected (ascii name) msg) := by
  obtain ⟨l', htrip, -⟩ := option_trip hh hb ha hl hx (by rw [hr]; exact hmsg)
  rw [hr] at htrip
  simp only [sendOption, htrip]

theorem sendOption_accepts (hl : Idle l) (hx : Within lim [ascii name, value])
    (hr : (answer h requirePass name value p l).1.reply = okText) :
    ∃ l', sendOption h requirePass lim name value p (some l) = .ok (some l') ∧ Idle l' ∧
      l'.authed = (answer h requirePass name value p l).2.1 := by
  have hfit : Sendable defaultLimits okText ∧ Short okText :=
    ⟨⟨by decide, by decide⟩, by simp [Short, okText, ascii, clientBuffer]⟩
  obtain ⟨l', htrip, hidle, hauthed⟩ := option_trip hh hb ha hl hx (hr ▸ hfit)
  rw [hr] at htrip
  refine ⟨l', ?_, hidle, hauthed⟩
  simp only [sendOption, htrip, okText]

theorem sendOption_select {db : Int} (hdb : db ≠ 0) (hr : InRange db) (hl : Idle l)
    (hx : Within lim [ascii "SELECT", formatInt db]) :
    ∃ msg, sendOption h requirePass lim "SELECT" (formatInt db) p (some l) =
      .error (.rejected (ascii "SELECT") msg) := by
  obtain ⟨msg, hans, hmsg⟩ := respond_select h requirePass p.round.now (p.round.meanwhile l.world) hdb hr l.authed p
  have hread : Readable msg := by
    rcases hmsg with rfl | rfl <;> exact readable_of (by decide) (by decide)
  exact ⟨msg, sendOption_rejects hh hb ha hl hx hans hread⟩

theorem sendOption_auth_open (hl : Idle l) (hopen : l.authed = true) (hx : Within lim [ascii "AUTH", value])
    (hlf : (10 : UInt8) ∉ value) : sendOption h requirePass lim "AUTH" value p (some l) =
      .error (.rejected (ascii "AUTH") (unknownCommand (ascii "auth") [value])) := by
  refine sendOption_rejects hh hb ha hl hx ?_ (readable_unknown hlf)
  rw [answer, hopen, respond_auth_open]
  rfl

theorem sendOption_auth_wrong (hl : Idle l) (hshut : l.authed = false) (hx : Within lim [ascii "AUTH", value])
    (hne : value ≠ requirePass) :
    ∃ msg, sendOption h requirePass lim "AUTH" value p (some l) = .error (.rejected (ascii "AUTH") msg) := by
  have hans : (answer h requirePass "AUTH" value p l).1.reply =
      .error (ascii "WRONGPASS invalid username-password pair or user is disabled.") := by
    rw [answer, hshut, respond_auth_gated, if_neg hne]
    rfl
  exact ⟨_, sendOption_rejects hh hb ha hl hx hans (readable_of (by decide) (by decide))⟩

theorem sendOption_auth_right (hl : Idle l) (hshut : l.authed = false) (hx : Within lim [ascii "AUTH", requirePass]) :
    ∃ l', sendOption h requirePass lim "AUTH" requirePass p (some l) = .ok (some l') ∧ Idle l' ∧ l'.authed = true := by
  have hans : answer h requirePass "AUTH" requirePass p l = (.gated okText, true, p.round.meanwhile l.world) := by
    rw [answer, hshut, respond_auth_gated, if_pos rfl]
  obtain ⟨l', hok, hidle, hauthed⟩ := sendOption_accepts hh hb ha hl hx (p := p) (by rw [hans]; rfl)
  exact ⟨l', hok, hidle, hauthed.trans (by rw [hans])⟩

theorem sendPassword_outcome (w : World c) {client server : Reader UInt8}
    (hidle : Idle (dial requirePass w client server)) (hx : Within lim [ascii "AUTH", value])
    (hlf : requirePass = [] → (10 : UInt8) ∉ value) :
    if value = [] ∨ value = requirePass then
      ∃ l, sendPassword h requirePass lim value p (dial requirePass w client server) = .ok (some l) ∧ Idle l ∧
        l.authed = decide (value = requirePass)
    else ∃ e, sendPassword h requirePass lim value p (dial requirePass w client server) = .error e := by
  by_cases hempty : value = []
  · rw [if_pos (.inl hempty)]
    refine ⟨_, if_neg (not_not.mpr hempty), hidle, ?_⟩
    rw [hempty]
    exact decide_eq_decide.mpr eq_comm
  · rw [sendPassword, if_pos hempty]
    by_cases hpass : requirePass = []
    · rw [if_neg (by rw [hpass]; simp [hempty])]
      exact ⟨_, sendOption_auth_open hh hb ha hidle (decide_eq_true hpass) hx (hlf hpass)⟩
    · have hshut : (dial requirePass w client server).authed = false := decide_eq_false hpass
      by_cases heq : value = requirePass
      · rw [if_pos (.inr heq), decide_eq_true heq]
        subst heq
        exact sendOption_auth_right hh hb ha hidle hshut hx
      · rw [if_neg (by simp [hempty, heq])]
        obtain ⟨msg, hrej⟩ := sendOption_auth_wrong hh hb ha hidle hshut hx heq (h := h) (p := p)
        exact ⟨_, hrej⟩

/-- The client gets past its setup exactly if the URL has no password or the
one of the server, and no database other than 0; it is then authenticated
exactly if the two passwords are the same. -/
theorem setup_succeeds_iff (h : Host) (w : World c) {client server : Reader UInt8}
    (hidle : Idle (dial requirePass w client server)) {t : ConnTarget} (hdb : InRange t.db) (auth select : Transit c)
    (hauth : Within lim [ascii "AUTH", t.password]) (hselect : Within lim [ascii "SELECT", formatInt t.db])
    (hlf : requirePass = [] → (10 : UInt8) ∉ t.password) :
    if (t.password = [] ∨ t.password = requirePass) ∧ t.db = 0 then
      ∃ l, applyConnOptions h requirePass lim t auth select (dial requirePass w client server) = .ok (some l) ∧
        l.authed = decide (t.password = requirePass)
    else
      ∃ e, applyConnOptions h requirePass lim t auth select (dial requirePass w client server) = .error e := by
  have hstage := sendPassword_outcome hh hb ha w hidle hauth hlf (h := h) (p := auth)
  unfold applyConnOptions
  by_cases hpass : t.password = [] ∨ t.password = requirePass
  · rw [if_pos hpass] at hstage
    obtain ⟨l, hok, hl, hauthed⟩ := hstage
    rw [hok]
    by_cases hzero : t.db = 0
    · rw [if_pos ⟨hpass, hzero⟩]
      exact ⟨l, if_neg (not_not.mpr hzero), hauthed⟩
    · rw [if_neg fun hc => hzero hc.2]
      have hrej : ∃ msg, sendOption h requirePass lim "SELECT" (formatInt t.db) select (some l) =
          .error (.rejected (ascii "SELECT") msg) := sendOption_select hh hb ha hzero hdb hl hselect
      obtain ⟨msg, hrej⟩ := hrej
      exact ⟨_, (if_pos hzero).trans hrej⟩
  · rw [if_neg hpass] at hstage
    obtain ⟨e, he⟩ := hstage
    rw [if_neg fun hc => hpass hc.1, he]
    exact ⟨e, rfl⟩

end Setup

theorem idle_dial (requirePass : Bytes) (w : World c) :
    Idle (dial requirePass w (blank clientBuffer) (blank connBuffer)) :=
  ⟨by simp [dial, blank, Reader.size_eq], rfl, by simp [dial, blank, Reader.size_eq], rfl⟩

def direct : Transit twoShards := ⟨[], [], ⟨id, frozen (instant 0)⟩⟩

def secretTarget : ConnTarget := ⟨ascii "127.0.0.1:6379", ascii "secret", 0, false⟩

theorem secretTarget_accepted :
    ∃ l, applyConnOptions host (ascii "secret") defaultLimits secretTarget direct direct
        (dial (ascii "secret") emptyWorld (blank clientBuffer) (blank connBuffer)) = .ok (some l) ∧
      l.authed = true := by
  have h := setup_succeeds_iff (by decide) (by decide) (by decide) host emptyWorld (idle_dial _ _)
    (by decide : InRange secretTarget.db) direct direct
    (by decide : Within defaultLimits [ascii "AUTH", secretTarget.password]) (by decide)
    (by decide : ascii "secret" = [] → _)
  exact (if_pos (by decide)).mp h

/-- A server that needs no password sends back the one it is given, and the
client reports it: what `String` hides in the URL is in the error. -/
theorem password_reported {lim : Limits} (hh : 21 ≤ lim.maxHeaderLen) (hb : lim.maxBulkLen < 2 ^ 63)
    (ha : lim.maxArgs < 2 ^ 63) (h : Host) (w : World c) {client server : Reader UInt8}
    (hidle : Idle (dial [] w client server)) {t : ConnTarget} (hne : t.password ≠ []) (auth select : Transit c)
    (hauth : Within lim [ascii "AUTH", t.password]) (hlf : (10 : UInt8) ∉ t.password) :
    ∃ e, applyConnOptions h [] lim t auth select (dial [] w client server) = .error e ∧
      t.password.take 128 <:+: e.text := by
  have hrej : sendPassword h [] lim t.password auth (dial [] w client server) =
      .error (.rejected (ascii "AUTH") (unknownCommand (ascii "auth") [t.password])) :=
    (if_pos hne).trans (sendOption_auth_open hh hb ha hidle rfl hauth hlf)
  refine ⟨.rejected (ascii "AUTH") (unknownCommand (ascii "auth") [t.password]), ?_, ?_⟩
  · rw [applyConnOptions, hrej]
    rfl
  · rw [SetupError.text, unknownCommand_auth]
    exact ⟨ascii "AUTH" ++ (ascii " rejected: " ++ ascii "ERR unknown command 'auth', with args beginning with: '"),
      ascii "'", by simp only [List.append_assoc]⟩

theorem secretTarget_reported :
    ∃ e, applyConnOptions host [] defaultLimits secretTarget direct direct
        (dial [] emptyWorld (blank clientBuffer) (blank connBuffer)) = .error e ∧ ascii "secret" <:+: e.text :=
  password_reported (by decide) (by decide) (by decide) host emptyWorld (idle_dial _ _)
    (by decide : secretTarget.password ≠ []) direct direct (by decide) (by decide)

end MemX.CliConnect
