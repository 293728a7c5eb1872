import MemX.CommandProgram
import MemX.RespWrite
import MemX.TextCase

namespace MemX.CommandHandlers

open MachineInt DecimalText Clock StoreState StoreRules CommandProgram RespWrite TextCase

/-- What the handlers know of the machine and the server they run on. -/
structure Host where
  cases : CaseTable
  goos : Bytes
  goarch : Bytes
  connectedClients : Int
  totalCommands : Int
  uptime : Int

def host : Host := ⟨asciiTable, ascii "linux", ascii "amd64", 1, 1, 0⟩

abbrev Outcome := Except Bytes Reply

def ok (r : Reply) : Handler Outcome := .pure (.ok r)

def fail (msg : Bytes) : Handler Outcome := .pure (.error msg)

def onlyIf (p : Prop) [Decidable p] (k : Handler Unit) : Handler Unit := if p then k else .pure ()

def okText : Reply := .simple (ascii "OK")

def syntaxError : Bytes := ascii "syntax error"

def notInteger : Bytes := ascii "value is not an integer or out of range"

def arg (args : List Bytes) (i : Nat) : Bytes := args.getD i []

def bulkOrNull : Option Bytes → Reply
  | some v => .bulk v
  | none => .null

def count (b : Bool) : Reply := .integer (if b then 1 else 0)

def hPing (args : List Bytes) : Handler Outcome :=
  match args with
  | [] => ok (.simple (ascii "PONG"))
  | a :: _ => ok (.bulk a)

def hEcho (args : List Bytes) : Handler Outcome := ok (.bulk (arg args 0))

structure SetOptions where
  ttl : Int
  ttlSet : Bool
  mode : SetMode

def setOptions (t : CaseTable) (o : SetOptions) : List Bytes → Except Bytes SetOptions
  | [] => .ok o
  | opt :: rest =>
    let up := toUpper t opt
    if up = ascii "EX" ∨ up = ascii "PX" then
      match rest with
      | [] => .error syntaxError
      | v :: rest =>
        if o.ttlSet then .error syntaxError
        else
          match parseInt v with
          | none => .error notInteger
          | some n =>
            if n ≤ 0 then .error (ascii "invalid expire time in 'set' command")
            else
              let unit := if up = ascii "EX" then second else millisecond
              setOptions t { o with ttl := wrap64 (n * unit), ttlSet := true } rest
    else if up = ascii "NX" then
      if o.mode ≠ .always then .error syntaxError else setOptions t { o with mode := .nx } rest
    else if up = ascii "XX" then
      if o.mode ≠ .always then .error syntaxError else setOptions t { o with mode := .xx } rest
    else .error syntaxError

/-- Log the absolute form of a relative deadline, from a reading of its own. -/
def propagateDeadline (key : Bytes) (ttl : Int) : Handler Unit := do
  let t ← Handler.now
  Handler.propagateCmd "PEXPIREAT" [key, formatInt (unixMilli t ttl)]

def storeSet (key val : Bytes) (o : SetOptions) : Handler Outcome := do
  if ← Handler.set key val o.ttl o.mode then
    Handler.propagateCmd "SET" [key, val]
    onlyIf o.ttlSet (propagateDeadline key o.ttl)
    ok okText
  else ok .null

def hSet (h : Host) (args : List Bytes) : Handler Outcome :=
  match setOptions h.cases ⟨0, false, .always⟩ (args.drop 2) with
  | .error msg => fail msg
  | .ok o => storeSet (arg args 0) (arg args 1) o

def hGet (args : List Bytes) : Handler Outcome := do ok (bulkOrNull (← Handler.get (arg args 0)))

def hDel (args : List Bytes) : Handler Outcome := do
  let n ← Handler.del args
  onlyIf (n > 0) (Handler.propagateCmd "DEL" args)
  ok (.integer n)

def hExists (args : List Bytes) : Handler Outcome := do ok (.integer (← Handler.existsKeys args))

/-- The four counter commands differ in the increment and in what they log. -/
def addTo (name : String) (logged : List Bytes) (key : Bytes) (delta : Int) : Handler Outcome := do
  match ← Handler.incrBy key delta with
  | .error e => fail e.text
  | .ok n =>
    Handler.propagateCmd name logged
    ok (.integer n)

def hIncr (args : List Bytes) : Handler Outcome := addTo "INCR" [arg args 0] (arg args 0) 1

def hDecr (args : List Bytes) : Handler Outcome := addTo "DECR" [arg args 0] (arg args 0) (-1)

def hIncrBy (args : List Bytes) : Handler Outcome :=
  match parseInt (arg args 1) with
  | none => fail notInteger
  | some delta => addTo "INCRBY" [arg args 0, arg args 1] (arg args 0) delta

def hDecrBy (args : List Bytes) : Handler Outcome :=
  match parseInt (arg args 1) with
  | none => fail notInteger
  | some delta => addTo "DECRBY" [arg args 0, arg args 1] (arg args 0) (wrap64 (-delta))

def hAppend (args : List Bytes) : Handler Outcome := do
  match ← Handler.append (arg args 0) (arg args 1) with
  | .error e => fail e.text
  | .ok n =>
    Handler.propagateCmd "APPEND" [arg args 0, arg args 1]
    ok (.integer n)

def hType (args : List Bytes) : Handler Outcome := do ok (.simple (← Handler.typeOf (arg args 0)))

/-- `hExpire` and `hPExpire`; a positive product may have wrapped around. -/
def expireIn (unit : Int) (args : List Bytes) : Handler Outcome :=
  match parseInt (arg args 1) with
  | none => fail notInteger
  | some n =>
    if n ≤ 0 then hDel [arg args 0]
    else do
      if ← Handler.expire (arg args 0) (wrap64 (n * unit)) then
        propagateDeadline (arg args 0) (wrap64 (n * unit))
        ok (.integer 1)
      else ok (.integer 0)

def hExpire (args : List Bytes) : Handler Outcome := expireIn second args

def hPExpire (args : List Bytes) : Handler Outcome := expireIn millisecond args

def hExpireAt (args : List Bytes) : Handler Outcome :=
  match parseInt (arg args 1) with
  | none => fail notInteger
  | some ts => do
    if ← Handler.expireAt (arg args 0) ts then
      Handler.propagateCmd "PEXPIREAT" [arg args 0, formatInt (wrap64 (ts * 1000))]
      ok (.integer 1)
    else ok (.integer 0)

def hPExpireAt (args : List Bytes) : Handler Outcome :=
  match parseInt (arg args 1) with
  | none => fail notInteger
  | some ms => do
    if ← Handler.expireAtMs (arg args 0) ms then
      Handler.propagateCmd "PEXPIREAT" [arg args 0, arg args 1]
      ok (.integer 1)
    else ok (.integer 0)

def hPersist (args : List Bytes) : Handler Outcome := do
  if ← Handler.persist (arg args 0) then
    Handler.propagateCmd "PERSIST" [arg args 0]
    ok (.integer 1)
  else ok (.integer 0)

def setAll : List (Bytes × Bytes) → Handler Unit
  | [] => .pure ()
  | p :: pairs => do
    let _ ← Handler.set p.1 p.2 0 .always
    setAll pairs

def pairsOf : List Bytes → List (Bytes × Bytes)
  | key :: val :: args => (key, val) :: pairsOf args
  | _ => []

def hMSet (args : List Bytes) : Handler Outcome :=
  if args.length % 2 ≠ 0 then fail (ascii "wrong number of arguments for 'mset' command")
  else do
    setAll (pairsOf args)
    Handler.propagateCmd "MSET" args
    ok okText

def hMSetNX (args : List Bytes) : Handler Outcome :=
  if args.length % 2 ≠ 0 then fail (ascii "wrong number of arguments for 'msetnx' command")
  else do
    if ← Handler.setNXMulti (pairsOf args) then
      Handler.propagateCmd "MSET" args
      ok (.integer 1)
    else ok (.integer 0)

def hGetSet (args : List Bytes) : Handler Outcome := do
  let old ← Handler.getSet (arg args 0) (arg args 1)
  Handler.propagateCmd "SET" [arg args 0, arg args 1]
  ok (bulkOrNull old)

def hSetNX (args : List Bytes) : Handler Outcome := do
  if ← Handler.set (arg args 0) (arg args 1) 0 .nx then
    Handler.propagateCmd "SET" [arg args 0, arg args 1]
    ok (.integer 1)
  else ok (.integer 0)

def hFlushDB (_ : List Bytes) : Handler Outcome := do
  Handler.flush
  Handler.propagateCmd "FLUSHDB" []
  ok okText

/-- Round to a 53-bit significand, to nearest and ties to even. -/
def roundF64 (q : ℚ) : ℚ :=
  let ulp : ℚ := 2 ^ (Int.log 2 |q| - 52)
  let m := ⌊q / ulp⌋
  let frac := q / ulp - m
  if q = 0 then 0
  else if frac < 1 / 2 ∨ frac = 1 / 2 ∧ m % 2 = 0 then m * ulp
  else (m + 1) * ulp

def seconds (d : Int) : ℚ := roundF64 (roundF64 (d.tdiv second) + roundF64 (d.tmod second / 10 ^ 9))

def hTTL (args : List Bytes) : Handler Outcome := do
  match ← Handler.ttl (arg args 0) with
  | none => ok (.integer (-2))
  | some rem =>
    if rem < 0 then ok (.integer (-1))
    else ok (.integer (max 1 ⌈seconds rem⌉))

def hSelect (args : List Bytes) : Handler Outcome :=
  if parseInt (arg args 0) = some 0 then ok okText else fail (ascii "DB index is out of range")

def infoLine (name : String) (val : Bytes) : Bytes := ascii name ++ (ascii ":" ++ (val ++ crlf))

def hInfo (h : Host) (_ : List Bytes) : Handler Outcome := do
  let n ← Handler.len
  ok (.bulk (ascii "# Server\r\n" ++ infoLine "mem-x_version" (ascii "0.1.0") ++
    infoLine "redis_version" (ascii "7.0.0") ++ infoLine "os" h.goos ++ infoLine "arch" h.goarch ++
    ascii "# Clients\r\n" ++ infoLine "connected_clients" (formatInt h.connectedClients) ++
    ascii "# Stats\r\n" ++ infoLine "total_commands_processed" (formatInt h.totalCommands) ++
    infoLine "total_keys" (formatInt n) ++ infoLine "uptime_in_seconds" (formatInt h.uptime)))

def hCommand (_ : List Bytes) : Handler Outcome := ok (.array [])

def quoted (b : Bytes) : Bytes := ascii "'" ++ (b ++ ascii "'")

def hClient (h : Host) (args : List Bytes) : Handler Outcome :=
  let sub := toUpper h.cases (arg args 0)
  if sub = ascii "SETINFO" ∨ sub = ascii "SETNAME" then ok okText
  else if sub = ascii "GETNAME" then ok .null
  else if sub = ascii "ID" then ok (.integer 1)
  else fail (ascii "unknown subcommand " ++ (quoted (arg args 0) ++ ascii " for 'client' command"))

def getAll : List Bytes → Handler (List Reply)
  | [] => .pure []
  | key :: keys => do
    let v ← Handler.get key
    let rest ← getAll keys
    .pure (bulkOrNull v :: rest)

def hMGet (args : List Bytes) : Handler Outcome := do ok (.array (← getAll args))

def hStrLen (args : List Bytes) : Handler Outcome := do
  match ← Handler.get (arg args 0) with
  | some v => ok (.integer v.length)
  | none => ok (.integer 0)

def hKeys (args : List Bytes) : Handler Outcome := do
  let ks ← Handler.keys (arg args 0)
  ok (.array (ks.map .bulk))

/-- The option loop of `hScan`: the last pattern given counts, and the count
is only checked. -/
def scanOptions (t : CaseTable) (pattern : Bytes) : List Bytes → Except Bytes Bytes
  | [] => .ok pattern
  | opt :: rest =>
    let up := toUpper t opt
    if up = ascii "MATCH" then
      match rest with
      | [] => .error syntaxError
      | p :: rest => scanOptions t p rest
    else if up = ascii "COUNT" then
      match rest with
      | [] => .error syntaxError
      | v :: rest =>
        match parseInt v with
        | none => .error notInteger
        | some n => if n < 0 then .error notInteger else scanOptions t pattern rest
    else .error syntaxError

def hScan (h : Host) (args : List Bytes) : Handler Outcome :=
  match parseInt (arg args 0) with
  | none => fail (ascii "invalid cursor")
  | some cursor =>
    if cursor < 0 then fail (ascii "invalid cursor")
    else
      match scanOptions h.cases [] (args.drop 1) with
      | .error msg => fail msg
      | .ok pattern => do
        let r ← Handler.scan cursor pattern
        ok (.array [.bulk (formatNat r.1), .array (r.2.map .bulk)])

end MemX.CommandHandlers
