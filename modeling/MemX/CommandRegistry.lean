import MemX.CommandHandlers

namespace MemX.CommandRegistry

open DecimalText StoreState CommandProgram CommandHandlers RespWrite TextCase

structure Command where
  name : String
  minArgs : Nat
  maxArgs : Option Nat
  write : Bool
  handler : List Bytes → Handler Outcome

def commands (h : Host) : List Command :=
  [ ⟨"ping", 0, some 1, false, hPing⟩,
    ⟨"echo", 1, some 1, false, hEcho⟩,
    ⟨"set", 2, none, true, hSet h⟩,
    ⟨"get", 1, some 1, false, hGet⟩,
    ⟨"del", 1, none, true, hDel⟩,
    ⟨"exists", 1, none, false, hExists⟩,
    ⟨"incr", 1, some 1, true, hIncr⟩,
    ⟨"decr", 1, some 1, true, hDecr⟩,
    ⟨"append", 2, some 2, true, hAppend⟩,
    ⟨"type", 1, some 1, false, hType⟩,
    ⟨"expire", 2, some 2, true, hExpire⟩,
    ⟨"pexpire", 2, some 2, true, hPExpire⟩,
    ⟨"expireat", 2, some 2, true, hExpireAt⟩,
    ⟨"pexpireat", 2, some 2, true, hPExpireAt⟩,
    ⟨"persist", 1, some 1, true, hPersist⟩,
    ⟨"ttl", 1, some 1, false, hTTL⟩,
    ⟨"flushdb", 0, some 0, true, hFlushDB⟩,
    ⟨"select", 1, some 1, false, hSelect⟩,
    ⟨"info", 0, some 0, false, hInfo h⟩,
    ⟨"command", 0, some 0, false, hCommand⟩,
    ⟨"client", 1, none, false, hClient h⟩,
    ⟨"mget", 1, none, false, hMGet⟩,
    ⟨"mset", 2, none, true, hMSet⟩,
    ⟨"msetnx", 2, none, true, hMSetNX⟩,
    ⟨"getset", 2, some 2, true, hGetSet⟩,
    ⟨"setnx", 2, some 2, true, hSetNX⟩,
    ⟨"strlen", 1, some 1, false, hStrLen⟩,
    ⟨"incrby", 2, some 2, true, hIncrBy⟩,
    ⟨"decrby", 2, some 2, true, hDecrBy⟩,
    ⟨"keys", 1, some 1, false, hKeys⟩,
    ⟨"scan", 1, none, false, hScan h⟩ ]

/-- `lowerString`: only an ASCII capital makes the parser lower a name. -/
def lowerString (t : CaseTable) (b : Bytes) : Bytes :=
  if b.any (fun x => 65 ≤ x && x ≤ 90) then toLower t b else b

structure Parsed where
  name : Bytes
  args : List Bytes

def parse (t : CaseTable) : List Bytes → Option Parsed
  | [] => none
  | tok :: args => if lowerString t tok = [] then none else some ⟨lowerString t tok, args⟩

def preview (a : Bytes) : Bytes := quoted (a.take 128)

def unknownCommand (name : Bytes) (args : List Bytes) : Bytes :=
  let msg := ascii "ERR unknown command " ++ quoted name
  match args with
  | [] => msg
  | _ => msg ++ (ascii ", with args beginning with: " ++ (ascii ", ").intercalate ((args.take 3).map preview))

def Command.accepts (cmd : Command) (n : Nat) : Bool := cmd.minArgs ≤ n && cmd.maxArgs.all (n ≤ ·)

def reply : Outcome → Reply
  | .ok r => r
  | .error msg => .error (ascii "ERR " ++ msg)

def findCommand (h : Host) (name : Bytes) : Option Command := (commands h).find? (ascii ·.name = name)

/-- What `Execute` does with a command line before it runs a handler: either
the reply is settled, or a command of the table is to run. -/
inductive Dispatch
  | refuse (r : Reply)
  | run (cmd : Command) (args : List Bytes)

def dispatch (h : Host) (tokens : List Bytes) : Dispatch :=
  match parse h.cases tokens with
  | none => .refuse (.error (ascii "ERR empty command"))
  | some p =>
    match findCommand h p.name with
    | none => .refuse (.error (unknownCommand p.name p.args))
    | some cmd =>
      if cmd.accepts p.args.length then .run cmd p.args
      else .refuse (.error (ascii "ERR wrong number of arguments for " ++ (quoted p.name ++ ascii " command")))

/-- `Execute`, apart from `writeMu` and the propagator's absence: the first is
a matter of scheduling, and without a propagator the log is dropped. -/
def execute (h : Host) (tokens : List Bytes) : Handler Reply :=
  match dispatch h tokens with
  | .refuse r => .pure r
  | .run cmd args => do .pure (reply (← cmd.handler args))

def isWrite (h : Host) (tokens : List Bytes) : Bool :=
  match dispatch h tokens with
  | .refuse _ => false
  | .run cmd _ => cmd.write

end MemX.CommandRegistry
