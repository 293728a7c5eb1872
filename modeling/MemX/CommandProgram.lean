import MemX.StoreOps

namespace MemX.CommandProgram

open MachineInt DecimalText Clock StoreState StoreRules

/-- The critical sections of the store that command handlers run, one for
each piece of a store method that holds its locks throughout. -/
inductive Section
  | get (key : Bytes)
  | set (key val : Bytes) (ttl : Int) (mode : SetMode)
  | del (key : Bytes)
  | existsKey (key : Bytes)
  | incrBy (key : Bytes) (delta : Int)
  | append (key suffix : Bytes)
  | expire (key : Bytes) (ttl : Int)
  | expireAt (key : Bytes) (unixSeconds : Int)
  | expireAtMs (key : Bytes) (unixMs : Int)
  | remaining (key : Bytes)
  | persist (key : Bytes)
  | getSet (key val : Bytes)
  | setNXMulti (pairs : List (Bytes × Bytes))
  | clearShards
  | clearHeap
  | shardKeys (i : Nat) (pattern : Bytes)
  | shardCount
  | len
  | now

def Section.Result : Section → Type
  | .get _ => Option Bytes
  | .set _ _ _ _ => Bool
  | .del _ => Bool
  | .existsKey _ => Bool
  | .incrBy _ _ => Except StoreError Int
  | .append _ _ => Except StoreError Nat
  | .expire _ _ => Bool
  | .expireAt _ _ => Bool
  | .expireAtMs _ _ => Bool
  | .remaining _ => Option Int
  | .persist _ => Bool
  | .getSet _ _ => Option Bytes
  | .setNXMulti _ => Bool
  | .clearShards => Unit
  | .clearHeap => Unit
  | .shardKeys _ _ => List Bytes
  | .shardCount => Nat
  | .len => Int
  | .now => Instant

variable {c : Config} {α β : Type}

open StoreOps in
def Section.exec (s : Store c) (now : Readings) : (a : Section) → a.Result × Store c
  | .get key => onKey StoreRules.get s now key
  | .set key val ttl mode => onKey (StoreRules.set val ttl mode) s now key
  | .del key => onKey StoreRules.del s now key
  | .existsKey key => (StoreOps.existsKey s now key, s)
  | .incrBy key delta => onKey (StoreRules.incrBy delta) s now key
  | .append key suffix => onKey (StoreRules.append c.maxValLen suffix) s now key
  | .expire key ttl => onKey (StoreRules.expire ttl) s now key
  | .expireAt key secs => onKey (StoreRules.expireAt secs) s now key
  | .expireAtMs key ms => onKey (StoreRules.expireAtMs ms) s now key
  | .remaining key => onKey StoreRules.ttl s now key
  | .persist key => onKey StoreRules.persist s now key
  | .getSet key val => onKey (StoreRules.getSet val) s now key
  | .setNXMulti pairs => StoreOps.setNXMulti s now pairs
  | .clearShards => ((), StoreOps.clearShards s)
  | .clearHeap => ((), StoreOps.clearHeap s)
  | .shardKeys i pattern =>
    (if h : i < c.shardCount then StoreOps.shardKeys s now pattern ⟨i, h⟩ else [], s)
  | .shardCount => (c.shardCount, s)
  | .len => (Len s, s)
  | .now => (now 0, s)

def Section.readings (s : Store c) : Section → Nat
  | .setNXMulti pairs => pairs.length
  | .shardKeys i _ => if h : i < c.shardCount then (s.shards ⟨i, h⟩).entries.length else 0
  | .now => 1
  | _ => 2

/-- The sections that change nothing but for the purge of an expired key. -/
def Section.reads : Section → Bool
  | .get _ | .existsKey _ | .remaining _ | .shardKeys _ _ | .shardCount | .len | .now => true
  | _ => false

/-- A command handler: the critical sections it runs and the commands it
propagates, in program order. -/
inductive Handler (α : Type)
  | pure (a : α)
  | call (a : Section) (k : a.Result → Handler α)
  | propagate (cmd : List Bytes) (k : Handler α)

namespace Handler

def bind (h : Handler α) (f : α → Handler β) : Handler β :=
  match h with
  | .pure a => f a
  | .call a k => .call a (fun r => bind (k r) f)
  | .propagate cmd k => .propagate cmd (bind k f)

instance : Monad Handler where
  pure := .pure
  bind := .bind

def run (s : Store c) (now : Readings) : Handler α → α × Store c × List (List Bytes)
  | .pure a => (a, s, [])
  | .call a k => run (a.exec s now).2 (later (a.readings s) now) (k (a.exec s now).1)
  | .propagate cmd k => ((run s now k).1, (run s now k).2.1, cmd :: (run s now k).2.2)

def propagateCmd (name : String) (args : List Bytes) : Handler Unit := .propagate (ascii name :: args) (.pure ())

/-! The methods of the store, as the handlers call them. -/

def get (key : Bytes) : Handler (Option Bytes) := .call (.get key) .pure

def set (key val : Bytes) (ttl : Int) (mode : SetMode) : Handler Bool := .call (.set key val ttl mode) .pure

def incrBy (key : Bytes) (delta : Int) : Handler (Except StoreError Int) := .call (.incrBy key delta) .pure

def append (key suffix : Bytes) : Handler (Except StoreError Nat) := .call (.append key suffix) .pure

def expire (key : Bytes) (ttl : Int) : Handler Bool := .call (.expire key ttl) .pure

def expireAt (key : Bytes) (unixSeconds : Int) : Handler Bool := .call (.expireAt key unixSeconds) .pure

def expireAtMs (key : Bytes) (unixMs : Int) : Handler Bool := .call (.expireAtMs key unixMs) .pure

def ttl (key : Bytes) : Handler (Option Int) := .call (.remaining key) .pure

def persist (key : Bytes) : Handler Bool := .call (.persist key) .pure

def getSet (key val : Bytes) : Handler (Option Bytes) := .call (.getSet key val) .pure

def setNXMulti (pairs : List (Bytes × Bytes)) : Handler Bool := .call (.setNXMulti pairs) .pure

def len : Handler Int := .call .len .pure

def now : Handler Instant := .call .now .pure

def delKey (key : Bytes) : Handler Bool := .call (.del key) .pure

def existsKey (key : Bytes) : Handler Bool := .call (.existsKey key) .pure

def shardKeys (i : Nat) (pattern : Bytes) : Handler (List Bytes) := .call (.shardKeys i pattern) .pure

def shardCount : Handler Nat := .call .shardCount .pure

/-- `Del` locks one shard at a time. -/
def del : List Bytes → Handler Nat
  | [] => .pure 0
  | key :: keys => do
    let existed ← delKey key
    let n ← del keys
    .pure ((if existed then 1 else 0) + n)

def existsKeys : List Bytes → Handler Nat
  | [] => .pure 0
  | key :: keys => do
    let found ← existsKey key
    let n ← existsKeys keys
    .pure ((if found then 1 else 0) + n)

def typeOf (key : Bytes) : Handler Bytes := do
  match ← get key with
  | some _ => .pure (ascii "string")
  | none => .pure (ascii "none")

/-- `Flush` clears the heap after it has released the shards. -/
def flush : Handler Unit := .call .clearShards fun _ => .call .clearHeap fun _ => .pure ()

def keysFrom (pattern : Bytes) (i : Nat) : Nat → Handler (List Bytes)
  | 0 => .pure []
  | n + 1 => do
    let ks ← shardKeys i pattern
    let rest ← keysFrom pattern (i + 1) n
    .pure (ks ++ rest)

def keys (pattern : Bytes) : Handler (List Bytes) := do keysFrom pattern 0 (← shardCount)

def scan (cursor : Int) (pattern : Bytes) : Handler (Nat × List Bytes) := do
  let n ← shardCount
  let start := if cursor ≤ 0 ∨ cursor > n then 1 else cursor
  let idx := (start - 1).toNat
  let ks ← shardKeys idx pattern
  .pure (if idx + 1 ≥ n then 0 else idx + 2, ks)

end Handler

end MemX.CommandProgram
