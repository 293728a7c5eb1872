import MemX.StoreGlob
import MemX.StoreRules

namespace MemX.StoreOps

open MachineInt DecimalText Clock StoreState StoreRules

variable {c : Config} {α : Type}

def lookup (s : Store c) (key : Bytes) : Option Entry := (s.shards (shardIndex c key)).lookup key

def write (s : Store c) (key : Bytes) (w : Write) : Store c :=
  let s := onShard s (shardIndex c key) (AList.insert key w.entry)
  if w.track then pushExpiry s key w.entry.expireAt else s

def create (s : Store c) (key : Bytes) : Option Write → Store c
  | none => s
  | some w => addCount (write s key w) 1

def apply (s : Store c) (key : Bytes) : Effect → Store c
  | .keep => s
  | .purge => purge s (shardIndex c key) key
  | .put w => write s key w

/-- The body shared by every single-key method: look the key up in its shard,
purge it when its deadline has passed, and go on with the operation. -/
def onKey (op : KeyOp α) (s : Store c) (now : Readings) (key : Bytes) : α × Store c :=
  match lookup s key with
  | none => ((op.absent (now 1)).1, create s key (op.absent (now 1)).2)
  | some e =>
    if expired (now 0) e then
      ((op.absent (now 1)).1, create (purge s (shardIndex c key) key) key (op.absent (now 1)).2)
    else ((op.present (now 1) e).1, apply s key (op.present (now 1) e).2)

def delKeys (s : Store c) (now : Readings) : List Bytes → Nat × Store c
  | [] => (0, s)
  | key :: keys =>
    let (existed, s) := onKey del s now key
    let (n, s) := delKeys s (later 2 now) keys
    ((if existed then 1 else 0) + n, s)

/-- `Exists` takes the read lock only, so an expired entry stays. -/
def existsKey (s : Store c) (now : Readings) (key : Bytes) : Bool :=
  match lookup s key with
  | none => false
  | some e => !expired (now 0) e

def existsKeys (s : Store c) (now : Readings) : List Bytes → Nat
  | [] => 0
  | key :: keys => (if existsKey s now key then 1 else 0) + existsKeys s (later 1 now) keys

def typeOf (s : Store c) (now : Readings) (key : Bytes) : Bytes × Store c :=
  match onKey get s now key with
  | (some _, s) => (ascii "string", s)
  | (none, s) => (ascii "none", s)

def clearShards (s : Store c) : Store c := { s with shards := fun _ => ∅, count := 0 }

def clearHeap (s : Store c) : Store c := { s with exp := MinQueue.empty }

def flush (s : Store c) : Store c := clearHeap (clearShards s)

/-- The first loop of `SetNXMulti`: purge what has expired, stop at a live key. -/
def checkAbsent (s : Store c) (now : Readings) : List (Bytes × Bytes) → Bool × Store c
  | [] => (true, s)
  | p :: pairs =>
    match lookup s p.1 with
    | none => checkAbsent s (later 1 now) pairs
    | some e =>
      if expired (now 0) e then checkAbsent (purge s (shardIndex c p.1) p.1) (later 1 now) pairs
      else (false, s)

def putAll (s : Store c) : List (Bytes × Bytes) → Store c
  | [] => s
  | p :: pairs => putAll (addCount (write s p.1 (plain p.2)) 1) pairs

def setNXMulti (s : Store c) (now : Readings) (pairs : List (Bytes × Bytes)) : Bool × Store c :=
  match checkAbsent s now pairs with
  | (true, s) => (true, putAll s pairs)
  | (false, s) => (false, s)

def purgeDue (s : Store c) (d : ExpEntry) : Store c :=
  let i := shardForString c d.key
  match (s.shards i).lookup d.key with
  | some cur => if cur.expireAt = d.deadline then purge s i d.key else s
  | none => s

def popDue (s : Store c) (now : Instant) : List ExpEntry × Store c :=
  (MinQueue.due now.nanos s.exp, { s with exp := MinQueue.rest now.nanos s.exp })

def sweep (s : Store c) (now : Instant) : Store c :=
  let (due, s) := popDue s now
  due.foldl purgeDue s

/-- The keys of one shard's entries that are live and match, read in the
order of the map. An empty pattern matches everything. -/
def liveKeys (pattern : Bytes) (now : Readings) : List (Sigma fun _ : Bytes => Entry) → List Bytes
  | [] => []
  | e :: es =>
    if expired (now 0) e.2 then liveKeys pattern (later 1 now) es
    else if pattern = [] || StoreGlob.globMatch pattern e.1 then
      e.1 :: liveKeys pattern (later 1 now) es
    else liveKeys pattern (later 1 now) es

def shardKeys (s : Store c) (now : Readings) (pattern : Bytes) (i : Fin c.shardCount) : List Bytes :=
  liveKeys pattern now (s.shards i).entries

def keysFrom (s : Store c) (pattern : Bytes) (now : Readings) : List (Fin c.shardCount) → List Bytes
  | [] => []
  | i :: is =>
    shardKeys s now pattern i ++ keysFrom s pattern (later (s.shards i).entries.length now) is

def keys (s : Store c) (now : Readings) (pattern : Bytes) : List Bytes :=
  keysFrom s pattern now (List.finRange c.shardCount)

/-- The shard a cursor selects: cursors are 1-based, and one outside the
range starts over. -/
def scanIndex (c : Config) (cursor : Int) : Fin c.shardCount :=
  if h : cursor ≤ 0 ∨ cursor > c.shardCount then ⟨0, c.pos⟩
  else ⟨(cursor - 1).toNat, by omega⟩

def scanNext (c : Config) (i : Fin c.shardCount) : Nat :=
  if i.val + 1 ≥ c.shardCount then 0 else i.val + 2

/-- `Scan`; its count argument is a hint that the source never uses. -/
def scan (s : Store c) (now : Readings) (cursor : Int) (pattern : Bytes) : Nat × List Bytes :=
  (scanNext c (scanIndex c cursor), shardKeys s now pattern (scanIndex c cursor))

end MemX.StoreOps
