import MemX.Clock
import MemX.DecimalText
import MemX.MinQueue

namespace MemX.StoreState

open MachineInt DecimalText Clock

/-- A stored value with its deadline in Unix nanoseconds, 0 for no expiry. -/
structure Entry where
  val : Bytes
  expireAt : Int
deriving DecidableEq

structure ExpEntry where
  deadline : Int
  key : Bytes
deriving DecidableEq

/-- The two entry points of one seeded hash. The library documents that
hashing a byte slice and hashing the same bytes as a string agree. -/
structure Maphash where
  bytes : Bytes → UInt64
  string : Bytes → UInt64
  agree : ∀ b, bytes b = string b

def nextPow2Loop : Nat → Nat → Nat → Nat
  | 0, p, _ => p
  | fuel + 1, p, n => if p < n then nextPow2Loop fuel (2 * p) n else p

def nextPow2 (n : Nat) : Nat := nextPow2Loop n 1 n

def clamp (n lo hi : Int) : Int := if n < lo then lo else if n > hi then hi else n

structure Config where
  shardCount : Nat
  pos : 0 < shardCount
  hash : Maphash
  maxValLen : Int

theorem nextPow2Loop_pos (fuel p n : Nat) (hp : 0 < p) : 0 < nextPow2Loop fuel p n := by
  induction fuel generalizing p with
  | zero => exact hp
  | succ fuel ih =>
    unfold nextPow2Loop
    split
    · exact ih (2 * p) (by omega)
    · exact hp

/-- `New` with `WithShards(shards)` and `WithMaxValueLen(maxValLen)`; values
that are not positive keep the defaults. -/
def newConfig (gomaxprocs shards maxValLen : Int) (hash : Maphash) : Config where
  shardCount := if shards ≤ 0 then nextPow2 (clamp gomaxprocs 8 256).toNat else nextPow2 shards.toNat
  pos := by
    split <;> exact nextPow2Loop_pos _ 1 _ (by omega)
  hash := hash
  maxValLen := if maxValLen > 0 then maxValLen else 536870912

def flatHash : Maphash := ⟨fun _ => 0, fun _ => 0, fun _ => rfl⟩

def twoShards : Config := newConfig 8 2 0 flatHash

abbrev ShardMap := AList (fun _ : Bytes => Entry)

abbrev ExpHeap := MinQueue.Queue ExpEntry ExpEntry.deadline

structure Store (c : Config) where
  shards : Fin c.shardCount → ShardMap
  count : Int
  exp : ExpHeap

variable {c : Config}

def new (c : Config) : Store c := ⟨fun _ => ∅, 0, MinQueue.empty⟩

theorem mask_lt (c : Config) (h : UInt64) : h.toNat &&& (c.shardCount - 1) < c.shardCount := by
  have hp := c.pos
  have hm : h.toNat &&& (c.shardCount - 1) ≤ c.shardCount - 1 := Nat.and_le_right
  omega

def shardIndex (c : Config) (key : Bytes) : Fin c.shardCount :=
  ⟨(c.hash.bytes key).toNat &&& (c.shardCount - 1), mask_lt c _⟩

def shardForString (c : Config) (key : Bytes) : Fin c.shardCount :=
  ⟨(c.hash.string key).toNat &&& (c.shardCount - 1), mask_lt c _⟩

theorem shardForString_eq (c : Config) (key : Bytes) : shardForString c key = shardIndex c key := by
  simp only [shardForString, shardIndex, c.hash.agree]

def expired (now : Instant) (e : Entry) : Bool := e.expireAt != 0 && decide (now.nanos ≥ e.expireAt)

def onShard (s : Store c) (i : Fin c.shardCount) (f : ShardMap → ShardMap) : Store c :=
  { s with shards := Function.update s.shards i (f (s.shards i)) }

def addCount (s : Store c) (n : Int) : Store c := { s with count := s.count + n }

def purge (s : Store c) (i : Fin c.shardCount) (key : Bytes) : Store c :=
  addCount (onShard s i (AList.erase key)) (-1)

def pushExpiry (s : Store c) (key : Bytes) (deadline : Int) : Store c :=
  { s with exp := MinQueue.push ⟨deadline, key⟩ s.exp }

def Len (s : Store c) : Int := s.count

end MemX.StoreState
