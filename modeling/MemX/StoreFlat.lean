import MemX.StoreCalls
import MemX.StoreLookup

namespace MemX.StoreFlat

open MachineInt DecimalText Clock StoreState StoreRules StoreLookup StoreCalls

variable {α : Type}

/-- The purpose of a store: one map in which a key is present until the clock
reaches its deadline. -/
abbrev Flat := AList (fun _ : Bytes => Entry)

def vanish (t : Instant) (m : Flat) : Flat :=
  ⟨m.entries.filter (fun e => !expired t e.2), m.nodupKeys.sublist List.filter_sublist⟩

def assign (m : Flat) (key : Bytes) : Option Entry → Flat
  | some e => m.insert key e
  | none => m.erase key

def onKey (op : KeyOp α) (t : Instant) (m : Flat) (key : Bytes) : α × Flat :=
  (answer op t (m.lookup key), assign m key (next op t (m.lookup key)))

def delKeys (m : Flat) : List Bytes → Nat × Flat
  | [] => (0, m)
  | key :: keys =>
    let (n, m') := delKeys (m.erase key) keys
    ((if (m.lookup key).isSome then 1 else 0) + n, m')

def existsKeys (m : Flat) (keys : List Bytes) : Nat :=
  (keys.map (fun key => if (m.lookup key).isSome then 1 else 0)).sum

def putAll (m : Flat) : List (Bytes × Bytes) → Flat
  | [] => m
  | p :: pairs => putAll (m.insert p.1 ⟨p.2, 0⟩) pairs

def setNXMulti (m : Flat) (pairs : List (Bytes × Bytes)) : Bool × Flat :=
  if pairs.any (fun p => (m.lookup p.1).isSome) then (false, m) else (true, putAll m pairs)

def keys (m : Flat) (pattern : Bytes) : List Bytes :=
  m.keys.filter (fun k => pattern = [] || StoreGlob.globMatch pattern k)

/-- A call on the single map, from which the expired keys are gone. -/
def exec (maxValLen : Int) (t : Instant) (m : Flat) : Call → Result × Flat
  | .get key => (onKey get t m key).map .value id
  | .set key val ttl mode => (onKey (set val ttl mode) t m key).map .flag id
  | .del keys => (delKeys m keys).map .count id
  | .existsKeys keys => (.count (existsKeys m keys), m)
  | .incrBy key delta => (onKey (incrBy delta) t m key).map .number id
  | .append key suffix => (onKey (append maxValLen suffix) t m key).map .length id
  | .expire key ttl => (onKey (expire ttl) t m key).map .flag id
  | .expireAt key secs => (onKey (expireAt secs) t m key).map .flag id
  | .expireAtMs key ms => (onKey (expireAtMs ms) t m key).map .flag id
  | .ttl key => (onKey ttl t m key).map .duration id
  | .persist key => (onKey persist t m key).map .flag id
  | .getSet key val => (onKey (getSet val) t m key).map .value id
  | .setNXMulti pairs => (setNXMulti m pairs).map .flag id
  | .flush => (.unit, ∅)
  | .keys pattern => (.names (keys m pattern), m)
  | .typeOf key => (.text (if (m.lookup key).isSome then ascii "string" else ascii "none"), m)

def results (maxValLen : Int) (m : Flat) : List (Call × Instant) → List Result
  | [] => []
  | (a, t) :: calls =>
    (exec maxValLen t (vanish t m) a).1 :: results maxValLen (exec maxValLen t (vanish t m) a).2 calls

theorem lookup_vanish (t : Instant) (m : Flat) (k : Bytes) : (vanish t m).lookup k = live t (m.lookup k) := by
  apply Option.ext
  intro e
  have hv : e ∈ (vanish t m).lookup k ↔ (⟨k, e⟩ : Sigma fun _ : Bytes => Entry) ∈ (vanish t m).entries :=
    List.mem_dlookup_iff (vanish t m).nodupKeys
  have hm : e ∈ m.lookup k ↔ (⟨k, e⟩ : Sigma fun _ : Bytes => Entry) ∈ m.entries :=
    List.mem_dlookup_iff m.nodupKeys
  simp only [Option.mem_def] at hv hm
  rw [hv, live, Option.filter_eq_some_iff, hm]
  simp [vanish]

@[simp] theorem lookup_assign (m : Flat) (key k : Bytes) (e : Option Entry) :
    (assign m key e).lookup k = if k = key then e else m.lookup k := by
  by_cases hk : k = key
  · subst k
    cases e <;> simp [assign]
  · cases e <;> simp [assign, hk]

end MemX.StoreFlat
