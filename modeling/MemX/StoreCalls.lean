import MemX.StoreOps

namespace MemX.StoreCalls

open MachineInt DecimalText Clock StoreState StoreRules StoreOps

inductive Call
  | get (key : Bytes)
  | set (key val : Bytes) (ttl : Int) (mode : SetMode)
  | del (keys : List Bytes)
  | existsKeys (keys : List Bytes)
  | incrBy (key : Bytes) (delta : Int)
  | append (key suffix : Bytes)
  | expire (key : Bytes) (ttl : Int)
  | expireAt (key : Bytes) (unixSeconds : Int)
  | expireAtMs (key : Bytes) (unixMs : Int)
  | ttl (key : Bytes)
  | persist (key : Bytes)
  | getSet (key val : Bytes)
  | setNXMulti (pairs : List (Bytes × Bytes))
  | flush
  | keys (pattern : Bytes)
  | typeOf (key : Bytes)

/-- A step of a sequential run: a client's call, or the active sweeper. -/
inductive Step
  | call (a : Call)
  | sweep

inductive Result
  | value (v : Option Bytes)
  | flag (b : Bool)
  | count (n : Nat)
  | number (r : Except StoreError Int)
  | length (r : Except StoreError Nat)
  | duration (d : Option Int)
  | text (t : Bytes)
  | names (ks : List Bytes)
  | unit

variable {c : Config}

def exec (s : Store c) (now : Readings) : Call → Result × Store c
  | .get key => (onKey get s now key).map .value id
  | .set key val ttl mode => (onKey (set val ttl mode) s now key).map .flag id
  | .del keys => (delKeys s now keys).map .count id
  | .existsKeys keys => (.count (existsKeys s now keys), s)
  | .incrBy key delta => (onKey (incrBy delta) s now key).map .number id
  | .append key suffix => (onKey (append c.maxValLen suffix) s now key).map .length id
  | .expire key ttl => (onKey (expire ttl) s now key).map .flag id
  | .expireAt key secs => (onKey (expireAt secs) s now key).map .flag id
  | .expireAtMs key ms => (onKey (expireAtMs ms) s now key).map .flag id
  | .ttl key => (onKey ttl s now key).map .duration id
  | .persist key => (onKey persist s now key).map .flag id
  | .getSet key val => (onKey (getSet val) s now key).map .value id
  | .setNXMulti pairs => (setNXMulti s now pairs).map .flag id
  | .flush => (.unit, flush s)
  | .keys pattern => (.names (keys s now pattern), s)
  | .typeOf key => (typeOf s now key).map .text id

def step (s : Store c) (now : Readings) : Step → Store c
  | .call a => (exec s now a).2
  | .sweep => sweep s (now 0)

def run (s : Store c) (steps : List (Step × Readings)) : Store c :=
  steps.foldl (fun s st => step s st.2 st.1) s

@[simp] theorem run_nil (s : Store c) : run s [] = s := rfl

@[simp] theorem run_cons (s : Store c) (st : Step × Readings) (steps : List (Step × Readings)) :
    run s (st :: steps) = run (step s st.2 st.1) steps := rfl

theorem run_concat (s : Store c) (steps : List (Step × Readings)) (st : Step × Readings) :
    run s (steps ++ [st]) = step (run s steps) st.2 st.1 := by
  simp [run]

theorem typeOf_snd (s : Store c) (now : Readings) (key : Bytes) :
    (typeOf s now key).2 = (onKey StoreRules.get s now key).2 := by
  unfold typeOf
  split <;> simp_all

end MemX.StoreCalls
