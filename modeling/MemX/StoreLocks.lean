import MemX.CommandProgram
import MemX.LockProgram
import MemX.StoreCalls

namespace MemX.StoreLocks

open DecimalText Clock StoreState StoreRules CommandProgram LockProgram
open LockProgram.Prog (acquire release)

variable {c : Config} {α : Type}

/-- The locks of a server: `writeMu` of the registry, one for each shard,
`expMu` of the expiry heap, and the one inside the append-only file. -/
inductive Lock (c : Config)
  | writeMu
  | shard (i : Fin c.shardCount)
  | expMu
  | aofMu
deriving DecidableEq

/-- One access to what the goroutines share: a map operation, an atomic
operation on the counter, an operation on the heap, or a record for the log.
The loop of `sweep` that pops what is due, and the iteration over a map, are
one access each. -/
inductive Access (c : Config)
  | lookup (i : Fin c.shardCount) (key : Bytes)
  | insert (i : Fin c.shardCount) (key : Bytes) (e : Entry)
  | erase (i : Fin c.shardCount) (key : Bytes)
  | clear (i : Fin c.shardCount)
  | entries (i : Fin c.shardCount)
  | addCount (n : Int)
  | storeCount (n : Int)
  | loadCount
  | push (d : ExpEntry)
  | popDue (now : Instant)
  | dropHeap
  | record (cmd : List Bytes)

def Access.Answer : Access c → Type
  | .lookup _ _ => Option Entry
  | .entries _ => List (Sigma fun _ : Bytes => Entry)
  | .loadCount => Int
  | .popDue _ => List ExpEntry
  | _ => Unit

structure Memory (c : Config) where
  store : Store c
  log : List (List Bytes)

def Memory.on (m : Memory c) (f : Store c → Store c) : Memory c := { m with store := f m.store }

def perform : (a : Access c) → Memory c → a.Answer × Memory c
  | .lookup i key, m => ((m.store.shards i).lookup key, m)
  | .insert i key e, m => ((), m.on fun s => onShard s i (AList.insert key e))
  | .erase i key, m => ((), m.on fun s => onShard s i (AList.erase key))
  | .clear i, m => ((), m.on fun s => onShard s i fun _ => ∅)
  | .entries i, m => ((m.store.shards i).entries, m)
  | .addCount n, m => ((), m.on fun s => StoreState.addCount s n)
  | .storeCount n, m => ((), m.on fun s => { s with count := n })
  | .loadCount, m => (m.store.count, m)
  | .push d, m => ((), m.on fun s => pushExpiry s d.key d.deadline)
  | .popDue now, m => ((StoreOps.popDue m.store now).1, m.on fun s => (StoreOps.popDue s now).2)
  | .dropHeap, m => ((), m.on StoreOps.clearHeap)
  | .record cmd, m => ((), { m with log := m.log ++ [cmd] })

abbrev Op (c : Config) := Prog (Lock c) (Access.Answer (c := c))

def lookup (i : Fin c.shardCount) (key : Bytes) : Op c (Option Entry) := .act (.lookup i key) .done

def entries (i : Fin c.shardCount) : Op c (List (Sigma fun _ : Bytes => Entry)) := .act (.entries i) .done

def loadCount : Op c Int := .act .loadCount .done

def popDue (now : Instant) : Op c (List ExpEntry) := .act (.popDue now) .done

def effect (a : Access c) : Op c Unit := .act a fun _ => .done ()

def purge (i : Fin c.shardCount) (key : Bytes) : Op c Unit := do
  effect (.erase i key)
  effect (.addCount (-1))

def pushExpiry (key : Bytes) (deadline : Int) : Op c Unit := do
  acquire .write .expMu
  effect (.push ⟨deadline, key⟩)
  release .write .expMu

def track (key : Bytes) (w : Write) : Op c Unit := if w.track then pushExpiry key w.entry.expireAt else pure ()

def write (i : Fin c.shardCount) (key : Bytes) (w : Write) : Op c Unit := do
  effect (.insert i key w.entry)
  track key w

def create (i : Fin c.shardCount) (key : Bytes) : Option Write → Op c Unit
  | none => pure ()
  | some w => do
    effect (.insert i key w.entry)
    effect (.addCount 1)
    track key w

def apply (i : Fin c.shardCount) (key : Bytes) : Effect → Op c Unit
  | .keep => pure ()
  | .purge => purge i key
  | .put w => write i key w

/-- The body of a single-key method under the lock of its shard. -/
def keyBody (op : KeyOp α) (now : Readings) (i : Fin c.shardCount) (key : Bytes) : Option Entry → Op c α
  | none => do
    create i key (op.absent (now 1)).2
    pure (op.absent (now 1)).1
  | some e =>
    if expired (now 0) e then do
      purge i key
      create i key (op.absent (now 1)).2
      pure (op.absent (now 1)).1
    else do
      apply i key (op.present (now 1) e).2
      pure (op.present (now 1) e).1

def onKey (op : KeyOp α) (now : Readings) (key : Bytes) : Op c α := do
  let i := shardIndex c key
  acquire .write (.shard i)
  let r ← keyBody op now i key (← lookup i key)
  release .write (.shard i)
  pure r

def existsKey (now : Readings) (key : Bytes) : Op c Bool := do
  let i := shardIndex c key
  acquire .read (.shard i)
  let e ← lookup i key
  release .read (.shard i)
  pure (e.any fun e => !expired (now 0) e)

def lockAll : List (Fin c.shardCount) → Op c Unit
  | [] => pure ()
  | i :: is => do
    acquire .write (.shard i)
    lockAll is

def taken (is : List (Fin c.shardCount)) : List (Lock c × Mode) := is.reverse.map fun i => (.shard i, .write)

theorem taken_cons (i : Fin c.shardCount) (is : List (Fin c.shardCount)) (held : List (Lock c × Mode)) :
    taken (i :: is) ++ held = taken is ++ (.shard i, .write) :: held := by
  simp [taken]

def unlockAll : List (Fin c.shardCount) → Op c Unit
  | [] => pure ()
  | i :: is => do
    release .write (.shard i)
    unlockAll is

/-- The shards of a batch in the order of their first use. -/
def collect (c : Config) (idxs : List (Fin c.shardCount)) : List (Bytes × Bytes) → List (Fin c.shardCount)
  | [] => idxs
  | p :: pairs =>
    if shardIndex c p.1 ∈ idxs then collect c idxs pairs else collect c (idxs ++ [shardIndex c p.1]) pairs

def involved (c : Config) (pairs : List (Bytes × Bytes)) : List (Fin c.shardCount) :=
  (collect c [] pairs).mergeSort (· ≤ ·)

theorem mem_collect {idxs : List (Fin c.shardCount)} {pairs : List (Bytes × Bytes)} :
    (∀ i ∈ idxs, i ∈ collect c idxs pairs) ∧ ∀ p ∈ pairs, shardIndex c p.1 ∈ collect c idxs pairs := by
  induction pairs generalizing idxs with
  | nil => exact ⟨fun i hi => hi, by simp⟩
  | cons p pairs ih =>
    rw [collect]
    split_ifs with hm
    · exact ⟨ih.1, List.forall_mem_cons.mpr ⟨ih.1 _ hm, ih.2⟩⟩
    · exact ⟨fun i hi => ih.1 i (by simp [hi]), List.forall_mem_cons.mpr ⟨ih.1 _ (by simp), ih.2⟩⟩

theorem mem_involved {pairs : List (Bytes × Bytes)} {p : Bytes × Bytes} (hp : p ∈ pairs) :
    shardIndex c p.1 ∈ involved c pairs := List.mem_mergeSort.mpr (mem_collect.2 p hp)

def checkAbsent (now : Readings) : List (Bytes × Bytes) → Op c Bool
  | [] => pure true
  | p :: pairs => do
    match ← lookup (shardIndex c p.1) p.1 with
    | none => checkAbsent (later 1 now) pairs
    | some e =>
      if expired (now 0) e then do
        purge (shardIndex c p.1) p.1
        checkAbsent (later 1 now) pairs
      else pure false

def putAll : List (Bytes × Bytes) → Op c Unit
  | [] => pure ()
  | p :: pairs => do
    effect (.insert (shardIndex c p.1) p.1 ⟨p.2, 0⟩)
    effect (.addCount 1)
    putAll pairs

def putIf (pairs : List (Bytes × Bytes)) (fresh : Bool) : Op c Unit := if fresh then putAll pairs else pure ()

def setNXMulti (now : Readings) (pairs : List (Bytes × Bytes)) : Op c Bool :=
  if pairs = [] then pure true
  else do
    lockAll (involved c pairs)
    let fresh ← checkAbsent now pairs
    putIf pairs fresh
    unlockAll (involved c pairs).reverse
    pure fresh

def clearAll : List (Fin c.shardCount) → Op c Unit
  | [] => pure ()
  | i :: is => do
    effect (.clear i)
    clearAll is

def clearShards : Op c Unit := do
  lockAll (List.finRange c.shardCount)
  clearAll (List.finRange c.shardCount)
  effect (.storeCount 0)
  unlockAll (List.finRange c.shardCount).reverse

def clearHeap : Op c Unit := do
  acquire .write .expMu
  effect .dropHeap
  release .write .expMu

def flush : Op c Unit := do
  clearShards
  clearHeap

def readShard (i : Fin c.shardCount) : Op c (List (Sigma fun _ : Bytes => Entry)) := do
  acquire .read (.shard i)
  let es ← entries i
  release .read (.shard i)
  pure es

def shardKeys (now : Readings) (pattern : Bytes) (i : Fin c.shardCount) : Op c (List Bytes) := do
  pure (StoreOps.liveKeys pattern now (← readShard i))

def purgeIf (i : Fin c.shardCount) (d : ExpEntry) : Option Entry → Op c Unit
  | some cur => if cur.expireAt = d.deadline then purge i d.key else pure ()
  | none => pure ()

def purgeDue (d : ExpEntry) : Op c Unit := do
  let i := shardForString c d.key
  acquire .write (.shard i)
  purgeIf i d (← lookup i d.key)
  release .write (.shard i)

def purgeAll : List ExpEntry → Op c Unit
  | [] => pure ()
  | d :: ds => do
    purgeDue d
    purgeAll ds

def sweep (now : Instant) : Op c Unit := do
  acquire .write .expMu
  let due ← popDue now
  release .write .expMu
  purgeAll due

def runSection (now : Readings) : (a : Section) → Op c a.Result
  | .get key => onKey StoreRules.get now key
  | .set key val ttl mode => onKey (StoreRules.set val ttl mode) now key
  | .del key => onKey StoreRules.del now key
  | .existsKey key => existsKey now key
  | .incrBy key delta => onKey (StoreRules.incrBy delta) now key
  | .append key suffix => onKey (StoreRules.append c.maxValLen suffix) now key
  | .expire key ttl => onKey (StoreRules.expire ttl) now key
  | .expireAt key secs => onKey (StoreRules.expireAt secs) now key
  | .expireAtMs key ms => onKey (StoreRules.expireAtMs ms) now key
  | .remaining key => onKey StoreRules.ttl now key
  | .persist key => onKey StoreRules.persist now key
  | .getSet key val => onKey (StoreRules.getSet val) now key
  | .setNXMulti pairs => setNXMulti now pairs
  | .clearShards => clearShards
  | .clearHeap => clearHeap
  | .shardKeys i pattern => if h : i < c.shardCount then shardKeys now pattern ⟨i, h⟩ else .done []
  | .shardCount => .done c.shardCount
  | .len => loadCount
  | .now => .done (now 0)

def delKeys (now : Readings) : List Bytes → Op c Nat
  | [] => pure 0
  | key :: keys => do
    let existed ← onKey StoreRules.del now key
    let n ← delKeys (later 2 now) keys
    pure ((if existed then 1 else 0) + n)

def existsKeys (now : Readings) : List Bytes → Op c Nat
  | [] => pure 0
  | key :: keys => do
    let found ← existsKey now key
    let n ← existsKeys (later 1 now) keys
    pure ((if found then 1 else 0) + n)

def keysFrom (pattern : Bytes) (now : Readings) : List (Fin c.shardCount) → Op c (List Bytes)
  | [] => pure []
  | i :: is => do
    let es ← readShard i
    let ks ← keysFrom pattern (later es.length now) is
    pure (StoreOps.liveKeys pattern now es ++ ks)

open StoreCalls in
def runCall (now : Readings) : Call → Op c Result
  | .get key => .value <$> onKey StoreRules.get now key
  | .set key val ttl mode => .flag <$> onKey (StoreRules.set val ttl mode) now key
  | .del keys => .count <$> delKeys now keys
  | .existsKeys keys => .count <$> existsKeys now keys
  | .incrBy key delta => .number <$> onKey (StoreRules.incrBy delta) now key
  | .append key suffix => .length <$> onKey (StoreRules.append c.maxValLen suffix) now key
  | .expire key ttl => .flag <$> onKey (StoreRules.expire ttl) now key
  | .expireAt key secs => .flag <$> onKey (StoreRules.expireAt secs) now key
  | .expireAtMs key ms => .flag <$> onKey (StoreRules.expireAtMs ms) now key
  | .ttl key => .duration <$> onKey StoreRules.ttl now key
  | .persist key => .flag <$> onKey StoreRules.persist now key
  | .getSet key val => .value <$> onKey (StoreRules.getSet val) now key
  | .setNXMulti pairs => .flag <$> setNXMulti now pairs
  | .flush => (fun _ => .unit) <$> flush
  | .keys pattern => .names <$> keysFrom pattern now (List.finRange c.shardCount)
  | .typeOf key =>
    (fun v => .text (if v.isSome then ascii "string" else ascii "none")) <$> onKey StoreRules.get now key

/-! Without anything in between, the programs are the methods of the sequential
model. -/

section Eval

variable {β : Type} (m : Memory c)

def alone (p : Op c α) (m : Memory c) : α × Memory c := p.eval perform m

@[simp] theorem alone_pure (a : α) : alone (pure a : Op c α) m = (a, m) := rfl

@[simp] theorem alone_bind (p : Op c α) (f : α → Op c β) :
    alone (p >>= f) m = alone (f (alone p m).1) (alone p m).2 := Prog.eval_bind perform p f m

@[simp] theorem alone_acquire (mode : Mode) (l : Lock c) : alone (acquire mode l) m = ((), m) := rfl

@[simp] theorem alone_release (mode : Mode) (l : Lock c) : alone (release mode l) m = ((), m) := rfl

@[simp] theorem alone_effect (a : Access c) : alone (effect a) m = ((), (perform a m).2) := rfl

@[simp] theorem alone_lookup (i : Fin c.shardCount) (key : Bytes) :
    alone (lookup i key) m = ((m.store.shards i).lookup key, m) := rfl

@[simp] theorem alone_purge (i : Fin c.shardCount) (key : Bytes) :
    alone (purge i key) m = ((), m.on fun s => StoreState.purge s i key) := rfl

theorem alone_write (key : Bytes) (w : Write) :
    alone (write (shardIndex c key) key w) m = ((), m.on fun s => StoreOps.write s key w) := by
  cases hw : w.track <;> simp [write, track, hw] <;> simp [StoreOps.write, hw] <;> rfl

theorem alone_create (key : Bytes) (w : Option Write) :
    alone (create (shardIndex c key) key w) m = ((), m.on fun s => StoreOps.create s key w) := by
  cases w with
  | none => rfl
  | some w => cases hw : w.track <;> simp [create, track, hw] <;> simp [StoreOps.create, StoreOps.write, hw] <;> rfl

theorem alone_apply (key : Bytes) (e : Effect) :
    alone (apply (shardIndex c key) key e) m = ((), m.on fun s => StoreOps.apply s key e) := by
  cases e with
  | keep => rfl
  | purge => rfl
  | put w => exact alone_write m key w

theorem alone_onKey (op : KeyOp α) (now : Readings) (key : Bytes) :
    alone (onKey op now key) m =
      ((StoreOps.onKey op m.store now key).1, m.on fun _ => (StoreOps.onKey op m.store now key).2) := by
  have hlook : (m.store.shards (shardIndex c key)).lookup key = StoreOps.lookup m.store key := rfl
  simp only [onKey, StoreOps.onKey, alone_bind, alone_acquire, alone_lookup, alone_release, alone_pure, hlook]
  cases StoreOps.lookup m.store key with
  | none => simp only [keyBody, alone_bind, alone_create, alone_pure, Memory.on]
  | some e =>
    simp only [keyBody]
    split_ifs
    · simp only [alone_bind, alone_purge, alone_create, alone_pure, Memory.on]
    · simp only [alone_bind, alone_apply, alone_pure, Memory.on]

theorem alone_existsKey (now : Readings) (key : Bytes) :
    alone (existsKey now key) m = (StoreOps.existsKey m.store now key, m) := by
  have hlook : (m.store.shards (shardIndex c key)).lookup key = StoreOps.lookup m.store key := rfl
  simp only [existsKey, StoreOps.existsKey, alone_bind, alone_acquire, alone_lookup, alone_release, alone_pure, hlook]
  cases StoreOps.lookup m.store key <;> rfl

@[simp] theorem alone_lockAll (is : List (Fin c.shardCount)) : alone (lockAll is) m = ((), m) := by
  induction is with
  | nil => rfl
  | cons i is ih => exact ih

@[simp] theorem alone_unlockAll (is : List (Fin c.shardCount)) : alone (unlockAll is) m = ((), m) := by
  induction is with
  | nil => rfl
  | cons i is ih => exact ih

theorem alone_checkAbsent (now : Readings) (pairs : List (Bytes × Bytes)) :
    alone (checkAbsent now pairs) m =
      ((StoreOps.checkAbsent m.store now pairs).1, m.on fun _ => (StoreOps.checkAbsent m.store now pairs).2) := by
  induction pairs generalizing now m with
  | nil => rfl
  | cons p pairs ih =>
    have hlook : (m.store.shards (shardIndex c p.1)).lookup p.1 = StoreOps.lookup m.store p.1 := rfl
    simp only [checkAbsent, StoreOps.checkAbsent, alone_bind, alone_lookup, hlook]
    cases StoreOps.lookup m.store p.1 with
    | none => exact ih m _
    | some e =>
      simp only
      split_ifs
      · simp only [alone_bind, alone_purge, ih, Memory.on]
      · rfl

theorem alone_putAll (pairs : List (Bytes × Bytes)) :
    alone (putAll pairs) m = ((), m.on fun s => StoreOps.putAll s pairs) := by
  induction pairs generalizing m with
  | nil => rfl
  | cons p pairs ih => exact ih _

theorem alone_setNXMulti (now : Readings) (pairs : List (Bytes × Bytes)) :
    alone (setNXMulti now pairs) m =
      ((StoreOps.setNXMulti m.store now pairs).1, m.on fun _ => (StoreOps.setNXMulti m.store now pairs).2) := by
  unfold setNXMulti
  split_ifs with hp
  · rw [hp]
    rfl
  · simp only [StoreOps.setNXMulti, alone_bind, alone_lockAll, alone_checkAbsent, alone_unlockAll, alone_pure]
    cases hc : StoreOps.checkAbsent m.store now pairs with
    | mk fresh s =>
      cases fresh <;> simp only [putIf, Bool.false_eq_true, ↓reduceIte, alone_pure, alone_putAll, Memory.on]

theorem alone_clearAll (is : List (Fin c.shardCount)) :
    alone (clearAll is) m =
      ((), m.on fun s => { s with shards := fun i => if i ∈ is then ∅ else s.shards i }) := by
  induction is generalizing m with
  | nil => simp only [clearAll, alone_pure, List.not_mem_nil, ↓reduceIte, Memory.on]
  | cons i is ih =>
    have hshards : (fun j => if j ∈ is then (∅ : ShardMap) else Function.update m.store.shards i ∅ j) =
        fun j => if j ∈ i :: is then ∅ else m.store.shards j := by
      funext j
      by_cases hj : j = i <;> simp [hj]
    simp only [clearAll, alone_bind, alone_effect, perform, ih, Memory.on, onShard, hshards]

theorem alone_clearShards : alone (clearShards : Op c Unit) m = ((), m.on StoreOps.clearShards) := by
  simp [clearShards, alone_clearAll, perform, Memory.on, StoreOps.clearShards]

theorem alone_flush : alone (flush : Op c Unit) m = ((), m.on StoreOps.flush) := by
  rw [flush, alone_bind, alone_clearShards]
  rfl

theorem alone_shardKeys (now : Readings) (pattern : Bytes) (i : Fin c.shardCount) :
    alone (shardKeys now pattern i) m = (StoreOps.shardKeys m.store now pattern i, m) := rfl

theorem alone_purgeDue (d : ExpEntry) : alone (purgeDue d) m = ((), m.on fun s => StoreOps.purgeDue s d) := by
  simp only [purgeDue, StoreOps.purgeDue, alone_bind, alone_acquire, alone_lookup, alone_release]
  cases hl : (m.store.shards (shardForString c d.key)).lookup d.key with
  | none => simp only [purgeIf, alone_pure, Memory.on, hl]
  | some cur =>
    simp only [purgeIf]
    split_ifs with hd
    · simp only [alone_purge, Memory.on, hl, hd, ↓reduceIte]
    · simp only [alone_pure, Memory.on, hl, hd, ↓reduceIte]

theorem alone_purgeAll (ds : List ExpEntry) :
    alone (purgeAll ds) m = ((), m.on fun s => ds.foldl StoreOps.purgeDue s) := by
  induction ds generalizing m with
  | nil => rfl
  | cons d ds ih =>
    rw [purgeAll, alone_bind, alone_purgeDue, ih]
    rfl

theorem alone_sweep (now : Instant) : alone (sweep now) m = ((), m.on fun s => StoreOps.sweep s now) := by
  simp only [sweep, alone_bind, alone_acquire, alone_release, alone_purgeAll]
  rfl

theorem alone_runSection (now : Readings) (a : Section) :
    alone (runSection now a) m = ((a.exec m.store now).1, m.on fun _ => (a.exec m.store now).2) := by
  cases a with
  | existsKey key => exact alone_existsKey m now key
  | setNXMulti pairs => exact alone_setNXMulti m now pairs
  | clearShards => exact alone_clearShards m
  | shardKeys i pattern =>
    change alone (if h : i < c.shardCount then shardKeys now pattern ⟨i, h⟩ else .done []) m =
      (if h : i < c.shardCount then StoreOps.shardKeys m.store now pattern ⟨i, h⟩ else [], m)
    split_ifs
    · exact alone_shardKeys m now pattern _
    · rfl
  | clearHeap => rfl
  | shardCount => rfl
  | len => rfl
  | now => rfl
  | _ => exact alone_onKey m _ now _

@[simp] theorem alone_map (f : α → β) (p : Op c α) : alone (f <$> p) m = ((alone p m).map f id) := alone_bind m p _

theorem alone_delKeys (now : Readings) (keys : List Bytes) :
    alone (delKeys now keys) m =
      ((StoreOps.delKeys m.store now keys).1, m.on fun _ => (StoreOps.delKeys m.store now keys).2) := by
  induction keys generalizing now m with
  | nil => rfl
  | cons key keys ih => simp only [delKeys, StoreOps.delKeys, alone_bind, alone_onKey, ih, alone_pure, Memory.on]

theorem alone_existsKeys (now : Readings) (keys : List Bytes) :
    alone (existsKeys now keys) m = (StoreOps.existsKeys m.store now keys, m) := by
  induction keys generalizing now with
  | nil => rfl
  | cons key keys ih => simp only [existsKeys, StoreOps.existsKeys, alone_bind, alone_existsKey, ih, alone_pure]

theorem alone_keysFrom (pattern : Bytes) (now : Readings) (is : List (Fin c.shardCount)) :
    alone (keysFrom pattern now is) m = (StoreOps.keysFrom m.store pattern now is, m) := by
  induction is generalizing now with
  | nil => rfl
  | cons i is ih =>
    have hread : alone (readShard i) m = ((m.store.shards i).entries, m) := rfl
    simp only [keysFrom, StoreOps.keysFrom, StoreOps.shardKeys, alone_bind, hread, ih, alone_pure]

/-- A call that runs by itself is the call of the sequential model. -/
theorem alone_runCall (now : Readings) (a : StoreCalls.Call) :
    alone (runCall now a) m =
      ((StoreCalls.exec m.store now a).1, m.on fun _ => (StoreCalls.exec m.store now a).2) := by
  cases a with
  | del keys => rw [runCall, alone_map, alone_delKeys]; rfl
  | existsKeys keys => rw [runCall, alone_map, alone_existsKeys]; rfl
  | setNXMulti pairs => rw [runCall, alone_map, alone_setNXMulti]; rfl
  | flush => rw [runCall, alone_map, alone_flush]; rfl
  | keys pattern => rw [runCall, alone_map, alone_keysFrom]; rfl
  | typeOf key =>
    rw [runCall, alone_map, alone_onKey]
    simp only [StoreCalls.exec, StoreOps.typeOf]
    cases StoreOps.onKey StoreRules.get m.store now key with
    | mk v s => cases v <;> rfl
  | _ => rw [runCall, alone_map, alone_onKey]; rfl

end Eval

end MemX.StoreLocks
