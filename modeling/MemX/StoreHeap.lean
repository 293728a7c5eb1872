import MemX.BinHeap
import MemX.StoreLocks
import MemX.StoreLookup

namespace MemX.StoreHeap

open DecimalText Clock StoreState StoreRules StoreCalls LockProgram StoreLocks BinHeap
open LockProgram.Prog (Uses uses_bind eval_refines)

variable {c : Config} {α β : Type}

/-- What the goroutines share, with the expiry heap as the source keeps it: the
array that `container/heap` arranges. -/
structure HeapMemory (c : Config) where
  shards : Fin c.shardCount → ShardMap
  count : Int
  exp : Array ExpEntry
  log : List (List Bytes)

def HeapMemory.onShard (m : HeapMemory c) (i : Fin c.shardCount) (f : ShardMap → ShardMap) : HeapMemory c :=
  { m with shards := Function.update m.shards i (f (m.shards i)) }

def performHeap : (a : Access c) → HeapMemory c → a.Answer × HeapMemory c
  | .lookup i key, m => ((m.shards i).lookup key, m)
  | .insert i key e, m => ((), m.onShard i (AList.insert key e))
  | .erase i key, m => ((), m.onShard i (AList.erase key))
  | .clear i, m => ((), m.onShard i fun _ => ∅)
  | .entries i, m => ((m.shards i).entries, m)
  | .addCount n, m => ((), { m with count := m.count + n })
  | .storeCount n, m => ((), { m with count := n })
  | .loadCount, m => (m.count, m)
  | .push d, m => ((), { m with exp := push ExpEntry.deadline d m.exp })
  | .popDue now, m =>
    ((popWhile ExpEntry.deadline now.nanos m.exp.size m.exp).1,
      { m with exp := (popWhile ExpEntry.deadline now.nanos m.exp.size m.exp).2 })
  | .dropHeap, m => ((), { m with exp := #[] })
  | .record cmd, m => ((), { m with log := m.log ++ [cmd] })

def start (c : Config) : HeapMemory c := ⟨fun _ => ∅, 0, #[], []⟩

def heapStep (m : HeapMemory c) (now : Readings) : Step → HeapMemory c
  | .call a => ((runCall now a).eval performHeap m).2
  | .sweep => ((sweep (now 0)).eval performHeap m).2

def heapRun (m : HeapMemory c) (steps : List (Step × Readings)) : HeapMemory c :=
  steps.foldl (fun m st => heapStep m st.2 st.1) m

/-- The array is a heap of the elements that the sorted queue holds, and the
rest is the same. -/
structure Represents (m : HeapMemory c) (m' : Memory c) : Prop where
  shards : m.shards = m'.store.shards
  count : m.count = m'.store.count
  log : m.log = m'.log
  heap : IsHeap ExpEntry.deadline m.exp
  same : m.exp.toList.Perm m'.store.exp.elems

/-- The answer does not depend on the order among equal deadlines. -/
def Settled : Access c → Prop
  | .popDue _ => False
  | _ => True

theorem performHeap_refines (a : Access c) (ha : Settled a) (m : HeapMemory c) (m' : Memory c)
    (h : Represents m m') :
    (performHeap a m).1 = (perform a m').1 ∧ Represents (performHeap a m).2 (perform a m').2 := by
  obtain ⟨hshards, hcount, hlog, hheap, hsame⟩ := h
  have hon : ∀ i f, (m.onShard i f).shards = (onShard m'.store i f).shards := fun i f => by
    simp only [HeapMemory.onShard, onShard, hshards]
  cases a with
  | lookup i key =>
    exact ⟨congrArg (fun s => (s i).lookup key) hshards, hshards, hcount, hlog, hheap, hsame⟩
  | insert i key e => exact ⟨rfl, hon i _, hcount, hlog, hheap, hsame⟩
  | erase i key => exact ⟨rfl, hon i _, hcount, hlog, hheap, hsame⟩
  | clear i => exact ⟨rfl, hon i _, hcount, hlog, hheap, hsame⟩
  | entries i => exact ⟨congrArg (fun s => (s i).entries) hshards, hshards, hcount, hlog, hheap, hsame⟩
  | addCount n => exact ⟨rfl, hshards, congrArg (· + n) hcount, hlog, hheap, hsame⟩
  | storeCount n => exact ⟨rfl, hshards, rfl, hlog, hheap, hsame⟩
  | loadCount => exact ⟨hcount, hshards, hcount, hlog, hheap, hsame⟩
  | push d =>
    obtain ⟨hord, hperm⟩ := push_spec d hheap
    refine ⟨rfl, hshards, hcount, hlog, hord, hperm.trans ?_⟩
    exact (hsame.cons d).trans (List.perm_orderedInsert _ d _).symm
  | popDue now => exact ha.elim
  | dropHeap => exact ⟨rfl, hshards, hcount, hlog, isHeap_empty, List.Perm.refl _⟩
  | record cmd => exact ⟨rfl, hshards, hcount, congrArg (· ++ [cmd]) hlog, hheap, hsame⟩

/-! No call of a client pops the heap: only the sweeper does. -/

section Calls

theorem uses_ite {Q : Access c → Prop} {b : Prop} [Decidable b] {p q : Op c α} (hp : p.Uses Q) (hq : q.Uses Q) :
    (if b then p else q).Uses Q := by
  split_ifs
  · exact hp
  · exact hq

theorem uses_lookup (i : Fin c.shardCount) (key : Bytes) : (lookup i key).Uses Settled :=
  ⟨trivial, fun _ => trivial⟩

theorem uses_track (key : Bytes) (w : Write) : (track key w : Op c Unit).Uses Settled :=
  uses_ite ⟨trivial, fun _ => trivial⟩ trivial

theorem uses_purge (i : Fin c.shardCount) (key : Bytes) : (StoreLocks.purge i key).Uses Settled :=
  ⟨trivial, fun _ => ⟨trivial, fun _ => trivial⟩⟩

theorem uses_create (i : Fin c.shardCount) (key : Bytes) (w : Option Write) :
    (create i key w).Uses Settled := by
  cases w with
  | none => trivial
  | some w => exact ⟨trivial, fun _ => ⟨trivial, fun _ => uses_track key w⟩⟩

theorem uses_apply (i : Fin c.shardCount) (key : Bytes) (e : Effect) : (apply i key e).Uses Settled := by
  cases e with
  | keep => trivial
  | purge => exact uses_purge i key
  | put w => exact ⟨trivial, fun _ => uses_track key w⟩

theorem uses_keyBody (op : KeyOp α) (now : Readings) (i : Fin c.shardCount) (key : Bytes) (e : Option Entry) :
    (keyBody op now i key e).Uses Settled := by
  cases e with
  | none => exact uses_bind (uses_create i key _) fun _ => trivial
  | some e =>
    refine uses_ite ?_ ?_
    · exact uses_bind (uses_purge i key) fun _ => uses_bind (uses_create i key _) fun _ => trivial
    · exact uses_bind (uses_apply i key _) fun _ => trivial

theorem uses_onKey (op : KeyOp α) (now : Readings) (key : Bytes) : (onKey op now key : Op c α).Uses Settled := by
  refine uses_bind trivial fun _ => uses_bind (uses_lookup _ key) fun e => ?_
  exact uses_bind (uses_keyBody op now _ key e) fun _ => trivial

theorem uses_existsKey (now : Readings) (key : Bytes) : (existsKey now key : Op c Bool).Uses Settled :=
  uses_bind trivial fun _ => uses_bind (uses_lookup _ key) fun _ => trivial

theorem uses_readShard (i : Fin c.shardCount) : (readShard i).Uses Settled := ⟨trivial, fun _ => trivial⟩

theorem uses_lockAll (is : List (Fin c.shardCount)) : (lockAll is).Uses Settled := by
  induction is with
  | nil => trivial
  | cons i is ih => exact ih

theorem uses_unlockAll (is : List (Fin c.shardCount)) : (unlockAll is).Uses Settled := by
  induction is with
  | nil => trivial
  | cons i is ih => exact ih

theorem uses_checkAbsent (now : Readings) (pairs : List (Bytes × Bytes)) :
    (checkAbsent now pairs : Op c Bool).Uses Settled := by
  induction pairs generalizing now with
  | nil => trivial
  | cons p pairs ih =>
    refine ⟨trivial, fun e => ?_⟩
    cases e with
    | none => exact ih _
    | some e => exact uses_ite (uses_bind (uses_purge _ _) fun _ => ih _) trivial

theorem uses_putAll (pairs : List (Bytes × Bytes)) : (putAll pairs : Op c Unit).Uses Settled := by
  induction pairs with
  | nil => trivial
  | cons p pairs ih => exact ⟨trivial, fun _ => ⟨trivial, fun _ => ih⟩⟩

theorem uses_setNXMulti (now : Readings) (pairs : List (Bytes × Bytes)) :
    (setNXMulti now pairs : Op c Bool).Uses Settled := by
  refine uses_ite trivial ?_
  refine uses_bind (uses_lockAll _) fun _ => uses_bind (uses_checkAbsent now pairs) fun fresh => ?_
  exact uses_bind (uses_ite (uses_putAll pairs) trivial) fun _ => uses_bind (uses_unlockAll _) fun _ => trivial

theorem uses_clearAll (is : List (Fin c.shardCount)) : (clearAll is).Uses Settled := by
  induction is with
  | nil => trivial
  | cons i is ih => exact ⟨trivial, fun _ => ih⟩

theorem uses_flush : (flush : Op c Unit).Uses Settled := by
  refine uses_bind (uses_bind (uses_lockAll _) fun _ => uses_bind (uses_clearAll _) fun _ => ?_) fun _ => ?_
  · exact ⟨trivial, fun _ => uses_unlockAll _⟩
  · exact ⟨trivial, fun _ => trivial⟩

theorem uses_delKeys (now : Readings) (keys : List Bytes) : (delKeys now keys : Op c Nat).Uses Settled := by
  induction keys generalizing now with
  | nil => trivial
  | cons key keys ih => exact uses_bind (uses_onKey _ now key) fun _ => uses_bind (ih _) fun _ => trivial

theorem uses_existsKeys (now : Readings) (keys : List Bytes) : (existsKeys now keys : Op c Nat).Uses Settled := by
  induction keys generalizing now with
  | nil => trivial
  | cons key keys ih => exact uses_bind (uses_existsKey now key) fun _ => uses_bind (ih _) fun _ => trivial

theorem uses_keysFrom (pattern : Bytes) (now : Readings) (is : List (Fin c.shardCount)) :
    (keysFrom pattern now is).Uses Settled := by
  induction is generalizing now with
  | nil => trivial
  | cons i is ih => exact uses_bind (uses_readShard i) fun _ => uses_bind (ih _) fun _ => trivial

theorem uses_runCall (now : Readings) (a : Call) : (runCall now a : Op c Result).Uses Settled := by
  cases a with
  | del keys => exact uses_bind (uses_delKeys now keys) fun _ => trivial
  | existsKeys keys => exact uses_bind (uses_existsKeys now keys) fun _ => trivial
  | setNXMulti pairs => exact uses_bind (uses_setNXMulti now pairs) fun _ => trivial
  | flush => exact uses_bind uses_flush fun _ => trivial
  | keys pattern => exact uses_bind (uses_keysFrom pattern now _) fun _ => trivial
  | _ => exact uses_bind (uses_onKey _ now _) fun _ => trivial

theorem uses_purgeDue (d : ExpEntry) : (purgeDue d : Op c Unit).Uses Settled := by
  refine uses_bind trivial fun _ => uses_bind (uses_lookup _ d.key) fun e => uses_bind ?_ fun _ => trivial
  cases e with
  | none => trivial
  | some cur => exact uses_ite (uses_purge _ _) trivial

theorem uses_purgeAll (ds : List ExpEntry) : (purgeAll ds : Op c Unit).Uses Settled := by
  induction ds with
  | nil => trivial
  | cons d ds ih => exact uses_bind (uses_purgeDue d) fun _ => ih

end Calls

/-! The sweeper pops equal deadlines in an order of the heap's own, which does
not matter: each entry is purged only where its key still carries its deadline. -/

theorem purgeDue_eq (s : Store c) (d : ExpEntry) :
    StoreOps.purgeDue s d =
      if (StoreOps.lookup s d.key).map Entry.expireAt = some d.deadline
      then StoreState.purge s (shardIndex c d.key) d.key else s := by
  have hlook : (s.shards (shardIndex c d.key)).lookup d.key = StoreOps.lookup s d.key := rfl
  simp only [StoreOps.purgeDue, shardForString_eq, hlook]
  cases StoreOps.lookup s d.key with
  | none => rfl
  | some cur => simp only [Option.map_some, Option.some.injEq]

theorem purge_comm (s : Store c) (i j : Fin c.shardCount) (k l : Bytes) :
    StoreState.purge (StoreState.purge s i k) j l = StoreState.purge (StoreState.purge s j l) i k := by
  have hshards : (onShard (onShard s i (AList.erase k)) j (AList.erase l)).shards =
      (onShard (onShard s j (AList.erase l)) i (AList.erase k)).shards := by
    by_cases hij : i = j
    · subst hij
      simp [onShard, AList.erase_erase]
    · simp [onShard, hij, Ne.symm hij, Function.update_comm hij]
  simp only [StoreState.purge, addCount, onShard, Store.mk.injEq, and_true] at hshards ⊢
  exact hshards

theorem purgeDue_comm (s : Store c) (d d' : ExpEntry) :
    StoreOps.purgeDue (StoreOps.purgeDue s d) d' = StoreOps.purgeDue (StoreOps.purgeDue s d') d := by
  by_cases hk : d'.key = d.key
  · -- one key: whichever comes first removes it, and the other finds nothing
    simp only [purgeDue_eq, hk]
    split_ifs <;> simp_all
  · have hkeep : ∀ d d' : ExpEntry, d'.key ≠ d.key →
        StoreOps.lookup (StoreOps.purgeDue s d) d'.key = StoreOps.lookup s d'.key := fun d d' h => by
      rw [purgeDue_eq]
      split_ifs
      · rw [StoreLookup.lookup_purge, if_neg h]
      · rfl
    rw [purgeDue_eq (StoreOps.purgeDue s d), purgeDue_eq (StoreOps.purgeDue s d'), hkeep d d' hk,
      hkeep d' d (Ne.symm hk), purgeDue_eq s d, purgeDue_eq s d']
    split_ifs
    · exact purge_comm s _ _ _ _
    all_goals rfl

instance : RightCommutative (StoreOps.purgeDue (c := c)) := ⟨purgeDue_comm⟩

theorem popDue_refines (now : Instant) {m : HeapMemory c} {m' : Memory c} (h : Represents m m') :
    (popWhile ExpEntry.deadline now.nanos m.exp.size m.exp).1.Perm (StoreOps.popDue m'.store now).1 ∧
      Represents { m with exp := (popWhile ExpEntry.deadline now.nanos m.exp.size m.exp).2 }
        (m'.on fun s => (StoreOps.popDue s now).2) := by
  obtain ⟨hord, hdue, hrest⟩ := popWhile_spec now.nanos m.exp.size le_rfl h.heap
  refine ⟨hdue.trans ?_, h.shards, h.count, h.log, hord, hrest.trans ?_⟩
  · rw [StoreOps.popDue, MinQueue.due_eq_filter]
    exact h.same.filter _
  · change List.Perm _ (MinQueue.rest now.nanos m'.store.exp).elems
    rw [MinQueue.rest_eq_filter]
    exact h.same.filter _

theorem sweep_refines (now : Instant) {m : HeapMemory c} {m' : Memory c} (h : Represents m m') :
    Represents ((sweep now).eval performHeap m).2 (m'.on fun s => StoreOps.sweep s now) := by
  obtain ⟨hperm, hpop⟩ := popDue_refines now h
  have hpurge := (eval_refines performHeap_refines
    (uses_purgeAll (popWhile ExpEntry.deadline now.nanos m.exp.size m.exp).1) hpop).2
  have hfold : (alone (purgeAll (popWhile ExpEntry.deadline now.nanos m.exp.size m.exp).1)
      (m'.on fun s => (StoreOps.popDue s now).2)).2 = m'.on fun s => StoreOps.sweep s now := by
    rw [alone_purgeAll]
    simp only [Memory.on, StoreOps.sweep, hperm.foldl_eq]
  exact hfold ▸ hpurge

theorem heapStep_represents (st : Step) (now : Readings) {m : HeapMemory c} {s : Store c} {log : List (List Bytes)}
    (h : Represents m ⟨s, log⟩) : Represents (heapStep m now st) ⟨step s now st, log⟩ := by
  cases st with
  | call a =>
    have hcall := (eval_refines performHeap_refines (uses_runCall now a) h).2
    have halone : (alone (runCall now a) ⟨s, log⟩).2 = ⟨step s now (.call a), log⟩ :=
      congrArg Prod.snd (alone_runCall ⟨s, log⟩ now a)
    exact halone ▸ hcall
  | sweep => exact sweep_refines (now 0) h

theorem heapRun_represents (steps : List (Step × Readings)) {m : HeapMemory c} {s : Store c}
    {log : List (List Bytes)} (h : Represents m ⟨s, log⟩) : Represents (heapRun m steps) ⟨run s steps, log⟩ := by
  induction steps generalizing m s with
  | nil => exact h
  | cons st steps ih => exact ih (heapStep_represents st.1 st.2 h)

theorem start_represents : Represents (start c) ⟨new c, []⟩ :=
  ⟨rfl, rfl, rfl, isHeap_empty, List.Perm.refl _⟩

/-- The array that the store keeps stays heap-ordered through every run of
calls and sweeps, holds the entries of the sorted queue, and nothing that a
client can observe depends on how it breaks ties. -/
theorem heap_simulates_queue (c : Config) (steps : List (Step × Readings)) :
    IsHeap ExpEntry.deadline (heapRun (start c) steps).exp ∧
      (heapRun (start c) steps).exp.toList.Perm (run (new c) steps).exp.elems ∧
      (heapRun (start c) steps).shards = (run (new c) steps).shards ∧
      (heapRun (start c) steps).count = (run (new c) steps).count ∧
      ∀ now a, ((runCall now a).eval performHeap (heapRun (start c) steps)).1 = (exec (run (new c) steps) now a).1 := by
  have h := heapRun_represents steps (start_represents (c := c))
  refine ⟨h.heap, h.same, h.shards, h.count, fun now a => ?_⟩
  rw [(eval_refines performHeap_refines (uses_runCall now a) h).1]
  exact congrArg Prod.fst (alone_runCall ⟨run (new c) steps, []⟩ now a)

end MemX.StoreHeap
