import MemX.StoreLocks
import MemX.TwoPhaseRun

namespace MemX.StoreSerial

open DecimalText Clock StoreState StoreRules StoreCalls LockProgram StoreLocks TwoPhase TwoPhaseRun
open LockProgram.Prog (acquire release)

variable {c : Config} {α β : Type}

/-- Each shard's map is a cell under its lock, and the counter is the sum. -/
def layout (c : Config) : Layout (Lock c) (Memory c) (Fin c.shardCount) ShardMap Int where
  guard := .shard
  cell m i := m.store.shards i
  sum m := m.store.count

section Accesses

variable {H : Set (Fin c.shardCount)} {i : Fin c.shardCount}

theorem local_onShard (hi : i ∈ H) (f : ShardMap → ShardMap) :
    Local (layout c) H fun m => ((), m.on fun s => onShard s i f) where
  frame m j hj := by
    have hji : j ≠ i := fun he => hj (he ▸ hi)
    exact Function.update_of_ne hji _ _
  answer _ _ _ := rfl
  same m m' ha j hj := by
    have hcell : m.store.shards i = m'.store.shards i := ha.1 i hi
    by_cases hji : j = i
    · subst hji
      simp [layout, Memory.on, onShard, hcell]
    · simpa [layout, Memory.on, onShard, hji] using ha.1 j hj
  gain m m' _ := by simp [layout, Memory.on, onShard]

theorem local_lookup (hi : i ∈ H) (key : Bytes) : Local (layout c) H (perform (.lookup i key)) where
  frame _ _ _ := rfl
  answer m m' ha := congrArg (AList.lookup key) (ha.1 i hi)
  same m m' ha := ha.1
  gain m m' _ := by simp [perform]

theorem local_addCount (n : Int) : Local (layout c) H (perform (.addCount n)) where
  frame _ _ _ := rfl
  answer _ _ _ := rfl
  same m m' ha := ha.1
  gain m m' _ := by simp [layout, perform, Memory.on, addCount]

theorem local_storeCount (n : Int) : Local (layout c) Set.univ (perform (.storeCount n)) where
  frame _ _ _ := rfl
  answer _ _ _ := rfl
  same m m' ha := ha.1
  gain m m' ha := by
    have hsum : m.store.count = m'.store.count := ha.2 rfl
    simp [layout, perform, Memory.on, hsum]

theorem unseen_push (d : ExpEntry) : Unseen (layout c) (perform (.push d)) :=
  ⟨fun _ _ => rfl, fun _ _ => rfl, fun _ => rfl⟩

theorem unseen_dropHeap : Unseen (layout c) (perform .dropHeap) := ⟨fun _ _ => rfl, fun _ _ => rfl, fun _ => rfl⟩

end Accesses

/-- A part of an operation between its last lock of a shard and its first
release of one. -/
def Steady (held : List (Lock c × Mode)) (p : Op c α) : Prop :=
  ∀ ph, ph ≠ .shrinking → Disciplined (layout c) perform (fun ph' held' _ => ph' ≠ .shrinking ∧ held' = held) ph held p

section Steady

variable {held : List (Lock c × Mode)} {i : Fin c.shardCount}

theorem steady_pure (a : α) : Steady held (pure a) := fun _ hph => ⟨hph, rfl⟩

theorem steady_bind {p : Op c α} {f : α → Op c β} (hp : Steady held p) (hf : ∀ a, Steady held (f a)) :
    Steady held (p >>= f) :=
  fun ph hph => disciplined_bind (hp ph hph) fun ph' held' a h => by
    obtain ⟨hph', rfl⟩ := h
    exact hf a ph' hph'

theorem settle_ne_shrinking {ph : Phase} (h : ph ≠ .shrinking) : ph.settle ≠ .shrinking := by
  cases ph with
  | shrinking => exact absurd rfl h
  | _ => simp [Phase.settle]

theorem steady_effect {a : Access c} (hi : i ∈ items (layout c) held)
    (ha : Local (layout c) (items (layout c) held) (perform a)) : Steady held (effect a) :=
  fun _ hph => ⟨.inr ⟨hph, ⟨i, hi⟩, ha⟩, fun _ => ⟨settle_ne_shrinking hph, rfl⟩⟩

theorem steady_lookup (hi : i ∈ items (layout c) held) (key : Bytes) : Steady held (lookup i key) :=
  fun _ hph => ⟨.inr ⟨hph, ⟨i, hi⟩, local_lookup hi key⟩, fun _ => ⟨settle_ne_shrinking hph, rfl⟩⟩

theorem steady_insert (hi : i ∈ items (layout c) held) (key : Bytes) (e : Entry) :
    Steady held (effect (.insert i key e)) := steady_effect hi (local_onShard hi _)

theorem steady_addCount (hi : i ∈ items (layout c) held) (n : Int) : Steady held (effect (.addCount n)) :=
  steady_effect hi (local_addCount n)

theorem steady_purge (hi : i ∈ items (layout c) held) (key : Bytes) : Steady held (purge i key) :=
  steady_bind (steady_effect hi (local_onShard hi _)) fun _ => steady_addCount hi (-1)

theorem shard_ne_expMu (i : Fin c.shardCount) : (layout c).guard i ≠ .expMu := fun he => by cases he

theorem steady_track (key : Bytes) (w : Write) : Steady held (track key w) := by
  unfold track
  split_ifs
  · intro ph hph
    refine ⟨fun ⟨i, hi⟩ => absurd hi (shard_ne_expMu i), .inl (unseen_push _), fun _ => ?_⟩
    refine ⟨fun ⟨i, hi⟩ => absurd hi (shard_ne_expMu i), fun _ => ?_⟩
    exact ⟨settle_ne_shrinking (settle_ne_shrinking hph), List.erase_cons_head ..⟩
  · exact steady_pure ()

theorem steady_create (hi : i ∈ items (layout c) held) (key : Bytes) (w : Option Write) :
    Steady held (create i key w) := by
  cases w with
  | none => exact steady_pure ()
  | some w =>
    exact steady_bind (steady_insert hi key _) fun _ => steady_bind (steady_addCount hi 1) fun _ => steady_track key w

theorem steady_apply (hi : i ∈ items (layout c) held) (key : Bytes) (e : Effect) : Steady held (apply i key e) := by
  cases e with
  | keep => exact steady_pure ()
  | purge => exact steady_purge hi key
  | put w => exact steady_bind (steady_insert hi key _) fun _ => steady_track key w

theorem steady_keyBody (hi : i ∈ items (layout c) held) (op : KeyOp α) (now : Readings) (key : Bytes)
    (e : Option Entry) : Steady held (keyBody op now i key e) := by
  cases e with
  | none => exact steady_bind (steady_create hi key _) fun _ => steady_pure _
  | some e =>
    rw [keyBody]
    split_ifs
    · exact steady_bind (steady_purge hi key) fun _ => steady_bind (steady_create hi key _) fun _ => steady_pure _
    · exact steady_bind (steady_apply hi key _) fun _ => steady_pure _

end Steady

def TwoPhased (p : Op c α) : Prop := Obeys (layout c) perform .growing [] p

theorem twoPhased_map (f : α → β) {p : Op c α} (hp : TwoPhased p) : TwoPhased (f <$> p) :=
  disciplined_bind hp fun _ _ _ _ => trivial

theorem twoPhased_onKey (op : KeyOp α) (now : Readings) (key : Bytes) : TwoPhased (onKey op now key : Op c α) := by
  have hi : shardIndex c key ∈ items (layout c) [(.shard (shardIndex c key), .write)] := List.mem_cons_self
  have hbody := steady_bind (steady_lookup hi key) fun e => steady_keyBody hi op now key e
  have htail : Obeys (layout c) perform .growing [(.shard (shardIndex c key), .write)]
      (do let r ← (lookup (shardIndex c key) key >>= keyBody op now (shardIndex c key) key)
          release .write (.shard (shardIndex c key))
          pure r) :=
    disciplined_bind (hbody .growing (by simp)) fun ph held a _ => ⟨fun _ => trivial, fun _ => trivial⟩
  exact ⟨fun _ => ⟨rfl, rfl⟩, htail⟩

theorem mem_items_taken {is : List (Fin c.shardCount)} {i : Fin c.shardCount} (hi : i ∈ is) :
    i ∈ items (layout c) (taken is ++ []) := by
  simpa [items, taken, layout] using hi

theorem disciplined_lockAll (is : List (Fin c.shardCount)) (held : List (Lock c × Mode)) :
    Disciplined (layout c) perform (fun ph held' _ => ph = .growing ∧ held' = taken is ++ held) .growing held
      (lockAll is) := by
  induction is generalizing held with
  | nil => exact ⟨rfl, rfl⟩
  | cons i is ih =>
    rw [taken_cons]
    exact ⟨fun _ => ⟨rfl, rfl⟩, ih _⟩

theorem disciplined_unlockAll (is : List (Fin c.shardCount)) (ph : Phase) (held : List (Lock c × Mode)) :
    Disciplined (layout c) perform (fun _ _ _ => True) ph held (unlockAll is) := by
  induction is generalizing ph held with
  | nil => trivial
  | cons i is ih => exact ⟨fun _ => ih _ _, fun _ => ih _ _⟩

theorem disciplined_clearHeap (ph : Phase) (held : List (Lock c × Mode)) :
    Disciplined (layout c) perform (fun _ _ _ => True) ph held (clearHeap : Op c Unit) := by
  refine ⟨fun ⟨i, hi⟩ => absurd hi (shard_ne_expMu i), .inl unseen_dropHeap, fun _ => ?_⟩
  exact ⟨fun _ => trivial, fun _ => trivial⟩

theorem steady_checkAbsent {held : List (Lock c × Mode)} (now : Readings) {pairs : List (Bytes × Bytes)}
    (hi : ∀ p ∈ pairs, shardIndex c p.1 ∈ items (layout c) held) :
    Steady held (checkAbsent now pairs : Op c Bool) := by
  induction pairs generalizing now with
  | nil => exact steady_pure true
  | cons p pairs ih =>
    obtain ⟨hp, hi⟩ := List.forall_mem_cons.mp hi
    refine steady_bind (steady_lookup hp p.1) fun e => ?_
    cases e with
    | none => exact ih _ hi
    | some e =>
      simp only
      split_ifs
      · exact steady_bind (steady_purge hp p.1) fun _ => ih _ hi
      · exact steady_pure false

theorem steady_putIf {held : List (Lock c × Mode)} {pairs : List (Bytes × Bytes)}
    (hi : ∀ p ∈ pairs, shardIndex c p.1 ∈ items (layout c) held) (fresh : Bool) :
    Steady held (putIf pairs fresh : Op c Unit) := by
  have hall : Steady held (putAll pairs : Op c Unit) := by
    induction pairs with
    | nil => exact steady_pure ()
    | cons p pairs ih =>
      obtain ⟨hp, hi⟩ := List.forall_mem_cons.mp hi
      exact steady_bind (steady_insert hp p.1 _) fun _ => steady_bind (steady_addCount hp 1) fun _ => ih hi
  cases fresh with
  | false => exact steady_pure ()
  | true => exact hall

theorem twoPhased_setNXMulti (now : Readings) (pairs : List (Bytes × Bytes)) :
    TwoPhased (setNXMulti now pairs : Op c Bool) := by
  have hi : ∀ p ∈ pairs, shardIndex c p.1 ∈ items (layout c) (taken (involved c pairs) ++ []) :=
    fun p hp => mem_items_taken (mem_involved hp)
  unfold setNXMulti
  split_ifs
  · trivial
  · refine disciplined_bind (disciplined_lockAll _ []) fun ph held _ h => ?_
    obtain ⟨rfl, rfl⟩ := h
    refine disciplined_bind (steady_checkAbsent now hi .growing (by simp)) fun ph held fresh h => ?_
    obtain ⟨hph, rfl⟩ := h
    refine disciplined_bind (steady_putIf hi fresh ph hph) fun ph held _ _ => ?_
    exact disciplined_bind (disciplined_unlockAll _ ph held) fun _ _ _ _ => trivial

theorem steady_clearAll {held : List (Lock c × Mode)} {is : List (Fin c.shardCount)}
    (hi : ∀ i ∈ is, i ∈ items (layout c) held) : Steady held (clearAll is) := by
  induction is with
  | nil => exact steady_pure ()
  | cons i is ih =>
    obtain ⟨hhead, htail⟩ := List.forall_mem_cons.mp hi
    exact steady_bind (steady_effect hhead (local_onShard hhead _)) fun _ => ih htail

theorem items_all : items (layout c) (taken (List.finRange c.shardCount) ++ []) = Set.univ :=
  Set.eq_univ_of_forall fun i => mem_items_taken (List.mem_finRange i)

theorem twoPhased_flush : TwoPhased (flush : Op c Unit) := by
  have hi : ∀ i ∈ List.finRange c.shardCount, i ∈ items (layout c) (taken (List.finRange c.shardCount) ++ []) :=
    fun i => mem_items_taken
  have hstore : Steady (taken (List.finRange c.shardCount) ++ []) (effect (.storeCount 0) : Op c Unit) :=
    steady_effect (hi ⟨0, c.pos⟩ (List.mem_finRange _)) (items_all ▸ local_storeCount 0)
  have hshards : TwoPhased (clearShards : Op c Unit) := by
    refine disciplined_bind (disciplined_lockAll _ []) fun ph held _ h => ?_
    obtain ⟨rfl, rfl⟩ := h
    refine disciplined_bind (steady_clearAll hi .growing (by simp)) fun ph held _ h => ?_
    obtain ⟨hph, rfl⟩ := h
    exact disciplined_bind (hstore ph hph) fun ph held _ _ => disciplined_unlockAll _ ph held
  exact disciplined_bind hshards fun ph held _ _ => disciplined_clearHeap ph held

/-- The calls that hold their locks throughout. `Del`, `Exists` and `Keys` take
one shard after the other. -/
def isAtomic : Call → Bool
  | .del _ | .existsKeys _ | .keys _ => false
  | _ => true

structure AtomicCall where
  call : Call
  now : Readings
  atomic : isAtomic call = true

def AtomicCall.program (a : AtomicCall) : Op c Result := runCall a.now a.call

theorem twoPhased_program (a : AtomicCall) : TwoPhased (a.program : Op c Result) := by
  obtain ⟨call, now, hatomic⟩ := a
  cases call with
  | del keys => cases hatomic
  | existsKeys keys => cases hatomic
  | keys pattern => cases hatomic
  | setNXMulti pairs => exact twoPhased_map _ (twoPhased_setNXMulti now pairs)
  | flush => exact twoPhased_map _ twoPhased_flush
  | _ => exact twoPhased_map _ (twoPhased_onKey _ now _)

def execCalls (s : Store c) : List AtomicCall → List Result × Store c
  | [] => ([], s)
  | a :: as =>
    let r := exec s a.now a.call
    let rest := execCalls r.2 as
    (r.1 :: rest.1, rest.2)

theorem serial_eq_execCalls (m : Memory c) (as : List AtomicCall) :
    (serial perform AtomicCall.program m as).1 = (execCalls m.store as).1 ∧
      (serial perform AtomicCall.program m as).2 = m.on fun _ => (execCalls m.store as).2 := by
  induction as generalizing m with
  | nil => exact ⟨rfl, rfl⟩
  | cons a as ih =>
    have ha : (a.program : Op c Result).eval perform m =
        ((exec m.store a.now a.call).1, m.on fun _ => (exec m.store a.now a.call).2) := alone_runCall m a.now a.call
    simp only [serial, execCalls, ha, ih]
    exact ⟨rfl, rfl⟩

/-- For any number of concurrent calls and any interleaving of their steps,
there is an order in which the calls, one after the other and each with the
readings it took, give the results and leave the maps and the counter that the
interleaving gave and left. -/
theorem calls_serializable (m : Memory c) {es : List (Event AtomicCall)}
    {S : System (Lock c) Access.Answer (Memory c) AtomicCall Result}
    (hrun : run perform AtomicCall.program ⟨m, []⟩ es = some S) (hdone : ∀ t ∈ S.threads, t.prog.isDone = true) :
    ∃ order : List (AtomicCall × Result),
      (order.map fun x => (x.1, (.done x.2 : Op c Result))).Perm (S.threads.map fun t => (t.op, t.prog)) ∧
      (execCalls m.store (order.map Prod.fst)).1 = order.map Prod.snd ∧
      (execCalls m.store (order.map Prod.fst)).2.shards = S.mem.store.shards ∧
      (execCalls m.store (order.map Prod.fst)).2.count = S.mem.store.count := by
  obtain ⟨order, hperm, hresults, hcells, hsum⟩ := serializable (D := layout c) twoPhased_program hrun hdone
  obtain ⟨hfirst, hsecond⟩ := serial_eq_execCalls m (order.map Prod.fst)
  rw [hfirst] at hresults
  rw [hsecond] at hcells hsum
  exact ⟨order, hperm, hresults, funext hcells, hsum⟩

/-- A hash that tells keys apart by their first byte, for concrete runs. -/
def byteHash : Maphash := ⟨fun b => (b.headD 0).toUInt64, fun b => (b.headD 0).toUInt64, fun _ => rfl⟩

def byteShards : Config := newConfig 8 2 0 byteHash

def incr (key : String) : AtomicCall := ⟨.incrBy (ascii key) 1, frozen (instant 0), rfl⟩

def inTurn : List (Event AtomicCall) :=
  [.start (incr "a"), .start (incr "b")] ++ (List.range 12).map fun n => .step (n % 2)

theorem inTurn_serial :
    ∃ S, run perform AtomicCall.program ⟨⟨new byteShards, []⟩, []⟩ inTurn = some S ∧
      ∃ order : List (AtomicCall × Result), order.length = 2 ∧
        (execCalls (new byteShards) (order.map Prod.fst)).1 = order.map Prod.snd ∧
        (execCalls (new byteShards) (order.map Prod.fst)).2.count = 2 := by
  have h : ((run perform AtomicCall.program ⟨⟨new byteShards, []⟩, []⟩ inTurn).map fun S =>
      (S.threads.length, S.threads.all fun t => t.prog.isDone, S.mem.store.count)) = some (2, true, 2) := by
    decide +kernel
  obtain ⟨S, hS, hfacts⟩ := Option.map_eq_some_iff.mp h
  obtain ⟨hlength, hdone, hcount⟩ : S.threads.length = 2 ∧ S.threads.all (fun t => t.prog.isDone) = true ∧
      S.mem.store.count = 2 := by simpa using hfacts
  obtain ⟨order, hperm, hresults, _, hsum⟩ := calls_serializable _ hS (List.all_eq_true.mp hdone)
  have hlen := hperm.length_eq
  simp only [List.length_map, hlength] at hlen
  exact ⟨S, hS, order, hlen, hresults, hsum.trans hcount⟩

end MemX.StoreSerial
