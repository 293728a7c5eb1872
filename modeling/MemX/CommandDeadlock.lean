import MemX.CommandRegistry
import MemX.LockOrder
import MemX.StoreLocks

namespace MemX.CommandDeadlock

open DecimalText Clock StoreState StoreRules StoreCalls CommandProgram CommandHandlers CommandRegistry
open RespWrite LockProgram LockOrder StoreLocks
open LockProgram.Prog (acquire release)

variable {c : Config} {α β : Type}

def aofAppend (cmd : List Bytes) : Op c Unit := do
  acquire .write .aofMu
  effect (.record cmd)
  release .write .aofMu

/-- `Sync` of the append-only file, as the background ticker calls it; what it
writes out is not modelled. -/
def aofSync : Op c Unit := do
  acquire .write .aofMu
  release .write .aofMu

def propagate (aof : Bool) (cmd : List Bytes) : Op c Unit := if aof then aofAppend cmd else pure ()

/-- A handler with the readings of each critical section it runs. -/
def runHandler (aof : Bool) (now : Nat → Readings) : Handler α → Op c α
  | .pure a => pure a
  | .call a k => do
    let r ← runSection (now 0) a
    runHandler aof (fun i => now (i + 1)) (k r)
  | .propagate cmd k => do
    propagate aof cmd
    runHandler aof now k

/-- `Execute`: with an append-only file attached, write commands are serialized. -/
def runCommand (h : Host) (aof : Bool) (now : Nat → Readings) (tokens : List Bytes) : Op c Reply :=
  if isWrite h tokens && aof then do
    acquire .write .writeMu
    let r ← runHandler aof now (execute h tokens)
    release .write .writeMu
    pure r
  else runHandler aof now (execute h tokens)

inductive Operation
  | call (now : Readings) (a : Call)
  | command (now : Nat → Readings) (tokens : List Bytes)
  | sweep (now : Instant)
  | sync

def Operation.program (h : Host) (aof : Bool) : Operation → Op c Unit
  | .call now a => (fun _ => ()) <$> runCall now a
  | .command now tokens => (fun _ => ()) <$> runCommand h aof now tokens
  | .sweep now => StoreLocks.sweep now
  | .sync => aofSync

def rank : Lock c → Nat
  | .writeMu => 0
  | .shard i => i + 1
  | .expMu => c.shardCount + 1
  | .aofMu => c.shardCount + 2

section Sections

variable {held : List (Lock c × Mode)}

theorem balanced_effect (a : Access c) : Balanced rank held (effect a) := fun _ => rfl

theorem balanced_lookup (i : Fin c.shardCount) (key : Bytes) : Balanced rank held (lookup i key) := fun _ => rfl

theorem balanced_purge (i : Fin c.shardCount) (key : Bytes) : Balanced rank held (purge i key) :=
  balanced_bind (balanced_effect _) fun _ => balanced_effect _

theorem balanced_track (h : ∀ x ∈ held, rank x.1 < rank (.expMu : Lock c)) (key : Bytes) (w : Write) :
    Balanced rank held (track key w) := by
  unfold track
  split_ifs
  · exact balanced_under h (balanced_effect _)
  · exact balanced_pure ()

variable {i : Fin c.shardCount}

theorem balanced_create (h : ∀ x ∈ held, rank x.1 < rank (.expMu : Lock c)) (key : Bytes) (w : Option Write) :
    Balanced rank held (create i key w) := by
  cases w with
  | none => exact balanced_pure ()
  | some w =>
    exact balanced_bind (balanced_effect _) fun _ => balanced_bind (balanced_effect _) fun _ => balanced_track h key w

theorem balanced_apply (h : ∀ x ∈ held, rank x.1 < rank (.expMu : Lock c)) (key : Bytes) (e : Effect) :
    Balanced rank held (apply i key e) := by
  cases e with
  | keep => exact balanced_pure ()
  | purge => exact balanced_purge i key
  | put w => exact balanced_bind (balanced_effect _) fun _ => balanced_track h key w

theorem balanced_keyBody (h : ∀ x ∈ held, rank x.1 < rank (.expMu : Lock c)) (op : KeyOp α) (now : Readings)
    (key : Bytes) (e : Option Entry) : Balanced rank held (keyBody op now i key e) := by
  cases e with
  | none => exact balanced_bind (balanced_create h key _) fun _ => balanced_pure _
  | some e =>
    rw [keyBody]
    split_ifs
    · exact balanced_bind (balanced_purge i key) fun _ =>
        balanced_bind (balanced_create h key _) fun _ => balanced_pure _
    · exact balanced_bind (balanced_apply h key _) fun _ => balanced_pure _

def Outside (held : List (Lock c × Mode)) : Prop := ∀ x ∈ held, rank x.1 = 0

theorem Outside.below_shard (h : Outside held) (i : Fin c.shardCount) :
    ∀ x ∈ held, rank x.1 < rank (.shard i : Lock c) := by
  intro x hx
  rw [h x hx]
  exact Nat.succ_pos _

theorem below_expMu (h : Outside held) (m : Mode) (i : Fin c.shardCount) :
    ∀ x ∈ ((.shard i, m) :: held), rank x.1 < rank (.expMu : Lock c) := by
  refine List.forall_mem_cons.mpr ⟨Nat.succ_lt_succ i.isLt, fun x hx => ?_⟩
  rw [h x hx]
  exact Nat.succ_pos _

theorem balanced_onKey (h : Outside held) (op : KeyOp α) (now : Readings) (key : Bytes) :
    Balanced rank held (onKey op now key : Op c α) :=
  balanced_under (f := id) (h.below_shard _)
    (balanced_bind (balanced_lookup _ _) fun e => balanced_keyBody (below_expMu h _ _) op now key e)

theorem balanced_existsKey (h : Outside held) (now : Readings) (key : Bytes) :
    Balanced rank held (existsKey now key : Op c Bool) :=
  balanced_under (h.below_shard _) (balanced_lookup _ _)

theorem balanced_readShard (h : Outside held) (i : Fin c.shardCount) : Balanced rank held (readShard i) :=
  balanced_under (f := id) (h.below_shard _) fun _ => rfl

theorem balanced_purgeDue (h : Outside held) (d : ExpEntry) : Balanced rank held (purgeDue d : Op c Unit) := by
  have hif : ∀ (i : Fin c.shardCount) held e, Balanced rank held (purgeIf i d e) := by
    intro i held e
    cases e with
    | none => exact balanced_pure ()
    | some e =>
      rw [purgeIf]
      split_ifs
      · exact balanced_purge i d.key
      · exact balanced_pure ()
  exact balanced_under (f := id) (h.below_shard _) (balanced_bind (balanced_lookup _ _) fun e => hif _ _ e)

theorem ordered_lockAll {is : List (Fin c.shardCount)} (hlt : is.Pairwise (· < ·))
    (h : ∀ x ∈ held, ∀ i ∈ is, rank x.1 < rank (.shard i : Lock c)) :
    Ordered rank (fun held' _ => held' = taken is ++ held) held (lockAll is) := by
  induction is generalizing held with
  | nil => exact rfl
  | cons i is ih =>
    obtain ⟨hi, hlt⟩ := List.pairwise_cons.mp hlt
    have hnext : ∀ x ∈ (.shard i, Mode.write) :: held, ∀ j ∈ is, rank x.1 < rank (.shard j : Lock c) := by
      refine List.forall_mem_cons.mpr ⟨fun j hj => Nat.succ_lt_succ (hi j hj), fun x hx j hj => ?_⟩
      exact h x hx j (List.mem_cons_of_mem i hj)
    refine ⟨fun x hx => h x hx i List.mem_cons_self, ?_⟩
    rw [taken_cons]
    exact ih hlt hnext

theorem ordered_unlockAll (is : List (Fin c.shardCount)) :
    Ordered rank (fun held' _ => held' = held) (is.map (fun i => (.shard i, .write)) ++ held) (unlockAll is) := by
  induction is with
  | nil => exact rfl
  | cons i is ih =>
    refine ⟨List.mem_cons_self, ?_⟩
    rw [List.map_cons, List.cons_append, List.erase_cons_head]
    exact ih

theorem balanced_checkAbsent (now : Readings) (pairs : List (Bytes × Bytes)) (held : List (Lock c × Mode)) :
    Balanced rank held (checkAbsent now pairs : Op c Bool) := by
  induction pairs generalizing now with
  | nil => exact balanced_pure true
  | cons p pairs ih =>
    refine balanced_bind (balanced_lookup _ _) fun e => ?_
    cases e with
    | none => exact ih _
    | some e =>
      simp only
      split_ifs
      · exact balanced_bind (balanced_purge _ _) fun _ => ih _
      · exact balanced_pure false

theorem balanced_putAll (pairs : List (Bytes × Bytes)) : Balanced rank held (putAll pairs : Op c Unit) := by
  induction pairs with
  | nil => exact balanced_pure ()
  | cons p pairs ih => exact balanced_bind (balanced_effect _) fun _ => balanced_bind (balanced_effect _) fun _ => ih

theorem balanced_putIf (pairs : List (Bytes × Bytes)) (fresh : Bool) :
    Balanced rank held (putIf pairs fresh : Op c Unit) := by
  cases fresh with
  | false => exact balanced_pure ()
  | true => exact balanced_putAll pairs

theorem collect_nodup {idxs : List (Fin c.shardCount)} (h : idxs.Nodup) (pairs : List (Bytes × Bytes)) :
    (collect c idxs pairs).Nodup := by
  induction pairs generalizing idxs with
  | nil => exact h
  | cons p pairs ih =>
    rw [collect]
    split_ifs with hm
    · exact ih h
    · refine ih (List.nodup_append.mpr ⟨h, List.nodup_singleton _, fun a ha b hb he => hm ?_⟩)
      rw [← List.mem_singleton.mp hb, ← he]
      exact ha

theorem involved_ascending (c : Config) (pairs : List (Bytes × Bytes)) : (involved c pairs).Pairwise (· < ·) := by
  have hsorted : (involved c pairs).Pairwise fun a b => decide (a ≤ b) = true :=
    List.pairwise_mergeSort (by simpa using fun a b c => le_trans) (by simpa using fun a b => le_total a b) _
  have hnodup : (involved c pairs).Nodup :=
    (List.mergeSort_perm _ _).nodup_iff.mpr (collect_nodup List.nodup_nil pairs)
  exact (hsorted.and hnodup).imp fun ⟨hle, hne⟩ => lt_of_le_of_ne (of_decide_eq_true hle) hne

theorem balanced_setNXMulti (h : Outside held) (now : Readings) (pairs : List (Bytes × Bytes)) :
    Balanced rank held (setNXMulti now pairs : Op c Bool) := by
  unfold setNXMulti
  split_ifs
  · exact balanced_pure true
  · exact ordered_then (ordered_lockAll (involved_ascending c pairs) fun x hx i _ => h.below_shard i x hx) fun _ =>
      ordered_then (balanced_checkAbsent now pairs _) fun fresh =>
        ordered_then (balanced_putIf pairs fresh) fun _ =>
          ordered_then (ordered_unlockAll _) fun _ => balanced_pure fresh

theorem balanced_clearAll (is : List (Fin c.shardCount)) : Balanced rank held (clearAll is) := by
  induction is with
  | nil => exact balanced_pure ()
  | cons i is ih => exact balanced_bind (balanced_effect _) fun _ => ih

theorem balanced_clearShards (h : Outside held) : Balanced rank held (clearShards : Op c Unit) :=
  ordered_then (ordered_lockAll (List.pairwise_lt_finRange _) fun x hx i _ => h.below_shard i x hx) fun _ =>
    ordered_then (balanced_clearAll _) fun _ =>
      ordered_then (balanced_effect _) fun _ => ordered_unlockAll _

theorem balanced_clearHeap (h : Outside held) : Balanced rank held (clearHeap : Op c Unit) := by
  refine balanced_under (f := id) (fun x hx => ?_) (balanced_effect _)
  rw [h x hx]
  exact Nat.succ_pos _

theorem balanced_shardKeys (h : Outside held) (now : Readings) (pattern : Bytes) (i : Fin c.shardCount) :
    Balanced rank held (shardKeys now pattern i) := balanced_bind (balanced_readShard h i) fun _ => balanced_pure _

theorem balanced_runSection (h : Outside held) (now : Readings) (a : Section) :
    Balanced rank held (runSection now a : Op c a.Result) := by
  cases a with
  | existsKey key => exact balanced_existsKey h now key
  | setNXMulti pairs => exact balanced_setNXMulti h now pairs
  | clearShards => exact balanced_clearShards h
  | clearHeap => exact balanced_clearHeap h
  | shardKeys i pattern =>
    change Balanced rank held (if h : i < c.shardCount then shardKeys now pattern ⟨i, h⟩ else .done [])
    split_ifs
    · exact balanced_shardKeys h now pattern _
    · exact balanced_pure []
  | shardCount => exact balanced_pure _
  | len => exact fun _ => rfl
  | now => exact balanced_pure _
  | _ => exact balanced_onKey h _ now _

theorem balanced_delKeys (h : Outside held) (now : Readings) (keys : List Bytes) :
    Balanced rank held (delKeys now keys : Op c Nat) := by
  induction keys generalizing now with
  | nil => exact balanced_pure 0
  | cons key keys ih =>
    exact balanced_bind (balanced_onKey h _ now key) fun _ => balanced_bind (ih _) fun _ => balanced_pure _

theorem balanced_existsKeys (h : Outside held) (now : Readings) (keys : List Bytes) :
    Balanced rank held (existsKeys now keys : Op c Nat) := by
  induction keys generalizing now with
  | nil => exact balanced_pure 0
  | cons key keys ih =>
    exact balanced_bind (balanced_existsKey h now key) fun _ => balanced_bind (ih _) fun _ => balanced_pure _

theorem balanced_keysFrom (h : Outside held) (pattern : Bytes) (now : Readings) (is : List (Fin c.shardCount)) :
    Balanced rank held (keysFrom pattern now is) := by
  induction is generalizing now with
  | nil => exact balanced_pure []
  | cons i is ih => exact balanced_bind (balanced_readShard h i) fun _ => balanced_bind (ih _) fun _ => balanced_pure _

theorem balanced_runCall (h : Outside held) (now : Readings) (a : Call) :
    Balanced rank held (runCall now a : Op c StoreCalls.Result) := by
  cases a with
  | del keys => exact balanced_map _ (balanced_delKeys h now keys)
  | existsKeys keys => exact balanced_map _ (balanced_existsKeys h now keys)
  | setNXMulti pairs => exact balanced_map _ (balanced_setNXMulti h now pairs)
  | flush => exact balanced_map _ (balanced_bind (balanced_clearShards h) fun _ => balanced_clearHeap h)
  | keys pattern => exact balanced_map _ (balanced_keysFrom h pattern now _)
  | _ => exact balanced_map _ (balanced_onKey h _ now _)

theorem balanced_propagate (h : Outside held) (aof : Bool) (cmd : List Bytes) :
    Balanced rank held (propagate aof cmd : Op c Unit) := by
  cases aof with
  | false => exact balanced_pure ()
  | true =>
    refine balanced_under (f := id) (fun x hx => ?_) (balanced_effect _)
    rw [h x hx]
    exact Nat.succ_pos _

theorem balanced_runHandler (h : Outside held) (aof : Bool) (now : Nat → Readings) (p : Handler α) :
    Balanced rank held (runHandler aof now p : Op c α) := by
  induction p generalizing now with
  | pure a => exact balanced_pure a
  | call a k ih => exact balanced_bind (balanced_runSection h (now 0) a) fun r => ih r _
  | propagate cmd k ih => exact balanced_bind (balanced_propagate h aof cmd) fun _ => ih now

end Sections

theorem outside_nil : Outside ([] : List (Lock c × Mode)) := fun x hx => by cases hx

theorem balanced_runCommand (h : Host) (aof : Bool) (now : Nat → Readings) (tokens : List Bytes) :
    Balanced rank [] (runCommand h aof now tokens : Op c Reply) := by
  have hmu : Outside ([(.writeMu, .write)] : List (Lock c × Mode)) := by
    intro x hx
    cases List.mem_singleton.mp hx
    rfl
  unfold runCommand
  split_ifs
  · exact balanced_under (f := id) (by simp) (balanced_runHandler hmu aof now _)
  · exact balanced_runHandler outside_nil aof now _

theorem balanced_sweep (now : Instant) : Balanced rank [] (StoreLocks.sweep now : Op c Unit) := by
  have hall : ∀ ds, Balanced rank [] (purgeAll ds : Op c Unit) := by
    intro ds
    induction ds with
    | nil => exact balanced_pure ()
    | cons d ds ih => exact balanced_bind (balanced_purgeDue outside_nil d) fun _ => ih
  have hpop : Balanced rank [(.expMu, .write)] (popDue now : Op c (List ExpEntry)) := fun _ => rfl
  have hrelease : Ordered rank (fun held' _ => held' = []) [(.expMu, .write)] (release .write .expMu : Op c Unit) :=
    ⟨List.mem_cons_self, List.erase_cons_head ..⟩
  exact ordered_then (ordered_acquire (by simp)) fun _ =>
    ordered_then hpop fun due => ordered_then hrelease fun _ => hall due

theorem balanced_program (h : Host) (aof : Bool) (o : Operation) : Balanced rank [] (o.program h aof : Op c Unit) := by
  cases o with
  | call now a => exact balanced_map _ (balanced_runCall outside_nil now a)
  | command now tokens => exact balanced_map _ (balanced_runCommand h aof now tokens)
  | sweep now => exact balanced_sweep now
  | sync => exact balanced_under (f := id) (by simp) (balanced_pure ())

theorem lockFree_effect (a : Access c) : LockFree (effect a) := fun ls h => by
  cases h with
  | stop => rfl
  | act r h =>
    cases h
    rfl

theorem lockFree_lookup (i : Fin c.shardCount) (key : Bytes) : LockFree (lookup i key) := fun ls h => by
  cases h with
  | stop => rfl
  | act r h =>
    cases h
    rfl

theorem lockFree_checkAbsent (now : Readings) (pairs : List (Bytes × Bytes)) :
    LockFree (checkAbsent now pairs : Op c Bool) := by
  induction pairs generalizing now with
  | nil => exact lockFree_pure true
  | cons p pairs ih =>
    refine lockFree_bind (lockFree_lookup _ _) fun e => ?_
    cases e with
    | none => exact ih _
    | some e =>
      simp only
      split_ifs
      · exact lockFree_bind (lockFree_bind (lockFree_effect _) fun _ => lockFree_effect _) fun _ => ih _
      · exact lockFree_pure false

theorem lockFree_putIf (pairs : List (Bytes × Bytes)) (fresh : Bool) : LockFree (putIf pairs fresh : Op c Unit) := by
  have hall : LockFree (putAll pairs : Op c Unit) := by
    induction pairs with
    | nil => exact lockFree_pure ()
    | cons p pairs ih => exact lockFree_bind (lockFree_effect _) fun _ => lockFree_bind (lockFree_effect _) fun _ => ih
  cases fresh with
  | false => exact lockFree_pure ()
  | true => exact hall

theorem lockFree_unlockAll (is : List (Fin c.shardCount)) : LockFree (unlockAll is) := by
  induction is with
  | nil => exact lockFree_pure ()
  | cons i is ih =>
    intro ls h
    cases h with
    | stop => rfl
    | unlock _ _ h => exact ih ls h

theorem acquires_lockAll {is : List (Fin c.shardCount)} {ls : List (Lock c)} (h : Acquires (lockAll is) ls) :
    ls <+: is.map .shard := by
  induction is generalizing ls with
  | nil =>
    cases h
    exact List.nil_prefix
  | cons i is ih =>
    cases h with
    | stop => exact List.nil_prefix
    | lock _ h => exact (List.prefix_cons_inj _).mpr (ih h)

theorem acquires_setNXMulti {now : Readings} {pairs : List (Bytes × Bytes)} {ls : List (Lock c)}
    (h : Acquires (setNXMulti now pairs) ls) : ls <+: (involved c pairs).map .shard := by
  unfold setNXMulti at h
  split_ifs at h
  · cases h
    exact List.nil_prefix
  · refine acquires_lockAll (acquires_first (fun _ => ?_) h)
    exact lockFree_bind (lockFree_checkAbsent now pairs) fun fresh =>
      lockFree_bind (lockFree_putIf pairs fresh) fun _ =>
        lockFree_bind (lockFree_unlockAll _) fun _ => lockFree_pure fresh

/-- In every state that a server reaches, whatever its goroutines run, one of
them can go on if one is not finished. A batch never takes a lock twice. -/
theorem deadlock_free (h : Host) (aof : Bool) (m : Memory c) {es : List (Event Operation)}
    {S : System (Lock c) Access.Answer (Memory c) Operation Unit}
    (hrun : run perform (Operation.program h aof) ⟨m, []⟩ es = some S)
    (hu : ∃ t ∈ S.threads, t.prog.isDone = false) :
    (∃ j S', step perform S j = some S') ∧
      ∀ now pairs ls, Acquires (setNXMulti now pairs : Op c Bool) ls → ls.Nodup := by
  have hk : ∀ t ∈ S.threads, Keeping rank t :=
    run_threads (balanced_program h aof) (fun _ _ _ _ _ => keeping_takes) hrun
  obtain ⟨t, ht, t', mem', htakes⟩ := progress hk hu
  obtain ⟨j, hj⟩ := List.getElem?_of_mem ht
  refine ⟨⟨j, ⟨mem', S.threads.set j t'⟩, step_eq_some_iff.mpr ⟨t, t', hj, htakes, rfl⟩⟩, ?_⟩
  intro now pairs ls hls
  have hinj : Function.Injective (Lock.shard : Fin c.shardCount → Lock c) := fun i j he => by
    cases he
    rfl
  have hnodup : (involved c pairs).Nodup := (involved_ascending c pairs).imp ne_of_lt
  exact (hnodup.map hinj).sublist (acquires_setNXMulti hls).sublist

def setCommand : Operation := .command (fun _ => frozen (instant 0)) [ascii "SET", ascii "k", ascii "v"]

def twoWriters : List (Event Operation) := [.start setCommand, .start setCommand, .step 0, .step 0]

theorem twoWriters_go_on :
    ∃ S, run perform (Operation.program host true) ⟨⟨new twoShards, []⟩, []⟩ twoWriters = some S ∧
      (step perform S 1).isNone = true ∧ ∃ j S', step perform S j = some S' := by
  have h : ((run perform (Operation.program host true) ⟨⟨new twoShards, []⟩, []⟩ twoWriters).map fun S =>
      ((step perform S 1).isNone, S.threads.any fun t => !t.prog.isDone)) = some (true, true) := by decide +kernel
  obtain ⟨S, hS, hboth⟩ := Option.map_eq_some_iff.mp h
  obtain ⟨hblocked, hopen⟩ := Prod.mk.inj hboth
  refine ⟨S, hS, hblocked, (deadlock_free host true _ hS ?_).1⟩
  simpa using hopen

end MemX.CommandDeadlock
