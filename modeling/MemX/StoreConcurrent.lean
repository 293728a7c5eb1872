import MemX.StoreLookup
import MemX.StoreSerial

namespace MemX.StoreConcurrent

open MachineInt DecimalText Clock StoreState StoreRules StoreCalls LockProgram StoreLocks StoreSerial TwoPhaseRun

variable {c : Config} {k : Bytes} {s : Store c} {now : Readings} {v : Int}

/-- The calls that leave the entry of `k` as it is, if it has no deadline. -/
def spares (k : Bytes) : Call → Bool
  | .get _ | .ttl _ | .typeOf _ => true
  | .set key _ _ _ | .incrBy key _ | .append key _ | .expire key _ | .expireAt key _ | .expireAtMs key _
  | .persist key | .getSet key _ => key ≠ k
  | .setNXMulti pairs => pairs.all fun p => p.1 ≠ k
  | .del _ | .existsKeys _ | .keys _ | .flush => false

def Lasting (e : Option Entry) : Prop := ∀ x ∈ e, x.expireAt = 0

theorem live_lasting {e : Option Entry} (h : Lasting e) (t : Instant) : StoreLookup.live t e = e := by
  cases e with
  | none => rfl
  | some x => simp [StoreLookup.live, expired, h x rfl]

theorem lookup_onKey_of_ne {α : Type} (op : KeyOp α) {key : Bytes} (hk : key ≠ k) :
    StoreOps.lookup (StoreOps.onKey op s now key).2 k = StoreOps.lookup s k := by
  rw [StoreLookup.onKey_lookup, if_neg (Ne.symm hk)]

theorem lookup_onKey_of_keeps {α : Type} {op : KeyOp α} (habs : ∀ t, (op.absent t).2 = none)
    (hpre : ∀ t e, (op.present t e).2 = .keep) (hl : Lasting (StoreOps.lookup s k)) (key : Bytes) :
    StoreOps.lookup (StoreOps.onKey op s now key).2 k = StoreOps.lookup s k := by
  rw [StoreLookup.onKey_lookup]
  split_ifs with hk
  · subst hk
    rw [StoreLookup.view, live_lasting hl]
    cases StoreOps.lookup s k with
    | none => simp [StoreLookup.next, habs]
    | some e => simp [StoreLookup.next, hpre, StoreLookup.Effect.entry]
  · rfl

theorem lookup_checkAbsent_of_ne {pairs : List (Bytes × Bytes)} (h : ∀ p ∈ pairs, p.1 ≠ k) :
    StoreOps.lookup (StoreOps.checkAbsent s now pairs).2 k = StoreOps.lookup s k := by
  induction pairs generalizing s now with
  | nil => rfl
  | cons p pairs ih =>
    obtain ⟨hp, hpairs⟩ := List.forall_mem_cons.mp h
    unfold StoreOps.checkAbsent
    cases StoreOps.lookup s p.1 with
    | none => exact ih hpairs
    | some e =>
      dsimp only
      split_ifs
      · rw [ih hpairs, StoreLookup.lookup_purge, if_neg (Ne.symm hp)]
      · rfl

theorem lookup_putAll_of_ne {pairs : List (Bytes × Bytes)} (h : ∀ p ∈ pairs, p.1 ≠ k) :
    StoreOps.lookup (StoreOps.putAll s pairs) k = StoreOps.lookup s k := by
  induction pairs generalizing s with
  | nil => rfl
  | cons p pairs ih =>
    obtain ⟨hp, hpairs⟩ := List.forall_mem_cons.mp h
    rw [StoreOps.putAll, ih hpairs, StoreLookup.lookup_addCount, StoreLookup.lookup_write, if_neg (Ne.symm hp)]

theorem lookup_setNXMulti_of_ne {pairs : List (Bytes × Bytes)} (h : ∀ p ∈ pairs, p.1 ≠ k) :
    StoreOps.lookup (StoreOps.setNXMulti s now pairs).2 k = StoreOps.lookup s k := by
  have hcheck : StoreOps.lookup (StoreOps.checkAbsent s now pairs).2 k = StoreOps.lookup s k :=
    lookup_checkAbsent_of_ne h
  unfold StoreOps.setNXMulti
  cases hc : StoreOps.checkAbsent s now pairs with
  | mk fresh s' =>
    rw [hc] at hcheck
    cases fresh with
    | false => exact hcheck
    | true => exact (lookup_putAll_of_ne h).trans hcheck

variable (now) in
theorem lookup_exec_of_spares {a : Call} (ha : spares k a = true) (hl : Lasting (StoreOps.lookup s k)) :
    StoreOps.lookup (exec s now a).2 k = StoreOps.lookup s k := by
  cases a with
  | get key => exact lookup_onKey_of_keeps (fun _ => rfl) (fun _ _ => rfl) hl key
  | ttl key =>
    refine lookup_onKey_of_keeps (fun _ => rfl) (fun t e => ?_) hl key
    unfold StoreRules.ttl
    dsimp only
    split_ifs <;> rfl
  | typeOf key =>
    change StoreOps.lookup (StoreOps.typeOf s now key).2 k = _
    rw [typeOf_snd]
    exact lookup_onKey_of_keeps (fun _ => rfl) (fun _ _ => rfl) hl key
  | setNXMulti pairs => exact lookup_setNXMulti_of_ne (by simpa [spares] using ha)
  | del keys => cases ha
  | existsKeys keys => cases ha
  | keys pattern => cases ha
  | flush => cases ha
  | _ => exact lookup_onKey_of_ne _ (by simpa [spares] using ha)

/-- The calls of an interleaving in an order that explains it. -/
theorem exists_order {m : Memory c} {es : List (Event AtomicCall)}
    {S : System (Lock c) Access.Answer (Memory c) AtomicCall Result}
    (hrun : LockProgram.run perform AtomicCall.program ⟨m, []⟩ es = some S)
    (hdone : ∀ t ∈ S.threads, t.prog.isDone = true) :
    ∃ order : List (AtomicCall × Result),
      (order.map fun x => (x.1, (.done x.2 : Op c Result))).Perm (S.threads.map fun t => (t.op, t.prog)) ∧
      (execCalls m.store (order.map Prod.fst)).1 = order.map Prod.snd ∧
      ∀ k, StoreOps.lookup (execCalls m.store (order.map Prod.fst)).2 k = StoreOps.lookup S.mem.store k := by
  obtain ⟨order, hperm, hresults, hcells, -⟩ := serializable (D := layout c) twoPhased_program hrun hdone
  obtain ⟨hfirst, hsecond⟩ := serial_eq_execCalls m (order.map Prod.fst)
  rw [hfirst] at hresults
  rw [hsecond] at hcells
  exact ⟨order, hperm, hresults, fun k => congrArg (AList.lookup k) (hcells (shardIndex c k))⟩

section Order

variable {order : List (AtomicCall × Result)} {threads : List (Thread (Lock c) Access.Answer AtomicCall Result)}
  (hperm : (order.map fun x => (x.1, (.done x.2 : Op c Result))).Perm (threads.map fun t => (t.op, t.prog)))

include hperm

theorem calls_perm : (order.map Prod.fst).Perm (threads.map Thread.op) := by
  have h := hperm.map Prod.fst
  rw [List.map_map, List.map_map] at h
  exact h

theorem forall_order (P : Call → Prop) (h : ∀ t ∈ threads, P t.op.call) : ∀ x ∈ order, P x.1.call := fun x hx => by
  obtain ⟨t, ht, heq⟩ := List.mem_map.mp ((calls_perm hperm).mem_iff.mp (List.mem_map_of_mem hx))
  exact heq ▸ h t ht

/-- The order and the threads agree on the calls of one kind and their results. -/
theorem chosen_perm (p : AtomicCall → Bool) :
    ((order.filter fun x => p x.1).map fun x => (x.1, (.done x.2 : Op c Result))).Perm
      ((threads.filter fun t => p t.op).map fun t => (t.op, t.prog)) := by
  have h := hperm.filter fun x => p x.1
  rw [List.filter_map, List.filter_map] at h
  exact h

end Order

def race (x y z : AtomicCall) (n : Nat) : List (Event AtomicCall) :=
  [.start x, .start y, .start z] ++ (List.range 12).map (fun i => .step (i % 2 * 2)) ++ List.replicate n (.step 1)

section Counter

/-- What an increment finds under its key when it reads `v` there. -/
def Holds (v : Int) (e : Option Entry) : Prop :=
  (e = none ∧ v = 0) ∨ ∃ x, e = some x ∧ x.expireAt = 0 ∧ parseInt x.val = some v

theorem Holds.lasting {e : Option Entry} (h : Holds v e) : Lasting e := by
  rcases h with ⟨rfl, -⟩ | ⟨x, rfl, hx, -⟩
  · exact fun x hx => by cases hx
  · exact fun y hy => by cases hy; exact hx

theorem Holds.inRange {e : Option Entry} (h : Holds v e) : InRange v := by
  rcases h with ⟨-, rfl⟩ | ⟨x, -, -, hv⟩
  · decide
  · exact parseInt_inRange hv

def delta (k : Bytes) : Call → Option Int
  | .incrBy key d => if key = k then some d else none
  | _ => none

variable (now) in
theorem exec_incrBy {a : Call} {d : Int} (ha : delta k a = some d) (hv : Holds v (StoreOps.lookup s k)) :
    (exec s now a).1 = .number (.ok (wrap64 (v + d))) ∧
      Holds (wrap64 (v + d)) (StoreOps.lookup (exec s now a).2 k) := by
  cases a with
  | incrBy key d' =>
    simp only [delta] at ha
    split_ifs at ha with hk
    obtain rfl : d' = d := Option.some.inj ha
    subst hk
    have hview : StoreLookup.view s (now 0) key = StoreOps.lookup s key := live_lasting hv.lasting _
    have hanswer : (StoreOps.onKey (StoreRules.incrBy d') s now key).1 = .ok (wrap64 (v + d')) ∧
        StoreOps.lookup (StoreOps.onKey (StoreRules.incrBy d') s now key).2 key =
          some ⟨formatInt (wrap64 (v + d')), 0⟩ := by
      rw [StoreLookup.onKey_answer, StoreLookup.onKey_lookup, if_pos rfl, hview]
      rcases hv with ⟨hnone, rfl⟩ | ⟨x, hsome, -, hx⟩
      · rw [hnone]
        exact ⟨rfl, rfl⟩
      · rw [hsome]
        simp [StoreLookup.answer, StoreLookup.next, StoreRules.incrBy, hx, StoreLookup.Effect.entry, StoreRules.plain]
    exact ⟨congrArg Result.number hanswer.1,
      .inr ⟨_, hanswer.2, rfl, parseInt_formatInt (wrap64_inRange _)⟩⟩
  | _ => cases ha

theorem wrap64_wrap64_add (x y : Int) : wrap64 (wrap64 x + y) = wrap64 (x + y) := by
  unfold wrap64
  omega

theorem execCalls_counter {as : List AtomicCall} (hv : Holds v (StoreOps.lookup s k))
    (hops : ∀ a ∈ as, (delta k a.call).isSome = true ∨ spares k a.call = true) :
    Holds (wrap64 (v + (as.filterMap fun a => delta k a.call).sum)) (StoreOps.lookup (execCalls s as).2 k) := by
  induction as generalizing s v with
  | nil => simpa [execCalls, wrap64_of_inRange hv.inRange] using hv
  | cons a as ih =>
    obtain ⟨ha, has⟩ := List.forall_mem_cons.mp hops
    cases hd : delta k a.call with
    | some d =>
      have h := ih (exec_incrBy a.now hd hv).2 has
      rw [wrap64_wrap64_add, add_assoc] at h
      simpa [execCalls, hd] using h
    | none =>
      have hkeep := lookup_exec_of_spares a.now (ha.resolve_left (by simp [hd])) hv.lasting
      have h := ih (hkeep ▸ hv) has
      simpa [execCalls, hd] using h

/-- No increment is lost: whatever runs at the same time on other keys, or only
reads this one, and in whatever interleaving, the number is in the end the one
at the start with every increment added. -/
theorem increments_not_lost {m : Memory c} (hv : Holds v (StoreOps.lookup m.store k))
    {es : List (Event AtomicCall)} {S : System (Lock c) Access.Answer (Memory c) AtomicCall Result}
    (hrun : LockProgram.run perform AtomicCall.program ⟨m, []⟩ es = some S)
    (hdone : ∀ t ∈ S.threads, t.prog.isDone = true)
    (hops : ∀ t ∈ S.threads, (delta k t.op.call).isSome = true ∨ spares k t.op.call = true) :
    Holds (wrap64 (v + (S.threads.filterMap fun t => delta k t.op.call).sum)) (StoreOps.lookup S.mem.store k) := by
  obtain ⟨order, hperm, -, hlookup⟩ := exists_order hrun hdone
  have hsum := ((calls_perm hperm).filterMap fun a => delta k a.call).sum_eq
  have hall := forall_order hperm (fun a => (delta k a).isSome = true ∨ spares k a = true) hops
  have h := execCalls_counter hv (List.forall_mem_map.mpr hall)
  rw [hsum, List.filterMap_map] at h
  exact hlookup k ▸ h

theorem race_counts_two :
    ∃ S, run perform AtomicCall.program ⟨⟨new byteShards, []⟩, []⟩ (race (incr "a") (incr "a") (incr "b") 5) = some S ∧
      Holds 2 (StoreOps.lookup S.mem.store (ascii "a")) := by
  have h : ((run perform AtomicCall.program ⟨⟨new byteShards, []⟩, []⟩
      (race (incr "a") (incr "a") (incr "b") 5)).map fun S =>
        (S.threads.all fun t => t.prog.isDone,
          S.threads.all fun t => (delta (ascii "a") t.op.call).isSome || spares (ascii "a") t.op.call,
          (S.threads.filterMap fun t => delta (ascii "a") t.op.call).sum)) = some (true, true, 2) := by
    decide +kernel
  obtain ⟨S, hS, hfacts⟩ := Option.map_eq_some_iff.mp h
  obtain ⟨hdone, hops, hsum⟩ := by simpa only [Prod.mk.injEq, List.all_eq_true, Bool.or_eq_true] using hfacts
  have hcount := increments_not_lost (.inl ⟨rfl, rfl⟩) hS hdone hops
  rw [hsum] at hcount
  exact ⟨S, hS, hcount⟩

theorem delta_of_spares {a : Call} (h : spares k a = true) : delta k a = none := by
  cases a with
  | incrBy key d => simpa [spares, delta] using h
  | _ => rfl

theorem execCalls_tickets {order : List (AtomicCall × Result)} (hv : Holds v (StoreOps.lookup s k))
    (hops : ∀ x ∈ order, delta k x.1.call = some 1 ∨ spares k x.1.call = true)
    (hroom : v + (order.filter fun x => (delta k x.1.call).isSome).length < 2 ^ 63)
    (hres : (execCalls s (order.map Prod.fst)).1 = order.map Prod.snd) :
    (order.filter fun x => (delta k x.1.call).isSome).map Prod.snd =
      (List.range (order.filter fun x => (delta k x.1.call).isSome).length).map
        fun i : Nat => .number (.ok (v + 1 + i)) := by
  induction order generalizing s v with
  | nil => rfl
  | cons x order ih =>
    obtain ⟨hx, hrest⟩ := List.forall_mem_cons.mp hops
    obtain ⟨hhead, htail⟩ := List.cons.inj hres
    rcases hx with hd | hsp
    · have hin := hv.inRange
      have hlen : ((x :: order).filter fun x => (delta k x.1.call).isSome) =
          x :: order.filter fun x => (delta k x.1.call).isSome := List.filter_cons_of_pos (by simp [hd])
      rw [hlen, List.length_cons] at hroom ⊢
      obtain ⟨hans, hnext⟩ := exec_incrBy x.1.now hd hv
      have hwrap : wrap64 (v + 1) = v + 1 := wrap64_of_inRange ⟨by unfold InRange at hin; omega, by omega⟩
      rw [hwrap] at hans hnext
      have h := ih hnext hrest (by push_cast at hroom; omega) htail
      rw [List.map_cons, h, List.range_succ_eq_map, List.map_cons, List.map_map, ← hhead, hans]
      simp [Function.comp_def, add_comm, add_left_comm]
    · have hnone := delta_of_spares hsp
      have hlen : ((x :: order).filter fun x => (delta k x.1.call).isSome) =
          order.filter fun x => (delta k x.1.call).isSome := List.filter_cons_of_neg (by simp [hnone])
      rw [hlen] at hroom ⊢
      exact ih (lookup_exec_of_spares x.1.now hsp hv.lasting ▸ hv) hrest hroom htail

/-- Concurrent increments by one hand out distinct and consecutive numbers. -/
theorem increments_distinct {m : Memory c} (hv : Holds v (StoreOps.lookup m.store k))
    {es : List (Event AtomicCall)} {S : System (Lock c) Access.Answer (Memory c) AtomicCall Result}
    (hrun : LockProgram.run perform AtomicCall.program ⟨m, []⟩ es = some S)
    (hdone : ∀ t ∈ S.threads, t.prog.isDone = true)
    (hops : ∀ t ∈ S.threads, delta k t.op.call = some 1 ∨ spares k t.op.call = true)
    (hroom : v + (S.threads.filter fun t => (delta k t.op.call).isSome).length < 2 ^ 63) :
    ((S.threads.filter fun t => (delta k t.op.call).isSome).map Thread.prog).Perm
      ((List.range (S.threads.filter fun t => (delta k t.op.call).isSome).length).map fun i : Nat =>
        .done (.number (.ok (v + 1 + i)))) := by
  obtain ⟨order, hperm, hres, -⟩ := exists_order hrun hdone
  have hchosen := chosen_perm hperm fun a => (delta k a.call).isSome
  have hlen : (order.filter fun x => (delta k x.1.call).isSome).length =
      (S.threads.filter fun t => (delta k t.op.call).isSome).length := by
    simpa using hchosen.length_eq
  have hall := forall_order hperm (fun a => delta k a = some 1 ∨ spares k a = true) hops
  have htickets := execCalls_tickets hv hall (hlen ▸ hroom) hres
  have h := (hchosen.map Prod.snd).symm
  rw [List.map_map, List.map_map] at h
  have hdones := congrArg (List.map (Prog.done : Result → Op c Result)) htickets
  rw [List.map_map, List.map_map, hlen] at hdones
  exact h.trans (.of_eq hdones)

theorem race_hands_out :
    ∃ S, run perform AtomicCall.program ⟨⟨new byteShards, []⟩, []⟩ (race (incr "a") (incr "a") (incr "b") 5) = some S ∧
      ((S.threads.filter fun t => (delta (ascii "a") t.op.call).isSome).map Thread.prog).Perm
        [.done (.number (.ok 1)), .done (.number (.ok 2))] := by
  have h : ((run perform AtomicCall.program ⟨⟨new byteShards, []⟩, []⟩
      (race (incr "a") (incr "a") (incr "b") 5)).map fun S =>
        (S.threads.all fun t => t.prog.isDone,
          S.threads.all fun t => delta (ascii "a") t.op.call = some 1 || spares (ascii "a") t.op.call,
          (S.threads.filter fun t => (delta (ascii "a") t.op.call).isSome).length)) = some (true, true, 2) := by
    decide +kernel
  obtain ⟨S, hS, hfacts⟩ := Option.map_eq_some_iff.mp h
  obtain ⟨hdone, hops, hlength⟩ := by
    simpa only [Prod.mk.injEq, List.all_eq_true, Bool.or_eq_true, decide_eq_true_eq] using hfacts
  have htickets := increments_distinct (.inl ⟨rfl, rfl⟩) hS hdone hops (by rw [hlength]; decide)
  rw [hlength] at htickets
  exact ⟨S, hS, htickets⟩

end Counter

section Winner

def claimed (k : Bytes) : Call → Option Bytes
  | .set key val ttl mode => if key = k ∧ ttl ≤ 0 ∧ mode = .nx then some val else none
  | _ => none

theorem claimed_of_spares {a : Call} (h : spares k a = true) : claimed k a = none := by
  cases a with
  | set key val ttl mode => exact if_neg fun hc => by simp [spares, hc.1] at h
  | _ => rfl

variable (now) in
theorem exec_claim {a : Call} {val : Bytes} (ha : claimed k a = some val) (hl : Lasting (StoreOps.lookup s k)) :
    (exec s now a).1 = .flag (StoreOps.lookup s k).isNone ∧
      StoreOps.lookup (exec s now a).2 k = some ((StoreOps.lookup s k).getD ⟨val, 0⟩) := by
  cases a with
  | set key val' ttl mode =>
    simp only [claimed] at ha
    split_ifs at ha with hc
    obtain ⟨rfl, httl, rfl⟩ := hc
    obtain rfl : val' = val := Option.some.inj ha
    have hview : StoreLookup.view s (now 0) key = StoreOps.lookup s key := live_lasting hl _
    have hdeadline : deadlineIn (now 1) ttl = 0 := if_neg (by omega)
    have hanswer : (StoreOps.onKey (StoreRules.set val' ttl .nx) s now key).1 = (StoreOps.lookup s key).isNone ∧
        StoreOps.lookup (StoreOps.onKey (StoreRules.set val' ttl .nx) s now key).2 key =
          some ((StoreOps.lookup s key).getD ⟨val', 0⟩) := by
      rw [StoreLookup.onKey_answer, StoreLookup.onKey_lookup, if_pos rfl, hview]
      cases StoreOps.lookup s key with
      | none => simp [StoreLookup.answer, StoreLookup.next, StoreRules.set, setWrite, hdeadline]
      | some e => simp [StoreLookup.answer, StoreLookup.next, StoreRules.set, StoreLookup.Effect.entry]
    exact ⟨congrArg Result.flag hanswer.1, hanswer.2⟩
  | _ => cases ha

theorem execCalls_losers {order : List (AtomicCall × Result)} {e : Entry} (he : StoreOps.lookup s k = some e)
    (hl : e.expireAt = 0)
    (hops : ∀ x ∈ order, (claimed k x.1.call).isSome = true ∨ spares k x.1.call = true)
    (hres : (execCalls s (order.map Prod.fst)).1 = order.map Prod.snd) :
    (∀ x ∈ order.filter fun x => (claimed k x.1.call).isSome, x.2 = .flag false) ∧
      StoreOps.lookup (execCalls s (order.map Prod.fst)).2 k = some e := by
  induction order generalizing s with
  | nil => exact ⟨by simp, he⟩
  | cons x order ih =>
    have hlasting : Lasting (StoreOps.lookup s k) := fun y hy => by cases he ▸ hy; exact hl
    obtain ⟨hx, hrest⟩ := List.forall_mem_cons.mp hops
    obtain ⟨hhead, htail⟩ := List.cons.inj hres
    rcases hx with hc | hsp
    · obtain ⟨val, hval⟩ := Option.isSome_iff_exists.mp hc
      obtain ⟨hans, hnext⟩ := exec_claim x.1.now hval hlasting
      rw [he] at hans hnext
      obtain ⟨hothers, hend⟩ := ih hnext hrest htail
      rw [List.filter_cons_of_pos (by exact hc), List.forall_mem_cons]
      exact ⟨⟨hhead.symm.trans hans, hothers⟩, hend⟩
    · have hkeep := lookup_exec_of_spares x.1.now hsp hlasting
      rw [List.filter_cons_of_neg (by simp [claimed_of_spares hsp])]
      exact ih (hkeep.trans he) hrest htail

theorem execCalls_winner {order : List (AtomicCall × Result)} (he : StoreOps.lookup s k = none)
    (hops : ∀ x ∈ order, (claimed k x.1.call).isSome = true ∨ spares k x.1.call = true)
    (hres : (execCalls s (order.map Prod.fst)).1 = order.map Prod.snd)
    (hsome : ∃ x ∈ order, (claimed k x.1.call).isSome = true) :
    ∃ a val rest, (order.filter fun x => (claimed k x.1.call).isSome) = (a, .flag true) :: rest ∧
      (∀ x ∈ rest, x.2 = .flag false) ∧ claimed k a.call = some val ∧
      StoreOps.lookup (execCalls s (order.map Prod.fst)).2 k = some ⟨val, 0⟩ := by
  induction order generalizing s with
  | nil =>
    obtain ⟨x, hx, -⟩ := hsome
    cases hx
  | cons x order ih =>
    have hlasting : Lasting (StoreOps.lookup s k) := fun y hy => by cases he ▸ hy
    obtain ⟨hx, hrest⟩ := List.forall_mem_cons.mp hops
    obtain ⟨hhead, htail⟩ := List.cons.inj hres
    rcases hx with hc | hsp
    · obtain ⟨val, hval⟩ := Option.isSome_iff_exists.mp hc
      obtain ⟨hans, hnext⟩ := exec_claim x.1.now hval hlasting
      rw [he] at hans hnext
      obtain ⟨hothers, hend⟩ := execCalls_losers hnext rfl hrest htail
      have hx2 : x = (x.1, .flag true) := Prod.ext rfl (hhead.symm.trans hans)
      refine ⟨x.1, val, _, ?_, hothers, hval, hend⟩
      rw [List.filter_cons_of_pos (by exact hc), ← hx2]
    · have hkeep := lookup_exec_of_spares x.1.now hsp hlasting
      have hnone := claimed_of_spares hsp
      rw [List.filter_cons_of_neg (by simp [hnone])]
      refine ih (hkeep.trans he) hrest htail ?_
      obtain ⟨y, hy, hyc⟩ := hsome
      rcases List.mem_cons.mp hy with rfl | hy
      · simp [hnone] at hyc
      · exact ⟨y, hy, hyc⟩

/-- Of the SETNX calls that race for an absent key exactly one wins, and the
key holds the value of that one. -/
theorem one_winner {m : Memory c} (habsent : StoreOps.lookup m.store k = none)
    {es : List (Event AtomicCall)} {S : System (Lock c) Access.Answer (Memory c) AtomicCall Result}
    (hrun : LockProgram.run perform AtomicCall.program ⟨m, []⟩ es = some S)
    (hdone : ∀ t ∈ S.threads, t.prog.isDone = true)
    (hops : ∀ t ∈ S.threads, (claimed k t.op.call).isSome = true ∨ spares k t.op.call = true)
    (hsome : ∃ t ∈ S.threads, (claimed k t.op.call).isSome = true) :
    ∃ before winner after val,
      (S.threads.filter fun t => (claimed k t.op.call).isSome) = before ++ winner :: after ∧
      winner.prog = .done (.flag true) ∧ (∀ t ∈ before ++ after, t.prog = .done (.flag false)) ∧
      claimed k winner.op.call = some val ∧ StoreOps.lookup S.mem.store k = some ⟨val, 0⟩ := by
  obtain ⟨order, hperm, hres, hlookup⟩ := exists_order hrun hdone
  have hchosen := chosen_perm hperm fun a => (claimed k a.call).isSome
  have hex : ∃ x ∈ order, (claimed k x.1.call).isSome = true := by
    obtain ⟨t, ht, htc⟩ := hsome
    obtain ⟨x, hx, heq⟩ := List.mem_map.mp ((calls_perm hperm).mem_iff.mpr (List.mem_map_of_mem ht))
    exact ⟨x, hx, heq ▸ htc⟩
  have hall := forall_order hperm (fun a => (claimed k a).isSome = true ∨ spares k a = true) hops
  obtain ⟨a, val, rest, hfilter, hlosers, hval, hend⟩ := execCalls_winner habsent hall hres hex
  rw [hfilter, List.map_cons] at hchosen
  -- the thread that the first call of the order belongs to
  obtain ⟨winner, hw, hwin⟩ := List.mem_map.mp (hchosen.mem_iff.mp List.mem_cons_self)
  obtain ⟨before, after, hsplit⟩ := List.append_of_mem hw
  obtain ⟨hop, hprog⟩ := Prod.mk.inj hwin
  refine ⟨before, winner, after, val, hsplit, hprog, fun t ht => ?_, hop ▸ hval, hlookup k ▸ hend⟩
  rw [hsplit] at hchosen
  have hothers := (List.perm_cons _).mp
    (hchosen.trans (((List.perm_middle).map _).trans (by rw [List.map_cons, hwin])))
  obtain ⟨x, hx, heq⟩ := List.mem_map.mp (hothers.mem_iff.mpr (List.mem_map_of_mem ht))
  have hflag := hlosers x hx
  rw [← (Prod.mk.inj heq).2, hflag]

def setNX (key val : String) : AtomicCall := ⟨.set (ascii key) (ascii val) 0 .nx, frozen (instant 0), rfl⟩

theorem race_one_winner :
    ∃ S, run perform AtomicCall.program ⟨⟨new byteShards, []⟩, []⟩
        (race (setNX "a" "x") (setNX "a" "y") (incr "b") 4) = some S ∧
      ∃ winner ∈ S.threads, winner.prog = .done (.flag true) ∧
        ∃ val, claimed (ascii "a") winner.op.call = some val ∧
          StoreOps.lookup S.mem.store (ascii "a") = some ⟨val, 0⟩ := by
  have h : ((run perform AtomicCall.program ⟨⟨new byteShards, []⟩, []⟩
      (race (setNX "a" "x") (setNX "a" "y") (incr "b") 4)).map fun S =>
        (S.threads.all fun t => t.prog.isDone,
          S.threads.all fun t => (claimed (ascii "a") t.op.call).isSome || spares (ascii "a") t.op.call,
          S.threads.any fun t => (claimed (ascii "a") t.op.call).isSome)) = some (true, true, true) := by
    decide +kernel
  obtain ⟨S, hS, hfacts⟩ := Option.map_eq_some_iff.mp h
  obtain ⟨hdone, hops, hsome⟩ := by
    simpa only [Prod.mk.injEq, List.all_eq_true, Bool.or_eq_true, List.any_eq_true] using hfacts
  obtain ⟨before, winner, after, val, hsplit, hwin, -, hval, hend⟩ := one_winner rfl hS hdone hops hsome
  have hmem : winner ∈ S.threads.filter fun t => (claimed (ascii "a") t.op.call).isSome := by simp [hsplit]
  exact ⟨S, hS, winner, List.mem_of_mem_filter hmem, hwin, val, hval, hend⟩

end Winner

end MemX.StoreConcurrent
