import MemX.CommandWrites
import MemX.StoreView

namespace MemX.CommandEffect

open MachineInt DecimalText Clock StoreState StoreRules StoreOps StoreLookup StoreView
open CommandProgram CommandHandlers CommandRegistry CommandWrites

variable {c : Config} {α β : Type}

/-- What each key maps to, expired entries included. -/
abbrev Table := Bytes → Option Entry

def updateKey (op : KeyOp α) (now : Readings) (key : Bytes) (m : Table) : Table :=
  Function.update m key (next op (now 1) (live (now 0) (m key)))

def answerKey (op : KeyOp α) (now : Readings) (key : Bytes) (m : Table) : α :=
  answer op (now 1) (live (now 0) (m key))

theorem lookup_onKey (op : KeyOp α) (s : Store c) (now : Readings) (key : Bytes) :
    lookup (onKey op s now key).2 = updateKey op now key (lookup s) := by
  funext k
  rw [onKey_lookup, updateKey, Function.update_apply]
  rfl

theorem onKey_fst (op : KeyOp α) (s : Store c) (now : Readings) (key : Bytes) :
    (onKey op s now key).1 = answerKey op now key (lookup s) := onKey_answer op s now key

def delAll (now : Readings) (m : Table) : List Bytes → Table
  | [] => m
  | key :: keys => delAll (later 2 now) (updateKey StoreRules.del now key m) keys

def delCount (now : Readings) (m : Table) : List Bytes → Nat
  | [] => 0
  | key :: keys =>
    (if answerKey StoreRules.del now key m then 1 else 0) +
      delCount (later 2 now) (updateKey StoreRules.del now key m) keys

def purgeAbsent (now : Readings) (m : Table) : List (Bytes × Bytes) → Bool × Table
  | [] => (true, m)
  | p :: pairs =>
    if (live (now 0) (m p.1)).isSome then (false, m)
    else purgeAbsent (later 1 now) (Function.update m p.1 none) pairs

def setNX (now : Readings) (m : Table) (pairs : List (Bytes × Bytes)) : Bool × Table :=
  match purgeAbsent now m pairs with
  | (true, m) => (true, putView m pairs)
  | (false, m) => (false, m)

def mutate (maxValLen : Int) (now : Readings) (m : Table) : Mutation → Table
  | .noop => m
  | .set key val ttl _ mode => updateKey (StoreRules.set val ttl mode) now key m
  | .del keys => delAll now m keys
  | .incrBy key delta _ _ => updateKey (StoreRules.incrBy delta) now key m
  | .append key suffix => updateKey (StoreRules.append maxValLen suffix) now key m
  | .expire key ttl => updateKey (StoreRules.expire ttl) now key m
  | .expireAt key secs => updateKey (StoreRules.expireAt secs) now key m
  | .expireAtMs key ms _ => updateKey (StoreRules.expireAtMs ms) now key m
  | .persist key => updateKey StoreRules.persist now key m
  | .flush => fun _ => none
  | .mset args => putView m (pairsOf args)
  | .msetnx args => (setNX now m (pairsOf args)).2
  | .getSet key val => updateKey (StoreRules.getSet val) now key m

def logIf (b : Bool) (l : List (List Bytes)) : List (List Bytes) := if b then l else []

def deadlineRecord (now : Readings) (key : Bytes) (ttl : Int) : List Bytes :=
  [ascii "PEXPIREAT", key, formatInt (unixMilli (now 2) ttl)]

def record (maxValLen : Int) (now : Readings) (m : Table) : Mutation → List (List Bytes)
  | .noop => []
  | .set key val ttl timed mode =>
    logIf (answerKey (StoreRules.set val ttl mode) now key m)
      ([ascii "SET", key, val] :: logIf timed [deadlineRecord now key ttl])
  | .del keys => logIf (0 < delCount now m keys) [ascii "DEL" :: keys]
  | .incrBy key delta name logged =>
    logIf (answerKey (StoreRules.incrBy delta) now key m).isOk [ascii name :: logged]
  | .append key suffix =>
    logIf (answerKey (StoreRules.append maxValLen suffix) now key m).isOk [[ascii "APPEND", key, suffix]]
  | .expire key ttl => logIf (answerKey (StoreRules.expire ttl) now key m) [deadlineRecord now key ttl]
  | .expireAt key secs =>
    logIf (answerKey (StoreRules.expireAt secs) now key m)
      [[ascii "PEXPIREAT", key, formatInt (wrap64 (secs * 1000))]]
  | .expireAtMs key ms text =>
    logIf (answerKey (StoreRules.expireAtMs ms) now key m) [[ascii "PEXPIREAT", key, text]]
  | .persist key => logIf (answerKey StoreRules.persist now key m) [[ascii "PERSIST", key]]
  | .flush => [[ascii "FLUSHDB"]]
  | .mset args => [ascii "MSET" :: args]
  | .msetnx args => logIf (setNX now m (pairsOf args)).1 [ascii "MSET" :: args]
  | .getSet key val => [[ascii "SET", key, val]]

/-- A handler's effect on the table of a store and what it propagates. -/
def effect (s : Store c) (now : Readings) (p : Handler α) : Table × List (List Bytes) :=
  (lookup (Handler.run s now p).2.1, (Handler.run s now p).2.2)

@[simp] theorem effect_pure (s : Store c) (now : Readings) (a : α) : effect s now (.pure a) = (lookup s, []) := rfl

theorem effect_call (s : Store c) (now : Readings) (a : Section) (k : a.Result → Handler α) :
    effect s now (.call a k) = effect (a.exec s now).2 (later (a.readings s) now) (k (a.exec s now).1) := rfl

@[simp] theorem effect_propagate (s : Store c) (now : Readings) (cmd : List Bytes) (p : Handler α) :
    effect s now (.propagate cmd p) = ((effect s now p).1, cmd :: (effect s now p).2) := rfl

theorem effect_propagateCmd (s : Store c) (now : Readings) (name : String) (args : List Bytes) :
    effect s now (Handler.propagateCmd name args) = (lookup s, [ascii name :: args]) := rfl

theorem effect_propagateDeadline (s : Store c) (now : Readings) (key : Bytes) (ttl : Int) :
    effect s now (propagateDeadline key ttl) =
      (lookup s, [[ascii "PEXPIREAT", key, formatInt (unixMilli (now 0) ttl)]]) := rfl

theorem effect_onlyIf (s : Store c) (now : Readings) (p : Prop) [Decidable p] {k : Handler Unit}
    {l : List (List Bytes)} (hk : effect s now k = (lookup s, l)) :
    effect s now (onlyIf p k) = (lookup s, logIf p l) := by
  by_cases hp : p
  · simp [onlyIf, logIf, hp, hk]
  · simp [onlyIf, logIf, hp]

theorem run_bind (s : Store c) (now : Readings) (p : Handler α) (f : α → Handler β) :
    ∃ now', Handler.run s now (p >>= f) =
      let r := Handler.run s now p
      let q := Handler.run r.2.1 now' (f r.1)
      (q.1, q.2.1, r.2.2 ++ q.2.2) := by
  induction p generalizing s now with
  | pure a => exact ⟨now, rfl⟩
  | call a k ih => exact ih (a.exec s now).1 (a.exec s now).2 (later (a.readings s) now)
  | propagate cmd k ih =>
    obtain ⟨now', h⟩ := ih s now
    exact ⟨now', by simp only [propagate_bind, Handler.run, h]; rfl⟩

theorem effect_bind (s : Store c) (now : Readings) (p : Handler α) (f : α → Handler β) :
    ∃ now', effect s now (p >>= f) =
      let r := Handler.run s now p
      ((effect r.2.1 now' (f r.1)).1, r.2.2 ++ (effect r.2.1 now' (f r.1)).2) := by
  obtain ⟨now', h⟩ := run_bind s now p f
  exact ⟨now', by simp only [effect, h]⟩

def RunsKey (s : Store c) (now : Readings) (op : KeyOp α) (key : Bytes) (p : Handler α) : Prop :=
  ∀ f : α → Handler Unit,
    effect s now (p >>= f) = effect (onKey op s now key).2 (later 2 now) (f (onKey op s now key).1)

theorem effect_whenDone {s : Store c} {now : Readings} {op : KeyOp Bool} {key : Bytes} {p : Handler Bool}
    {k : Handler Unit} {l : List (List Bytes)} (hp : RunsKey s now op key p)
    (hk : ∀ s' : Store c, effect s' (later 2 now) k = (lookup s', l)) :
    effect s now (whenDone p k) = (updateKey op now key (lookup s), logIf (answerKey op now key (lookup s)) l) := by
  rw [whenDone, hp, onKey_fst, ← lookup_onKey]
  cases answerKey op now key (lookup s) with
  | false => rfl
  | true => exact hk _

theorem effect_whenOk {ε : Type} {s : Store c} {now : Readings} {op : KeyOp (Except ε α)} {key : Bytes}
    {p : Handler (Except ε α)} {k : Handler Unit} {l : List (List Bytes)} (hp : RunsKey s now op key p)
    (hk : ∀ s' : Store c, effect s' (later 2 now) k = (lookup s', l)) :
    effect s now (whenOk p k) =
      (updateKey op now key (lookup s), logIf (answerKey op now key (lookup s)).isOk l) := by
  rw [whenOk, hp, onKey_fst, ← lookup_onKey]
  cases answerKey op now key (lookup s) with
  | error e => rfl
  | ok a => exact hk _

theorem run_del (s : Store c) (now : Readings) (keys : List Bytes) :
    (Handler.run s now (Handler.del keys)).1 = delCount now (lookup s) keys ∧
      effect s now (Handler.del keys) = (delAll now (lookup s) keys, []) := by
  induction keys generalizing s now with
  | nil => exact ⟨rfl, rfl⟩
  | cons key keys ih =>
    obtain ⟨hn, he⟩ := ih (onKey StoreRules.del s now key).2 (later 2 now)
    obtain ⟨now', hb⟩ := run_bind (onKey StoreRules.del s now key).2 (later 2 now) (Handler.del keys)
      (fun n => .pure ((if (onKey StoreRules.del s now key).1 then 1 else 0) + n))
    have hrun : Handler.run s now (Handler.del (key :: keys)) = _ := hb
    rw [lookup_onKey] at hn he
    simp only [effect, hrun, Handler.run, hn, onKey_fst, List.append_nil, delCount, delAll, true_and] at he ⊢
    exact he

theorem effect_setAll (s : Store c) (now : Readings) (pairs : List (Bytes × Bytes)) :
    effect s now (setAll pairs) = (putView (lookup s) pairs, []) := by
  induction pairs generalizing s now with
  | nil => rfl
  | cons p pairs ih =>
    have h := ih (onKey (StoreRules.set p.2 0 .always) s now p.1).2 (later 2 now)
    have hset : updateKey (StoreRules.set p.2 0 .always) now p.1 (lookup s) =
        Function.update (lookup s) p.1 (some ⟨p.2, 0⟩) := by
      unfold updateKey
      cases live (now 0) (lookup s p.1) <;> rfl
    rw [lookup_onKey, hset] at h
    exact h

theorem lookup_checkAbsent (s : Store c) (now : Readings) (pairs : List (Bytes × Bytes)) :
    (checkAbsent s now pairs).1 = (purgeAbsent now (lookup s) pairs).1 ∧
      lookup (checkAbsent s now pairs).2 = (purgeAbsent now (lookup s) pairs).2 := by
  induction pairs generalizing s now with
  | nil => exact ⟨rfl, rfl⟩
  | cons p pairs ih =>
    unfold checkAbsent purgeAbsent
    cases hl : lookup s p.1 with
    | none =>
      have hu : Function.update (lookup s) p.1 none = lookup s := by rw [← hl, Function.update_eq_self]
      simpa [hu] using ih s (later 1 now)
    | some e =>
      cases he : expired (now 0) e with
      | false => simp [he, live_some_of_live he]
      | true =>
        have hu : lookup (purge s (shardIndex c p.1) p.1) = Function.update (lookup s) p.1 none := by
          funext k
          rw [lookup_purge, Function.update_apply]
        have h := ih (purge s (shardIndex c p.1) p.1) (later 1 now)
        rw [hu] at h
        simpa [he, live_some_of_expired he] using h

theorem lookup_putAll (s : Store c) (pairs : List (Bytes × Bytes)) :
    lookup (putAll s pairs) = putView (lookup s) pairs := by
  induction pairs generalizing s with
  | nil => rfl
  | cons p pairs ih =>
    have hw : lookup (addCount (write s p.1 (plain p.2)) 1) = Function.update (lookup s) p.1 (some ⟨p.2, 0⟩) := by
      funext k
      rw [lookup_addCount, lookup_write, Function.update_apply]
      rfl
    rw [putAll, ih, hw, putView]

theorem lookup_setNXMulti (s : Store c) (now : Readings) (pairs : List (Bytes × Bytes)) :
    (setNXMulti s now pairs).1 = (setNX now (lookup s) pairs).1 ∧
      lookup (setNXMulti s now pairs).2 = (setNX now (lookup s) pairs).2 := by
  obtain ⟨hok, hl⟩ := lookup_checkAbsent s now pairs
  unfold setNXMulti setNX
  rcases hr : checkAbsent s now pairs with ⟨ok, s'⟩
  rcases hr' : purgeAbsent now (lookup s) pairs with ⟨ok', m'⟩
  simp only [hr, hr'] at hok hl
  subst hok hl
  cases ok with
  | false => exact ⟨rfl, rfl⟩
  | true => exact ⟨rfl, lookup_putAll s' pairs⟩

theorem effect_mutation (s : Store c) (now : Readings) (m : Mutation) :
    effect s now m.handler = (mutate c.maxValLen now (lookup s) m, record c.maxValLen now (lookup s) m) := by
  cases m with
  | noop => rfl
  | set key val ttl timed mode =>
    refine effect_whenDone (p := Handler.set key val ttl mode) (fun f => rfl) fun s' => ?_
    have h := effect_onlyIf s' (later 2 now) (timed = true) (effect_propagateDeadline s' (later 2 now) key ttl)
    rw [Bool.decide_eq_true] at h
    exact congrArg (fun r => (r.1, [ascii "SET", key, val] :: r.2)) h
  | del keys =>
    obtain ⟨hn, he⟩ := run_del s now keys
    obtain ⟨now', hb⟩ := effect_bind s now (Handler.del keys)
      (fun n => onlyIf (n > 0) (Handler.propagateCmd "DEL" keys))
    simp only [effect, Prod.mk.injEq] at he
    simp only [effect_onlyIf _ now' _ (effect_propagateCmd _ now' "DEL" keys), hn, he.1, he.2] at hb
    exact hb
  | incrBy key delta name logged =>
    exact effect_whenOk (p := Handler.incrBy key delta) (fun f => rfl) fun s' => effect_propagateCmd ..
  | append key suffix =>
    exact effect_whenOk (p := Handler.append key suffix) (fun f => rfl) fun s' => effect_propagateCmd ..
  | expire key ttl =>
    exact effect_whenDone (p := Handler.expire key ttl) (fun f => rfl) fun s' => effect_propagateDeadline ..
  | expireAt key secs =>
    exact effect_whenDone (p := Handler.expireAt key secs) (fun f => rfl) fun s' => effect_propagateCmd ..
  | expireAtMs key ms text =>
    exact effect_whenDone (p := Handler.expireAtMs key ms) (fun f => rfl) fun s' => effect_propagateCmd ..
  | persist key =>
    exact effect_whenDone (p := Handler.persist key) (fun f => rfl) fun s' => effect_propagateCmd ..
  | flush => rfl
  | mset args =>
    have he := effect_setAll s now (pairsOf args)
    obtain ⟨now', hb⟩ := effect_bind s now (setAll (pairsOf args)) (fun _ => Handler.propagateCmd "MSET" args)
    simp only [effect, Prod.mk.injEq] at he
    simp only [effect_propagateCmd, he.1, he.2] at hb
    exact hb
  | msetnx args =>
    obtain ⟨hok, hl⟩ := lookup_setNXMulti s now (pairsOf args)
    show effect (setNXMulti s now (pairsOf args)).2 _ (if (setNXMulti s now (pairsOf args)).1 then _ else _) = _
    simp only [mutate, record, ← hok, ← hl]
    cases (setNXMulti s now (pairsOf args)).1 with
    | false => rfl
    | true => exact effect_propagateCmd ..
  | getSet key val => exact congrArg (fun t => (t, _)) (lookup_onKey ..)

theorem effect_erase (s : Store c) (now : Readings) (p : Handler α) : effect s now (erase p) = effect s now p := by
  obtain ⟨now', h⟩ := effect_bind s now p (fun _ => .pure ())
  refine h.trans ?_
  simp only [effect_pure, List.append_nil]
  rfl

theorem effect_write (h : Host) {tokens : List Bytes} (hw : isWrite h tokens = true) (s : Store c) (now : Readings) :
    effect s now (execute h tokens) =
      (mutate c.maxValLen now (lookup s) (mutation h tokens),
        record c.maxValLen now (lookup s) (mutation h tokens)) := by
  rw [← effect_erase, execute_write hw, effect_mutation]

theorem run_write (h : Host) {tokens : List Bytes} (hw : isWrite h tokens = true) (s : Store c) (now : Readings) :
    lookup (Handler.run s now (execute h tokens)).2.1 = mutate c.maxValLen now (lookup s) (mutation h tokens) ∧
      (Handler.run s now (execute h tokens)).2.2 = record c.maxValLen now (lookup s) (mutation h tokens) :=
  Prod.mk.inj (effect_write h hw s now)

theorem next_get (t : Instant) (o : Option Entry) : next StoreRules.get t o = o := by
  cases o <;> rfl

theorem next_ttl (t : Instant) (o : Option Entry) : next StoreRules.ttl t o = o := by
  cases o with
  | none => rfl
  | some e =>
    simp only [next, StoreRules.ttl]
    split <;> rfl

/-- A read may purge, but only what has expired at its reading. -/
theorem view_reads {a : Section} (ha : a.reads = true) (s : Store c) {now : Readings} {t : Instant}
    (ht : now 0 ≤ t) : view (a.exec s now).2 t = view s t := by
  have hkey : ∀ {α : Type} (op : KeyOp α) (key : Bytes), (∀ t o, next op t o = o) →
      view (onKey op s now key).2 t = view s t := by
    intro α op key hop
    funext k
    rw [view_onKey, hop]
    split
    · rename_i hk
      rw [hk, ← view_later s ht]
    · rfl
  cases a with
  | get key => exact hkey _ key next_get
  | remaining key => exact hkey _ key next_ttl
  | existsKey _ | shardKeys _ _ | shardCount | len | now => rfl
  | _ => cases ha

theorem live_delAll_of_count_zero (now : Readings) {t : Instant} (ht : ∀ i, now i ≤ t) {m : Table} {keys : List Bytes}
    (h : delCount now m keys = 0) (k : Bytes) : live t (delAll now m keys k) = live t (m k) := by
  induction keys generalizing now m with
  | nil => rfl
  | cons key keys ih =>
    simp only [delCount, Nat.add_eq_zero_iff] at h
    have hdead : live (now 0) (m key) = none := by
      cases hl : live (now 0) (m key) with
      | none => rfl
      | some e => simp [answerKey, hl, answer, StoreRules.del] at h
    rw [delAll, ih (later 2 now) (fun i => ht (i + 2)) h.2]
    unfold updateKey
    by_cases hk : k = key
    · subst hk
      rw [Function.update_self, hdead, ← live_live (ht 0) (m k), hdead]
      rfl
    · rw [Function.update_of_ne hk]

theorem live_purgeAbsent (now : Readings) {t : Instant} (ht : ∀ i, now i ≤ t) (m : Table)
    (pairs : List (Bytes × Bytes)) (k : Bytes) :
    live t ((purgeAbsent now m pairs).2 k) = live t (m k) := by
  induction pairs generalizing now m with
  | nil => rfl
  | cons p pairs ih =>
    unfold purgeAbsent
    cases hl : live (now 0) (m p.1) with
    | some e => simp
    | none =>
      have h := ih (later 1 now) (fun i => ht (i + 1)) (Function.update m p.1 none)
      simp only [Option.isSome_none, Bool.false_eq_true, ↓reduceIte, h]
      by_cases hk : k = p.1
      · subst hk
        rw [Function.update_self, ← live_live (ht 0) (m p.1), hl]
      · rw [Function.update_of_ne hk]

theorem readOnly_log {p : Handler α} (hp : ReadOnly p) (s : Store c) (now : Readings) : (effect s now p).2 = [] := by
  induction hp generalizing s now with
  | pure a => rfl
  | call a k _ _ ih => exact ih (a.exec s now).1 (a.exec s now).2 (later (a.readings s) now)

theorem live_readOnly {p : Handler α} (hp : ReadOnly p) (s : Store c) (now : Readings) {t : Instant}
    (ht : ∀ i, now i ≤ t) (k : Bytes) : live t ((effect s now p).1 k) = live t (lookup s k) := by
  induction hp generalizing s now with
  | pure a => rfl
  | call a _ ha _ ih =>
    rw [effect_call, ih _ _ (later (a.readings s) now) fun i => ht _]
    exact congrFun (view_reads ha s (ht 0)) k

theorem run_execute {h : Host} {tokens args : List Bytes} {cmd : Command} (hd : dispatch h tokens = .run cmd args)
    (s : Store c) (now : Readings) :
    Handler.run s now (execute h tokens) =
      (reply (Handler.run s now (cmd.handler args)).1, (Handler.run s now (cmd.handler args)).2) := by
  obtain ⟨now', hb⟩ := run_bind s now (cmd.handler args) fun o => .pure (reply o)
  simp only [execute, hd]
  rw [hb]
  simp [Handler.run]

theorem command_unique {h : Host} {cmd cmd' : Command} (hm : cmd ∈ commands h) (hm' : cmd' ∈ commands h)
    (hname : cmd.name = cmd'.name) : cmd = cmd' := by
  have hfind := findCommand_of_mem hm
  rw [hname, findCommand_of_mem hm'] at hfind
  exact (Option.some.inj hfind).symm

end MemX.CommandEffect
