import MemX.StoreOps

namespace MemX.StoreLookup

open MachineInt DecimalText Clock StoreState StoreRules StoreOps

variable {c : Config} {α : Type}

def live (t : Instant) (e : Option Entry) : Option Entry := e.filter (fun e => !expired t e)

/-- The live view of a store: what each key holds at the reading `t`. -/
def view (s : Store c) (t : Instant) (key : Bytes) : Option Entry := live t (lookup s key)

def answer (op : KeyOp α) (t : Instant) : Option Entry → α
  | none => (op.absent t).1
  | some e => (op.present t e).1

def Effect.entry (e : Entry) : Effect → Option Entry
  | .keep => some e
  | .purge => none
  | .put w => some w.entry

def next (op : KeyOp α) (t : Instant) : Option Entry → Option Entry
  | none => (op.absent t).2.map Write.entry
  | some e => Effect.entry e (op.present t e).2

def Write.pushes (w : Write) : Option Int := if w.track then some w.entry.expireAt else none

def pushed (op : KeyOp α) (t : Instant) : Option Entry → Option Int
  | none => (op.absent t).2.bind Write.pushes
  | some e =>
    match (op.present t e).2 with
    | .put w => Write.pushes w
    | _ => none

def pushDeadline (key : Bytes) (q : ExpHeap) : Option Int → ExpHeap
  | none => q
  | some dl => MinQueue.push ⟨dl, key⟩ q

@[simp] theorem lookup_addCount (s : Store c) (n : Int) (k : Bytes) : lookup (addCount s n) k = lookup s k := rfl

@[simp] theorem lookup_pushExpiry (s : Store c) (key k : Bytes) (dl : Int) :
    lookup (pushExpiry s key dl) k = lookup s k := rfl

theorem lookup_onShard (s : Store c) (key k : Bytes) (f : ShardMap → ShardMap)
    (hf : ∀ m : ShardMap, k ≠ key → (f m).lookup k = m.lookup k) :
    lookup (onShard s (shardIndex c key) f) k =
      if k = key then (f (s.shards (shardIndex c key))).lookup key else lookup s k := by
  unfold lookup onShard
  by_cases hk : k = key
  · subst k
    simp
  · rw [if_neg hk]
    by_cases hi : shardIndex c k = shardIndex c key
    · simp [hi, hf _ hk]
    · simp [hi]

@[simp] theorem lookup_purge (s : Store c) (key k : Bytes) :
    lookup (purge s (shardIndex c key) key) k = if k = key then none else lookup s k := by
  unfold purge
  rw [lookup_addCount, lookup_onShard s key k _ (fun m h => AList.lookup_erase_ne h), AList.lookup_erase]

@[simp] theorem lookup_write (s : Store c) (key k : Bytes) (w : Write) :
    lookup (write s key w) k = if k = key then some w.entry else lookup s k := by
  have h : lookup (onShard s (shardIndex c key) (AList.insert key w.entry)) k =
      if k = key then some w.entry else lookup s k := by
    rw [lookup_onShard s key k _ (fun m h => AList.lookup_insert_ne h), AList.lookup_insert]
  unfold write
  cases w.track with
  | false => exact h
  | true => exact h

theorem lookup_create (s : Store c) (key k : Bytes) (w : Option Write) (hs : lookup s key = none) :
    lookup (create s key w) k = if k = key then w.map Write.entry else lookup s k := by
  cases w with
  | none =>
    by_cases hk : k = key
    · subst k
      simp [create, hs]
    · simp [create, hk]
  | some w => simp [create]

theorem lookup_apply (s : Store c) (key k : Bytes) (e : Entry) (eff : Effect) (hs : lookup s key = some e) :
    lookup (apply s key eff) k = if k = key then Effect.entry e eff else lookup s k := by
  cases eff with
  | keep =>
    by_cases hk : k = key
    · subst k
      simp [apply, Effect.entry, hs]
    · simp [apply, hk]
  | purge => simp [apply, Effect.entry]
  | put w => simp [apply, Effect.entry]

theorem view_of_none {s : Store c} {key : Bytes} (t : Instant) (h : lookup s key = none) :
    view s t key = none := by
  simp [view, live, h]

theorem view_of_expired {s : Store c} {key : Bytes} {t : Instant} {e : Entry}
    (h : lookup s key = some e) (he : expired t e = true) : view s t key = none := by
  simp [view, live, h, he]

theorem view_of_live {s : Store c} {key : Bytes} {t : Instant} {e : Entry}
    (h : lookup s key = some e) (he : expired t e = false) : view s t key = some e := by
  simp [view, live, h, he]

theorem onKey_answer (op : KeyOp α) (s : Store c) (now : Readings) (key : Bytes) :
    (onKey op s now key).1 = answer op (now 1) (view s (now 0) key) := by
  unfold onKey
  cases hl : lookup s key with
  | none => simp [view_of_none (now 0) hl, answer]
  | some e =>
    cases he : expired (now 0) e with
    | true => simp [view_of_expired hl he, he, answer]
    | false => simp [view_of_live hl he, he, answer]

theorem onKey_lookup (op : KeyOp α) (s : Store c) (now : Readings) (key k : Bytes) :
    lookup (onKey op s now key).2 k =
      if k = key then next op (now 1) (view s (now 0) key) else lookup s k := by
  unfold onKey
  cases hl : lookup s key with
  | none => simp [view_of_none (now 0) hl, next, lookup_create s key k _ hl]
  | some e =>
    cases he : expired (now 0) e with
    | true =>
      have hp : lookup (purge s (shardIndex c key) key) key = none := by simp
      simp only [he, ↓reduceIte, lookup_create _ key k _ hp, view_of_expired hl he, next, lookup_purge]
      by_cases hk : k = key <;> simp [hk]
    | false => simp [view_of_live hl he, he, next, lookup_apply s key k e _ hl]

theorem write_exp (s : Store c) (key : Bytes) (w : Write) :
    (write s key w).exp = pushDeadline key s.exp (Write.pushes w) := by
  unfold write Write.pushes
  cases w.track <;> rfl

theorem create_exp (s : Store c) (key : Bytes) (w : Option Write) :
    (create s key w).exp = pushDeadline key s.exp (w.bind Write.pushes) := by
  cases w with
  | none => rfl
  | some w => exact write_exp s key w

theorem onKey_exp (op : KeyOp α) (s : Store c) (now : Readings) (key : Bytes) :
    (onKey op s now key).2.exp = pushDeadline key s.exp (pushed op (now 1) (view s (now 0) key)) := by
  unfold onKey
  cases hl : lookup s key with
  | none =>
    rw [view_of_none (now 0) hl]
    exact create_exp s key _
  | some e =>
    cases he : expired (now 0) e with
    | true =>
      rw [view_of_expired hl he]
      simp only [he, ↓reduceIte]
      exact create_exp _ key _
    | false =>
      rw [view_of_live hl he]
      simp only [he, Bool.false_eq_true, ↓reduceIte, pushed]
      cases (op.present (now 1) e).2 with
      | keep => rfl
      | purge => rfl
      | put w => exact write_exp s key w

theorem lookup_purgeDue (s : Store c) (d : ExpEntry) (k : Bytes) :
    lookup (purgeDue s d) k =
      if k = d.key ∧ (lookup s k).map Entry.expireAt = some d.deadline then none else lookup s k := by
  unfold purgeDue
  simp only [shardForString_eq]
  by_cases hk : k = d.key
  · subst hk
    cases hl : lookup s d.key with
    | none =>
      have hl' : (s.shards (shardIndex c d.key)).lookup d.key = none := hl
      simp [hl', hl]
    | some e =>
      have hl' : (s.shards (shardIndex c d.key)).lookup d.key = some e := hl
      by_cases he : e.expireAt = d.deadline
      · simp [hl', he]
      · simp [hl', he, hl]
  · rw [if_neg (fun h => hk h.1)]
    cases (s.shards (shardIndex c d.key)).lookup d.key with
    | none => rfl
    | some e =>
      by_cases he : e.expireAt = d.deadline
      · simp [he, hk]
      · simp [he]

section Rules

variable {t : Instant}

theorem set_keeps {val : Bytes} {ttl : Int} {mode : SetMode} {o : Option Entry}
    (h : answer (StoreRules.set val ttl mode) t o = false) : next (StoreRules.set val ttl mode) t o = o := by
  cases o <;> cases mode <;> simp_all [answer, next, StoreRules.set, Effect.entry]

theorem set_writes {val : Bytes} {ttl : Int} {mode : SetMode} {o : Option Entry}
    (h : answer (StoreRules.set val ttl mode) t o = true) :
    next (StoreRules.set val ttl mode) t o = some ⟨val, deadlineIn t ttl⟩ := by
  cases o <;> cases mode <;> simp_all [answer, next, StoreRules.set, Effect.entry, setWrite]

theorem incrBy_keeps {delta : Int} {o : Option Entry} (h : (answer (StoreRules.incrBy delta) t o).isOk = false) :
    next (StoreRules.incrBy delta) t o = o := by
  cases o with
  | none => cases h
  | some e =>
    simp only [answer, next, StoreRules.incrBy] at h ⊢
    cases hp : parseInt e.val with
    | none => rfl
    | some n => simp [hp, Except.isOk, Except.toBool] at h

theorem append_keeps {n : Int} {suffix : Bytes} {o : Option Entry}
    (h : (answer (StoreRules.append n suffix) t o).isOk = false) : next (StoreRules.append n suffix) t o = o := by
  cases o with
  | none =>
    simp only [answer, next, StoreRules.append] at h ⊢
    split at h
    · simp [*]
    · cases h
  | some e =>
    simp only [answer, next, StoreRules.append] at h ⊢
    split at h
    · simp [*, Effect.entry]
    · cases h

theorem persist_keeps {o : Option Entry} (h : answer StoreRules.persist t o = false) :
    next StoreRules.persist t o = o := by
  cases o with
  | none => rfl
  | some e =>
    simp only [answer, next, StoreRules.persist] at h ⊢
    split at h
    · simp [*, Effect.entry]
    · cases h

theorem answer_expireAtNanos (dl : Int) (o : Option Entry) : answer (expireAtNanos dl) t o = o.isSome := by
  cases o with
  | none => rfl
  | some e =>
    simp only [answer, expireAtNanos]
    split <;> rfl

theorem answer_expire (ttl : Int) (o : Option Entry) : answer (expire ttl) t o = o.isSome := by
  cases o with
  | none => rfl
  | some e =>
    simp only [answer, expire]
    split <;> rfl

theorem next_expireAtNanos_some (dl : Int) (e : Entry) :
    next (expireAtNanos dl) t (some e) = if dl ≤ t.nanos then none else some ⟨e.val, dl⟩ := by
  simp only [next, expireAtNanos]
  split <;> rfl

theorem next_expire_some (ttl : Int) (e : Entry) :
    next (expire ttl) t (some e) = if ttl ≤ 0 then none else some ⟨e.val, deadlineIn t ttl⟩ := by
  by_cases h : ttl ≤ 0
  · simp [next, expire, h, Effect.entry]
  · simp [next, expire, h, Effect.entry, deadlineIn, Int.not_le.mp h]

end Rules

end MemX.StoreLookup
