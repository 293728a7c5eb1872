import MemX.StoreCalls
import MemX.StoreLookup

namespace MemX.StoreInvariants

open MachineInt DecimalText Clock StoreState StoreRules StoreOps StoreLookup StoreCalls

variable {c : Config} {α : Type}

def Placed (s : Store c) : Prop := ∀ i k, ((s.shards i).lookup k).isSome → shardIndex c k = i

/-- The deadline 0 stands for "no expiry", so no heap element may carry it. -/
def Dated (s : Store c) : Prop := ∀ d ∈ s.exp, d.deadline ≠ 0

theorem placed_onShard {s : Store c} (h : Placed s) (key : Bytes) (f : ShardMap → ShardMap)
    (hf : ∀ (m : ShardMap) k, k ≠ key → (f m).lookup k = m.lookup k) :
    Placed (onShard s (shardIndex c key) f) := by
  intro i k hk
  by_cases hi : i = shardIndex c key
  · subst hi
    by_cases hkey : k = key
    · rw [hkey]
    · simp only [onShard, Function.update_self, hf _ k hkey] at hk
      exact h _ k hk
  · simp only [onShard, Function.update_of_ne hi] at hk
    exact h i k hk

theorem placed_purge {s : Store c} (h : Placed s) (key : Bytes) : Placed (purge s (shardIndex c key) key) :=
  placed_onShard h key _ (fun _ _ hk => AList.lookup_erase_ne hk)

theorem placed_write {s : Store c} (h : Placed s) (key : Bytes) (w : Write) : Placed (write s key w) := by
  have hw := placed_onShard h key (AList.insert key w.entry) (fun _ _ hk => AList.lookup_insert_ne hk)
  unfold write
  cases w.track with
  | false => exact hw
  | true => exact hw

theorem placed_onKey {s : Store c} (h : Placed s) (op : KeyOp α) (now : Readings) (key : Bytes) :
    Placed (onKey op s now key).2 := by
  have hc : ∀ {s : Store c}, Placed s → ∀ w, Placed (create s key w) := by
    intro s h w
    cases w with
    | none => exact h
    | some w => exact placed_write h key w
  unfold onKey
  cases lookup s key with
  | none => exact hc h _
  | some e =>
    simp only
    split
    · exact hc (placed_purge h key) _
    · cases (op.present (now 1) e).2 with
      | keep => exact h
      | purge => exact placed_purge h key
      | put w => exact placed_write h key w

theorem placed_delKeys {s : Store c} (h : Placed s) (now : Readings) (keys : List Bytes) :
    Placed (delKeys s now keys).2 := by
  induction keys generalizing s now with
  | nil => exact h
  | cons key keys ih => exact ih (placed_onKey h del now key) (later 2 now)

theorem placed_checkAbsent {s : Store c} (h : Placed s) (now : Readings) (pairs : List (Bytes × Bytes)) :
    Placed (checkAbsent s now pairs).2 := by
  induction pairs generalizing s now with
  | nil => exact h
  | cons p pairs ih =>
    unfold checkAbsent
    cases lookup s p.1 with
    | none => exact ih h _
    | some e =>
      simp only
      split
      · exact ih (placed_purge h p.1) _
      · exact h

theorem placed_putAll {s : Store c} (h : Placed s) (pairs : List (Bytes × Bytes)) : Placed (putAll s pairs) := by
  induction pairs generalizing s with
  | nil => exact h
  | cons p pairs ih => exact ih (placed_write h p.1 (plain p.2))

theorem placed_setNXMulti {s : Store c} (h : Placed s) (now : Readings) (pairs : List (Bytes × Bytes)) :
    Placed (setNXMulti s now pairs).2 := by
  have hc := placed_checkAbsent h now pairs
  unfold setNXMulti
  rcases hr : checkAbsent s now pairs with ⟨ok, s'⟩
  rw [hr] at hc
  cases ok with
  | false => exact hc
  | true => exact placed_putAll hc pairs

theorem placed_purgeDue {s : Store c} (h : Placed s) (d : ExpEntry) : Placed (purgeDue s d) := by
  unfold purgeDue
  simp only [shardForString_eq]
  split
  · split
    · exact placed_purge h d.key
    · exact h
  · exact h

theorem placed_sweep {s : Store c} (h : Placed s) (t : Instant) : Placed (sweep s t) := by
  have hf : ∀ (due : List ExpEntry) {s : Store c}, Placed s → Placed (due.foldl purgeDue s) := by
    intro due
    induction due with
    | nil => exact fun h => h
    | cons d due ih => exact fun h => ih (placed_purgeDue h d)
  exact hf _ h

theorem placed_step {s : Store c} (h : Placed s) (now : Readings) (st : Step) : Placed (step s now st) := by
  cases st with
  | sweep => exact placed_sweep h _
  | call a =>
    cases a with
    | setNXMulti pairs => exact placed_setNXMulti h now pairs
    | flush => exact fun _ _ hk => by simp [step, exec, flush, clearHeap, clearShards] at hk
    | del keys => exact placed_delKeys h now keys
    | existsKeys _ | keys _ => exact h
    | typeOf key =>
      change Placed (typeOf s now key).2
      rw [typeOf_snd]
      exact placed_onKey h _ now key
    | get _ | set _ _ _ _ | incrBy _ _ | append _ _ | expire _ _ | expireAt _ _ | expireAtMs _ _
    | ttl _ | persist _ | getSet _ _ => exact placed_onKey h _ now _

/-- A step does not set a deadline of exactly 0: an `Expire`, `ExpireAt` or
`ExpireAtMs` of a live key asks for another one. -/
def ZeroFree (s : Store c) (t : Instant) : Step → Prop
  | .call (.expire key ttl) => (view s t key).isSome → ttl > 0 → unixNano t ttl ≠ 0
  | .call (.expireAt key secs) =>
      (view s t key).isSome → t.nanos < 0 → wrap64 (secs * second) ≠ 0
  | .call (.expireAtMs key ms) =>
      (view s t key).isSome → t.nanos < 0 → wrap64 (ms * millisecond) ≠ 0
  | _ => True

theorem dated_pushDeadline {s : Store c} (h : Dated s) (key : Bytes) {dl : Option Int} (hd : dl ≠ some 0) :
    ∀ d ∈ pushDeadline key s.exp dl, d.deadline ≠ 0 := by
  cases dl with
  | none => exact h
  | some dl =>
    intro d hm
    rcases (MinQueue.mem_push _ _ _).mp hm with rfl | hm
    · exact fun he => hd (congrArg some he)
    · exact h d hm

theorem dated_onKey {s : Store c} (h : Dated s) (op : KeyOp α) (now : Readings) (key : Bytes)
    (hd : pushed op (now 1) (view s (now 0) key) ≠ some 0) : Dated (onKey op s now key).2 := by
  unfold Dated
  rw [onKey_exp]
  exact dated_pushDeadline h key hd

theorem dated_onKey_untracked {s : Store c} (h : Dated s) {op : KeyOp α} (hp : ∀ t e, pushed op t e = none)
    (now : Readings) (key : Bytes) : Dated (onKey op s now key).2 :=
  dated_onKey h op now key (by simp [hp])

theorem delKeys_exp (s : Store c) (now : Readings) (keys : List Bytes) :
    (delKeys s now keys).2.exp = s.exp := by
  induction keys generalizing s now with
  | nil => rfl
  | cons key keys ih =>
    have hk : (onKey del s now key).2.exp = s.exp := by
      rw [onKey_exp]
      cases view s (now 0) key <;> rfl
    exact (ih _ _).trans hk

theorem checkAbsent_exp (s : Store c) (now : Readings) (pairs : List (Bytes × Bytes)) :
    (checkAbsent s now pairs).2.exp = s.exp := by
  induction pairs generalizing s now with
  | nil => rfl
  | cons p pairs ih =>
    unfold checkAbsent
    cases lookup s p.1 with
    | none => exact ih s _
    | some e =>
      simp only
      split
      · exact ih _ _
      · rfl

theorem putAll_exp (s : Store c) (pairs : List (Bytes × Bytes)) : (putAll s pairs).exp = s.exp := by
  induction pairs generalizing s with
  | nil => rfl
  | cons p pairs ih => exact (ih _).trans (write_exp s p.1 (plain p.2))

theorem setNXMulti_exp (s : Store c) (now : Readings) (pairs : List (Bytes × Bytes)) :
    (setNXMulti s now pairs).2.exp = s.exp := by
  have hc := checkAbsent_exp s now pairs
  unfold setNXMulti
  rcases hr : checkAbsent s now pairs with ⟨ok, s'⟩
  rw [hr] at hc
  cases ok with
  | false => exact hc
  | true => exact (putAll_exp s' pairs).trans hc

theorem purgeDue_exp (s : Store c) (d : ExpEntry) : (purgeDue s d).exp = s.exp := by
  unfold purgeDue
  simp only
  split
  · split <;> rfl
  · rfl

theorem sweep_exp (s : Store c) (t : Instant) : (sweep s t).exp = MinQueue.rest t.nanos s.exp := by
  have hf : ∀ (due : List ExpEntry) (s : Store c), (due.foldl purgeDue s).exp = s.exp := by
    intro due
    induction due with
    | nil => exact fun _ => rfl
    | cons d due ih => exact fun s => (ih _).trans (purgeDue_exp s d)
  exact hf _ _

theorem pushed_set_ne_zero (val : Bytes) (ttl : Int) (mode : SetMode) (t : Instant) (e : Option Entry) :
    pushed (set val ttl mode) t e ≠ some 0 := by
  have hw : Write.pushes (setWrite val ttl t) ≠ some 0 := by
    unfold Write.pushes setWrite
    by_cases h : deadlineIn t ttl = 0
    · simp [h]
    · simp [h]
  cases e with
  | none => cases mode <;> first | exact hw | simp [pushed, StoreRules.set]
  | some e => cases mode <;> first | exact hw | simp [pushed, StoreRules.set]

theorem pushed_expireAtNanos_ne_zero {dl : Int} {t : Instant} {e : Option Entry}
    (h : e.isSome → t.nanos < 0 → dl ≠ 0) : pushed (expireAtNanos dl) t e ≠ some 0 := by
  cases e with
  | none => simp [pushed, expireAtNanos]
  | some e =>
    by_cases hd : dl ≤ t.nanos
    · simp [pushed, expireAtNanos, hd]
    · have h0 : dl ≠ 0 := fun hz => h rfl (by omega) hz
      simp [pushed, expireAtNanos, hd, Write.pushes, h0]

theorem pushed_expire_ne_zero {ttl : Int} {t : Instant} {e : Option Entry}
    (h : e.isSome → ttl > 0 → unixNano t ttl ≠ 0) : pushed (expire ttl) t e ≠ some 0 := by
  cases e with
  | none => simp [pushed, expire]
  | some e =>
    by_cases hd : ttl ≤ 0
    · simp [pushed, expire, hd]
    · have h0 := h rfl (by omega)
      simp [pushed, expire, hd, Write.pushes, h0]

theorem pushed_untracked {op : KeyOp α} {t : Instant} (ha : ∀ w, (op.absent t).2 = some w → w.track = false)
    (hp : ∀ e w, (op.present t e).2 = .put w → w.track = false) (e : Option Entry) :
    pushed op t e = none := by
  cases e with
  | none =>
    cases hw : (op.absent t).2 with
    | none => simp [pushed, hw]
    | some w => simp [pushed, hw, Write.pushes, ha w hw]
  | some e =>
    cases hw : (op.present t e).2 with
    | keep | purge => simp [pushed, hw]
    | put w => simp [pushed, hw, Write.pushes, hp e w hw]

theorem pushed_get (t : Instant) (e : Option Entry) : pushed StoreRules.get t e = none := by
  cases e <;> rfl

theorem pushed_del (t : Instant) (e : Option Entry) : pushed del t e = none := by
  cases e <;> rfl

theorem pushed_ttl (t : Instant) (e : Option Entry) : pushed ttl t e = none := by
  apply pushed_untracked
  · simp [ttl]
  · intro e w h
    simp only [ttl] at h
    split at h <;> cases h

theorem pushed_incrBy (delta : Int) (t : Instant) (e : Option Entry) : pushed (incrBy delta) t e = none := by
  apply pushed_untracked
  · rintro w ⟨⟩
    rfl
  · intro e w h
    simp only [incrBy] at h
    split at h
    · cases h
    · cases h
      rfl

theorem pushed_append (n : Int) (suffix : Bytes) (t : Instant) (e : Option Entry) :
    pushed (StoreRules.append n suffix) t e = none := by
  apply pushed_untracked
  · intro w h
    simp only [StoreRules.append] at h
    split at h
    · cases h
    · cases h
      rfl
  · intro e w h
    simp only [StoreRules.append] at h
    split at h
    · cases h
    · cases h
      rfl

theorem pushed_persist (t : Instant) (e : Option Entry) : pushed persist t e = none := by
  apply pushed_untracked
  · simp [persist]
  · intro e w h
    simp only [persist] at h
    split at h
    · cases h
    · cases h
      rfl

theorem pushed_getSet (val : Bytes) (t : Instant) (e : Option Entry) : pushed (getSet val) t e = none := by
  cases e <;> rfl

theorem dated_step {s : Store c} (h : Dated s) {t : Instant} {st : Step} (hz : ZeroFree s t st) :
    Dated (step s (frozen t) st) := by
  cases st with
  | sweep =>
    intro d hd
    simp only [step, sweep_exp] at hd
    exact h d ((MinQueue.mem_due_or_rest _ _ d).mpr (Or.inr hd))
  | call a =>
    cases a with
    | setNXMulti pairs => simpa only [Dated, step, exec, Prod.map_snd, id_eq, setNXMulti_exp] using h
    | flush => exact fun d hd => absurd hd (MinQueue.not_mem_empty d)
    | del keys => simpa only [Dated, step, exec, Prod.map_snd, id_eq, delKeys_exp] using h
    | existsKeys _ | keys _ => exact h
    | typeOf key =>
      change Dated (typeOf s (frozen t) key).2
      rw [typeOf_snd]
      exact dated_onKey_untracked h pushed_get _ key
    | get key => exact dated_onKey_untracked h pushed_get _ key
    | set key val ttl mode => exact dated_onKey h _ _ key (pushed_set_ne_zero val ttl mode t _)
    | incrBy key delta => exact dated_onKey_untracked h (pushed_incrBy delta) _ key
    | append key suffix => exact dated_onKey_untracked h (pushed_append _ suffix) _ key
    | expire key ttl => exact dated_onKey h _ _ key (pushed_expire_ne_zero hz)
    | expireAt key secs => exact dated_onKey h _ _ key (pushed_expireAtNanos_ne_zero hz)
    | expireAtMs key ms => exact dated_onKey h _ _ key (pushed_expireAtNanos_ne_zero hz)
    | ttl key => exact dated_onKey_untracked h pushed_ttl _ key
    | persist key => exact dated_onKey_untracked h pushed_persist _ key
    | getSet key val => exact dated_onKey_untracked h (pushed_getSet val) _ key

theorem placed_new : Placed (new c) := by
  intro i k hk
  simp [new] at hk

theorem placed_run {s : Store c} (h : Placed s) (steps : List (Step × Readings)) : Placed (run s steps) := by
  induction steps generalizing s with
  | nil => exact h
  | cons st steps ih => exact ih (placed_step h st.2 st.1)

theorem dated_new : Dated (new c) := fun d hd => absurd hd (MinQueue.not_mem_empty d)

end MemX.StoreInvariants
