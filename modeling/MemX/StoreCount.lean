import MemX.StoreCalls
import MemX.StoreLookup

namespace MemX.StoreCount

open MachineInt DecimalText Clock StoreState StoreRules StoreOps StoreLookup StoreCalls

variable {c : Config} {α : Type}

def entryCount (s : Store c) : Nat := ∑ i, (s.shards i).entries.length

/-- How far the counter is ahead of the maps. -/
def drift (s : Store c) : Int := s.count - entryCount s

section Size

variable {κ β : Type} [DecidableEq κ]

theorem entries_length_erase {m : AList (fun _ : κ => β)} {key : κ} {e : β} (h : m.lookup key = some e) :
    ((m.erase key).entries.length : Int) = m.entries.length - 1 := by
  have hm : key ∈ m.keys := AList.lookup_isSome.mp (by simp [h])
  have hpos := List.length_pos_of_mem hm
  have hk := congrArg List.length (AList.keys_erase key m)
  rw [List.length_erase_of_mem hm] at hk
  simp only [AList.keys, List.keys, List.length_map] at hk hpos
  omega

theorem entries_length_insert (m : AList (fun _ : κ => β)) (key : κ) (e : β) :
    ((m.insert key e).entries.length : Int) =
      m.entries.length + if (m.lookup key).isSome then 0 else 1 := by
  have hk := congrArg List.length (AList.keys_insert (a := key) (b := e) m)
  have hl : m.keys.length = m.entries.length := by simp [AList.keys, List.keys]
  have hl' : (m.insert key e).keys.length = (m.insert key e).entries.length := by
    simp [AList.keys, List.keys]
  rw [List.length_cons, hl'] at hk
  by_cases hm : key ∈ m.keys
  · have hpos := List.length_pos_of_mem hm
    rw [List.length_erase_of_mem hm, hl] at hk
    rw [if_pos (AList.lookup_isSome.mpr hm)]
    omega
  · rw [List.erase_of_not_mem hm, hl] at hk
    rw [if_neg (fun h => hm (AList.lookup_isSome.mp h))]
    omega

end Size

theorem entryCount_onShard (s : Store c) (i : Fin c.shardCount) (f : ShardMap → ShardMap) :
    (entryCount (onShard s i f) : Int) =
      entryCount s + ((f (s.shards i)).entries.length - (s.shards i).entries.length) := by
  unfold entryCount onShard
  rw [← Finset.add_sum_erase _ _ (Finset.mem_univ i),
    ← Finset.add_sum_erase (a := i) _ (fun i => (s.shards i).entries.length) (Finset.mem_univ i)]
  have h : ∀ j ∈ Finset.univ.erase i,
      (Function.update s.shards i (f (s.shards i)) j).entries.length = (s.shards j).entries.length := by
    intro j hj
    rw [Function.update_of_ne (Finset.ne_of_mem_erase hj)]
  rw [Finset.sum_congr rfl h]
  simp only [Function.update_self]
  push_cast
  ring

theorem drift_purge {s : Store c} {key : Bytes} {e : Entry} (h : lookup s key = some e) :
    drift (purge s (shardIndex c key) key) = drift s := by
  have hl := entries_length_erase (m := s.shards (shardIndex c key)) h
  have hc := entryCount_onShard s (shardIndex c key) (AList.erase key)
  simp only [drift, purge, addCount]
  change s.count + -1 - (entryCount (onShard s (shardIndex c key) (AList.erase key)) : Int) = _
  omega

theorem drift_write (s : Store c) (key : Bytes) (w : Write) :
    drift (write s key w) = drift s - if (lookup s key).isSome then 0 else 1 := by
  have hl := entries_length_insert (s.shards (shardIndex c key)) key w.entry
  have hc := entryCount_onShard s (shardIndex c key) (AList.insert key w.entry)
  have hd : drift (write s key w) =
      s.count - (entryCount (onShard s (shardIndex c key) (AList.insert key w.entry)) : Int) := by
    unfold write
    cases w.track <;> rfl
  rw [hd, hc, hl]
  unfold drift lookup
  ring

theorem drift_create {s : Store c} {key : Bytes} (w : Option Write) (h : lookup s key = none) :
    drift (create s key w) = drift s := by
  cases w with
  | none => rfl
  | some w =>
    have hw := drift_write s key w
    rw [h] at hw
    have ha : drift (addCount (write s key w) 1) = drift (write s key w) + 1 := by
      simp only [drift, addCount, entryCount]
      ring
    simp only [create, ha, hw]
    simp

theorem drift_apply {s : Store c} {key : Bytes} {e : Entry} (eff : Effect) (h : lookup s key = some e) :
    drift (apply s key eff) = drift s := by
  cases eff with
  | keep => rfl
  | purge => exact drift_purge h
  | put w => simp [apply, drift_write, h]

theorem drift_onKey (op : KeyOp α) (s : Store c) (now : Readings) (key : Bytes) :
    drift (onKey op s now key).2 = drift s := by
  unfold onKey
  cases hl : lookup s key with
  | none => exact drift_create _ hl
  | some e =>
    cases he : expired (now 0) e with
    | true =>
      have hp : lookup (purge s (shardIndex c key) key) key = none := by simp
      simp only [he, ↓reduceIte]
      rw [drift_create _ hp, drift_purge hl]
    | false =>
      simp only [he, Bool.false_eq_true, ↓reduceIte]
      exact drift_apply _ hl

theorem drift_delKeys (s : Store c) (now : Readings) (keys : List Bytes) :
    drift (delKeys s now keys).2 = drift s := by
  induction keys generalizing s now with
  | nil => rfl
  | cons key keys ih =>
    simp only [delKeys]
    rw [ih, drift_onKey]

theorem drift_checkAbsent (s : Store c) (now : Readings) (pairs : List (Bytes × Bytes)) :
    drift (checkAbsent s now pairs).2 = drift s := by
  induction pairs generalizing s now with
  | nil => rfl
  | cons p pairs ih =>
    unfold checkAbsent
    cases hl : lookup s p.1 with
    | none => exact ih s (later 1 now)
    | some e =>
      simp only
      split
      · rw [ih, drift_purge hl]
      · rfl

theorem drift_purgeDue (s : Store c) (d : ExpEntry) : drift (purgeDue s d) = drift s := by
  unfold purgeDue
  simp only [shardForString_eq]
  cases hl : (s.shards (shardIndex c d.key)).lookup d.key with
  | none => rfl
  | some e =>
    simp only
    split
    · exact drift_purge hl
    · rfl

theorem drift_sweep (s : Store c) (now : Instant) : drift (sweep s now) = drift s := by
  have h : ∀ (due : List ExpEntry) (s : Store c), drift (due.foldl purgeDue s) = drift s := by
    intro due
    induction due with
    | nil => exact fun _ => rfl
    | cons d due ih => exact fun s => (ih (purgeDue s d)).trans (drift_purgeDue s d)
  exact h _ _

theorem drift_new : drift (new c) = 0 := by
  simp [drift, entryCount, new, AList.empty_entries]

theorem drift_flush (s : Store c) : drift (flush s) = 0 := by
  simp [drift, entryCount, flush, clearHeap, clearShards, AList.empty_entries]

theorem drift_putOne (s : Store c) (p : Bytes × Bytes) :
    drift (addCount (write s p.1 (plain p.2)) 1) = drift s + if (lookup s p.1).isSome then 1 else 0 := by
  have hw := drift_write s p.1 (plain p.2)
  have ha : drift (addCount (write s p.1 (plain p.2)) 1) = drift (write s p.1 (plain p.2)) + 1 := by
    simp only [drift, addCount, entryCount]
    ring
  rw [ha, hw]
  split <;> ring

theorem drift_putAll_le (s : Store c) (pairs : List (Bytes × Bytes)) : drift s ≤ drift (putAll s pairs) := by
  induction pairs generalizing s with
  | nil => exact le_rfl
  | cons p pairs ih =>
    have h := ih (addCount (write s p.1 (plain p.2)) 1)
    have hp := drift_putOne s p
    simp only [putAll]
    split at hp <;> omega

theorem drift_putAll_of_nodup (s : Store c) (pairs : List (Bytes × Bytes))
    (hn : (pairs.map Prod.fst).Nodup) (ha : ∀ p ∈ pairs, lookup s p.1 = none) :
    drift (putAll s pairs) = drift s := by
  induction pairs generalizing s with
  | nil => rfl
  | cons p pairs ih =>
    obtain ⟨hp, hn⟩ := List.nodup_cons.mp hn
    have habs : ∀ q ∈ pairs, lookup (addCount (write s p.1 (plain p.2)) 1) q.1 = none := by
      intro q hq
      have hne : q.1 ≠ p.1 := fun he => hp (he ▸ List.mem_map_of_mem hq)
      simpa [hne] using ha q (by simp [hq])
    simp only [putAll]
    rw [ih _ hn habs, drift_putOne, ha p (by simp)]
    simp

theorem drift_putAll_of_mem (s : Store c) (pairs : List (Bytes × Bytes)) (p : Bytes × Bytes)
    (hp : p ∈ pairs) (hs : (lookup s p.1).isSome) : drift s < drift (putAll s pairs) := by
  induction pairs generalizing s with
  | nil => cases hp
  | cons q pairs ih =>
    have hq := drift_putOne s q
    have hle := drift_putAll_le (addCount (write s q.1 (plain q.2)) 1) pairs
    simp only [putAll]
    rcases List.mem_cons.mp hp with rfl | hp
    · rw [if_pos hs] at hq
      omega
    · have hs' : (lookup (addCount (write s q.1 (plain q.2)) 1) p.1).isSome := by
        rw [lookup_addCount, lookup_write]
        split
        · rfl
        · exact hs
      have h := ih _ hp hs'
      split at hq <;> omega

theorem drift_putAll_of_repeat (s : Store c) (pairs : List (Bytes × Bytes))
    (hn : ¬ (pairs.map Prod.fst).Nodup) : drift s < drift (putAll s pairs) := by
  induction pairs generalizing s with
  | nil => exact absurd List.nodup_nil hn
  | cons p pairs ih =>
    have hp := drift_putOne s p
    simp only [putAll]
    by_cases hm : p.1 ∈ pairs.map Prod.fst
    · obtain ⟨q, hq, he⟩ := List.mem_map.mp hm
      have h := drift_putAll_of_mem (addCount (write s p.1 (plain p.2)) 1) pairs q hq (by simp [he])
      split at hp <;> omega
    · have hn' : ¬ (pairs.map Prod.fst).Nodup := fun h => hn (List.nodup_cons.mpr ⟨hm, h⟩)
      have h := ih (addCount (write s p.1 (plain p.2)) 1) hn'
      split at hp <;> omega

theorem checkAbsent_lookup (s : Store c) (now : Readings) (pairs : List (Bytes × Bytes))
    (h : (checkAbsent s now pairs).1 = true) :
    ∀ p ∈ pairs, lookup (checkAbsent s now pairs).2 p.1 = none := by
  have hkeep : ∀ (pairs : List (Bytes × Bytes)) (s : Store c) (now : Readings) (k : Bytes),
      lookup s k = none → lookup (checkAbsent s now pairs).2 k = none := by
    intro pairs
    induction pairs with
    | nil => exact fun _ _ _ h => h
    | cons p pairs ih =>
      intro s now k hk
      unfold checkAbsent
      cases hl : lookup s p.1 with
      | none => exact ih s _ k hk
      | some e =>
        simp only
        split
        · exact ih _ _ k (by simp [hk])
        · exact hk
  induction pairs generalizing s now with
  | nil => simp
  | cons p pairs ih =>
    intro q hq
    unfold checkAbsent at h ⊢
    cases hl : lookup s p.1 with
    | none =>
      simp only [hl] at h ⊢
      rcases List.mem_cons.mp hq with rfl | hq
      · exact hkeep pairs s _ _ hl
      · exact ih s _ h q hq
    | some e =>
      simp only [hl] at h ⊢
      split at h
      · rename_i he
        rw [if_pos he]
        rcases List.mem_cons.mp hq with rfl | hq
        · exact hkeep pairs _ _ _ (by simp)
        · exact ih _ _ h q hq
      · cases h

/-- A `SetNXMulti` either lists no key twice or is stopped by a live key. -/
def CountsOnce (s : Store c) (now : Readings) : Step → Prop
  | .call (.setNXMulti pairs) => (pairs.map Prod.fst).Nodup ∨ (checkAbsent s now pairs).1 = false
  | _ => True

theorem drift_setNXMulti (s : Store c) (now : Readings) (pairs : List (Bytes × Bytes)) :
    drift s ≤ drift (setNXMulti s now pairs).2 ∧
      (drift (setNXMulti s now pairs).2 = drift s ↔ CountsOnce s now (.call (.setNXMulti pairs))) := by
  have hd := drift_checkAbsent s now pairs
  have hl := checkAbsent_lookup s now pairs
  unfold setNXMulti CountsOnce
  rcases hc : checkAbsent s now pairs with ⟨ok, s'⟩
  simp only [hc] at hd hl ⊢
  cases ok with
  | false => simp [hd]
  | true =>
    have hle := drift_putAll_le s' pairs
    by_cases hn : (pairs.map Prod.fst).Nodup
    · have h := drift_putAll_of_nodup s' pairs hn (hl rfl)
      simp only [hn, true_or, iff_true]
      omega
    · have h := drift_putAll_of_repeat s' pairs hn
      simp only [hn, false_or, Bool.true_eq_false, iff_false]
      omega

theorem drift_step_of_counts {s : Store c} {now : Readings} {st : Step}
    (h : CountsOnce s now st) (hs : drift s = 0) : drift (step s now st) = 0 := by
  cases st with
  | sweep => exact (drift_sweep s _).trans hs
  | call a =>
    cases a with
    | setNXMulti pairs => exact ((drift_setNXMulti s now pairs).2.mpr h).trans hs
    | flush => exact drift_flush s
    | del keys => exact (drift_delKeys s now keys).trans hs
    | existsKeys _ | keys _ => exact hs
    | typeOf key =>
      change drift (typeOf s now key).2 = 0
      rw [typeOf_snd, drift_onKey, hs]
    | get _ | set _ _ _ _ | incrBy _ _ | append _ _ | expire _ _ | expireAt _ _ | expireAtMs _ _
    | ttl _ | persist _ | getSet _ _ => exact (drift_onKey _ s now _).trans hs

theorem drift_step_of_not_counts {s : Store c} {now : Readings} {st : Step}
    (h : ¬ CountsOnce s now st) (hs : drift s = 0) : 0 < drift (step s now st) := by
  cases st with
  | sweep => exact absurd trivial h
  | call a =>
    cases a with
    | setNXMulti pairs =>
      obtain ⟨hle, hiff⟩ := drift_setNXMulti s now pairs
      have hne : drift (setNXMulti s now pairs).2 ≠ drift s := fun he => h (hiff.mp he)
      change 0 < drift (setNXMulti s now pairs).2
      omega
    | _ => exact absurd trivial h

theorem len_eq_iff_drift (s : Store c) : Len s = entryCount s ↔ drift s = 0 := by
  unfold Len drift
  omega

/-- The counter equals the number of entries in every state of a run exactly
when every `SetNXMulti` of the run lists its keys once or writes nothing. -/
theorem len_eq_entryCount_iff (c : Config) (steps : List (Step × Readings)) :
    (∀ done, done <+: steps → Len (run (new c) done) = entryCount (run (new c) done) ∧
      0 ≤ Len (run (new c) done)) ↔
      ∀ done st now, done ++ [(st, now)] <+: steps → CountsOnce (run (new c) done) now st := by
  constructor
  · intro h done st now hp
    by_contra hc
    have h0 := (len_eq_iff_drift _).mp (h done ((List.prefix_append _ _).trans hp)).1
    have h1 := (len_eq_iff_drift _).mp (h _ hp).1
    rw [run_concat] at h1
    exact absurd h1 (drift_step_of_not_counts hc h0).ne'
  · intro h done hp
    have hd : drift (run (new c) done) = 0 := by
      induction done using List.reverseRecOn with
      | nil => exact drift_new
      | append_singleton done st ih =>
        rw [run_concat]
        exact drift_step_of_counts (h done st.1 st.2 hp) (ih ((List.prefix_append _ _).trans hp))
    have hl := (len_eq_iff_drift _).mpr hd
    exact ⟨hl, by omega⟩

theorem len_counts_repeated_key :
    Len (run (new (newConfig 8 1 0 flatHash))
      [(.call (.setNXMulti [(ascii "k", ascii "1"), (ascii "k", ascii "2")]), frozen (instant 0))]) ≠
    entryCount (run (new (newConfig 8 1 0 flatHash))
      [(.call (.setNXMulti [(ascii "k", ascii "1"), (ascii "k", ascii "2")]), frozen (instant 0))]) := by
  decide

end MemX.StoreCount
