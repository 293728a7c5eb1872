import MemX.StoreFlat
import MemX.StoreView

namespace MemX.StoreRefine

open MachineInt DecimalText Clock StoreState StoreRules StoreOps StoreLookup StoreCalls
open StoreInvariants StoreView
open StoreFlat (Flat vanish)

variable {c : Config} {α : Type}

/-- A listing of keys has no order; every other result is compared as it is. -/
inductive Result.Same : Result → Result → Prop
  | refl (r : Result) : Result.Same r r
  | names {ks ks' : List Bytes} (h : ks.Perm ks') : Result.Same (.names ks) (.names ks')

def calls (steps : List (Step × Instant)) : List (Call × Instant) :=
  steps.filterMap fun st => match st.1 with
    | .call a => some (a, st.2)
    | .sweep => none

def results (s : Store c) : List (Step × Instant) → List Result
  | [] => []
  | (.call a, t) :: steps => (exec s (frozen t) a).1 :: results (exec s (frozen t) a).2 steps
  | (.sweep, t) :: steps => results (sweep s t) steps

def readings (steps : List (Step × Instant)) : List (Step × Readings) :=
  steps.map fun st => (st.1, frozen st.2)

/-- The store holds, at the reading `t`, what the single map holds. -/
def Agrees (s : Store c) (m : Flat) (t : Instant) : Prop := ∀ k, view s t k = m.lookup k

theorem agrees_vanish {s : Store c} {m : Flat} {t t' : Instant} (h : Agrees s (vanish t m) t) (ht : t ≤ t') :
    Agrees s (vanish t' m) t' := by
  intro k
  rw [view_later s ht, h k, StoreFlat.lookup_vanish, StoreFlat.lookup_vanish, live_live ht]

theorem onKey_agrees {s : Store c} {m : Flat} {t : Instant} (h : Agrees s m t) (op : KeyOp α) (key : Bytes) :
    (onKey op s (frozen t) key).1 = (StoreFlat.onKey op t m key).1 ∧
      Agrees (onKey op s (frozen t) key).2 (vanish t (StoreFlat.onKey op t m key).2) t := by
  constructor
  · rw [onKey_answer, frozen_apply, frozen_apply, h key]
    rfl
  · intro k
    rw [view_onKey, StoreFlat.lookup_vanish, StoreFlat.onKey, StoreFlat.lookup_assign, frozen_apply,
      frozen_apply, h key]
    split
    · rfl
    · rw [← h k, live_view]

theorem delKeys_agrees {s : Store c} {m : Flat} {t : Instant} (h : Agrees s m t) (keys : List Bytes) :
    (delKeys s (frozen t) keys).1 = (StoreFlat.delKeys m keys).1 ∧
      Agrees (delKeys s (frozen t) keys).2 (StoreFlat.delKeys m keys).2 t := by
  induction keys generalizing s m with
  | nil => exact ⟨rfl, h⟩
  | cons key keys ih =>
    have ha : (onKey del s (frozen t) key).1 = (m.lookup key).isSome := by
      rw [onKey_answer, frozen_apply, frozen_apply, h key]
      cases m.lookup key <;> rfl
    have hs : Agrees (onKey del s (frozen t) key).2 (m.erase key) t := by
      intro k
      have hn : next del t (view s t key) = none := by
        cases view s t key <;> rfl
      rw [view_onKey, frozen_apply, frozen_apply, hn]
      by_cases hk : k = key
      · subst k
        simp
      · simp [hk, h k]
    obtain ⟨hn, hv⟩ := ih hs
    simp only [delKeys, StoreFlat.delKeys, later_frozen]
    exact ⟨by rw [ha, hn], hv⟩

theorem existsKeys_agrees {s : Store c} {m : Flat} {t : Instant} (h : Agrees s m t) (keys : List Bytes) :
    existsKeys s (frozen t) keys = StoreFlat.existsKeys m keys := by
  induction keys with
  | nil => rfl
  | cons key keys ih =>
    have hk : existsKey s (frozen t) key = (m.lookup key).isSome := by
      rw [← h key, existsKey]
      cases hl : lookup s key with
      | none => rw [view_of_none t hl]; rfl
      | some e =>
        cases he : expired t e with
        | true => rw [view_of_expired hl he]; simp [he]
        | false => rw [view_of_live hl he]; simp [he]
    simp only [existsKeys, later_frozen, hk, ih]
    rfl

theorem putAll_lookup (m : Flat) (pairs : List (Bytes × Bytes)) (k : Bytes) :
    (StoreFlat.putAll m pairs).lookup k = putView (fun k => m.lookup k) pairs k := by
  induction pairs generalizing m with
  | nil => rfl
  | cons p pairs ih =>
    have hu : (fun k => (m.insert p.1 ⟨p.2, 0⟩).lookup k) =
        Function.update (fun k => m.lookup k) p.1 (some ⟨p.2, 0⟩) := by
      funext k
      by_cases hk : k = p.1
      · subst k
        simp
      · simp [hk]
    rw [StoreFlat.putAll, ih, hu, putView]

theorem setNXMulti_agrees {s : Store c} {m : Flat} {t : Instant} (h : Agrees s m t)
    (pairs : List (Bytes × Bytes)) :
    (setNXMulti s (frozen t) pairs).1 = (StoreFlat.setNXMulti m pairs).1 ∧
      Agrees (setNXMulti s (frozen t) pairs).2 (StoreFlat.setNXMulti m pairs).2 t := by
  obtain ⟨hr, hv⟩ := setNXMulti_frozen s t pairs
  have hf : view s t = fun k => m.lookup k := funext h
  rw [hf] at hr hv
  unfold StoreFlat.setNXMulti Agrees
  rw [hr, hv]
  cases pairs.any (fun p => (m.lookup p.1).isSome) with
  | true => exact ⟨rfl, fun k => rfl⟩
  | false => exact ⟨rfl, fun k => (putAll_lookup m pairs k).symm⟩

def selected (pattern : Bytes) (t : Instant) (e : Sigma fun _ : Bytes => Entry) : Bool :=
  !expired t e.2 && (pattern = [] || StoreGlob.globMatch pattern e.1)

theorem liveKeys_frozen (pattern : Bytes) (t : Instant) (es : List (Sigma fun _ : Bytes => Entry)) :
    liveKeys pattern (frozen t) es = (es.filter (selected pattern t)).map Sigma.fst := by
  induction es with
  | nil => rfl
  | cons e es ih =>
    unfold liveKeys
    rw [later_frozen, frozen_apply, ih, List.filter_cons]
    unfold selected
    cases expired t e.2 with
    | true => simp
    | false => cases h : (decide (pattern = []) || StoreGlob.globMatch pattern e.1) <;> simp

theorem keysFrom_frozen (s : Store c) (pattern : Bytes) (t : Instant) (is : List (Fin c.shardCount)) :
    keysFrom s pattern (frozen t) is = is.flatMap (fun i => shardKeys s (frozen t) pattern i) := by
  induction is with
  | nil => rfl
  | cons i is ih => rw [keysFrom, later_frozen, ih, List.flatMap_cons]

theorem mem_shardKeys (s : Store c) (pattern : Bytes) (t : Instant) (i : Fin c.shardCount) (k : Bytes) :
    k ∈ shardKeys s (frozen t) pattern i ↔
      (live t ((s.shards i).lookup k)).isSome ∧ (pattern = [] || StoreGlob.globMatch pattern k) = true := by
  rw [shardKeys, liveKeys_frozen]
  have hm : ∀ e, (⟨k, e⟩ : Sigma fun _ : Bytes => Entry) ∈ (s.shards i).entries ↔
      (s.shards i).lookup k = some e := fun e => (List.mem_dlookup_iff (s.shards i).nodupKeys).symm
  constructor
  · intro h
    obtain ⟨⟨k', e⟩, he, hk⟩ := List.mem_map.mp h
    cases hk
    obtain ⟨he, hs⟩ := List.mem_filter.mp he
    simp only [selected, Bool.and_eq_true, Bool.not_eq_true'] at hs
    rw [(hm e).mp he, live_some_of_live hs.1]
    exact ⟨rfl, hs.2⟩
  · rintro ⟨hl, hp⟩
    obtain ⟨e, he⟩ := Option.isSome_iff_exists.mp hl
    obtain ⟨hl, hx⟩ := Option.filter_eq_some_iff.mp he
    exact List.mem_map.mpr ⟨⟨k, e⟩, List.mem_filter.mpr ⟨(hm e).mpr hl, by simp [selected, hx, hp]⟩, rfl⟩

theorem mem_keys {s : Store c} (hs : Placed s) (pattern : Bytes) (t : Instant) (k : Bytes) :
    k ∈ keys s (frozen t) pattern ↔
      (view s t k).isSome ∧ (pattern = [] || StoreGlob.globMatch pattern k) = true := by
  rw [keys, keysFrom_frozen, List.mem_flatMap]
  simp only [mem_shardKeys, List.mem_finRange, true_and]
  constructor
  · rintro ⟨i, hl, hp⟩
    obtain ⟨e, he⟩ := Option.isSome_iff_exists.mp hl
    have hi := hs i k (by simp [(Option.filter_eq_some_iff.mp he).1])
    subst hi
    exact ⟨hl, hp⟩
  · exact fun h => ⟨shardIndex c k, h⟩

theorem keys_nodup {s : Store c} (hs : Placed s) (pattern : Bytes) (t : Instant) :
    (keys s (frozen t) pattern).Nodup := by
  rw [keys, keysFrom_frozen, List.nodup_flatMap]
  constructor
  · intro i _
    rw [shardKeys, liveKeys_frozen]
    exact (s.shards i).nodupKeys.sublist List.filter_sublist
  · refine (List.nodup_finRange _).imp fun {i j} hij k hi hj => hij ?_
    have hplace : ∀ i, k ∈ shardKeys s (frozen t) pattern i → shardIndex c k = i := by
      intro i hi
      obtain ⟨e, he⟩ := Option.isSome_iff_exists.mp ((mem_shardKeys s pattern t i k).mp hi).1
      exact hs i k (by simp [(Option.filter_eq_some_iff.mp he).1])
    exact (hplace i hi).symm.trans (hplace j hj)

theorem keys_agrees {s : Store c} {m : Flat} {t : Instant} (hs : Placed s) (h : Agrees s m t) (pattern : Bytes) :
    (keys s (frozen t) pattern).Perm (StoreFlat.keys m pattern) := by
  refine (List.perm_ext_iff_of_nodup (keys_nodup hs pattern t) (m.keys_nodup.filter _)).mpr fun k => ?_
  rw [mem_keys hs, h k, List.mem_filter, AList.lookup_isSome, AList.mem_keys]

theorem exec_agrees {s : Store c} {m : Flat} {t : Instant} (hs : Placed s) (h : Agrees s m t) (a : Call) :
    Result.Same (exec s (frozen t) a).1 (StoreFlat.exec c.maxValLen t m a).1 ∧
      Agrees (exec s (frozen t) a).2 (vanish t (StoreFlat.exec c.maxValLen t m a).2) t := by
  have hv : Agrees s (vanish t m) t := by
    intro k
    rw [StoreFlat.lookup_vanish, ← h k, live_view]
  have hkey : ∀ {β : Type} (op : KeyOp β) (key : Bytes) (f : β → Result),
      Result.Same (f (onKey op s (frozen t) key).1) (f (StoreFlat.onKey op t m key).1) ∧
        Agrees (onKey op s (frozen t) key).2 (vanish t (StoreFlat.onKey op t m key).2) t := by
    intro β op key f
    obtain ⟨hr, ha⟩ := onKey_agrees h op key
    exact ⟨hr ▸ .refl _, ha⟩
  have hsame : ∀ {s' : Store c} {m' : Flat}, Agrees s' m' t → Agrees s' (vanish t m') t := by
    intro s' m' h' k
    rw [StoreFlat.lookup_vanish, ← h' k, live_view]
  cases a with
  | del keys =>
    obtain ⟨hr, ha⟩ := delKeys_agrees h keys
    exact ⟨by simp only [exec, StoreFlat.exec, Prod.map_fst, hr]; exact .refl _, hsame ha⟩
  | existsKeys keys =>
    exact ⟨by simp only [exec, StoreFlat.exec, existsKeys_agrees h]; exact .refl _, hv⟩
  | setNXMulti pairs =>
    obtain ⟨hr, ha⟩ := setNXMulti_agrees h pairs
    exact ⟨by simp only [exec, StoreFlat.exec, Prod.map_fst, hr]; exact .refl _, hsame ha⟩
  | flush => exact ⟨.refl _, hsame fun k => rfl⟩
  | keys pattern => exact ⟨.names (keys_agrees hs h pattern), hv⟩
  | typeOf key =>
    obtain ⟨hr, ha⟩ := onKey_agrees h StoreRules.get key
    have ht : (typeOf s (frozen t) key).1 =
        if (m.lookup key).isSome then ascii "string" else ascii "none" := by
      unfold typeOf
      rcases ho : onKey StoreRules.get s (frozen t) key with ⟨v, s'⟩
      rw [ho] at hr
      subst hr
      cases hl : m.lookup key <;> simp [StoreFlat.onKey, hl, answer, StoreRules.get]
    refine ⟨by simp only [exec, StoreFlat.exec, Prod.map_fst, ht]; exact .refl _, ?_⟩
    change Agrees (typeOf s (frozen t) key).2 _ t
    rw [typeOf_snd]
    intro k
    rw [ha k, StoreFlat.lookup_vanish, StoreFlat.onKey, StoreFlat.lookup_assign, StoreFlat.exec,
      StoreFlat.lookup_vanish]
    split
    · subst k
      cases m.lookup key <;> rfl
    · rfl
  | get key | set key _ _ _ | incrBy key _ | append key _ | expire key _ | expireAt key _
  | expireAtMs key _ | ttl key | persist key | getSet key _ => exact hkey _ key _

/-- In a run at nondecreasing readings in which no call sets the deadline 0,
every call returns what one unsharded map returns, whatever the number of
shards and the hash seed, and whenever the sweeper ran. -/
theorem store_refines_flat (c : Config) (steps : List (Step × Instant))
    (hmono : (steps.map Prod.snd).Pairwise (· ≤ ·))
    (hzero : ∀ done st t, done ++ [(st, t)] <+: steps → ZeroFree (run (new c) (readings done)) t st) :
    List.Forall₂ Result.Same (results (new c) steps) (StoreFlat.results c.maxValLen ∅ (calls steps)) := by
  have main : ∀ (steps : List (Step × Instant)) (s : Store c) (m : Flat),
      (steps.map Prod.snd).Pairwise (· ≤ ·) →
      (∀ done st t, done ++ [(st, t)] <+: steps → ZeroFree (run s (readings done)) t st) →
      Placed s → Dated s → (∀ t ∈ steps.map Prod.snd, Agrees s (vanish t m) t) →
      List.Forall₂ Result.Same (results s steps) (StoreFlat.results c.maxValLen m (calls steps)) := by
    intro steps
    induction steps with
    | nil => exact fun _ _ _ _ _ _ _ => List.Forall₂.nil
    | cons st steps ih =>
      intro s m hmono hzero hp hd ha
      obtain ⟨hle, hrest⟩ := List.pairwise_cons.mp hmono
      have h0 : ZeroFree s st.2 st.1 := hzero [] st.1 st.2 (List.prefix_append [st] steps)
      have hz' : ∀ done st' t, done ++ [(st', t)] <+: steps →
          ZeroFree (run (step s (frozen st.2) st.1) (readings done)) t st' := fun done st' t hpre =>
        hzero (st :: done) st' t ((List.prefix_cons_inj st).mpr hpre)
      have hp' := placed_step hp (frozen st.2) st.1
      have hd' := dated_step hd h0
      have ha0 := ha st.2 (by simp)
      obtain ⟨sort, t⟩ := st
      cases sort with
      | sweep =>
        refine ih (sweep s t) m hrest hz' hp' hd' fun t' ht' k => ?_
        rw [view_sweep hd (hle t' ht')]
        exact ha t' (List.mem_cons_of_mem _ ht') k
      | call a =>
        obtain ⟨hr, hag⟩ := exec_agrees hp ha0 a
        exact List.Forall₂.cons hr (ih _ _ hrest hz' hp' hd' fun t' ht' => agrees_vanish hag (hle t' ht'))
  exact main steps (new c) ∅ hmono hzero placed_new dated_new fun t _ k => rfl

/-- On a clock past the Unix epoch no `int64` argument sets the deadline 0. -/
theorem zeroFree_of_epoch (s : Store c) {t : Instant} (ht : 0 ≤ t.nanos) {st : Step}
    (hst : ∀ key ttl, st = .call (.expire key ttl) → InRange ttl) : ZeroFree s t st := by
  cases st with
  | sweep => trivial
  | call a =>
    cases a with
    | expire key ttl =>
      intro _ hpos
      have hr := hst key ttl rfl
      have hn := t.inRange
      unfold InRange at hr hn
      unfold unixNano wrap64
      omega
    | expireAt key secs => exact fun _ hneg => absurd hneg (by omega)
    | expireAtMs key ms => exact fun _ hneg => absurd hneg (by omega)
    | _ => trivial

def expiringRun : List (Step × Instant) :=
  [(.call (.set (ascii "k") (ascii "v") 5 .always), instant 0), (.call (.keys (ascii "*")), instant 4),
    (.sweep, instant 9), (.call (.get (ascii "k")), instant 9)]

theorem expiringRun_refines :
    List.Forall₂ Result.Same (results (new (newConfig 8 4 0 flatHash)) expiringRun)
      (StoreFlat.results 536870912 ∅ (calls expiringRun)) := by
  refine store_refines_flat (newConfig 8 4 0 flatHash) expiringRun (by decide) ?_
  intro done st t hp
  have hm : (st, t) ∈ expiringRun := hp.subset (by simp)
  simp only [expiringRun, List.mem_cons, Prod.mk.injEq, List.not_mem_nil, or_false] at hm
  rcases hm with ⟨rfl, rfl⟩ | ⟨rfl, rfl⟩ | ⟨rfl, rfl⟩ | ⟨rfl, rfl⟩ <;> trivial

/-- Before the epoch an `Expire` may ask for the deadline 0, which the entry
reads as "no expiry" and the heap as a deadline. -/
def undatedRun : List (Step × Instant) :=
  [(.call (.set (ascii "k") (ascii "v") 0 .always), instant (-5)),
    (.call (.expire (ascii "k") 5), instant (-5)), (.sweep, instant 0), (.call (.get (ascii "k")), instant 0)]

theorem undatedRun_not_refines :
    (undatedRun.map Prod.snd).Pairwise (· ≤ ·) ∧
    ¬ List.Forall₂ Result.Same (results (new (newConfig 8 4 0 flatHash)) undatedRun)
      (StoreFlat.results 536870912 ∅ (calls undatedRun)) := by
  refine ⟨by decide, fun h => ?_⟩
  change List.Forall₂ Result.Same [.flag true, .flag true, .value none]
    [.flag true, .flag true, .value (some (ascii "v"))] at h
  cases h with
  | cons _ h => cases h with
    | cons _ h => cases h with
      | cons h _ => cases h

end MemX.StoreRefine
