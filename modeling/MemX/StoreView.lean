import MemX.StoreInvariants

namespace MemX.StoreView

open MachineInt DecimalText Clock StoreState StoreRules StoreOps StoreLookup StoreInvariants

variable {c : Config} {α : Type}

theorem expired_mono {t t' : Instant} (h : t ≤ t') {e : Entry} (he : expired t e = true) :
    expired t' e = true := by
  rw [Instant.le_def] at h
  simp only [expired, Bool.and_eq_true, bne_iff_ne, ne_eq, decide_eq_true_eq] at he ⊢
  exact ⟨he.1, he.2.trans h⟩

@[simp] theorem expired_zero (t : Instant) (val : Bytes) : expired t ⟨val, 0⟩ = false := rfl

@[simp] theorem live_none (t : Instant) : live t none = none := rfl

theorem live_some_of_live {t : Instant} {e : Entry} (h : expired t e = false) : live t (some e) = some e := by
  simp [live, h]

theorem live_some_of_expired {t : Instant} {e : Entry} (h : expired t e = true) : live t (some e) = none := by
  simp [live, h]

theorem live_eq_some {t : Instant} {o : Option Entry} {e : Entry} :
    live t o = some e ↔ o = some e ∧ expired t e = false := by
  simp [live, Option.filter_eq_some_iff]

theorem lt_of_live {t : Instant} {o : Option Entry} {e : Entry} (h : live t o = some e) (h0 : e.expireAt ≠ 0) :
    t.nanos < e.expireAt := by
  have he := (live_eq_some.mp h).2
  simpa [expired, h0] using he

@[simp] theorem live_plain (t : Instant) (val : Bytes) : live t (some ⟨val, 0⟩) = some ⟨val, 0⟩ :=
  live_some_of_live (expired_zero t val)

theorem live_live {t t' : Instant} (h : t ≤ t') (e : Option Entry) : live t' (live t e) = live t' e := by
  cases e with
  | none => rfl
  | some e =>
    cases he : expired t e with
    | false => rw [live_some_of_live he]
    | true => rw [live_some_of_expired he, live_some_of_expired (expired_mono h he), live_none]

@[simp] theorem live_view (s : Store c) (t : Instant) (k : Bytes) : live t (view s t k) = view s t k :=
  live_live le_rfl _

theorem view_later (s : Store c) {t t' : Instant} (h : t ≤ t') (k : Bytes) :
    view s t' k = live t' (view s t k) :=
  (live_live h _).symm

theorem view_onKey (op : KeyOp α) (s : Store c) (now : Readings) (t : Instant) (key k : Bytes) :
    view (onKey op s now key).2 t k =
      if k = key then live t (next op (now 1) (view s (now 0) key)) else view s t k := by
  unfold view
  rw [onKey_lookup]
  split <;> rfl

theorem view_purge_expired {s : Store c} {t : Instant} {key : Bytes} {e : Entry}
    (hl : lookup s key = some e) (he : expired t e = true) (k : Bytes) :
    view (purge s (shardIndex c key) key) t k = view s t k := by
  by_cases hk : k = key
  · subst k
    rw [view_of_expired hl he]
    simp [view]
  · simp [view, hk]

def putView (v : Bytes → Option Entry) : List (Bytes × Bytes) → Bytes → Option Entry
  | [] => v
  | p :: pairs => putView (Function.update v p.1 (some ⟨p.2, 0⟩)) pairs

theorem view_write_plain (s : Store c) (t : Instant) (key val : Bytes) :
    view (write s key (plain val)) t = Function.update (view s t) key (some ⟨val, 0⟩) := by
  funext k
  by_cases hk : k = key
  · subst k
    simp [view, plain]
  · simp [view, hk]

theorem view_putAll (s : Store c) (t : Instant) (pairs : List (Bytes × Bytes)) :
    view (putAll s pairs) t = putView (view s t) pairs := by
  induction pairs generalizing s with
  | nil => rfl
  | cons p pairs ih =>
    have hw : view (addCount (write s p.1 (plain p.2)) 1) t = view (write s p.1 (plain p.2)) t := rfl
    rw [putAll, ih, hw, view_write_plain, putView]

theorem checkAbsent_frozen (s : Store c) (t : Instant) (pairs : List (Bytes × Bytes)) :
    (checkAbsent s (frozen t) pairs).1 = !pairs.any (fun p => (view s t p.1).isSome) ∧
      view (checkAbsent s (frozen t) pairs).2 t = view s t := by
  induction pairs generalizing s with
  | nil => exact ⟨rfl, rfl⟩
  | cons p pairs ih =>
    unfold checkAbsent
    cases hl : lookup s p.1 with
    | none => simpa [view_of_none t hl] using ih s
    | some e =>
      cases he : expired t e with
      | false => simp [he, view_of_live hl he]
      | true =>
        have hv : view (purge s (shardIndex c p.1) p.1) t = view s t := funext (view_purge_expired hl he)
        have h := ih (purge s (shardIndex c p.1) p.1)
        rw [hv] at h
        simpa [he, view_of_expired hl he] using h

theorem setNXMulti_frozen (s : Store c) (t : Instant) (pairs : List (Bytes × Bytes)) :
    (setNXMulti s (frozen t) pairs).1 = !pairs.any (fun p => (view s t p.1).isSome) ∧
      view (setNXMulti s (frozen t) pairs).2 t =
        if pairs.any (fun p => (view s t p.1).isSome) then view s t else putView (view s t) pairs := by
  obtain ⟨hok, hv⟩ := checkAbsent_frozen s t pairs
  unfold setNXMulti
  rcases hr : checkAbsent s (frozen t) pairs with ⟨ok, s'⟩
  simp only [hr] at hok hv
  cases ok with
  | false =>
    have ha : pairs.any (fun p => (view s t p.1).isSome) = true := by simpa using hok.symm
    simp [ha, hv]
  | true =>
    have ha : pairs.any (fun p => (view s t p.1).isSome) = false := by simpa using hok.symm
    simp [ha, view_putAll, hv]

/-- The sweeper's second phase is invisible once the popped deadline has
passed, since an entry that still carries it has expired. -/
theorem view_purgeDue (s : Store c) {d : ExpEntry} {t : Instant} (h0 : d.deadline ≠ 0)
    (hd : d.deadline ≤ t.nanos) (k : Bytes) : view (purgeDue s d) t k = view s t k := by
  unfold view
  rw [lookup_purgeDue]
  split
  · rename_i h
    obtain ⟨e, hl, he⟩ := Option.map_eq_some_iff.mp h.2
    rw [hl, live_some_of_expired, live_none]
    simp [expired, he, h0, hd]
  · rfl

theorem view_sweep {s : Store c} (h : Dated s) {t t' : Instant} (ht : t ≤ t') (k : Bytes) :
    view (sweep s t) t' k = view s t' k := by
  have hf : ∀ (due : List ExpEntry) (s : Store c), (∀ d ∈ due, d.deadline ≠ 0 ∧ d.deadline ≤ t'.nanos) →
      view (due.foldl purgeDue s) t' k = view s t' k := by
    intro due
    induction due with
    | nil => exact fun _ _ => rfl
    | cons d due ih =>
      intro s hd
      obtain ⟨h0, hle⟩ := hd d (by simp)
      rw [List.foldl_cons, ih _ (fun d hm => hd d (by simp [hm])), view_purgeDue s h0 hle]
  refine hf _ _ fun d hd => ⟨?_, ?_⟩
  · exact h d ((MinQueue.mem_due_or_rest _ _ d).mpr (Or.inl hd))
  · exact (MinQueue.rank_le_of_mem_due hd).trans ht

end MemX.StoreView
