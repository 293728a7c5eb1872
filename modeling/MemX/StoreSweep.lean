import MemX.StoreDeadline

namespace MemX.StoreSweep

open MachineInt DecimalText Clock StoreState StoreRules StoreOps StoreLookup StoreView StoreCalls
open StoreInvariants StoreDeadline

variable {c : Config} {α : Type}

def Tracked (s : Store c) : Prop :=
  ∀ k e, lookup s k = some e → e.expireAt ≠ 0 → ⟨e.expireAt, k⟩ ∈ s.exp

/-- An operation that pushes every deadline it does not find. -/
def Tracks (op : KeyOp α) : Prop :=
  ∀ t o e, next op t o = some e → e.expireAt ≠ 0 →
    pushed op t o = some e.expireAt ∨ o.map Entry.expireAt = some e.expireAt

theorem mem_pushDeadline {key : Bytes} {q : ExpHeap} {o : Option Int} {d : ExpEntry} :
    d ∈ pushDeadline key q o ↔ (∃ dl, o = some dl ∧ d = ⟨dl, key⟩) ∨ d ∈ q := by
  cases o with
  | none => simp [pushDeadline]
  | some dl => simp [pushDeadline]

theorem tracked_onKey {s : Store c} (h : Tracked s) {op : KeyOp α} (hop : Tracks op) (now : Readings) (key : Bytes) :
    Tracked (onKey op s now key).2 := by
  intro k e hk h0
  rw [onKey_exp, mem_pushDeadline]
  rw [onKey_lookup] at hk
  split_ifs at hk with heq
  · subst heq
    obtain hpush | hold := hop _ _ _ hk h0
    · exact .inl ⟨_, hpush, rfl⟩
    · obtain ⟨f, hf, hfe⟩ := Option.map_eq_some_iff.mp hold
      exact .inr (hfe ▸ h k f (live_eq_some.mp hf).1 (hfe ▸ h0))
  · exact .inr (h k e hk h0)

theorem tracks_of_undated {op : KeyOp α} (ha : ∀ t w, (op.absent t).2 = some w → w.entry.expireAt = 0)
    (hp : ∀ t e w, (op.present t e).2 = .put w → w.entry.expireAt = 0 ∨ w.entry.expireAt = e.expireAt) : Tracks op := by
  intro t o e he h0
  cases o with
  | none =>
    obtain ⟨w, hw, rfl⟩ := Option.map_eq_some_iff.mp he
    exact absurd (ha t w hw) h0
  | some f =>
    rw [next] at he
    cases heff : (op.present t f).2 with
    | keep =>
      rw [heff] at he
      cases he
      exact .inr rfl
    | purge =>
      rw [heff] at he
      cases he
    | put w =>
      rw [heff] at he
      cases he
      exact .inr (congrArg some ((hp t f w heff).resolve_left h0).symm)

theorem tracks_set (val : Bytes) (ttl : Int) (mode : SetMode) : Tracks (set val ttl mode) := by
  have hw : ∀ t, (setWrite val ttl t).entry.expireAt ≠ 0 →
      Write.pushes (setWrite val ttl t) = some (setWrite val ttl t).entry.expireAt := by
    intro t h0
    simp only [setWrite] at h0
    simp [Write.pushes, setWrite, h0]
  intro t o e he h0
  cases o with
  | none =>
    simp only [next, StoreRules.set] at he
    split_ifs at he with hm
    · cases he
    · cases he
      exact .inl (by simp [pushed, StoreRules.set, hm, hw t h0])
  | some f =>
    simp only [next, StoreRules.set] at he
    split_ifs at he with hm
    · cases he
      exact .inr rfl
    · cases he
      exact .inl (by simp [pushed, StoreRules.set, hm, hw t h0])

theorem tracks_expire (ttl : Int) : Tracks (expire ttl) := by
  intro t o e he _
  cases o with
  | none => cases he
  | some f =>
    simp only [next, expire] at he
    split_ifs at he with hd
    · cases he
    · cases he
      exact .inl (by simp [pushed, expire, hd, Write.pushes])

theorem tracks_expireAtNanos (dl : Int) : Tracks (expireAtNanos dl) := by
  intro t o e he _
  cases o with
  | none => cases he
  | some f =>
    simp only [next, expireAtNanos] at he
    split_ifs at he with hd
    · cases he
    · cases he
      exact .inl (by simp [pushed, expireAtNanos, hd, Write.pushes])

theorem tracks_get : Tracks StoreRules.get := tracks_of_undated (by rintro t w ⟨⟩) (by rintro t e w ⟨⟩)

theorem tracks_del : Tracks del := tracks_of_undated (by rintro t w ⟨⟩) (by rintro t e w ⟨⟩)

theorem tracks_ttl : Tracks ttl := by
  refine tracks_of_undated (by rintro t w ⟨⟩) fun t e w hw => ?_
  simp only [ttl] at hw
  split_ifs at hw

theorem tracks_incrBy (delta : Int) : Tracks (incrBy delta) := by
  refine tracks_of_undated (by rintro t w ⟨⟩; rfl) fun t e w hw => ?_
  simp only [incrBy] at hw
  split at hw
  · cases hw
  · cases hw
    exact .inl rfl

theorem tracks_append (n : Int) (suffix : Bytes) : Tracks (StoreRules.append n suffix) := by
  refine tracks_of_undated (fun t w hw => ?_) fun t e w hw => ?_
  · simp only [StoreRules.append] at hw
    split_ifs at hw
    cases hw
    rfl
  · simp only [StoreRules.append] at hw
    split_ifs at hw
    cases hw
    exact .inr rfl

theorem tracks_getSet (val : Bytes) : Tracks (getSet val) :=
  tracks_of_undated (by rintro t w ⟨⟩; rfl) (by rintro t e w ⟨⟩; exact .inl rfl)

theorem tracks_persist : Tracks persist := by
  refine tracks_of_undated (by rintro t w ⟨⟩) fun t e w hw => ?_
  simp only [persist] at hw
  split_ifs at hw
  cases hw
  exact .inl rfl

theorem tracked_delKeys {s : Store c} (h : Tracked s) (now : Readings) (keys : List Bytes) :
    Tracked (delKeys s now keys).2 := by
  induction keys generalizing s now with
  | nil => exact h
  | cons key keys ih => exact ih (tracked_onKey h tracks_del now key) (later 2 now)

theorem tracked_purge {s : Store c} (h : Tracked s) (key : Bytes) : Tracked (purge s (shardIndex c key) key) := by
  intro k e hk h0
  rw [lookup_purge] at hk
  split_ifs at hk
  exact h k e hk h0

theorem tracked_write_plain {s : Store c} (h : Tracked s) (key val : Bytes) : Tracked (write s key (plain val)) := by
  intro k e hk h0
  rw [lookup_write] at hk
  split_ifs at hk
  · cases hk
    exact absurd rfl h0
  · rw [write_exp]
    exact h k e hk h0

theorem tracked_checkAbsent {s : Store c} (h : Tracked s) (now : Readings) (pairs : List (Bytes × Bytes)) :
    Tracked (checkAbsent s now pairs).2 := by
  induction pairs generalizing s now with
  | nil => exact h
  | cons p pairs ih =>
    unfold checkAbsent
    split
    · exact ih h _
    · split
      · exact ih (tracked_purge h p.1) _
      · exact h

theorem tracked_putAll {s : Store c} (h : Tracked s) (pairs : List (Bytes × Bytes)) : Tracked (putAll s pairs) := by
  induction pairs generalizing s with
  | nil => exact h
  | cons p pairs ih => exact ih (tracked_write_plain h p.1 p.2)

theorem tracked_setNXMulti {s : Store c} (h : Tracked s) (now : Readings) (pairs : List (Bytes × Bytes)) :
    Tracked (setNXMulti s now pairs).2 := by
  have hc := tracked_checkAbsent h now pairs
  unfold setNXMulti
  rcases hr : checkAbsent s now pairs with ⟨fresh, s'⟩
  rw [hr] at hc
  cases fresh with
  | false => exact hc
  | true => exact tracked_putAll hc pairs

theorem lookup_sweep_none {s : Store c} {k : Bytes} (hl : lookup s k = none) (t : Instant) :
    lookup (sweep s t) k = none := by
  have hl' : lookup (popDue s t).2 k = none := hl
  exact lookup_purgeDues_none hl' _

theorem tracked_sweep {s : Store c} (h : Tracked s) (t : Instant) : Tracked (sweep s t) := by
  intro k e hk h0
  cases hl : lookup s k with
  | none =>
    rw [lookup_sweep_none hl] at hk
    cases hk
  | some f =>
    rw [lookup_sweep hl] at hk
    split_ifs at hk with hdue
    cases hk
    rw [sweep_exp]
    exact ((MinQueue.mem_due_or_rest _ _ _).mp (h k e hl h0)).resolve_left hdue

theorem tracked_step {s : Store c} (h : Tracked s) (now : Readings) (st : Step) : Tracked (step s now st) := by
  cases st with
  | sweep => exact tracked_sweep h _
  | call a =>
    cases a with
    | get key => exact tracked_onKey h tracks_get now key
    | set key val ttl mode => exact tracked_onKey h (tracks_set val ttl mode) now key
    | del keys => exact tracked_delKeys h now keys
    | existsKeys keys => exact h
    | incrBy key delta => exact tracked_onKey h (tracks_incrBy delta) now key
    | append key suffix => exact tracked_onKey h (tracks_append _ suffix) now key
    | expire key ttl => exact tracked_onKey h (tracks_expire ttl) now key
    | expireAt key secs => exact tracked_onKey h (tracks_expireAtNanos _) now key
    | expireAtMs key ms => exact tracked_onKey h (tracks_expireAtNanos _) now key
    | ttl key => exact tracked_onKey h tracks_ttl now key
    | persist key => exact tracked_onKey h tracks_persist now key
    | getSet key val => exact tracked_onKey h (tracks_getSet val) now key
    | setNXMulti pairs => exact tracked_setNXMulti h now pairs
    | flush =>
      intro k e hk
      cases hk
    | keys pattern => exact h
    | typeOf key =>
      simp only [step, exec, Prod.map_snd, id, typeOf_snd]
      exact tracked_onKey h tracks_get now key

theorem tracked_new : Tracked (new c) := by
  intro k e hk
  cases hk

theorem tracked_run {s : Store c} (h : Tracked s) (steps : List (Step × Readings)) : Tracked (run s steps) := by
  induction steps generalizing s with
  | nil => exact h
  | cons st steps ih => exact ih (tracked_step h st.2 st.1)

/-- A sweep at `t` leaves the entries that do not expire up to `t`, in their
shards and as they were, and no heap element that is due. -/
def ExactSweep (s : Store c) (t : Instant) : Prop :=
  (∀ i k, ((sweep s t).shards i).lookup k =
      ((s.shards i).lookup k).filter fun e => e.expireAt = 0 ∨ t.nanos < e.expireAt) ∧
    ∀ d ∈ (sweep s t).exp, t.nanos < d.deadline

theorem shard_lookup_of_ne {s : Store c} (h : Placed s) {i : Fin c.shardCount} {k : Bytes} (hi : shardIndex c k ≠ i) :
    (s.shards i).lookup k = none :=
  Option.not_isSome_iff_eq_none.mp fun hk => hi (h i k hk)

/-- The only way to fail: an entry without a deadline that the heap lists as
due at 0. -/
theorem exactSweep_iff {s : Store c} (hp : Placed s) (ht : Tracked s) (t : Instant) :
    ExactSweep s t ↔ ∀ k e, lookup s k = some e → e.expireAt = 0 → ⟨0, k⟩ ∈ s.exp → t.nanos < 0 := by
  constructor
  · rintro ⟨hmap, -⟩ k e hl h0 hmem
    by_contra hle
    have hdue : (⟨e.expireAt, k⟩ : ExpEntry) ∈ MinQueue.due t.nanos s.exp := by
      rw [h0]
      exact MinQueue.mem_due_of_le hmem (Int.not_lt.mp hle)
    have hk : lookup (sweep s t) k = (lookup s k).filter _ := hmap (shardIndex c k) k
    rw [lookup_sweep hl, if_pos hdue, hl] at hk
    simp [Option.filter, h0] at hk
  · intro hzero
    refine ⟨fun i k => ?_, fun d hd => ?_⟩
    · by_cases hi : shardIndex c k = i
      · subst hi
        change lookup (sweep s t) k = (lookup s k).filter _
        cases hl : lookup s k with
        | none => rw [lookup_sweep_none hl]; rfl
        | some e =>
          rw [lookup_sweep hl]
          by_cases h0 : e.expireAt = 0
          · rw [if_neg]
            · simp [Option.filter, h0]
            · intro hdue
              have hlt := hzero k e hl h0 (h0 ▸ (MinQueue.mem_due_or_rest _ _ _).mpr (.inl hdue))
              have hle : e.expireAt ≤ t.nanos := MinQueue.rank_le_of_mem_due (a := (⟨e.expireAt, k⟩ : ExpEntry)) hdue
              omega
          · by_cases hle : e.expireAt ≤ t.nanos
            · rw [if_pos (MinQueue.mem_due_of_le (ht k e hl h0) hle)]
              simp [Option.filter, h0, hle]
            · rw [if_neg fun hdue => hle (MinQueue.rank_le_of_mem_due (a := (⟨e.expireAt, k⟩ : ExpEntry)) hdue)]
              simp [Option.filter, Int.not_le.mp hle]
      · rw [shard_lookup_of_ne (placed_sweep hp t) hi, shard_lookup_of_ne hp hi]
        rfl
    · rw [sweep_exp] at hd
      exact MinQueue.lt_of_mem_rest hd

/-- In every state that a run reaches, a sweep is exact if and only if no
entry without a deadline has the element 0 in the heap, or 0 is still to come. -/
theorem sweep_exact_iff (steps : List (Step × Readings)) (t : Instant) :
    ExactSweep (run (new c) steps) t ↔
      ∀ k e, lookup (run (new c) steps) k = some e → e.expireAt = 0 → ⟨0, k⟩ ∈ (run (new c) steps).exp →
        t.nanos < 0 :=
  exactSweep_iff (placed_run placed_new steps) (tracked_run tracked_new steps) t

def undated : List (Step × Readings) :=
  [(.call (.set (ascii "k") (ascii "v") 0 .always), frozen (instant (-5))),
    (.call (.expire (ascii "k") 5), frozen (instant (-5)))]

theorem lookup_undated : lookup (run (new twoShards) undated) (ascii "k") = some ⟨ascii "v", 0⟩ := by decide +kernel

/-- A sweep after the epoch deletes a key without a deadline. -/
theorem sweep_undated_inexact :
    lookup (run (new twoShards) undated) (ascii "k") = some ⟨ascii "v", 0⟩ ∧
      lookup (sweep (run (new twoShards) undated) (instant 0)) (ascii "k") = none ∧
      ¬ ExactSweep (run (new twoShards) undated) (instant 0) := by
  have hgone : lookup (sweep (run (new twoShards) undated) (instant 0)) (ascii "k") = none := by decide +kernel
  refine ⟨lookup_undated, hgone, fun hexact => ?_⟩
  have hkept : lookup (sweep (run (new twoShards) undated) (instant 0)) (ascii "k") =
      (lookup (run (new twoShards) undated) (ascii "k")).filter _ := hexact.1 _ _
  rw [hgone, lookup_undated] at hkept
  simp [Option.filter] at hkept

end MemX.StoreSweep
