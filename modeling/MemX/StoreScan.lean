import MemX.CommandProgram
import MemX.StoreView

namespace MemX.StoreScan

open MachineInt DecimalText Clock StoreState StoreRules StoreOps StoreCalls StoreLookup StoreInvariants

variable {c : Config}

/-- `Scan` with all its arguments: the count is normalised and not used. -/
def scanCount (s : Store c) (now : Readings) (cursor count : Int) (pattern : Bytes) : Nat × List Bytes :=
  let _count := if count ≤ 0 then 10 else count
  scan s now cursor pattern

theorem run_scan (s : Store c) (now : Readings) (cursor count : Int) (pattern : Bytes) :
    CommandProgram.Handler.run s now (CommandProgram.Handler.scan cursor pattern) =
      (scanCount s (later 2 now) cursor count pattern, s, []) := by
  have hidx : ((if cursor ≤ 0 ∨ cursor > c.shardCount then 1 else cursor) - 1).toNat = scanIndex c cursor := by
    unfold scanIndex
    split <;> simp
  have hrun : CommandProgram.Handler.run s now (CommandProgram.Handler.scan cursor pattern) =
      ((if ((if cursor ≤ 0 ∨ cursor > c.shardCount then 1 else cursor) - 1).toNat + 1 ≥ c.shardCount then 0
          else ((if cursor ≤ 0 ∨ cursor > c.shardCount then 1 else cursor) - 1).toNat + 2,
        if h : ((if cursor ≤ 0 ∨ cursor > c.shardCount then 1 else cursor) - 1).toNat < c.shardCount then
          shardKeys s (later 2 now) pattern ⟨_, h⟩ else []), s, []) := rfl
  rw [hrun]
  simp only [hidx, dif_pos (scanIndex c cursor).isLt]
  rfl

/-- What surrounds the calls of one iteration, call by call: the count and the
readings of the call, and the operations performed after it. -/
structure Rounds where
  count : Nat → Int
  now : Nat → Readings
  after : Nat → List (Step × Readings)

def storeAt (rs : Rounds) (s : Store c) : Nat → Store c
  | 0 => s
  | n + 1 => run (storeAt rs s n) (rs.after n)

/-- A client's loop: call `Scan` until it returns 0, and collect the batches.
`n` calls have been made and at most `fuel` more are. -/
def scanLoop (rs : Rounds) (s : Store c) (pattern : Bytes) : Nat → Nat → Int → Option (List (List Bytes))
  | 0, _, _ => none
  | fuel + 1, n, cursor =>
    let r := scanCount (storeAt rs s n) (rs.now n) cursor (rs.count n) pattern
    if r.1 = 0 then some [r.2] else (scanLoop rs s pattern fuel (n + 1) r.1).map (r.2 :: ·)

def Matches (pattern k : Bytes) : Prop := (pattern = [] || StoreGlob.globMatch pattern k) = true

instance (pattern k : Bytes) : Decidable (Matches pattern k) := inferInstanceAs (Decidable (_ = true))

theorem scanIndex_cursor {n : Nat} (hn : n < c.shardCount) {cursor : Int}
    (hc : cursor = n + 1 ∨ n = 0 ∧ cursor = 0) : scanIndex c cursor = ⟨n, hn⟩ := by
  unfold scanIndex
  rcases hc with rfl | ⟨rfl, rfl⟩
  · rw [dif_neg (by omega)]
    simp
  · rw [dif_pos (Or.inl le_rfl)]

def batchesFrom (rs : Rounds) (s : Store c) (pattern : Bytes) (n : Nat) : List (List Bytes) :=
  ((List.finRange c.shardCount).drop n).map fun i : Fin c.shardCount => shardKeys (storeAt rs s i) (rs.now i) pattern i

theorem batchesFrom_cons (rs : Rounds) (s : Store c) (pattern : Bytes) {n : Nat} (hn : n < c.shardCount) :
    batchesFrom rs s pattern n =
      shardKeys (storeAt rs s n) (rs.now n) pattern ⟨n, hn⟩ :: batchesFrom rs s pattern (n + 1) := by
  have hd : (List.finRange c.shardCount).drop n = ⟨n, hn⟩ :: (List.finRange c.shardCount).drop (n + 1) := by
    rw [List.drop_eq_getElem_cons (by simpa using hn)]
    simp
  rw [batchesFrom, hd, List.map_cons, batchesFrom]

theorem scanLoop_eq (rs : Rounds) (s : Store c) (pattern : Bytes) (fuel n : Nat) (hn : n < c.shardCount) {cursor : Int}
    (hc : cursor = n + 1 ∨ n = 0 ∧ cursor = 0) :
    scanLoop rs s pattern fuel n cursor =
      if c.shardCount ≤ n + fuel then some (batchesFrom rs s pattern n) else none := by
  induction fuel generalizing n cursor with
  | zero => rw [scanLoop, if_neg (by omega)]
  | succ fuel ih =>
    have hi := scanIndex_cursor hn hc
    rw [scanLoop, batchesFrom_cons rs s pattern hn]
    simp only [scanCount, scan, hi, scanNext]
    by_cases hlast : n + 1 ≥ c.shardCount
    · have hnil : batchesFrom rs s pattern (n + 1) = [] := by
        rw [batchesFrom, List.drop_eq_nil_of_le (by simpa using hlast), List.map_nil]
      simp only [hlast, ↓reduceIte, hnil]
      rw [if_pos (by omega)]
    · have hnext : ((n + 2 : Nat) : Int) = ((n + 1 : Nat) : Int) + 1 := by omega
      simp only [hlast, ↓reduceIte, Nat.add_eq_zero_iff, OfNat.ofNat_ne_zero, and_false,
        ih (n + 1) (by omega) (Or.inl hnext)]
      by_cases hf : c.shardCount ≤ n + 1 + fuel
      · rw [if_pos hf, if_pos (by omega), Option.map_some]
      · rw [if_neg hf, if_neg (by omega), Option.map_none]

theorem placed_storeAt (rs : Rounds) {s : Store c} (hs : Placed s) (n : Nat) : Placed (storeAt rs s n) := by
  induction n with
  | zero => exact hs
  | succ n ih => exact placed_run ih (rs.after n)

theorem liveKeys_mem {pattern k : Bytes} {now : Readings} {es : List (Sigma fun _ : Bytes => Entry)}
    (h : k ∈ liveKeys pattern now es) :
    Matches pattern k ∧ ∃ e j, ⟨k, e⟩ ∈ es ∧ expired (now j) e = false := by
  induction es generalizing now with
  | nil => cases h
  | cons x es ih =>
    have hrest : k ∈ liveKeys pattern (later 1 now) es →
        Matches pattern k ∧ ∃ e j, ⟨k, e⟩ ∈ x :: es ∧ expired (now j) e = false := by
      intro hk
      obtain ⟨hm, e, j, he, hx⟩ := ih hk
      exact ⟨hm, e, j + 1, List.mem_cons_of_mem x he, hx⟩
    unfold liveKeys at h
    split at h
    · exact hrest h
    · rename_i hx
      split at h
      · rename_i hm
        rcases List.mem_cons.mp h with rfl | hk
        · exact ⟨hm, x.2, 0, List.mem_cons_self, by simpa using hx⟩
        · exact hrest hk
      · exact hrest h

theorem mem_liveKeys {pattern k : Bytes} {now : Readings} {es : List (Sigma fun _ : Bytes => Entry)} {e : Entry}
    (hm : Matches pattern k) (he : ⟨k, e⟩ ∈ es) (hl : ∀ j, expired (now j) e = false) :
    k ∈ liveKeys pattern now es := by
  unfold Matches at hm
  induction es generalizing now with
  | nil => cases he
  | cons x es ih =>
    unfold liveKeys
    rcases List.mem_cons.mp he with rfl | he
    · rw [if_neg (by simp [hl 0]), if_pos hm]
      exact List.mem_cons_self
    · have hk := ih he fun j => hl (j + 1)
      split
      · exact hk
      · split
        · exact List.mem_cons_of_mem _ hk
        · exact hk

theorem liveKeys_sublist (pattern : Bytes) (now : Readings) (es : List (Sigma fun _ : Bytes => Entry)) :
    (liveKeys pattern now es).Sublist es.keys := by
  induction es generalizing now with
  | nil => exact List.Sublist.refl _
  | cons x es ih =>
    unfold liveKeys
    rw [List.keys_cons]
    split
    · exact (ih _).cons _
    · split
      · exact (ih _).cons_cons _
      · exact (ih _).cons _

section Shards

variable {s : Store c} (hs : Placed s) {pattern k : Bytes} {now : Readings}

theorem mem_entries_iff (i : Fin c.shardCount) (e : Entry) :
    (⟨k, e⟩ : Sigma fun _ : Bytes => Entry) ∈ (s.shards i).entries ↔ (s.shards i).lookup k = some e :=
  (List.mem_dlookup_iff (s.shards i).nodupKeys).symm

include hs

theorem shardKeys_mem {i : Fin c.shardCount} (h : k ∈ shardKeys s now pattern i) :
    shardIndex c k = i ∧ Matches pattern k ∧ ∃ j, (view s (now j) k).isSome := by
  obtain ⟨hm, e, j, he, hx⟩ := liveKeys_mem h
  have hl := (mem_entries_iff i e).mp he
  have hi : shardIndex c k = i := hs i k (by simp [hl])
  subst hi
  exact ⟨rfl, hm, j, by simp [view_of_live hl hx]⟩

omit hs in
theorem mem_shardKeys_of_live (hm : Matches pattern k) (hl : ∀ j, (view s (now j) k).isSome) :
    k ∈ shardKeys s now pattern (shardIndex c k) := by
  obtain ⟨e, he⟩ := Option.isSome_iff_exists.mp (hl 0)
  have hlook : lookup s k = some e := (Option.filter_eq_some_iff.mp he).1
  refine mem_liveKeys hm ((mem_entries_iff _ e).mpr hlook) fun j => ?_
  cases hx : expired (now j) e with
  | false => rfl
  | true =>
    have hnone := hl j
    rw [view_of_expired hlook hx] at hnone
    cases hnone

end Shards

theorem mem_batches {rs : Rounds} {s : Store c} {pattern k : Bytes} :
    k ∈ (batchesFrom rs s pattern 0).flatten ↔
      ∃ i : Fin c.shardCount, k ∈ shardKeys (storeAt rs s i) (rs.now i) pattern i := by
  simp [batchesFrom, List.mem_flatten]

theorem batches_nodup (rs : Rounds) {s : Store c} (hs : Placed s) (pattern : Bytes) :
    (batchesFrom rs s pattern 0).flatten.Nodup := by
  rw [batchesFrom, List.drop_zero, ← List.flatMap_def, List.nodup_flatMap]
  constructor
  · intro i _
    exact List.Nodup.sublist (liveKeys_sublist _ _ _) ((storeAt rs s i).shards i).nodupKeys
  · refine (List.nodup_finRange _).imp fun {i j} hij k hi hj => hij ?_
    exact (shardKeys_mem (placed_storeAt rs hs i) hi).1.symm.trans (shardKeys_mem (placed_storeAt rs hs j) hj).1

/-- A key is live at every reading of every call of the iteration. -/
def LiveThroughout (rs : Rounds) (s : Store c) (k : Bytes) : Prop :=
  ∀ i < c.shardCount, ∀ j, (view (storeAt rs s i) (rs.now i j) k).isSome

/-- No key appears, disappears or expires from the first call to the last. -/
def Unchanged (rs : Rounds) (s : Store c) : Prop :=
  ∀ i < c.shardCount, ∀ j k, (view (storeAt rs s i) (rs.now i j) k).isSome ↔ (view s (rs.now 0 0) k).isSome

/-- An iteration from cursor 0 takes as many calls as there are shards. It
returns every matching key that is live throughout, whatever is done between
the calls; and when nothing changes, the live matching keys once each and
nothing else. -/
theorem scan_complete (c : Config) (history : List (Step × Readings)) (rs : Rounds) (pattern : Bytes) :
    let s := run (new c) history
    ∃ batches : List (List Bytes),
      (∀ fuel, scanLoop rs s pattern fuel 0 0 = if c.shardCount ≤ fuel then some batches else none) ∧
      batches.length = c.shardCount ∧
      (∀ k, Matches pattern k → LiveThroughout rs s k → k ∈ batches.flatten) ∧
      (Unchanged rs s → batches.flatten.Nodup ∧
        ∀ k, k ∈ batches.flatten ↔ Matches pattern k ∧ (view s (rs.now 0 0) k).isSome) := by
  intro s
  have hs : Placed s := placed_run placed_new history
  have hall : ∀ k, Matches pattern k → LiveThroughout rs s k → k ∈ (batchesFrom rs s pattern 0).flatten :=
    fun k hm hl => mem_batches.mpr ⟨shardIndex c k, mem_shardKeys_of_live hm (hl _ (shardIndex c k).isLt)⟩
  refine ⟨batchesFrom rs s pattern 0, fun fuel => ?_, by simp [batchesFrom], hall, fun hu => ?_⟩
  · rw [scanLoop_eq rs s pattern fuel 0 c.pos (Or.inr ⟨rfl, rfl⟩), Nat.zero_add]
  · refine ⟨batches_nodup rs hs pattern, fun k => ⟨fun hk => ?_, fun ⟨hm, hl⟩ => ?_⟩⟩
    · obtain ⟨i, hi⟩ := mem_batches.mp hk
      obtain ⟨_, hm, j, hj⟩ := shardKeys_mem (placed_storeAt rs hs i) hi
      exact ⟨hm, (hu i i.isLt j k).mp hj⟩
    · exact hall k hm fun i hi j => (hu i hi j k).mpr hl

def still (t : Instant) : Rounds := ⟨fun _ => 10, fun _ => frozen t, fun _ => []⟩

theorem storeAt_still (s : Store c) (t : Instant) (n : Nat) : storeAt (still t) s n = s := by
  induction n with
  | zero => rfl
  | succ n ih => exact ih

theorem unchanged_still (s : Store c) (t : Instant) : Unchanged (still t) s := by
  intro i _ j k
  rw [storeAt_still]
  rfl

def twoKeys : List (Step × Readings) :=
  [(.call (.set (ascii "a") (ascii "1") 0 .always), frozen (instant 0)),
    (.call (.set (ascii "b") (ascii "2") 0 .always), frozen (instant 0))]

theorem twoKeys_scanned :
    ∃ batches, scanLoop (still (instant 1)) (run (new twoShards) twoKeys) [] 2 0 0 = some batches ∧
      batches.flatten.Nodup ∧ ascii "a" ∈ batches.flatten := by
  obtain ⟨batches, hloop, _, _, hsame⟩ := scan_complete twoShards twoKeys (still (instant 1)) []
  obtain ⟨hnodup, hmem⟩ := hsame (unchanged_still _ _)
  exact ⟨batches, (hloop 2).trans (if_pos (by decide)), hnodup, (hmem _).mpr ⟨by decide, by decide +kernel⟩⟩

end MemX.StoreScan
