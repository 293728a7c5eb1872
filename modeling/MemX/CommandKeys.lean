import MemX.CommandEffect
import MemX.StoreScan

namespace MemX.CommandKeys

open MachineInt DecimalText Clock StoreState StoreRules StoreOps StoreLookup StoreInvariants StoreScan
open TextCase RespWrite
open CommandProgram CommandHandlers CommandRegistry CommandWrites CommandEffect

variable {c : Config}

def scanBatch : Reply → Option (Bytes × List Reply)
  | .array [.bulk cursor, .array batch] => some (cursor, batch)
  | _ => none

/-- A client's loop of `SCAN cursor MATCH pattern` until the cursor is 0, over
a store that nobody else uses: all batches together. -/
def scanAll (h : Host) (s : Store c) (t : Instant) (pattern : Bytes) : Nat → Bytes → Option (List Reply)
  | 0, _ => none
  | fuel + 1, cursor =>
    (scanBatch (Handler.run s (frozen t) (execute h [ascii "SCAN", cursor, ascii "MATCH", pattern])).1).bind fun r =>
      if r.1 = ascii "0" then some r.2 else (scanAll h s t pattern fuel r.1).map (r.2 ++ ·)

theorem dispatch_scan (h : Host) (cursor pattern : Bytes) :
    dispatch h [ascii "SCAN", cursor, ascii "MATCH", pattern] =
      .run ⟨"scan", 1, none, false, hScan h⟩ [cursor, ascii "MATCH", pattern] := by
  have hlow : (ascii "SCAN").map lowerByte = ascii "scan" := by decide
  have hne : ascii "scan" ≠ [] := by decide
  exact dispatch_of_name (by decide) hlow hne (by simp [commands]) rfl

theorem dispatch_keys (h : Host) (pattern : Bytes) :
    dispatch h [ascii "KEYS", pattern] = .run ⟨"keys", 1, some 1, false, hKeys⟩ [pattern] := by
  have hlow : (ascii "KEYS").map lowerByte = ascii "keys" := by decide
  have hne : ascii "keys" ≠ [] := by decide
  exact dispatch_of_name (by decide) hlow hne (by simp [commands]) rfl

theorem toUpper_match (t : CaseTable) : toUpper t (ascii "MATCH") = ascii "MATCH" :=
  toUpper_of_upper t (by decide +kernel)

theorem run_scanMatch (h : Host) (s : Store c) (t : Instant) {cursor : Bytes} {n : Int} (hn : parseInt cursor = some n)
    (h0 : 0 ≤ n) (pattern : Bytes) :
    (Handler.run s (frozen t) (execute h [ascii "SCAN", cursor, ascii "MATCH", pattern])).1 =
      .array [.bulk (formatNat (scan s (frozen t) n pattern).1),
        .array ((scan s (frozen t) n pattern).2.map .bulk)] := by
  have hopts : scanOptions h.cases [] [ascii "MATCH", pattern] = .ok pattern := by
    simp [scanOptions, toUpper_match]
  have hscan : hScan h [cursor, ascii "MATCH", pattern] = (Handler.scan n pattern >>= fun r =>
      ok (.array [.bulk (formatNat r.1), .array (r.2.map .bulk)])) := by
    simp only [hScan, arg, List.getD_cons_zero, hn, if_neg (Int.not_lt.mpr h0), List.drop_one, List.tail_cons, hopts]
  obtain ⟨now', hb⟩ := run_bind s (frozen t) (Handler.scan n pattern) fun r =>
    ok (.array [.bulk (formatNat r.1), .array (r.2.map .bulk)])
  rw [run_execute (dispatch_scan h cursor pattern)]
  change reply (Handler.run s (frozen t) (hScan h [cursor, ascii "MATCH", pattern])).1 = _
  rw [hscan, hb, run_scan s (frozen t) n 10 pattern]
  rfl

theorem batchesFrom_still (s : Store c) (t : Instant) (pattern : Bytes) {n : Nat} (hn : n < c.shardCount) :
    batchesFrom (still t) s pattern n =
      shardKeys s (frozen t) pattern ⟨n, hn⟩ :: batchesFrom (still t) s pattern (n + 1) := by
  rw [batchesFrom_cons (still t) s pattern hn, storeAt_still]
  rfl

theorem batchesFrom_end (rs : Rounds) (s : Store c) (pattern : Bytes) {n : Nat} (hn : c.shardCount ≤ n) :
    batchesFrom rs s pattern n = [] := by
  rw [batchesFrom, List.drop_eq_nil_of_le (by simpa using hn), List.map_nil]

theorem formatNat_eq_zero {n : Nat} : formatNat n = ascii "0" ↔ n = 0 := by
  constructor
  · intro hn
    have hz : formatNat n = formatNat 0 := hn
    have hv := digitsValue_formatNat n
    rw [hz, digitsValue_formatNat] at hv
    exact (Option.some.inj hv).symm
  · rintro rfl
    rfl

theorem scanAll_eq (h : Host) (s : Store c) (hc : c.shardCount < 2 ^ 63) (t : Instant) (pattern : Bytes) (fuel n : Nat)
    (hn : n < c.shardCount) {cursor : Bytes} {m : Int} (hm : parseInt cursor = some m)
    (hcur : m = n + 1 ∨ n = 0 ∧ m = 0) :
    scanAll h s t pattern fuel cursor =
      if c.shardCount ≤ n + fuel then some ((batchesFrom (still t) s pattern n).flatten.map .bulk) else none := by
  induction fuel generalizing n cursor m with
  | zero => rw [scanAll, if_neg (by omega)]
  | succ fuel ih =>
    have hi := scanIndex_cursor hn hcur
    rw [scanAll, run_scanMatch h s t hm (by omega), scanBatch, Option.bind_some, batchesFrom_still s t pattern hn]
    simp only [scan, hi, scanNext, formatNat_eq_zero]
    by_cases hlast : n + 1 ≥ c.shardCount
    · rw [if_pos hlast, if_pos rfl, if_pos (by omega), batchesFrom_end _ _ _ hlast]
      simp
    · have hnext : parseInt (formatNat (n + 2)) = some ((n + 2 : Nat) : Int) := parseInt_formatNat (by omega)
      rw [if_neg hlast, if_neg (by omega), ih (n + 1) (by omega) hnext (.inl (by omega))]
      by_cases hf : c.shardCount ≤ n + 1 + fuel
      · rw [if_pos hf, if_pos (by omega)]
        simp
      · rw [if_neg hf, if_neg (by omega), Option.map_none]

theorem run_keysFrom (s : Store c) (t : Instant) (pattern : Bytes) (m n : Nat) (hn : n + m = c.shardCount) :
    Handler.run s (frozen t) (Handler.keysFrom pattern n m) =
      ((batchesFrom (still t) s pattern n).flatten, s, []) := by
  induction m generalizing n with
  | zero =>
    rw [batchesFrom_end _ _ _ (by omega)]
    rfl
  | succ m ih =>
    have hlt : n < c.shardCount := by omega
    have hexec : Section.exec s (frozen t) (.shardKeys n pattern) = (shardKeys s (frozen t) pattern ⟨n, hlt⟩, s) :=
      Prod.ext (dif_pos hlt) rfl
    obtain ⟨now', hb⟩ := run_bind s (frozen t) (Handler.keysFrom pattern (n + 1) m) fun rest =>
      .pure (shardKeys s (frozen t) pattern ⟨n, hlt⟩ ++ rest)
    change Handler.run s (frozen t) (.call (.shardKeys n pattern) _) = _
    rw [Handler.run, hexec, later_frozen, batchesFrom_still s t pattern hlt, List.flatten_cons]
    refine hb.trans ?_
    rw [ih (n + 1) (by omega)]
    rfl

theorem run_keys (h : Host) (s : Store c) (t : Instant) (pattern : Bytes) :
    (Handler.run s (frozen t) (execute h [ascii "KEYS", pattern])).1 =
      .array ((batchesFrom (still t) s pattern 0).flatten.map .bulk) := by
  obtain ⟨now', hb⟩ := run_bind s (frozen t) (Handler.keysFrom pattern 0 c.shardCount) fun ks =>
    ok (.array (ks.map .bulk))
  rw [run_execute (dispatch_keys h pattern)]
  change reply (Handler.run s (frozen t) (.call .shardCount _)).1 = _
  rw [Handler.run, later_frozen]
  refine (congrArg (fun r => reply r.1) hb).trans ?_
  rw [run_keysFrom s t pattern c.shardCount 0 (Nat.zero_add _)]
  rfl

theorem globMatch_nil (k : Bytes) : StoreGlob.globMatch [] k = true ↔ k = [] := by
  cases k with
  | nil => simp [StoreGlob.globMatch, StoreGlob.globLoop, StoreGlob.trailing]
  | cons b k =>
    have hf : ∃ f, ((b :: k).length + 1) * (([] : Bytes).length + (b :: k).length + 2) = f + 1 :=
      ⟨_, (Nat.succ_pred_eq_of_pos (Nat.mul_pos (by omega) (by omega))).symm⟩
    obtain ⟨f, hf⟩ := hf
    rw [StoreGlob.globMatch, hf]
    simp [StoreGlob.globLoop, StoreGlob.tryMatch]

/-- The reply lists the live keys that the pattern matches, once each, and a
full iteration of `SCAN` with the pattern lists the same keys. -/
def KeysExact (h : Host) (s : Store c) (t : Instant) (pattern : Bytes) (r : Reply) : Prop :=
  ∃ ks : List Bytes, r = .array (ks.map .bulk) ∧ ks.Nodup ∧
    (∀ k, k ∈ ks ↔ StoreGlob.globMatch pattern k = true ∧ (view s t k).isSome) ∧
    ∃ scanned : List Bytes,
      (∀ fuel, scanAll h s t pattern fuel (ascii "0") =
        if c.shardCount ≤ fuel then some (scanned.map .bulk) else none) ∧
      ∀ k, k ∈ scanned ↔ k ∈ ks

theorem mem_batches_still {s : Store c} (hs : Placed s) (t : Instant) (pattern k : Bytes) :
    k ∈ (batchesFrom (still t) s pattern 0).flatten ↔ Matches pattern k ∧ (view s t k).isSome := by
  rw [mem_batches]
  simp only [storeAt_still]
  constructor
  · rintro ⟨i, hi⟩
    obtain ⟨_, hm, _, hj⟩ := shardKeys_mem hs hi
    exact ⟨hm, hj⟩
  · rintro ⟨hm, hl⟩
    exact ⟨shardIndex c k, mem_shardKeys_of_live hm fun _ => hl⟩

theorem bulks_injective : Function.Injective (List.map Reply.bulk) :=
  List.map_injective_iff.mpr fun _ _ => Reply.bulk.inj

/-- `KEYS` is exact if and only if its pattern is not empty, or no key but the
empty one is live. -/
theorem keys_exact_iff (h : Host) {s : Store c} (hs : Placed s) (hc : c.shardCount < 2 ^ 63) (t : Instant)
    (pattern : Bytes) :
    KeysExact h s t pattern (Handler.run s (frozen t) (execute h [ascii "KEYS", pattern])).1 ↔
      (pattern = [] → ∀ k, (view s t k).isSome → k = []) := by
  rw [run_keys]
  constructor
  · rintro ⟨ks, hr, _, hks, _⟩ rfl k hk
    have heq := bulks_injective (Reply.array.inj hr)
    have hmem := (mem_batches_still hs t [] k).mpr ⟨rfl, hk⟩
    rw [heq] at hmem
    exact (globMatch_nil k).mp ((hks k).mp hmem).1
  · intro hcond
    refine ⟨_, rfl, batches_nodup _ hs pattern, fun k => ?_, _, fun fuel => ?_, fun k => Iff.rfl⟩
    · rw [mem_batches_still hs]
      refine and_congr_left fun hk => ?_
      by_cases hp : pattern = []
      · subst hp
        exact iff_of_true rfl ((globMatch_nil k).mpr (hcond rfl k hk))
      · simp [Matches, hp]
    · have hzero : parseInt (ascii "0") = some 0 := rfl
      rw [scanAll_eq h s hc t pattern fuel 0 c.pos hzero (.inr ⟨rfl, rfl⟩), Nat.zero_add]

def oneKey : Store twoShards :=
  StoreCalls.run (new twoShards) [(.call (.set (ascii "k") (ascii "v") 0 .always), frozen (instant 0))]

theorem placed_oneKey : Placed oneKey := placed_run placed_new _

theorem keys_star_exact : KeysExact host oneKey (instant 0) (ascii "*")
    (Handler.run oneKey (frozen (instant 0)) (execute host [ascii "KEYS", ascii "*"])).1 :=
  (keys_exact_iff host placed_oneKey (by decide) (instant 0) (ascii "*")).mpr (by rintro ⟨⟩)

/-- `KEYS` with an empty pattern lists a key that the pattern does not match. -/
theorem keys_empty_inexact :
    (Handler.run oneKey (frozen (instant 0)) (execute host [ascii "KEYS", []])).1 = .array [.bulk (ascii "k")] ∧
      StoreGlob.globMatch [] (ascii "k") = false ∧
      ¬ KeysExact host oneKey (instant 0) []
        (Handler.run oneKey (frozen (instant 0)) (execute host [ascii "KEYS", []])).1 := by
  have hr : (Handler.run oneKey (frozen (instant 0)) (execute host [ascii "KEYS", []])).1 =
      .array ([ascii "k"].map .bulk) := rfl
  refine ⟨hr, by decide +kernel, ?_⟩
  rw [hr]
  rintro ⟨ks, heq, _, hks, _⟩
  rw [← bulks_injective (Reply.array.inj heq)] at hks
  have hmatch := ((hks (ascii "k")).mp List.mem_cons_self).1
  rw [globMatch_nil] at hmatch
  cases hmatch

end MemX.CommandKeys
