import MemX.PersistRestart
import MemX.RespInline

namespace MemX.PersistLimits

open MachineInt DecimalText Clock StoreState StoreRules StoreOps StoreLookup
open CommandProgram CommandHandlers CommandRegistry CommandWrites CommandEffect CommandReplay
open RespRead RespWrite RespConsume RespRoundTrip RespInline PersistLog PersistRestart

variable {c : Config} {h : Host} {lim : Limits}

/-- Every write command of the history that takes effect passes on no more
and no longer arguments than `Load` reads. -/
def LoadableRun (h : Host) (s : Store c) : List (Readings × List Bytes) → Prop
  | [] => True
  | (now, tokens) :: rest =>
    (isWrite h tokens = true → takesEffect c.maxValLen now (lookup s) (mutation h tokens) = true →
      Fits (parts (mutation h tokens))) ∧
      LoadableRun h (Handler.run s now (execute h tokens)).2.1 rest

theorem run_log_within_iff (s : Store c) (now : Readings) (tokens : List Bytes) :
    (∀ cmd ∈ (Handler.run s now (execute h tokens)).2.2, Within defaultLimits cmd) ↔
      (isWrite h tokens = true → takesEffect c.maxValLen now (lookup s) (mutation h tokens) = true →
        Fits (parts (mutation h tokens))) := by
  cases hw : isWrite h tokens with
  | true =>
    rw [(run_write h hw s now).2, record_within hw]
    simp
  | false =>
    have hnil : (Handler.run s now (execute h tokens)).2.2 = [] := readOnly_log (execute_read hw) s now
    simp [hnil]

theorem log_within_iff (s : Store c) (hist : List (Readings × List Bytes)) :
    (∀ cmd ∈ (executeAll h s hist).2, Within defaultLimits cmd) ↔ LoadableRun h s hist := by
  induction hist generalizing s with
  | nil => simp [executeAll, LoadableRun]
  | cons x hist ih =>
    obtain ⟨now, tokens⟩ := x
    simp only [executeAll, LoadableRun, List.forall_mem_append, ih, run_log_within_iff]

/-- `Load` returns no error and executes just the logged commands, in order,
if and only if what each effective write command passed on is within the
limits `Load` reads with, whatever the limits the server read them with. -/
theorem load_reads_log_iff (h : Host) (s : Store c) (hist : List (Readings × List Bytes)) :
    readLog (encodeLog (executeAll h s hist).2) = ((executeAll h s hist).2, none) ↔ LoadableRun h s hist := by
  rw [readLog_encodeLog_iff, log_within_iff]

/-- A server whose limits are not above those of `Load`, with its inline
commands no longer than a bulk there, only accepts commands `Load` can read. -/
theorem readCommand_within {size : Nat} (hb : lim.maxBulkLen ≤ defaultLimits.maxBulkLen)
    (ha : lim.maxArgs ≤ defaultLimits.maxArgs) (hi : lim.maxInlineLen ≤ defaultLimits.maxBulkLen) {s : Bytes}
    {args : List Bytes} {rest : Bytes} (h : readCommand size lim s = .ok (args, rest)) :
    Within defaultLimits args := by
  unfold readCommand at h
  split at h
  · cases h
  · split at h
    · obtain ⟨hne, hlen, hall⟩ := readMultibulk_within h
      exact ⟨hne, hlen.trans ha, fun a hm => (hall a hm).trans hb⟩
    · obtain ⟨hne, hlen, htotal⟩ := readInline_within h
      refine ⟨hne, hlen.trans ha, fun a hm => ?_⟩
      have hle := List.le_sum_of_mem (List.mem_map_of_mem (f := List.length) hm)
      omega

theorem loadableRun_of_within (s : Store c) {hist : List (Readings × List Bytes)}
    (hl : ∀ x ∈ hist, Within defaultLimits x.2) : LoadableRun h s hist := by
  induction hist generalizing s with
  | nil => trivial
  | cons x hist ih =>
    obtain ⟨hx, hl⟩ := List.forall_mem_cons.mp hl
    exact ⟨fun hw _ => mutation_fits hw hx, ih _ hl⟩

theorem load_reads_log_of_limits {size : Nat} (hb : lim.maxBulkLen ≤ defaultLimits.maxBulkLen)
    (ha : lim.maxArgs ≤ defaultLimits.maxArgs) (hi : lim.maxInlineLen ≤ defaultLimits.maxBulkLen) (h : Host)
    (s : Store c) {hist : List (Readings × List Bytes)}
    (hacc : ∀ x ∈ hist, ∃ input rest, readCommand size lim input = .ok (x.2, rest)) :
    readLog (encodeLog (executeAll h s hist).2) = ((executeAll h s hist).2, none) := by
  refine (load_reads_log_iff h s hist).mpr (loadableRun_of_within s fun x hx => ?_)
  obtain ⟨input, rest, hread⟩ := hacc x hx
  exact readCommand_within hb ha hi hread

def connBuffer : Nat := 16384

/-- A server configured to read bulks one byte longer than `Load` does. -/
def wideLimits : Limits := ⟨67108865, 1048576, 65536, 64⟩

def longKey : Bytes := List.replicate 67108865 97

def longIncr : List Bytes := [ascii "INCR", longKey]

theorem longKey_length : longKey.length = 67108865 := List.length_replicate

theorem longIncr_within : Within wideLimits longIncr := by
  simp [Within, longIncr, longKey_length, wideLimits, ascii]

theorem longIncr_log : (executeAll host (new twoShards) [(frozen (instant 0), longIncr)]).2 = [longIncr] := by
  obtain ⟨hw, hm⟩ := logs_incr host longKey
  have hrec := (run_write host hw (new twoShards) (frozen (instant 0))).2
  rw [hm] at hrec
  exact (List.append_nil _).trans hrec

theorem longIncr_unreadable :
    readCommand connBuffer wideLimits (encodeCommand longIncr) = .ok (longIncr, []) ∧
      (executeAll host (new twoShards) [(frozen (instant 0), longIncr)]).2 = [longIncr] ∧
        readLog (encodeLog [longIncr]) ≠ ([longIncr], none) := by
  refine ⟨?_, longIncr_log, fun hload => ?_⟩
  · have h := readCommand_encode (by decide : 0 < connBuffer) (by decide) (by decide) (by decide) longIncr_within []
    rwa [List.append_nil] at h
  · obtain ⟨_, _, hall⟩ := (readLog_encodeLog_iff [longIncr]).mp hload longIncr (by simp)
    have hkey := hall longKey (by simp [longIncr])
    rw [longKey_length] at hkey
    exact absurd hkey (by decide)

end MemX.PersistLimits
