import MemX.StoreCalls
import MemX.StoreView

namespace MemX.StoreDeadline

open MachineInt DecimalText Clock StoreState StoreRules StoreOps StoreLookup StoreView StoreCalls

variable {c : Config} {α : Type}

def Lasting (now : Readings) (e : Entry) : Prop := ∀ i, expired (now i) e = false

/-- The call overwrites `k`, sets or removes its timeout, or deletes it, when
it finds `k` live. A batch never overwrites a live key. -/
def Retimes (k : Bytes) : Call → Prop
  | .set key _ _ mode => key = k ∧ mode ≠ .nx
  | .getSet key _ => key = k
  | .expire key _ => key = k
  | .expireAt key _ => key = k
  | .expireAtMs key _ => key = k
  | .persist key => key = k
  | .del keys => k ∈ keys
  | .flush => True
  | _ => False

/-- What loses the deadline of a live entry without any such intention:
`IncrBy` on a number with a deadline, and a sweep after the epoch that finds
the deadline 0 in the heap for a key without one. -/
def Loses (s : Store c) (now : Readings) (k : Bytes) (e : Entry) : Step → Prop
  | .call (.incrBy key _) => key = k ∧ e.expireAt ≠ 0 ∧ (parseInt e.val).isSome
  | .call _ => False
  | .sweep => e.expireAt = 0 ∧ ⟨0, k⟩ ∈ s.exp ∧ 0 ≤ (now 0).nanos

theorem lookup_purgeDues_none {s : Store c} {k : Bytes} (hl : lookup s k = none) (due : List ExpEntry) :
    lookup (due.foldl purgeDue s) k = none := by
  induction due generalizing s with
  | nil => exact hl
  | cons d due ih =>
    refine ih ?_
    rw [lookup_purgeDue, hl]
    simp

section Live

variable {s : Store c} {now : Readings} {k : Bytes} {e : Entry} (hl : lookup s k = some e) (hlast : Lasting now e)

include hl hlast

theorem lookup_onKey_lasting (op : KeyOp α) (key : Bytes) :
    lookup (onKey op s now key).2 k = if k = key then Effect.entry e (op.present (now 1) e).2 else some e := by
  rw [onKey_lookup]
  split_ifs with hk
  · subst hk
    rw [view_of_live hl (hlast 0)]
    rfl
  · exact hl

theorem deadline_onKey {op : KeyOp α} {key : Bytes}
    (hop : key = k → (Effect.entry e (op.present (now 1) e).2).map Entry.expireAt = some e.expireAt) :
    (lookup (onKey op s now key).2 k).map Entry.expireAt = some e.expireAt := by
  rw [lookup_onKey_lasting hl hlast]
  split_ifs with hk
  · exact hop hk.symm
  · rfl

theorem lookup_delKeys_of_not_mem {keys : List Bytes} (hk : k ∉ keys) : lookup (delKeys s now keys).2 k = some e := by
  induction keys generalizing s now with
  | nil => exact hl
  | cons key keys ih =>
    have hne : k ≠ key := fun he => hk (he ▸ List.mem_cons_self)
    have hdel : lookup (onKey del s now key).2 k = some e := by rw [lookup_onKey_lasting hl hlast, if_neg hne]
    exact ih hdel (fun i => hlast _) (List.not_mem_of_not_mem_cons hk)

theorem lookup_checkAbsent_lasting (pairs : List (Bytes × Bytes)) :
    lookup (checkAbsent s now pairs).2 k = some e ∧
      ((checkAbsent s now pairs).1 = true → ∀ p ∈ pairs, p.1 ≠ k) := by
  induction pairs generalizing s now with
  | nil => exact ⟨hl, by simp⟩
  | cons p pairs ih =>
    have hlater : Lasting (later 1 now) e := fun i => hlast _
    unfold checkAbsent
    cases hp : lookup s p.1 with
    | none =>
      have hne : p.1 ≠ k := fun he => by simp [he, hl] at hp
      obtain ⟨hkeep, hall⟩ := ih hl hlater
      exact ⟨hkeep, fun h => List.forall_mem_cons.mpr ⟨hne, hall h⟩⟩
    | some e' =>
      simp only
      split_ifs with hexp
      · have hne : p.1 ≠ k := by
          rintro rfl
          obtain rfl : e' = e := Option.some.inj (hp.symm.trans hl)
          exact absurd hexp (by simp [hlast 0])
        have hpurge : lookup (purge s (shardIndex c p.1) p.1) k = some e := by
          rw [lookup_purge, if_neg hne.symm, hl]
        obtain ⟨hkeep, hall⟩ := ih hpurge hlater
        exact ⟨hkeep, fun h => List.forall_mem_cons.mpr ⟨hne, hall h⟩⟩
      · exact ⟨hl, by simp⟩

omit hlast in
theorem lookup_putAll_of_ne {pairs : List (Bytes × Bytes)} (hne : ∀ p ∈ pairs, p.1 ≠ k) :
    lookup (putAll s pairs) k = some e := by
  induction pairs generalizing s with
  | nil => exact hl
  | cons p pairs ih =>
    obtain ⟨hp, hne⟩ := List.forall_mem_cons.mp hne
    refine ih ?_ hne
    rw [lookup_addCount, lookup_write, if_neg hp.symm, hl]

theorem lookup_setNXMulti_lasting (pairs : List (Bytes × Bytes)) : lookup (setNXMulti s now pairs).2 k = some e := by
  obtain ⟨hkeep, hall⟩ := lookup_checkAbsent_lasting hl hlast pairs
  unfold setNXMulti
  cases hc : checkAbsent s now pairs with
  | mk fresh s' =>
    rw [hc] at hkeep hall
    cases fresh with
    | false => exact hkeep
    | true => exact lookup_putAll_of_ne hkeep (hall rfl)

omit hlast in
theorem lookup_purgeDues (due : List ExpEntry) :
    lookup (due.foldl purgeDue s) k = if ⟨e.expireAt, k⟩ ∈ due then none else some e := by
  induction due generalizing s with
  | nil => exact hl
  | cons d due ih =>
    have hstep := lookup_purgeDue s d k
    simp only [hl, Option.map_some, Option.some.injEq] at hstep
    by_cases hd : k = d.key ∧ e.expireAt = d.deadline
    · have hmem : (⟨e.expireAt, k⟩ : ExpEntry) ∈ d :: due := by simp [hd.1, hd.2]
      rw [if_pos hd] at hstep
      rw [if_pos hmem]
      exact lookup_purgeDues_none hstep due
    · rw [if_neg hd] at hstep
      have hne : (⟨e.expireAt, k⟩ : ExpEntry) ≠ d := fun he => hd (by simp [← he])
      rw [List.foldl_cons, ih hstep]
      simp only [List.mem_cons, hne, false_or]

omit hl in
theorem mem_due_iff (s : Store c) :
    ⟨e.expireAt, k⟩ ∈ MinQueue.due (now 0).nanos s.exp ↔
      e.expireAt = 0 ∧ ⟨0, k⟩ ∈ s.exp ∧ 0 ≤ (now 0).nanos := by
  have hlive := hlast 0
  simp only [expired, Bool.and_eq_false_iff, bne_eq_false_iff_eq, decide_eq_false_iff_not, not_le] at hlive
  constructor
  · intro hmem
    have hle : e.expireAt ≤ (now 0).nanos := MinQueue.rank_le_of_mem_due (a := (⟨e.expireAt, k⟩ : ExpEntry)) hmem
    have hzero : e.expireAt = 0 := hlive.resolve_right (by omega)
    rw [hzero] at hmem hle
    exact ⟨hzero, (MinQueue.mem_due_or_rest _ _ _).mpr (.inl hmem), hle⟩
  · rintro ⟨hzero, hmem, hle⟩
    rw [hzero]
    exact MinQueue.mem_due_of_le hmem hle

omit hlast in
theorem lookup_sweep (t : Instant) :
    lookup (sweep s t) k = if ⟨e.expireAt, k⟩ ∈ MinQueue.due t.nanos s.exp then none else some e := by
  have hl' : lookup (popDue s t).2 k = some e := hl
  exact lookup_purgeDues hl' _

end Live

/-- A step that does not mean to leaves the deadline of a live key as it is,
unless it is one of those that lose it. -/
theorem deadline_kept_iff {s : Store c} {now : Readings} {k : Bytes} {e : Entry} (hl : lookup s k = some e)
    (hlast : Lasting now e) {st : Step} (hst : ∀ a, st = .call a → ¬ Retimes k a) :
    (lookup (step s now st) k).map Entry.expireAt = some e.expireAt ↔ ¬ Loses s now k e st := by
  cases st with
  | sweep =>
    rw [step, lookup_sweep hl, Loses, ← mem_due_iff hlast]
    split_ifs with h <;> simp [h]
  | call a =>
    have hno := hst a rfl
    cases a with
    | incrBy key delta =>
      simp only [step, exec, Prod.map_snd, id, Loses, lookup_onKey_lasting hl hlast, incrBy]
      by_cases hk : k = key
      · cases hp : parseInt e.val with
        | none => simp [hk, Effect.entry]
        | some n => simp [hk, Effect.entry, plain, eq_comm]
      · simp [hk, Ne.symm hk]
    | append key suffix =>
      refine iff_of_true (deadline_onKey hl hlast fun _ => ?_) id
      simp only [StoreRules.append]
      split_ifs <;> rfl
    | set key val ttl mode =>
      refine iff_of_true (deadline_onKey hl hlast fun hk => ?_) id
      have hnx : mode = .nx := not_not.mp fun h => hno ⟨hk, h⟩
      simp [StoreRules.set, hnx, Effect.entry]
    | del keys => exact iff_of_true (congrArg _ (lookup_delKeys_of_not_mem hl hlast hno)) id
    | setNXMulti pairs => exact iff_of_true (congrArg _ (lookup_setNXMulti_lasting hl hlast pairs)) id
    | flush => exact absurd trivial hno
    | existsKeys keys => exact iff_of_true (congrArg _ hl) id
    | keys pattern => exact iff_of_true (congrArg _ hl) id
    | get key => exact iff_of_true (deadline_onKey hl hlast fun _ => rfl) id
    | typeOf key =>
      refine iff_of_true ?_ id
      simp only [step, exec, Prod.map_snd, id, typeOf_snd]
      exact deadline_onKey hl hlast fun _ => rfl
    | ttl key =>
      refine iff_of_true (deadline_onKey hl hlast fun _ => ?_) id
      simp only [StoreRules.ttl]
      split_ifs <;> rfl
    | getSet key val => exact iff_of_true (deadline_onKey hl hlast fun hk => absurd hk hno) id
    | expire key ttl => exact iff_of_true (deadline_onKey hl hlast fun hk => absurd hk hno) id
    | expireAt key secs => exact iff_of_true (deadline_onKey hl hlast fun hk => absurd hk hno) id
    | expireAtMs key ms => exact iff_of_true (deadline_onKey hl hlast fun hk => absurd hk hno) id
    | persist key => exact iff_of_true (deadline_onKey hl hlast fun hk => absurd hk hno) id

def limited : Store twoShards :=
  run (new twoShards) [(.call (.set (ascii "k") (ascii "5") (10 * second) .always), frozen (instant 0))]

def limitedEntry : Entry := ⟨ascii "5", 10000000000⟩

theorem lookup_limited : lookup limited (ascii "k") = some limitedEntry := by decide +kernel

theorem lasting_limited : Lasting (frozen (instant 0)) limitedEntry := by
  have hlive : expired (instant 0) limitedEntry = false := by decide
  exact fun _ => hlive

theorem append_keeps_limited :
    (lookup (step limited (frozen (instant 0)) (.call (.append (ascii "k") (ascii "0")))) (ascii "k")).map
      Entry.expireAt = some 10000000000 := by
  refine (deadline_kept_iff lookup_limited lasting_limited fun a ha => ?_).mpr id
  cases ha
  exact id

/-- The counter is permanent after an increment. -/
theorem incrBy_drops_limited :
    lookup limited (ascii "k") = some limitedEntry ∧ Lasting (frozen (instant 0)) limitedEntry ∧
      lookup (step limited (frozen (instant 0)) (.call (.incrBy (ascii "k") 1))) (ascii "k") = some ⟨ascii "6", 0⟩ :=
  ⟨lookup_limited, lasting_limited, by decide +kernel⟩

end MemX.StoreDeadline
