import MemX.MachineInt

namespace MemX.Clock

open MachineInt

/-- A clock reading whose Unix time in nanoseconds fits in an `int64`, the
range for which `UnixNano` is defined. -/
structure Instant where
  nanos : Int
  inRange : InRange nanos
deriving DecidableEq

instance : LE Instant := ⟨fun a b => a.nanos ≤ b.nanos⟩

instance : Preorder Instant where
  le_refl a := Int.le_refl a.nanos
  le_trans a b c (h : a.nanos ≤ b.nanos) (h' : b.nanos ≤ c.nanos) := Int.le_trans h h'

instance : DecidableLE Instant := fun a b => inferInstanceAs (Decidable (a.nanos ≤ b.nanos))

theorem Instant.le_def {a b : Instant} : a ≤ b ↔ a.nanos ≤ b.nanos := Iff.rfl

theorem Instant.eq_of_le {a b : Instant} (h : a ≤ b) (h' : b ≤ a) : a = b := by
  cases a
  cases b
  congr
  exact Int.le_antisymm h h'

/-- The readings that the successive `now()` calls of one operation return. -/
abbrev Readings := Nat → Instant

def later (n : Nat) (now : Readings) : Readings := fun i => now (i + n)

def frozen (t : Instant) : Readings := fun _ => t

@[simp] theorem later_frozen (n : Nat) (t : Instant) : later n (frozen t) = frozen t := rfl

@[simp] theorem frozen_apply (t : Instant) (i : Nat) : frozen t i = t := rfl

/-- What the clock shows at successive calls when it moves from `t` through
the times of a list and then stands. -/
def passing (t : Instant) : List Instant → Readings
  | [], _ => t
  | t' :: _, 0 => t'
  | t' :: ts, n + 1 => passing t' ts n

theorem passing_bounds {t : Instant} {ts : List Instant} (h : (t :: ts).Pairwise (· ≤ ·)) (n : Nat) :
    t ≤ passing t ts n ∧ passing t ts n ≤ ts.getLastD t := by
  induction ts generalizing t n with
  | nil => exact ⟨le_rfl, le_rfl⟩
  | cons t' ts ih =>
    obtain ⟨hle, hts⟩ := List.pairwise_cons.mp h
    have ht' : t ≤ t' := hle t' (by simp)
    rw [List.getLastD_cons]
    cases n with
    | zero => exact ⟨ht', (ih hts 0).1.trans (ih hts 0).2⟩
    | succ n => exact ⟨ht'.trans (ih hts n).1, (ih hts n).2⟩

theorem le_getLastD {t : Instant} {ts : List Instant} (h : (t :: ts).Pairwise (· ≤ ·)) : t ≤ ts.getLastD t :=
  (passing_bounds h 0).1.trans (passing_bounds h 0).2

def resume (past : List Instant) (now : Readings) : Readings := fun n => past.getD n (now (n - past.length))

@[simp] theorem resume_nil (now : Readings) : resume [] now = now := rfl

theorem resume_append (past past' : List Instant) (now : Readings) :
    resume (past ++ past') now = resume past (resume past' now) := by
  funext n
  unfold resume
  by_cases hn : n < past.length
  · rw [List.getD_append _ _ _ _ hn, List.getD_eq_getElem _ _ hn, List.getD_eq_getElem _ _ hn]
  · rw [List.getD_append_right _ _ _ _ (not_lt.mp hn), List.getD_eq_default past _ (not_lt.mp hn),
      List.length_append, Nat.sub_sub]

theorem later_resume (past : List Instant) (now : Readings) : later past.length (resume past now) = now := by
  funext n
  unfold later resume
  rw [List.getD_eq_default _ _ (Nat.le_add_left _ _), Nat.add_sub_cancel]

theorem resume_bounds {past : List Instant} {now : Readings} {lo hi : Instant}
    (hpast : ∀ t ∈ past, lo ≤ t ∧ t ≤ hi) (hnow : ∀ n, lo ≤ now n ∧ now n ≤ hi) (n : Nat) :
    lo ≤ resume past now n ∧ resume past now n ≤ hi := by
  unfold resume
  by_cases hn : n < past.length
  · rw [List.getD_eq_getElem _ _ hn]
    exact hpast _ (List.getElem_mem hn)
  · rw [List.getD_eq_default _ _ (not_lt.mp hn)]
    exact hnow _

def instant (n : Int) : Instant := ⟨wrap64 n, wrap64_inRange n⟩

def second : Int := 1000000000

def millisecond : Int := 1000000

/-- `now.Add(d).UnixNano()`: the addition is exact, the conversion wraps. -/
def unixNano (now : Instant) (d : Int) : Int := wrap64 (now.nanos + d)

/-- `now.Add(d).UnixMilli()`, rounded towards the past. -/
def unixMilli (now : Instant) (d : Int) : Int := (now.nanos + d) / millisecond

theorem unixMilli_inRange (t : Instant) {d : Int} (h : InRange d) : InRange (unixMilli t d) := by
  have ht := t.inRange
  unfold InRange at h ht ⊢
  unfold unixMilli millisecond
  omega

end MemX.Clock
