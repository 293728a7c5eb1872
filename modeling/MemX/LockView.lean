import Mathlib.Logic.Function.Basic
import MemX.LockProgram

namespace MemX.LockView

open LockProgram

/-- What a thread knows and owes besides its program: which accesses it may
make with what it has, what it knows and owes after one, and what is left of
that when it releases a lock. -/
structure Rules (L : Type) {Act : Type} (Ans : Act → Type) (V : Type) where
  allowed : V → List (L × Mode) → Act → Prop
  next : V → (a : Act) → Ans a → V
  release : V → V

variable {L Act σ ω α β V : Type} {Ans : Act → Type} [DecidableEq L] {R : Rules L Ans V}

/-- The program obeys the rules from the view `v` on, whatever the answers are,
and ends with `Q`. -/
def Follows (R : Rules L Ans V) (Q : V → List (L × Mode) → α → Prop) (v : V) (held : List (L × Mode)) :
    Prog L Ans α → Prop
  | .done a => Q v held a
  | .lock m l k => Follows R Q v ((l, m) :: held) k
  | .unlock m l k => Follows R Q (R.release v) (held.erase (l, m)) k
  | .act a k => R.allowed v held a ∧ ∀ r, Follows R Q (R.next v a r) held (k r)

theorem follows_bind {P : V → List (L × Mode) → α → Prop} {Q : V → List (L × Mode) → β → Prop} {v : V}
    {held : List (L × Mode)} {p : Prog L Ans α} {f : α → Prog L Ans β} (hp : Follows R P v held p)
    (hf : ∀ v' held' a, P v' held' a → Follows R Q v' held' (f a)) : Follows R Q v held (p >>= f) := by
  induction p generalizing v held with
  | done a => exact hf v held a hp
  | lock m l k ih => exact ih hp
  | unlock m l k ih => exact ih hp
  | act a k ih => exact ⟨hp.1, fun r => ih r (hp.2 r)⟩

theorem follows_mono {P Q : V → List (L × Mode) → α → Prop} {v : V} {held : List (L × Mode)} {p : Prog L Ans α}
    (hp : Follows R P v held p) (h : ∀ v' held' a, P v' held' a → Q v' held' a) : Follows R Q v held p := by
  induction p generalizing v held with
  | done a => exact h v held a hp
  | lock m l k ih => exact ih hp
  | unlock m l k ih => exact ih hp
  | act a k ih => exact ⟨hp.1, fun r => ih r (hp.2 r)⟩

def Viewed (R : Rules L Ans V) (Q : V → List (L × Mode) → α → Prop) (view : Nat → V) (S : System L Ans σ ω α) : Prop :=
  ∀ j t, S.threads[j]? = some t → Follows R Q (view j) t.held t.prog

inductive Shift (R : Rules L Ans V) (sem : (a : Act) → σ → Ans a × σ) (p : Prog L Ans α) :
    V → List (L × Mode) → σ → V → List (L × Mode) → σ → Prop
  | act {v : V} {held : List (L × Mode)} {mem : σ} (a : Act) (k : Ans a → Prog L Ans α) (hp : p = .act a k)
    (ha : R.allowed v held a) : Shift R sem p v held mem (R.next v a (sem a mem).1) held (sem a mem).2
  | lock {v : V} {held : List (L × Mode)} {mem : σ} (x : L × Mode) : Shift R sem p v held mem v (x :: held) mem
  | unlock {v : V} {held : List (L × Mode)} {mem : σ} (x : L × Mode) :
    Shift R sem p v held mem (R.release v) (held.erase x) mem
  | stay {v : V} {held : List (L × Mode)} {mem : σ} : Shift R sem p v held mem v held mem

variable {sem : (a : Act) → σ → Ans a × σ} {Q : V → List (L × Mode) → α → Prop} {S S' : System L Ans σ ω α}

theorem follows_takes {ts : List (Thread L Ans ω α)} {t t' : Thread L Ans ω α} {mem mem' : σ} {v : V}
    (h : Takes sem ts t mem t' mem') (hf : Follows R Q v t.held t.prog) :
    ∃ v', Follows R Q v' t'.held t'.prog ∧ Shift R sem t.prog v t.held mem v' t'.held mem' := by
  cases h with
  | act o a k held w mem => exact ⟨_, hf.2 _, .act a k rfl hf.1⟩
  | unlock o m l k w mem hm => exact ⟨_, hf, .unlock (l, m)⟩
  | enter o l k held w mem hfree => exact ⟨v, hf, .lock (l, .read)⟩
  | announce o l k held mem hfree => exact ⟨v, hf, .stay⟩
  | lock o l k held mem hunheld => exact ⟨v, hf, .lock (l, .write)⟩

theorem viewed_step {view : Nat → V} {j : Nat} (hv : Viewed R Q view S) (hs : step sem S j = some S') :
    ∃ t t' v', S.threads[j]? = some t ∧ S'.threads = S.threads.set j t' ∧
      Viewed R Q (Function.update view j v') S' ∧ Shift R sem t.prog (view j) t.held S.mem v' t'.held S'.mem := by
  obtain ⟨t, t', ht, htakes, hset⟩ := step_eq_some_iff.mp hs
  obtain ⟨v', hf, hshift⟩ := follows_takes htakes (hv j t ht)
  refine ⟨t, t', v', ht, hset, ?_, hshift⟩
  intro i u hu
  rw [hset] at hu
  obtain ⟨rfl, rfl⟩ | ⟨hij, hu⟩ := thread_set hu
  · rw [Function.update_self]
    exact hf
  · rw [Function.update_of_ne hij]
    exact hv i u hu

theorem viewed_start {view : Nat → V} {v : V} {code : ω → Prog L Ans α} {o : ω} (hv : Viewed R Q view S)
    (ho : Follows R Q v [] (code o)) :
    Viewed R Q (Function.update view S.threads.length v)
      { S with threads := S.threads ++ [⟨o, code o, [], false⟩] } := by
  intro i t ht
  obtain ⟨rfl, rfl⟩ | ⟨hi, ht⟩ := thread_append ht
  · rw [Function.update_self]
    exact ho
  · rw [Function.update_of_ne hi]
    exact hv i t ht

end MemX.LockView
