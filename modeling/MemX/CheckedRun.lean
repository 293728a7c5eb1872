import Mathlib

namespace MemX.CheckedRun

variable {ρ ε σ α β : Type}

/-- How a run ends without a result: with an error of the program, or with a
panic of the runtime. -/
inductive Stop (ε : Type)
  | error (e : ε)
  | panic
deriving DecidableEq

/-- A run: the buffers it asked for, its result and the state it leaves. -/
structure Run (ρ ε σ α : Type) where
  requests : List ρ
  result : Except (Stop ε) α
  state : σ

def Prog (ρ ε σ α : Type) : Type := σ → Run ρ ε σ α

namespace Prog

def ret (a : α) : Prog ρ ε σ α := fun s => ⟨[], .ok a, s⟩

def fail (e : ε) : Prog ρ ε σ α := fun s => ⟨[], .error (.error e), s⟩

def panic : Prog ρ ε σ α := fun s => ⟨[], .error .panic, s⟩

def request (q : ρ) : Prog ρ ε σ Unit := fun s => ⟨[q], .ok (), s⟩

def bind (p : Prog ρ ε σ α) (f : α → Prog ρ ε σ β) : Prog ρ ε σ β := fun s =>
  match (p s).result with
  | .error e => ⟨(p s).requests, .error e, (p s).state⟩
  | .ok a =>
    ⟨(p s).requests ++ (f a (p s).state).requests, (f a (p s).state).result, (f a (p s).state).state⟩

instance : Monad (Prog ρ ε σ) where
  pure := Prog.ret
  bind := Prog.bind

def lift (x : σ → Except ε α × σ) : Prog ρ ε σ α := fun s => ⟨[], (x s).1.mapError .error, (x s).2⟩

def index (xs : List β) (i : Int) : Prog ρ ε σ β :=
  if 0 ≤ i then
    match xs[i.toNat]? with
    | some x => ret x
    | none => panic
  else panic

def slice (xs : List β) (lo hi : Int) : Prog ρ ε σ (List β) :=
  if 0 ≤ lo ∧ lo ≤ hi ∧ hi ≤ xs.length then ret ((xs.take hi.toNat).drop lo.toNat) else panic

def store (i n : Int) : Prog ρ ε σ Unit := if 0 ≤ i ∧ i < n then ret () else panic

/-- `make` of `n` elements; a size that is not negative is granted. -/
def make (q : Int → ρ) (n : Int) : Prog ρ ε σ Unit := if 0 ≤ n then request (q n) else panic

end Prog

open Prog

/-- From the state `s` the code ends as `r` says, hence without a panic. It
asks only for buffers that satisfy `P` and leaves a state that satisfies `I`. -/
def Computes (P : ρ → Prop) (I : σ → Prop) (p : Prog ρ ε σ α) (s : σ) (r : Except ε α × σ) : Prop :=
  (∀ q ∈ (p s).requests, P q) ∧ (p s).result = r.1.mapError .error ∧ (p s).state = r.2 ∧ I r.2

variable {P : ρ → Prop} {I : σ → Prop} {s : σ}

section Atoms

variable (hs : I s)

include hs

theorem computes_ret (a : α) : Computes P I (ret a : Prog ρ ε σ α) s (.ok a, s) :=
  ⟨fun _ hq => absurd hq List.not_mem_nil, rfl, rfl, hs⟩

theorem computes_fail (e : ε) : Computes P I (fail e : Prog ρ ε σ α) s (.error e, s) :=
  ⟨fun _ hq => absurd hq List.not_mem_nil, rfl, rfl, hs⟩

theorem computes_index {xs : List α} {i : Int} (hi : 0 ≤ i) {x : α} (hx : xs[i.toNat]? = some x) :
    Computes P I (index xs i : Prog ρ ε σ α) s (.ok x, s) := by
  rw [index, if_pos hi, hx]
  exact computes_ret hs x

theorem computes_slice {xs : List α} {lo hi : Int} (hlo : 0 ≤ lo) (hle : lo ≤ hi) (hhi : hi ≤ xs.length) :
    Computes P I (slice xs lo hi : Prog ρ ε σ (List α)) s (.ok ((xs.take hi.toNat).drop lo.toNat), s) := by
  rw [slice, if_pos ⟨hlo, hle, hhi⟩]
  exact computes_ret hs _

theorem computes_store {i n : Int} (hi : 0 ≤ i) (hn : i < n) :
    Computes P I (store i n : Prog ρ ε σ Unit) s (.ok (), s) := by
  rw [store, if_pos ⟨hi, hn⟩]
  exact computes_ret hs ()

theorem computes_make {q : Int → ρ} {n : Int} (hn : 0 ≤ n) (hq : P (q n)) :
    Computes P I (make q n : Prog ρ ε σ Unit) s (.ok (), s) := by
  rw [make, if_pos hn]
  refine ⟨fun r hr => ?_, rfl, rfl, hs⟩
  rw [List.mem_singleton.mp hr]
  exact hq

end Atoms

theorem computes_lift {x : σ → Except ε α × σ} (hx : I (x s).2) : Computes P I (lift x : Prog ρ ε σ α) s (x s) :=
  ⟨fun _ hq => absurd hq List.not_mem_nil, rfl, rfl, hx⟩

variable {p : Prog ρ ε σ α} {f : α → Prog ρ ε σ β} {s' : σ}

theorem Computes.next {a : α} {r : Except ε β × σ} (hp : Computes P I p s (.ok a, s'))
    (hf : Computes P I (f a) s' r) : Computes P I (p >>= f) s r := by
  obtain ⟨hq, hr, rfl, -⟩ := hp
  have hbind : (p >>= f) s = ⟨(p s).requests ++ (f a (p s).state).requests, (f a (p s).state).result,
      (f a (p s).state).state⟩ := by
    change Prog.bind p f s = _
    rw [Prog.bind, hr]
    rfl
  rw [Computes, hbind]
  exact ⟨fun q hm => (List.mem_append.mp hm).elim (hq q) (hf.1 q), hf.2⟩

theorem Computes.fails {e : ε} (hp : Computes P I p s (.error e, s')) :
    Computes P I (p >>= f) s (.error e, s') := by
  obtain ⟨hq, hr, rfl, hI⟩ := hp
  have hbind : (p >>= f) s = ⟨(p s).requests, .error (.error e), (p s).state⟩ := by
    change Prog.bind p f s = _
    rw [Prog.bind, hr]
    rfl
  rw [Computes, hbind]
  exact ⟨hq, rfl, rfl, hI⟩

theorem Computes.not_panic {r : Except ε α × σ} (hp : Computes P I p s r) : (p s).result ≠ .error .panic := by
  rw [hp.2.1]
  cases r.1 with
  | error e => rintro ⟨⟩
  | ok a => rintro ⟨⟩

theorem Computes.ok {r : Except ε α × σ} (hp : Computes P I p s r) {a : α} (h : (p s).result = .ok a) :
    r.1 = .ok a := by
  rw [hp.2.1] at h
  cases hr : r.1 with
  | error e =>
    rw [hr] at h
    cases h
  | ok b =>
    rw [hr] at h
    cases h
    rfl

end MemX.CheckedRun
