import Mathlib.Data.List.Basic
import Mathlib.Tactic.Common

namespace MemX.LockProgram

inductive Mode
  | read
  | write
deriving DecidableEq

/-- A sequential program over shared memory: it takes and releases readers'
and writers' locks, and acts on the memory in between. -/
inductive Prog (L : Type) {Act : Type} (Ans : Act → Type) (α : Type)
  | done (a : α)
  | lock (m : Mode) (l : L) (k : Prog L Ans α)
  | unlock (m : Mode) (l : L) (k : Prog L Ans α)
  | act (a : Act) (k : Ans a → Prog L Ans α)

variable {L Act σ ω α β : Type} {Ans : Act → Type}

namespace Prog

def bind (p : Prog L Ans α) (f : α → Prog L Ans β) : Prog L Ans β :=
  match p with
  | .done a => f a
  | .lock m l k => .lock m l (bind k f)
  | .unlock m l k => .unlock m l (bind k f)
  | .act a k => .act a fun r => bind (k r) f

instance : Monad (Prog L Ans) where
  pure := .done
  bind := .bind

@[simp] theorem done_bind (a : α) (f : α → Prog L Ans β) : Prog.done a >>= f = f a := rfl

@[simp] theorem pure_eq (a : α) : (pure a : Prog L Ans α) = .done a := rfl

@[simp] theorem lock_bind (m : Mode) (l : L) (k : Prog L Ans α) (f : α → Prog L Ans β) :
    Prog.lock m l k >>= f = .lock m l (k >>= f) := rfl

@[simp] theorem unlock_bind (m : Mode) (l : L) (k : Prog L Ans α) (f : α → Prog L Ans β) :
    Prog.unlock m l k >>= f = .unlock m l (k >>= f) := rfl

@[simp] theorem act_bind (a : Act) (k : Ans a → Prog L Ans α) (f : α → Prog L Ans β) :
    Prog.act a k >>= f = .act a fun r => k r >>= f := rfl

def acquire (m : Mode) (l : L) : Prog L Ans Unit := .lock m l (.done ())

def release (m : Mode) (l : L) : Prog L Ans Unit := .unlock m l (.done ())

def isDone : Prog L Ans α → Bool
  | .done _ => true
  | _ => false

def eval (sem : (a : Act) → σ → Ans a × σ) : Prog L Ans α → σ → α × σ
  | .done a, s => (a, s)
  | .lock _ _ k, s => eval sem k s
  | .unlock _ _ k, s => eval sem k s
  | .act a k, s => eval sem (k (sem a s).1) (sem a s).2

theorem eval_bind (sem : (a : Act) → σ → Ans a × σ) (p : Prog L Ans α) (f : α → Prog L Ans β) (s : σ) :
    eval sem (p >>= f) s = eval sem (f (eval sem p s).1) (eval sem p s).2 := by
  induction p generalizing s with
  | done a => rfl
  | lock m l k ih => exact ih s
  | unlock m l k ih => exact ih s
  | act a k ih => exact ih _ _

/-- Every action of a program satisfies `Q`, however the others are answered. -/
def Uses (Q : Act → Prop) : Prog L Ans α → Prop
  | .done _ => True
  | .lock _ _ k => Uses Q k
  | .unlock _ _ k => Uses Q k
  | .act a k => Q a ∧ ∀ r, Uses Q (k r)

theorem uses_bind {Q : Act → Prop} {p : Prog L Ans α} {f : α → Prog L Ans β} (hp : p.Uses Q)
    (hf : ∀ a, (f a).Uses Q) : (p >>= f).Uses Q := by
  induction p with
  | done a => exact hf a
  | lock m l k ih => exact ih hp
  | unlock m l k ih => exact ih hp
  | act a k ih => exact ⟨hp.1, fun r => ih r (hp.2 r)⟩

theorem eval_refines {σ₁ σ₂ : Type} {sem₁ : (a : Act) → σ₁ → Ans a × σ₁} {sem₂ : (a : Act) → σ₂ → Ans a × σ₂}
    {R : σ₁ → σ₂ → Prop} {Q : Act → Prop}
    (hsem : ∀ a, Q a → ∀ s₁ s₂, R s₁ s₂ → (sem₁ a s₁).1 = (sem₂ a s₂).1 ∧ R (sem₁ a s₁).2 (sem₂ a s₂).2)
    {p : Prog L Ans α} (hp : p.Uses Q) {s₁ : σ₁} {s₂ : σ₂} (hR : R s₁ s₂) :
    (p.eval sem₁ s₁).1 = (p.eval sem₂ s₂).1 ∧ R (p.eval sem₁ s₁).2 (p.eval sem₂ s₂).2 := by
  induction p generalizing s₁ s₂ with
  | done a => exact ⟨rfl, hR⟩
  | lock m l k ih => exact ih hp hR
  | unlock m l k ih => exact ih hp hR
  | act a k ih =>
    obtain ⟨hans, hnext⟩ := hsem a hp.1 s₁ s₂ hR
    rw [eval, eval, hans]
    exact ih _ (hp.2 _) hnext

end Prog

/-- A thread: the operation it was started for, what is left of it, the locks
it holds, and whether it has announced itself for the writer's lock it is at. -/
structure Thread (L : Type) {Act : Type} (Ans : Act → Type) (ω α : Type) where
  op : ω
  prog : Prog L Ans α
  held : List (L × Mode)
  waiting : Bool

structure System (L : Type) {Act : Type} (Ans : Act → Type) (σ ω α : Type) where
  mem : σ
  threads : List (Thread L Ans ω α)

theorem thread_set {ts : List (Thread L Ans ω α)} {i j : Nat} {t' u : Thread L Ans ω α}
    (h : (ts.set j t')[i]? = some u) : i = j ∧ u = t' ∨ i ≠ j ∧ ts[i]? = some u := by
  rw [List.getElem?_set] at h
  split_ifs at h with hij hlen
  · cases h
    exact .inl ⟨hij.symm, rfl⟩
  · exact .inr ⟨Ne.symm hij, h⟩

theorem thread_append {ts : List (Thread L Ans ω α)} {i : Nat} {t u : Thread L Ans ω α}
    (h : (ts ++ [t])[i]? = some u) : i = ts.length ∧ u = t ∨ i ≠ ts.length ∧ ts[i]? = some u := by
  rw [List.getElem?_append] at h
  split_ifs at h with hlt
  · exact .inr ⟨Nat.ne_of_lt hlt, h⟩
  · rw [List.getElem?_singleton] at h
    split_ifs at h with hzero
    cases h
    exact .inl ⟨by omega, rfl⟩

variable [DecidableEq L]

def Thread.holds (t : Thread L Ans ω α) (m : Mode) (l : L) : Bool := t.held.contains (l, m)

def Thread.announced (t : Thread L Ans ω α) (l : L) : Bool :=
  match t.prog with
  | .lock .write l' _ => t.waiting && l' == l
  | _ => false

/-- Whether the first part of taking a lock may pass: a reader goes in, and a
writer announces itself, when no writer is in or has announced itself. -/
def free (ts : List (Thread L Ans ω α)) (l : L) : Bool := ts.all fun t => !t.holds .write l && !t.announced l

/-- Whether nobody is in, so that the announced writer may go in. -/
def unheld (ts : List (Thread L Ans ω α)) (l : L) : Bool := ts.all fun t => !t.holds .write l && !t.holds .read l

variable (sem : (a : Act) → σ → Ans a × σ)

/-- The next step of a thread, when it can take one. A lock is a readers-writer
lock that an announced writer closes for new readers; releasing a lock that is
not held stops the thread for good. -/
def stepThread (mem : σ) (ts : List (Thread L Ans ω α)) (t : Thread L Ans ω α) : Option (σ × Thread L Ans ω α) :=
  match t.prog with
  | .done _ => none
  | .act a k => some ((sem a mem).2, { t with prog := k (sem a mem).1 })
  | .unlock m l k => if t.holds m l then some (mem, { t with prog := k, held := t.held.erase (l, m) }) else none
  | .lock .read l k =>
    if free ts l then some (mem, { t with prog := k, held := (l, .read) :: t.held }) else none
  | .lock .write l k =>
    if t.waiting then
      if unheld ts l then some (mem, { t with prog := k, held := (l, .write) :: t.held, waiting := false }) else none
    else if free ts l then some (mem, { t with waiting := true })
    else none

def step (S : System L Ans σ ω α) (j : Nat) : Option (System L Ans σ ω α) :=
  S.threads[j]?.bind fun t => (stepThread sem S.mem S.threads t).map fun r => ⟨r.1, S.threads.set j r.2⟩

inductive Event (ω : Type)
  | start (o : ω)
  | step (j : Nat)

variable (code : ω → Prog L Ans α)

def handle (S : System L Ans σ ω α) : Event ω → Option (System L Ans σ ω α)
  | .start o => some { S with threads := S.threads ++ [⟨o, code o, [], false⟩] }
  | .step j => step sem S j

def run (S : System L Ans σ ω α) : List (Event ω) → Option (System L Ans σ ω α)
  | [] => some S
  | e :: es => (handle sem code S e).bind fun S => run S es

def throughout (ok : System L Ans σ ω α → Event ω → Bool) (S : System L Ans σ ω α) : List (Event ω) → Bool
  | [] => true
  | e :: es => ok S e && ((handle sem code S e).map fun S => throughout ok S es).getD true

inductive Takes (ts : List (Thread L Ans ω α)) : Thread L Ans ω α → σ → Thread L Ans ω α → σ → Prop
  | act (o : ω) (a : Act) (k : Ans a → Prog L Ans α) (held : List (L × Mode)) (w : Bool) (mem : σ) :
    Takes ts ⟨o, .act a k, held, w⟩ mem ⟨o, k (sem a mem).1, held, w⟩ (sem a mem).2
  | unlock (o : ω) (m : Mode) (l : L) (k : Prog L Ans α) {held : List (L × Mode)} (w : Bool) (mem : σ)
    (h : (l, m) ∈ held) : Takes ts ⟨o, .unlock m l k, held, w⟩ mem ⟨o, k, held.erase (l, m), w⟩ mem
  | enter (o : ω) (l : L) (k : Prog L Ans α) (held : List (L × Mode)) (w : Bool) (mem : σ) (h : free ts l = true) :
    Takes ts ⟨o, .lock .read l k, held, w⟩ mem ⟨o, k, (l, .read) :: held, w⟩ mem
  | announce (o : ω) (l : L) (k : Prog L Ans α) (held : List (L × Mode)) (mem : σ) (h : free ts l = true) :
    Takes ts ⟨o, .lock .write l k, held, false⟩ mem ⟨o, .lock .write l k, held, true⟩ mem
  | lock (o : ω) (l : L) (k : Prog L Ans α) (held : List (L × Mode)) (mem : σ) (h : unheld ts l = true) :
    Takes ts ⟨o, .lock .write l k, held, true⟩ mem ⟨o, k, (l, .write) :: held, false⟩ mem

variable {sem code} {S S' : System L Ans σ ω α} {ts : List (Thread L Ans ω α)} {t t' : Thread L Ans ω α}

theorem stepThread_eq_some_iff {mem mem' : σ} :
    stepThread sem mem ts t = some (mem', t') ↔ Takes sem ts t mem t' mem' := by
  obtain ⟨o, p, held, w⟩ := t
  constructor
  · intro h
    cases p with
    | done a => cases h
    | act a k =>
      cases h
      exact .act ..
    | unlock m l k =>
      simp only [stepThread, Thread.holds, List.contains_eq_mem, decide_eq_true_eq] at h
      split_ifs at h with hm
      cases h
      exact .unlock _ _ _ _ _ _ hm
    | lock m l k =>
      cases m with
      | read =>
        simp only [stepThread] at h
        split_ifs at h with hf
        cases h
        exact .enter _ _ _ _ _ _ hf
      | write =>
        cases w <;> simp only [stepThread, Bool.false_eq_true, ↓reduceIte] at h <;> split_ifs at h with hf <;> cases h
        · exact .announce _ _ _ _ _ hf
        · exact .lock _ _ _ _ _ hf
  · intro h
    cases h <;> simp_all [stepThread, Thread.holds]

theorem step_eq_some_iff {j : Nat} : step sem S j = some S' ↔
    ∃ t t', S.threads[j]? = some t ∧ Takes sem S.threads t S.mem t' S'.mem ∧ S'.threads = S.threads.set j t' := by
  unfold step
  constructor
  · intro h
    obtain ⟨t, ht, h⟩ := Option.bind_eq_some_iff.mp h
    obtain ⟨r, hr, rfl⟩ := Option.map_eq_some_iff.mp h
    exact ⟨t, r.2, ht, stepThread_eq_some_iff.mp hr, rfl⟩
  · rintro ⟨t, t', ht, htakes, hset⟩
    rw [ht, Option.bind_some, stepThread_eq_some_iff.mpr htakes, Option.map_some]
    obtain ⟨mem, ts⟩ := S'
    cases hset
    rfl

/-- What holds at first, and is kept when an operation arrives and when a
thread takes a step that meets the condition, holds in every state of a run
whose steps meet it. -/
theorem run_within {I : System L Ans σ ω α → Prop} {ok : System L Ans σ ω α → Event ω → Bool}
    (hstart : ∀ S o, I S → I { S with threads := S.threads ++ [⟨o, code o, [], false⟩] })
    (hstep : ∀ S S' j, I S → ok S (.step j) = true → step sem S j = some S' → I S') {es : List (Event ω)} (h0 : I S)
    (hok : throughout sem code ok S es = true) (hrun : run sem code S es = some S') : I S' := by
  induction es generalizing S with
  | nil =>
    cases hrun
    exact h0
  | cons e es ih =>
    obtain ⟨S₁, h₁, hrun⟩ := Option.bind_eq_some_iff.mp hrun
    obtain ⟨he, hok⟩ := Bool.and_eq_true_iff.mp hok
    rw [h₁, Option.map_some, Option.getD_some] at hok
    refine ih ?_ hok hrun
    cases e with
    | start o =>
      cases h₁
      exact hstart S o h0
    | step j => exact hstep S S₁ j h0 he h₁

theorem throughout_true (es : List (Event ω)) : throughout sem code (fun _ _ => true) S es = true := by
  induction es generalizing S with
  | nil => rfl
  | cons e es ih =>
    rw [throughout, Bool.true_and]
    cases handle sem code S e with
    | none => rfl
    | some S => exact ih

theorem run_invariant {I : System L Ans σ ω α → Prop}
    (hstart : ∀ S o, I S → I { S with threads := S.threads ++ [⟨o, code o, [], false⟩] })
    (hstep : ∀ S S' j, I S → step sem S j = some S' → I S') {es : List (Event ω)} (h0 : I S)
    (hrun : run sem code S es = some S') : I S' :=
  run_within hstart (fun S S' j h _ hs => hstep S S' j h hs) h0 (throughout_true es) hrun

theorem run_threads {P : Thread L Ans ω α → Prop} (hstart : ∀ o, P ⟨o, code o, [], false⟩)
    (hstep : ∀ ts t mem t' mem', Takes sem ts t mem t' mem' → P t → P t') {es : List (Event ω)} {mem : σ}
    (hrun : run sem code ⟨mem, []⟩ es = some S') : ∀ t ∈ S'.threads, P t := by
  refine run_invariant (I := fun S => ∀ t ∈ S.threads, P t) ?_ ?_ (by simp) hrun
  · intro S o h
    exact List.forall_mem_append.mpr ⟨h, by simpa using hstart o⟩
  · intro S S' j h hs
    obtain ⟨t, t', ht, htakes, hset⟩ := step_eq_some_iff.mp hs
    rw [hset]
    intro u hu
    obtain hu | rfl := List.mem_or_eq_of_mem_set hu
    · exact h u hu
    · exact hstep _ _ _ _ _ htakes (h t (List.mem_of_getElem? ht))

def Exclusive (S : System L Ans σ ω α) : Prop :=
  ∀ (i j : Nat) (t u : Thread L Ans ω α) (l : L) (m : Mode), S.threads[i]? = some t → S.threads[j]? = some u →
    (l, .write) ∈ t.held → (l, m) ∈ u.held → i = j

theorem unheld_iff {l : L} : unheld ts l = true ↔ ∀ t ∈ ts, ∀ m, (l, m) ∉ t.held := by
  have hmode : ∀ t : Thread L Ans ω α, (∀ m, (l, m) ∉ t.held) ↔ (l, .write) ∉ t.held ∧ (l, .read) ∉ t.held :=
    fun t => ⟨fun h => ⟨h _, h _⟩, fun ⟨hw, hr⟩ m => by cases m <;> assumption⟩
  simp [unheld, Thread.holds, hmode]

theorem not_write_of_free {l : L} (h : free ts l = true) (ht : t ∈ ts) : (l, .write) ∉ t.held := by
  have hall := List.all_eq_true.mp h t ht
  simp only [Thread.holds, List.contains_eq_mem, Bool.and_eq_true, Bool.not_eq_true', decide_eq_false_iff_not] at hall
  exact hall.1

theorem held_takes {mem mem' : σ} (h : Takes sem ts t mem t' mem') {l : L} {m : Mode} (hm : (l, m) ∈ t'.held) :
    (l, m) ∈ t.held ∨ (∀ u ∈ ts, (l, .write) ∉ u.held) ∧ (m = .write → ∀ u ∈ ts, ∀ m', (l, m') ∉ u.held) := by
  cases h with
  | act => exact .inl hm
  | unlock => exact .inl (List.mem_of_mem_erase hm)
  | enter o l' k held w mem hf =>
    cases hm with
    | head => exact .inr ⟨fun u hu => not_write_of_free hf hu, fun h => by cases h⟩
    | tail _ hm => exact .inl hm
  | announce => exact .inl hm
  | lock o l' k held mem hu =>
    cases hm with
    | head => exact .inr ⟨fun u hmem => unheld_iff.mp hu u hmem _, fun _ => unheld_iff.mp hu⟩
    | tail _ hm => exact .inl hm

omit [DecidableEq L] in
theorem exclusive_start {o : ω} (h : Exclusive S) :
    Exclusive { S with threads := S.threads ++ [⟨o, code o, [], false⟩] } := by
  intro i j t u l m hi hj hw hm
  obtain ⟨-, rfl⟩ | ⟨-, hi⟩ := thread_append hi
  · cases hw
  · obtain ⟨-, rfl⟩ | ⟨-, hj⟩ := thread_append hj
    · cases hm
    · exact h i j t u l m hi hj hw hm

theorem exclusive_step {j : Nat} (h : Exclusive S) (hs : step sem S j = some S') : Exclusive S' := by
  obtain ⟨t, t', ht, htakes, hset⟩ := step_eq_some_iff.mp hs
  intro a b u v l m ha hb hw hm
  rw [hset] at ha hb
  obtain ⟨rfl, rfl⟩ | ⟨-, ha'⟩ := thread_set ha <;> obtain ⟨hb', rfl⟩ | ⟨-, hb'⟩ := thread_set hb
  · exact hb'.symm
  · obtain hw | ⟨_, hnone⟩ := held_takes htakes hw
    · exact h _ b t v l m ht hb' hw hm
    · exact absurd hm (hnone rfl v (List.mem_of_getElem? hb') m)
  · obtain hm | ⟨hnone, _⟩ := held_takes htakes hm
    · exact (h a j u t l m ha' ht hw hm).trans hb'.symm
    · exact absurd hw (hnone u (List.mem_of_getElem? ha'))
  · exact h a b u v l m ha' hb' hw hm

end MemX.LockProgram
