import Mathlib.Data.List.MinMax
import MemX.LockProgram

namespace MemX.LockOrder

open LockProgram

variable {L Act σ ω α β : Type} {Ans : Act → Type} [DecidableEq L]
variable (rank : L → Nat)

/-- A program that starts with the locks `held` takes a lock only above all it
holds, releases only what it holds, and ends as `Q` says. -/
def Ordered (Q : List (L × Mode) → α → Prop) : List (L × Mode) → Prog L Ans α → Prop
  | held, .done a => Q held a
  | held, .lock m l k => (∀ x ∈ held, rank x.1 < rank l) ∧ Ordered Q ((l, m) :: held) k
  | held, .unlock m l k => (l, m) ∈ held ∧ Ordered Q (held.erase (l, m)) k
  | held, .act _ k => ∀ r, Ordered Q held (k r)

variable {rank} {Q : List (L × Mode) → α → Prop} {R : List (L × Mode) → β → Prop} {held : List (L × Mode)}
variable {sem : (a : Act) → σ → Ans a × σ} {code : ω → Prog L Ans α}
variable {S S' : System L Ans σ ω α} {ts : List (Thread L Ans ω α)} {t t' : Thread L Ans ω α} {l : L}

theorem ordered_bind {p : Prog L Ans α} {f : α → Prog L Ans β} (hp : Ordered rank Q held p)
    (hf : ∀ held' a, Q held' a → Ordered rank R held' (f a)) : Ordered rank R held (p >>= f) := by
  induction p generalizing held with
  | done a => exact hf held a hp
  | lock m l k ih => exact ⟨hp.1, ih hp.2⟩
  | unlock m l k ih => exact ⟨hp.1, ih hp.2⟩
  | act a k ih => exact fun r => ih r (hp r)

theorem ordered_then {held₁ : List (L × Mode)} {p : Prog L Ans α} {f : α → Prog L Ans β}
    (hp : Ordered rank (fun held' _ => held' = held₁) held p) (hf : ∀ a, Ordered rank R held₁ (f a)) :
    Ordered rank R held (p >>= f) :=
  ordered_bind hp fun held' a h => by
    subst h
    exact hf a

def Balanced (rank : L → Nat) (held : List (L × Mode)) (p : Prog L Ans α) : Prop :=
  Ordered rank (fun held' _ => held' = held) held p

theorem balanced_pure (a : α) : Balanced rank held (pure a : Prog L Ans α) := rfl

theorem balanced_bind {p : Prog L Ans α} {f : α → Prog L Ans β} (hp : Balanced rank held p)
    (hf : ∀ a, Balanced rank held (f a)) : Balanced rank held (p >>= f) := ordered_then hp hf

theorem balanced_map {p : Prog L Ans α} (f : α → β) (hp : Balanced rank held p) : Balanced rank held (f <$> p) :=
  balanced_bind hp fun a => balanced_pure (f a)

theorem ordered_acquire {m : Mode} (h : ∀ x ∈ held, rank x.1 < rank l) :
    Ordered rank (fun held' _ => held' = (l, m) :: held) held (Prog.acquire m l : Prog L Ans Unit) := ⟨h, rfl⟩

theorem balanced_under {m : Mode} {p : Prog L Ans α} {f : α → β} (h : ∀ x ∈ held, rank x.1 < rank l)
    (hp : Balanced rank ((l, m) :: held) p) :
    Balanced rank held (do Prog.acquire m l; let a ← p; Prog.release m l; pure (f a)) :=
  ordered_then (ordered_acquire h) fun _ => ordered_then hp fun _ =>
    ⟨List.mem_cons_self, List.erase_cons_head ..⟩

/-- What is left of an operation that began without locks, and ends so. -/
def Keeping (rank : L → Nat) (t : Thread L Ans ω α) : Prop := Ordered rank (fun held _ => held = []) t.held t.prog

theorem keeping_takes {mem mem' : σ} (h : Takes sem ts t mem t' mem') (hk : Keeping rank t) : Keeping rank t' := by
  cases h with
  | act o a k held w => exact hk _
  | unlock o m l k w mem hm => exact hk.2
  | enter o l k held w => exact hk.2
  | announce => exact hk
  | lock => exact hk.2

def wanted (t : Thread L Ans ω α) : Option L :=
  match t.prog with
  | .lock _ l _ => some l
  | _ => none

theorem rank_lt_wanted {m : Mode} {l' : L} (hk : Keeping rank t) (hm : (l, m) ∈ t.held)
    (hw : wanted t = some l') : rank l < rank l' := by
  obtain ⟨o, p, held, w⟩ := t
  cases p with
  | lock m' l'' k =>
    cases hw
    exact hk.1 _ hm
  | _ => cases hw

theorem not_isDone_of_held {m : Mode} (hk : Keeping rank t) (hm : (l, m) ∈ t.held) : t.prog.isDone = false := by
  obtain ⟨o, p, held, w⟩ := t
  cases p with
  | done a =>
    rw [show held = [] from hk] at hm
    cases hm
  | _ => rfl

theorem steps_of_wanted_none {mem : σ} (hk : Keeping rank t) (hd : t.prog.isDone = false) (hw : wanted t = none) :
    ∃ t' mem', Takes sem ts t mem t' mem' := by
  obtain ⟨o, p, held, w⟩ := t
  cases p with
  | done a => cases hd
  | lock m l k => cases hw
  | unlock m l k => exact ⟨_, _, .unlock _ _ _ _ _ _ hk.1⟩
  | act a k => exact ⟨_, _, .act ..⟩

theorem steps_of_announced {mem : σ} (h : t.announced l = true) (hu : unheld ts l = true) :
    ∃ t' mem', Takes sem ts t mem t' mem' := by
  obtain ⟨o, p, held, w⟩ := t
  unfold Thread.announced at h
  split at h
  · rename_i heq
    cases heq
    obtain ⟨rfl, rfl⟩ : w = true ∧ _ = l := by simpa using h
    exact ⟨_, _, .lock _ _ _ _ _ hu⟩
  · cases h

theorem steps_of_free {mem : σ} (hw : wanted t = some l) (hf : free ts l = true) (hu : unheld ts l = true) :
    ∃ t' mem', Takes sem ts t mem t' mem' := by
  obtain ⟨o, p, held, w⟩ := t
  cases p with
  | lock m l' k =>
    cases hw
    cases m with
    | read => exact ⟨_, _, .enter _ _ _ _ _ _ hf⟩
    | write =>
      cases w with
      | false => exact ⟨_, _, .announce _ _ _ _ _ hf⟩
      | true => exact ⟨_, _, .lock _ _ _ _ _ hu⟩
  | _ => cases hw

omit [DecidableEq L] in
theorem exists_highest (rank : L → Nat) (ht : t ∈ ts) (hl : wanted t = some l) :
    ∃ u ∈ ts, ∃ top, wanted u = some top ∧ ∀ v ∈ ts, ∀ l', wanted v = some l' → rank l' ≤ rank top := by
  let f : Thread L Ans ω α → Nat := fun t => (wanted t).elim 0 rank
  obtain ⟨u, hu⟩ : ∃ u, u ∈ (ts.filter fun t => (wanted t).isSome).argmax f := by
    refine Option.ne_none_iff_exists'.mp fun h => ?_
    have hmem : t ∈ ts.filter fun t => (wanted t).isSome := List.mem_filter.mpr ⟨ht, by simp [hl]⟩
    rw [List.argmax_eq_none.mp h] at hmem
    cases hmem
  obtain ⟨hmem, hsome⟩ := List.mem_filter.mp (List.argmax_mem hu)
  obtain ⟨top, htop⟩ := Option.isSome_iff_exists.mp hsome
  refine ⟨u, hmem, top, htop, fun v hv l' hl' => ?_⟩
  have hle : f v ≤ f u := List.le_of_mem_argmax (List.mem_filter.mpr ⟨hv, by simp [hl']⟩) hu
  simpa [f, htop, hl'] using hle

/-- Where every thread keeps the order and one is not finished, one can go on:
nobody holds the highest lock that is waited for, since a holder would be
waiting for a higher one. -/
theorem progress {mem : σ} (hk : ∀ t ∈ ts, Keeping rank t) (hu : ∃ t ∈ ts, t.prog.isDone = false) :
    ∃ t ∈ ts, ∃ t' mem', Takes sem ts t mem t' mem' := by
  by_cases hfree : ∃ t ∈ ts, t.prog.isDone = false ∧ wanted t = none
  · obtain ⟨t, ht, hd, hw⟩ := hfree
    exact ⟨t, ht, steps_of_wanted_none (hk t ht) hd hw⟩
  have hwants : ∀ t ∈ ts, t.prog.isDone = false → ∃ l, wanted t = some l := by
    intro t ht hd
    exact Option.ne_none_iff_exists'.mp fun hw => hfree ⟨t, ht, hd, hw⟩
  obtain ⟨t₀, ht₀, hd₀⟩ := hu
  obtain ⟨l₀, hl₀⟩ := hwants t₀ ht₀ hd₀
  obtain ⟨t, ht, l, hl, hmax⟩ := exists_highest rank ht₀ hl₀
  have hnone : unheld ts l = true := by
    refine unheld_iff.mpr fun u hmem m hm => ?_
    obtain ⟨l', hl'⟩ := hwants u hmem (not_isDone_of_held (hk u hmem) hm)
    have hlt := rank_lt_wanted (hk u hmem) hm hl'
    have hle := hmax u hmem l' hl'
    omega
  by_cases hann : ∃ u ∈ ts, u.announced l = true
  · obtain ⟨u, hmem, ha⟩ := hann
    exact ⟨u, hmem, steps_of_announced ha hnone⟩
  · have hf : free ts l = true := by
      refine List.all_eq_true.mpr fun u hmem => ?_
      have hw : u.holds .write l = false := by simp [Thread.holds, unheld_iff.mp hnone u hmem]
      have ha : u.announced l = false := by simpa using fun h => hann ⟨u, hmem, h⟩
      simp [hw, ha]
    exact ⟨t, ht, steps_of_free hl hf hnone⟩

/-- The locks that a program takes one after the other up to some point of a
run, whatever its accesses answer. -/
inductive Acquires : Prog L Ans α → List L → Prop
  | stop (p : Prog L Ans α) : Acquires p []
  | lock (m : Mode) {l : L} {k : Prog L Ans α} {ls : List L} (h : Acquires k ls) : Acquires (.lock m l k) (l :: ls)
  | unlock (m : Mode) (l : L) {k : Prog L Ans α} {ls : List L} (h : Acquires k ls) : Acquires (.unlock m l k) ls
  | act {a : Act} {k : Ans a → Prog L Ans α} (r : Ans a) {ls : List L} (h : Acquires (k r) ls) : Acquires (.act a k) ls

section Acquired

variable {p : Prog L Ans α} {f : α → Prog L Ans β} {ls : List L}

omit [DecidableEq L]

theorem acquires_bind (h : Acquires (p >>= f) ls) :
    Acquires p ls ∨ ∃ ls₁ ls₂ a, ls = ls₁ ++ ls₂ ∧ Acquires p ls₁ ∧ Acquires (f a) ls₂ := by
  induction p generalizing ls with
  | done a => exact .inr ⟨[], ls, a, rfl, .stop _, h⟩
  | lock m l k ih =>
    cases h with
    | stop => exact .inl (.stop _)
    | lock _ h =>
      obtain h | ⟨ls₁, ls₂, a, rfl, h₁, h₂⟩ := ih h
      · exact .inl (.lock m h)
      · exact .inr ⟨l :: ls₁, ls₂, a, rfl, .lock m h₁, h₂⟩
  | unlock m l k ih =>
    cases h with
    | stop => exact .inl (.stop _)
    | unlock _ _ h =>
      obtain h | ⟨ls₁, ls₂, a, rfl, h₁, h₂⟩ := ih h
      · exact .inl (.unlock m l h)
      · exact .inr ⟨ls₁, ls₂, a, rfl, .unlock m l h₁, h₂⟩
  | act a k ih =>
    cases h with
    | stop => exact .inl (.stop _)
    | act r h =>
      obtain h | ⟨ls₁, ls₂, b, rfl, h₁, h₂⟩ := ih r h
      · exact .inl (.act r h)
      · exact .inr ⟨ls₁, ls₂, b, rfl, .act r h₁, h₂⟩

def LockFree (p : Prog L Ans α) : Prop := ∀ ls, Acquires p ls → ls = []

theorem lockFree_pure (a : α) : LockFree (pure a : Prog L Ans α) := fun ls h => by
  cases h
  rfl

theorem lockFree_bind (hp : LockFree p) (hf : ∀ a, LockFree (f a)) : LockFree (p >>= f) := by
  intro ls h
  obtain h | ⟨ls₁, ls₂, a, rfl, h₁, h₂⟩ := acquires_bind h
  · exact hp ls h
  · rw [hp ls₁ h₁, hf a ls₂ h₂, List.append_nil]

theorem acquires_first (hf : ∀ a, LockFree (f a)) (h : Acquires (p >>= f) ls) : Acquires p ls := by
  obtain h | ⟨ls₁, ls₂, a, rfl, h₁, h₂⟩ := acquires_bind h
  · exact h
  · rw [hf a ls₂ h₂, List.append_nil]
    exact h₁

end Acquired

end MemX.LockOrder
