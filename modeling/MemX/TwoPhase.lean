import Mathlib.Algebra.BigOperators.Group.List.Basic
import Mathlib.Data.Set.Basic
import Mathlib.Tactic.Abel
import MemX.LockProgram

namespace MemX.TwoPhase

open LockProgram

/-- A memory of cells, each with its own lock, and a sum that all share. -/
structure Layout (L σ I V A : Type) where
  guard : I → L
  cell : σ → I → V
  sum : σ → A

variable {L Act σ ω α β I V A : Type} {Ans : Act → Type} (D : Layout L σ I V A)

/-- Two memories that someone with the cells `H` cannot tell apart. The sum is
known only to who has all cells. -/
def Agree (H : Set I) (s s' : σ) : Prop := (∀ i ∈ H, D.cell s i = D.cell s' i) ∧ (H = Set.univ → D.sum s = D.sum s')

structure Unseen (f : σ → β × σ) : Prop where
  frame : ∀ s i, D.cell (f s).2 i = D.cell s i
  answer : ∀ s s', (f s).1 = (f s').1
  gain : ∀ s, D.sum (f s).2 = D.sum s

def items (held : List (L × Mode)) : Set I := { i | (D.guard i, .write) ∈ held }

variable {D} {H H' : Set I}

theorem agree_mono (hH : H ⊆ H') {s s' : σ} (h : Agree D H' s s') : Agree D H s s' := by
  refine ⟨fun i hi => h.1 i (hH hi), fun he => h.2 ?_⟩
  exact Set.univ_subset_iff.mp (he ▸ hH)

theorem unseen_pure (a : α) : Unseen D fun s : σ => (a, s) := ⟨fun _ _ => rfl, fun _ _ => rfl, fun _ => rfl⟩

theorem Unseen.comp {f : σ → β × σ} {g : β → σ → α × σ} (hf : Unseen D f) (hg : ∀ b, Unseen D (g b)) :
    Unseen D fun s => g (f s).1 (f s).2 where
  frame s i := by rw [(hg _).frame, hf.frame]
  answer s s' := by
    rw [hf.answer s s']
    exact (hg _).answer _ _
  gain s := by rw [(hg _).gain, hf.gain]

variable [AddCommGroup A]

/-- What `f` does depends on the cells `H` only, and changes no others. To the
sum it adds what follows from these cells. -/
structure Local (D : Layout L σ I V A) (H : Set I) (f : σ → β × σ) : Prop where
  frame : ∀ s, ∀ i ∉ H, D.cell (f s).2 i = D.cell s i
  answer : ∀ s s', Agree D H s s' → (f s).1 = (f s').1
  same : ∀ s s', Agree D H s s' → ∀ i ∈ H, D.cell (f s).2 i = D.cell (f s').2 i
  gain : ∀ s s', Agree D H s s' → D.sum (f s).2 - D.sum s = D.sum (f s').2 - D.sum s'

theorem Unseen.local {f : σ → β × σ} (h : Unseen D f) (H : Set I) : Local D H f where
  frame s i _ := h.frame s i
  answer s s' _ := h.answer s s'
  same s s' ha i hi := by rw [h.frame, h.frame, ha.1 i hi]
  gain s s' _ := by rw [h.gain, h.gain, sub_self, sub_self]

theorem Local.mono {f : σ → β × σ} (hf : Local D H f) (hH : H ⊆ H') : Local D H' f where
  frame s i hi := hf.frame s i fun h => hi (hH h)
  answer s s' ha := hf.answer s s' (agree_mono hH ha)
  same s s' ha i hi := by
    by_cases h : i ∈ H
    · exact hf.same s s' (agree_mono hH ha) i h
    · rw [hf.frame s i h, hf.frame s' i h, ha.1 i hi]
  gain s s' ha := hf.gain s s' (agree_mono hH ha)

theorem Local.agree {f : σ → β × σ} (hf : Local D H f) {s s' : σ} (ha : Agree D H s s') :
    Agree D H (f s).2 (f s').2 := by
  refine ⟨hf.same s s' ha, fun he => ?_⟩
  have hgain := hf.gain s s' ha
  rw [ha.2 he] at hgain
  exact sub_left_injective hgain

theorem Local.comp {f : σ → β × σ} {g : β → σ → α × σ} (hf : Local D H f) (hg : ∀ b, Local D H (g b)) :
    Local D H fun s => g (f s).1 (f s).2 where
  frame s i hi := by rw [(hg _).frame _ i hi, hf.frame s i hi]
  answer s s' ha := by
    rw [hf.answer s s' ha]
    exact (hg _).answer _ _ (hf.agree ha)
  same s s' ha i hi := by
    rw [hf.answer s s' ha]
    exact (hg _).same _ _ (hf.agree ha) i hi
  gain s s' ha := by
    have hfirst := hf.gain s s' ha
    have hsecond := (hg (f s').1).gain _ _ (hf.agree ha)
    rw [hf.answer s s' ha, ← sub_add_sub_cancel _ (D.sum (f s).2), hsecond, hfirst, sub_add_sub_cancel]

/-- How far a program has come: it still takes locks of cells, it uses cells,
or it has released one. -/
inductive Phase
  | growing
  | settled
  | shrinking
deriving DecidableEq

def Phase.settle : Phase → Phase
  | .growing => .settled
  | ph => ph

variable [DecidableEq L] (D) (sem : (a : Act) → σ → Ans a × σ)

/-- A program takes its cells before it uses any, uses only what it has, and
releases nothing before it has done with all. It ends as `Q` says. -/
def Disciplined (Q : Phase → List (L × Mode) → α → Prop) : Phase → List (L × Mode) → Prog L Ans α → Prop
  | ph, held, .done a => Q ph held a
  | ph, held, .lock m l k => ((∃ i, D.guard i = l) → ph = .growing ∧ m = .write) ∧ Disciplined Q ph ((l, m) :: held) k
  | ph, held, .unlock m l k =>
    ((∃ i, D.guard i = l) → Disciplined Q .shrinking (held.erase (l, m)) k) ∧
      ((∀ i, D.guard i ≠ l) → Disciplined Q ph.settle (held.erase (l, m)) k)
  | ph, held, .act a k =>
    (Unseen D (sem a) ∨ ph ≠ .shrinking ∧ (items D held).Nonempty ∧ Local D (items D held) (sem a)) ∧
      ∀ r, Disciplined Q ph.settle held (k r)

variable {D sem} {Q : Phase → List (L × Mode) → α → Prop} {R : Phase → List (L × Mode) → β → Prop}
variable {ph : Phase} {held : List (L × Mode)} {p : Prog L Ans α}

theorem disciplined_bind {f : α → Prog L Ans β} (hp : Disciplined D sem Q ph held p)
    (hf : ∀ ph held a, Q ph held a → Disciplined D sem R ph held (f a)) : Disciplined D sem R ph held (p >>= f) := by
  induction p generalizing ph held with
  | done a => exact hf ph held a hp
  | lock m l k ih => exact ⟨hp.1, ih hp.2⟩
  | unlock m l k ih => exact ⟨fun hg => ih (hp.1 hg), fun hg => ih (hp.2 hg)⟩
  | act a k ih => exact ⟨hp.1, fun r => ih r (hp.2 r)⟩

theorem Phase.settle_ne : ph.settle ≠ .growing := by cases ph <;> simp [Phase.settle]

omit [AddCommGroup A] [DecidableEq L] in
theorem items_cons_of_ne {m : Mode} {l : L} (h : ∀ i, D.guard i ≠ l) : items D ((l, m) :: held) = items D held := by
  ext i
  simp [items, h i]

omit [AddCommGroup A] in
theorem items_erase_of_ne {m : Mode} {l : L} (h : ∀ i, D.guard i ≠ l) : items D (held.erase (l, m)) = items D held := by
  ext i
  have hne : (D.guard i, Mode.write) ≠ (l, m) := fun he => h i (Prod.mk.inj he).1
  exact List.mem_erase_of_ne hne

omit [AddCommGroup A] in
theorem items_erase_subset {m : Mode} {l : L} : items D (held.erase (l, m)) ⊆ items D held :=
  fun _ hi => List.mem_of_mem_erase hi

theorem disciplined_settled (hp : Disciplined D sem (fun _ _ _ => True) .growing held p) :
    (∃ m l k, p = .lock m l k) ∨ Disciplined D sem (fun _ _ _ => True) .settled held p := by
  cases p with
  | done a => exact .inr trivial
  | lock m l k => exact .inl ⟨m, l, k, rfl⟩
  | unlock m l k => exact .inr hp
  | act a k => exact .inr ⟨hp.1.imp_right fun h => ⟨by simp, h.2⟩, hp.2⟩

theorem eval_local (hph : ph ≠ .growing) (hp : Disciplined D sem Q ph held p) :
    Local D (items D held) (p.eval sem) := by
  induction p generalizing ph held with
  | done a => exact (unseen_pure a).local _
  | lock m l k ih =>
    have hg : ∀ i, D.guard i ≠ l := fun i hi => hph (hp.1 ⟨i, hi⟩).1
    rw [← items_cons_of_ne hg]
    exact ih hph hp.2
  | unlock m l k ih =>
    by_cases hg : ∃ i, D.guard i = l
    · exact (ih (by simp) (hp.1 hg)).mono items_erase_subset
    · exact (ih Phase.settle_ne (hp.2 (not_exists.mp hg))).mono items_erase_subset
  | act a k ih =>
    have ha : Local D (items D held) (sem a) := by
      obtain ha | ⟨_, _, ha⟩ := hp.1
      · exact ha.local _
      · exact ha
    exact ha.comp fun r => ih r Phase.settle_ne (hp.2 r)

theorem eval_unseen (hph : ph ≠ .growing) (h : ph = .shrinking ∨ items D held = ∅)
    (hp : Disciplined D sem Q ph held p) : Unseen D (p.eval sem) := by
  induction p generalizing ph held with
  | done a => exact unseen_pure a
  | lock m l k ih =>
    have hg : ∀ i, D.guard i ≠ l := fun i hi => hph (hp.1 ⟨i, hi⟩).1
    exact ih hph (h.imp_right fun he => (items_cons_of_ne hg).trans he) hp.2
  | unlock m l k ih =>
    by_cases hg : ∃ i, D.guard i = l
    · exact ih (by simp) (.inl rfl) (hp.1 hg)
    · refine ih Phase.settle_ne ?_ (hp.2 (not_exists.mp hg))
      refine h.imp (fun he => by rw [he]; rfl) fun he => ?_
      rw [items_erase_of_ne (not_exists.mp hg), he]
  | act a k ih =>
    have ha : Unseen D (sem a) := by
      obtain ha | ⟨hne, hsome, _⟩ := hp.1
      · exact ha
      · obtain he | he := h
        · exact absurd he hne
        · exact absurd he hsome.ne_empty
    exact ha.comp fun r => ih r Phase.settle_ne (h.imp_left fun he => by rw [he]; rfl) (hp.2 r)

end MemX.TwoPhase
