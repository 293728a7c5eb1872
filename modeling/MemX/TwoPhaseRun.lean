import Mathlib.Data.List.FinRange
import Mathlib.Data.List.Nodup
import Mathlib.Data.List.OfFn
import MemX.TwoPhase

namespace MemX.TwoPhaseRun

open LockProgram TwoPhase

variable {L Act σ ω α I V A : Type} {Ans : Act → Type} [AddCommGroup A] [DecidableEq L]
variable (D : Layout L σ I V A) (sem : (a : Act) → σ → Ans a × σ) (code : ω → Prog L Ans α)

def serial : σ → List ω → List α × σ
  | s, [] => ([], s)
  | s, o :: os =>
    (((code o).eval sem s).1 :: (serial ((code o).eval sem s).2 os).1, (serial ((code o).eval sem s).2 os).2)

omit [DecidableEq L] in
theorem serial_concat (s : σ) (os : List ω) (o : ω) :
    serial sem code s (os ++ [o]) =
      ((serial sem code s os).1 ++ [((code o).eval sem (serial sem code s os).2).1],
        ((code o).eval sem (serial sem code s os).2).2) := by
  induction os generalizing s with
  | nil => rfl
  | cons o' os ih => simp only [List.cons_append, serial, ih]

/-- A thread that has all its cells takes its place in the order, with the
result it will have. -/
structure Commit (ω α : Type) where
  index : Nat
  op : ω
  result : α

def gain (S : System L Ans σ ω α) (j : Nat) : A :=
  S.threads[j]?.elim 0 fun t => D.sum (t.prog.eval sem S.mem).2 - D.sum S.mem

abbrev Obeys (ph : Phase) (held : List (L × Mode)) (p : Prog L Ans α) : Prop :=
  Disciplined D sem (fun _ _ _ => True) ph held p

/-- The memory is on the way to `G`, where the threads that have all their
cells would leave it; there the sequential run of these threads leaves it too,
with the same results. -/
structure Serial (s₀ : σ) (S : System L Ans σ ω α) (log : List (Commit ω α)) (G : σ) : Prop where
  nodup : (log.map Commit.index).Nodup
  seq : serial sem code s₀ (log.map Commit.op) = (log.map Commit.result, G)
  settled : ∀ x ∈ log, ∃ t, S.threads[x.index]? = some t ∧ t.op = x.op ∧
    (∃ ph, ph ≠ .growing ∧ Obeys D sem ph t.held t.prog) ∧ (t.prog.eval sem S.mem).1 = x.result
  owned : ∀ x ∈ log, ∀ t, S.threads[x.index]? = some t → ∀ i ∈ items D t.held,
    D.cell (t.prog.eval sem S.mem).2 i = D.cell G i
  unowned : ∀ i, (∀ x ∈ log, ∀ t, S.threads[x.index]? = some t → i ∉ items D t.held) → D.cell S.mem i = D.cell G i
  sum : D.sum G = D.sum S.mem + (log.map fun x => gain D sem S x.index).sum

variable {D sem code} {s₀ G : σ} {S S' : System L Ans σ ω α} {log : List (Commit ω α)} {j : Nat}
variable {t t' : Thread L Ans ω α}

theorem Serial.congr (h : Serial D sem code s₀ S log G) (hmem : S'.mem = S.mem)
    (hthreads : ∀ x ∈ log, S'.threads[x.index]? = S.threads[x.index]?) : Serial D sem code s₀ S' log G where
  nodup := h.nodup
  seq := h.seq
  settled x hx := by
    rw [hthreads x hx, hmem]
    exact h.settled x hx
  owned x hx := by
    rw [hthreads x hx, hmem]
    exact h.owned x hx
  unowned i hi := by
    rw [hmem]
    exact h.unowned i fun x hx t ht => hi x hx t ((hthreads x hx).trans ht)
  sum := by
    have hgain : log.map (fun x => gain D sem S' x.index) = log.map fun x => gain D sem S x.index :=
      List.map_congr_left fun x hx => by rw [gain, gain, hthreads x hx, hmem]
    rw [hmem, hgain]
    exact h.sum

omit [AddCommGroup A] [DecidableEq L] in
theorem items_disjoint (hex : Exclusive S) {k : Nat} {u : Thread L Ans ω α} (ht : S.threads[j]? = some t)
    (hu : S.threads[k]? = some u) (hne : j ≠ k) {i : I} (hi : i ∈ items D t.held) : i ∉ items D u.held :=
  fun h => hne (hex j k t u _ _ ht hu hi h)

omit [DecidableEq L] in
theorem gain_eq (ht : S.threads[j]? = some t) :
    gain D sem S j = D.sum (t.prog.eval sem S.mem).2 - D.sum S.mem := by rw [gain, ht, Option.elim_some]

/-- Who has all cells knows the sum: no other thread will still add to it. -/
theorem Serial.sum_eq (h : Serial D sem code s₀ S log G)
    (hnone : ∀ x ∈ log, ∀ t, S.threads[x.index]? = some t → items D t.held = ∅) : D.sum S.mem = D.sum G := by
  have hzero : (log.map fun x => gain D sem S x.index).sum = 0 := by
    refine List.sum_eq_zero fun g hg => ?_
    obtain ⟨x, hx, rfl⟩ := List.mem_map.mp hg
    obtain ⟨t, ht, _, ⟨ph, hph, hobey⟩, _⟩ := h.settled x hx
    rw [gain_eq ht, (eval_unseen hph (.inr (hnone x hx t ht)) hobey).gain, sub_self]
  rw [h.sum, hzero, add_zero]

theorem Serial.commit (h : Serial D sem code s₀ S log G) (hex : Exclusive S) (hj : j ∉ log.map Commit.index)
    (ht : S.threads[j]? = some t) (hobey : Obeys D sem .settled t.held t.prog)
    (hcode : ∀ s, t.prog.eval sem s = (code t.op).eval sem s) :
    Serial D sem code s₀ S (log ++ [⟨j, t.op, (t.prog.eval sem S.mem).1⟩]) (t.prog.eval sem G).2 := by
  have hloc : Local D (items D t.held) (t.prog.eval sem) := eval_local (by simp) hobey
  have hne : ∀ x ∈ log, j ≠ x.index := fun x hx he => hj (he ▸ List.mem_map_of_mem hx)
  have hfree : ∀ i ∈ items D t.held, ∀ x ∈ log, ∀ u, S.threads[x.index]? = some u → i ∉ items D u.held :=
    fun i hi x hx u hu => items_disjoint hex ht hu (hne x hx) hi
  have hagree : Agree D (items D t.held) S.mem G := by
    refine ⟨fun i hi => h.unowned i (hfree i hi), fun hall => h.sum_eq fun x hx u hu => ?_⟩
    exact Set.eq_empty_iff_forall_notMem.mpr fun i => hfree i (hall ▸ Set.mem_univ i) x hx u hu
  refine ⟨?_, ?_, ?_, ?_, ?_, ?_⟩
  · rw [List.map_append, List.map_singleton, ← List.concat_eq_append]
    exact List.Nodup.concat hj h.nodup
  · rw [List.map_append, List.map_singleton, serial_concat, h.seq, List.map_append, List.map_singleton, ← hcode,
      hloc.answer _ _ hagree]
  · exact List.forall_mem_append.mpr ⟨h.settled, by simpa using ⟨t, ht, rfl, ⟨.settled, by simp, hobey⟩, rfl⟩⟩
  · refine List.forall_mem_append.mpr ⟨fun x hx u hu i hi => ?_, List.forall_mem_singleton.mpr fun u hu i hi => ?_⟩
    · rw [hloc.frame _ i fun hit => hfree i hit x hx u hu hi]
      exact h.owned x hx u hu i hi
    · obtain rfl : t = u := Option.some.inj (ht.symm.trans hu)
      exact hloc.same _ _ hagree i hi
  · intro i hi
    obtain ⟨hi, hit⟩ := List.forall_mem_append.mp hi
    rw [hloc.frame _ i (List.forall_mem_singleton.mp hit t ht)]
    exact h.unowned i hi
  · rw [List.map_append, List.sum_append, List.map_singleton, List.sum_singleton, gain_eq ht,
      hloc.gain _ _ hagree, ← add_assoc, ← h.sum, add_sub_cancel]

omit [DecidableEq L] in
theorem sum_map_update {X : Type} {key : X → Nat} {f f' : X → A} {d : A} {x : X} {l : List X}
    (hn : (l.map key).Nodup) (hx : x ∈ l) (hf : f' x = f x + d) (hne : ∀ y ∈ l, key y ≠ key x → f' y = f y) :
    (l.map f').sum = (l.map f).sum + d := by
  induction l with
  | nil => cases hx
  | cons y l ih =>
    obtain ⟨hy, hn⟩ := List.nodup_cons.mp hn
    obtain ⟨hhead, htail⟩ := List.forall_mem_cons.mp hne
    rw [List.map_cons, List.map_cons, List.sum_cons, List.sum_cons]
    obtain rfl | hx := List.mem_cons.mp hx
    · have hsame : l.map f' = l.map f :=
        List.map_congr_left fun z hz => htail z hz fun he => hy (he ▸ List.mem_map_of_mem hz)
      rw [hsame, hf]
      abel
    · rw [ih hn hx htail, hhead fun he => hy (he ▸ List.mem_map_of_mem hx)]
      abel

/-- A step of a thread that has its place: what it will do in all stays the
same, and others notice nothing of it. -/
structure Moves (D : Layout L σ I V A) (sem : (a : Act) → σ → Ans a × σ) (t : Thread L Ans ω α) (mem : σ)
    (t' : Thread L Ans ω α) (mem' : σ) : Prop where
  op : t'.op = t.op
  eval : t'.prog.eval sem mem' = t.prog.eval sem mem
  frame : ∀ i ∉ items D t.held, D.cell mem' i = D.cell mem i
  sum : items D t.held = ∅ → D.sum mem' = D.sum mem
  shrinks : items D t'.held ⊆ items D t.held
  released : ∀ i ∈ items D t.held, i ∉ items D t'.held → D.cell (t'.prog.eval sem mem').2 i = D.cell mem' i
  obeys : ∃ ph, ph ≠ .growing ∧ Obeys D sem ph t'.held t'.prog

theorem moves_lock {o : ω} {m : Mode} {l : L} {k : Prog L Ans α} {held : List (L × Mode)} {w w' : Bool} {ph : Phase}
    (mem : σ) (hph : ph ≠ .growing) (hobey : Obeys D sem ph held (.lock m l k)) :
    Moves D sem ⟨o, .lock m l k, held, w⟩ mem ⟨o, k, (l, m) :: held, w'⟩ mem := by
  have hitems : items D ((l, m) :: held) = items D held := items_cons_of_ne fun i hi => hph (hobey.1 ⟨i, hi⟩).1
  exact ⟨rfl, rfl, fun _ _ => rfl, fun _ => rfl, hitems.subset, fun i hi hn => absurd (hitems.symm ▸ hi) hn,
    ph, hph, hobey.2⟩

theorem moves_takes {ts : List (Thread L Ans ω α)} {mem mem' : σ} {ph : Phase} (h : Takes sem ts t mem t' mem')
    (hph : ph ≠ .growing) (hobey : Obeys D sem ph t.held t.prog) : Moves D sem t mem t' mem' := by
  cases h with
  | act o a k held w mem =>
    refine ⟨rfl, rfl, fun i hi => ?_, fun hnone => ?_, subset_rfl, fun i hi hn => absurd hi hn,
      ph.settle, Phase.settle_ne, hobey.2 _⟩
    · obtain ha | ⟨_, _, ha⟩ := hobey.1
      · exact ha.frame mem i
      · exact ha.frame mem i hi
    · obtain ha | ⟨_, hsome, _⟩ := hobey.1
      · exact ha.gain mem
      · exact absurd hnone hsome.ne_empty
  | unlock o m l k w mem hm =>
    refine ⟨rfl, rfl, fun _ _ => rfl, fun _ => rfl, items_erase_subset, fun i hi hn => ?_, ?_⟩
    · by_cases hg : ∃ i, D.guard i = l
      · exact (eval_unseen (by simp) (.inl rfl) (hobey.1 hg)).frame mem i
      · rw [items_erase_of_ne (not_exists.mp hg)] at hn
        exact absurd hi hn
    · by_cases hg : ∃ i, D.guard i = l
      · exact ⟨.shrinking, by simp, hobey.1 hg⟩
      · exact ⟨ph.settle, Phase.settle_ne, hobey.2 (not_exists.mp hg)⟩
  | enter => exact moves_lock mem hph hobey
  | announce => exact ⟨rfl, rfl, fun _ _ => rfl, fun _ => rfl, subset_rfl, fun i hi hn => absurd hi hn, ph, hph, hobey⟩
  | lock => exact moves_lock mem hph hobey

section Move

variable {x : Commit ω α} (h : Serial D sem code s₀ S log G) (hex : Exclusive S) (hx : x ∈ log)
  (ht : S.threads[x.index]? = some t) (hm : Moves D sem t S.mem t' S'.mem)
  (hset : S'.threads = S.threads.set x.index t')

omit [DecidableEq L] in
include ht hset in
theorem moved_self : S'.threads[x.index]? = some t' := by
  rw [hset, List.getElem?_set_self (List.getElem?_eq_some_iff.mp ht).1]

omit [DecidableEq L] in
include hset in
theorem moved_other {k : Nat} (hk : k ≠ x.index) : S'.threads[k]? = S.threads[k]? := by
  rw [hset, List.getElem?_set_ne hk.symm]

include hex ht hm in
theorem agree_other {k : Nat} {u : Thread L Ans ω α} (hk : k ≠ x.index) (hu : S.threads[k]? = some u) :
    Agree D (items D u.held) S.mem S'.mem := by
  refine ⟨fun i hi => (hm.frame i (items_disjoint hex hu ht hk hi)).symm, fun hall => (hm.sum ?_).symm⟩
  exact Set.eq_empty_iff_forall_notMem.mpr fun i =>
    items_disjoint hex hu ht hk (hall ▸ Set.mem_univ i)

include h hex hx ht hm hset in
theorem Serial.move : Serial D sem code s₀ S' log G := by
  have hself := moved_self ht hset
  have hindex : ∀ y ∈ log, y.index = x.index → y = x := fun y hy he => List.inj_on_of_nodup_map h.nodup hy hx he
  have hother : ∀ y ∈ log, y.index ≠ x.index → ∀ u, S.threads[y.index]? = some u →
      Local D (items D u.held) (u.prog.eval sem) ∧ Agree D (items D u.held) S.mem S'.mem := by
    intro y hy hne u hu
    obtain ⟨u', hu', _, ⟨ph, hph, hobey⟩, _⟩ := h.settled y hy
    obtain rfl : u = u' := Option.some.inj (hu.symm.trans hu')
    exact ⟨eval_local hph hobey, agree_other hex ht hm hne hu⟩
  refine ⟨h.nodup, h.seq, fun y hy => ?_, fun y hy u hu i hi => ?_, fun i hi => ?_, ?_⟩
  · by_cases hne : y.index = x.index
    · obtain rfl := hindex y hy hne
      obtain ⟨t₁, ht₁, hop, _, hres⟩ := h.settled y hy
      obtain rfl : t = t₁ := Option.some.inj (ht.symm.trans ht₁)
      exact ⟨t', hself, hm.op.trans hop, hm.obeys, by rw [hm.eval, hres]⟩
    · obtain ⟨u, hu, hop, hobey, hres⟩ := h.settled y hy
      obtain ⟨hloc, hagree⟩ := hother y hy hne u hu
      exact ⟨u, (moved_other hset hne).trans hu, hop, hobey, (hloc.answer _ _ hagree).symm.trans hres⟩
  · by_cases hne : y.index = x.index
    · obtain rfl := hindex y hy hne
      obtain rfl : t' = u := Option.some.inj (hself.symm.trans hu)
      rw [hm.eval]
      exact h.owned y hy t ht i (hm.shrinks hi)
    · rw [moved_other hset hne] at hu
      obtain ⟨hloc, hagree⟩ := hother y hy hne u hu
      rw [← hloc.same _ _ hagree i hi]
      exact h.owned y hy u hu i hi
  · have hnot : i ∉ items D t'.held := hi x hx t' hself
    by_cases hit : i ∈ items D t.held
    · rw [← hm.released i hit hnot, hm.eval]
      exact h.owned x hx t ht i hit
    · rw [hm.frame i hit]
      refine h.unowned i fun y hy u hu => ?_
      by_cases hne : y.index = x.index
      · obtain rfl := hindex y hy hne
        obtain rfl : t = u := Option.some.inj (ht.symm.trans hu)
        exact hit
      · exact hi y hy u ((moved_other hset hne).trans hu)
  · have hgain : (log.map fun y => gain D sem S' y.index).sum =
        (log.map fun y => gain D sem S y.index).sum + (D.sum S.mem - D.sum S'.mem) := by
      refine sum_map_update h.nodup hx ?_ fun y hy hne => ?_
      · rw [gain_eq hself, gain_eq ht, hm.eval]
        abel
      · obtain ⟨u, hu, _⟩ := h.settled y hy
        obtain ⟨hloc, hagree⟩ := hother y hy hne u hu
        rw [gain_eq ((moved_other hset hne).trans hu), gain_eq hu]
        exact (hloc.gain _ _ hagree).symm
    rw [hgain, h.sum]
    abel

end Move

structure Pending (D : Layout L σ I V A) (sem : (a : Act) → σ → Ans a × σ) (code : ω → Prog L Ans α)
    (t : Thread L Ans ω α) : Prop where
  obeys : Obeys D sem .growing t.held t.prog
  eval : ∀ s, t.prog.eval sem s = (code t.op).eval sem s

/-- Every thread has its place in the order or is at a lock. -/
def InOrder (D : Layout L σ I V A) (sem : (a : Act) → σ → Ans a × σ) (code : ω → Prog L Ans α) (s₀ : σ)
    (S : System L Ans σ ω α) : Prop :=
  ∃ log G, Serial D sem code s₀ S log G ∧ ∀ (j : Nat) (t : Thread L Ans ω α), S.threads[j]? = some t →
    j ∉ log.map Commit.index → Pending D sem code t ∧ ∃ m l k, t.prog = .lock m l k

theorem inOrder_of_pending (hex : Exclusive S) (h : Serial D sem code s₀ S log G) (ht : S.threads[j]? = some t)
    (hj : j ∉ log.map Commit.index) (hp : Pending D sem code t)
    (hothers : ∀ (k : Nat) (u : Thread L Ans ω α), k ≠ j → S.threads[k]? = some u → k ∉ log.map Commit.index →
      Pending D sem code u ∧ ∃ m l k, u.prog = .lock m l k) : InOrder D sem code s₀ S := by
  obtain hlock | hsettled := disciplined_settled hp.obeys
  · refine ⟨log, G, h, fun k u hu hk => ?_⟩
    by_cases hkj : k = j
    · subst hkj
      obtain rfl : t = u := Option.some.inj (ht.symm.trans hu)
      exact ⟨hp, hlock⟩
    · exact hothers k u hkj hu hk
  · refine ⟨_, _, h.commit hex hj ht hsettled hp.eval, fun k u hu hk => ?_⟩
    have hboth : k ∉ log.map Commit.index ∧ k ≠ j := by simpa [not_or] using hk
    exact hothers k u hboth.2 hu hboth.1

theorem pending_takes {ts : List (Thread L Ans ω α)} {mem mem' : σ} (h : Takes sem ts t mem t' mem')
    (hlock : ∃ m l k, t.prog = .lock m l k) (hp : Pending D sem code t) : mem' = mem ∧ Pending D sem code t' := by
  obtain ⟨m, l, k, hl⟩ := hlock
  cases h with
  | act => cases hl
  | unlock => cases hl
  | enter => exact ⟨rfl, hp.obeys.2, hp.eval⟩
  | announce => exact ⟨rfl, hp.obeys, hp.eval⟩
  | lock => exact ⟨rfl, hp.obeys.2, hp.eval⟩

theorem inOrder_start {o : ω} (hobey : Obeys D sem .growing [] (code o)) (hex : Exclusive S)
    (h : InOrder D sem code s₀ S) :
    InOrder D sem code s₀ { S with threads := S.threads ++ [⟨o, code o, [], false⟩] } := by
  obtain ⟨log, G, hserial, hpending⟩ := h
  have hold : ∀ x ∈ log, x.index < S.threads.length := fun x hx => by
    obtain ⟨t, ht, _⟩ := hserial.settled x hx
    exact (List.getElem?_eq_some_iff.mp ht).1
  have hserial' : Serial D sem code s₀ { S with threads := S.threads ++ [⟨o, code o, [], false⟩] } log G :=
    hserial.congr rfl fun x hx => List.getElem?_append_left (hold x hx)
  refine inOrder_of_pending (exclusive_start hex) hserial' (List.getElem?_concat_length ..) (fun hmem => ?_)
    ⟨hobey, fun _ => rfl⟩ fun k u hk hu => ?_
  · obtain ⟨x, hx, he⟩ := List.mem_map.mp hmem
    exact absurd (hold x hx) (by omega)
  · obtain ⟨hlt, _⟩ := List.getElem?_eq_some_iff.mp hu
    rw [List.length_append, List.length_singleton] at hlt
    rw [List.getElem?_append_left (by omega)] at hu
    exact hpending k u hu

theorem inOrder_step (hex : Exclusive S) (h : InOrder D sem code s₀ S) (hs : step sem S j = some S') :
    InOrder D sem code s₀ S' := by
  obtain ⟨log, G, hserial, hpending⟩ := h
  obtain ⟨t, t', ht, htakes, hset⟩ := step_eq_some_iff.mp hs
  have hother : ∀ k, k ≠ j → S'.threads[k]? = S.threads[k]? := fun k hk => by rw [hset, List.getElem?_set_ne hk.symm]
  have hself : S'.threads[j]? = some t' := by rw [hset, List.getElem?_set_self (List.getElem?_eq_some_iff.mp ht).1]
  by_cases hj : j ∈ log.map Commit.index
  · obtain ⟨x, hx, rfl⟩ := List.mem_map.mp hj
    obtain ⟨t₁, ht₁, _, ⟨ph, hph, hobey⟩, _⟩ := hserial.settled x hx
    obtain rfl : t = t₁ := Option.some.inj (ht.symm.trans ht₁)
    refine ⟨log, G, hserial.move hex hx ht (moves_takes htakes hph hobey) hset, fun k u hu hk => ?_⟩
    have hne : k ≠ x.index := fun he => hk (he ▸ hj)
    exact hpending k u ((hother k hne).symm.trans hu) hk
  · obtain ⟨hp, hlock⟩ := hpending j t ht hj
    obtain ⟨hmem, hp'⟩ := pending_takes htakes hlock hp
    have hserial' : Serial D sem code s₀ S' log G :=
      hserial.congr hmem fun x hx => hother _ fun he => hj (he ▸ List.mem_map_of_mem hx)
    exact inOrder_of_pending (exclusive_step hex hs) hserial' hself hj hp' fun k u hk hu =>
      hpending k u ((hother k hk).symm.trans hu)

theorem inOrder_run (hcode : ∀ o, Obeys D sem .growing [] (code o)) {es : List (Event ω)}
    (hrun : run sem code ⟨s₀, []⟩ es = some S) : InOrder D sem code s₀ S := by
  refine (run_invariant (I := fun S => Exclusive S ∧ InOrder D sem code s₀ S) ?_ ?_ ⟨?_, ?_⟩ hrun).2
  · exact fun S o h => ⟨exclusive_start h.1, inOrder_start (hcode o) h.1 h.2⟩
  · exact fun S S' j h hs => ⟨exclusive_step h.1 hs, inOrder_step h.1 h.2 hs⟩
  · intro i j t u l m hi
    simp at hi
  · exact ⟨[], s₀, ⟨List.nodup_nil, rfl, by simp, by simp, fun _ _ => rfl, by simp⟩, by simp⟩

omit [AddCommGroup A] [DecidableEq L] in
theorem filterMap_range {X Y : Type} (l : List X) (f : X → Y) :
    (List.range l.length).filterMap (fun j => l[j]?.map f) = l.map f := by
  have hget : ((fun j => l[j]?.map f) ∘ fun i : Fin l.length => (i : Nat)) = some ∘ fun i => f l[i] :=
    funext fun i => by simp
  rw [← List.map_coe_finRange_eq_range, List.filterMap_map, hget, List.filterMap_eq_map, ← List.ofFn_eq_map]
  exact List.ofFn_getElem_eq_map l f

theorem log_perm (h : Serial D sem code s₀ S log G)
    (hall : ∀ j (t : Thread L Ans ω α), S.threads[j]? = some t → j ∈ log.map Commit.index)
    (hdone : ∀ t ∈ S.threads, t.prog.isDone = true) :
    (log.map fun x => (x.op, (.done x.result : Prog L Ans α))).Perm (S.threads.map fun t => (t.op, t.prog)) := by
  have hindex : (log.map Commit.index).Perm (List.range S.threads.length) := by
    refine (List.perm_ext_iff_of_nodup h.nodup List.nodup_range).mpr fun j => ?_
    rw [List.mem_range]
    constructor
    · intro hj
      obtain ⟨x, hx, rfl⟩ := List.mem_map.mp hj
      obtain ⟨t, ht, _⟩ := h.settled x hx
      exact (List.getElem?_eq_some_iff.mp ht).1
    · exact fun hj => hall j _ (List.getElem?_eq_getElem hj)
  let view : Nat → Option (ω × Prog L Ans α) := fun j => S.threads[j]?.map fun t => (t.op, t.prog)
  have hcommit : ∀ x ∈ log, view x.index = some (x.op, .done x.result) := by
    intro x hx
    obtain ⟨t, ht, hop, _, hres⟩ := h.settled x hx
    have hd := hdone t (List.mem_of_getElem? ht)
    simp only [view, ht, Option.map_some, hop]
    cases hp : t.prog with
    | done a =>
      rw [hp] at hres
      rw [← hres]
      rfl
    | _ =>
      rw [hp] at hd
      cases hd
  have hlog : (log.map Commit.index).filterMap view = log.map fun x => (x.op, .done x.result) := by
    rw [List.filterMap_map, ← List.filterMap_eq_map]
    exact List.filterMap_congr hcommit
  rw [← hlog, ← filterMap_range S.threads]
  exact hindex.filterMap view

/-- Two-phase locking is serializable: once all operations of a run are
finished, they have the results they have one after the other in some order,
and the cells and the sum are as that order leaves them. -/
theorem serializable (hcode : ∀ o, Obeys D sem .growing [] (code o)) {es : List (Event ω)}
    (hrun : run sem code ⟨s₀, []⟩ es = some S) (hdone : ∀ t ∈ S.threads, t.prog.isDone = true) :
    ∃ order : List (ω × α),
      (order.map fun x => (x.1, (.done x.2 : Prog L Ans α))).Perm (S.threads.map fun t => (t.op, t.prog)) ∧
      (serial sem code s₀ (order.map Prod.fst)).1 = order.map Prod.snd ∧
      (∀ i, D.cell (serial sem code s₀ (order.map Prod.fst)).2 i = D.cell S.mem i) ∧
      D.sum (serial sem code s₀ (order.map Prod.fst)).2 = D.sum S.mem := by
  obtain ⟨log, G, h, hpending⟩ := inOrder_run hcode hrun
  have hall : ∀ (j : Nat) (t : Thread L Ans ω α), S.threads[j]? = some t → j ∈ log.map Commit.index := by
    intro j t ht
    by_contra hj
    obtain ⟨_, m, l, k, hlock⟩ := hpending j t ht hj
    have hd := hdone t (List.mem_of_getElem? ht)
    rw [hlock] at hd
    cases hd
  have hend : ∀ (j : Nat) (t : Thread L Ans ω α), S.threads[j]? = some t → (t.prog.eval sem S.mem).2 = S.mem := by
    intro j t ht
    have hd := hdone t (List.mem_of_getElem? ht)
    cases hp : t.prog with
    | done a => rfl
    | _ =>
      rw [hp] at hd
      cases hd
  refine ⟨log.map fun x => (x.op, x.result), ?_, ?_⟩
  · rw [List.map_map]
    exact log_perm h hall hdone
  · have hops : (log.map fun x => (x.op, x.result)).map Prod.fst = log.map Commit.op := by simp
    have hresults : (log.map fun x => (x.op, x.result)).map Prod.snd = log.map Commit.result := by simp
    rw [hops, hresults, h.seq]
    refine ⟨rfl, fun i => ?_, ?_⟩
    · by_cases hown : ∃ x ∈ log, ∃ t, S.threads[x.index]? = some t ∧ i ∈ items D t.held
      · obtain ⟨x, hx, t, ht, hi⟩ := hown
        rw [← h.owned x hx t ht i hi, hend x.index t ht]
      · exact (h.unowned i fun x hx t ht hi => hown ⟨x, hx, t, ht, hi⟩).symm
    · have hzero : (log.map fun x => gain D sem S x.index).sum = 0 := by
        refine List.sum_eq_zero fun g hg => ?_
        obtain ⟨x, hx, rfl⟩ := List.mem_map.mp hg
        obtain ⟨t, ht, _⟩ := h.settled x hx
        rw [gain_eq ht, hend x.index t ht, sub_self]
      rw [h.sum, hzero, add_zero]

end MemX.TwoPhaseRun
