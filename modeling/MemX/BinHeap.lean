import MemX.MinQueue

namespace MemX.BinHeap

/-! A binary min-heap in an array, as `container/heap` keeps it: the children of
position `i` are `2 * i + 1` and `2 * i + 2`. -/

variable {α : Type} (rank : α → Int)

def less (h : Array α) (i j : Nat) : Bool :=
  match h[i]?, h[j]? with
  | some x, some y => rank x < rank y
  | _, _ => false

def up : Nat → Array α → Nat → Array α
  | 0, h, _ => h
  | fuel + 1, h, j =>
    let i := (j - 1) / 2
    if i = j ∨ less rank h j i = false then h else up fuel (h.swapIfInBounds i j) i

/-- The smaller child of `i` below `n`, the left one when they are equal. -/
def child (h : Array α) (n i : Nat) : Nat :=
  if 2 * i + 2 < n ∧ less rank h (2 * i + 2) (2 * i + 1) = true then 2 * i + 2 else 2 * i + 1

def down (n : Nat) : Nat → Array α → Nat → Array α
  | 0, h, _ => h
  | fuel + 1, h, i =>
    if n ≤ 2 * i + 1 then h
    else
      let j := child rank h n i
      if less rank h j i = false then h else down n fuel (h.swapIfInBounds i j) j

def push (x : α) (h : Array α) : Array α := up rank (h.size + 1) (h.push x) h.size

/-- `Pop`; on an empty heap the library panics. -/
def pop (h : Array α) : Option (α × Array α) :=
  let n := h.size - 1
  let h := down rank n h.size (h.swapIfInBounds 0 n) 0
  h[n]?.map fun x => (x, h.pop)

def popWhile (bound : Int) : Nat → Array α → List α × Array α
  | 0, h => ([], h)
  | fuel + 1, h =>
    match h[0]? with
    | none => ([], h)
    | some x =>
      if rank x ≤ bound then
        match pop rank h with
        | none => ([], h)
        | some (y, h) => (y :: (popWhile bound fuel h).1, (popWhile bound fuel h).2)
      else ([], h)

def key (h : Array α) (i : Nat) : Int := h[i]?.elim 0 rank

variable {rank} {h : Array α} {i j n : Nat}

theorem less_eq (hi : i < h.size) (hj : j < h.size) : less rank h i j = decide (key rank h i < key rank h j) := by
  simp only [less, key, Array.getElem?_eq_getElem hi, Array.getElem?_eq_getElem hj, Option.elim_some]

theorem getElem?_swap (hi : i < h.size) (hj : j < h.size) (k : Nat) :
    (h.swapIfInBounds i j)[k]? = h[if k = i then j else if k = j then i else k]? := by
  rw [Array.swapIfInBounds_def, dif_pos hi, dif_pos hj, Array.getElem?_swap]
  by_cases hkj : k = j
  · by_cases hki : k = i
    · simp [← hkj, ← hki]
    · simp [hkj, Array.getElem?_eq_getElem hi, show ¬ j = i from hkj ▸ hki]
  · by_cases hki : k = i
    · simp [hki, Array.getElem?_eq_getElem hj, show ¬ j = i from fun h => hkj (hki.trans h.symm)]
    · simp [hki, hkj, show ¬ i = k from fun h => hki h.symm, show ¬ j = k from fun h => hkj h.symm]

theorem key_swap (hi : i < h.size) (hj : j < h.size) (k : Nat) :
    key rank (h.swapIfInBounds i j) k = key rank h (if k = i then j else if k = j then i else k) := by
  rw [key, getElem?_swap hi hj]
  rfl

theorem swap_perm (h : Array α) (i j : Nat) : (h.swapIfInBounds i j).toList.Perm h.toList := by
  rw [Array.swapIfInBounds_def]
  split_ifs with hi hj
  · exact (Array.swap_perm hi hj).toList
  · exact List.Perm.refl _
  · exact List.Perm.refl _

/-- No position below `n` is smaller than its parent. -/
def Ordered (k : Nat → Int) (n : Nat) : Prop := ∀ c, 0 < c → c < n → k ((c - 1) / 2) ≤ k c

/-- Only `j` may be smaller than its parent, and the children of `j` are not. -/
structure UpOrder (k : Nat → Int) (n j : Nat) : Prop where
  other : ∀ c, 0 < c → c < n → c ≠ j → k ((c - 1) / 2) ≤ k c
  below : ∀ c, 0 < c → c < n → (c - 1) / 2 = j → 0 < j → k ((j - 1) / 2) ≤ k c

/-- Only the children of `i` may be smaller than `i`, and not smaller than its
parent. -/
structure DownOrder (k : Nat → Int) (n i : Nat) : Prop where
  other : ∀ c, 0 < c → c < n → (c - 1) / 2 ≠ i → k ((c - 1) / 2) ≤ k c
  below : ∀ c, 0 < c → c < n → (c - 1) / 2 = i → 0 < i → k ((i - 1) / 2) ≤ k c

theorem UpOrder.finish {k : Nat → Int} (o : UpOrder k n j) (hj : 0 < j → k ((j - 1) / 2) ≤ k j) : Ordered k n := by
  intro c h₀ hc
  by_cases hcj : c = j
  · exact hcj ▸ hj (hcj ▸ h₀)
  · exact o.other c h₀ hc hcj

theorem UpOrder.move {k k' : Nat → Int} (o : UpOrder k n j) (hj : 0 < j) (hn : j < n) (hless : k j < k ((j - 1) / 2))
    (hk : ∀ x, k' x = k (if x = (j - 1) / 2 then j else if x = j then (j - 1) / 2 else x)) :
    UpOrder k' n ((j - 1) / 2) := by
  have hp : (j - 1) / 2 < j := by omega
  have hpar : ∀ x, x ≠ (j - 1) / 2 → x ≠ j → k' x = k x := fun x h₁ h₂ => by rw [hk, if_neg h₁, if_neg h₂]
  have htop : k' ((j - 1) / 2) = k j := by rw [hk, if_pos rfl]
  have hdown : k' j = k ((j - 1) / 2) := by rw [hk, if_neg (by omega), if_pos rfl]
  constructor
  · intro c h₀ hc hcp
    by_cases hcj : c = j
    · rw [hcj, hdown, htop]
      omega
    · rw [hpar c hcp hcj]
      by_cases h₁ : (c - 1) / 2 = j
      · rw [h₁, hdown]
        exact o.below c h₀ hc h₁ hj
      · have hold := o.other c h₀ hc hcj
        by_cases h₂ : (c - 1) / 2 = (j - 1) / 2
        · rw [h₂] at hold ⊢
          rw [htop]
          omega
        · rwa [hpar _ h₂ h₁]
  · intro c h₀ hc hcp hp₀
    have hup := o.other ((j - 1) / 2) hp₀ (by omega) (by omega)
    rw [hpar _ (by omega) (by omega)]
    by_cases hcj : c = j
    · rw [hcj, hdown]
      exact hup
    · rw [hpar c (by omega) hcj]
      have hold := o.other c h₀ hc hcj
      rw [hcp] at hold
      omega

theorem up_spec (fuel : Nat) (hf : j < fuel) (hj : j < h.size) (o : UpOrder (key rank h) h.size j) :
    Ordered (key rank (up rank fuel h j)) h.size ∧ (up rank fuel h j).toList.Perm h.toList := by
  induction fuel generalizing h j with
  | zero => omega
  | succ fuel ih =>
    have hp : (j - 1) / 2 < h.size := by omega
    rw [up, less_eq hj hp]
    split_ifs with hstop
    · refine ⟨o.finish fun h₀ => ?_, List.Perm.refl _⟩
      obtain hroot | hle := hstop
      · omega
      · simpa using hle
    · rw [not_or, Bool.not_eq_false, decide_eq_true_eq] at hstop
      have hsize : (h.swapIfInBounds ((j - 1) / 2) j).size = h.size := Array.size_swapIfInBounds
      have hmove := o.move (by omega) hj hstop.2 (key_swap hp hj)
      rw [← hsize] at hmove
      obtain ⟨hord, hperm⟩ := ih (by omega) (by rwa [hsize]) hmove
      rw [hsize] at hord
      exact ⟨hord, hperm.trans (swap_perm h _ _)⟩

theorem DownOrder.finish {k : Nat → Int} (o : DownOrder k n i)
    (hi : ∀ c, 0 < c → c < n → (c - 1) / 2 = i → k i ≤ k c) : Ordered k n := by
  intro c h₀ hc
  by_cases hci : (c - 1) / 2 = i
  · rw [hci]
    exact hi c h₀ hc hci
  · exact o.other c h₀ hc hci

theorem DownOrder.move {k k' : Nat → Int} (o : DownOrder k n i) (hj : j = 2 * i + 1 ∨ j = 2 * i + 2) (hn : j < n)
    (hless : k j < k i) (hmin : ∀ c, 0 < c → c < n → (c - 1) / 2 = i → k j ≤ k c)
    (hk : ∀ x, k' x = k (if x = i then j else if x = j then i else x)) : DownOrder k' n j := by
  have hpj : (j - 1) / 2 = i := by omega
  have hother : ∀ x, x ≠ i → x ≠ j → k' x = k x := fun x h₁ h₂ => by rw [hk, if_neg h₁, if_neg h₂]
  have htop : k' i = k j := by rw [hk, if_pos rfl]
  have hdown : k' j = k i := by rw [hk, if_neg (by omega), if_pos rfl]
  constructor
  · intro c h₀ hc hcj
    by_cases hci : c = i
    · rw [hci, htop, hother _ (by omega) (by omega)]
      exact o.below j (by omega) hn hpj (hci ▸ h₀)
    · by_cases hpi : (c - 1) / 2 = i
      · rw [hpi, htop]
        by_cases hcj' : c = j
        · rw [hcj', hdown]
          omega
        · rw [hother c hci hcj']
          exact hmin c h₀ hc hpi
      · rw [hother _ hpi hcj]
        by_cases hcj' : c = j
        · exact absurd (hcj' ▸ hpj) hpi
        · rw [hother c hci hcj']
          exact o.other c h₀ hc hpi
  · intro c h₀ hc hcj _
    rw [hpj, htop, hother c (by omega) (by omega)]
    have hold := o.other c h₀ hc (by omega)
    rwa [hcj] at hold

theorem child_cases (h : Array α) (n i : Nat) : child rank h n i = 2 * i + 1 ∨ child rank h n i = 2 * i + 2 := by
  unfold child
  split_ifs
  · exact .inr rfl
  · exact .inl rfl

theorem child_lt (h : Array α) (hn : 2 * i + 1 < n) : child rank h n i < n := by
  unfold child
  split_ifs with hc
  · exact hc.1
  · exact hn

theorem child_min (hsize : n ≤ h.size) {c : Nat} (h₀ : 0 < c) (hc : c < n) (hci : (c - 1) / 2 = i) :
    key rank h (child rank h n i) ≤ key rank h c := by
  have hcase : c = 2 * i + 1 ∨ c = 2 * i + 2 := by omega
  unfold child
  split_ifs with hpick
  · rw [less_eq (by omega) (by omega), decide_eq_true_eq] at hpick
    obtain rfl | rfl := hcase
    · omega
    · exact le_rfl
  · obtain rfl | rfl := hcase
    · exact le_rfl
    · rw [less_eq (by omega) (by omega), decide_eq_true_eq] at hpick
      by_contra hlt
      exact hpick ⟨hc, by omega⟩

theorem down_spec (fuel : Nat) (hf : n ≤ i + fuel) (hsize : n ≤ h.size) (o : DownOrder (key rank h) n i) :
    Ordered (key rank (down rank n fuel h i)) n ∧ (down rank n fuel h i).toList.Perm h.toList ∧
      ∀ m, n ≤ m → (down rank n fuel h i)[m]? = h[m]? := by
  induction fuel generalizing h i with
  | zero => exact ⟨o.finish fun c _ _ _ => by omega, List.Perm.refl _, fun _ _ => rfl⟩
  | succ fuel ih =>
    rw [down]
    split_ifs with hleaf
    · exact ⟨o.finish fun c _ _ _ => by omega, List.Perm.refl _, fun _ _ => rfl⟩
    · have hcase : child rank h n i = 2 * i + 1 ∨ child rank h n i = 2 * i + 2 := child_cases h n i
      have hlt : child rank h n i < n := child_lt h (Nat.lt_of_not_le hleaf)
      have hmin : ∀ c, 0 < c → c < n → (c - 1) / 2 = i → key rank h (child rank h n i) ≤ key rank h c :=
        fun c => child_min hsize
      simp only
      generalize child rank h n i = j at hcase hlt hmin
      have hi : i < h.size := by omega
      have hj : j < h.size := by omega
      rw [less_eq hj hi]
      split_ifs with hstop
      · rw [decide_eq_false_iff_not] at hstop
        refine ⟨o.finish fun c h₀ hc hci => ?_, List.Perm.refl _, fun _ _ => rfl⟩
        have hle := hmin c h₀ hc hci
        omega
      · rw [Bool.not_eq_false, decide_eq_true_eq] at hstop
        have hs : (h.swapIfInBounds i j).size = h.size := Array.size_swapIfInBounds
        have hmove := o.move hcase hlt hstop hmin (key_swap hi hj)
        obtain ⟨hord, hperm, hrest⟩ := ih (by omega) (by rwa [hs]) hmove
        refine ⟨hord, hperm.trans (swap_perm h _ _), fun m hm => ?_⟩
        rw [hrest m hm, getElem?_swap hi hj, if_neg (by omega), if_neg (by omega)]

theorem Ordered.root_le {k : Nat → Int} (o : Ordered k n) (hj : j < n) : k 0 ≤ k j := by
  induction j using Nat.strong_induction_on with
  | _ j ih =>
    by_cases h₀ : j = 0
    · rw [h₀]
    · have hparent := ih ((j - 1) / 2) (by omega) (by omega)
      exact hparent.trans (o j (by omega) hj)

theorem Ordered.congr {k k' : Nat → Int} (o : Ordered k n) (h : ∀ m, m < n → k' m = k m) : Ordered k' n := by
  intro c h₀ hc
  rw [h c hc, h _ (by omega)]
  exact o c h₀ hc

theorem key_push_lt (x : α) (hi : i < h.size) : key rank (h.push x) i = key rank h i := by
  rw [key, key, Array.getElem?_push, if_neg (by omega)]

def IsHeap (rank : α → Int) (h : Array α) : Prop := Ordered (key rank h) h.size

theorem isHeap_empty : IsHeap rank (#[] : Array α) := fun c _ hc => absurd hc (Nat.not_lt_zero c)

theorem push_spec (x : α) (hh : IsHeap rank h) :
    IsHeap rank (push rank x h) ∧ (push rank x h).toList.Perm (x :: h.toList) := by
  have hsize : (h.push x).size = h.size + 1 := Array.size_push x
  have horder : UpOrder (key rank (h.push x)) (h.push x).size h.size := by
    constructor
    · intro c h₀ hc hne
      rw [key_push_lt x (by omega), key_push_lt x (by omega)]
      exact hh c h₀ (by omega)
    · intro c h₀ hc hcp _
      omega
  obtain ⟨hord, hperm⟩ := up_spec (h.size + 1) (by omega) (by omega) horder
  have hlen : (push rank x h).size = (h.push x).size := by
    rw [← Array.length_toList, ← Array.length_toList]
    exact hperm.length_eq
  refine ⟨?_, hperm.trans ?_⟩
  · rw [IsHeap, hlen]
    exact hord
  · rw [Array.toList_push]
    exact List.perm_append_singleton x h.toList

theorem pop_spec (hh : IsHeap rank h) {x : α} (hx : h[0]? = some x) :
    ∃ h', pop rank h = some (x, h') ∧ IsHeap rank h' ∧ (x :: h'.toList).Perm h.toList ∧
      ∀ y ∈ h.toList, rank x ≤ rank y := by
  obtain ⟨hpos, -⟩ := Array.getElem?_eq_some_iff.mp hx
  have hlast : h.size - 1 < h.size := by omega
  have hs : (h.swapIfInBounds 0 (h.size - 1)).size = h.size := Array.size_swapIfInBounds
  have horder : DownOrder (key rank (h.swapIfInBounds 0 (h.size - 1))) (h.size - 1) 0 := by
    constructor
    · intro c h₀ hc hcp
      rw [key_swap hpos hlast, key_swap hpos hlast, if_neg (by omega), if_neg (by omega), if_neg (by omega),
        if_neg (by omega)]
      exact hh c h₀ (by omega)
    · intro c _ _ _ h₀
      omega
  obtain ⟨hord, hperm, hrest⟩ := down_spec h.size (by omega) (by omega) horder
  have htop : (h.swapIfInBounds 0 (h.size - 1))[h.size - 1]? = some x := by
    rw [getElem?_swap hpos hlast]
    by_cases h₀ : h.size - 1 = 0
    · rw [if_pos h₀, h₀, hx]
    · rw [if_neg h₀, if_pos rfl, hx]
  have hpop : pop rank h = some (x, (down rank (h.size - 1) h.size (h.swapIfInBounds 0 (h.size - 1)) 0).pop) := by
    simp only [pop]
    rw [hrest _ le_rfl, htop]
    rfl
  rw [hpop]
  have hget := (hrest _ le_rfl).trans htop
  generalize down rank (h.size - 1) h.size (h.swapIfInBounds 0 (h.size - 1)) 0 = d at hord hperm hget
  have hsize : d.size = h.size := by
    have hlen := hperm.length_eq
    rwa [Array.length_toList, Array.length_toList, hs] at hlen
  refine ⟨d.pop, rfl, ?_, ?_, ?_⟩
  · rw [IsHeap, Array.size_pop, hsize]
    refine hord.congr fun m hm => ?_
    rw [key, key, Array.getElem?_pop, if_pos (by omega)]
  · have hconcat : d.pop.toList ++ [x] = d.toList := by
      rw [Array.toList_pop]
      refine List.dropLast_append_getLast? x ?_
      rw [List.getLast?_eq_getElem?, Array.length_toList, hsize, Array.getElem?_toList]
      exact hget
    calc (x :: d.pop.toList).Perm (d.pop.toList ++ [x]) := (List.perm_append_singleton x _).symm
      _ = d.toList := hconcat
      List.Perm _ (h.swapIfInBounds 0 (h.size - 1)).toList := hperm
      List.Perm _ h.toList := swap_perm h _ _
  · intro y hy
    obtain ⟨m, hm, hmy⟩ := List.getElem_of_mem hy
    rw [Array.length_toList] at hm
    have hle := hh.root_le hm
    rw [Array.getElem_toList] at hmy
    simpa only [key, hx, Array.getElem?_eq_getElem hm, hmy, Option.elim_some] using hle

theorem popWhile_spec (bound : Int) (fuel : Nat) (hf : h.size ≤ fuel) (hh : IsHeap rank h) :
    IsHeap rank (popWhile rank bound fuel h).2 ∧
      (popWhile rank bound fuel h).1.Perm (h.toList.filter fun x => rank x ≤ bound) ∧
      (popWhile rank bound fuel h).2.toList.Perm (h.toList.filter fun x => ¬ rank x ≤ bound) := by
  have hnone : ∀ g : Array α, g[0]? = none → g.toList = [] := by
    intro g hg
    have hz := Array.getElem?_eq_none_iff.mp hg
    exact List.length_eq_zero_iff.mp (by rw [Array.length_toList]; omega)
  induction fuel generalizing h with
  | zero =>
    rw [popWhile, hnone h (Array.getElem?_eq_none hf)]
    exact ⟨hh, List.Perm.refl _, List.Perm.refl _⟩
  | succ fuel ih =>
    rw [popWhile]
    cases hx : h[0]? with
    | none =>
      rw [hnone h hx]
      exact ⟨hh, List.Perm.refl _, List.Perm.refl _⟩
    | some x =>
      obtain ⟨h', hpop, hh', hperm, hmin⟩ := pop_spec hh hx
      simp only
      split_ifs with hle
      · rw [hpop]
        have hlen := hperm.length_eq
        rw [List.length_cons, Array.length_toList, Array.length_toList] at hlen
        obtain ⟨hord, hdue, hrest⟩ := ih (by omega) hh'
        refine ⟨hord, ?_, ?_⟩
        · have hkeep := hperm.filter fun x => rank x ≤ bound
          rw [List.filter_cons_of_pos (by simpa using hle)] at hkeep
          exact (hdue.cons x).trans hkeep
        · have hdrop := hperm.filter fun x => ¬ rank x ≤ bound
          rw [List.filter_cons_of_neg (by simpa using hle)] at hdrop
          exact hrest.trans hdrop
      · have habove : ∀ y ∈ h.toList, ¬ rank y ≤ bound := by
          intro y hy hyle
          exact hle ((hmin y hy).trans hyle)
        rw [List.filter_eq_nil_iff.mpr (by simpa using habove), List.filter_eq_self.mpr (by simpa using habove)]
        exact ⟨hh, List.Perm.refl _, List.Perm.refl _⟩

end MemX.BinHeap
