import MemX.StoreDebts

namespace MemX.StoreTracked

open DecimalText Clock StoreState StoreRules StoreCalls StoreOps StoreLookup StoreInvariants
open LockProgram StoreLocks LockView StoreDebts

variable {c : Config}

structure Knows (v : View c) (held : List (Lock c × Mode)) (s : Store c) : Prop where
  seen : ∀ k o, v.seen = some (k, o) → StoreOps.lookup s k = o ∧ ∃ m, (.shard (shardIndex c k), m) ∈ held
  cleared : ∀ i ∈ v.cleared, s.shards i = ∅ ∧ (.shard i, .write) ∈ held

/-- Every entry with a deadline has an element with the property `P`. -/
def Covered (s : Store c) (P : ExpEntry → Prop) : Prop :=
  ∀ k e, StoreOps.lookup s k = some e → e.expireAt ≠ 0 → P ⟨e.expireAt, k⟩

theorem Covered.mono {s : Store c} {P P' : ExpEntry → Prop} (h : Covered s P) (hP : ∀ d, P d → P' d) : Covered s P' :=
  fun k e hk h0 => hP _ (h k e hk h0)

section Access

variable {v : View c} {held : List (Lock c × Mode)} {m : Memory c} {a : Access c}

/-- In the gap nothing is done but to drop the heap. -/
theorem eq_dropHeap_of_gap (ha : allowed v held a) (hgap : v.gap = true) : a = .dropHeap := by
  cases a with
  | dropHeap => rfl
  | lookup i key => exact absurd (ha.1.symm.trans hgap) Bool.false_ne_true
  | insert i key e => exact absurd (ha.1.symm.trans hgap) Bool.false_ne_true
  | erase i key => exact absurd (ha.1.symm.trans hgap) Bool.false_ne_true
  | clear i => exact absurd (ha.1.symm.trans hgap) Bool.false_ne_true
  | storeCount n => exact absurd (ha.1.symm.trans hgap) Bool.false_ne_true
  | _ => exact absurd (Eq.trans (Eq.symm ha) hgap) Bool.false_ne_true

theorem perform_frame (ha : allowed v held a) {i : Fin c.shardCount} (hi : (.shard i, .write) ∉ held) :
    (perform a m).2.store.shards i = m.store.shards i := by
  cases a with
  | insert j key e => exact Function.update_of_ne (fun hij : i = j => hi (hij ▸ ha.2.2)) _ _
  | erase j key => exact Function.update_of_ne (fun hij : i = j => hi (hij ▸ ha.2.2)) _ _
  | clear j => exact Function.update_of_ne (fun hij : i = j => hi (hij ▸ ha.2)) _ _
  | _ => rfl

theorem placed_perform (ha : allowed v held a) (h : Placed m.store) : Placed (perform a m).2.store := by
  cases a with
  | insert j key e =>
    obtain ⟨-, rfl, -⟩ := ha
    exact placed_onShard h key _ fun _ _ hk => AList.lookup_insert_ne hk
  | erase j key =>
    obtain ⟨-, rfl, -⟩ := ha
    exact placed_onShard h key _ fun _ _ hk => AList.lookup_erase_ne hk
  | clear j =>
    intro i k hk
    by_cases hij : i = j
    · subst hij
      simp [perform, Memory.on, onShard] at hk
    · refine h i k ?_
      simpa [perform, Memory.on, onShard, hij] using hk
  | _ => exact h

theorem knows_frame {s s' : Store c} (h : Knows v held s)
    (hs : ∀ i m, (.shard i, m) ∈ held → s'.shards i = s.shards i) : Knows v held s' where
  seen k o hseen := by
    obtain ⟨hl, m, hm⟩ := h.seen k o hseen
    exact ⟨by rwa [StoreOps.lookup, hs _ m hm], m, hm⟩
  cleared i hi := by
    obtain ⟨hempty, hm⟩ := h.cleared i hi
    exact ⟨(hs i .write hm).trans hempty, hm⟩

theorem knows_after (ha : allowed v held a) (h : Knows v held m.store) :
    Knows (after v a (perform a m).1) held (perform a m).2.store := by
  cases a with
  | lookup i key =>
    obtain ⟨-, rfl, hm⟩ := ha
    refine ⟨fun k o hseen => ?_, h.cleared⟩
    cases hseen
    exact ⟨rfl, hm⟩
  | insert i key e => exact ⟨by rintro k o ⟨⟩, by rintro i ⟨⟩⟩
  | erase i key => exact ⟨by rintro k o ⟨⟩, by rintro i ⟨⟩⟩
  | storeCount n => exact ⟨by rintro k o ⟨⟩, by rintro i ⟨⟩⟩
  | clear j =>
    refine ⟨by rintro k o ⟨⟩, fun i hi => ?_⟩
    by_cases hij : i = j
    · subst hij
      exact ⟨Function.update_self .., ha.2⟩
    · obtain ⟨hempty, hm⟩ := h.cleared i ((List.mem_cons.mp hi).resolve_left hij)
      exact ⟨(Function.update_of_ne hij _ _).trans hempty, hm⟩
  | _ => exact ⟨h.seen, h.cleared⟩

theorem seen_of_knows {key : Bytes} {deadline : Int} (h : v.knows key deadline = true) :
    ∃ e, v.seen = some (key, some e) ∧ e.expireAt = deadline := by
  unfold View.knows at h
  obtain ⟨⟨k, o⟩, hseen, h⟩ := (Option.any_eq_true _ _).mp h
  obtain ⟨rfl, hmap⟩ : k = key ∧ o.map Entry.expireAt = some deadline := by simpa using h
  obtain ⟨e, rfl, he⟩ := Option.map_eq_some_iff.mp hmap
  exact ⟨e, hseen, he⟩

/-- An access keeps the entries covered: by `H`, which an element that is pushed
comes under, by what the thread owes, or by `O`. -/
theorem covered_after {H O : ExpEntry → Prop} (ha : allowed v held a) (hk : Knows v held m.store)
    (hpush : ∀ d, a = .push d → d.deadline ≠ 0 → H d) (h : Covered m.store fun d => H d ∨ d ∈ v.debts ∨ O d) :
    Covered (perform a m).2.store fun d => H d ∨ d ∈ (after v a (perform a m).1).debts ∨ O d := by
  intro k e hl h0
  cases a with
  | lookup i key =>
    obtain ⟨-, rfl, -⟩ := ha
    refine (h k e hl h0).imp_right (Or.imp_left fun hd => List.mem_filter.mpr ⟨hd, ?_⟩)
    by_cases hkey : k = key
    · subst hkey
      exact decide_eq_true (.inr (congrArg (Option.map Entry.expireAt) hl))
    · exact decide_eq_true (.inl hkey)
  | insert i key new =>
    obtain ⟨-, rfl, -⟩ := ha
    have hl' : StoreOps.lookup (onShard m.store (shardIndex c key) (AList.insert key new)) k = some e := hl
    rw [lookup_onShard _ key k _ fun _ hk => AList.lookup_insert_ne hk] at hl'
    split_ifs at hl' with hkey
    · -- the deadline that is stored is a new debt, or it was covered before
      subst hkey
      obtain rfl : new = e := by simpa using hl'
      by_cases hknown : v.knows k new.expireAt = true
      · obtain ⟨old, hseen, hsame⟩ := seen_of_knows hknown
        have hold := h k old (hk.seen k _ hseen).1 (hsame ▸ h0)
        rw [hsame] at hold
        simpa [after, hknown] using hold
      · exact .inr (.inl (by simp [after, h0, hknown]))
    · refine (h k e hl' h0).imp_right (Or.imp_left fun hd => ?_)
      simp only [after]
      split_ifs
      · exact hd
      · exact List.mem_cons_of_mem _ hd
  | erase i key =>
    obtain ⟨-, rfl, -⟩ := ha
    have hl' : StoreOps.lookup (onShard m.store (shardIndex c key) (AList.erase key)) k = some e := hl
    rw [lookup_onShard _ key k _ fun _ hk => AList.lookup_erase_ne hk, AList.lookup_erase] at hl'
    split_ifs at hl' with hkey
    exact (h k e hl' h0).imp_right (Or.imp_left fun hd => List.mem_filter.mpr ⟨hd, decide_eq_true hkey⟩)
  | clear i =>
    refine h k e ?_ h0
    by_cases hi : shardIndex c k = i
    · subst hi
      simp [StoreOps.lookup, perform, Memory.on, onShard] at hl
    · simpa [StoreOps.lookup, perform, Memory.on, onShard, hi] using hl
  | push d =>
    obtain hH | hd | hO := h k e hl h0
    · exact .inl hH
    · by_cases heq : (⟨e.expireAt, k⟩ : ExpEntry) = d
      · exact .inl (heq ▸ hpush d rfl (heq ▸ h0))
      · exact .inr (.inl (List.mem_filter.mpr ⟨hd, decide_eq_true heq⟩))
    · exact .inr (.inr hO)
  | popDue now => exact (h k e hl h0).imp_right (Or.imp_left fun hd => List.mem_append_right _ hd)
  | _ => exact h k e hl h0

theorem tracked_after {O : ExpEntry → Prop} (ha : allowed v held a) (hk : Knows v held m.store)
    (h : Covered m.store fun d => d ∈ m.store.exp ∨ d ∈ v.debts ∨ O d)
    (hdrop : v.gap = true → Covered m.store fun d => d ∈ v.debts ∨ O d) :
    Covered (perform a m).2.store fun d =>
      d ∈ (perform a m).2.store.exp ∨ d ∈ (after v a (perform a m).1).debts ∨ O d := by
  cases a with
  | push d =>
    refine covered_after ha hk (fun x hx _ => ?_) (h.mono fun x => Or.imp_left fun hx => ?_)
    · cases hx
      exact (MinQueue.mem_push ..).mpr (.inl rfl)
    · exact (MinQueue.mem_push ..).mpr (.inr hx)
  | popDue now =>
    refine (covered_after ha hk (by rintro d ⟨⟩) h).mono fun d hd => ?_
    obtain hexp | hrest := hd
    · obtain hdue | hkept := (MinQueue.mem_due_or_rest now.nanos _ d).mp hexp
      · exact .inr (.inl (List.mem_append_left _ hdue))
      · exact .inl hkept
    · exact .inr hrest
  | dropHeap => exact fun k e hl h0 => .inr (hdrop ha k e hl h0)
  | _ => exact covered_after ha hk (by rintro d ⟨⟩) h

theorem gap_after {P : ExpEntry → Prop} (ha : allowed v held a) (hk : Knows v held m.store)
    (hgap : (after v a (perform a m).1).gap = true) : Covered (perform a m).2.store P := by
  cases a with
  | storeCount n =>
    intro k e hl
    have hempty : m.store.shards (shardIndex c k) = ∅ := (hk.cleared _ (ha.2 _)).1
    have hl' : (m.store.shards (shardIndex c k)).lookup k = some e := hl
    rw [hempty] at hl'
    cases hl'
  | dropHeap => cases hgap
  | _ => cases eq_dropHeap_of_gap ha hgap

end Access

abbrev Sys (c : Config) := System (Lock c) (Access.Answer (c := c)) (Memory c) (Step × Readings) Result

def Owed (view : Nat → View c) (S : Sys c) (d : ExpEntry) : Prop := ∃ j t, S.threads[j]? = some t ∧ d ∈ (view j).debts

/-- What holds between the threads, the maps and the heap: every deadline in
the maps is on the heap or owed, and while a `Flush` has cleared the maps and
not yet the heap, every one is owed. -/
structure Sound (view : Nat → View c) (S : Sys c) : Prop where
  placed : Placed S.mem.store
  exclusive : Exclusive S
  knows : ∀ j t, S.threads[j]? = some t → Knows (view j) t.held S.mem.store
  tracked : Covered S.mem.store fun d => d ∈ S.mem.store.exp ∨ Owed view S d
  gap : ∀ j t, S.threads[j]? = some t → (view j).gap = true → Covered S.mem.store (Owed view S)

def inGap : Op c Result → Bool
  | .done _ => false
  | .lock _ _ k => inGap k
  | .unlock _ _ k => inGap k
  | .act .dropHeap _ => true
  | .act _ _ => false

def pushing : Op c Result → Option ExpEntry
  | .act (.push d) _ => some d
  | _ => none

/-- No deadline is pushed on the heap while a `Flush` is between its two
critical sections. -/
def calm (S : Sys c) : Event (Step × Readings) → Bool
  | .start _ => true
  | .step j =>
    S.threads[j]?.all fun t => (pushing t.prog).all fun d => d.deadline == 0 || S.threads.all fun u => !inGap u.prog

def Orderly (view : Nat → View c) (S : Sys c) : Prop := Viewed rules (fun v _ _ => Settled v) view S

theorem inGap_of_follows {v : View c} {held : List (Lock c × Mode)} {p : Op c Result}
    (hf : Follows rules (fun v' _ _ => Settled v') v held p) (hgap : v.gap = true) : inGap p = true := by
  induction p generalizing v held with
  | done a => exact absurd (hf.2.symm.trans hgap) Bool.false_ne_true
  | lock m l k ih => exact ih hf hgap
  | unlock m l k ih => exact ih hf hgap
  | act a k ih =>
    obtain rfl : a = .dropHeap := eq_dropHeap_of_gap hf.1 hgap
    rfl

section System

variable {view : Nat → View c} {S S' : Sys c} {j : Nat} {v' : View c}
  {t t' : Thread (Lock c) (Access.Answer (c := c)) (Step × Readings) Result}

def OwedBeside (view : Nat → View c) (S : Sys c) (j : Nat) (d : ExpEntry) : Prop :=
  ∃ i t, i ≠ j ∧ S.threads[i]? = some t ∧ d ∈ (view i).debts

theorem owed_iff (ht : S.threads[j]? = some t) {d : ExpEntry} :
    Owed view S d ↔ d ∈ (view j).debts ∨ OwedBeside view S j d := by
  constructor
  · rintro ⟨i, u, hu, hd⟩
    by_cases hij : i = j
    · exact .inl (hij ▸ hd)
    · exact .inr ⟨i, u, hij, hu, hd⟩
  · rintro (hd | ⟨i, u, -, hu, hd⟩)
    · exact ⟨j, t, ht, hd⟩
    · exact ⟨i, u, hu, hd⟩

theorem owed_set (ht : S.threads[j]? = some t) (hset : S'.threads = S.threads.set j t') {d : ExpEntry}
    (h : d ∈ v'.debts ∨ OwedBeside view S j d) : Owed (Function.update view j v') S' d := by
  obtain hd | ⟨i, u, hij, hu, hd⟩ := h
  · refine ⟨j, t', ?_, by rwa [Function.update_self]⟩
    rw [hset, List.getElem?_set_self (List.getElem?_eq_some_iff.mp ht).1]
  · refine ⟨i, u, ?_, by rwa [Function.update_of_ne hij]⟩
    rw [hset, List.getElem?_set_ne (Ne.symm hij), hu]

theorem sound_set (h : Sound view S) (ht : S.threads[j]? = some t) (hset : S'.threads = S.threads.set j t')
    (hexclusive : Exclusive S') (hplaced : Placed S'.mem.store)
    (hframe : ∀ i, (.shard i, .write) ∉ t.held → S'.mem.store.shards i = S.mem.store.shards i)
    (hknows : Knows v' t'.held S'.mem.store)
    (htracked : Covered S'.mem.store fun d => d ∈ S'.mem.store.exp ∨ d ∈ v'.debts ∨ OwedBeside view S j d)
    (hgap : ∀ i u, S'.threads[i]? = some u → (Function.update view j v' i).gap = true →
      Covered S'.mem.store fun d => d ∈ v'.debts ∨ OwedBeside view S j d) :
    Sound (Function.update view j v') S' where
  placed := hplaced
  exclusive := hexclusive
  knows i u hu := by
    rw [hset] at hu
    obtain ⟨rfl, rfl⟩ | ⟨hij, hu⟩ := thread_set hu
    · rwa [Function.update_self]
    · rw [Function.update_of_ne hij]
      refine knows_frame (h.knows i u hu) fun l m hm => hframe l fun hw => hij ?_
      exact (h.exclusive j i t u (.shard l) m ht hu hw hm).symm
  tracked := htracked.mono fun d => Or.imp_right (owed_set ht hset)
  gap i u hu hg := (hgap i u hu hg).mono fun d => owed_set ht hset

theorem not_pushing {i : Nat} {u : Thread (Lock c) (Access.Answer (c := c)) (Step × Readings) Result} {d : ExpEntry}
    {k : Unit → Op c Result} (hcalm : calm S (.step j) = true) (ht : S.threads[j]? = some t)
    (hprog : t.prog = .act (.push d) k) (h0 : d.deadline ≠ 0) (hu : S.threads[i]? = some u) : inGap u.prog = false := by
  have hall : d.deadline = 0 ∨ ∀ u ∈ S.threads, inGap u.prog = false := by
    simpa [calm, ht, hprog, pushing] using hcalm
  exact (hall.resolve_left h0) u (List.mem_of_getElem? hu)

theorem sound_lock (h : Sound view S) (ht : S.threads[j]? = some t) (hset : S'.threads = S.threads.set j t')
    (hexclusive : Exclusive S') (hmem : S'.mem = S.mem) (hknows : Knows v' t'.held S.mem.store)
    (hdebts : v'.debts = (view j).debts) (hgap : v'.gap = (view j).gap) : Sound (Function.update view j v') S' := by
  have howed : ∀ d, Owed view S d → d ∈ v'.debts ∨ OwedBeside view S j d := fun d hd => hdebts ▸ (owed_iff ht).mp hd
  refine sound_set h ht hset hexclusive (hmem ▸ h.placed) (fun i _ => by rw [hmem]) (hmem ▸ hknows) ?_
    fun i u hu hg => ?_
  · rw [hmem]
    exact h.tracked.mono fun d => Or.imp_right (howed d)
  · rw [hmem]
    rw [hset] at hu
    obtain ⟨rfl, -⟩ | ⟨hij, hu⟩ := thread_set hu
    · rw [Function.update_self, hgap] at hg
      exact (h.gap i t ht hg).mono howed
    · rw [Function.update_of_ne hij] at hg
      exact (h.gap i u hu hg).mono howed

theorem sound_act (h : Sound view S) (ho : Orderly view S) (hcalm : calm S (.step j) = true)
    (ht : S.threads[j]? = some t) (hset : S'.threads = S.threads.set j t') (hexclusive : Exclusive S')
    {a : Access c} {k : a.Answer → Op c Result} (hprog : t.prog = .act a k) (ha : allowed (view j) t.held a)
    (hheld : t'.held = t.held) (hmem : S'.mem = (perform a S.mem).2) :
    Sound (Function.update view j (after (view j) a (perform a S.mem).1)) S' := by
  have hk := h.knows j t ht
  have hgap : ∀ i u, S.threads[i]? = some u → (view i).gap = true →
      Covered S.mem.store fun d => d ∈ (view j).debts ∨ OwedBeside view S j d :=
    fun i u hu hg => (h.gap i u hu hg).mono fun d => (owed_iff ht).mp
  refine sound_set h ht hset hexclusive ?_ ?_ ?_ ?_ fun i u hu hg => ?_
  · exact hmem ▸ placed_perform ha h.placed
  · exact fun i hi => hmem ▸ perform_frame ha hi
  · rw [hheld, hmem]
    exact knows_after ha hk
  · rw [hmem]
    exact tracked_after ha hk (h.tracked.mono fun d => Or.imp_right (owed_iff ht).mp) (hgap j t ht)
  · rw [hmem]
    rw [hset] at hu
    obtain ⟨rfl, -⟩ | ⟨hij, hu⟩ := thread_set hu
    · rw [Function.update_self] at hg
      exact gap_after ha hk hg
    · rw [Function.update_of_ne hij] at hg
      have hpush : ∀ d, a = .push d → d.deadline ≠ 0 → False := by
        rintro d rfl h0
        have hfalse := not_pushing hcalm ht hprog h0 hu
        rw [inGap_of_follows (ho i u hu) hg] at hfalse
        cases hfalse
      have hcovered := covered_after (H := fun _ => False) ha hk hpush ((hgap i u hu hg).mono fun d => .inr)
      exact hcovered.mono fun d hd => hd.resolve_left id

theorem sound_step (h : Sound view S) (ho : Orderly view S) (hcalm : calm S (.step j) = true)
    (hs : step perform S j = some S') : ∃ view', Orderly view' S' ∧ Sound view' S' := by
  obtain ⟨t, t', v', ht, hset, hviewed, hshift⟩ := viewed_step ho hs
  have hexclusive := exclusive_step h.exclusive hs
  have hk := h.knows j t ht
  refine ⟨_, hviewed, ?_⟩
  obtain ⟨mem', threads'⟩ := S'
  obtain ⟨o, p, held', w⟩ := t'
  cases hshift with
  | act a k hp ha => exact sound_act h ho hcalm ht hset hexclusive hp ha rfl rfl
  | lock x =>
    refine sound_lock h ht hset hexclusive rfl ⟨fun k o hseen => ?_, fun i hi => ?_⟩ rfl rfl
    · obtain ⟨hl, m, hm⟩ := hk.seen k o hseen
      exact ⟨hl, m, List.mem_cons_of_mem x hm⟩
    · obtain ⟨hempty, hm⟩ := hk.cleared i hi
      exact ⟨hempty, List.mem_cons_of_mem x hm⟩
  | unlock x => exact sound_lock h ht hset hexclusive rfl ⟨by rintro k o ⟨⟩, by rintro i ⟨⟩⟩ rfl rfl
  | stay => exact sound_lock h ht hset hexclusive rfl hk rfl rfl

theorem sound_start (h : Sound view S) (o : Step × Readings) :
    Sound (Function.update view S.threads.length ⟨none, [], [], false⟩)
      { S with threads := S.threads ++ [⟨o, program o, [], false⟩] } := by
  have hold : ∀ i u, S.threads[i]? = some u → i < S.threads.length := fun i u hu => (List.getElem?_eq_some_iff.mp hu).1
  have howed : ∀ d, Owed view S d → Owed (Function.update view S.threads.length ⟨none, [], [], false⟩)
      { S with threads := S.threads ++ [⟨o, program o, [], false⟩] } d := by
    rintro d ⟨i, u, hu, hd⟩
    refine ⟨i, u, ?_, by rwa [Function.update_of_ne (Nat.ne_of_lt (hold i u hu))]⟩
    exact (List.getElem?_append_left (hold i u hu)).trans hu
  refine ⟨h.placed, exclusive_start h.exclusive, fun i u hu => ?_, h.tracked.mono fun d => Or.imp_right (howed d),
    fun i u hu hg => ?_⟩
  · obtain ⟨rfl, rfl⟩ | ⟨hi, hu⟩ := thread_append hu
    · rw [Function.update_self]
      exact ⟨by rintro k o ⟨⟩, by rintro i ⟨⟩⟩
    · rw [Function.update_of_ne hi]
      exact h.knows i u hu
  · obtain ⟨rfl, rfl⟩ | ⟨hi, hu⟩ := thread_append hu
    · rw [Function.update_self] at hg
      cases hg
    · rw [Function.update_of_ne hi] at hg
      exact (h.gap i u hu hg).mono howed

theorem sound_new : Sound (fun _ => ⟨none, [], [], false⟩) (⟨⟨new c, []⟩, []⟩ : Sys c) where
  placed := placed_new
  exclusive := by rintro i j t u l m ⟨⟩
  knows := by rintro j t ⟨⟩
  tracked := by rintro k e ⟨⟩
  gap := by rintro j t ⟨⟩

theorem debts_of_done (ho : Orderly view S) (ht : S.threads[j]? = some t) (hdone : t.prog.isDone = true) :
    (view j).debts = [] := by
  obtain ⟨o, p, held, w⟩ := t
  cases p with
  | done a => exact (ho j _ ht).1
  | _ => cases hdone

end System

/-- Every entry with a deadline, in any map, has its element on the heap. -/
def EveryTracked (s : Store c) : Prop :=
  ∀ i k e, (s.shards i).lookup k = some e → e.expireAt ≠ 0 → ⟨e.expireAt, k⟩ ∈ s.exp

/-- In every run whose steps push no deadline between the two critical sections
of a `Flush`, every deadline is on the heap whenever no call is in progress. -/
theorem deadlines_tracked {es : List (Event (Step × Readings))} {S : Sys c}
    (hcalm : throughout perform program calm ⟨⟨new c, []⟩, []⟩ es = true)
    (hrun : run perform program ⟨⟨new c, []⟩, []⟩ es = some S) (hdone : ∀ t ∈ S.threads, t.prog.isDone = true) :
    EveryTracked S.mem.store := by
  have hstart : ∀ (S : Sys c) o, (∃ view, Orderly view S ∧ Sound view S) →
      ∃ view, Orderly view { S with threads := S.threads ++ [⟨o, program o, [], false⟩] } ∧
        Sound view { S with threads := S.threads ++ [⟨o, program o, [], false⟩] } := by
    rintro S o ⟨view, ho, h⟩
    exact ⟨_, viewed_start ho (clean_program o _ [] ⟨rfl, rfl⟩), sound_start h o⟩
  have hnew : ∃ view, Orderly view (⟨⟨new c, []⟩, []⟩ : Sys c) ∧ Sound view (⟨⟨new c, []⟩, []⟩ : Sys c) :=
    ⟨_, by rintro j t ⟨⟩, sound_new⟩
  obtain ⟨view, ho, h⟩ := run_within hstart (fun S S' j ⟨view, ho, h⟩ hc hs => sound_step h ho hc hs) hnew hcalm hrun
  intro i k e hl h0
  obtain rfl : shardIndex c k = i := h.placed i k (by rw [hl]; rfl)
  refine (h.tracked k e hl h0).resolve_right ?_
  rintro ⟨j, t, ht, hd⟩
  rw [debts_of_done ho ht (hdone t (List.mem_of_getElem? ht))] at hd
  cases hd

def flushCall : Step × Readings := (.call .flush, frozen (instant 0))

def setCall : Step × Readings := (.call (.set (ascii "k") (ascii "v") 5 .always), frozen (instant 0))

def steps (j n : Nat) : List (Event (Step × Readings)) := List.replicate n (.step j)

/-- A `Set` stores its entry between the two critical sections of a `Flush`, and
pushes the deadline after them. -/
def storedInGap : List (Event (Step × Readings)) :=
  [.start flushCall, .start setCall] ++ steps 0 9 ++ steps 1 5 ++ steps 0 4 ++ steps 1 5

theorem storedInGap_tracked :
    ∃ S, run perform program ⟨⟨new twoShards, []⟩, []⟩ storedInGap = some S ∧ EveryTracked S.mem.store ∧
      StoreOps.lookup S.mem.store (ascii "k") = some ⟨ascii "v", 5⟩ := by
  have hcalm : throughout perform program calm ⟨⟨new twoShards, []⟩, []⟩ storedInGap = true := by decide +kernel
  have h : ((run perform program ⟨⟨new twoShards, []⟩, []⟩ storedInGap).map fun S =>
      (S.threads.all fun t => t.prog.isDone, StoreOps.lookup S.mem.store (ascii "k"))) =
        some (true, some ⟨ascii "v", 5⟩) := by decide +kernel
  obtain ⟨S, hS, hfacts⟩ := Option.map_eq_some_iff.mp h
  obtain ⟨hdone, hl⟩ := Prod.mk.inj hfacts
  exact ⟨S, hS, deadlines_tracked hcalm hS (List.all_eq_true.mp hdone), hl⟩

def setInGap : List (Event (Step × Readings)) :=
  [.start flushCall, .start setCall] ++ steps 0 9 ++ steps 1 10 ++ steps 0 4

/-- All calls have returned, and the deadline of the entry is not on the heap. -/
theorem setInGap_untracked :
    ∃ S, run perform program ⟨⟨new twoShards, []⟩, []⟩ setInGap = some S ∧ (∀ t ∈ S.threads, t.prog.isDone = true) ∧
      ¬ EveryTracked S.mem.store := by
  have h : ((run perform program ⟨⟨new twoShards, []⟩, []⟩ setInGap).map fun S =>
      (S.threads.all fun t => t.prog.isDone, StoreOps.lookup S.mem.store (ascii "k"), S.mem.store.exp.elems)) =
        some (true, some ⟨ascii "v", 5⟩, []) := by decide +kernel
  obtain ⟨S, hS, hfacts⟩ := Option.map_eq_some_iff.mp h
  obtain ⟨hdone, hrest⟩ := Prod.mk.inj hfacts
  obtain ⟨hl, hexp⟩ := Prod.mk.inj hrest
  refine ⟨S, hS, List.all_eq_true.mp hdone, fun htracked => ?_⟩
  have hmem : (⟨5, ascii "k"⟩ : ExpEntry) ∈ S.mem.store.exp.elems := htracked _ _ _ hl (by decide)
  rw [hexp] at hmem
  cases hmem

end MemX.StoreTracked
