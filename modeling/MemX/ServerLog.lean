import MemX.ServerRun

namespace MemX.ServerLog

open MachineInt DecimalText Clock StoreState StoreRules StoreOps StoreLookup StoreInvariants StoreView
open CommandProgram CommandHandlers CommandRegistry CommandWrites CommandEffect CommandReplay RespWrite ServerRun

variable {c c' : Config} {h : Host}

/-- What holds between any two steps: every sweep is left with deadlines that
have passed, and only the holder of `writeMu` writes. -/
structure Good (σ : Server c) : Prop where
  dated : Dated σ.store
  swept : ∀ j, ∀ d ∈ σ.sweeps j, d.deadline ≠ 0 ∧ d.deadline ≤ σ.clock.nanos
  readers : ∀ j p, σ.tasks j = some p → σ.writeMu ≠ some j → ReadOnly p
  writer : ∀ i, σ.writeMu = some i → (σ.tasks i).isSome

inductive StepCase (h : Host) (σ : Server c) : Event → Server c → Prop
  | read (i : Nat) (tokens : List Bytes) (hi : σ.tasks i = none) (hw : isWrite h tokens = false) :
      StepCase h σ (.start i tokens) (assign σ i (some (execute h tokens)))
  | write (i : Nat) (tokens : List Bytes) (hi : σ.tasks i = none) (hw : isWrite h tokens = true)
      (hfree : σ.writeMu = none) :
      StepCase h σ (.start i tokens) { assign σ i (some (execute h tokens)) with writeMu := some i }
  | advance (i : Nat) (ts : List Instant) (p : Handler Reply) (hts : (σ.clock :: ts).Pairwise (· ≤ ·))
      (hi : σ.tasks i = some p) : StepCase h σ (.advance i ts) (advance σ i ts p)
  | pop (j : Nat) (hj : σ.sweeps j = []) :
      StepCase h σ (.pop j) { σ with
        store := (popDue σ.store σ.clock).2
        sweeps := Function.update σ.sweeps j (popDue σ.store σ.clock).1 }
  | purge (j : Nat) (d : ExpEntry) (ds : List ExpEntry) (hj : σ.sweeps j = d :: ds) :
      StepCase h σ (.purge j) { σ with store := purgeDue σ.store d, sweeps := Function.update σ.sweeps j ds }
  | tick (t : Instant) (ht : σ.clock ≤ t) : StepCase h σ (.tick t) { σ with clock := t }

theorem step_cases {σ σ' : Server c} {e : Event} (hs : step h σ e = some σ') : StepCase h σ e σ' := by
  cases e with
  | start i tokens =>
    simp only [step, Option.ite_none_left_eq_some] at hs
    obtain ⟨hi, hs⟩ := hs
    have hi : σ.tasks i = none := by simpa using hi
    split at hs
    · rename_i hw
      simp only [Option.ite_none_right_eq_some, Option.some.injEq] at hs
      obtain ⟨hfree, rfl⟩ := hs
      exact .write i tokens hi hw hfree
    · rename_i hw
      cases hs
      exact .read i tokens hi (by simpa using hw)
  | advance i ts =>
    simp only [step, Option.ite_none_right_eq_some] at hs
    obtain ⟨hts, hs⟩ := hs
    obtain ⟨p, hi, rfl⟩ := Option.map_eq_some_iff.mp hs
    exact .advance i ts p hts hi
  | pop j =>
    simp only [step, Option.ite_none_right_eq_some, Option.some.injEq] at hs
    obtain ⟨hj, rfl⟩ := hs
    exact .pop j hj
  | purge j =>
    simp only [step] at hs
    split at hs
    · cases hs
    · rename_i d ds hj
      cases hs
      exact .purge j d ds hj
  | tick t =>
    simp only [step, Option.ite_none_right_eq_some, Option.some.injEq] at hs
    obtain ⟨ht, rfl⟩ := hs
    exact .tick t ht

theorem good_init (c : Config) (t : Instant) : Good (init c t) where
  dated := dated_new
  swept _ _ hd := by cases hd
  readers _ _ hp := by cases hp
  writer _ hi := by cases hi

theorem good_advance {σ : Server c} (hg : Good σ) {i : Nat} {ts : List Instant} {p : Handler Reply}
    (hts : (σ.clock :: ts).Pairwise (· ≤ ·)) (hi : σ.tasks i = some p) (hz : EventZeroFree σ (.advance i ts)) :
    Good (advance σ i ts p) := by
  have hrest : ∀ q : Handler Reply, (σ.writeMu ≠ some i → ReadOnly q) →
      (∀ j p, Function.update σ.tasks i (some q) j = some p → σ.writeMu ≠ some j → ReadOnly p) ∧
        ∀ j, σ.writeMu = some j → (Function.update σ.tasks i (some q) j).isSome := by
    intro q hq
    constructor
    · intro j p hp hj
      by_cases hji : j = i
      · subst hji
        rw [Function.update_self] at hp
        cases hp
        exact hq hj
      · rw [Function.update_of_ne hji] at hp
        exact hg.readers j p hp hj
    · intro j hj
      by_cases hji : j = i
      · simp [hji]
      · simpa [hji] using hg.writer j hj
  cases p with
  | pure r =>
    refine ⟨hg.dated, hg.swept, ?_, ?_⟩
    · intro j p hp hj
      by_cases hji : j = i
      · simp [hji, advance, release, assign] at hp
      · have hp : σ.tasks j = some p := by simpa [advance, release, assign, hji] using hp
        exact hg.readers j p hp fun hw => hj ((release_writeMu _ i j).mpr ⟨hw, hji⟩)
    · intro j hj
      obtain ⟨hw, hji⟩ := (release_writeMu _ i j).mp hj
      simpa [advance, release, assign, hji] using hg.writer j hw
  | call a k =>
    have hz' : SectionZeroFree σ.store (passing σ.clock ts) a := by simpa [EventZeroFree, hi] using hz
    obtain ⟨hr, hw⟩ := hrest (k (a.exec σ.store (passing σ.clock ts)).1) fun hne => by
      cases hg.readers i _ hi hne with
      | call _ _ _ hk => exact hk _
    exact ⟨dated_exec hg.dated hz',
      fun j d hd => ⟨(hg.swept j d hd).1, (hg.swept j d hd).2.trans (le_getLastD hts)⟩, hr, hw⟩
  | propagate cmd k =>
    obtain ⟨hr, hw⟩ := hrest k fun hne => by cases hg.readers i _ hi hne
    exact ⟨hg.dated, hg.swept, hr, hw⟩

theorem good_step {σ σ' : Server c} {e : Event} (hg : Good σ) (hz : EventZeroFree σ e) (hs : step h σ e = some σ') :
    Good σ' := by
  cases step_cases hs with
  | read i tokens hi hw =>
    refine ⟨hg.dated, hg.swept, fun j p hp hj => ?_, fun j hj => ?_⟩
    · by_cases hji : j = i
      · simp only [assign, hji, Function.update_self, Option.some.injEq] at hp
        exact hp ▸ execute_read hw
      · simp only [assign, Function.update_of_ne hji] at hp
        exact hg.readers j p hp hj
    · by_cases hji : j = i
      · simp [assign, hji]
      · simpa [assign, hji] using hg.writer j hj
  | write i tokens hi hw hfree =>
    refine ⟨hg.dated, hg.swept, fun j p hp hj => ?_, fun j hj => ?_⟩
    · have hji : j ≠ i := fun he => hj (by rw [he])
      simp only [assign, Function.update_of_ne hji] at hp
      exact hg.readers j p hp (by simp [hfree])
    · cases hj
      simp [assign]
  | advance i ts p hts hi => exact good_advance hg hts hi hz
  | pop j hj =>
    refine ⟨fun d hd => hg.dated d ?_, fun j' d hd => ?_, hg.readers, hg.writer⟩
    · exact (MinQueue.mem_due_or_rest _ _ d).mpr (Or.inr hd)
    · by_cases hjj : j' = j
      · simp only [hjj, Function.update_self] at hd
        exact ⟨hg.dated d ((MinQueue.mem_due_or_rest _ _ d).mpr (Or.inl hd)), MinQueue.rank_le_of_mem_due hd⟩
      · simp only [Function.update_of_ne hjj] at hd
        exact hg.swept j' d hd
  | purge j d ds hj =>
    refine ⟨?_, fun j' d' hd => ?_, hg.readers, hg.writer⟩
    · simpa only [Dated, purgeDue_exp] using hg.dated
    · by_cases hjj : j' = j
      · simp only [hjj, Function.update_self] at hd
        exact hg.swept j d' (by simp [hj, hd])
      · simp only [Function.update_of_ne hjj] at hd
        exact hg.swept j' d' hd
  | tick t ht =>
    exact ⟨hg.dated, fun j d hd => ⟨(hg.swept j d hd).1, (hg.swept j d hd).2.trans ht⟩, hg.readers, hg.writer⟩

/-- Steps of readers and sweeps, and the passing of time, leave what is alive
afterwards, the log and the writer alone. -/
theorem background_step {σ σ' : Server c} {e : Event} (hg : Good σ) (hs : step h σ e = some σ')
    (hb : ∀ i ts, e = .advance i ts → σ.writeMu ≠ some i) :
    σ.clock ≤ σ'.clock ∧ σ'.log = σ.log ∧ view σ'.store σ'.clock = view σ.store σ'.clock ∧
      ∀ i, σ.writeMu = some i → σ'.writeMu = some i ∧ σ'.tasks i = σ.tasks i := by
  cases step_cases hs with
  | read i tokens hi hw =>
    refine ⟨le_rfl, rfl, rfl, fun j hj => ⟨hj, ?_⟩⟩
    have hji : j ≠ i := by
      rintro rfl
      simpa [hi] using hg.writer j hj
    simp [assign, hji]
  | write i tokens hi hw hfree => exact ⟨le_rfl, rfl, rfl, fun j hj => by simp [hfree] at hj⟩
  | advance i ts p hts hi =>
    have hj : ∀ j, σ.writeMu = some j → j ≠ i := fun j hj he => hb i ts rfl (he ▸ hj)
    have hr := hg.readers i p hi (hb i ts rfl)
    cases hr with
    | pure r =>
      refine ⟨le_rfl, rfl, rfl, fun j hw => ⟨(release_writeMu _ i j).mpr ⟨hw, hj j hw⟩, ?_⟩⟩
      simp [advance, release, assign, hj j hw]
    | call a k ha hk =>
      refine ⟨le_getLastD hts, rfl, view_reads ha σ.store (passing_bounds hts 0).2, fun j hw => ⟨hw, ?_⟩⟩
      simp [advance, assign, hj j hw]
  | pop j hj => exact ⟨le_rfl, rfl, rfl, fun i hi => ⟨hi, rfl⟩⟩
  | purge j d ds hj =>
    obtain ⟨h0, hle⟩ := hg.swept j d (by simp [hj])
    exact ⟨le_rfl, rfl, funext (view_purgeDue σ.store h0 hle), fun i hi => ⟨hi, rfl⟩⟩
  | tick t ht => exact ⟨ht, rfl, rfl, fun i hi => ⟨hi, rfl⟩⟩

def sectionReadings (a : Section) (s : Store c) (t : Instant) (ts : List Instant) : List Instant :=
  (List.range (a.readings s)).map (passing t ts)

theorem sectionReadings_bounds {a : Section} {s : Store c} {t : Instant} {ts : List Instant}
    (hts : (t :: ts).Pairwise (· ≤ ·)) : ∀ x ∈ sectionReadings a s t ts, t ≤ x ∧ x ≤ ts.getLastD t := by
  intro x hx
  obtain ⟨n, _, rfl⟩ := List.mem_map.mp hx
  exact passing_bounds hts n

theorem effect_section {a : Section} (ha : onView a = true) (s : Store c) (t : Instant) (ts : List Instant)
    (now : Readings) {β : Type} (k : a.Result → Handler β) :
    effect s (resume (sectionReadings a s t ts) now) (.call a k) =
      effect (a.exec s (passing t ts)).2 now (k (a.exec s (passing t ts)).1) := by
  have hlen : (sectionReadings a s t ts).length = a.readings s := by simp [sectionReadings]
  have hexec : a.exec s (resume (sectionReadings a s t ts) now) = a.exec s (passing t ts) := by
    refine exec_firstReadings ha s fun n hn => ?_
    rw [← hlen] at hn
    rw [resume, List.getD_eq_getElem _ _ hn]
    simp [sectionReadings]
  have hrest := later_resume (sectionReadings a s t ts) now
  rw [hlen] at hrest
  rw [effect_call, hexec, hrest]

/-- A write command that client `i` began in the state `σ₀` and has not
finished: `past` are the readings it has taken and `done` is what it has
logged, and whatever readings are still to come, what is left of it completes
the mutation and its record. -/
structure Midway (σ₀ σ : Server c) (i : Nat) (mu : Mutation) (p : Handler Reply) (past : List Instant)
    (done : List (Instant × List Bytes)) : Prop where
  since : σ₀.clock ≤ σ.clock
  taken : ∀ t ∈ past, σ₀.clock ≤ t ∧ t ≤ σ.clock
  written : ∀ r ∈ done, σ₀.clock ≤ r.1 ∧ r.1 ≤ σ.clock
  holder : σ.writeMu = some i
  task : σ.tasks i = some p
  onView : ViewOnly p
  log : σ.log = σ₀.log ++ done
  record : ∀ now : Readings, (∀ n, σ.clock ≤ now n) →
    done.map Prod.snd ++ (effect σ.store now p).2 = record c.maxValLen (resume past now) (lookup σ₀.store) mu
  view : ∀ (now : Readings) (t : Instant), (∀ n, σ.clock ≤ now n) → σ.clock ≤ t → ∀ k,
    live t ((effect σ.store now p).1 k) = live t (mutate c.maxValLen (resume past now) (lookup σ₀.store) mu k)

structure Finished (σ₀ σ : Server c) (mu : Mutation) (past : List Instant) (done : List (Instant × List Bytes)) :
    Prop where
  since : σ₀.clock ≤ σ.clock
  taken : ∀ t ∈ past, σ₀.clock ≤ t ∧ t ≤ σ.clock
  written : ∀ r ∈ done, σ₀.clock ≤ r.1 ∧ r.1 ≤ σ.clock
  free : σ.writeMu = none
  log : σ.log = σ₀.log ++ done
  record : done.map Prod.snd = record c.maxValLen (resume past (frozen σ.clock)) (lookup σ₀.store) mu
  view : ∀ k, view σ.store σ.clock k =
    live σ.clock (mutate c.maxValLen (resume past (frozen σ.clock)) (lookup σ₀.store) mu k)

theorem midway_start {σ σ' : Server c} {i : Nat} {tokens : List Bytes} (hw : isWrite h tokens = true)
    (hs : step h σ (.start i tokens) = some σ') : Midway σ σ' i (mutation h tokens) (execute h tokens) [] [] := by
  cases step_cases hs with
  | read _ _ _ hr => rw [hr] at hw; cases hw
  | write _ _ hi _ hfree =>
    refine ⟨le_rfl, by simp, by simp, rfl, by simp [assign], viewOnly_execute hw, by simp [assign], ?_, ?_⟩
    · exact fun now _ => congrArg Prod.snd (effect_write h hw σ.store now)
    · exact fun now t _ _ k => congrArg (live t) (congrFun (congrArg Prod.fst (effect_write h hw σ.store now)) k)

/-- The readings that the write command going on has taken after one more
step, of whatever kind. -/
def readingsAfter (σ : Server c) (past : List Instant) : Event → List Instant
  | .advance i ts =>
    if σ.writeMu = some i then
      match σ.tasks i with
      | some (.call a _) => past ++ sectionReadings a σ.store σ.clock ts
      | _ => past
    else past
  | _ => past

theorem midway_advance {σ₀ σ : Server c} {i : Nat} {mu : Mutation} {p : Handler Reply} {past ts : List Instant}
    {done : List (Instant × List Bytes)} (hts : (σ.clock :: ts).Pairwise (· ≤ ·))
    (hm : Midway σ₀ σ i mu p past done) :
    (∃ p' done', Midway σ₀ (advance σ i ts p) i mu p' (readingsAfter σ past (.advance i ts)) done') ∨
      (∃ r, p = .pure r) ∧ Finished σ₀ (advance σ i ts p) mu past done := by
  obtain ⟨hsince, htaken, hwritten, hholder, htask, hon, hlog, hrec, hview⟩ := hm
  cases p with
  | pure r =>
    refine Or.inr ⟨⟨r, rfl⟩, hsince, htaken, hwritten, ?_, hlog, ?_, ?_⟩
    · simp [advance, release, assign, hholder]
    · exact (List.append_nil _).symm.trans (hrec (frozen σ.clock) fun _ => le_rfl)
    · exact hview (frozen σ.clock) σ.clock (fun _ => le_rfl) le_rfl
  | call a k =>
    cases hon with
    | call ha hk =>
      have hpast : readingsAfter σ past (.advance i ts) = past ++ sectionReadings a σ.store σ.clock ts := by
        simp [readingsAfter, hholder, htask]
      have hle := le_getLastD hts
      have hready : ∀ now : Readings, (∀ n, ts.getLastD σ.clock ≤ now n) →
          ∀ n, σ.clock ≤ resume (sectionReadings a σ.store σ.clock ts) now n := by
        intro now hnow n
        unfold resume
        by_cases hn : n < (sectionReadings a σ.store σ.clock ts).length
        · rw [List.getD_eq_getElem _ _ hn]
          exact (sectionReadings_bounds hts _ (List.getElem_mem hn)).1
        · rw [List.getD_eq_default _ _ (not_lt.mp hn)]
          exact hle.trans (hnow _)
      rw [hpast]
      refine Or.inl ⟨_, done, hsince.trans hle, ?_, ?_, hholder, by simp [advance, assign]; rfl, hk _, hlog, ?_, ?_⟩
      · intro t ht
        obtain ht | ht := List.mem_append.mp ht
        · exact ⟨(htaken t ht).1, (htaken t ht).2.trans hle⟩
        · exact ⟨hsince.trans (sectionReadings_bounds hts t ht).1, (sectionReadings_bounds hts t ht).2⟩
      · exact fun r hr => ⟨(hwritten r hr).1, (hwritten r hr).2.trans hle⟩
      · intro now hnow
        have hr := hrec _ (hready now hnow)
        rw [effect_section ha] at hr
        rw [resume_append]
        exact hr
      · intro now t hnow ht k
        have hv := hview _ t (hready now hnow) (hle.trans ht) k
        rw [effect_section ha] at hv
        rw [resume_append]
        exact hv
  | propagate cmd k =>
    cases hon with
    | propagate _ hk =>
      have hpast : readingsAfter σ past (.advance i ts) = past := by simp [readingsAfter, htask]
      rw [hpast]
      refine Or.inl ⟨k, done ++ [(σ.clock, cmd)], hsince, htaken, ?_, hholder, by simp [advance, assign], hk, ?_, ?_,
        hview⟩
      · intro r hr
        obtain hr | hr := List.mem_append.mp hr
        · exact hwritten r hr
        · cases List.mem_singleton.mp hr
          exact ⟨hsince, le_rfl⟩
      · simp [advance, assign, hlog]
      · intro now hnow
        rw [← hrec now hnow]
        simp [advance, assign]

theorem midway_step {σ₀ σ σ' : Server c} {i : Nat} {mu : Mutation} {p : Handler Reply} {past : List Instant}
    {done : List (Instant × List Bytes)} {e : Event} (hg : Good σ) (hm : Midway σ₀ σ i mu p past done)
    (hs : step h σ e = some σ') :
    (∃ p' done', Midway σ₀ σ' i mu p' (readingsAfter σ past e) done') ∨
      (∃ ts r, e = .advance i ts ∧ p = .pure r) ∧ σ'.clock = σ.clock ∧ Finished σ₀ σ' mu past done := by
  by_cases he : ∃ ts, e = .advance i ts
  · obtain ⟨ts, rfl⟩ := he
    cases step_cases hs with
    | advance _ _ q hts hq =>
      have hpq : q = p := Option.some.inj (hq.symm.trans hm.task)
      subst hpq
      obtain hnext | ⟨⟨r, hr⟩, hf⟩ := midway_advance hts hm
      · exact Or.inl hnext
      · subst hr
        exact Or.inr ⟨⟨ts, r, rfl, rfl⟩, rfl, hf⟩
  · have hb : ∀ j ts, e = .advance j ts → σ.writeMu ≠ some j := by
      rintro j ts rfl hj
      rw [hm.holder] at hj
      cases hj
      exact he ⟨ts, rfl⟩
    have hpast : readingsAfter σ past e = past := by
      cases e with
      | advance j ts => simp [readingsAfter, hb j ts rfl]
      | _ => rfl
    obtain ⟨hclock, hlog, hv, hkeep⟩ := background_step hg hs hb
    obtain ⟨hholder, htask⟩ := hkeep i hm.holder
    rw [hpast]
    refine Or.inl ⟨p, done, hm.since.trans hclock, ?_, ?_, hholder, htask.trans hm.task, hm.onView,
      hlog.trans hm.log, ?_, ?_⟩
    · exact fun t ht => ⟨(hm.taken t ht).1, (hm.taken t ht).2.trans hclock⟩
    · exact fun r hr => ⟨(hm.written r hr).1, (hm.written r hr).2.trans hclock⟩
    · intro now hnow
      rw [(effect_congr hm.onView hv hnow).2]
      exact hm.record now fun n => hclock.trans (hnow n)
    · intro now t hnow ht k
      rw [← hm.view now t (fun n => hclock.trans (hnow n)) (hclock.trans ht) k, ← live_live ht,
        (effect_congr hm.onView hv hnow).1, live_live ht]

def replayLog (h : Host) (s : Store c) (log : List (Instant × List Bytes)) : Store c :=
  log.foldl (fun s r => (Handler.run s (frozen r.1) (execute h r.2)).2.1) s

theorem replayLog_append (s : Store c) (log l : List (Instant × List Bytes)) :
    replayLog h s (log ++ l) = replayLog h (replayLog h s log) l := List.foldl_append

theorem replayLog_map (s : Store c) (t : Instant) (l : List (List Bytes)) :
    replayLog h s (l.map (t, ·)) = replayOn h t s l := by
  simp only [replayLog, replayOn, List.foldl_map]

theorem lookup_replayLog (h : Host) (s : Store c) {l : List (Instant × List Bytes)}
    (hl : ∀ r ∈ l, isWrite h r.2 = true) : lookup (replayLog h s l) = replayAt h c.maxValLen (lookup s) l := by
  induction l generalizing s with
  | nil => rfl
  | cons r l ih =>
    obtain ⟨hr, hl⟩ := List.forall_mem_cons.mp hl
    simp only [replayLog, replayAt, List.foldl_cons] at ih ⊢
    rw [ih _ hl, (run_write h hr s (frozen r.1)).1]

/-- The write commands other than `SET` with `EX` or `PX` and `EXPIRE` or
`PEXPIRE` with a positive argument. -/
def timeless : Mutation → Bool
  | .set _ _ _ timed _ => !timed
  | .expire _ _ => false
  | _ => true

theorem timed_of_timeless {E : Int → Int → Prop} {t : Instant} {now : Readings} {m : Table} {mu : Mutation}
    (ht : timeless mu = true) : Timed E t t now m mu := by
  have haside : ∀ d, Aside t t d := fun d hneg hpos => absurd hpos (not_le.mpr hneg)
  cases mu with
  | set key val ttl timed mode =>
    cases timed with
    | false => trivial
    | true => cases ht
  | expire key ttl => cases ht
  | expireAt key secs => exact haside _
  | expireAtMs key ms text => exact haside _
  | _ => trivial

theorem Finished.still {σ₀ σ : Server c} {mu : Mutation} {past : List Instant} {done : List (Instant × List Bytes)}
    (hf : Finished σ₀ σ mu past done) (hc : σ.clock = σ₀.clock) :
    resume past (frozen σ.clock) = frozen σ₀.clock ∧
      done = (CommandEffect.record c.maxValLen (frozen σ₀.clock) (lookup σ₀.store) mu).map (σ₀.clock, ·) := by
  have hnow : resume past (frozen σ.clock) = frozen σ₀.clock := by
    funext n
    obtain ⟨hlo, hhi⟩ := resume_bounds hf.taken (fun n => ⟨hf.since, le_rfl⟩ : ∀ n, _ ≤ frozen σ.clock n ∧ _ ≤ _) n
    exact Instant.eq_of_le (hc ▸ hhi) hlo
  refine ⟨hnow, ?_⟩
  rw [← hnow, ← hf.record, List.map_map]
  symm
  refine (List.map_congr_left fun r hr => ?_).trans (List.map_id done)
  obtain ⟨hlo, hhi⟩ := hf.written r hr
  exact Prod.ext (Instant.eq_of_le hlo (hc ▸ hhi)) rfl

/-- A finished timeless command is undone by nothing: its records take any
store with the view before it to the view after it. -/
theorem finished_replays {σ₀ σ : Server c} {tokens : List Bytes} (hw : isWrite h tokens = true)
    (htl : timeless (mutation h tokens) = true) {past : List Instant} {done : List (Instant × List Bytes)}
    (hf : Finished σ₀ σ (mutation h tokens) past done) (hc : σ.clock = σ₀.clock)
    (hL : c'.maxValLen = c.maxValLen) {s : Store c'} (hv : view s σ₀.clock = view σ₀.store σ₀.clock) :
    view (replayOn h σ₀.clock s (record c.maxValLen (frozen σ₀.clock) (lookup σ₀.store) (mutation h tokens)))
      σ₀.clock = view σ.store σ₀.clock := by
  have hp := mutation_proper hw
  have halike : AlikeAt Eq σ₀.clock (lookup σ₀.store) (lookup s) :=
    fun k => alike_eq.mpr (congrFun hv k).symm
  obtain ⟨hnow, hdone⟩ := hf.still hc
  have hin : ∀ r ∈ done, σ₀.clock ≤ r.1 ∧ r.1 ≤ σ₀.clock := fun r hr => hc ▸ hf.written r hr
  have hread : ∀ n, σ₀.clock ≤ frozen σ₀.clock n ∧ frozen σ₀.clock n ≤ σ₀.clock := fun _ => ⟨le_rfl, le_rfl⟩
  have hstep := replay_step halike hread hin (steady_refl _ _) (steady_refl _ _) (fun _ => rfl) hp
    (timed_of_timeless htl) (L := c.maxValLen) (by rw [← hnow]; exact hf.record)
  rw [hdone] at hstep
  have hview := hf.view
  rw [hnow, hc] at hview
  have hwrites : ∀ r ∈ (record c.maxValLen (frozen σ₀.clock) (lookup σ₀.store) (mutation h tokens)).map (σ₀.clock, ·),
      isWrite h r.2 = true := List.forall_mem_map.mpr (record_isWrite hp _ _)
  funext k
  rw [hview k, alike_eq.mp (hstep k), ← replayLog_map]
  unfold view
  rw [lookup_replayLog h s hwrites, hL]

theorem good_of_reaches {P : Server c → Event → Prop} (hP : ∀ σ e, P σ e → EventZeroFree σ e) {σ σ' : Server c}
    (hg : Good σ) (hr : Reaches h P σ σ') : Good σ' := by
  induction hr with
  | refl => exact hg
  | step _ hp hs ih => exact good_step ih (hP _ _ hp) hs

theorem finished_of_window {σ σ₁ σ₂ : Server c} {i : Nat} {tokens : List Bytes} (hg : Good σ)
    (hw : isWrite h tokens = true) (hs : step h σ (.start i tokens) = some σ₁)
    (hr : Reaches h (fun σ e => EventZeroFree σ e ∧ σ.writeMu = some i ∧ Still h σ e) σ₁ σ₂)
    (hfree : σ₂.writeMu = none) :
    σ₂.clock = σ.clock ∧ ∃ past done, Finished σ σ₂ (mutation h tokens) past done := by
  have hg₁ : Good σ₁ := good_step hg (show EventZeroFree σ (.start i tokens) from trivial) hs
  have hinv : σ₂.clock = σ.clock ∧ ((∃ p past done, Midway σ σ₂ i (mutation h tokens) p past done) ∨
      ∃ past done, Finished σ σ₂ (mutation h tokens) past done) := by
    clear hfree
    induction hr with
    | refl =>
      refine ⟨?_, Or.inl ⟨_, _, _, midway_start hw hs⟩⟩
      cases step_cases hs with
      | read => rfl
      | write => rfl
    | step hr hp hs ih =>
      obtain ⟨hzero, hholder, hstill⟩ := hp
      obtain ⟨hclock, ⟨p, past, done, hm⟩ | ⟨past, done, hf⟩⟩ := ih
      · refine ⟨(hstill (by simp [hholder]) _ hs).trans hclock, ?_⟩
        obtain ⟨p', done', hm'⟩ | ⟨_, _, hf⟩ := midway_step (good_of_reaches (fun _ _ hp => hp.1) hg₁ hr) hm hs
        · exact Or.inl ⟨p', _, done', hm'⟩
        · exact Or.inr ⟨past, done, hf⟩
      · rw [hf.free] at hholder
        cases hholder
  obtain ⟨hclock, ⟨p, past, done, hm⟩ | hf⟩ := hinv
  · rw [hm.holder] at hfree
    cases hfree
  · exact ⟨hclock, hf⟩

def TimelessStart (h : Host) : Event → Prop
  | .start _ tokens => isWrite h tokens = true → timeless (mutation h tokens) = true
  | _ => True

instance (h : Host) (e : Event) : Decidable (TimelessStart h e) :=
  match e with
  | .start _ _ => inferInstanceAs (Decidable (_ → _))
  | .advance _ _ | .pop _ | .purge _ | .tick _ => isTrue trivial

def Replayed (h : Host) (c' : Config) (σ : Server c) : Prop :=
  view (replayLog h (new c') σ.log) σ.clock = view σ.store σ.clock

/-- Between write commands the replayed log has the live view; during one, it
had it when the command began, and the clock has not moved since. -/
def Logged (h : Host) (c' : Config) (σ : Server c) : Prop :=
  σ.writeMu = none ∧ Replayed h c' σ ∨
    ∃ σ₀ i tokens p past done, Replayed h c' σ₀ ∧ isWrite h tokens = true ∧ timeless (mutation h tokens) = true ∧
      σ.clock = σ₀.clock ∧ Midway (c := c) σ₀ σ i (mutation h tokens) p past done

theorem Replayed.background {σ σ' : Server c} (hr : Replayed h c' σ) (hclock : σ.clock ≤ σ'.clock)
    (hlog : σ'.log = σ.log) (hv : view σ'.store σ'.clock = view σ.store σ'.clock) : Replayed h c' σ' := by
  rw [Replayed, hlog, hv]
  funext k
  rw [view_later _ hclock, view_later σ.store hclock, congrFun hr k]

theorem logged_step (hL : c'.maxValLen = c.maxValLen) {σ σ' : Server c} {e : Event} (hg : Good σ)
    (ht : TimelessStart h e) (hstill : Still h σ e) (hs : step h σ e = some σ') (hl : Logged h c' σ) :
    Logged h c' σ' := by
  obtain ⟨hfree, hr⟩ | ⟨σ₀, i, tokens, p, past, done, hr, hw, htl, hc, hm⟩ := hl
  · have hb : ∀ i ts, e = .advance i ts → σ.writeMu ≠ some i := fun i _ _ hi => by simp [hfree] at hi
    obtain ⟨hclock, hlog, hv, _⟩ := background_step hg hs hb
    have hback : σ'.writeMu = none → Logged h c' σ' := fun hf => Or.inl ⟨hf, hr.background hclock hlog hv⟩
    cases step_cases hs with
    | write i tokens hi hw _ =>
      exact Or.inr ⟨σ, i, tokens, _, _, _, hr, hw, ht hw, rfl, midway_start hw hs⟩
    | tick t hle => exact hback hfree
    | read i tokens hi hw => exact hback hfree
    | pop j hj => exact hback hfree
    | purge j d ds hj => exact hback hfree
    | advance i ts p hts hi => exact hback (by cases p <;> simp [advance, release, assign, hfree])
  · have hc' : σ'.clock = σ₀.clock := (hstill (by simp [hm.holder]) σ' hs).trans hc
    obtain ⟨p', done', hm'⟩ | ⟨_, _, hf⟩ := midway_step hg hm hs
    · exact Or.inr ⟨σ₀, i, tokens, p', _, done', hr, hw, htl, hc', hm'⟩
    · refine Or.inl ⟨hf.free, ?_⟩
      rw [Replayed, hf.log, (hf.still hc').2, hc', replayLog_append, replayLog_map]
      exact finished_replays hw htl hf hc' hL hr

/-- Log equals mutation. In every run in which no deadline is set to exactly
0: the records of one write command that takes one reading, executed at it on
any store with the live view before it, give the live view after it; and the
whole log of a run of such commands, replayed at the recorded readings, gives
the live view reached. -/
theorem log_equals_mutation (h : Host) {t₀ : Instant} {σ : Server c}
    (hσ : Reaches h EventZeroFree (init c t₀) σ) :
    (∀ i tokens σ₁ σ₂, isWrite h tokens = true → timeless (mutation h tokens) = true →
      step h σ (.start i tokens) = some σ₁ →
      Reaches h (fun σ e => EventZeroFree σ e ∧ σ.writeMu = some i ∧ Still h σ e) σ₁ σ₂ → σ₂.writeMu = none →
      ∃ l : List (List Bytes), σ₂.log = σ.log ++ l.map (σ.clock, ·) ∧ σ₂.clock = σ.clock ∧
        ∀ (c' : Config) (s : Store c'), c'.maxValLen = c.maxValLen →
          view s σ.clock = view σ.store σ.clock →
          view (replayOn h σ.clock s l) σ.clock = view σ₂.store σ.clock) ∧
      (Reaches h (fun σ e => EventZeroFree σ e ∧ TimelessStart h e ∧ Still h σ e) (init c t₀) σ → σ.writeMu = none →
        ∀ c' : Config, c'.maxValLen = c.maxValLen →
          view (replayLog h (new c') σ.log) σ.clock = view σ.store σ.clock) := by
  have hg := good_of_reaches (fun _ _ hz => hz) (good_init c t₀) hσ
  constructor
  · intro i tokens σ₁ σ₂ hw htl hs hr hfree
    obtain ⟨hc, past, done, hf⟩ := finished_of_window hg hw hs hr hfree
    refine ⟨_, ?_, hc, fun c' s hL hv => finished_replays hw htl hf hc hL hv⟩
    rw [hf.log, (hf.still hc).2]
  · intro hr hfree c' hL
    have hinv : Logged h c' σ := by
      clear hfree hg hσ
      induction hr with
      | refl => exact Or.inl ⟨rfl, rfl⟩
      | step hr hp hs ih =>
        exact logged_step hL (good_of_reaches (fun _ _ hp => hp.1) (good_init c t₀) hr) hp.2.1 hp.2.2 hs ih
    obtain ⟨_, hrep⟩ | ⟨σ₀, i, _, _, _, _, _, _, _, _, hm⟩ := hinv
    · exact hrep
    · rw [hm.holder] at hfree
      cases hfree

def appendRun : List Event :=
  [.start 0 [ascii "set", ascii "k", ascii "v"], .advance 0 [], .start 1 [ascii "GET", ascii "k"], .advance 0 [],
    .advance 0 [], .tick (instant 8), .start 0 [ascii "APPEND", ascii "k", ascii "w"], .advance 0 [], .advance 1 [],
    .advance 0 [], .advance 0 []]

theorem appendRun_logged :
    ∃ σ, runWhile host (fun σ e => EventZeroFree σ e ∧ TimelessStart host e ∧ Still host σ e)
      (init twoShards (instant 7))
        appendRun = some σ ∧
      view (replayLog host (new twoShards) σ.log) σ.clock = view σ.store σ.clock := by
  have hr : ((runWhile host (fun σ e => EventZeroFree σ e ∧ TimelessStart host e ∧ Still host σ e)
      (init twoShards (instant 7))
      appendRun).map (·.writeMu)) = some none := by decide +kernel
  obtain ⟨σ, hσ, hfree⟩ := Option.map_eq_some_iff.mp hr
  have hreach := reaches_of_runWhile .refl hσ
  have hlog := log_equals_mutation host (hreach.mono fun _ _ hp => hp.1)
  exact ⟨σ, hσ, hlog.2 hreach hfree twoShards rfl⟩

/-- Before the epoch `EXPIREAT k 0` leaves `k` without expiry but with a heap
element, and a sweep after the epoch deletes the key without a record. -/
def undatedRun : List Event :=
  [.start 0 [ascii "SET", ascii "k", ascii "v"], .advance 0 [], .advance 0 [], .advance 0 [],
    .start 0 [ascii "EXPIREAT", ascii "k", ascii "0"], .advance 0 [], .advance 0 [], .advance 0 [],
    .tick (instant 3), .pop 0, .purge 0]

theorem undatedRun_not_logged :
    ∃ σ, Reaches host (fun σ e => TimelessStart host e ∧ Still host σ e) (init twoShards (instant (-5))) σ ∧
      σ.writeMu = none ∧
      view (replayLog host (new twoShards) σ.log) σ.clock ≠ view σ.store σ.clock := by
  have hr : ((runWhile host (fun σ e => TimelessStart host e ∧ Still host σ e)
      (init twoShards (instant (-5))) undatedRun).map
      fun σ => (σ.writeMu, view (replayLog host (new twoShards) σ.log) σ.clock (ascii "k"),
        view σ.store σ.clock (ascii "k"))) = some (none, some ⟨ascii "v", 0⟩, none) := by
    decide +kernel
  obtain ⟨σ, hσ, heq⟩ := Option.map_eq_some_iff.mp hr
  simp only [Prod.mk.injEq] at heq
  refine ⟨σ, reaches_of_runWhile .refl hσ, heq.1, fun hv => ?_⟩
  have hk := congrFun hv (ascii "k")
  rw [heq.2.1, heq.2.2] at hk
  cases hk

end MemX.ServerLog
