import MemX.ServerLog

namespace MemX.ServerCrash

open MachineInt DecimalText Clock StoreState StoreRules StoreOps StoreLookup StoreInvariants StoreView
open CommandProgram CommandHandlers CommandRegistry CommandWrites CommandEffect CommandReplay RespWrite ServerRun
open ServerLog

variable {c c' : Config} {h : Host} {t₀ t t' : Instant}

/-- No entry that is alive at `t₀` has come to the millisecond of its deadline
at `t`. -/
def Calm (s : Store c) (t₀ t : Instant) : Prop :=
  ∀ i, ∀ x ∈ (s.shards i).entries, x.2.expireAt ≠ 0 → t₀.nanos < x.2.expireAt → t.nanos < floorMs x.2.expireAt

instance (s : Store c) (t₀ t : Instant) : Decidable (Calm s t₀ t) :=
  inferInstanceAs (Decidable (∀ i : Fin c.shardCount, ∀ x ∈ (s.shards i).entries, _))

def CalmView (m : Table) (t₀ t : Instant) : Prop :=
  ∀ k e, live t₀ (m k) = some e → e.expireAt ≠ 0 → t.nanos < floorMs e.expireAt

theorem Calm.view {s : Store c} (hc : Calm s t₀ t) : CalmView (lookup s) t₀ t := by
  intro k e hk h0
  have hl : (s.shards (shardIndex c k)).lookup k = some e := (live_eq_some.mp hk).1
  exact hc _ ⟨k, e⟩ (AList.mem_lookup_iff.mp hl) h0 (lt_of_live hk h0)

theorem CalmView.start {m : Table} (hc : CalmView m t₀ t) (ht : t₀ ≤ t) : CalmView m t₀ t₀ :=
  fun k e hk h0 => lt_of_le_of_lt ht (hc k e hk h0)

theorem CalmView.finish {m : Table} (hc : CalmView m t₀ t) (ht : t₀ ≤ t) : CalmView m t t := by
  intro k e hk h0
  have he := live_earlier ht (m k)
  rw [hk, ← (live_eq_some.mp hk).1] at he
  exact hc k e (he.trans (live_eq_some.mp hk).1) h0

theorem CalmView.steady {m m' : Table} (hc : CalmView m t₀ t) (ht : t₀ ≤ t) (ha : AlikeAt Near t₀ m m') :
    Steady t₀ t m' := by
  intro k
  have hk := ha k
  rw [← live_live ht (m' k)]
  cases hp : live t₀ (m' k) with
  | none => rfl
  | some f =>
    rw [hp] at hk
    cases ho : live t₀ (m k) with
    | none => rw [ho] at hk; cases hk
    | some e =>
      rw [ho] at hk
      obtain ⟨_, h0, hE⟩ := hk
      symm
      apply live_some_of_live
      by_cases hz : e.expireAt = 0
      · simp [expired, h0.mp hz]
      · have hd := (hc k e ho hz).trans_le (hE hz).1
        simp [expired, not_le.mpr hd]

theorem alike_later {m m' : Table} (h : AlikeAt Near t m m') (ht : t ≤ t') (hg : CalmView m t' t') :
    AlikeAt Near t' m m' := by
  intro k
  have hk := h k
  rw [← live_live ht (m k), ← live_live ht (m' k)]
  cases ho : live t (m k) with
  | none =>
    rw [ho] at hk
    cases hp : live t (m' k) with
    | none => trivial
    | some f => rw [hp] at hk; cases hk
  | some e =>
    rw [ho] at hk
    cases hp : live t (m' k) with
    | none => rw [hp] at hk; cases hk
    | some f =>
      rw [hp] at hk
      obtain ⟨hv, h0, hE⟩ := hk
      by_cases hz : e.expireAt = 0
      · have he : expired t' e = false := by simp [expired, hz]
        have hf : expired t' f = false := by simp [expired, h0.mp hz]
        rw [live_some_of_live he, live_some_of_live hf]
        exact ⟨hv, h0, hE⟩
      · have hzf : f.expireAt ≠ 0 := fun hf => hz (h0.mpr hf)
        cases he : expired t' e with
        | true =>
          have hd : e.expireAt ≤ t'.nanos := by simpa [expired, hz] using he
          have hf : expired t' f = true := by simpa [expired, hzf] using (hE hz).2.trans hd
          rw [live_some_of_expired he, live_some_of_expired hf]
          trivial
        | false =>
          have hl : live t' (m k) = some e := by rw [← live_live ht, ho, live_some_of_live he]
          have hd := (hg k e hl hz).trans_le (hE hz).1
          have hf : expired t' f = false := by simpa [expired, hzf] using hd
          rw [live_some_of_live he, live_some_of_live hf]
          exact ⟨hv, h0, hE⟩

/-- A write that is logged as two records has no effect of its own between
them: the key already holds the value, without deadline. -/
def SingleRecord (t₀ : Instant) (now : Readings) (m : Table) : Mutation → Prop
  | .set key val ttl true mode =>
    answerKey (StoreRules.set val ttl mode) now key m = true → live t₀ (m key) = some ⟨val, 0⟩
  | _ => True

theorem prefix_singleton {α : Type} {x : α} {l : List α} (hl : l <+: [x]) : l = [] ∨ l = [x] := by
  obtain rfl | ⟨l', rfl, hl'⟩ := List.prefix_cons_iff.mp hl
  · exact Or.inl rfl
  · exact Or.inr (by rw [List.prefix_nil.mp hl'])

theorem replay_prefix {L : Int} {mu : Mutation} {now : Readings} {m m' : Table} (hm : AlikeAt Near t₀ m m')
    (hs : SingleRecord t₀ now m mu) {done l : List (Instant × List Bytes)}
    (hdone : done.map Prod.snd = record L now m mu) (hl : l <+: done) :
    AlikeAt Near t₀ m (replayAt h L m' l) ∨ l = done := by
  have hshort : ∀ {b : Bool} {cmd : List Bytes}, record L now m mu = logIf b [cmd] →
      AlikeAt Near t₀ m (replayAt h L m' l) ∨ l = done := by
    intro b cmd hr
    rw [hr] at hdone
    cases b with
    | false =>
      rw [List.map_eq_nil_iff.mp hdone] at hl ⊢
      exact Or.inr (List.prefix_nil.mp hl)
    | true =>
      obtain ⟨s, rfl⟩ := map_snd_singleton hdone
      obtain rfl | rfl := prefix_singleton hl
      · exact Or.inl hm
      · exact Or.inr rfl
  cases mu with
  | noop =>
    rw [List.map_eq_nil_iff.mp hdone] at hl ⊢
    exact Or.inr (List.prefix_nil.mp hl)
  | set key val ttl timed mode =>
    cases timed with
    | false => exact hshort rfl
    | true =>
      cases hset : answerKey (StoreRules.set val ttl mode) now key m with
      | false =>
        have hrec : record L now m (.set key val ttl true mode) = logIf false [[]] := by simp [record, hset, logIf]
        exact hshort hrec
      | true =>
        have hrec : record L now m (.set key val ttl true mode) =
            [[ascii "SET", key, val], deadlineRecord now key ttl] := by
          simp [record, hset, logIf]
        rw [hrec] at hdone
        obtain ⟨⟨s, _⟩, rest, rfl, rfl, hrest⟩ := List.map_eq_cons_iff.mp hdone
        obtain ⟨s', rfl⟩ := map_snd_singleton hrest
        obtain rfl | ⟨l', rfl, hl'⟩ := List.prefix_cons_iff.mp hl
        · exact Or.inl hm
        · obtain rfl | rfl := prefix_singleton hl'
          · refine Or.inl ?_
            rw [replayAt_logs (logs_set h key val), replayAt_nil]
            simp only [mutate, update_set_always]
            intro k
            by_cases hk : k = key
            · subst hk
              rw [hs hset, Function.update_self, live_plain]
              exact alike_refl near_refl _
            · simpa [hk] using hm k
          · exact Or.inr rfl
  | flush => exact hshort (b := true) rfl
  | mset args => exact hshort (b := true) rfl
  | getSet key val => exact hshort (b := true) rfl
  | _ => exact hshort rfl

/-- What a run has shown of the write command going on: the store and the
clock it began with, its words, and the readings its sections have taken.
The server itself does not keep it. -/
structure Writing (c : Config) where
  store : Store c
  clock : Instant
  tokens : List Bytes
  readings : List Instant

def noted (h : Host) (σ : Server c) (w : Option (Writing c)) (e : Event) : Option (Writing c) :=
  match e with
  | .start _ tokens => if isWrite h tokens then some ⟨σ.store, σ.clock, tokens, []⟩ else w
  | e => w.map fun w => { w with readings := readingsAfter σ w.readings e }

def ends (σ : Server c) : Event → Bool
  | .advance i _ =>
    match σ.writeMu, σ.tasks i with
    | some j, some (.pure _) => i == j
    | _, _ => false
  | _ => false

/-- A write command that ended at `t` leaves the log crash-atomic: while it
ran no live entry came to the millisecond of its deadline, a relative deadline
was set as it was logged, at the readings taken for it, and a cut inside the
records shows nothing new. -/
def Atomic (h : Host) (w : Writing c) (t : Instant) : Prop :=
  Calm w.store w.clock t ∧
    Timed Near w.clock t (resume w.readings (frozen t)) (lookup w.store) (mutation h w.tokens) ∧
    SingleRecord w.clock (resume w.readings (frozen t)) (lookup w.store) (mutation h w.tokens)

def Safe (h : Host) (σ : Server c) (w : Option (Writing c)) (e : Event) : Prop :=
  EventZeroFree σ e ∧ (ends σ e = true → ∀ x ∈ w, Atomic h x σ.clock)

inductive Trace (h : Host) (P : Server c → Option (Writing c) → Event → Prop) (σ : Server c) :
    List Event → Server c → Option (Writing c) → Prop
  | nil : Trace h P σ [] σ none
  | snoc {es : List Event} {σ₁ σ₂ : Server c} {w : Option (Writing c)} {e : Event} :
      Trace h P σ es σ₁ w → P σ₁ w e → step h σ₁ e = some σ₂ → Trace h P σ (es ++ [e]) σ₂ (noted h σ₁ w e)

theorem Trace.good {σ : Server c} {w : Option (Writing c)} {es : List Event}
    (ht : Trace h (Safe h) (init c t₀) es σ w) : Good σ := by
  induction ht with
  | nil => exact good_init c t₀
  | snoc _ hp hs ih => exact good_step ih hp.1 hs

/-- What the replayed log is good for as long as no command is logged. -/
def Shadowed (h : Host) (c' : Config) (σ : Server c) : Prop :=
  ∀ t, σ.clock ≤ t → CalmView (lookup σ.store) t t →
    AlikeAt Near t (lookup σ.store) (lookup (replayLog h (new c') σ.log))

/-- Every cut of the log replays to the view of an earlier state of the run
in which no write was going on. -/
def Covered (h : Host) (c' : Config) (t₀ : Instant) (es : List Event) (σ : Server c) : Prop :=
  ∀ l, l <+: σ.log → ∃ es' σ' w', es' <+: es ∧ Trace h (Safe h) (init c t₀) es' σ' w' ∧ σ'.writeMu = none ∧
    AlikeAt Near σ'.clock (lookup σ'.store) (lookup (replayLog h (new c') l))

theorem Covered.extend {es es' : List Event} {σ σ' : Server c} (hc : Covered h c' t₀ es σ)
    (hlog : σ'.log = σ.log) (he : es <+: es') : Covered h c' t₀ es' σ' := by
  intro l hl
  obtain ⟨es₁, σ₁, w₁, hp, hrest⟩ := hc l (hlog ▸ hl)
  exact ⟨es₁, σ₁, w₁, hp.trans he, hrest⟩

theorem Shadowed.background {σ σ' : Server c} (hs : Shadowed h c' σ) (hclock : σ.clock ≤ σ'.clock)
    (hlog : σ'.log = σ.log) (hv : view σ'.store σ'.clock = view σ.store σ'.clock) : Shadowed h c' σ' := by
  intro t ht hg
  have hlive : ∀ k, live t (lookup σ'.store k) = live t (lookup σ.store k) := fun k =>
    (view_later σ'.store ht k).trans ((congrArg (live t) (congrFun hv k)).trans (view_later σ.store ht k).symm)
  have hg' : CalmView (lookup σ.store) t t := fun k e hk => hg k e ((hlive k).trans hk)
  rw [hlog]
  exact alikeAt_of_live_eq (hs t (hclock.trans ht) hg') hlive

/-- The state between commands, or the state in which the command going on
began. -/
def Recoverable (h : Host) (c' : Config) (t₀ : Instant) (es : List Event) (σ : Server c) (w : Option (Writing c)) :
    Prop :=
  σ.writeMu = none ∧ Covered h c' t₀ es σ ∧ Shadowed h c' σ ∨
    ∃ es₀ σ₀ w₀ i tokens p past done, es₀ <+: es ∧ Trace h (Safe h) (init c t₀) es₀ σ₀ w₀ ∧ σ₀.writeMu = none ∧
      Covered h c' t₀ es₀ σ₀ ∧ Shadowed h c' σ₀ ∧ isWrite h tokens = true ∧
      w = some ⟨σ₀.store, σ₀.clock, tokens, past⟩ ∧ Midway (c := c) σ₀ σ i (mutation h tokens) p past done

theorem recoverable_finished (hL : c'.maxValLen = c.maxValLen) {es es₀ : List Event} {σ₀ σ : Server c}
    {w w₀ : Option (Writing c)} {tokens : List Bytes} {past : List Instant} {done : List (Instant × List Bytes)}
    (hes : es₀ <+: es) (htr : Trace h (Safe h) (init c t₀) es σ w)
    (htr₀ : Trace h (Safe h) (init c t₀) es₀ σ₀ w₀) (hfree₀ : σ₀.writeMu = none) (hcov : Covered h c' t₀ es₀ σ₀)
    (hsh : Shadowed h c' σ₀) (hw : isWrite h tokens = true)
    (hat : Atomic h (⟨σ₀.store, σ₀.clock, tokens, past⟩ : Writing c) σ.clock)
    (hf : Finished σ₀ σ (mutation h tokens) past done) :
    σ.writeMu = none ∧ Covered h c' t₀ es σ ∧ Shadowed h c' σ := by
  obtain ⟨hcalm, htm, hsr⟩ := hat
  have hp := mutation_proper hw
  have hrw : ∀ r ∈ done, isWrite h r.2 = true := fun r hr =>
    record_isWrite (L := c.maxValLen) hp _ (lookup σ₀.store) r.2 (hf.record ▸ List.mem_map_of_mem hr)
  have hreplay : ∀ l, (∀ r ∈ l, isWrite h r.2 = true) → lookup (replayLog h (new c') (σ₀.log ++ l)) =
      replayAt h c.maxValLen (lookup (replayLog h (new c') σ₀.log)) l := by
    intro l hl
    rw [replayLog_append, lookup_replayLog h _ hl, hL]
  have hcalm := hcalm.view
  have halike₀ := hsh σ₀.clock le_rfl (hcalm.start hf.since)
  have halike := hsh σ.clock hf.since (hcalm.finish hf.since)
  have hend : AlikeAt Near σ.clock (lookup σ.store) (lookup (replayLog h (new c') σ.log)) := by
    rw [hf.log, hreplay _ hrw]
    refine alikeAt_of_live_eq (replay_step halike ?_ hf.written ?_ ?_ near_refl hp htm hf.record) hf.view
    · exact resume_bounds hf.taken fun _ => ⟨hf.since, le_rfl⟩
    · exact hcalm.steady hf.since fun k => alike_refl near_refl _
    · exact hcalm.steady hf.since halike₀
  refine ⟨hf.free, ?_, fun t ht hg => alike_later hend ht hg⟩
  intro l hl
  rw [hf.log] at hl
  obtain hl | ⟨l', rfl⟩ := List.prefix_or_prefix_of_prefix hl (List.prefix_append _ _)
  · exact hcov.extend rfl hes l hl
  · have hl' := (List.prefix_append_right_inj _).mp hl
    obtain hbefore | rfl := replay_prefix (h := h) halike₀ hsr hf.record hl'
    · refine ⟨es₀, σ₀, w₀, hes, htr₀, hfree₀, ?_⟩
      rw [hreplay _ fun r hr => hrw r (hl'.subset hr)]
      exact hbefore
    · refine ⟨es, σ, w, List.prefix_rfl, htr, hf.free, ?_⟩
      rw [← hf.log]
      exact hend

theorem recoverable_step (hL : c'.maxValLen = c.maxValLen) {es : List Event} {σ σ' : Server c}
    {w : Option (Writing c)} {e : Event} (htr : Trace h (Safe h) (init c t₀) es σ w) (hsafe : Safe h σ w e)
    (hs : step h σ e = some σ') (hr : Recoverable h c' t₀ es σ w) :
    Recoverable h c' t₀ (es ++ [e]) σ' (noted h σ w e) := by
  have hg := htr.good
  have hext : es <+: es ++ [e] := List.prefix_append _ _
  obtain ⟨hfree, hcov, hsh⟩ | ⟨es₀, σ₀, w₀, i, tokens, p, past, done, hes, htr₀, hfree₀, hcov, hsh, hw, rfl, hm⟩ := hr
  · have hb : ∀ i ts, e = .advance i ts → σ.writeMu ≠ some i := fun i _ _ hi => by simp [hfree] at hi
    obtain ⟨hclock, hlog, hv, _⟩ := background_step hg hs hb
    have hback : σ'.writeMu = none → Recoverable h c' t₀ (es ++ [e]) σ' (noted h σ w e) := fun hf =>
      Or.inl ⟨hf, hcov.extend hlog hext, hsh.background hclock hlog hv⟩
    cases step_cases hs with
    | write i tokens hi hw _ =>
      exact Or.inr ⟨es, σ, w, i, tokens, _, _, _, hext, htr, hfree, hcov, hsh, hw, by simp [noted, hw],
        midway_start hw hs⟩
    | read i tokens hi hw => exact hback hfree
    | pop j hj => exact hback hfree
    | purge j d ds hj => exact hback hfree
    | tick t _ => exact hback hfree
    | advance i ts p hts hi => exact hback (by cases p <;> simp [advance, release, assign, hfree])
  · obtain ⟨p', done', hm'⟩ | ⟨⟨ts, r, rfl, rfl⟩, hclock, hf⟩ := midway_step hg hm hs
    · -- no second write starts while `writeMu` is held
      have hnoted : noted h σ (some ⟨σ₀.store, σ₀.clock, tokens, past⟩) e =
          some ⟨σ₀.store, σ₀.clock, tokens, readingsAfter σ past e⟩ := by
        cases step_cases hs with
        | write _ _ _ _ hfree => rw [hm.holder] at hfree; cases hfree
        | read _ _ _ hr => simp [noted, hr, readingsAfter]
        | _ => rfl
      exact Or.inr ⟨es₀, σ₀, w₀, i, tokens, p', _, done', hes.trans hext, htr₀, hfree₀, hcov, hsh, hw, hnoted, hm'⟩
    · have hat := hsafe.2 (by simp [ends, hm.holder, hm.task]) _ rfl
      rw [← hclock] at hat
      exact Or.inl (recoverable_finished hL (hes.trans hext) (htr.snoc hsafe hs) htr₀ hfree₀ hcov hsh hw hat hf)

theorem summary_eq_of_alike {o p : Option Entry} (ha : Alike Near o p) : o.map summary = p.map summary := by
  cases o with
  | none => cases p with
    | none => rfl
    | some f => cases ha
  | some e => cases p with
    | none => cases ha
    | some f =>
      obtain ⟨hv, h0, _⟩ := ha
      by_cases hz : e.expireAt = 0
      · simp [summary, hv, hz, h0.mp hz]
      · have hf : f.expireAt ≠ 0 := fun hf => hz (h0.mpr hf)
        have hb : (e.expireAt != 0) = (f.expireAt != 0) := by rw [bne_iff_ne.mpr hz, bne_iff_ne.mpr hf]
        simp [summary, hv, hb]

/-- Crash atomicity of the log: in every safe run, each cut of the log replays
to the live view that the server had at some earlier point of the run between
two write commands. -/
theorem crash_cut_recovers (h : Host) {t₀ : Instant} {es : List Event} {σ : Server c} {w : Option (Writing c)}
    (hσ : Trace h (Safe h) (init c t₀) es σ w) (hfree : σ.writeMu = none) (c' : Config)
    (hL : c'.maxValLen = c.maxValLen) {l : List (Instant × List Bytes)} (hl : l <+: σ.log) :
    ∃ es' σ' w', es' <+: es ∧ Trace h (Safe h) (init c t₀) es' σ' w' ∧ σ'.writeMu = none ∧
      ∀ k, (view (replayLog h (new c') l) σ'.clock k).map summary = (view σ'.store σ'.clock k).map summary := by
  have hinv : Recoverable h c' t₀ es σ w := by
    clear hfree hl
    induction hσ with
    | nil =>
      refine Or.inl ⟨rfl, fun l hl => ⟨[], _, _, List.prefix_rfl, .nil, rfl, ?_⟩, fun t _ _ _ => trivial⟩
      rw [List.prefix_nil.mp hl]
      exact fun _ => trivial
    | snoc htr hp hs ih => exact recoverable_step hL htr hp hs ih
  obtain ⟨_, hcov, _⟩ | ⟨_, _, _, i, _, _, _, _, _, _, _, _, _, _, _, hm⟩ := hinv
  · obtain ⟨es', σ', w', hp, htr, hf, ha⟩ := hcov l hl
    exact ⟨es', σ', w', hp, htr, hf, fun k => (summary_eq_of_alike (ha k)).symm⟩
  · rw [hm.holder] at hfree
    cases hfree

instance (t₀ t : Instant) (d : Int) : Decidable (Aside t₀ t d) := inferInstanceAs (Decidable (_ → _ → _))

instance (t : Instant) (d d' : Int) : Decidable (Matches Near t d d') :=
  inferInstanceAs (Decidable (_ ∧ _ ∧ (_ ∨ _)))

instance (t₀ t : Instant) (now : Readings) (m : Table) (mu : Mutation) : Decidable (Timed Near t₀ t now m mu) :=
  match mu with
  | .set _ _ _ true _ => inferInstanceAs (Decidable (_ → _))
  | .expire _ ttl => inferInstanceAs (Decidable (_ → if ttl ≤ 0 then _ ∧ _ else _))
  | .expireAt _ secs => inferInstanceAs (Decidable (Aside t₀ t (wrap64 (secs * second))))
  | .expireAtMs _ ms _ => inferInstanceAs (Decidable (Aside t₀ t (wrap64 (ms * millisecond))))
  | .set _ _ _ false _ | .noop | .del _ | .incrBy _ _ _ _ | .append _ _ | .persist _ | .flush | .mset _ | .msetnx _
  | .getSet _ _ => isTrue trivial

instance (t₀ : Instant) (now : Readings) (m : Table) (mu : Mutation) : Decidable (SingleRecord t₀ now m mu) :=
  match mu with
  | .set _ _ _ true _ => inferInstanceAs (Decidable (_ → _))
  | .set _ _ _ false _ | .expire _ _ | .noop | .del _ | .incrBy _ _ _ _ | .append _ _ | .expireAt _ _
  | .expireAtMs _ _ _ | .persist _ | .flush | .mset _ | .msetnx _ | .getSet _ _ => isTrue trivial

instance (h : Host) (w : Writing c) (t : Instant) : Decidable (Atomic h w t) := inferInstanceAs (Decidable (_ ∧ _ ∧ _))

instance (h : Host) (σ : Server c) (w : Option (Writing c)) (e : Event) : Decidable (Safe h σ w e) :=
  inferInstanceAs (Decidable (_ ∧ (_ → ∀ x ∈ w, _)))

def follow (h : Host) (P : Server c → Option (Writing c) → Event → Prop) [∀ σ w e, Decidable (P σ w e)]
    (σ : Server c) (w : Option (Writing c)) : List Event → Option (Server c × Option (Writing c))
  | [] => some (σ, w)
  | e :: es => if P σ w e then (step h σ e).bind (fun σ' => follow h P σ' (noted h σ w e) es) else none

section Follow

variable {P : Server c → Option (Writing c) → Event → Prop} [∀ σ w e, Decidable (P σ w e)]

theorem trace_of_follow {es₀ es : List Event} {σ₀ σ σ' : Server c} {w w' : Option (Writing c)}
    (ht : Trace h P σ₀ es₀ σ w) (hr : follow h P σ w es = some (σ', w')) : Trace h P σ₀ (es₀ ++ es) σ' w' := by
  induction es generalizing es₀ σ w with
  | nil =>
    cases hr
    simpa using ht
  | cons e es ih =>
    simp only [follow, Option.ite_none_right_eq_some, Option.bind_eq_some_iff] at hr
    obtain ⟨hp, σ₁, hs, hr⟩ := hr
    simpa using ih (ht.snoc hp hs) hr

theorem follow_append (σ : Server c) (w : Option (Writing c)) (es es' : List Event) :
    follow h P σ w (es ++ es') = (follow h P σ w es).bind fun x => follow h P x.1 x.2 es' := by
  induction es generalizing σ w with
  | nil => rfl
  | cons e es ih =>
    simp only [List.cons_append, follow]
    split
    · cases step h σ e with
      | none => rfl
      | some σ₁ => exact ih σ₁ _
    · rfl

theorem Trace.follow_eq {σ σ' : Server c} {w : Option (Writing c)} {es : List Event} (ht : Trace h P σ es σ' w) :
    follow h P σ none es = some (σ', w) := by
  induction ht with
  | nil => rfl
  | snoc _ hp hs ih => simp [follow_append, ih, follow, hp, hs]

end Follow

def deadlineRun : List Event :=
  [.start 0 [ascii "SET", ascii "k", ascii "1"], .advance 0 [instant 1500100], .advance 0 [], .advance 0 [],
    .tick (instant 2500000), .start 0 [ascii "PEXPIRE", ascii "k", ascii "20"],
    .advance 0 [instant 2500200, instant 2500300], .tick (instant 2500400), .advance 0 [instant 2500500],
    .tick (instant 2600000), .advance 0 [], .advance 0 [], .start 1 [ascii "DECRBY", ascii "k", ascii "3"],
    .tick (instant 4000000), .advance 1 [], .tick (instant 4100000), .advance 1 [], .advance 1 []]

theorem deadlineRun_recovers :
    ∃ σ w, Trace host (Safe host) (init twoShards (instant 1500000)) deadlineRun σ w ∧ σ.log.length = 3 ∧
      ∀ l, l <+: σ.log → ∃ es' σ' w', es' <+: deadlineRun ∧
        Trace host (Safe host) (init twoShards (instant 1500000)) es' σ' w' ∧ σ'.writeMu = none ∧
        ∀ k, (view (replayLog host (new twoShards) l) σ'.clock k).map summary =
          (view σ'.store σ'.clock k).map summary := by
  have hr : ((follow host (Safe host) (init twoShards (instant 1500000)) none deadlineRun).map
      fun x => (x.1.writeMu, x.1.log.length)) = some (none, 3) := by decide +kernel
  obtain ⟨⟨σ, w⟩, hσ, heq⟩ := Option.map_eq_some_iff.mp hr
  simp only [Prod.mk.injEq] at heq
  have htr := trace_of_follow .nil hσ
  exact ⟨σ, w, htr, heq.2, fun l hl => crash_cut_recovers host htr heq.1 twoShards rfl hl⟩

/-- `SET k v EX 5` writes two records; after the first the log brings back a
key without deadline, which the server never held. -/
def setEXRun : List Event :=
  [.start 0 [ascii "SET", ascii "k", ascii "v", ascii "EX", ascii "5"], .advance 0 [], .advance 0 [], .advance 0 [],
    .advance 0 [], .advance 0 []]

theorem setEXRun_cut_not_recovered :
    ∃ σ w, Trace host (fun _ _ _ => True) (init twoShards (instant 7)) setEXRun σ w ∧ σ.writeMu = none ∧
      ∃ l, l <+: σ.log ∧ ∀ es' σ' w', es' <+: setEXRun →
        Trace host (fun _ _ _ => True) (init twoShards (instant 7)) es' σ' w' → σ'.writeMu = none →
        (view (replayLog host (new twoShards) l) σ'.clock (ascii "k")).map summary ≠
          (view σ'.store σ'.clock (ascii "k")).map summary := by
  have hr : ((follow host (fun _ _ _ => True) (init twoShards (instant 7)) none setEXRun).map
      fun x => (x.1.writeMu, x.1.log.take 1)) =
        some (none, [(instant 7, [ascii "SET", ascii "k", ascii "v"])]) := by decide +kernel
  have hcheck : ∀ es' ∈ setEXRun.inits,
      (follow host (fun _ _ _ => True) (init twoShards (instant 7)) none es').all (fun x => x.1.writeMu.isSome ||
        (view (replayLog host (new twoShards) [(instant 7, [ascii "SET", ascii "k", ascii "v"])]) x.1.clock
            (ascii "k")).map summary != (view x.1.store x.1.clock (ascii "k")).map summary) = true := by
    decide +kernel
  obtain ⟨⟨σ, w⟩, hσ, heq⟩ := Option.map_eq_some_iff.mp hr
  simp only [Prod.mk.injEq] at heq
  refine ⟨σ, w, trace_of_follow .nil hσ, heq.1, σ.log.take 1, List.take_prefix _ _, fun es' σ' w' hes htr hfree => ?_⟩
  have hc := hcheck es' (List.mem_inits _ _ |>.mpr hes)
  rw [htr.follow_eq] at hc
  rw [heq.2]
  simpa [hfree] using hc

end MemX.ServerCrash
