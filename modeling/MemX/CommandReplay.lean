import MemX.CommandEffect

namespace MemX.CommandReplay

open MachineInt DecimalText Clock StoreState StoreRules StoreOps StoreLookup StoreView
open CommandProgram CommandHandlers CommandRegistry CommandWrites CommandEffect

variable {c : Config} {α : Type} {E : Int → Int → Prop} {t₀ t : Instant} {L : Int}

/-- Two live entries with the same value and, when there is one, deadlines
related by `E`. -/
def Alike (E : Int → Int → Prop) : Option Entry → Option Entry → Prop
  | none, none => True
  | some e, some f => e.val = f.val ∧ (e.expireAt = 0 ↔ f.expireAt = 0) ∧ (e.expireAt ≠ 0 → E e.expireAt f.expireAt)
  | _, _ => False

def AlikeAt (E : Int → Int → Prop) (t : Instant) (m m' : Table) : Prop :=
  ∀ k, Alike E (live t (m k)) (live t (m' k))

theorem alike_refl (hE : ∀ d, E d d) (o : Option Entry) : Alike E o o := by
  cases o with
  | none => trivial
  | some e => exact ⟨rfl, Iff.rfl, fun _ => hE _⟩

theorem alike_eq {o p : Option Entry} : Alike Eq o p ↔ o = p := by
  cases o with
  | none => cases p <;> simp [Alike]
  | some e =>
    cases p with
    | none => simp [Alike]
    | some f =>
      obtain ⟨v, d⟩ := e
      obtain ⟨w, d'⟩ := f
      simp only [Alike, Option.some.injEq, Entry.mk.injEq]
      constructor
      · rintro ⟨hv, h0, hd⟩
        by_cases hz : d = 0
        · exact ⟨hv, hz.trans (h0.mp hz).symm⟩
        · exact ⟨hv, hd hz⟩
      · rintro ⟨rfl, rfl⟩
        exact ⟨rfl, Iff.rfl, fun _ => rfl⟩

theorem alikeAt_update {m m' : Table} (h : AlikeAt E t m m') (key : Bytes) {x y : Option Entry}
    (hxy : Alike E (live t x) (live t y)) : AlikeAt E t (Function.update m key x) (Function.update m' key y) := by
  intro k
  by_cases hk : k = key
  · subst hk
    simpa using hxy
  · simpa [hk] using h k

def Steady (t₀ t : Instant) (m : Table) : Prop := ∀ k, live t₀ (m k) = live t (m k)

theorem steady_refl (t : Instant) (m : Table) : Steady t t m := fun _ => rfl

theorem live_earlier {s : Instant} (h : s ≤ t) (o : Option Entry) : live s (live t o) = live t o := by
  cases ho : live t o with
  | none => rfl
  | some e =>
    apply live_some_of_live
    cases he : expired s e with
    | false => rfl
    | true => exact (expired_mono h he).symm.trans (live_eq_some.mp ho).2

theorem Steady.between {s : Instant} {m : Table} (hs : Steady t₀ t m) (h₀ : t₀ ≤ s) (h : s ≤ t) (k : Bytes) :
    live s (m k) = live t (m k) := by
  rw [← live_live h₀, hs k, live_earlier h]

/-- An operation that treats alike entries alike, at whatever readings between
`t₀` and `t` it is executed. -/
def Respects (E : Int → Int → Prop) (t₀ t : Instant) (op : KeyOp α) : Prop :=
  ∀ x y o p, t₀ ≤ x ∧ x ≤ t → t₀ ≤ y ∧ y ≤ t → Alike E o p → live t o = o → live t p = p →
    Alike E (live t (next op x o)) (live t (next op y p))

theorem respects_of (hE : ∀ d, E d d) {op : KeyOp α} (ha : ∀ x y, next op x none = next op y none)
    (hs : ∀ x y (e f : Entry), t₀ ≤ x ∧ x ≤ t → t₀ ≤ y ∧ y ≤ t → Alike E (some e) (some f) →
      expired t e = false → expired t f = false →
      Alike E (live t (Effect.entry e (op.present x e).2)) (live t (Effect.entry f (op.present y f).2))) :
    Respects E t₀ t op := by
  intro x y o p hx hy h ho hp
  cases o with
  | none => cases p with
    | none =>
      rw [ha x y]
      exact alike_refl hE _
    | some f => cases h
  | some e => cases p with
    | none => cases h
    | some f => exact hs x y e f hx hy h (live_eq_some.mp ho).2 (live_eq_some.mp hp).2

theorem alike_live {e f : Entry} (h : Alike E (some e) (some f)) (he : expired t e = false)
    (hf : expired t f = false) : Alike E (live t (some e)) (live t (some f)) := by
  rwa [live_some_of_live he, live_some_of_live hf]

theorem respects_incrBy (hE : ∀ d, E d d) (delta : Int) : Respects E t₀ t (StoreRules.incrBy delta) := by
  refine respects_of hE (fun _ _ => rfl) fun x y e f _ _ h he hf => ?_
  simp only [StoreRules.incrBy, h.1]
  cases parseInt f.val with
  | none => exact alike_live h he hf
  | some n => exact alike_refl hE _

theorem respects_append (hE : ∀ d, E d d) (maxValLen : Int) (suffix : Bytes) :
    Respects E t₀ t (StoreRules.append maxValLen suffix) := by
  refine respects_of hE (fun _ _ => rfl) fun x y e f _ _ h he hf => ?_
  simp only [StoreRules.append, h.1]
  split
  · exact alike_live h he hf
  · exact alike_live ⟨rfl, h.2⟩ he hf

theorem respects_persist (hE : ∀ d, E d d) : Respects E t₀ t StoreRules.persist := by
  refine respects_of hE (fun _ _ => rfl) fun x y e f _ _ h he hf => ?_
  by_cases h0 : e.expireAt = 0
  · simp only [StoreRules.persist, h0, h.2.1.mp h0, ↓reduceIte]
    exact alike_live h he hf
  · have hf0 : f.expireAt ≠ 0 := fun hf => h0 (h.2.1.mpr hf)
    simp only [StoreRules.persist, h0, hf0, ↓reduceIte, plain, h.1]
    exact alike_refl hE _

theorem live_deadline {s : Instant} (h : s ≤ t) {d : Int} (hd : d ≠ 0) (val : Bytes) :
    live t (if d ≤ s.nanos then none else some ⟨val, d⟩) = if d ≤ t.nanos then none else some ⟨val, d⟩ := by
  by_cases ht : d ≤ t.nanos
  · have he : expired t ⟨val, d⟩ = true := by simp [expired, hd, ht]
    rw [if_pos ht]
    split
    · rfl
    · exact live_some_of_expired he
  · have he : expired t ⟨val, d⟩ = false := by simp [expired, ht]
    rw [if_neg ht, if_neg fun hs => ht (hs.trans h)]
    exact live_some_of_live he

def Aside (t₀ t : Instant) (d : Int) : Prop := t₀.nanos < 0 → 0 ≤ t.nanos → d ≠ 0

theorem respects_expireAtNanos (hE : ∀ d, E d d) {dl : Int} (hd : Aside t₀ t dl) :
    Respects E t₀ t (StoreRules.expireAtNanos dl) := by
  refine respects_of hE (fun _ _ => rfl) fun x y e f hx hy h _ _ => ?_
  have hnext : ∀ (s : Instant) (e : Entry), Effect.entry e ((StoreRules.expireAtNanos dl).present s e).2 =
      if dl ≤ s.nanos then none else some ⟨e.val, dl⟩ := fun s e => next_expireAtNanos_some dl e
  rw [hnext, hnext, h.1]
  by_cases h0 : dl = 0
  · -- the two readings lie on the same side of 0
    have hside : dl ≤ x.nanos ↔ dl ≤ y.nanos := by
      have h₁ : t₀.nanos ≤ x.nanos ∧ x.nanos ≤ t.nanos := hx
      have h₂ : t₀.nanos ≤ y.nanos ∧ y.nanos ≤ t.nanos := hy
      have hno : t₀.nanos < 0 → ¬ 0 ≤ t.nanos := fun h₀ h => hd h₀ h h0
      omega
    simp only [hside]
    exact alike_refl hE _
  · rw [live_deadline hx.2 h0, live_deadline hy.2 h0]
    exact alike_refl hE _

theorem alikeAt_putView (hE : ∀ d, E d d) {m m' : Table} (h : AlikeAt E t m m') (pairs : List (Bytes × Bytes)) :
    AlikeAt E t (putView m pairs) (putView m' pairs) := by
  induction pairs generalizing m m' with
  | nil => exact h
  | cons p pairs ih => exact ih (alikeAt_update h p.1 (alike_refl hE _))

theorem alikeAt_of_live_eq {m m' m'' : Table} (h : AlikeAt E t m m'') (hv : ∀ k, live t (m' k) = live t (m k)) :
    AlikeAt E t m' m'' := fun k => hv k ▸ h k

def replayAt (h : Host) (maxValLen : Int) (m : Table) (l : List (Instant × List Bytes)) : Table :=
  l.foldl (fun m r => mutate maxValLen (frozen r.1) m (mutation h r.2)) m

@[simp] theorem replayAt_nil (h : Host) (m : Table) : replayAt h L m [] = m := rfl

theorem replayAt_logs {h : Host} {cmd : List Bytes} {mu : Mutation} (hl : Logs h cmd mu) (s : Instant) (m : Table)
    (l : List (Instant × List Bytes)) :
    replayAt h L m ((s, cmd) :: l) = replayAt h L (mutate L (frozen s) m mu) l := by
  simp only [replayAt, List.foldl_cons, hl.2]

def floorMs (d : Int) : Int := d / millisecond * millisecond

/-- A deadline and the one that a record in milliseconds brings back. -/
def Near (d d' : Int) : Prop := floorMs d ≤ d' ∧ d' ≤ d

theorem near_refl (d : Int) : Near d d := by
  unfold Near floorMs millisecond
  omega

instance (d d' : Int) : Decidable (Near d d') := inferInstanceAs (Decidable (_ ∧ _))

def summary (e : Entry) : Bytes × Bool := (e.val, e.expireAt != 0)

def recorded (t : Instant) (ttl : Int) : Int := wrap64 (unixMilli t ttl * millisecond)

/-- A deadline and the logged one, seen at `t`: both passed, or both to come
and related by `E`. -/
def Matches (E : Int → Int → Prop) (t : Instant) (d d' : Int) : Prop :=
  d ≠ 0 ∧ d' ≠ 0 ∧ (d ≤ t.nanos ∧ d' ≤ t.nanos ∨ t.nanos < d ∧ t.nanos < d' ∧ E d d')

/-- Every relative deadline that a mutation sets, counted from the reading of
its section, matches the logged one, counted from the reading after it. The
command runs from `t₀` to `t`. -/
def Timed (E : Int → Int → Prop) (t₀ t : Instant) (now : Readings) (m : Table) : Mutation → Prop
  | .set key val ttl true mode =>
    answerKey (StoreRules.set val ttl mode) now key m = true →
      Matches E t (deadlineIn (now 1) ttl) (recorded (now 2) ttl)
  | .expire key ttl =>
    (live (now 0) (m key)).isSome →
      if ttl ≤ 0 then recorded (now 2) ttl ≤ t.nanos ∧ recorded (now 2) ttl ≠ 0
      else Matches E t (unixNano (now 1) ttl) (recorded (now 2) ttl)
  | .expireAt _ secs => Aside t₀ t (wrap64 (secs * second))
  | .expireAtMs _ ms _ => Aside t₀ t (wrap64 (ms * millisecond))
  | _ => True

theorem alike_matches {s : Instant} (hs : s ≤ t) {d d' : Int} (val : Bytes) (h : Matches E t d d') :
    Alike E (live t (some ⟨val, d⟩)) (live t (if d' ≤ s.nanos then none else some ⟨val, d'⟩)) := by
  obtain ⟨h0, h0', hpast | ⟨hd, hd', hE⟩⟩ := h
  · have he : expired t ⟨val, d⟩ = true := by simp [expired, h0, hpast.1]
    rw [live_some_of_expired he, live_deadline hs h0', if_pos hpast.2]
    trivial
  · have he : expired t ⟨val, d⟩ = false := by simp [expired, not_le.mpr hd]
    rw [live_some_of_live he, live_deadline hs h0', if_neg (not_le.mpr hd')]
    exact ⟨rfl, by simp [h0, h0'], fun _ => hE⟩

theorem logs_deadline (h : Host) (key : Bytes) (t : Instant) {ttl : Int} (hr : InRange ttl) :
    Logs h [ascii "PEXPIREAT", key, formatInt (unixMilli t ttl)]
      (.expireAtMs key (unixMilli t ttl) (formatInt (unixMilli t ttl))) :=
  logs_pexpireat h key (parseInt_formatInt (unixMilli_inRange t hr))

theorem update_set_always (m : Table) (now : Readings) (key val : Bytes) :
    updateKey (StoreRules.set val 0 .always) now key m = Function.update m key (some ⟨val, 0⟩) := by
  unfold updateKey
  cases live (now 0) (m key) <;> rfl

theorem update_getSet (m : Table) (now : Readings) (key val : Bytes) :
    updateKey (StoreRules.getSet val) now key m = Function.update m key (some ⟨val, 0⟩) := by
  unfold updateKey
  cases live (now 0) (m key) <;> rfl

/-- `EXPIREAT` logs its seconds in milliseconds, and both wrap to the same
deadline. -/
theorem expireAt_recorded (secs : Int) : wrap64 (wrap64 (secs * 1000) * millisecond) = wrap64 (secs * second) := by
  rw [wrap64_wrap64_mul]
  congr 1
  unfold millisecond second
  ring

theorem delAll_apply (now : Readings) (m : Table) (keys : List Bytes) (k : Bytes) :
    delAll now m keys k = if k ∈ keys then none else m k := by
  induction keys generalizing now m with
  | nil => simp [delAll]
  | cons key keys ih =>
    have hnext : updateKey StoreRules.del now key m = Function.update m key none := by
      unfold updateKey
      cases live (now 0) (m key) <;> rfl
    rw [delAll, ih, hnext]
    by_cases hk : k = key
    · simp [hk]
    · simp [hk]

theorem map_snd_singleton {done : List (Instant × List Bytes)} {cmd : List Bytes} (h : done.map Prod.snd = [cmd]) :
    ∃ s, done = [(s, cmd)] := by
  obtain ⟨x, rfl, rfl⟩ := List.map_eq_singleton_iff.mp h
  exact ⟨x.1, rfl⟩

section Replay

variable {h : Host} {m m' : Table} {now : Readings} {done : List (Instant × List Bytes)}
variable (hm : AlikeAt E t m m') (hnow : ∀ i, t₀ ≤ now i ∧ now i ≤ t) (hin : ∀ r ∈ done, t₀ ≤ r.1 ∧ r.1 ≤ t)
variable (hs : Steady t₀ t m) (hs' : Steady t₀ t m')

include hm hnow

theorem replay_key {op : KeyOp α} {key : Bytes} {l : List (List Bytes)} {b : Bool}
    (hkeep : b = false → next op (now 1) (live (now 0) (m key)) = live (now 0) (m key))
    (hdo : b = true → done.map Prod.snd = l → AlikeAt E t (updateKey op now key m) (replayAt h L m' done))
    (hdone : done.map Prod.snd = logIf b l) : AlikeAt E t (updateKey op now key m) (replayAt h L m' done) := by
  cases b with
  | true => exact hdo rfl hdone
  | false =>
    rw [List.map_eq_nil_iff.mp hdone]
    refine alikeAt_of_live_eq hm fun k => ?_
    unfold updateKey
    by_cases hk : k = key
    · subst hk
      rw [Function.update_self, hkeep rfl, live_live (hnow 0).2]
    · rw [Function.update_of_ne hk]

include hin

theorem replay_set (hE : ∀ d, E d d) {key val : Bytes} {ttl : Int} {timed : Bool} {mode : SetMode}
    (hr : InRange ttl) (h0 : timed = false → ttl = 0) (ht : Timed E t₀ t now m (.set key val ttl timed mode))
    (hdone : done.map Prod.snd = record L now m (.set key val ttl timed mode)) :
    AlikeAt E t (mutate L now m (.set key val ttl timed mode)) (replayAt h L m' done) := by
  refine replay_key hm hnow set_keeps (fun hset hdone => ?_) hdone
  have hnext : updateKey (StoreRules.set val ttl mode) now key m =
      Function.update m key (some ⟨val, deadlineIn (now 1) ttl⟩) := congrArg (Function.update m key) (set_writes hset)
  obtain ⟨⟨s, _⟩, rest, rfl, rfl, hrest⟩ := List.map_eq_cons_iff.mp hdone
  rw [hnext, replayAt_logs (logs_set h key val)]
  simp only [mutate, update_set_always]
  cases timed with
  | false =>
    have hz : deadlineIn (now 1) ttl = 0 := by simp [h0 rfl, deadlineIn]
    rw [List.map_eq_nil_iff.mp hrest, replayAt_nil, hz]
    exact alikeAt_update hm key (alike_refl hE _)
  | true =>
    obtain ⟨s', rfl⟩ := map_snd_singleton hrest
    rw [deadlineRecord, replayAt_logs (logs_deadline h key (now 2) hr), replayAt_nil]
    have hk : updateKey (expireAtMs (unixMilli (now 2) ttl)) (frozen s') key
        (Function.update m' key (some ⟨val, 0⟩)) = Function.update m' key
          (if recorded (now 2) ttl ≤ s'.nanos then none else some ⟨val, recorded (now 2) ttl⟩) := by
      unfold updateKey
      rw [Function.update_self, frozen_apply, live_plain, Function.update_idem]
      exact congrArg _ (next_expireAtNanos_some ..)
    simp only [mutate, hk]
    exact alikeAt_update hm key (alike_matches (hin (s', deadlineRecord now key ttl) (by simp)).2 val (ht hset))

include hs hs'

theorem replay_respects {op : KeyOp α} (hop : Respects E t₀ t op) {key : Bytes} {cmd : List Bytes} {mu : Mutation}
    (hl : Logs h cmd mu) (hmu : ∀ now m, mutate L now m mu = updateKey op now key m) {b : Bool}
    (hkeep : b = false → next op (now 1) (live (now 0) (m key)) = live (now 0) (m key))
    (hdone : done.map Prod.snd = logIf b [cmd]) : AlikeAt E t (updateKey op now key m) (replayAt h L m' done) := by
  refine replay_key hm hnow hkeep (fun _ hdone => ?_) hdone
  obtain ⟨s, rfl⟩ := map_snd_singleton hdone
  rw [replayAt_logs hl, replayAt_nil, hmu]
  have hat : ∀ i, t₀ ≤ frozen s i ∧ frozen s i ≤ t := fun _ => hin (s, cmd) (by simp)
  apply alikeAt_update hm key
  rw [hs.between (hnow 0).1 (hnow 0).2, hs'.between (hat 0).1 (hat 0).2]
  exact hop _ _ _ _ (hnow 1) (hat 1) (hm key) (live_live le_rfl _) (live_live le_rfl _)

theorem replay_expire {key : Bytes} {ttl : Int} (hr : InRange ttl) (ht : Timed E t₀ t now m (.expire key ttl))
    (hdone : done.map Prod.snd = record L now m (.expire key ttl)) :
    AlikeAt E t (mutate L now m (.expire key ttl)) (replayAt h L m' done) := by
  refine replay_key hm hnow (fun hb => ?_) (fun hset hdone => ?_) hdone
  · have hnone : live (now 0) (m key) = none := by simpa [answerKey, answer_expire] using hb
    rw [hnone]
    rfl
  · have hlive : (live (now 0) (m key)).isSome := by simpa [answerKey, answer_expire] using hset
    have hd := ht hlive
    obtain ⟨s, rfl⟩ := map_snd_singleton hdone
    have hat : t₀ ≤ s ∧ s ≤ t := hin (s, deadlineRecord now key ttl) (by simp)
    have hk := hm key
    rw [← hs.between (hnow 0).1 (hnow 0).2, ← hs'.between hat.1 hat.2] at hk
    obtain ⟨e, he⟩ := Option.isSome_iff_exists.mp hlive
    rw [he] at hk
    cases hf : live s (m' key) with
    | none => rw [hf] at hk; cases hk
    | some f =>
      rw [hf] at hk
      rw [deadlineRecord, replayAt_logs (logs_deadline h key _ hr), replayAt_nil]
      refine alikeAt_update hm key ?_
      simp only [frozen_apply, he, hf]
      rw [show next (expireAtMs (unixMilli (now 2) ttl)) s (some f) =
        if recorded (now 2) ttl ≤ s.nanos then none else some ⟨f.val, recorded (now 2) ttl⟩ from
          next_expireAtNanos_some .., ← hk.1]
      by_cases hneg : ttl ≤ 0
      · rw [if_pos hneg] at hd
        simp only [next, expire, hneg, ↓reduceIte, Effect.entry]
        rw [live_deadline hat.2 hd.2, if_pos hd.1]
        trivial
      · rw [if_neg hneg] at hd
        simp only [next, expire, hneg, ↓reduceIte, Effect.entry]
        exact alike_matches hat.2 e.val hd

theorem replay_expireAtNanos (hE : ∀ d, E d d) {key : Bytes} {dl ms : Int} {cmd text : Bytes} (hd : Aside t₀ t dl)
    (hl : Logs h [cmd, key, text] (.expireAtMs key ms text)) (hdl : wrap64 (ms * millisecond) = dl)
    (hdone : done.map Prod.snd = logIf (answerKey (expireAtNanos dl) now key m) [[cmd, key, text]]) :
    AlikeAt E t (updateKey (expireAtNanos dl) now key m) (replayAt h L m' done) := by
  refine replay_respects hm hnow hin hs hs' (respects_expireAtNanos hE hd) hl (fun now m => ?_) (fun hb => ?_) hdone
  · simp only [mutate, expireAtMs, hdl]
  · have hnone : live (now 0) (m key) = none := by simpa [answerKey, answer_expireAtNanos] using hb
    rw [hnone]
    rfl

omit hin hs hs' in
theorem replay_del (hE : ∀ d, E d d) {keys : List Bytes} (hk : keys ≠ [])
    (hdone : done.map Prod.snd = record L now m (.del keys)) :
    AlikeAt E t (mutate L now m (.del keys)) (replayAt h L m' done) := by
  simp only [record, mutate] at hdone ⊢
  by_cases hn : 0 < delCount now m keys
  · simp only [logIf, hn, decide_true, ↓reduceIte] at hdone
    obtain ⟨s, rfl⟩ := map_snd_singleton hdone
    rw [replayAt_logs (logs_del h hk), replayAt_nil]
    intro k
    simp only [mutate, delAll_apply]
    split
    · exact alike_refl hE _
    · exact hm k
  · simp only [logIf, hn, decide_false, Bool.false_eq_true, ↓reduceIte] at hdone
    rw [List.map_eq_nil_iff.mp hdone]
    exact alikeAt_of_live_eq hm (live_delAll_of_count_zero now (fun i => (hnow i).2) (by omega))

omit hin hs hs' in
theorem replay_msetnx (hE : ∀ d, E d d) {args : List Bytes} (h2 : 2 ≤ args.length) (he : args.length % 2 = 0)
    (hdone : done.map Prod.snd = record L now m (.msetnx args)) :
    AlikeAt E t (mutate L now m (.msetnx args)) (replayAt h L m' done) := by
  have hv := live_purgeAbsent now (fun i => (hnow i).2) m (pairsOf args)
  simp only [record, mutate, setNX] at hdone ⊢
  rcases hr : purgeAbsent now m (pairsOf args) with ⟨ok, m₁⟩
  rw [hr] at hv hdone
  cases ok with
  | false =>
    rw [List.map_eq_nil_iff.mp hdone]
    exact alikeAt_of_live_eq hm hv
  | true =>
    obtain ⟨s, rfl⟩ := map_snd_singleton hdone
    rw [replayAt_logs (logs_mset h h2 he), replayAt_nil]
    exact alikeAt_putView hE (alikeAt_of_live_eq hm hv) _

/-- Replaying what a mutation logged, from an alike table and at any readings
while the command ran, leads to an alike table. -/
theorem replay_step (hE : ∀ d, E d d) {mu : Mutation} (hp : mu.Proper h) (ht : Timed E t₀ t now m mu)
    (hdone : done.map Prod.snd = record L now m mu) : AlikeAt E t (mutate L now m mu) (replayAt h L m' done) := by
  cases mu with
  | noop =>
    rw [List.map_eq_nil_iff.mp hdone]
    exact hm
  | set key val ttl timed mode => exact replay_set hm hnow hin hE hp.1 hp.2 ht hdone
  | del keys => exact replay_del hm hnow hE hp hdone
  | incrBy key delta name logged =>
    exact replay_respects hm hnow hin hs hs' (respects_incrBy hE delta) hp (fun _ _ => rfl) incrBy_keeps hdone
  | append key suffix =>
    exact replay_respects hm hnow hin hs hs' (respects_append hE L suffix) (logs_append h key suffix)
      (fun _ _ => rfl) append_keeps hdone
  | expire key ttl => exact replay_expire hm hnow hin hs hs' hp ht hdone
  | expireAt key secs =>
    exact replay_expireAtNanos hm hnow hin hs hs' hE ht
      (logs_pexpireat h key (parseInt_formatInt (wrap64_inRange _))) (expireAt_recorded secs) hdone
  | expireAtMs key ms text =>
    exact replay_expireAtNanos hm hnow hin hs hs' hE ht (logs_pexpireat h key hp) rfl hdone
  | persist key =>
    exact replay_respects hm hnow hin hs hs' (respects_persist hE) (logs_persist h key) (fun _ _ => rfl)
      persist_keeps hdone
  | flush =>
    obtain ⟨s, rfl⟩ := map_snd_singleton hdone
    rw [replayAt_logs (logs_flushdb h), replayAt_nil]
    exact fun _ => trivial
  | mset args =>
    obtain ⟨s, rfl⟩ := map_snd_singleton hdone
    rw [replayAt_logs (logs_mset h hp.1 hp.2), replayAt_nil]
    exact alikeAt_putView hE hm _
  | msetnx args => exact replay_msetnx hm hnow hE hp.1 hp.2 hdone
  | getSet key val =>
    obtain ⟨s, rfl⟩ := map_snd_singleton hdone
    rw [replayAt_logs (logs_set h key val), replayAt_nil]
    simp only [mutate, update_set_always, update_getSet]
    exact alikeAt_update hm key (alike_refl hE _)

end Replay

theorem forall_logIf {P : List Bytes → Prop} {b : Bool} {l : List (List Bytes)} :
    (∀ cmd ∈ logIf b l, P cmd) ↔ (b = true → ∀ cmd ∈ l, P cmd) := by
  cases b <;> simp [logIf]

theorem logIf_forall {P : List Bytes → Prop} {b : Bool} {l : List (List Bytes)} (hl : ∀ cmd ∈ l, P cmd) :
    ∀ cmd ∈ logIf b l, P cmd := forall_logIf.mpr fun _ => hl

theorem record_isWrite {h : Host} {mu : Mutation} (hp : mu.Proper h) (now : Readings) (m : Table) :
    ∀ cmd ∈ record L now m mu, isWrite h cmd = true := by
  have one : ∀ {cmd : List Bytes} {mu' : Mutation}, Logs h cmd mu' → ∀ x ∈ [cmd], isWrite h x = true := by
    intro cmd mu' hl x hx
    rw [List.mem_singleton.mp hx]
    exact hl.1
  cases mu with
  | noop => exact fun _ hm => by cases hm
  | set key val ttl timed mode =>
    refine logIf_forall fun cmd hm => ?_
    obtain rfl | hm := List.mem_cons.mp hm
    · exact (logs_set h key val).1
    · exact logIf_forall (one (logs_deadline h key (now 2) hp.1)) cmd hm
  | del keys => exact logIf_forall (one (logs_del h hp))
  | incrBy key delta name logged => exact logIf_forall (one hp)
  | append key suffix => exact logIf_forall (one (logs_append h key suffix))
  | expire key ttl => exact logIf_forall (one (logs_deadline h key (now 2) hp))
  | expireAt key secs =>
    exact logIf_forall (one (logs_pexpireat h key (parseInt_formatInt (wrap64_inRange _))))
  | expireAtMs key ms text => exact logIf_forall (one (logs_pexpireat h key hp))
  | persist key => exact logIf_forall (one (logs_persist h key))
  | flush => exact one (logs_flushdb h)
  | mset args => exact one (logs_mset h hp.1 hp.2)
  | msetnx args => exact logIf_forall (one (logs_mset h hp.1 hp.2))
  | getSet key val => exact one (logs_set h key val)

def replayOn (h : Host) (t : Instant) (s : Store c) (l : List (List Bytes)) : Store c :=
  l.foldl (fun s cmd => (Handler.run s (frozen t) (execute h cmd)).2.1) s

end MemX.CommandReplay
