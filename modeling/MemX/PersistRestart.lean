import MemX.CommandReplay
import MemX.PersistLog

namespace MemX.PersistRestart

open MachineInt DecimalText Clock StoreState StoreRules StoreOps StoreLookup StoreView
open CommandProgram CommandHandlers CommandRegistry CommandWrites CommandEffect CommandReplay
open RespRead RespRoundTrip PersistLog

variable {c c' : Config} {α : Type} {h : Host} {L : Int} {t t' r r' lo hi : Instant} {now : Readings}

/-- How a key of the replayed store stands to the same key of the original.
`o` is what the original holds alive at the reading `t`, and `p` what the
replay holds; `r` bounds the readings of the replay so far. A key whose logged
deadline the replay has already seen pass may be gone early. -/
def Tracks (t r : Instant) (o p : Option Entry) : Prop :=
  match o with
  | none => p = none ∨ ∃ f, p = some f ∧ f.expireAt ≠ 0 ∧ f.expireAt ≤ t.nanos
  | some e =>
    if e.expireAt = 0 then p = some e
    else ∃ d, d ≠ 0 ∧ Near e.expireAt d ∧ (p = some ⟨e.val, d⟩ ∨ p = none ∧ d ≤ r.nanos)

def TracksAt (t r : Instant) (m m' : Table) : Prop := ∀ k, Tracks t r (live t (m k)) (m' k)

theorem Tracks.later {o p : Option Entry} (h : Tracks t r o p) (ht : t ≤ t') (hr : r ≤ r') :
    Tracks t' r' (live t' o) p := by
  cases o with
  | none =>
    obtain h | ⟨f, hf, h0, hd⟩ := h
    · exact Or.inl h
    · exact Or.inr ⟨f, hf, h0, hd.trans ht⟩
  | some e =>
    by_cases hz : e.expireAt = 0
    · have he : expired t' e = false := by simp [expired, hz]
      rw [live_some_of_live he]
      simpa [Tracks, hz] using h
    · simp only [Tracks, hz, ↓reduceIte] at h
      obtain ⟨d, h0, hn, hp⟩ := h
      cases he : expired t' e with
      | false =>
        rw [live_some_of_live he]
        simp only [Tracks, hz, ↓reduceIte]
        exact ⟨d, h0, hn, hp.imp_right fun hp => ⟨hp.1, hp.2.trans hr⟩⟩
      | true =>
        have hd : e.expireAt ≤ t'.nanos := by simpa [expired, hz] using he
        rw [live_some_of_expired he]
        obtain rfl | ⟨rfl, _⟩ := hp
        · exact Or.inr ⟨_, rfl, h0, hn.2.trans hd⟩
        · exact Or.inl rfl

theorem TracksAt.later {m m' : Table} (h : TracksAt t r m m') (ht : t ≤ t') (hr : r ≤ r') : TracksAt t' r' m m' :=
  fun k => live_live ht (m k) ▸ (h k).later ht hr

/-! What the replay finds under a key, at a reading after the original's. -/

theorem Tracks.found_none {p : Option Entry} (h : Tracks t r none p) (ht : t ≤ t') : live t' p = none := by
  obtain rfl | ⟨f, rfl, h0, hd⟩ := h
  · rfl
  · exact live_some_of_expired (by simpa [expired, h0] using hd.trans ht)

theorem Tracks.found_plain {e : Entry} {p : Option Entry} (h : Tracks t r (some e) p) (hz : e.expireAt = 0) :
    live t' p = some e := by
  simp only [Tracks, hz, ↓reduceIte] at h
  rw [h]
  exact live_some_of_live (by simp [expired, hz])

theorem Tracks.found_dated {e : Entry} {p : Option Entry} (h : Tracks t r (some e) p) (hz : e.expireAt ≠ 0)
    (t' : Instant) :
    ∃ d, d ≠ 0 ∧ Near e.expireAt d ∧
      (live t' p = some ⟨e.val, d⟩ ∨ live t' p = none ∧ (d ≤ r.nanos ∨ d ≤ t'.nanos)) := by
  simp only [Tracks, hz, ↓reduceIte] at h
  obtain ⟨d, h0, hn, rfl | ⟨rfl, hd⟩⟩ := h
  · refine ⟨d, h0, hn, ?_⟩
    cases he : expired t' ⟨e.val, d⟩ with
    | false => exact Or.inl (live_some_of_live he)
    | true => exact Or.inr ⟨live_some_of_expired he, Or.inr (by simpa [expired, h0] using he)⟩
  · exact ⟨d, h0, hn, Or.inr ⟨rfl, Or.inl hd⟩⟩

theorem tracks_plain (val : Bytes) : Tracks t r (live t (some ⟨val, 0⟩)) (some ⟨val, 0⟩) := by
  simp [Tracks]

theorem tracks_gone : Tracks t r (live t none) none := Or.inl rfl

theorem tracks_deadline {d d' : Int} (val : Bytes) (h0 : d ≠ 0) (h0' : d' ≠ 0) (hn : Near d d') {p : Option Entry}
    (hp : p = some ⟨val, d'⟩ ∨ p = none ∧ d' ≤ r.nanos) : Tracks t r (live t (some ⟨val, d⟩)) p := by
  have hs : Tracks t r (some ⟨val, d⟩) p := by
    simp only [Tracks, h0, ↓reduceIte]
    exact ⟨d', h0', hn, hp⟩
  exact hs.later le_rfl le_rfl

theorem tracks_update {m m' : Table} (hm : TracksAt t r m m') (key : Bytes) {x y : Option Entry}
    (hk : Tracks t r (live t x) y) : TracksAt t r (Function.update m key x) (Function.update m' key y) := by
  intro k
  by_cases he : k = key
  · subst he
    simpa using hk
  · simpa [he] using hm k

theorem tracks_putView {m m' : Table} (hm : TracksAt t r m m') (pairs : List (Bytes × Bytes)) :
    TracksAt t r (putView m pairs) (putView m' pairs) := by
  induction pairs generalizing m m' with
  | nil => exact hm
  | cons p pairs ih => exact ih (tracks_update hm p.1 (tracks_plain p.2))

structure Window (t t' : Instant) (now : Readings) : Prop where
  mono : Monotone now
  lower : t ≤ now 0
  upper : ∀ i, now i ≤ t'

/-- Executing logged commands on tables, at any readings between two bounds. -/
inductive Replays (h : Host) (L : Int) (lo hi : Instant) : Table → List (List Bytes) → Table → Prop
  | nil (m : Table) : Replays h L lo hi m [] m
  | cons {m m' : Table} {cmd : List Bytes} {l : List (List Bytes)} (now : Readings)
      (hnow : ∀ i, lo ≤ now i ∧ now i ≤ hi) (hr : Replays h L lo hi (mutate L now m (mutation h cmd)) l m') :
      Replays h L lo hi m (cmd :: l) m'

theorem Replays.of_append {m m' : Table} {l l' : List (List Bytes)} (hr : Replays h L lo hi m (l ++ l') m') :
    ∃ m₁, Replays h L lo hi m l m₁ ∧ Replays h L lo hi m₁ l' m' := by
  induction l generalizing m with
  | nil => exact ⟨m, .nil m, hr⟩
  | cons cmd l ih =>
    cases hr with
    | cons now hnow hr =>
      obtain ⟨m₁, h₁, h₂⟩ := ih hr
      exact ⟨m₁, .cons now hnow h₁, h₂⟩

theorem Replays.logged {m m' : Table} {cmd : List Bytes} {l : List (List Bytes)} {mu : Mutation}
    (hl : Logs h cmd mu) (hr : Replays h L lo hi m (cmd :: l) m') :
    ∃ now : Readings, (∀ i, lo ≤ now i ∧ now i ≤ hi) ∧ Replays h L lo hi (mutate L now m mu) l m' := by
  cases hr with
  | cons now hnow hr => exact ⟨now, hnow, hl.2 ▸ hr⟩

theorem Replays.single {m m' : Table} {cmd : List Bytes} {mu : Mutation} (hl : Logs h cmd mu)
    (hr : Replays h L lo hi m [cmd] m') :
    ∃ now : Readings, (∀ i, lo ≤ now i ∧ now i ≤ hi) ∧ m' = mutate L now m mu := by
  obtain ⟨now, hnow, hr⟩ := hr.logged hl
  cases hr with
  | nil => exact ⟨now, hnow, rfl⟩

theorem tracks_key {op : KeyOp α} {key : Bytes} {m m' m'' : Table} {l : List (List Bytes)} {b : Bool}
    (hw : Window t t' now) (hm : TracksAt t hi m m')
    (hkeep : b = false → next op (now 1) (live (now 0) (m key)) = live (now 0) (m key))
    (hdo : b = true → Replays h L lo hi m' l m'' → TracksAt t' hi (updateKey op now key m) m'')
    (hr : Replays h L lo hi m' (logIf b l) m'') : TracksAt t' hi (updateKey op now key m) m'' := by
  cases b with
  | true => exact hdo rfl hr
  | false =>
    cases hr with
    | nil =>
      intro k
      unfold updateKey
      by_cases hk : k = key
      · subst hk
        rw [Function.update_self, hkeep rfl, live_live (hw.upper 0)]
        exact hm.later (hw.lower.trans (hw.upper 0)) le_rfl k
      · rw [Function.update_of_ne hk]
        exact hm.later (hw.lower.trans (hw.upper 0)) le_rfl k

/-- A deadline that its record brings back. -/
def Restorable (d d' : Int) : Prop := d ≠ 0 ∧ d' ≠ 0 ∧ Near d d'

/-- An absolute deadline set on a live entry is not 0, and does not extend a
deadline that the entry already had. -/
def Shortens (dl : Int) (now : Instant) (e : Entry) : Prop :=
  now.nanos < dl → dl ≠ 0 ∧ (e.expireAt ≠ 0 → dl ≤ floorMs e.expireAt)

/-- A mutation whose record has the same effect at whatever later reading it
is replayed, given what its key holds when it runs. -/
def Durable (L : Int) (now : Readings) (m : Table) : Mutation → Prop
  | .set key val ttl true mode =>
    answerKey (StoreRules.set val ttl mode) now key m = true →
      Restorable (deadlineIn (now 1) ttl) (recorded (now 2) ttl)
  | .incrBy key _ _ _ =>
    ∀ e, live (now 0) (m key) = some e → e.expireAt ≠ 0 → parseInt e.val = none ∨ parseInt e.val = some 0
  | .append key suffix =>
    ∀ e, live (now 0) (m key) = some e → e.expireAt ≠ 0 → (e.val.length : Int) + suffix.length > L
  | .expire key ttl =>
    ∀ e, live (now 0) (m key) = some e →
      if ttl ≤ 0 then recorded (now 2) ttl ≤ (now 1).nanos
      else Restorable (unixNano (now 1) ttl) (recorded (now 2) ttl) ∧
        (e.expireAt ≠ 0 → recorded (now 2) ttl ≤ floorMs e.expireAt)
  | .expireAt key secs => ∀ e, live (now 0) (m key) = some e → Shortens (wrap64 (secs * second)) (now 1) e
  | .expireAtMs key ms _ => ∀ e, live (now 0) (m key) = some e → Shortens (wrap64 (ms * millisecond)) (now 1) e
  | .persist key => ∀ e, live (now 0) (m key) = some e → e.expireAt = 0
  | _ => True

section Steps

variable {m m' m'' : Table} (hw : Window t t' now) (hlo : t' ≤ lo) (hm : TracksAt t hi m m')

include hw hm

theorem tracks_window : TracksAt t' hi m m' := hm.later (hw.lower.trans (hw.upper 0)) le_rfl

theorem tracks_at_start (key : Bytes) : Tracks (now 0) hi (live (now 0) (m key)) (m' key) := by
  have hk := (hm key).later hw.lower (le_refl hi)
  rwa [live_live hw.lower] at hk

theorem tracks_set {key val : Bytes} {ttl : Int} {timed : Bool} {mode : SetMode} (hr : InRange ttl)
    (h0 : timed = false → ttl = 0) (hd : Durable L now m (.set key val ttl timed mode))
    (hrep : Replays h L lo hi m' (record L now m (.set key val ttl timed mode)) m'') :
    TracksAt t' hi (mutate L now m (.set key val ttl timed mode)) m'' := by
  refine tracks_key hw hm set_keeps (fun hdone hrep => ?_) hrep
  have hnext : updateKey (StoreRules.set val ttl mode) now key m =
      Function.update m key (some ⟨val, deadlineIn (now 1) ttl⟩) := congrArg (Function.update m key) (set_writes hdone)
  obtain ⟨now₁, _, hrep⟩ := hrep.logged (logs_set h key val)
  simp only [mutate, update_set_always] at hrep
  rw [hnext]
  cases timed with
  | false =>
    have hz : deadlineIn (now 1) ttl = 0 := by simp [h0 rfl, deadlineIn]
    rw [hz]
    cases hrep with
    | nil => exact tracks_update (tracks_window hw hm) key (tracks_plain val)
  | true =>
    obtain ⟨hd0, hd0', hn⟩ := hd hdone
    obtain ⟨now₂, hnow₂, rfl⟩ := hrep.single (logs_deadline h key (now 2) hr)
    have hk : updateKey (expireAtMs (unixMilli (now 2) ttl)) now₂ key (Function.update m' key (some ⟨val, 0⟩)) =
        Function.update m' key
          (if recorded (now 2) ttl ≤ (now₂ 1).nanos then none else some ⟨val, recorded (now 2) ttl⟩) := by
      unfold updateKey
      rw [Function.update_self, live_plain, Function.update_idem]
      exact congrArg _ (next_expireAtNanos_some ..)
    simp only [mutate, hk]
    refine tracks_update (tracks_window hw hm) key (tracks_deadline val hd0 hd0' hn ?_)
    split
    · rename_i hpast
      exact Or.inr ⟨rfl, hpast.trans (hnow₂ 1).2⟩
    · exact Or.inl rfl

theorem tracks_redate {key : Bytes} {e : Entry} {d d' : Int} (he : live (now 0) (m key) = some e)
    (hd : Restorable d d') (hs : e.expireAt ≠ 0 → d' ≤ floorMs e.expireAt) {now' : Readings}
    (hnow : ∀ i, lo ≤ now' i ∧ now' i ≤ hi) :
    TracksAt t' hi (Function.update m key (some ⟨e.val, d⟩)) (updateKey (expireAtNanos d') now' key m') := by
  obtain ⟨h0, h0', hn⟩ := hd
  have hfound := tracks_at_start hw hm key
  rw [he] at hfound
  refine tracks_update (tracks_window hw hm) key (tracks_deadline e.val h0 h0' hn ?_)
  have hset : ∀ f : Entry, f.val = e.val → live (now' 0) (m' key) = some f →
      next (expireAtNanos d') (now' 1) (live (now' 0) (m' key)) = some ⟨e.val, d'⟩ ∨
        next (expireAtNanos d') (now' 1) (live (now' 0) (m' key)) = none ∧ d' ≤ hi.nanos := by
    intro f hv hf
    rw [hf, next_expireAtNanos_some, hv]
    split
    · rename_i hpast
      exact Or.inr ⟨rfl, hpast.trans (hnow 1).2⟩
    · exact Or.inl rfl
  by_cases hz : e.expireAt = 0
  · exact hset e rfl (hfound.found_plain hz)
  · obtain ⟨d₁, _, hn₁, hf | ⟨hf, hpast⟩⟩ := hfound.found_dated hz (now' 0)
    · exact hset ⟨e.val, d₁⟩ rfl hf
    · refine Or.inr ⟨by rw [hf]; rfl, ?_⟩
      have hle : d₁ ≤ hi.nanos := hpast.elim id fun hp => hp.trans (hnow 0).2
      exact ((hs hz).trans hn₁.1).trans hle

include hlo

theorem tracks_deleted {key : Bytes} {d : Int} (hd : d ≤ t'.nanos) {now' : Readings}
    (hnow : ∀ i, lo ≤ now' i ∧ now' i ≤ hi) :
    TracksAt t' hi (Function.update m key none) (updateKey (expireAtNanos d) now' key m') := by
  have hpast : d ≤ (now' 1).nanos := hd.trans (hlo.trans (hnow 1).1)
  have hgone : next (expireAtNanos d) (now' 1) (live (now' 0) (m' key)) = none := by
    cases live (now' 0) (m' key) with
    | none => rfl
    | some f => rw [next_expireAtNanos_some, if_pos hpast]
  unfold updateKey
  rw [hgone]
  exact tracks_update (tracks_window hw hm) key tracks_gone

theorem tracks_expire {key : Bytes} {ttl : Int} (hr : InRange ttl) (hd : Durable L now m (.expire key ttl))
    (hrep : Replays h L lo hi m' (record L now m (.expire key ttl)) m'') :
    TracksAt t' hi (mutate L now m (.expire key ttl)) m'' := by
  refine tracks_key hw hm (fun hb => ?_) (fun hdone hrep => ?_) hrep
  · have hnone : live (now 0) (m key) = none := by simpa [answerKey, answer_expire] using hb
    rw [hnone]
    rfl
  · have hlive : (live (now 0) (m key)).isSome := by simpa [answerKey, answer_expire] using hdone
    obtain ⟨e, he⟩ := Option.isSome_iff_exists.mp hlive
    have hde := hd e he
    obtain ⟨now', hnow, rfl⟩ := hrep.single (logs_deadline h key (now 2) hr)
    unfold updateKey
    rw [he]
    by_cases hneg : ttl ≤ 0
    · rw [if_pos hneg] at hde
      simp only [next, expire, hneg, ↓reduceIte, Effect.entry]
      exact tracks_deleted hw hlo hm (hde.trans (hw.upper 1)) hnow
    · rw [if_neg hneg] at hde
      simp only [next, expire, hneg, ↓reduceIte, Effect.entry]
      exact tracks_redate hw hm he hde.1 hde.2 hnow

theorem tracks_expireAtNanos {key : Bytes} {dl ms : Int} {cmd text : Bytes}
    (hl : Logs h [cmd, key, text] (.expireAtMs key ms text)) (hdl : wrap64 (ms * millisecond) = dl)
    (hd : ∀ e, live (now 0) (m key) = some e → Shortens dl (now 1) e)
    (hrep : Replays h L lo hi m' (logIf (answerKey (expireAtNanos dl) now key m) [[cmd, key, text]]) m'') :
    TracksAt t' hi (updateKey (expireAtNanos dl) now key m) m'' := by
  refine tracks_key hw hm (fun hb => ?_) (fun hdone hrep => ?_) hrep
  · have hnone : live (now 0) (m key) = none := by simpa [answerKey, answer_expireAtNanos] using hb
    rw [hnone]
    rfl
  · have hlive : (live (now 0) (m key)).isSome := by simpa [answerKey, answer_expireAtNanos] using hdone
    obtain ⟨e, he⟩ := Option.isSome_iff_exists.mp hlive
    obtain ⟨now', hnow, rfl⟩ := hrep.single hl
    simp only [mutate, expireAtMs, hdl]
    have hnext : updateKey (expireAtNanos dl) now key m =
        Function.update m key (if dl ≤ (now 1).nanos then none else some ⟨e.val, dl⟩) := by
      unfold updateKey
      rw [he, next_expireAtNanos_some]
    rw [hnext]
    split
    · rename_i hpast
      exact tracks_deleted hw hlo hm (hpast.trans (hw.upper 1)) hnow
    · rename_i hfuture
      obtain ⟨h0, hs⟩ := hd e he (not_le.mp hfuture)
      exact tracks_redate hw hm he ⟨h0, h0, near_refl dl⟩ hs hnow

theorem tracks_incrBy {key : Bytes} {delta : Int} {name : String} {logged : List Bytes}
    (hp : Logs h (ascii name :: logged) (.incrBy key delta name logged))
    (hd : Durable L now m (.incrBy key delta name logged))
    (hrep : Replays h L lo hi m' (record L now m (.incrBy key delta name logged)) m'') :
    TracksAt t' hi (mutate L now m (.incrBy key delta name logged)) m'' := by
  refine tracks_key hw hm incrBy_keeps (fun hdone hrep => ?_) hrep
  obtain ⟨now', hnow, rfl⟩ := hrep.single hp
  have hstart := tracks_at_start hw hm key
  have hle : now 0 ≤ now' 0 := ((hw.upper 0).trans hlo).trans (hnow 0).1
  -- both sides store the same number without deadline
  have hsame : ∀ v, next (incrBy delta) (now 1) (live (now 0) (m key)) = some ⟨v, 0⟩ →
      next (incrBy delta) (now' 1) (live (now' 0) (m' key)) = some ⟨v, 0⟩ →
      TracksAt t' hi (updateKey (incrBy delta) now key m) (updateKey (incrBy delta) now' key m') := by
    intro v h₁ h₂
    unfold updateKey
    rw [h₁, h₂]
    exact tracks_update (tracks_window hw hm) key (tracks_plain v)
  cases he : live (now 0) (m key) with
  | none =>
    rw [he] at hstart
    exact hsame _ (by rw [he]; rfl) (by rw [hstart.found_none hle]; rfl)
  | some e =>
    rw [he] at hstart
    cases hn : parseInt e.val with
    | none => simp [he, answer, incrBy, hn, Except.isOk, Except.toBool] at hdone
    | some n =>
      have hnext : ∀ (t : Instant) (d : Int), next (incrBy delta) t (some ⟨e.val, d⟩) =
          some ⟨formatInt (wrap64 (n + delta)), 0⟩ := by
        intro t d
        simp [next, incrBy, hn, Effect.entry, plain]
      refine hsame _ (by rw [he]; exact hnext _ e.expireAt) ?_
      by_cases hz : e.expireAt = 0
      · rw [hstart.found_plain hz]
        exact hnext _ e.expireAt
      · obtain ⟨d, _, _, hf | ⟨hf, _⟩⟩ := hstart.found_dated hz (now' 0)
        · rw [hf]
          exact hnext _ d
        · have hn0 : n = 0 := by
            obtain hnone | hzero := hd e he hz
            · rw [hn] at hnone
              cases hnone
            · rw [hn] at hzero
              exact Option.some.inj hzero
          rw [hf, hn0]
          rfl

theorem tracks_append {key suffix : Bytes} (hd : Durable L now m (.append key suffix))
    (hrep : Replays h L lo hi m' (record L now m (.append key suffix)) m'') :
    TracksAt t' hi (mutate L now m (.append key suffix)) m'' := by
  refine tracks_key hw hm append_keeps (fun hdone hrep => ?_) hrep
  obtain ⟨now', hnow, rfl⟩ := hrep.single (logs_append h key suffix)
  have hstart := tracks_at_start hw hm key
  have hle : now 0 ≤ now' 0 := ((hw.upper 0).trans hlo).trans (hnow 0).1
  have hsame : live (now' 0) (m' key) = live (now 0) (m key) →
      (∀ e, live (now 0) (m key) = some e → e.expireAt = 0) →
      TracksAt t' hi (updateKey (StoreRules.append L suffix) now key m)
        (updateKey (StoreRules.append L suffix) now' key m') := by
    intro hl hz
    unfold updateKey
    rw [hl]
    refine tracks_update (tracks_window hw hm) key ?_
    cases he : live (now 0) (m key) with
    | none =>
      simp only [next, StoreRules.append]
      split
      · exact tracks_gone
      · exact tracks_plain suffix
    | some e =>
      have hez := hz e he
      obtain ⟨v, d⟩ := e
      cases hez
      simp only [next, StoreRules.append]
      split
      · exact tracks_plain v
      · exact tracks_plain (v ++ suffix)
  cases he : live (now 0) (m key) with
  | none =>
    rw [he] at hstart
    exact hsame (by rw [hstart.found_none hle, he]) (by simp [he])
  | some e =>
    rw [he] at hstart
    have hz : e.expireAt = 0 := by
      by_contra hz
      have hbig := hd e he hz
      simp [he, answer, StoreRules.append, hbig, Except.isOk, Except.toBool] at hdone
    exact hsame (by rw [hstart.found_plain hz, he]) (by simp [he, hz])

omit hlo in
theorem tracks_persist {key : Bytes} (hd : Durable L now m (.persist key))
    (hrep : Replays h L lo hi m' (record L now m (.persist key)) m'') :
    TracksAt t' hi (mutate L now m (.persist key)) m'' := by
  refine tracks_key hw hm persist_keeps (fun hdone _ => ?_) hrep
  exfalso
  cases he : live (now 0) (m key) with
  | none => simp [he, answer, persist] at hdone
  | some e => simp [he, answer, persist, hd e he] at hdone

omit hlo in
theorem tracks_unchanged {m₁ : Table} (hv : ∀ k, live t' (m₁ k) = live t' (m k)) : TracksAt t' hi m₁ m' :=
  fun k => hv k ▸ tracks_window hw hm k

omit hlo in
theorem tracks_del {keys : List Bytes} (hk : keys ≠ [])
    (hrep : Replays h L lo hi m' (record L now m (.del keys)) m'') :
    TracksAt t' hi (mutate L now m (.del keys)) m'' := by
  simp only [record, mutate] at hrep ⊢
  by_cases hn : 0 < delCount now m keys
  · simp only [logIf, hn, decide_true, ↓reduceIte] at hrep
    obtain ⟨now', _, rfl⟩ := hrep.single (logs_del h hk)
    intro k
    simp only [mutate, delAll_apply]
    split
    · exact tracks_gone
    · exact tracks_window hw hm k
  · simp only [logIf, hn, decide_false, Bool.false_eq_true, ↓reduceIte] at hrep
    cases hrep with
    | nil => exact tracks_unchanged hw hm (live_delAll_of_count_zero now hw.upper (by omega))

omit hlo in
theorem tracks_msetnx {args : List Bytes} (h2 : 2 ≤ args.length) (he : args.length % 2 = 0)
    (hrep : Replays h L lo hi m' (record L now m (.msetnx args)) m'') :
    TracksAt t' hi (mutate L now m (.msetnx args)) m'' := by
  have hv := live_purgeAbsent now hw.upper m (pairsOf args)
  simp only [record, mutate, setNX] at hrep ⊢
  rcases hr : purgeAbsent now m (pairsOf args) with ⟨ok, m₁⟩
  rw [hr] at hv hrep
  cases ok with
  | false =>
    cases hrep with
    | nil => exact tracks_unchanged hw hm hv
  | true =>
    obtain ⟨now', _, rfl⟩ := hrep.single (logs_mset h h2 he)
    exact tracks_putView (tracks_unchanged hw hm hv) (pairsOf args)

theorem tracks_step {mu : Mutation} (hp : mu.Proper h) (hd : Durable L now m mu)
    (hrep : Replays h L lo hi m' (record L now m mu) m'') : TracksAt t' hi (mutate L now m mu) m'' := by
  cases mu with
  | noop =>
    cases hrep with
    | nil => exact tracks_window hw hm
  | set key val ttl timed mode => exact tracks_set hw hm hp.1 hp.2 hd hrep
  | del keys => exact tracks_del hw hm hp hrep
  | incrBy key delta name logged => exact tracks_incrBy hw hlo hm hp hd hrep
  | append key suffix => exact tracks_append hw hlo hm hd hrep
  | expire key ttl => exact tracks_expire hw hlo hm hp hd hrep
  | expireAt key secs =>
    refine tracks_expireAtNanos hw hlo hm (logs_pexpireat h key (parseInt_formatInt (wrap64_inRange _))) ?_ hd hrep
    exact expireAt_recorded secs
  | expireAtMs key ms text => exact tracks_expireAtNanos hw hlo hm (logs_pexpireat h key hp) rfl hd hrep
  | persist key => exact tracks_persist hw hm hd hrep
  | flush =>
    obtain ⟨now', _, rfl⟩ := hrep.single (logs_flushdb h)
    exact fun _ => tracks_gone
  | mset args =>
    obtain ⟨now', _, rfl⟩ := hrep.single (logs_mset h hp.1 hp.2)
    exact tracks_putView (tracks_window hw hm) _
  | msetnx args => exact tracks_msetnx hw hm hp.1 hp.2 hrep
  | getSet key val =>
    obtain ⟨now', _, rfl⟩ := hrep.single (logs_set h key val)
    simp only [mutate, update_set_always, update_getSet]
    exact tracks_update (tracks_window hw hm) key (tracks_plain val)

end Steps

def executeAll (h : Host) (s : Store c) : List (Readings × List Bytes) → Store c × List (List Bytes)
  | [] => (s, [])
  | (now, tokens) :: rest =>
    let r := Handler.run s now (execute h tokens)
    ((executeAll h r.2.1 rest).1, r.2.2 ++ (executeAll h r.2.1 rest).2)

def replay (h : Host) (s : Store c) (nows : Nat → Readings) : List (List Bytes) → Store c
  | [] => s
  | cmd :: cmds => replay h (Handler.run s (nows 0) (execute h cmd)).2.1 (fun n => nows (n + 1)) cmds

def load (h : Host) (s : Store c) (nows : Nat → Readings) (file : Bytes) : Store c × Option ReadErr :=
  (replay h s nows (readLog file).1, (readLog file).2)

/-- Every write command of the history is durable in the state it finds, and
is as a client can send it. -/
def DurableRun (h : Host) (s : Store c) : List (Readings × List Bytes) → Prop
  | [] => True
  | (now, tokens) :: rest =>
    (isWrite h tokens = true → Within defaultLimits tokens ∧ Durable c.maxValLen now (lookup s) (mutation h tokens)) ∧
      DurableRun h (Handler.run s now (execute h tokens)).2.1 rest

theorem replays_of_replay {s : Store c} {nows : Nat → Readings} (hn : ∀ n i, lo ≤ nows n i ∧ nows n i ≤ hi)
    {cmds : List (List Bytes)} (hw : ∀ cmd ∈ cmds, isWrite h cmd = true) :
    Replays h c.maxValLen lo hi (lookup s) cmds (lookup (replay h s nows cmds)) := by
  induction cmds generalizing s nows with
  | nil => exact .nil _
  | cons cmd cmds ih =>
    obtain ⟨hcmd, hw⟩ := List.forall_mem_cons.mp hw
    refine .cons (nows 0) (hn 0) ?_
    rw [← (run_write h hcmd s (nows 0)).1]
    exact ih (fun n i => hn (n + 1) i) hw

/-- The bytes a mutation takes from its command line, and how many arguments
it passes on. -/
def parts : Mutation → List Bytes
  | .noop | .flush => []
  | .set key val _ _ _ | .getSet key val => [key, val]
  | .del keys => keys
  | .incrBy _ _ _ logged => logged
  | .append key suffix => [key, suffix]
  | .expire key _ | .expireAt key _ | .persist key => [key]
  | .expireAtMs key _ text => [key, text]
  | .mset args | .msetnx args => args

theorem arg_length {n : Int} (hn : 0 ≤ n) {args : List Bytes} (ha : ∀ a ∈ args, (a.length : Int) ≤ n) (i : Nat) :
    ((arg args i).length : Int) ≤ n := by
  unfold arg
  rw [List.getD_eq_getElem?_getD]
  cases hg : args[i]? with
  | none => simpa using hn
  | some a => exact ha a (List.mem_of_getElem? hg)

def nameLength : Mutation → Nat
  | .incrBy _ _ name _ => (ascii name).length
  | _ => 0

def PartsFit (n : Int) (args : List Bytes) (mu : Mutation) : Prop :=
  (∀ b ∈ parts mu, (b.length : Int) ≤ n) ∧ (parts mu).length ≤ max 2 args.length ∧ nameLength mu ≤ 6

section Parts

variable {n : Int} (hn : 0 ≤ n) {args : List Bytes} (ha : ∀ a ∈ args, (a.length : Int) ≤ n)

include hn ha

theorem partsFit_of_args {mu : Mutation} (hp : parts mu = [] ∨ parts mu = [arg args 0] ∨
    parts mu = [arg args 0, arg args 1] ∨ parts mu = args) (hname : nameLength mu ≤ 6) : PartsFit n args mu := by
  have h0 := arg_length hn ha 0
  have h1 := arg_length hn ha 1
  unfold PartsFit
  obtain hp | hp | hp | hp := hp <;> rw [hp]
  · simpa using hname
  · simpa using ⟨h0, hname⟩
  · simpa using ⟨⟨h0, h1⟩, hname⟩
  · exact ⟨ha, le_max_right _ _, hname⟩

theorem partsFit_expireMutation (unit : Int) : PartsFit n args (expireMutation unit args) := by
  unfold expireMutation
  cases parseInt (arg args 1) with
  | none => exact partsFit_of_args hn ha (Or.inl rfl) (Nat.zero_le 6)
  | some m =>
    by_cases hm : m ≤ 0
    · simp only [hm, ↓reduceIte]
      exact partsFit_of_args hn ha (Or.inr (Or.inl rfl)) (Nat.zero_le 6)
    · simp only [hm, ↓reduceIte]
      exact partsFit_of_args hn ha (Or.inr (Or.inl rfl)) (Nat.zero_le 6)

theorem partsFit_mutationOf (h : Host) :
    ∀ cmd ∈ commands h, cmd.write = true → PartsFit n args (mutationOf h cmd.name args) := by
  have none_ : ∀ mu : Mutation, parts mu = [] → nameLength mu ≤ 6 → PartsFit n args mu :=
    fun mu hp => partsFit_of_args hn ha (Or.inl hp)
  have one : ∀ mu : Mutation, parts mu = [arg args 0] → nameLength mu ≤ 6 → PartsFit n args mu :=
    fun mu hp => partsFit_of_args hn ha (Or.inr (Or.inl hp))
  have two : ∀ mu : Mutation, parts mu = [arg args 0, arg args 1] → nameLength mu ≤ 6 → PartsFit n args mu :=
    fun mu hp => partsFit_of_args hn ha (Or.inr (Or.inr (Or.inl hp)))
  have all : ∀ mu : Mutation, parts mu = args → nameLength mu ≤ 6 → PartsFit n args mu :=
    fun mu hp => partsFit_of_args hn ha (Or.inr (Or.inr (Or.inr hp)))
  simp only [commands, List.forall_mem_cons, Bool.false_eq_true, false_implies, forall_const, true_and,
    List.not_mem_nil, implies_true, and_true]
  refine ⟨?_, all _ rfl (Nat.zero_le 6), one _ rfl (show (ascii "INCR").length ≤ 6 by decide),
    one _ rfl (show (ascii "DECR").length ≤ 6 by decide), two _ rfl (Nat.zero_le 6),
    partsFit_expireMutation hn ha _, partsFit_expireMutation hn ha _, ?_, ?_, one _ rfl (Nat.zero_le 6),
    none_ _ rfl (Nat.zero_le 6), ?_, ?_, two _ rfl (Nat.zero_le 6), two _ rfl (Nat.zero_le 6), ?_, ?_⟩
  · simp only [mutationOf]
    cases setOptions h.cases ⟨0, false, .always⟩ (args.drop 2) with
    | error _ => exact none_ _ rfl (Nat.zero_le 6)
    | ok o => exact two _ rfl (Nat.zero_le 6)
  · simp only [mutationOf]
    cases parseInt (arg args 1) with
    | none => exact none_ _ rfl (Nat.zero_le 6)
    | some ts => exact one _ rfl (Nat.zero_le 6)
  · simp only [mutationOf]
    cases parseInt (arg args 1) with
    | none => exact none_ _ rfl (Nat.zero_le 6)
    | some ms => exact two _ rfl (Nat.zero_le 6)
  · simp only [mutationOf]
    split
    · exact none_ _ rfl (Nat.zero_le 6)
    · exact all _ rfl (Nat.zero_le 6)
  · simp only [mutationOf]
    split
    · exact none_ _ rfl (Nat.zero_le 6)
    · exact all _ rfl (Nat.zero_le 6)
  · simp only [mutationOf]
    cases parseInt (arg args 1) with
    | none => exact none_ _ rfl (Nat.zero_le 6)
    | some delta => exact two _ rfl (show (ascii "INCRBY").length ≤ 6 by decide)
  · simp only [mutationOf]
    cases parseInt (arg args 1) with
    | none => exact none_ _ rfl (Nat.zero_le 6)
    | some delta => exact two _ rfl (show (ascii "DECRBY").length ≤ 6 by decide)

end Parts

def Fits (ps : List Bytes) : Prop :=
  (ps.length : Int) < defaultLimits.maxArgs ∧ ∀ b ∈ ps, (b.length : Int) ≤ defaultLimits.maxBulkLen

theorem within_named {name : Bytes} (hname : name.length ≤ 9) (ps : List Bytes) :
    Within defaultLimits (name :: ps) ↔ Fits ps := by
  have hn : (name.length : Int) ≤ defaultLimits.maxBulkLen := by
    simp only [defaultLimits]
    omega
  simp only [Within, Fits, ne_eq, reduceCtorEq, not_false_eq_true, true_and, List.length_cons, List.forall_mem_cons, hn]
  refine and_congr_left fun _ => ?_
  omega

theorem within_dated {n : Int} (hr : InRange n) (key : Bytes) :
    Within defaultLimits [ascii "PEXPIREAT", key, formatInt n] ↔ Fits [key] := by
  have hl := formatInt_length hr
  rw [within_named (by decide)]
  simp only [Fits, defaultLimits, List.length_cons, List.length_nil, List.forall_mem_cons, List.not_mem_nil,
    false_implies, implies_true, and_true]
  omega

/-- Whether a mutation is carried out, as its operation reports. -/
def takesEffect (maxValLen : Int) (now : Readings) (m : Table) : Mutation → Bool
  | .noop => false
  | .set key val ttl _ mode => answerKey (StoreRules.set val ttl mode) now key m
  | .del keys => 0 < delCount now m keys
  | .incrBy key delta _ _ => (answerKey (StoreRules.incrBy delta) now key m).isOk
  | .append key suffix => (answerKey (StoreRules.append maxValLen suffix) now key m).isOk
  | .expire key ttl => answerKey (StoreRules.expire ttl) now key m
  | .expireAt key secs => answerKey (StoreRules.expireAt secs) now key m
  | .expireAtMs key ms _ => answerKey (StoreRules.expireAtMs ms) now key m
  | .persist key => answerKey StoreRules.persist now key m
  | .msetnx args => (setNX now m (pairsOf args)).1
  | .flush | .mset _ | .getSet _ _ => true

theorem record_within_iff {mu : Mutation} (hp : mu.Proper h) (hname : nameLength mu ≤ 6) (now : Readings) (m : Table) :
    (∀ cmd ∈ record L now m mu, Within defaultLimits cmd) ↔ (takesEffect L now m mu = true → Fits (parts mu)) := by
  cases mu with
  | noop => simp [record, takesEffect]
  | set key val ttl timed mode =>
    refine forall_logIf.trans (imp_congr_right fun _ => ?_)
    rw [List.forall_mem_cons, within_named (by decide), forall_logIf]
    refine and_iff_left_of_imp fun hfit _ => ?_
    have hkey : Fits [key] := ⟨by simp [defaultLimits], by simpa using hfit.2 key (by simp)⟩
    rw [List.forall_mem_singleton]
    exact (within_dated (unixMilli_inRange (now 2) hp.1) key).mpr hkey
  | expire key ttl =>
    refine forall_logIf.trans (imp_congr_right fun _ => ?_)
    rw [List.forall_mem_singleton]
    exact within_dated (unixMilli_inRange (now 2) hp) key
  | expireAt key secs =>
    refine forall_logIf.trans (imp_congr_right fun _ => ?_)
    rw [List.forall_mem_singleton]
    exact within_dated (wrap64_inRange _) key
  | incrBy key delta name logged =>
    refine forall_logIf.trans (imp_congr_right fun _ => ?_)
    rw [List.forall_mem_singleton]
    exact within_named (hname.trans (by omega)) logged
  | del _ | append _ _ | expireAtMs _ _ _ | persist _ | msetnx _ =>
    refine forall_logIf.trans (imp_congr_right fun _ => ?_)
    rw [List.forall_mem_singleton]
    exact within_named (by decide) _
  | flush | mset _ | getSet _ _ =>
    simp only [record, List.forall_mem_singleton, takesEffect, forall_const]
    exact within_named (by decide) _

theorem mutation_fits {tokens : List Bytes} (hw : isWrite h tokens = true) (hl : Within defaultLimits tokens) :
    Fits (parts (mutation h tokens)) := by
  unfold isWrite at hw
  unfold mutation
  cases hd : dispatch h tokens with
  | refuse r =>
    rw [hd] at hw
    cases hw
  | run cmd args =>
    simp only [hd] at hw
    obtain ⟨hm, _, tok, rfl⟩ := dispatch_run hd
    obtain ⟨_, hlen, ha⟩ := hl
    obtain ⟨hb, hparts, _⟩ := partsFit_mutationOf (by decide) (List.forall_mem_cons.mp ha).2 h cmd hm hw
    refine ⟨?_, hb⟩
    simp only [List.length_cons, defaultLimits] at hlen ⊢
    omega

theorem mutation_nameLength {tokens : List Bytes} (hw : isWrite h tokens = true) :
    nameLength (mutation h tokens) ≤ 6 := by
  unfold isWrite at hw
  unfold mutation
  cases hd : dispatch h tokens with
  | refuse r =>
    rw [hd] at hw
    cases hw
  | run cmd args =>
    simp only [hd] at hw
    have hsum : ∀ a ∈ args, (a.length : Int) ≤ ((args.map List.length).sum : Nat) := by
      intro a ha
      exact_mod_cast List.le_sum_of_mem (List.mem_map_of_mem ha)
    exact (partsFit_mutationOf (by omega) hsum h cmd (dispatch_run hd).1 hw).2.2

theorem record_within {tokens : List Bytes} (hw : isWrite h tokens = true) (now : Readings) (m : Table) :
    (∀ cmd ∈ record L now m (mutation h tokens), Within defaultLimits cmd) ↔
      (takesEffect L now m (mutation h tokens) = true → Fits (parts (mutation h tokens))) :=
  record_within_iff (mutation_proper hw) (mutation_nameLength hw) now m

def Nondecreasing (hist : List (Readings × List Bytes)) : Prop :=
  (∀ x ∈ hist, Monotone x.1) ∧ hist.Pairwise fun x y => ∀ i j, x.1 i ≤ y.1 j

theorem log_isWrite_within {s : Store c} {hist : List (Readings × List Bytes)} (hd : DurableRun h s hist) :
    ∀ cmd ∈ (executeAll h s hist).2, isWrite h cmd = true ∧ Within defaultLimits cmd := by
  induction hist generalizing s with
  | nil => exact fun _ hm => by cases hm
  | cons x hist ih =>
    obtain ⟨now, tokens⟩ := x
    intro cmd hm
    obtain hm | hm := List.mem_append.mp hm
    · cases hw : isWrite h tokens with
      | true =>
        obtain ⟨hwithin, _⟩ := hd.1 hw
        rw [(run_write h hw s now).2] at hm
        exact ⟨record_isWrite (mutation_proper hw) _ _ cmd hm,
          (record_within hw _ _).mpr (fun _ => mutation_fits hw hwithin) cmd hm⟩
      | false =>
        have hrec : (Handler.run s now (execute h tokens)).2.2 = [] := readOnly_log (execute_read hw) s now
        rw [hrec] at hm
        cases hm
    · exact ih hd.2 cmd hm

theorem tracks_executeAll {s : Store c} {hist : List (Readings × List Bytes)} {m' m'' : Table}
    (hn : Nondecreasing hist) (hd : DurableRun h s hist) (hlo : t ≤ lo)
    (hb : ∀ x ∈ hist, ∀ i, t ≤ x.1 i ∧ x.1 i ≤ lo) (hm : TracksAt t hi (lookup s) m')
    (hrep : Replays h c.maxValLen lo hi m' (executeAll h s hist).2 m'') :
    TracksAt lo hi (lookup (executeAll h s hist).1) m'' := by
  induction hist generalizing s t m' with
  | nil =>
    cases hrep with
    | nil => exact hm.later hlo le_rfl
  | cons x hist ih =>
    obtain ⟨now, tokens⟩ := x
    obtain ⟨m₁, hrep₁, hrep₂⟩ := hrep.of_append
    obtain ⟨hmono, hpair⟩ := hn
    rw [List.pairwise_cons] at hpair
    -- the readings of this command end where those of the next begin
    obtain ⟨t', hup, hle, hnext⟩ : ∃ t', (∀ i, now i ≤ t') ∧ t' ≤ lo ∧ ∀ y ∈ hist, ∀ i, t' ≤ y.1 i := by
      cases hist with
      | nil => exact ⟨lo, fun i => (hb (now, tokens) (by simp) i).2, le_rfl, by simp⟩
      | cons y rest =>
        refine ⟨y.1 0, fun i => hpair.1 y (by simp) i 0, (hb y (by simp) 0).2, fun z hz i => ?_⟩
        obtain rfl | hz := List.mem_cons.mp hz
        · exact hmono z (by simp) (Nat.zero_le i)
        · exact (List.pairwise_cons.mp hpair.2).1 z hz 0 i
    have hw : Window t t' now := ⟨hmono (now, tokens) (by simp), (hb (now, tokens) (by simp) 0).1, hup⟩
    refine ih ⟨fun y hy => hmono y (by simp [hy]), hpair.2⟩ hd.2 hle
      (fun y hy i => ⟨hnext y hy i, (hb y (by simp [hy]) i).2⟩) ?_ hrep₂
    cases hwr : isWrite h tokens with
    | true =>
      obtain ⟨hlook, hrec⟩ := run_write h hwr s now
      rw [hlook]
      rw [hrec] at hrep₁
      exact tracks_step hw hle hm (mutation_proper hwr) (hd.1 hwr).2 hrep₁
    | false =>
      have hrec : (Handler.run s now (execute h tokens)).2.2 = [] := readOnly_log (execute_read hwr) s now
      rw [hrec] at hrep₁
      cases hrep₁ with
      | nil => exact tracks_unchanged hw hm (live_readOnly (execute_read hwr) s now hup)

theorem tracks_views {o p : Option Entry} (hlive : live t o = o) (h : Tracks t t o p) :
    (live t p).map summary = o.map summary ∨
      ∃ e, o = some e ∧ e.expireAt ≠ 0 ∧ t.nanos < e.expireAt ∧ e.expireAt < t.nanos + millisecond := by
  cases o with
  | none => exact Or.inl (by rw [h.found_none le_rfl])
  | some e =>
    by_cases hz : e.expireAt = 0
    · exact Or.inl (by rw [h.found_plain hz])
    · obtain ⟨d, h0, hn, hf | ⟨_, hd⟩⟩ := h.found_dated hz t
      · refine Or.inl ?_
        have hb : (d != 0) = (e.expireAt != 0) := by rw [bne_iff_ne.mpr hz, bne_iff_ne.mpr h0]
        rw [hf]
        simp [summary, hb]
      · refine Or.inr ⟨e, rfl, hz, lt_of_live hlive hz, ?_⟩
        have hle : d ≤ t.nanos := hd.elim id id
        have hf := hn.1
        unfold floorMs millisecond at hf
        unfold millisecond
        omega

/-- Wall-clock independent replay: the log of a durable history, loaded at any
readings after it, gives at every later time the keys, the values and the
presence of deadlines of the original, up to deadlines within a millisecond. -/
theorem load_restores_history (h : Host) {hist : List (Readings × List Bytes)} (hn : Nondecreasing hist)
    (hd : DurableRun h (new c) hist) {last t : Instant} (hlast : ∀ x ∈ hist, ∀ i, x.1 i ≤ last) (c' : Config)
    (hL : c'.maxValLen = c.maxValLen) {nows : Nat → Readings} (hnows : ∀ n i, last ≤ nows n i ∧ nows n i ≤ t) :
    (load h (new c') nows (encodeLog (executeAll h (new c) hist).2)).2 = none ∧
      ∀ k, (view (load h (new c') nows (encodeLog (executeAll h (new c) hist).2)).1 t k).map summary =
          (view (executeAll h (new c) hist).1 t k).map summary ∨
        ∃ e, lookup (executeAll h (new c) hist).1 k = some e ∧ e.expireAt ≠ 0 ∧ t.nanos < e.expireAt ∧
          e.expireAt < t.nanos + millisecond := by
  have hlog := log_isWrite_within hd
  have hread := readLog_encodeLog _ fun cmd hm => (hlog cmd hm).2
  have hlt : last ≤ t := (hnows 0 0).1.trans (hnows 0 0).2
  have hrep := replays_of_replay (s := new c') hnows fun cmd hm => (hlog cmd hm).1
  rw [hL] at hrep
  have hfirst : ∀ x : Instant, (⟨-2 ^ 63, by decide⟩ : Instant) ≤ x := fun x => x.inRange.1
  have htr := tracks_executeAll hn hd (hfirst last) (fun x hx i => ⟨hfirst _, hlast x hx i⟩)
    (fun _ => Or.inl rfl) hrep
  refine ⟨by rw [load, hread], fun k => ?_⟩
  rw [load, hread]
  obtain heq | ⟨e, he, hrest⟩ := tracks_views (live_live le_rfl _) (htr.later hlt le_rfl k)
  · exact Or.inl heq
  · exact Or.inr ⟨e, (live_eq_some.mp he).1, hrest⟩

instance (d d' : Int) : Decidable (Restorable d d') := inferInstanceAs (Decidable (_ ∧ _ ∧ _))

instance (dl : Int) (now : Instant) (e : Entry) : Decidable (Shortens dl now e) :=
  inferInstanceAs (Decidable (_ → _ ∧ (_ → _)))

instance (L : Int) (now : Readings) (m : Table) (mu : Mutation) : Decidable (Durable L now m mu) :=
  match mu with
  | .set _ _ _ true _ => inferInstanceAs (Decidable (_ → _))
  | .incrBy key _ _ _ => inferInstanceAs (Decidable (∀ e ∈ live (now 0) (m key), _ → (_ ∨ _)))
  | .append key _ => inferInstanceAs (Decidable (∀ e ∈ live (now 0) (m key), _ → _))
  | .expire key ttl => inferInstanceAs (Decidable (∀ e ∈ live (now 0) (m key), if ttl ≤ 0 then _ else _ ∧ (_ → _)))
  | .expireAt key _ => inferInstanceAs (Decidable (∀ e ∈ live (now 0) (m key), Shortens _ _ e))
  | .expireAtMs key _ _ => inferInstanceAs (Decidable (∀ e ∈ live (now 0) (m key), Shortens _ _ e))
  | .persist key => inferInstanceAs (Decidable (∀ e ∈ live (now 0) (m key), e.expireAt = 0))
  | .set _ _ _ false _ | .noop | .del _ | .flush | .mset _ | .msetnx _ | .getSet _ _ => isTrue trivial

def decidableDurableRun (h : Host) : (s : Store c) → (hist : List (Readings × List Bytes)) →
    Decidable (DurableRun h s hist)
  | _, [] => isTrue trivial
  | s, (now, tokens) :: rest =>
    have := decidableDurableRun h (Handler.run s now (execute h tokens)).2.1 rest
    inferInstanceAs (Decidable ((_ → _ ∧ _) ∧ _))

instance (h : Host) (s : Store c) (hist : List (Readings × List Bytes)) : Decidable (DurableRun h s hist) :=
  decidableDurableRun h s hist

def atMs (n : Int) : Instant := instant (n * millisecond)

def atTimes (l : List (Instant × List Bytes)) : List (Readings × List Bytes) := l.map fun x => (frozen x.1, x.2)

theorem nondecreasing_atTimes {l : List (Instant × List Bytes)} (hl : l.Pairwise fun x y => x.1 ≤ y.1) :
    Nondecreasing (atTimes l) := by
  refine ⟨fun x hx => ?_, List.pairwise_map.mpr (hl.imp fun hxy _ _ => hxy)⟩
  obtain ⟨y, _, rfl⟩ := List.mem_map.mp hx
  exact fun _ _ _ => le_refl y.1

theorem atTimes_le {l : List (Instant × List Bytes)} (hl : ∀ x ∈ l, x.1 ≤ t) : ∀ x ∈ atTimes l, ∀ i, x.1 i ≤ t := by
  intro x hx i
  obtain ⟨y, hy, rfl⟩ := List.mem_map.mp hx
  exact hl y hy

def datedHistory : List (Instant × List Bytes) :=
  [(atMs 1, [ascii "SET", ascii "k", ascii "v"]), (atMs 2, [ascii "INCR", ascii "n"]),
    (atMs 3, [ascii "PEXPIRE", ascii "k", ascii "20"]), (atMs 4, [ascii "GET", ascii "k"])]

theorem datedHistory_restored :
    DurableRun host (new twoShards) (atTimes datedHistory) ∧
      ∀ k, (view (load host (new twoShards) (fun _ => frozen (atMs 9))
            (encodeLog (executeAll host (new twoShards) (atTimes datedHistory)).2)).1 (atMs 9) k).map summary =
          (view (executeAll host (new twoShards) (atTimes datedHistory)).1 (atMs 9) k).map summary ∨
        ∃ e, lookup (executeAll host (new twoShards) (atTimes datedHistory)).1 k = some e ∧ e.expireAt ≠ 0 ∧
          (atMs 9).nanos < e.expireAt ∧ e.expireAt < (atMs 9).nanos + millisecond :=
  ⟨by decide +kernel,
    (load_restores_history host (nondecreasing_atTimes (by decide +kernel)) (by decide +kernel)
      (atTimes_le (t := atMs 4) (by decide +kernel)) twoShards rfl
      fun _ _ => ⟨show atMs 4 ≤ atMs 9 by decide +kernel, le_rfl⟩).2⟩

/-- A value is appended to while its key has a deadline. -/
def appendHistory : List (Instant × List Bytes) :=
  [(atMs 1, [ascii "SET", ascii "k", ascii "v"]), (atMs 2, [ascii "PEXPIRE", ascii "k", ascii "10"]),
    (atMs 3, [ascii "APPEND", ascii "k", ascii "x"])]

/-- Loaded after the deadline, the log brings the key back: `PEXPIREAT` deletes
it, and `APPEND` makes a new one that never expires. -/
theorem appendHistory_resurrects :
    Nondecreasing (atTimes appendHistory) ∧ (∀ x ∈ atTimes appendHistory, ∀ i, x.1 i ≤ atMs 3) ∧
      view (executeAll host (new twoShards) (atTimes appendHistory)).1 (atMs 30) (ascii "k") = none ∧
      view (load host (new twoShards) (fun _ => frozen (atMs 30))
        (encodeLog (executeAll host (new twoShards) (atTimes appendHistory)).2)).1 (atMs 30) (ascii "k") =
          some ⟨ascii "x", 0⟩ :=
  ⟨nondecreasing_atTimes (by decide +kernel), atTimes_le (by decide +kernel), by decide +kernel, by decide +kernel⟩

end MemX.PersistRestart
