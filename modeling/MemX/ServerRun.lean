import MemX.CommandReplay

namespace MemX.ServerRun

open MachineInt DecimalText Clock StoreState StoreRules StoreOps StoreLookup StoreInvariants StoreView
open CommandProgram CommandHandlers CommandRegistry CommandWrites CommandEffect CommandReplay RespWrite

variable {c : Config} {α β : Type} {t : Instant}

/-- The server with its propagator attached: any number of clients, each with
the rest of the command it is executing, and any number of sweeps, each with
the elements it has popped and not yet purged. The log is kept with the
reading at which each record was written. -/
structure Server (c : Config) where
  store : Store c
  clock : Instant
  tasks : Nat → Option (Handler Reply)
  writeMu : Option Nat
  sweeps : Nat → List ExpEntry
  log : List (Instant × List Bytes)

def init (c : Config) (t : Instant) : Server c := ⟨new c, t, fun _ => none, none, fun _ => [], []⟩

/-- What happens next. `advance` comes with the times that the clock shows
while a critical section runs, at its readings and at its end. -/
inductive Event
  | start (i : Nat) (tokens : List Bytes)
  | advance (i : Nat) (ts : List Instant)
  | pop (j : Nat)
  | purge (j : Nat)
  | tick (t : Instant)

def assign (σ : Server c) (i : Nat) (p : Option (Handler Reply)) : Server c :=
  { σ with tasks := Function.update σ.tasks i p }

def release (σ : Server c) (i : Nat) : Server c :=
  { σ with writeMu := if σ.writeMu = some i then none else σ.writeMu }

theorem release_writeMu (σ : Server c) (i j : Nat) :
    (release σ i).writeMu = some j ↔ σ.writeMu = some j ∧ j ≠ i := by
  unfold release
  by_cases hi : σ.writeMu = some i
  · simp [hi]
    omega
  · simp only [hi, ↓reduceIte, iff_self_and]
    rintro hj rfl
    exact hi hj

def advance (σ : Server c) (i : Nat) (ts : List Instant) : Handler Reply → Server c
  | .pure _ => release (assign σ i none) i
  | .call a k =>
    assign { σ with
      store := (a.exec σ.store (passing σ.clock ts)).2
      clock := ts.getLastD σ.clock } i (some (k (a.exec σ.store (passing σ.clock ts)).1))
  | .propagate cmd k => assign { σ with log := σ.log ++ [(σ.clock, cmd)] } i (some k)

/-- A write command takes `writeMu` when it starts and gives it back when it
ends. Nothing stops the clock: it moves between steps and inside sections. -/
def step (h : Host) (σ : Server c) : Event → Option (Server c)
  | .start i tokens =>
    if (σ.tasks i).isSome then none
    else if isWrite h tokens then
      if σ.writeMu = none then some { assign σ i (some (execute h tokens)) with writeMu := some i } else none
    else some (assign σ i (some (execute h tokens)))
  | .advance i ts => if (σ.clock :: ts).Pairwise (· ≤ ·) then (σ.tasks i).map (advance σ i ts) else none
  | .pop j =>
    if σ.sweeps j = [] then
      some { σ with
        store := (popDue σ.store σ.clock).2
        sweeps := Function.update σ.sweeps j (popDue σ.store σ.clock).1 }
    else none
  | .purge j =>
    match σ.sweeps j with
    | [] => none
    | d :: ds => some { σ with store := purgeDue σ.store d, sweeps := Function.update σ.sweeps j ds }
  | .tick t => if σ.clock ≤ t then some { σ with clock := t } else none

inductive Reaches (h : Host) (P : Server c → Event → Prop) (σ : Server c) : Server c → Prop
  | refl : Reaches h P σ σ
  | step {σ₁ σ₂ : Server c} {e : Event} :
      Reaches h P σ σ₁ → P σ₁ e → step h σ₁ e = some σ₂ → Reaches h P σ σ₂

theorem Reaches.mono {h : Host} {P Q : Server c → Event → Prop} (hPQ : ∀ σ e, P σ e → Q σ e) {σ σ' : Server c}
    (hr : Reaches h P σ σ') : Reaches h Q σ σ' := by
  induction hr with
  | refl => exact .refl
  | step _ hp hs ih => exact .step ih (hPQ _ _ hp) hs

/-- No deadline of exactly 0 is set, which would stand for "no expiry". -/
def SectionZeroFree (s : Store c) (now : Readings) : Section → Prop
  | .expire key ttl => (view s (now 0) key).isSome → ttl > 0 → unixNano (now 1) ttl ≠ 0
  | .expireAt key secs => (view s (now 0) key).isSome → (now 1).nanos < 0 → wrap64 (secs * second) ≠ 0
  | .expireAtMs key ms => (view s (now 0) key).isSome → (now 1).nanos < 0 → wrap64 (ms * millisecond) ≠ 0
  | _ => True

def EventZeroFree (σ : Server c) : Event → Prop
  | .advance i ts =>
    match σ.tasks i with
    | some (.call a _) => SectionZeroFree σ.store (passing σ.clock ts) a
    | _ => True
  | _ => True

def Still (h : Host) (σ : Server c) (e : Event) : Prop :=
  σ.writeMu ≠ none → ∀ σ' ∈ step h σ e, σ'.clock = σ.clock

instance (s : Store c) (now : Readings) (a : Section) : Decidable (SectionZeroFree s now a) :=
  match a with
  | .expire _ _ => inferInstanceAs (Decidable (_ → _ → _))
  | .expireAt _ _ => inferInstanceAs (Decidable (_ → _ → _))
  | .expireAtMs _ _ => inferInstanceAs (Decidable (_ → _ → _))
  | .get _ | .set _ _ _ _ | .del _ | .existsKey _ | .incrBy _ _ | .append _ _ | .remaining _ | .persist _
  | .getSet _ _ | .setNXMulti _ | .clearShards | .clearHeap | .shardKeys _ _ | .shardCount | .len | .now =>
    isTrue trivial

instance (σ : Server c) (e : Event) : Decidable (EventZeroFree σ e) :=
  match e with
  | .advance i ts =>
    match h : σ.tasks i with
    | some (.call a _) =>
      decidable_of_iff (SectionZeroFree σ.store (passing σ.clock ts) a) (by simp [EventZeroFree, h])
    | some (.pure _) => isTrue (by simp [EventZeroFree, h])
    | some (.propagate _ _) => isTrue (by simp [EventZeroFree, h])
    | none => isTrue (by simp [EventZeroFree, h])
  | .start _ _ | .pop _ | .purge _ | .tick _ => isTrue trivial

instance (h : Host) (σ : Server c) (e : Event) : Decidable (Still h σ e) := inferInstanceAs (Decidable (_ → _))

def runWhile (h : Host) (P : Server c → Event → Prop) [∀ σ e, Decidable (P σ e)] (σ : Server c) :
    List Event → Option (Server c)
  | [] => some σ
  | e :: es => if P σ e then (step h σ e).bind (fun σ => runWhile h P σ es) else none

theorem reaches_of_runWhile {h : Host} {P : Server c → Event → Prop} [∀ σ e, Decidable (P σ e)] {es : List Event}
    {σ₀ σ σ' : Server c} (hr : Reaches h P σ₀ σ) (hes : runWhile h P σ es = some σ') : Reaches h P σ₀ σ' := by
  induction es generalizing σ with
  | nil =>
    cases hes
    exact hr
  | cons e es ih =>
    simp only [runWhile, Option.ite_none_right_eq_some, Option.bind_eq_some_iff] at hes
    obtain ⟨hp, σ₁, hs, hes⟩ := hes
    exact ih (.step hr hp hs) hes

theorem dated_exec {s : Store c} (h : Dated s) {now : Readings} {a : Section} (hz : SectionZeroFree s now a) :
    Dated (a.exec s now).2 := by
  cases a with
  | get key => exact dated_onKey_untracked h pushed_get _ key
  | set key val ttl mode => exact dated_onKey h _ _ key (pushed_set_ne_zero val ttl mode (now 1) _)
  | del key => exact dated_onKey_untracked h pushed_del _ key
  | incrBy key delta => exact dated_onKey_untracked h (pushed_incrBy delta) _ key
  | append key suffix => exact dated_onKey_untracked h (pushed_append _ suffix) _ key
  | expire key ttl => exact dated_onKey h _ _ key (pushed_expire_ne_zero hz)
  | expireAt key secs => exact dated_onKey h _ _ key (pushed_expireAtNanos_ne_zero hz)
  | expireAtMs key ms => exact dated_onKey h _ _ key (pushed_expireAtNanos_ne_zero hz)
  | remaining key => exact dated_onKey_untracked h pushed_ttl _ key
  | persist key => exact dated_onKey_untracked h pushed_persist _ key
  | getSet key val => exact dated_onKey_untracked h (pushed_getSet val) _ key
  | setNXMulti pairs =>
    show ∀ d ∈ (StoreOps.setNXMulti s now pairs).2.exp, d.deadline ≠ 0
    rw [setNXMulti_exp]
    exact h
  | clearHeap => exact fun d hd => absurd hd (MinQueue.not_mem_empty d)
  | existsKey _ | clearShards | shardKeys _ _ | shardCount | len | now => exact h

/-- The sections whose result and effect are determined by the live view. -/
def onView : Section → Bool
  | .shardKeys _ _ | .shardCount | .len => false
  | _ => true

theorem readings_congr {a : Section} (ha : onView a = true) (s s' : Store c) : a.readings s = a.readings s' := by
  cases a with
  | shardKeys _ _ | shardCount | len => cases ha
  | _ => rfl

theorem checkAbsent_firstReadings (s : Store c) {now now' : Readings} {pairs : List (Bytes × Bytes)}
    (h : ∀ n < pairs.length, now n = now' n) : checkAbsent s now pairs = checkAbsent s now' pairs := by
  induction pairs generalizing s now now' with
  | nil => rfl
  | cons p pairs ih =>
    have h0 : now 0 = now' 0 := h 0 (by simp)
    have hrest : ∀ n < pairs.length, later 1 now n = later 1 now' n := fun n hn => h (n + 1) (by simpa using hn)
    unfold checkAbsent
    cases lookup s p.1 with
    | none => exact ih s hrest
    | some e =>
      simp only [h0]
      rw [ih _ hrest]

theorem exec_firstReadings {a : Section} (ha : onView a = true) (s : Store c) {now now' : Readings}
    (h : ∀ n < a.readings s, now n = now' n) : a.exec s now = a.exec s now' := by
  have hkey : a.readings s = 2 → ∀ {β : Type} (op : KeyOp β) (key : Bytes),
      onKey op s now key = onKey op s now' key := by
    intro h2 β op key
    unfold onKey
    rw [h 0 (by omega), h 1 (by omega)]
  cases a with
  | existsKey key =>
    unfold Section.exec StoreOps.existsKey
    rw [h 0 (by simp [Section.readings])]
  | setNXMulti pairs =>
    show StoreOps.setNXMulti s now pairs = StoreOps.setNXMulti s now' pairs
    unfold StoreOps.setNXMulti
    rw [checkAbsent_firstReadings s h]
  | now => exact congrArg (·, s) (h 0 (by simp [Section.readings]))
  | clearShards | clearHeap => rfl
  | shardKeys _ _ | shardCount | len => cases ha
  | _ => exact hkey rfl _ _

theorem onKey_congr (op : KeyOp α) {s s' : Store c} (hv : view s t = view s' t) {now : Readings}
    (hnow : ∀ n, t ≤ now n) (key : Bytes) :
    (onKey op s now key).1 = (onKey op s' now key).1 ∧
      view (onKey op s now key).2 t = view (onKey op s' now key).2 t := by
  have h0 : view s (now 0) key = view s' (now 0) key := by
    rw [view_later s (hnow 0), view_later s' (hnow 0), hv]
  constructor
  · simp only [onKey_answer, h0]
  · funext k
    simp only [view_onKey, h0, hv]

theorem purgeAbsent_congr {m m' : Table} (hv : ∀ k, live t (m k) = live t (m' k)) {now : Readings}
    (hnow : ∀ n, t ≤ now n) (pairs : List (Bytes × Bytes)) :
    (purgeAbsent now m pairs).1 = (purgeAbsent now m' pairs).1 ∧
      ∀ k, live t ((purgeAbsent now m pairs).2 k) = live t ((purgeAbsent now m' pairs).2 k) := by
  induction pairs generalizing now m m' with
  | nil => exact ⟨rfl, hv⟩
  | cons p pairs ih =>
    have h0 : live (now 0) (m p.1) = live (now 0) (m' p.1) := by
      rw [← live_live (hnow 0), hv, live_live (hnow 0)]
    have hu : ∀ k, live t (Function.update m p.1 none k) = live t (Function.update m' p.1 none k) := by
      intro k
      by_cases hk : k = p.1
      · simp [hk]
      · simpa [hk] using hv k
    unfold purgeAbsent
    rw [h0]
    split
    · exact ⟨rfl, hv⟩
    · exact ih hu fun n => hnow (n + 1)

theorem live_putView {m m' : Table} (hv : ∀ k, live t (m k) = live t (m' k)) (pairs : List (Bytes × Bytes))
    (k : Bytes) :
    live t (putView m pairs k) = live t (putView m' pairs k) := by
  induction pairs generalizing m m' with
  | nil => exact hv k
  | cons p pairs ih =>
    apply ih
    intro k
    by_cases hk : k = p.1
    · simp [hk]
    · simpa [hk] using hv k

theorem setNX_congr {m m' : Table} (hv : ∀ k, live t (m k) = live t (m' k)) {now : Readings}
    (hnow : ∀ n, t ≤ now n) (pairs : List (Bytes × Bytes)) :
    (setNX now m pairs).1 = (setNX now m' pairs).1 ∧
      ∀ k, live t ((setNX now m pairs).2 k) = live t ((setNX now m' pairs).2 k) := by
  obtain ⟨hok, hlive⟩ := purgeAbsent_congr hv hnow pairs
  unfold setNX
  cases hr : purgeAbsent now m pairs with
  | mk ok m₁ =>
    cases hr' : purgeAbsent now m' pairs with
    | mk ok' m₁' =>
      simp only [hr, hr'] at hok hlive
      subst hok
      cases ok with
      | false => exact ⟨rfl, hlive⟩
      | true => exact ⟨rfl, live_putView hlive pairs⟩

theorem exec_congr {a : Section} (ha : onView a = true) {s s' : Store c} (hv : view s t = view s' t) {now : Readings}
    (hnow : ∀ n, t ≤ now n) :
    (a.exec s now).1 = (a.exec s' now).1 ∧ view (a.exec s now).2 t = view (a.exec s' now).2 t := by
  cases a with
  | existsKey key =>
    have hx : ∀ s : Store c, existsKey s now key = (view s (now 0) key).isSome := by
      intro s
      unfold existsKey
      cases hl : lookup s key with
      | none => simp [view_of_none (now 0) hl]
      | some e =>
        cases he : expired (now 0) e with
        | true => simp [view_of_expired hl he, he]
        | false => simp [view_of_live hl he, he]
    have h0 : view s (now 0) key = view s' (now 0) key := by
      rw [view_later s (hnow 0), view_later s' (hnow 0), hv]
    exact ⟨(hx s).trans ((congrArg Option.isSome h0).trans (hx s').symm), hv⟩
  | setNXMulti pairs =>
    obtain ⟨hok, hl⟩ := lookup_setNXMulti s now pairs
    obtain ⟨hok', hl'⟩ := lookup_setNXMulti s' now pairs
    obtain ⟨h₁, h₂⟩ := setNX_congr (congrFun hv) hnow pairs
    refine ⟨hok.trans (h₁.trans hok'.symm), funext fun k => ?_⟩
    show live t (lookup (StoreOps.setNXMulti s now pairs).2 k) = live t (lookup (StoreOps.setNXMulti s' now pairs).2 k)
    rw [hl, hl', h₂]
  | clearShards => exact ⟨rfl, rfl⟩
  | clearHeap => exact ⟨rfl, hv⟩
  | now => exact ⟨rfl, hv⟩
  | shardKeys _ _ | shardCount | len => cases ha
  | _ => exact onKey_congr _ hv hnow _

inductive ViewOnly : Handler α → Prop
  | pure (a : α) : ViewOnly (.pure a)
  | call {a : Section} {k : a.Result → Handler α} (ha : onView a = true) (hk : ∀ r, ViewOnly (k r)) :
      ViewOnly (.call a k)
  | propagate (cmd : List Bytes) {k : Handler α} (hk : ViewOnly k) : ViewOnly (.propagate cmd k)

/-- What is left of a command depends on the store only through what is alive
before its readings. -/
theorem effect_congr {p : Handler α} (hp : ViewOnly p) {s s' : Store c} (hv : view s t = view s' t) {now : Readings}
    (hnow : ∀ n, t ≤ now n) :
    (∀ k, live t ((effect s now p).1 k) = live t ((effect s' now p).1 k)) ∧
      (effect s now p).2 = (effect s' now p).2 := by
  induction hp generalizing s s' now with
  | pure a => exact ⟨congrFun hv, rfl⟩
  | @call a k ha hk ih =>
    obtain ⟨hr, hv'⟩ := exec_congr ha hv hnow
    simp only [effect_call, hr, readings_congr ha s s']
    exact ih _ hv' fun n => hnow _
  | propagate cmd hk ih =>
    obtain ⟨h₁, h₂⟩ := ih hv hnow
    exact ⟨h₁, congrArg (cmd :: ·) h₂⟩

theorem ViewOnly.of_bind {p : Handler α} {f : α → Handler β} (h : ViewOnly (p >>= f)) : ViewOnly p := by
  induction p with
  | pure a => exact .pure a
  | call a k ih =>
    cases h with
    | call ha hk => exact .call ha fun r => ih r (hk r)
  | propagate cmd k ih =>
    cases h with
    | propagate _ hk => exact .propagate cmd (ih hk)

theorem ViewOnly.bind {p : Handler α} (hp : ViewOnly p) {f : α → Handler β} (hf : ∀ a, ViewOnly (f a)) :
    ViewOnly (p >>= f) := by
  induction hp with
  | pure a => exact hf a
  | call ha _ ih => exact .call ha ih
  | propagate cmd _ ih => exact .propagate cmd ih

theorem viewOnly_propagateCmd (name : String) (args : List Bytes) : ViewOnly (Handler.propagateCmd name args) :=
  .propagate _ (.pure ())

theorem viewOnly_propagateDeadline (key : Bytes) (ttl : Int) : ViewOnly (propagateDeadline key ttl) :=
  .call rfl fun _ => viewOnly_propagateCmd _ _

theorem viewOnly_onlyIf (p : Prop) [Decidable p] {k : Handler Unit} (hk : ViewOnly k) : ViewOnly (onlyIf p k) := by
  unfold onlyIf
  split
  · exact hk
  · exact .pure ()

theorem viewOnly_whenDone {p : Handler Bool} (hp : ViewOnly p) {k : Handler Unit} (hk : ViewOnly k) :
    ViewOnly (whenDone p k) := by
  refine hp.bind fun done => ?_
  cases done with
  | false => exact .pure ()
  | true => exact hk

theorem viewOnly_whenOk {ε : Type} {p : Handler (Except ε α)} (hp : ViewOnly p) {k : Handler Unit}
    (hk : ViewOnly k) : ViewOnly (whenOk p k) := by
  refine hp.bind fun r => ?_
  cases r with
  | error e => exact .pure ()
  | ok a => exact hk

theorem viewOnly_call {a : Section} (ha : onView a = true) : ViewOnly (.call a .pure) := .call ha .pure

theorem viewOnly_del (keys : List Bytes) : ViewOnly (Handler.del keys) := by
  induction keys with
  | nil => exact .pure 0
  | cons key keys ih => exact (viewOnly_call rfl).bind fun _ => ih.bind fun _ => .pure _

theorem viewOnly_setAll (pairs : List (Bytes × Bytes)) : ViewOnly (setAll pairs) := by
  induction pairs with
  | nil => exact .pure ()
  | cons p pairs ih => exact (viewOnly_call rfl).bind fun _ => ih

theorem viewOnly_mutation (m : Mutation) : ViewOnly m.handler := by
  cases m with
  | noop => exact .pure ()
  | set key val ttl timed mode =>
    exact viewOnly_whenDone (viewOnly_call rfl)
      ((viewOnly_propagateCmd _ _).bind fun _ => viewOnly_onlyIf _ (viewOnly_propagateDeadline key ttl))
  | del keys => exact (viewOnly_del keys).bind fun _ => viewOnly_onlyIf _ (viewOnly_propagateCmd _ _)
  | incrBy | append => exact viewOnly_whenOk (viewOnly_call rfl) (viewOnly_propagateCmd _ _)
  | expire key ttl => exact viewOnly_whenDone (viewOnly_call rfl) (viewOnly_propagateDeadline key ttl)
  | expireAt | expireAtMs | persist | msetnx =>
    exact viewOnly_whenDone (viewOnly_call rfl) (viewOnly_propagateCmd _ _)
  | flush => exact .call rfl fun _ => .call rfl fun _ => viewOnly_propagateCmd _ _
  | mset args => exact (viewOnly_setAll _).bind fun _ => viewOnly_propagateCmd _ _
  | getSet key val => exact (viewOnly_call rfl).bind fun _ => viewOnly_propagateCmd _ _

theorem viewOnly_execute {h : Host} {tokens : List Bytes} (hw : isWrite h tokens = true) :
    ViewOnly (execute h tokens) :=
  ViewOnly.of_bind (by simpa only [erase] using (execute_write hw).symm ▸ viewOnly_mutation (mutation h tokens))

end MemX.ServerRun
