import MemX.ServerConn

namespace MemX.ServerDrain

open DecimalText Clock StoreState CommandProgram CommandHandlers CommandRegistry RespWrite ServerConn

variable {c : Config}

/-- Where a connection's goroutine is: before the loop of `handleConn`, in it,
in the deferred calls behind it, or past the `Done` of its wait group. -/
inductive ConnPc
  | starting
  | top
  | reading
  | reporting
  | received (tokens : Tokens)
  | executing (p : Handler Reply)
  | replying (r : Reply)
  | leaving
  | released
  | finished

structure Conn where
  pc : ConnPc
  authed : Bool

inductive AcceptPc
  | accepting
  | failed
  | backingOff
  | accepted
  | admitted
  | stored
  | added
  | returned
deriving DecidableEq

/-- Where `Serve` is; `closeConns` has the connections that `Range` has not
come to. -/
inductive ServePc
  | awaitCancel
  | closeListener
  | closeConns (todo : List Nat)
  | awaitGroup
  | awaitAcceptor
  | returned
deriving DecidableEq

inductive MainPc
  | selecting
  | draining
  | returning
  | closing
  | exited
deriving DecidableEq

/-- A running server process. A connection is known by its place in `conns`;
`stored` has those in the map of the server, `shut` those that `Serve` has
closed, and `writeMu` its holder. `dropped` collects what `AOF.Append` was asked
to write after the log was closed. -/
structure Process (c : Config) where
  cancelled : Bool
  listening : Bool
  acceptor : AcceptPc
  sem : Nat
  group : Nat
  conns : List Conn
  stored : List Nat
  shut : List Nat
  writeMu : Option Nat
  serve : ServePc
  errCh : Bool
  main : MainPc
  closed : Bool
  store : Store c
  log : List (List Bytes)
  dropped : List (List Bytes)

/-- What decides about the next step of a connection, besides its state. -/
inductive ConnEvent
  | go
  | read (tokens : Tokens)
  | readFails
  | malformed
  | advance (now : Readings)
  | panics
  | writeFails

inductive Event
  | cancel
  | accept (ok : Bool)
  | acceptor
  | timer
  | conn (i : Nat) (e : ConnEvent)
  | serve
  | mainDone
  | main

structure Setup where
  host : Host
  requirePass : Bytes
  maxConn : Nat

def launch (s : Store c) : Process c :=
  ⟨false, true, .accepting, 0, 0, [], [], [], none, .awaitCancel, false, .selecting, false, s, [], []⟩

def put (σ : Process c) (i : Nat) (conn : Conn) : Process c := { σ with conns := σ.conns.set i conn }

def move (σ : Process c) (i : Nat) (conn : Conn) (pc : ConnPc) : Process c := put σ i { conn with pc := pc }

def append (σ : Process c) (cmd : List Bytes) : Process c :=
  if σ.closed then { σ with dropped := σ.dropped ++ [cmd] } else { σ with log := σ.log ++ [cmd] }

/-- `Execute` takes `writeMu` for a write command, or waits for it. -/
def start (u : Setup) (σ : Process c) (i : Nat) (conn : Conn) (tokens : Tokens) : Option (Process c) :=
  if isWrite u.host tokens.1 = true then
    if σ.writeMu = none then some (move { σ with writeMu := some i } i conn (.executing (execute u.host tokens.1)))
    else none
  else some (move σ i conn (.executing (execute u.host tokens.1)))

def release (σ : Process c) (i : Nat) : Process c :=
  { σ with writeMu := if σ.writeMu = some i then none else σ.writeMu }

/-- What the goroutine of a connection may do. Its client may be gone, and a
read or a write fail, at any time. A handler that panics keeps `writeMu`. -/
def connStep (u : Setup) (σ : Process c) (i : Nat) (conn : Conn) : ConnEvent → Option (Process c)
  | .go =>
    match conn.pc with
    | .starting => some (move σ i conn .top)
    | .top => some (move σ i conn (if σ.cancelled then .leaving else .reading))
    | .received tokens =>
      if conn.authed then start u σ i conn tokens
      else some (put σ i ⟨.top, (gate u.host.cases u.requirePass tokens).2⟩)
    | .reporting => some (move σ i conn .leaving)
    | .replying _ => some (move σ i conn .top)
    | .leaving => some (move { σ with sem := σ.sem - 1, stored := σ.stored.filter (· ≠ i) } i conn .released)
    | .released => some (move { σ with group := σ.group - 1 } i conn .finished)
    | _ => none
  | .read tokens =>
    match conn.pc with
    | .reading => some (move σ i conn (.received tokens))
    | _ => none
  | .readFails =>
    match conn.pc with
    | .reading => some (move σ i conn .leaving)
    | _ => none
  | .malformed =>
    match conn.pc with
    | .reading => some (move σ i conn .reporting)
    | _ => none
  | .advance now =>
    match conn.pc with
    | .executing (.pure r) => some (move (release σ i) i conn (.replying r))
    | .executing (.call a k) =>
      some (move { σ with store := (a.exec σ.store now).2 } i conn (.executing (k (a.exec σ.store now).1)))
    | .executing (.propagate cmd k) => some (move (append σ cmd) i conn (.executing k))
    | _ => none
  | .panics =>
    match conn.pc with
    | .executing _ => some (move σ i conn .leaving)
    | _ => none
  | .writeFails =>
    match conn.pc with
    | .reporting | .replying _ => some (move σ i conn .leaving)
    | _ => none

def acceptStep (u : Setup) (σ : Process c) : Option (Process c) :=
  match σ.acceptor with
  | .failed => some { σ with acceptor := if σ.cancelled then .returned else .backingOff }
  | .backingOff => if σ.cancelled then some { σ with acceptor := .returned } else none
  | .accepted =>
    if σ.sem < u.maxConn then some { σ with acceptor := .admitted, sem := σ.sem + 1 }
    else some { σ with acceptor := .accepting }
  | .admitted => some { σ with acceptor := .stored, stored := σ.conns.length :: σ.stored }
  | .stored => some { σ with acceptor := .added, group := σ.group + 1 }
  | .added => some { σ with acceptor := .accepting, conns := σ.conns ++ [⟨.starting, u.requirePass = []⟩] }
  | _ => none

def serveStep (σ : Process c) : Option (Process c) :=
  match σ.serve with
  | .awaitCancel => if σ.cancelled then some { σ with serve := .closeListener } else none
  | .closeListener => some { σ with serve := .closeConns σ.stored, listening := false }
  | .closeConns [] => some { σ with serve := .awaitGroup }
  | .closeConns (i :: todo) => some { σ with serve := .closeConns todo, shut := i :: σ.shut }
  | .awaitGroup => if σ.group = 0 then some { σ with serve := .awaitAcceptor } else none
  | .awaitAcceptor =>
    if σ.acceptor = .returned then some { σ with serve := .returned, errCh := true } else none
  | .returned => none

/-- `main`, where receiving what `Serve` returned is the next step. -/
def mainStep (σ : Process c) : Option (Process c) :=
  match σ.main with
  | .selecting => if σ.errCh then some { σ with main := .draining, errCh := false } else none
  | .draining => if σ.errCh then some { σ with main := .returning, errCh := false } else none
  | .returning => some { σ with main := .closing, closed := true }
  | .closing => some { σ with main := .exited }
  | .exited => none

def step (u : Setup) (σ : Process c) (e : Event) : Option (Process c) :=
  if σ.main = .exited then none
  else
    match e with
    | .cancel => some { σ with cancelled := true }
    | .accept ok =>
      if σ.acceptor = .accepting ∧ (ok = true → σ.listening = true) then
        some { σ with acceptor := if ok then .accepted else .failed }
      else none
    | .acceptor => acceptStep u σ
    | .timer => if σ.acceptor = .backingOff then some { σ with acceptor := .accepting } else none
    | .conn i e =>
      match σ.conns[i]? with
      | none => none
      | some conn => connStep u σ i conn e
    | .serve => serveStep σ
    | .mainDone => if σ.main = .selecting ∧ σ.cancelled then some { σ with main := .draining } else none
    | .main => mainStep σ

def run (u : Setup) (σ : Process c) : List Event → Option (Process c)
  | [] => some σ
  | e :: es => (step u σ e).bind fun σ => run u σ es

/-- What every step keeps is kept by every run. -/
theorem run_invariant {u : Setup} {P : Process c → Prop}
    (hstep : ∀ {σ σ' : Process c}, P σ → ∀ {e : Event}, step u σ e = some σ' → P σ') {σ σ' : Process c}
    {es : List Event} (h : P σ) (hs : run u σ es = some σ') : P σ' := by
  induction es generalizing σ with
  | nil =>
    cases hs
    exact h
  | cons e es ih =>
    obtain ⟨σ₁, hone, hrest⟩ := Option.bind_eq_some_iff.mp hs
    exact ih (hstep h hone) hrest

def ConnPc.live : ConnPc → Bool
  | .finished => false
  | _ => true

def ConnPc.idle : ConnPc → Bool
  | .starting | .top | .leaving | .released | .finished => true
  | _ => false

def ServePc.waited : ServePc → Bool
  | .awaitAcceptor | .returned => true
  | _ => false

def MainPc.received : MainPc → Bool
  | .returning | .closing | .exited => true
  | _ => false

structure ConnMove (σ σ' : Process c) (i : Nat) (conn conn' : Conn) : Prop where
  conns : σ'.conns = σ.conns.set i conn'
  cancelled : σ'.cancelled = σ.cancelled
  acceptor : σ'.acceptor = σ.acceptor
  serve : σ'.serve = σ.serve
  errCh : σ'.errCh = σ.errCh
  main : σ'.main = σ.main
  closed : σ'.closed = σ.closed
  live : conn.pc.live = true
  idle : conn.pc.idle = true → σ.cancelled = true → conn'.pc.idle = true
  group : conn'.pc.live = true ∧ σ'.group = σ.group ∨ conn'.pc.live = false ∧ σ'.group = σ.group - 1
  dropped : σ'.dropped = σ.dropped ∨ conn.pc.idle = false ∧ σ.closed = true

theorem append_cases (σ : Process c) (cmd : List Bytes) :
    ∃ log dropped, append σ cmd = { σ with log := log, dropped := dropped } ∧
      (dropped = σ.dropped ∨ σ.closed = true) := by
  unfold append
  split
  · exact ⟨_, _, rfl, Or.inr ‹_›⟩
  · exact ⟨_, _, rfl, Or.inl rfl⟩

theorem connMove_move (σ : Process c) (i : Nat) {conn : Conn} {pc : ConnPc} (authed : Bool) (hl : conn.pc.live = true)
    (hp : pc.live = true) (hi : conn.pc.idle = true → σ.cancelled = true → pc.idle = true) :
    ConnMove σ (put σ i ⟨pc, authed⟩) i conn ⟨pc, authed⟩ :=
  ⟨rfl, rfl, rfl, rfl, rfl, rfl, rfl, hl, hi, Or.inl ⟨hp, rfl⟩, Or.inl rfl⟩

theorem start_cases {u : Setup} {σ σ' : Process c} {i : Nat} {conn : Conn} {tokens : Tokens}
    (hs : start u σ i conn tokens = some σ') :
    ∃ mu, σ' = move { σ with writeMu := mu } i conn (.executing (execute u.host tokens.1)) := by
  unfold start at hs
  split_ifs at hs <;> cases hs
  · exact ⟨_, rfl⟩
  · exact ⟨_, rfl⟩

theorem connStep_cases {u : Setup} {σ σ' : Process c} {i : Nat} {conn : Conn} {e : ConnEvent}
    (hs : connStep u σ i conn e = some σ') : ∃ conn', ConnMove σ σ' i conn conn' := by
  obtain ⟨pc, authed⟩ := conn
  cases e with
  | go =>
    cases pc with
    | starting =>
      cases hs
      exact ⟨_, connMove_move σ i authed rfl rfl fun _ _ => rfl⟩
    | top =>
      cases hs
      refine ⟨_, connMove_move σ i authed rfl ?_ fun _ hc => ?_⟩
      · split <;> rfl
      · simp [hc, ConnPc.idle]
    | received tokens =>
      cases authed with
      | true =>
        obtain ⟨mu, rfl⟩ := start_cases (show start u σ i _ tokens = some σ' from hs)
        exact ⟨_, rfl, rfl, rfl, rfl, rfl, rfl, rfl, rfl, by simp [ConnPc.idle], Or.inl ⟨rfl, rfl⟩, Or.inl rfl⟩
      | false =>
        cases hs
        exact ⟨_, connMove_move σ i _ rfl rfl (by simp [ConnPc.idle])⟩
    | reporting | replying r =>
      cases hs
      exact ⟨_, connMove_move σ i authed rfl rfl fun _ _ => rfl⟩
    | leaving =>
      cases hs
      exact ⟨_, rfl, rfl, rfl, rfl, rfl, rfl, rfl, rfl, fun _ _ => rfl, Or.inl ⟨rfl, rfl⟩, Or.inl rfl⟩
    | released =>
      cases hs
      exact ⟨_, rfl, rfl, rfl, rfl, rfl, rfl, rfl, rfl, fun _ _ => rfl, Or.inr ⟨rfl, rfl⟩, Or.inl rfl⟩
    | _ => cases hs
  | read tokens =>
    cases pc with
    | reading =>
      cases hs
      exact ⟨_, connMove_move σ i authed rfl rfl (by simp [ConnPc.idle])⟩
    | _ => cases hs
  | readFails | malformed =>
    cases pc with
    | reading =>
      cases hs
      exact ⟨_, connMove_move σ i authed rfl rfl (by simp [ConnPc.idle])⟩
    | _ => cases hs
  | advance now =>
    cases pc with
    | executing p =>
      cases p with
      | pure r | call a k =>
        cases hs
        exact ⟨_, rfl, rfl, rfl, rfl, rfl, rfl, rfl, rfl, by simp [ConnPc.idle], Or.inl ⟨rfl, rfl⟩, Or.inl rfl⟩
      | propagate cmd k =>
        obtain ⟨log, dropped, ha, hd⟩ := append_cases σ cmd
        simp only [connStep, ha, Option.some.injEq] at hs
        subst hs
        exact ⟨_, rfl, rfl, rfl, rfl, rfl, rfl, rfl, rfl, by simp [ConnPc.idle], Or.inl ⟨rfl, rfl⟩,
          hd.imp id fun hc => ⟨rfl, hc⟩⟩
    | _ => cases hs
  | panics =>
    cases pc with
    | executing p =>
      cases hs
      exact ⟨_, connMove_move σ i authed rfl rfl (by simp [ConnPc.idle])⟩
    | _ => cases hs
  | writeFails =>
    cases pc with
    | reporting | replying r =>
      cases hs
      exact ⟨_, connMove_move σ i authed rfl rfl (by simp [ConnPc.idle])⟩
    | _ => cases hs

/-- The wait group counts the goroutines that are live or about to start; once
`Wait` has returned none of them is past a check of the context. -/
structure Draining (σ : Process c) : Prop where
  group : σ.group = σ.conns.countP (·.pc.live) + if σ.acceptor = .added then 1 else 0
  cancelled : σ.serve ≠ .awaitCancel → σ.cancelled = true
  quiet : σ.serve.waited = true → ∀ conn ∈ σ.conns, conn.pc.idle = true
  errCh : σ.errCh = true → σ.serve = .returned
  main : σ.main.received = true → σ.serve = .returned
  closed : σ.closed = true → σ.main.received = true
  dropped : σ.dropped = []

theorem draining_launch (s : Store c) : Draining (launch s) := by
  constructor <;> simp [launch, ServePc.waited, MainPc.received]

theorem Draining.cancelled_of_waited {σ : Process c} (hd : Draining σ) (hw : σ.serve.waited = true) :
    σ.cancelled = true := by
  refine hd.cancelled fun he => ?_
  rw [he] at hw
  cases hw

theorem Draining.quiet_of_received {σ : Process c} (hd : Draining σ) (hr : σ.main.received = true) :
    ∀ conn ∈ σ.conns, conn.pc.idle = true := by
  refine hd.quiet ?_
  rw [hd.main hr]
  rfl

theorem countP_set_move {conns : List Conn} {i : Nat} {conn conn' : Conn} (hi : conns[i]? = some conn)
    (hl : conn.pc.live = true) {g g' : Nat} (k : Nat) (hg : g = conns.countP (·.pc.live) + k)
    (hmove : conn'.pc.live = true ∧ g' = g ∨ conn'.pc.live = false ∧ g' = g - 1) :
    g' = (conns.set i conn').countP (·.pc.live) + k := by
  obtain ⟨hlt, rfl⟩ := List.getElem?_eq_some_iff.mp hi
  have hpos : 0 < conns.countP (·.pc.live) := List.countP_pos_iff.mpr ⟨_, List.getElem_mem hlt, hl⟩
  rw [List.countP_set hlt]
  obtain ⟨hl', rfl⟩ | ⟨hl', rfl⟩ := hmove
  · simp only [hl, hl', ↓reduceIte]
    omega
  · simp only [hl, hl', ↓reduceIte, Bool.false_eq_true]
    omega

theorem draining_connMove {σ σ' : Process c} (hd : Draining σ) {i : Nat} {conn conn' : Conn}
    (hi : σ.conns[i]? = some conn) (hm : ConnMove σ σ' i conn conn') : Draining σ' where
  group := by
    rw [hm.conns, hm.acceptor]
    exact countP_set_move hi hm.live _ hd.group hm.group
  cancelled := by
    rw [hm.serve, hm.cancelled]
    exact hd.cancelled
  quiet := by
    rw [hm.serve, hm.conns]
    intro hw x hx
    obtain hx | rfl := List.mem_or_eq_of_mem_set hx
    · exact hd.quiet hw x hx
    · exact hm.idle (hd.quiet hw conn (List.mem_of_getElem? hi)) (hd.cancelled_of_waited hw)
  errCh := by
    rw [hm.serve, hm.errCh]
    exact hd.errCh
  main := by
    rw [hm.serve, hm.main]
    exact hd.main
  closed := by
    rw [hm.closed, hm.main]
    exact hd.closed
  dropped := by
    obtain h | ⟨hidle, hc⟩ := hm.dropped
    · exact h.trans hd.dropped
    · exact absurd (hd.quiet_of_received (hd.closed hc) conn (List.mem_of_getElem? hi)) (by simp [hidle])

theorem Draining.acceptor {σ : Process c} (hd : Draining σ) (pc : AcceptPc) (sem : Nat) (stored : List Nat) {g : Nat}
    (hg : g = σ.conns.countP (·.pc.live) + if pc = .added then 1 else 0) :
    Draining { σ with acceptor := pc, sem := sem, stored := stored, group := g } :=
  ⟨hg, hd.cancelled, hd.quiet, hd.errCh, hd.main, hd.closed, hd.dropped⟩

theorem draining_acceptStep {u : Setup} {σ σ' : Process c} (hd : Draining σ) (hs : acceptStep u σ = some σ') :
    Draining σ' := by
  have hgroup := hd.group
  unfold acceptStep at hs
  cases hpc : σ.acceptor with
  | failed =>
    simp only [hpc, reduceCtorEq, ↓reduceIte, Option.some.injEq] at hs hgroup
    subst hs
    refine hd.acceptor _ _ _ (hgroup.trans ?_)
    split <;> rfl
  | backingOff =>
    simp only [hpc, Option.ite_none_right_eq_some, Option.some.injEq, reduceCtorEq, ↓reduceIte] at hs hgroup
    obtain ⟨_, rfl⟩ := hs
    exact hd.acceptor _ _ _ hgroup
  | accepted =>
    simp only [hpc, reduceCtorEq, ↓reduceIte] at hs hgroup
    split at hs <;> cases hs
    · exact hd.acceptor _ _ _ hgroup
    · exact hd.acceptor _ _ _ hgroup
  | admitted =>
    simp only [hpc, reduceCtorEq, ↓reduceIte, Option.some.injEq] at hs hgroup
    subst hs
    exact hd.acceptor _ _ _ hgroup
  | stored =>
    simp only [hpc, reduceCtorEq, ↓reduceIte, Option.some.injEq, Nat.add_zero] at hs hgroup
    subst hs
    exact hd.acceptor _ _ _ (congrArg (· + 1) hgroup)
  | added =>
    -- the goroutine that starts here was counted by the step before
    simp only [hpc, ↓reduceIte, Option.some.injEq] at hs hgroup
    subst hs
    refine ⟨?_, hd.cancelled, fun hw x hx => ?_, hd.errCh, hd.main, hd.closed, hd.dropped⟩
    · simpa [ConnPc.live] using hgroup
    · obtain hx | hx := List.mem_append.mp hx
      · exact hd.quiet hw x hx
      · rw [List.mem_singleton.mp hx]
        rfl
  | accepting | returned => simp [hpc] at hs

theorem draining_serveStep {σ σ' : Process c} (hd : Draining σ) (hs : serveStep σ = some σ') : Draining σ' := by
  have hquiet := hd.quiet
  have hmain := hd.main
  have herr := hd.errCh
  unfold serveStep at hs
  cases hpc : σ.serve with
  | awaitCancel =>
    simp only [hpc, Option.ite_none_right_eq_some, Option.some.injEq, reduceCtorEq, imp_false] at hs hmain herr
    obtain ⟨hc, rfl⟩ := hs
    exact ⟨hd.group, fun _ => hc, fun hw => (by cases hw), fun he => absurd he herr, fun hr => absurd hr hmain,
      hd.closed,
      hd.dropped⟩
  | closeListener =>
    simp only [hpc, Option.some.injEq, reduceCtorEq, imp_false] at hs hmain herr
    subst hs
    exact ⟨hd.group, fun _ => hd.cancelled (by simp [hpc]), fun hw => (by cases hw), fun he => absurd he herr,
      fun hr => absurd hr hmain, hd.closed, hd.dropped⟩
  | closeConns todo =>
    simp only [hpc, reduceCtorEq, imp_false] at hs hmain herr
    cases todo <;> cases hs <;>
      exact ⟨hd.group, fun _ => hd.cancelled (by simp [hpc]), fun hw => (by cases hw), fun he => absurd he herr,
        fun hr => absurd hr hmain, hd.closed, hd.dropped⟩
  | awaitGroup =>
    simp only [hpc, Option.ite_none_right_eq_some, Option.some.injEq, reduceCtorEq, imp_false] at hs hmain herr
    obtain ⟨hzero, rfl⟩ := hs
    refine ⟨hd.group, fun _ => hd.cancelled (by simp [hpc]), fun _ x hx => ?_, fun he => absurd he herr,
      fun hr => absurd hr hmain, hd.closed, hd.dropped⟩
    -- the count is 0, so every goroutine that was started is past its `Done`
    have hcount : σ.conns.countP (·.pc.live) = 0 := by
      have := hd.group
      omega
    have hdone : ¬ x.pc.live = true := List.countP_eq_zero.mp hcount x hx
    cases hx : x.pc with
    | finished => rfl
    | _ => simp [hx, ConnPc.live] at hdone
  | awaitAcceptor =>
    simp only [hpc, Option.ite_none_right_eq_some, Option.some.injEq] at hs
    obtain ⟨_, rfl⟩ := hs
    exact ⟨hd.group, fun _ => hd.cancelled (by simp [hpc]), fun _ => hquiet (by rw [hpc]; rfl), fun _ => rfl,
      fun _ => rfl,
      hd.closed, hd.dropped⟩
  | returned => simp [hpc] at hs

theorem draining_mainStep {σ σ' : Process c} (hd : Draining σ) (hs : mainStep σ = some σ') : Draining σ' := by
  have hclosed := hd.closed
  have hmain := hd.main
  unfold mainStep at hs
  cases hpc : σ.main with
  | selecting =>
    simp only [hpc, Option.ite_none_right_eq_some, Option.some.injEq] at hs hclosed
    obtain ⟨_, rfl⟩ := hs
    exact ⟨hd.group, hd.cancelled, hd.quiet, fun he => (by cases he), fun hr => (by cases hr), hclosed, hd.dropped⟩
  | draining =>
    simp only [hpc, Option.ite_none_right_eq_some, Option.some.injEq] at hs hclosed
    obtain ⟨he, rfl⟩ := hs
    exact ⟨hd.group, hd.cancelled, hd.quiet, fun he => (by cases he), fun _ => hd.errCh he, fun _ => rfl, hd.dropped⟩
  | returning | closing =>
    simp only [hpc, Option.some.injEq] at hs hmain
    subst hs
    exact ⟨hd.group, hd.cancelled, hd.quiet, hd.errCh, fun _ => hmain rfl, fun _ => rfl, hd.dropped⟩
  | exited => simp [hpc] at hs

theorem draining_step {u : Setup} {σ σ' : Process c} (hd : Draining σ) {e : Event} (hs : step u σ e = some σ') :
    Draining σ' := by
  simp only [step, Option.ite_none_left_eq_some] at hs
  obtain ⟨_, hs⟩ := hs
  cases e with
  | cancel =>
    cases hs
    exact ⟨hd.group, fun _ => rfl, hd.quiet, hd.errCh, hd.main, hd.closed, hd.dropped⟩
  | accept ok =>
    simp only [Option.ite_none_right_eq_some, Option.some.injEq] at hs
    obtain ⟨⟨hpc, -⟩, rfl⟩ := hs
    have hgroup := hd.group
    simp only [hpc, reduceCtorEq, ↓reduceIte] at hgroup
    refine hd.acceptor _ _ _ (hgroup.trans ?_)
    cases ok <;> rfl
  | acceptor => exact draining_acceptStep hd hs
  | timer =>
    simp only [Option.ite_none_right_eq_some, Option.some.injEq] at hs
    obtain ⟨hpc, rfl⟩ := hs
    have hgroup := hd.group
    simp only [hpc, reduceCtorEq, ↓reduceIte] at hgroup
    exact hd.acceptor _ _ _ hgroup
  | conn i e =>
    cases hi : σ.conns[i]? with
    | none => simp [hi] at hs
    | some conn =>
      simp only [hi] at hs
      obtain ⟨conn', hm⟩ := connStep_cases hs
      exact draining_connMove hd hi hm
  | serve => exact draining_serveStep hd hs
  | mainDone =>
    simp only [Option.ite_none_right_eq_some, Option.some.injEq] at hs
    obtain ⟨⟨hpc, _⟩, rfl⟩ := hs
    have hclosed := hd.closed
    rw [hpc] at hclosed
    exact ⟨hd.group, hd.cancelled, hd.quiet, hd.errCh, fun hr => (by cases hr), hclosed, hd.dropped⟩
  | main => exact draining_mainStep hd hs

theorem draining_run {u : Setup} {σ σ' : Process c} (hd : Draining σ) {es : List Event} (hs : run u σ es = some σ') :
    Draining σ' :=
  run_invariant draining_step hd hs

def ConnPc.isExecuting : ConnPc → Bool
  | .executing _ => true
  | _ => false

/-- In every interleaving: once `Serve` has returned no connection is in
`Execute`, the log is closed only after that, and nothing was dropped. -/
theorem drain_drops_nothing (u : Setup) (s : Store c) {es : List Event} {σ : Process c}
    (hrun : run u (launch s) es = some σ) :
    (σ.serve = .returned → ∀ conn ∈ σ.conns, conn.pc.isExecuting = false) ∧
      (σ.closed = true → σ.serve = .returned) ∧ σ.dropped = [] := by
  have hd := draining_run (draining_launch s) hrun
  refine ⟨fun hret conn hm => ?_, fun hc => hd.main (hd.closed hc), hd.dropped⟩
  have hidle := hd.quiet (by rw [hret]; rfl) conn hm
  cases hpc : conn.pc with
  | executing p =>
    rw [hpc] at hidle
    cases hidle
  | _ => rfl

def setup : Setup := ⟨host, [], 8⟩

def setCommand : Tokens := ⟨[ascii "SET", ascii "k", ascii "v"], by simp⟩

/-- A connection is in the middle of a write when the context is cancelled,
and another one is added to the group after `Wait` has returned. -/
def lateRun : List Event :=
  let now := frozen (instant 0)
  [.accept true, .acceptor, .acceptor, .acceptor, .acceptor, .conn 0 .go, .conn 0 .go, .conn 0 (.read setCommand),
    .conn 0 .go, .accept true, .acceptor, .acceptor, .cancel, .mainDone, .conn 0 (.advance now),
    .conn 0 (.advance now), .conn 0 (.advance now), .conn 0 .go, .conn 0 .go, .conn 0 .go, .conn 0 .go, .serve, .serve,
    .serve, .serve, .serve, .acceptor, .acceptor, .conn 1 .go, .accept false, .acceptor, .serve, .main, .main,
    .conn 1 .go]

theorem lateRun_drained :
    ∃ σ, run setup (launch (new twoShards)) lateRun = some σ ∧ σ.closed = true ∧ σ.conns.length = 2 ∧
      σ.log = [setCommand.1] ∧ σ.serve = .returned ∧ σ.dropped = [] := by
  have hfacts : (run setup (launch (new twoShards)) lateRun).map (fun σ => (σ.closed, σ.conns.length, σ.log)) =
      some (true, 2, [setCommand.1]) := by
    decide +kernel
  obtain ⟨σ, hrun, hσ⟩ := Option.map_eq_some_iff.mp hfacts
  simp only [Prod.mk.injEq] at hσ
  obtain ⟨hclosed, hconns, hlog⟩ := hσ
  obtain ⟨_, hret, hdropped⟩ := drain_drops_nothing setup (new twoShards) hrun
  exact ⟨σ, hrun, hclosed, hconns, hlog, hret hclosed, hdropped⟩

end MemX.ServerDrain
