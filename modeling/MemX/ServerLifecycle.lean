import MemX.Inevitable
import MemX.ServerDrain

namespace MemX.ServerLifecycle

open DecimalText Clock StoreState CommandProgram CommandHandlers CommandRegistry CommandWrites RespWrite ServerConn
open ServerDrain Inevitable Relation

variable {c : Config} {u : Setup} {σ σ' : Process c}

def serving : ConnPc → Bool
  | .released | .finished => false
  | _ => true

/-- The slot that the acceptor has taken for a goroutine it has not started yet. -/
def inHand : AcceptPc → Nat
  | .admitted | .stored | .added => 1
  | _ => 0

def connRank : ConnPc → Nat
  | .finished => 0
  | .released => 1
  | .leaving => 2
  | .top | .reporting => 3
  | .starting | .replying _ => 4
  | .executing _ => 5
  | .received _ => 6
  | .reading => 7

def mainRank : MainPc → Nat
  | .exited => 0
  | .closing => 1
  | .returning => 2
  | .draining => 3
  | .selecting => 4

inductive Continues : Handler Reply → Handler Reply → Prop
  | call (a : Section) (k : a.Result → Handler Reply) (r : a.Result) : Continues (k r) (.call a k)
  | propagate (cmd : List Bytes) (k : Handler Reply) : Continues k (.propagate cmd k)

/-- The order in which the parties move once the context is cancelled. -/
def Below : Nat × Handler Reply → Nat × Handler Reply → Prop := Prod.Lex (· < ·) Continues

def still (n : Nat) : Nat × Handler Reply := (n, .pure .null)

def load (pc : ConnPc) : Nat × Handler Reply :=
  (connRank pc,
    match pc with
    | .executing p => p
    | _ => .pure .null)

def todo : ServePc → List Nat
  | .closeConns todo => todo
  | _ => []

def gone : ConnPc → Bool
  | .leaving | .released | .finished => true
  | _ => false

/-- A connection that waits for `writeMu`, or whose next command may. -/
def Waiting (u : Setup) (conn : Conn) : Prop :=
  conn.authed = true ∧ (conn.pc = .reading ∨ ∃ tokens, conn.pc = .received tokens ∧ isWrite u.host tokens.1 = true)

/-- What a step of a connection does to its slot and to `writeMu`, and once the
context is cancelled. -/
structure Moved (u : Setup) (σ σ' : Process c) (i : Nat) (conn conn' : Conn) (e : ConnEvent) : Prop where
  conns : σ'.conns = σ.conns.set i conn'
  shut : σ'.shut = σ.shut
  listening : σ'.listening = σ.listening
  slot : serving conn'.pc = serving conn.pc ∧ σ'.sem = σ.sem ∧ σ'.stored = σ.stored ∨
    serving conn.pc = true ∧ serving conn'.pc = false ∧ σ'.sem = σ.sem - 1 ∧ σ'.stored = σ.stored.filter (· ≠ i)
  lock : σ'.writeMu = σ.writeMu ∧ (conn.pc.isExecuting = true → conn'.pc.isExecuting = true ∨ gone conn'.pc = true ∨
      σ.writeMu ≠ some i) ∨
    σ.writeMu = none ∧ σ'.writeMu = some i ∧ conn'.pc.isExecuting = true ∨
    σ.writeMu = some i ∧ σ'.writeMu = none ∧ conn.pc.isExecuting = true
  gone : gone conn.pc = true → gone conn'.pc = true
  panic : e ≠ .panics → conn.pc.isExecuting = true → ServerLifecycle.gone conn'.pc = false
  blocked : σ.writeMu ≠ none → ∀ tokens, conn.pc = .received tokens → isWrite u.host tokens.1 = true →
    conn.authed = false
  waiting : σ.cancelled = true → Waiting u conn' → Waiting u conn
  down : σ.cancelled = true → Below (load conn'.pc) (load conn.pc)

theorem below_of_rank {pc pc' : ConnPc} (h : connRank pc' < connRank pc) : Below (load pc') (load pc) := .left _ _ h

theorem moved_put (u : Setup) (σ : Process c) (i : Nat) {conn : Conn} {pc : ConnPc} (authed : Bool) (e : ConnEvent)
    (hs : serving pc = serving conn.pc) (hx : conn.pc.isExecuting = false) (hg : gone conn.pc = true → gone pc = true)
    (hb : ∀ tokens, conn.pc = .received tokens → conn.authed = false)
    (hw : σ.cancelled = true → Waiting u ⟨pc, authed⟩ → Waiting u conn)
    (hr : σ.cancelled = true → connRank pc < connRank conn.pc) :
    Moved u σ (put σ i ⟨pc, authed⟩) i conn ⟨pc, authed⟩ e where
  conns := rfl
  shut := rfl
  listening := rfl
  slot := .inl ⟨hs, rfl, rfl⟩
  lock := .inl ⟨rfl, fun h => by simp [hx] at h⟩
  gone := hg
  panic _ h := by simp [hx] at h
  blocked _ tokens ht _ := hb tokens ht
  waiting := hw
  down hc := below_of_rank (hr hc)

theorem moved_start {i : Nat} {conn : Conn} {tokens : Tokens} (hpc : conn.pc = .received tokens)
    (hs : start u σ i conn tokens = some σ') :
    Moved u σ σ' i conn { conn with pc := .executing (execute u.host tokens.1) } .go := by
  have hlock : σ.writeMu ≠ none → isWrite u.host tokens.1 = false := fun hne => by
    by_contra hw
    simp [start, hne, hw] at hs
  have hdown : Below (load (.executing (execute u.host tokens.1))) (load conn.pc) :=
    below_of_rank (by rw [hpc]; exact Nat.lt_succ_self _)
  have hblocked : σ.writeMu ≠ none → ∀ tokens, conn.pc = .received tokens → isWrite u.host tokens.1 = true →
      conn.authed = false := fun hne tokens' ht hw => by
    obtain rfl : tokens = tokens' := ConnPc.received.inj (hpc.symm.trans ht)
    rw [hlock hne] at hw
    cases hw
  unfold start at hs
  split_ifs at hs with hw hmu <;> cases hs
  · exact ⟨rfl, rfl, rfl, .inl ⟨by rw [hpc]; rfl, rfl, rfl⟩, .inr (.inl ⟨hmu, rfl, rfl⟩), by simp [hpc, gone],
      by simp [hpc, ConnPc.isExecuting], hblocked, fun _ h => by simp [Waiting] at h, fun _ => hdown⟩
  · exact ⟨rfl, rfl, rfl, .inl ⟨by rw [hpc]; rfl, rfl, rfl⟩, .inl ⟨rfl, by simp [hpc, ConnPc.isExecuting]⟩,
      by simp [hpc, gone], by simp [hpc, ConnPc.isExecuting], hblocked, fun _ h => by simp [Waiting] at h,
      fun _ => hdown⟩

theorem moved_advance {i : Nat} {conn : Conn} {p p' : Handler Reply} {now : Readings} (hpc : conn.pc = .executing p)
    {store : Store c} {log dropped : List (List Bytes)} (hp : Continues p' p) :
    Moved u σ (move { σ with store := store, log := log, dropped := dropped } i conn (.executing p')) i conn
      { conn with pc := .executing p' } (.advance now) where
  conns := rfl
  shut := rfl
  listening := rfl
  slot := .inl ⟨by rw [hpc]; rfl, rfl, rfl⟩
  lock := .inl ⟨rfl, fun _ => .inl rfl⟩
  gone h := by simp [hpc, ServerLifecycle.gone] at h
  panic _ _ := rfl
  blocked _ tokens ht := by simp [hpc] at ht
  waiting _ h := by simp [Waiting] at h
  down _ := by
    rw [hpc]
    exact .right _ hp

theorem moved_release {i : Nat} {conn : Conn} {r : Reply} {now : Readings} (hpc : conn.pc = .executing (.pure r)) :
    Moved u σ (move (release σ i) i conn (.replying r)) i conn { conn with pc := .replying r } (.advance now) where
  conns := rfl
  shut := rfl
  listening := rfl
  slot := .inl ⟨by rw [hpc]; rfl, rfl, rfl⟩
  lock := by
    have hexec : conn.pc.isExecuting = true := by rw [hpc]; rfl
    by_cases hmu : σ.writeMu = some i
    · exact .inr (.inr ⟨hmu, if_pos hmu, hexec⟩)
    · exact .inl ⟨if_neg hmu, fun _ => .inr (.inr hmu)⟩
  gone h := by simp [hpc, ServerLifecycle.gone] at h
  panic _ _ := rfl
  blocked _ tokens ht := by simp [hpc] at ht
  waiting _ h := by simp [Waiting] at h
  down _ := below_of_rank (by rw [hpc]; exact Nat.lt_succ_self _)

/-- A step in the deferred calls, or into them by a panic, leaves `writeMu` as it is. -/
theorem moved_gone {i : Nat} {conn conn' : Conn} {e : ConnEvent} (hconns : σ'.conns = σ.conns.set i conn')
    (hshut : σ'.shut = σ.shut) (hlisten : σ'.listening = σ.listening) (hmu : σ'.writeMu = σ.writeMu)
    (hslot : serving conn'.pc = serving conn.pc ∧ σ'.sem = σ.sem ∧ σ'.stored = σ.stored ∨
      serving conn.pc = true ∧ serving conn'.pc = false ∧ σ'.sem = σ.sem - 1 ∧ σ'.stored = σ.stored.filter (· ≠ i))
    (hg : gone conn'.pc = true)
    (he : gone conn.pc = true ∨ conn.pc.isExecuting = true ∧ e = .panics)
    (hr : connRank conn'.pc < connRank conn.pc) : Moved u σ σ' i conn conn' e where
  conns := hconns
  shut := hshut
  listening := hlisten
  slot := hslot
  lock := .inl ⟨hmu, fun _ => .inr (.inl hg)⟩
  gone _ := hg
  panic hne hexec := by
    obtain h | ⟨-, h⟩ := he
    · cases hpc : conn.pc <;> simp [hpc, ServerLifecycle.gone, ConnPc.isExecuting] at h hexec
    · exact absurd h hne
  blocked _ tokens ht := by simp [ht, ServerLifecycle.gone, ConnPc.isExecuting] at he
  waiting _ hw := by
    obtain ⟨-, h | ⟨tokens, h, -⟩⟩ := hw <;> simp [h, ServerLifecycle.gone] at hg
  down _ := below_of_rank hr

theorem connStep_moved {i : Nat} {conn : Conn} {e : ConnEvent} (hs : connStep u σ i conn e = some σ') :
    ∃ conn', Moved u σ σ' i conn conn' e := by
  obtain ⟨pc, authed⟩ := conn
  cases e with
  | go =>
    cases pc with
    | starting =>
      cases hs
      exact ⟨_, moved_put u σ i authed _ rfl rfl (by simp [gone]) (by simp)
        (by simp [Waiting]) fun _ => Nat.lt_succ_self _⟩
    | top =>
      cases hs
      refine ⟨_, moved_put u σ i authed _ ?_ rfl (by simp [gone]) (by simp) (fun hc => ?_) fun hc => ?_⟩
      · split <;> rfl
      · simp [hc, Waiting]
      · simp [hc, connRank]
    | received tokens =>
      cases authed with
      | true => exact ⟨_, moved_start rfl (show start u σ i _ tokens = some σ' from hs)⟩
      | false =>
        cases hs
        exact ⟨_, moved_put u σ i _ _ rfl rfl (by simp [gone]) (fun _ _ => rfl)
          (by simp [Waiting]) fun _ => by simp [connRank]⟩
    | reporting =>
      cases hs
      exact ⟨_, moved_put u σ i authed _ rfl rfl (fun _ => rfl) (by simp)
        (by simp [Waiting]) fun _ => Nat.lt_succ_self _⟩
    | replying r =>
      cases hs
      exact ⟨_, moved_put u σ i authed _ rfl rfl (by simp [gone]) (by simp)
        (by simp [Waiting]) fun _ => Nat.lt_succ_self _⟩
    | leaving =>
      cases hs
      exact ⟨_, moved_gone rfl rfl rfl rfl (.inr ⟨rfl, rfl, rfl, rfl⟩) rfl (.inl rfl) (Nat.lt_succ_self _)⟩
    | released =>
      cases hs
      exact ⟨_, moved_gone rfl rfl rfl rfl (.inl ⟨rfl, rfl, rfl⟩) rfl (.inl rfl) (Nat.lt_succ_self _)⟩
    | _ => cases hs
  | read tokens =>
    cases pc with
    | reading =>
      cases hs
      exact ⟨_, moved_put u σ i authed _ rfl rfl (by simp [gone]) (by simp)
        (fun _ h => ⟨h.1, .inl rfl⟩) fun _ => Nat.lt_succ_self _⟩
    | _ => cases hs
  | readFails | malformed =>
    cases pc with
    | reading =>
      cases hs
      exact ⟨_, moved_put u σ i authed _ rfl rfl (by simp [gone]) (by simp)
        (by simp [Waiting]) fun _ => by simp [connRank]⟩
    | _ => cases hs
  | advance now =>
    cases pc with
    | executing p =>
      cases p with
      | pure r =>
        cases hs
        exact ⟨_, moved_release rfl⟩
      | call a k =>
        cases hs
        exact ⟨_, moved_advance rfl (.call a k _)⟩
      | propagate cmd k =>
        obtain ⟨log, dropped, ha, -⟩ := append_cases σ cmd
        simp only [connStep, ha, Option.some.injEq] at hs
        subst hs
        exact ⟨_, moved_advance rfl (.propagate cmd k)⟩
    | _ => cases hs
  | panics =>
    cases pc with
    | executing p =>
      cases hs
      exact ⟨_, moved_gone rfl rfl rfl rfl (.inl ⟨rfl, rfl, rfl⟩) rfl (.inr ⟨rfl, rfl⟩) (by simp [connRank])⟩
    | _ => cases hs
  | writeFails =>
    cases pc with
    | reporting | replying r =>
      cases hs
      exact ⟨_, moved_put u σ i authed _ rfl rfl (fun _ => rfl) (by simp)
        (by simp [Waiting]) fun _ => by simp [connRank]⟩
    | _ => cases hs

inductive Served (σ : Process c) : Process c → Prop
  | heard (h : σ.serve = .awaitCancel) (hc : σ.cancelled = true) : Served σ { σ with serve := .closeListener }
  | unbound (h : σ.serve = .closeListener) :
    Served σ { σ with serve := .closeConns σ.stored, listening := false }
  | shut {i : Nat} {todo : List Nat} (h : σ.serve = .closeConns (i :: todo)) :
    Served σ { σ with serve := .closeConns todo, shut := i :: σ.shut }
  | ranged (h : σ.serve = .closeConns []) : Served σ { σ with serve := .awaitGroup }
  | waited (h : σ.serve = .awaitGroup) (hg : σ.group = 0) : Served σ { σ with serve := .awaitAcceptor }
  | returned (h : σ.serve = .awaitAcceptor) (ha : σ.acceptor = .returned) :
    Served σ { σ with serve := .returned, errCh := true }

theorem served_of_serveStep (hs : serveStep σ = some σ') : Served σ σ' := by
  unfold serveStep at hs
  cases hpc : σ.serve with
  | awaitCancel =>
    simp only [hpc, Option.ite_none_right_eq_some, Option.some.injEq] at hs
    obtain ⟨hc, rfl⟩ := hs
    exact .heard hpc hc
  | closeListener =>
    simp only [hpc, Option.some.injEq] at hs
    subst hs
    exact .unbound hpc
  | closeConns todo =>
    rw [hpc] at hs
    cases todo <;> cases hs
    · exact .ranged hpc
    · exact .shut hpc
  | awaitGroup =>
    simp only [hpc, Option.ite_none_right_eq_some, Option.some.injEq] at hs
    obtain ⟨hg, rfl⟩ := hs
    exact .waited hpc hg
  | awaitAcceptor =>
    simp only [hpc, Option.ite_none_right_eq_some, Option.some.injEq] at hs
    obtain ⟨ha, rfl⟩ := hs
    exact .returned hpc ha
  | returned => simp [hpc] at hs

theorem mainStep_moved (hs : mainStep σ = some σ') : ∃ pc errCh closed,
    σ' = { σ with main := pc, errCh := errCh, closed := closed } ∧ mainRank pc < mainRank σ.main := by
  unfold mainStep at hs
  cases hpc : σ.main with
  | selecting | draining =>
    simp only [hpc, Option.ite_none_right_eq_some, Option.some.injEq] at hs
    obtain ⟨-, rfl⟩ := hs
    exact ⟨_, _, _, rfl, Nat.lt_succ_self _⟩
  | returning | closing =>
    simp only [hpc, Option.some.injEq] at hs
    subst hs
    exact ⟨_, _, _, rfl, Nat.lt_succ_self _⟩
  | exited => simp [hpc] at hs

theorem acceptStep_frame (hs : acceptStep u σ = some σ') : ∃ pc sem group conns stored,
    σ' = { σ with acceptor := pc, sem := sem, group := group, conns := conns, stored := stored } := by
  unfold acceptStep at hs
  split at hs <;> grind

theorem step_control {e : Event} (hs : step u σ e = some σ') :
    (σ'.main = σ.main ∧ σ'.serve = σ.serve ∧ σ'.errCh = σ.errCh) ∨ serveStep σ = some σ' ∨ mainStep σ = some σ' ∨
      (σ.main = .selecting ∧ σ' = { σ with main := .draining }) := by
  simp only [step, Option.ite_none_left_eq_some] at hs
  obtain ⟨-, hs⟩ := hs
  cases e with
  | cancel =>
    cases hs
    exact .inl ⟨rfl, rfl, rfl⟩
  | accept ok =>
    simp only [Option.ite_none_right_eq_some, Option.some.injEq] at hs
    obtain ⟨-, rfl⟩ := hs
    exact .inl ⟨rfl, rfl, rfl⟩
  | acceptor =>
    obtain ⟨_, _, _, _, _, rfl⟩ := acceptStep_frame hs
    exact .inl ⟨rfl, rfl, rfl⟩
  | timer =>
    simp only [Option.ite_none_right_eq_some, Option.some.injEq] at hs
    obtain ⟨-, rfl⟩ := hs
    exact .inl ⟨rfl, rfl, rfl⟩
  | conn i e =>
    cases hi : σ.conns[i]? with
    | none => simp [hi] at hs
    | some conn =>
      simp only [hi] at hs
      obtain ⟨_, hframe⟩ := connStep_cases hs
      exact .inl ⟨hframe.main, hframe.serve, hframe.errCh⟩
  | serve => exact .inr (.inl hs)
  | mainDone =>
    simp only [Option.ite_none_right_eq_some, Option.some.injEq] at hs
    exact .inr (.inr (.inr ⟨hs.1.1, hs.2.symm⟩))
  | main => exact .inr (.inr (.inl hs))

section Slots

/-- Every slot that is taken belongs to one connection. -/
structure Slots (u : Setup) (σ : Process c) : Prop where
  taken : σ.sem = σ.conns.countP (fun conn => serving conn.pc) + inHand σ.acceptor
  bound : σ.sem ≤ u.maxConn

theorem slots_launch (u : Setup) (s : Store c) : Slots u (launch s) := ⟨rfl, Nat.zero_le _⟩

theorem slots_moved (h : Slots u σ) {i : Nat} {conn conn' : Conn} (hi : σ.conns[i]? = some conn)
    {e : ConnEvent} (hm : Moved u σ σ' i conn conn' e) (ha : σ'.acceptor = σ.acceptor) : Slots u σ' := by
  have htaken := h.taken
  have hbound := h.bound
  obtain ⟨hlt, rfl⟩ := List.getElem?_eq_some_iff.mp hi
  constructor
  · rw [hm.conns, ha, List.countP_set hlt]
    obtain ⟨hsame, hsem, -⟩ | ⟨hyes, hno, hsem, -⟩ := hm.slot
    · rw [hsame, hsem]
      cases hserving : serving σ.conns[i].pc with
      | false => simpa [hserving] using htaken
      | true =>
        have hpos : 0 < σ.conns.countP fun conn => serving conn.pc :=
          List.countP_pos_iff.mpr ⟨_, List.getElem_mem hlt, hserving⟩
        simp only [↓reduceIte]
        omega
    · have hpos : 0 < σ.conns.countP fun conn => serving conn.pc :=
        List.countP_pos_iff.mpr ⟨_, List.getElem_mem hlt, hyes⟩
      simp only [hyes, hno, ↓reduceIte, Bool.false_eq_true]
      omega
  · obtain ⟨-, hsem, -⟩ | ⟨-, -, hsem, -⟩ := hm.slot <;> omega

theorem Slots.frame (h : Slots u σ) (hsem : σ'.sem = σ.sem) (hconns : σ'.conns = σ.conns)
    (hhand : inHand σ'.acceptor = inHand σ.acceptor) : Slots u σ' := by
  obtain ⟨htaken, hbound⟩ := h
  exact ⟨by rw [hsem, hconns, hhand, htaken], hsem ▸ hbound⟩

theorem slots_acceptStep (h : Slots u σ) (hs : acceptStep u σ = some σ') : Slots u σ' := by
  have htaken := h.taken
  unfold acceptStep at hs
  cases hpc : σ.acceptor with
  | failed =>
    simp only [hpc, Option.some.injEq] at hs
    subst hs
    exact h.frame rfl rfl (by rw [hpc]; dsimp only; split <;> rfl)
  | backingOff =>
    simp only [hpc, Option.ite_none_right_eq_some, Option.some.injEq] at hs
    obtain ⟨-, rfl⟩ := hs
    exact h.frame rfl rfl (by rw [hpc]; rfl)
  | accepted =>
    simp only [hpc] at hs htaken
    split at hs <;> cases hs
    · exact ⟨congrArg (· + 1) htaken, ‹_›⟩
    · exact h.frame rfl rfl (by rw [hpc]; rfl)
  | admitted | stored =>
    simp only [hpc, Option.some.injEq] at hs
    subst hs
    exact h.frame rfl rfl (by rw [hpc]; rfl)
  | added =>
    simp only [hpc, Option.some.injEq] at hs htaken
    subst hs
    exact ⟨by simpa [serving, inHand] using htaken, h.bound⟩
  | accepting | returned => simp [hpc] at hs

theorem slots_step (h : Slots u σ) {e : Event} (hs : step u σ e = some σ') : Slots u σ' := by
  simp only [step, Option.ite_none_left_eq_some] at hs
  obtain ⟨-, hs⟩ := hs
  cases e with
  | cancel =>
    cases hs
    exact h.frame rfl rfl rfl
  | accept ok =>
    simp only [Option.ite_none_right_eq_some, Option.some.injEq] at hs
    obtain ⟨⟨hpc, -⟩, rfl⟩ := hs
    exact h.frame rfl rfl (by rw [hpc]; cases ok <;> rfl)
  | acceptor => exact slots_acceptStep h hs
  | timer =>
    simp only [Option.ite_none_right_eq_some, Option.some.injEq] at hs
    obtain ⟨hpc, rfl⟩ := hs
    exact h.frame rfl rfl (by rw [hpc]; rfl)
  | conn i e =>
    cases hi : σ.conns[i]? with
    | none => simp [hi] at hs
    | some conn =>
      simp only [hi] at hs
      obtain ⟨_, hframe⟩ := connStep_cases hs
      obtain ⟨_, hm⟩ := connStep_moved hs
      exact slots_moved h hi hm hframe.acceptor
  | serve => cases served_of_serveStep hs <;> exact h.frame rfl rfl rfl
  | mainDone =>
    simp only [Option.ite_none_right_eq_some, Option.some.injEq] at hs
    obtain ⟨-, rfl⟩ := hs
    exact h.frame rfl rfl rfl
  | main =>
    obtain ⟨_, _, _, rfl, -⟩ := mainStep_moved hs
    exact h.frame rfl rfl rfl

theorem slots_run {es : List Event} (h : Slots u σ) (hs : run u σ es = some σ') : Slots u σ' :=
  run_invariant slots_step h hs

/-- In every interleaving at most `maxConn` connections are served at once, and
a new one is turned away exactly when that many are. -/
theorem connections_capped (u : Setup) (s : Store c) {es : List Event} (hrun : run u (launch s) es = some σ) :
    σ.conns.countP (fun conn => serving conn.pc) + inHand σ.acceptor ≤ u.maxConn ∧
      (σ.acceptor = .accepted → (acceptStep u σ = some { σ with acceptor := .accepting } ↔
        σ.conns.countP (fun conn => serving conn.pc) = u.maxConn)) := by
  obtain ⟨htaken, hbound⟩ := slots_run (slots_launch u s) hrun
  refine ⟨htaken ▸ hbound, fun hpc => ?_⟩
  rw [hpc] at htaken
  simp only [inHand, Nat.add_zero] at htaken
  simp only [acceptStep, hpc]
  rw [← htaken]
  split_ifs with hlt
  · exact ⟨fun h => absurd (congrArg Process.sem (Option.some.inj h)) (Nat.succ_ne_self _), fun h => by omega⟩
  · exact ⟨fun _ => by omega, fun _ => rfl⟩

def crowdedRun : List Event :=
  [.accept true, .acceptor, .acceptor, .acceptor, .acceptor, .conn 0 .go, .conn 0 .go, .accept true]

theorem crowdedRun_refuses :
    ∃ σ, run ⟨host, [], 1⟩ (launch (new twoShards)) crowdedRun = some σ ∧ σ.acceptor = .accepted ∧
      acceptStep ⟨host, [], 1⟩ σ = some { σ with acceptor := .accepting } := by
  have hfacts : (run ⟨host, [], 1⟩ (launch (new twoShards)) crowdedRun).map (fun σ =>
      (σ.acceptor, σ.conns.countP fun conn => serving conn.pc)) = some (.accepted, 1) := by
    decide +kernel
  obtain ⟨σ, hrun, hσ⟩ := Option.map_eq_some_iff.mp hfacts
  obtain ⟨hacc, hcount⟩ := Prod.mk.inj hσ
  obtain ⟨-, hrefused⟩ := connections_capped _ _ hrun
  exact ⟨σ, hrun, hacc, (hrefused hacc).mpr hcount⟩

end Slots

section Race

/-- `main` has taken the result of `Serve` in its `select` and waits for another one. -/
def Hung (σ : Process c) : Prop := σ.main = .draining ∧ σ.serve = .returned ∧ σ.errCh = false

theorem hung_step (h : Hung σ) {e : Event} (hs : step u σ e = some σ') : Hung σ' := by
  obtain ⟨hmain, hserve, herr⟩ := h
  obtain ⟨hm, hsv, he⟩ | hs | hs | ⟨hsel, -⟩ := step_control hs
  · exact ⟨hm.trans hmain, hsv.trans hserve, he.trans herr⟩
  · simp [serveStep, hserve] at hs
  · simp [mainStep, hmain, herr] at hs
  · rw [hmain] at hsel
    cases hsel

theorem hung_run {es : List Event} (h : Hung σ) (hs : run u σ es = some σ') : Hung σ' :=
  run_invariant hung_step h hs

/-- If `Serve` has returned before `main` is in its `select`, the `select` may
take its result; `main` then waits for a second one, and the process never exits. -/
theorem select_race_hangs (u : Setup) (s : Store c) {es : List Event} (hrun : run u (launch s) es = some σ)
    (hsel : σ.main = .selecting) (herr : σ.errCh = true) :
    ∃ σ₁, step u σ .main = some σ₁ ∧ ∀ es σ₂, run u σ₁ es = some σ₂ → σ₂.main = .draining := by
  have hd := draining_run (draining_launch s) hrun
  have hhung : Hung { σ with main := .draining, errCh := false } := ⟨rfl, hd.errCh herr, rfl⟩
  exact ⟨_, by simp [step, mainStep, hsel, herr], fun es σ₂ hs => (hung_run hhung hs).1⟩

/-- The signal arrives and `Serve` returns before `main` is in its `select`. -/
def earlySignal : List Event :=
  [.cancel, .accept false, .acceptor, .serve, .serve, .serve, .serve, .serve]

theorem earlySignal_hangs :
    ∃ σ, run setup (launch (new twoShards)) earlySignal = some σ ∧
      ∃ σ₁, step setup σ .main = some σ₁ ∧ ∀ es σ₂, run setup σ₁ es = some σ₂ → σ₂.main = .draining := by
  have hfacts : (run setup (launch (new twoShards)) earlySignal).map (fun σ => (σ.main, σ.errCh)) =
      some (.selecting, true) := by
    decide +kernel
  obtain ⟨σ, hrun, hσ⟩ := Option.map_eq_some_iff.mp hfacts
  obtain ⟨hsel, herr⟩ := Prod.mk.inj hσ
  exact ⟨σ, hrun, select_race_hangs setup (new twoShards) hrun hsel herr⟩

end Race

end MemX.ServerLifecycle
