import MemX.ServerLifecycle

namespace MemX.ServerShutdown

open DecimalText Clock StoreState CommandProgram CommandHandlers CommandRegistry CommandWrites RespWrite ServerConn
open ServerDrain ServerLifecycle Inevitable Relation

variable {c : Config} {u : Setup} {σ σ' : Process c}

/-! What has to happen, whatever the clients do. -/

/-- A read or a write has to return once `Serve` has closed the connection. The
reply to a client that is not authenticated is written, too, but nobody looks at
the error. -/
def connDue (σ : Process c) (i : Nat) (conn : Conn) : ConnEvent → Bool
  | .go =>
    match conn.pc with
    | .received _ => conn.authed || σ.shut.contains i
    | .reporting | .replying _ => false
    | _ => true
  | .advance _ => true
  | .readFails | .writeFails => σ.shut.contains i
  | .read _ | .malformed | .panics => false

/-- `Accept` has to return once `Serve` has closed the listener. -/
def due (σ : Process c) : Event → Bool
  | .cancel | .accept true => false
  | .accept false => !σ.listening
  | .conn i e => (σ.conns[i]?).any fun conn => connDue σ i conn e
  | .acceptor | .timer | .serve | .mainDone | .main => true

def calm : Event → Bool
  | .conn _ .panics => false
  | _ => true

section Weight

end Weight

/-! Whoever is past a check of the context will be closed. -/

section Covered

def closing : ServePc → Bool
  | .awaitCancel | .closeListener => false
  | _ => true

/-- A connection that is served is in the map, also the one that the acceptor
has in hand. Those that were past a check of the context when `Range` began are
closed or still to come, and nobody has passed one since. Who holds `writeMu` is
executing, unless its handler has panicked. -/
structure Covered (σ : Process c) : Prop where
  listed : ∀ i conn, σ.conns[i]? = some conn → serving conn.pc = true → i ∈ σ.stored
  hand : σ.acceptor = .stored ∨ σ.acceptor = .added → σ.conns.length ∈ σ.stored
  shut : closing σ.serve = true → ∀ i conn, σ.conns[i]? = some conn → conn.pc.idle = false →
    i ∈ todo σ.serve ∨ i ∈ σ.shut
  unbound : closing σ.serve = true → σ.listening = false
  holder : ∀ j, σ.writeMu = some j →
    ∃ conn, σ.conns[j]? = some conn ∧ (conn.pc.isExecuting = true ∨ gone conn.pc = true)

theorem getElem?_set_here {conns : List Conn} {i : Nat} {conn conn' : Conn} (hi : conns[i]? = some conn) :
    (conns.set i conn')[i]? = some conn' := by
  rw [List.getElem?_set_self (List.getElem?_eq_some_iff.mp hi).1]

theorem getElem?_append_old {conns : List Conn} {i : Nat} {conn : Conn} (hi : conns[i]? = some conn)
    (more : List Conn) : (conns ++ more)[i]? = some conn := by
  rw [List.getElem?_append_left (List.getElem?_eq_some_iff.mp hi).1, hi]

theorem Covered.serve (h : Covered σ) {pc : ServePc} (errCh : Bool) (hcl : closing σ.serve = true)
    (ht : todo σ.serve = todo pc) : Covered { σ with serve := pc, errCh := errCh } :=
  ⟨h.listed, h.hand, fun _ i conn hi hidle => ht ▸ h.shut hcl i conn hi hidle, fun _ => h.unbound hcl, h.holder⟩

theorem Covered.acceptor (h : Covered σ) {pc : AcceptPc} (sem group : Nat)
    (hpc : pc = .stored ∨ pc = .added → σ.acceptor = .stored ∨ σ.acceptor = .added) :
    Covered { σ with acceptor := pc, sem := sem, group := group } :=
  ⟨h.listed, fun ha => h.hand (hpc ha), h.shut, h.unbound, h.holder⟩

end Covered

/-! Where nothing has to happen any more. -/

section Stuck

end Stuck

section Jam

theorem step_conns {e : Event} (hs : step u σ e = some σ') :
    (σ'.writeMu = σ.writeMu ∧ ∃ more, σ'.conns = σ.conns ++ more ∧ ∀ conn ∈ more, conn.pc = .starting) ∨
      ∃ i ce conn conn', e = .conn i ce ∧ σ.conns[i]? = some conn ∧ Moved u σ σ' i conn conn' ce := by
  have hsame : σ'.writeMu = σ.writeMu → σ'.conns = σ.conns →
      σ'.writeMu = σ.writeMu ∧ ∃ more, σ'.conns = σ.conns ++ more ∧ ∀ conn ∈ more, conn.pc = .starting :=
    fun hmu hconns => ⟨hmu, [], by rw [hconns, List.append_nil], nofun⟩
  simp only [step, Option.ite_none_left_eq_some] at hs
  obtain ⟨-, hs⟩ := hs
  cases e with
  | cancel =>
    cases hs
    exact .inl (hsame rfl rfl)
  | accept ok =>
    simp only [Option.ite_none_right_eq_some, Option.some.injEq] at hs
    obtain ⟨-, rfl⟩ := hs
    exact .inl (hsame rfl rfl)
  | acceptor =>
    unfold acceptStep at hs
    cases hpc : σ.acceptor with
    | added =>
      simp only [hpc, Option.some.injEq] at hs
      subst hs
      exact .inl ⟨rfl, _, rfl, by simp⟩
    | backingOff =>
      simp only [hpc, Option.ite_none_right_eq_some, Option.some.injEq] at hs
      obtain ⟨-, rfl⟩ := hs
      exact .inl (hsame rfl rfl)
    | accepted =>
      simp only [hpc] at hs
      split at hs <;> cases hs <;> exact .inl (hsame rfl rfl)
    | failed | admitted | stored =>
      simp only [hpc, Option.some.injEq] at hs
      subst hs
      exact .inl (hsame rfl rfl)
    | accepting | returned => simp [hpc] at hs
  | timer =>
    simp only [Option.ite_none_right_eq_some, Option.some.injEq] at hs
    obtain ⟨-, rfl⟩ := hs
    exact .inl (hsame rfl rfl)
  | conn i e =>
    cases hi : σ.conns[i]? with
    | none => simp [hi] at hs
    | some conn =>
      simp only [hi] at hs
      obtain ⟨conn', hm⟩ := connStep_moved hs
      exact .inr ⟨i, e, conn, conn', rfl, hi, hm⟩
  | serve => cases served_of_serveStep hs <;> exact .inl (hsame rfl rfl)
  | mainDone =>
    simp only [Option.ite_none_right_eq_some, Option.some.injEq] at hs
    obtain ⟨-, rfl⟩ := hs
    exact .inl (hsame rfl rfl)
  | main =>
    obtain ⟨_, _, _, rfl, -⟩ := mainStep_moved hs
    exact .inl (hsame rfl rfl)

def Abandoned (σ : Process c) (j : Nat) : Prop :=
  σ.writeMu = some j ∧ ∃ conn, σ.conns[j]? = some conn ∧ gone conn.pc = true

theorem abandoned_step {j : Nat} (h : Abandoned σ j) {e : Event} (hs : step u σ e = some σ') : Abandoned σ' j := by
  obtain ⟨hmu, cj, hcj, hg⟩ := h
  obtain ⟨hsame, more, hconns, -⟩ | ⟨i, ce, conn, conn', -, hi, hm⟩ := step_conns hs
  · exact ⟨hsame.trans hmu, cj, hconns ▸ getElem?_append_old hcj more, hg⟩
  · have hkeep : σ'.writeMu = some j := by
      obtain ⟨hsame, -⟩ | ⟨hnone, -⟩ | ⟨hown, -, hx⟩ := hm.lock
      · exact hsame.trans hmu
      · rw [hmu] at hnone
        cases hnone
      · -- who gives it back is executing, and so is not gone
        obtain rfl : i = j := Option.some.inj (hown.symm.trans hmu)
        obtain rfl : conn = cj := Option.some.inj (hi.symm.trans hcj)
        cases hpc : conn.pc <;> simp [hpc, gone, ConnPc.isExecuting] at hx hg
    refine ⟨hkeep, ?_⟩
    rw [hm.conns]
    by_cases hij : i = j
    · subst hij
      obtain rfl : conn = cj := Option.some.inj (hi.symm.trans hcj)
      exact ⟨conn', getElem?_set_here hi, hm.gone hg⟩
    · exact ⟨cj, by rw [List.getElem?_set_ne hij, hcj], hg⟩

theorem blocked_step {k : Nat} {ck : Conn} {tokens : Tokens} (hmu : σ.writeMu ≠ none) (hk : σ.conns[k]? = some ck)
    (ha : ck.authed = true) (hpc : ck.pc = .received tokens) (hw : isWrite u.host tokens.1 = true) {e : Event}
    (hs : step u σ e = some σ') : σ'.conns[k]? = some ck := by
  obtain ⟨-, more, hconns, -⟩ | ⟨i, ce, conn, conn', -, hi, hm⟩ := step_conns hs
  · rw [hconns]
    exact getElem?_append_old hk more
  · rw [hm.conns]
    by_cases hik : i = k
    · subst hik
      obtain rfl : conn = ck := Option.some.inj (hi.symm.trans hk)
      rw [hm.blocked hmu tokens hpc hw] at ha
      cases ha
    · rw [List.getElem?_set_ne hik, hk]

/-- With a write command that waits for an abandoned `writeMu` the process does
not exit. -/
structure Blocked (u : Setup) (σ : Process c) (j k : Nat) (ck : Conn) (tokens : Tokens) : Prop where
  draining : Draining σ
  abandoned : Abandoned σ j
  conn : σ.conns[k]? = some ck
  authed : ck.authed = true
  pc : ck.pc = .received tokens
  write : isWrite u.host tokens.1 = true

theorem Blocked.step {j k : Nat} {ck : Conn} {tokens : Tokens} (h : Blocked u σ j k ck tokens) {e : Event}
    (hs : ServerDrain.step u σ e = some σ') : Blocked u σ' j k ck tokens where
  draining := draining_step h.draining hs
  abandoned := abandoned_step h.abandoned hs
  conn := blocked_step (by rw [h.abandoned.1]; simp) h.conn h.authed h.pc h.write hs
  authed := h.authed
  pc := h.pc
  write := h.write

theorem Blocked.not_exited {j k : Nat} {ck : Conn} {tokens : Tokens} (h : Blocked u σ j k ck tokens) :
    σ.main ≠ .exited := by
  intro he
  have hidle := h.draining.quiet_of_received (by rw [he]; rfl) ck (List.mem_of_getElem? h.conn)
  rw [h.pc] at hidle
  cases hidle

end Jam

section Shutdown

theorem abandoned_of_panic {i : Nat} (hmu : σ.writeMu = some i) (hs : step u σ (.conn i .panics) = some σ') :
    Abandoned σ' i := by
  simp only [step, Option.ite_none_left_eq_some] at hs
  obtain ⟨-, hs⟩ := hs
  cases hi : σ.conns[i]? with
  | none => simp [hi] at hs
  | some conn =>
    simp only [hi, connStep] at hs
    split at hs <;> cases hs
    exact ⟨hmu, _, getElem?_set_here hi, rfl⟩

def atLock (u : Setup) (conn : Conn) : Bool :=
  match conn.pc with
  | .received tokens => conn.authed && isWrite u.host tokens.1
  | _ => false

/-- A handler that panics with `writeMu` in its hands keeps it for good: no
write command gets it again, and once one waits for it the process does not
exit. -/
theorem panic_keeps_lock (u : Setup) (s : Store c) {es : List Event} (hrun : run u (launch s) es = some σ) {i : Nat}
    (hmu : σ.writeMu = some i) {σ₁ : Process c} (hs : step u σ (.conn i .panics) = some σ₁) {es₁ : List Event}
    {σ₂ : Process c} (hrun₁ : run u σ₁ es₁ = some σ₂) :
    σ₂.writeMu = some i ∧
      ∀ conn ∈ σ₂.conns, atLock u conn = true → ∀ es₂ σ₃, run u σ₂ es₂ = some σ₃ → σ₃.main ≠ .exited := by
  have hab := run_invariant abandoned_step (abandoned_of_panic hmu hs) hrun₁
  refine ⟨hab.1, fun conn hm hwait es₂ σ₃ hrun₂ => ?_⟩
  have hd := draining_run (draining_step (draining_run (draining_launch s) hrun) hs) hrun₁
  obtain ⟨k, hk⟩ := List.mem_iff_getElem?.mp hm
  cases hpc : conn.pc with
  | received tokens =>
    simp only [atLock, hpc, Bool.and_eq_true] at hwait
    have hb : Blocked u σ₂ i k conn tokens := ⟨hd, hab, hk, hwait.1, hpc, hwait.2⟩
    exact (run_invariant Blocked.step hb hrun₂).not_exited
  | _ => simp [atLock, hpc] at hwait

def contended : List Event :=
  [.accept true, .acceptor, .acceptor, .acceptor, .acceptor, .conn 0 .go, .conn 0 .go, .conn 0 (.read setCommand),
    .conn 0 .go, .accept true, .acceptor, .acceptor, .acceptor, .acceptor, .conn 1 .go, .conn 1 .go]

theorem contended_jams :
    ∃ σ σ₁ σ₂, run setup (launch (new twoShards)) contended = some σ ∧ step setup σ (.conn 0 .panics) = some σ₁ ∧
      run setup σ₁ [.conn 1 (.read setCommand)] = some σ₂ ∧ σ₂.writeMu = some 0 ∧
        ∀ es σ₃, run setup σ₂ es = some σ₃ → σ₃.main ≠ .exited := by
  have hfacts : ((run setup (launch (new twoShards)) contended).bind fun σ =>
      (step setup σ (.conn 0 .panics)).bind fun σ₁ =>
        (run setup σ₁ [.conn 1 (.read setCommand)]).map fun σ₂ => (σ, σ₁, σ₂)).map (fun p =>
          (p.1.writeMu, p.2.2.conns.any (atLock setup))) = some (some 0, true) := by
    decide +kernel
  obtain ⟨⟨σ, σ₁, σ₂⟩, hp, hσ⟩ := Option.map_eq_some_iff.mp hfacts
  obtain ⟨σ', hrun, hp⟩ := Option.bind_eq_some_iff.mp hp
  obtain ⟨σ₁', hpanic, hp⟩ := Option.bind_eq_some_iff.mp hp
  obtain ⟨σ₂', hread, hp⟩ := Option.map_eq_some_iff.mp hp
  cases hp
  obtain ⟨hmu, hany⟩ := Prod.mk.inj hσ
  obtain ⟨conn, hm, hwait⟩ := List.any_eq_true.mp hany
  obtain ⟨hlock, hstays⟩ := panic_keeps_lock setup (new twoShards) hrun hmu hpanic hread
  exact ⟨σ, σ₁, σ₂, hrun, hpanic, hread, hlock, hstays conn hm hwait⟩

end Shutdown

end MemX.ServerShutdown
