import MemX.CommandOutcome

namespace MemX.CommandCap

open MachineInt DecimalText Clock StoreState StoreRules StoreOps StoreLookup StoreView
open CommandProgram CommandHandlers CommandRegistry CommandWrites CommandEffect CommandReplay CommandOutcome RespWrite

variable {c : Config} {h : Host} {α : Type} {L : Int} {now : Readings} {m : Table}

def Capped (L : Int) (m : Table) : Prop := ∀ k e, m k = some e → (e.val.length : Int) ≤ L

/-- The values that a mutation would store under the keys it finds. -/
def wouldStore (now : Readings) (m : Table) : Mutation → List Bytes
  | .set key val ttl _ mode => if answerKey (StoreRules.set val ttl mode) now key m then [val] else []
  | .incrBy key delta _ _ =>
    match answerKey (StoreRules.incrBy delta) now key m with
    | .ok n => [formatInt n]
    | .error _ => []
  | .append key suffix => [((live (now 0) (m key)).map Entry.val).getD [] ++ suffix]
  | .mset args => (pairsOf args).map Prod.snd
  | .msetnx args => if (setNX now m (pairsOf args)).1 then (pairsOf args).map Prod.snd else []
  | .getSet _ val => [val]
  | _ => []

def Exceeds (L : Int) (now : Readings) (m : Table) (mu : Mutation) : Prop := ∃ v ∈ wouldStore now m mu, L < v.length

def isAppend : Mutation → Bool
  | .append _ _ => true
  | _ => false

theorem capped_update (hm : Capped L m) (key : Bytes) {o : Option Entry}
    (ho : ∀ e, o = some e → (e.val.length : Int) ≤ L) : Capped L (Function.update m key o) := by
  intro k e he
  by_cases hk : k = key
  · subst hk
    rw [Function.update_self] at he
    exact ho e he
  · rw [Function.update_of_ne hk] at he
    exact hm k e he

theorem capped_live (hm : Capped L m) {t : Instant} {key : Bytes} {e : Entry} (he : live t (m key) = some e) :
    (e.val.length : Int) ≤ L := hm key e (live_eq_some.mp he).1

theorem capped_updateKey (hm : Capped L m) {op : KeyOp α} {key : Bytes}
    (hop : ∀ e, next op (now 1) (live (now 0) (m key)) = some e → (e.val.length : Int) ≤ L) :
    Capped L (updateKey op now key m) := capped_update hm key hop

/-- An operation that creates no entry and changes no value. -/
def KeepsValue (op : KeyOp α) : Prop := ∀ t o e, next op t o = some e → ∃ e', o = some e' ∧ e.val = e'.val

theorem KeepsValue.capped {op : KeyOp α} (hop : KeepsValue op) (hm : Capped L m) (now : Readings) (key : Bytes) :
    Capped L (updateKey op now key m) := by
  refine capped_updateKey hm fun e he => ?_
  obtain ⟨e', hl, hv⟩ := hop _ _ e he
  rw [hv]
  exact capped_live hm hl

theorem keepsValue_get : KeepsValue StoreRules.get := fun t o e he => ⟨e, (next_get t o).symm.trans he, rfl⟩

theorem keepsValue_ttl : KeepsValue StoreRules.ttl := fun t o e he => ⟨e, (next_ttl t o).symm.trans he, rfl⟩

theorem keepsValue_del : KeepsValue StoreRules.del := by
  rintro t (_ | e') e he <;> cases he

theorem keepsValue_expire (ttl : Int) : KeepsValue (StoreRules.expire ttl) := by
  rintro t (_ | e') e he
  · cases he
  · refine ⟨e', rfl, ?_⟩
    rw [next_expire_some] at he
    split at he
    · cases he
    · cases he
      rfl

theorem keepsValue_expireAtNanos (dl : Int) : KeepsValue (StoreRules.expireAtNanos dl) := by
  rintro t (_ | e') e he
  · cases he
  · refine ⟨e', rfl, ?_⟩
    rw [next_expireAtNanos_some] at he
    split at he
    · cases he
    · cases he
      rfl

theorem keepsValue_persist : KeepsValue StoreRules.persist := by
  rintro t (_ | e') e he
  · cases he
  · refine ⟨e', rfl, ?_⟩
    simp only [next, StoreRules.persist] at he
    split at he <;> cases he <;> rfl

theorem capped_delAll (hm : Capped L m) (keys : List Bytes) : Capped L (delAll now m keys) := by
  induction keys generalizing now m with
  | nil => exact hm
  | cons key keys ih => exact ih (keepsValue_del.capped hm now key)

theorem capped_putView (hm : Capped L m) {pairs : List (Bytes × Bytes)}
    (hp : ∀ v ∈ pairs.map Prod.snd, (v.length : Int) ≤ L) : Capped L (putView m pairs) := by
  induction pairs generalizing m with
  | nil => exact hm
  | cons p pairs ih =>
    obtain ⟨hv, hp⟩ := List.forall_mem_cons.mp hp
    refine ih (capped_update hm p.1 fun e he => ?_) hp
    cases he
    exact hv

theorem capped_purgeAbsent (hm : Capped L m) (pairs : List (Bytes × Bytes)) :
    Capped L (purgeAbsent now m pairs).2 := by
  induction pairs generalizing now m with
  | nil => exact hm
  | cons p pairs ih =>
    unfold purgeAbsent
    split
    · exact hm
    · exact ih (capped_update hm p.1 fun e he => by cases he)

theorem capped_setNX (hm : Capped L m) {pairs : List (Bytes × Bytes)}
    (hp : (setNX now m pairs).1 = true → ∀ v ∈ pairs.map Prod.snd, (v.length : Int) ≤ L) :
    Capped L (setNX now m pairs).2 := by
  have hpurge : Capped L (purgeAbsent now m pairs).2 := capped_purgeAbsent hm pairs
  unfold setNX at hp ⊢
  generalize purgeAbsent now m pairs = r at hp hpurge ⊢
  obtain ⟨done, m'⟩ := r
  cases done with
  | false => exact hpurge
  | true => exact capped_putView hpurge (hp rfl)

theorem incrBy_writes {t : Instant} {delta n : Int} {o : Option Entry}
    (h : answer (StoreRules.incrBy delta) t o = .ok n) :
    next (StoreRules.incrBy delta) t o = some ⟨formatInt n, 0⟩ := by
  cases o with
  | none =>
    cases h
    rfl
  | some e =>
    simp only [answer, next, StoreRules.incrBy] at h ⊢
    cases hp : parseInt e.val with
    | none => simp [hp] at h
    | some v =>
      simp only [hp, Except.ok.injEq] at h
      subst h
      rfl

theorem append_ok_iff (t : Instant) (suffix : Bytes) (o : Option Entry) :
    (answer (StoreRules.append L suffix) t o).isOk = true ↔
      (((o.map Entry.val).getD [] ++ suffix).length : Int) ≤ L := by
  cases o with
  | none =>
    simp only [answer, StoreRules.append, Option.map_none, Option.getD_none, List.nil_append]
    split
    · simp only [Except.isOk, Except.toBool, Bool.false_eq_true, false_iff]
      omega
    · simp only [Except.isOk, Except.toBool, true_iff]
      omega
  | some e =>
    simp only [answer, StoreRules.append, Option.map_some, Option.getD_some, List.length_append]
    split
    · simp only [Except.isOk, Except.toBool, Bool.false_eq_true, false_iff]
      omega
    · simp only [Except.isOk, Except.toBool, true_iff]
      omega

theorem append_writes {t : Instant} {suffix : Bytes} {o : Option Entry} {e : Entry}
    (h : (answer (StoreRules.append L suffix) t o).isOk = true) (he : next (StoreRules.append L suffix) t o = some e) :
    e.val = (o.map Entry.val).getD [] ++ suffix := by
  cases o with
  | none =>
    simp only [answer, next, StoreRules.append] at h he
    split at he
    · cases he
    · cases he
      rfl
  | some e' =>
    simp only [answer, next, StoreRules.append] at h he
    split at he
    · rename_i hbig
      rw [if_pos hbig] at h
      cases h
    · cases he
      rfl

theorem capped_mutate (hm : Capped L m) {mu : Mutation} (hx : isAppend mu = false → ¬ Exceeds L now m mu) :
    Capped L (mutate L now m mu) := by
  have hfit : isAppend mu = false → ∀ v ∈ wouldStore now m mu, (v.length : Int) ≤ L :=
    fun ha v hv => not_lt.mp fun hlt => hx ha ⟨v, hv, hlt⟩
  cases mu with
  | noop => exact hm
  | set key val ttl timed mode =>
    refine capped_updateKey hm fun e he => ?_
    cases hans : answerKey (StoreRules.set val ttl mode) now key m with
    | false =>
      rw [set_keeps hans] at he
      exact capped_live hm he
    | true =>
      rw [set_writes hans] at he
      cases he
      exact hfit rfl val (by simp [wouldStore, hans])
  | del keys => exact capped_delAll hm keys
  | incrBy key delta name logged =>
    refine capped_updateKey hm fun e he => ?_
    cases hans : answerKey (StoreRules.incrBy delta) now key m with
    | error err =>
      rw [incrBy_keeps (by rw [show answer _ _ _ = _ from hans]; rfl)] at he
      exact capped_live hm he
    | ok n =>
      rw [incrBy_writes hans] at he
      cases he
      exact hfit rfl _ (by simp [wouldStore, hans])
  | append key suffix =>
    refine capped_updateKey hm fun e he => ?_
    cases hans : (answer (StoreRules.append L suffix) (now 1) (live (now 0) (m key))).isOk with
    | false =>
      rw [append_keeps hans] at he
      exact capped_live hm he
    | true =>
      rw [append_writes hans he]
      exact (append_ok_iff _ _ _).mp hans
  | expire key ttl => exact (keepsValue_expire ttl).capped hm now key
  | expireAt key secs => exact (keepsValue_expireAtNanos _).capped hm now key
  | expireAtMs key ms text => exact (keepsValue_expireAtNanos _).capped hm now key
  | persist key => exact keepsValue_persist.capped hm now key
  | flush => exact fun k e he => by cases he
  | mset args => exact capped_putView hm (hfit rfl)
  | msetnx args =>
    refine capped_setNX hm fun hok => ?_
    have hvals := hfit rfl
    simp only [wouldStore, hok, ↓reduceIte] at hvals
    exact hvals
  | getSet key val =>
    refine capped_updateKey hm fun e he => ?_
    have hval := hfit rfl val (by simp [wouldStore])
    cases hl : live (now 0) (m key) with
    | none =>
      rw [hl] at he
      cases he
      exact hval
    | some e' =>
      rw [hl] at he
      cases he
      exact hval

theorem capped_readOnly {p : Handler α} (hp : ReadOnly p) (s : Store c) (now : Readings) (hs : Capped L (lookup s)) :
    Capped L (effect s now p).1 := by
  induction hp generalizing s now with
  | pure a => exact hs
  | call a k ha _ ih =>
    refine ih _ _ _ ?_
    cases a with
    | get key => exact lookup_onKey StoreRules.get s now key ▸ keepsValue_get.capped hs now key
    | remaining key => exact lookup_onKey StoreRules.ttl s now key ▸ keepsValue_ttl.capped hs now key
    | existsKey _ | shardKeys _ _ | shardCount | len | now => exact hs
    | _ => cases ha

theorem capped_execute {s : Store c} {tokens : List Bytes} (hs : Capped c.maxValLen (lookup s))
    (hx : isAppend (mutation h tokens) = false → ¬ Exceeds c.maxValLen now (lookup s) (mutation h tokens)) :
    Capped c.maxValLen (lookup (Handler.run s now (execute h tokens)).2.1) := by
  cases hw : isWrite h tokens with
  | false => exact capped_readOnly (execute_read hw) s now hs
  | true =>
    rw [(run_write h hw s now).1]
    exact capped_mutate hs hx

theorem mutationOf_read (h : Host) (args : List Bytes) :
    ∀ cmd ∈ commands h, cmd.write = false → mutationOf h cmd.name args = .noop := by
  simp only [commands, List.forall_mem_cons, Bool.true_eq_false, false_implies, forall_const, true_and,
    List.not_mem_nil, implies_true, and_true]
  exact ⟨rfl, rfl, rfl, rfl, rfl, rfl, rfl, rfl, rfl, rfl, rfl, rfl, rfl, rfl⟩

theorem isWrite_of_exceeds {tokens : List Bytes} (hx : Exceeds L now m (mutation h tokens)) :
    isWrite h tokens = true := by
  have hnoop : ¬ Exceeds L now m .noop := by simp [Exceeds, wouldStore]
  unfold mutation at hx
  unfold isWrite
  cases hd : dispatch h tokens with
  | refuse r =>
    rw [hd] at hx
    exact absurd hx hnoop
  | run cmd args =>
    simp only [hd] at hx ⊢
    by_contra hw
    rw [mutationOf_read h args cmd (dispatch_run hd).1 (by simpa using hw)] at hx
    exact hnoop hx

theorem record_of_exceeds {mu : Mutation} (ha : isAppend mu = false) (hx : Exceeds L now m mu) :
    record L now m mu ≠ [] := by
  obtain ⟨v, hv, _⟩ := hx
  cases mu with
  | set key val ttl timed mode =>
    simp only [wouldStore] at hv
    split at hv
    · rename_i hans
      simp [record, hans, logIf]
    · cases hv
  | incrBy key delta name logged =>
    simp only [wouldStore] at hv
    split at hv
    · rename_i n hans
      simp [record, hans, logIf, Except.isOk, Except.toBool]
    · cases hv
  | msetnx args =>
    simp only [wouldStore] at hv
    split at hv
    · rename_i hans
      simp [record, hans, logIf]
    · cases hv
  | append key suffix => cases ha
  | mset _ | getSet _ _ => simp [record]
  | _ => cases hv

theorem isAppend_mutationOf {name : String} {args : List Bytes} (ha : isAppend (mutationOf h name args) = true) :
    name = "append" := by
  unfold mutationOf at ha
  split at ha
  case h_5 => rfl
  all_goals
    try unfold expireMutation at ha
    repeat' split at ha
    all_goals cases ha

theorem isAppend_mutation {tokens : List Bytes} (ha : isAppend (mutation h tokens) = true) :
    ∃ args, execute h tokens = (do .pure (reply (← hAppend args))) ∧
      mutation h tokens = .append (arg args 0) (arg args 1) := by
  unfold mutation at ha ⊢
  unfold execute
  cases hd : dispatch h tokens with
  | refuse r =>
    rw [hd] at ha
    cases ha
  | run cmd args =>
    simp only [hd] at ha ⊢
    have hname := isAppend_mutationOf ha
    have hmem : (⟨"append", 2, some 2, true, hAppend⟩ : Command) ∈ commands h := by simp [commands]
    have hfind := findCommand_of_mem (dispatch_run hd).1
    rw [hname, findCommand_of_mem hmem] at hfind
    cases hfind
    exact ⟨args, rfl, rfl⟩

theorem append_refused {s : Store c} {tokens : List Bytes} (ha : isAppend (mutation h tokens) = true)
    (hx : Exceeds c.maxValLen now (lookup s) (mutation h tokens)) :
    isError (Handler.run s now (execute h tokens)).1 = true ∧ (Handler.run s now (execute h tokens)).2.2 = [] := by
  obtain ⟨args, hexec, hmu⟩ := isAppend_mutation ha
  rw [hmu] at hx
  obtain ⟨v, hv, hlong⟩ := hx
  rw [List.mem_singleton.mp hv] at hlong
  have hno : (answerKey (StoreRules.append c.maxValLen (arg args 1)) now (arg args 0) (lookup s)).isOk ≠ true :=
    fun hok => absurd ((append_ok_iff _ _ _).mp hok) (not_le.mpr hlong)
  obtain ⟨k, hk, herr⟩ : ∃ k, hAppend args = .call (.append (arg args 0) (arg args 1)) k ∧
      ∀ e, k (.error e) = fail e.text := ⟨_, rfl, fun e => rfl⟩
  have hans : ((Section.append (arg args 0) (arg args 1)).exec s now).1 = _ := onKey_fst _ s now (arg args 0)
  obtain ⟨e, he⟩ : ∃ e, ((Section.append (arg args 0) (arg args 1)).exec s now).1 = Except.error e := by
    cases hr : answerKey (StoreRules.append c.maxValLen (arg args 1)) now (arg args 0) (lookup s) with
    | ok n =>
      rw [hr] at hno
      exact absurd rfl hno
    | error e => exact ⟨e, hans.trans hr⟩
  rw [hexec, hk, call_bind, Handler.run, he, herr]
  exact ⟨rfl, rfl⟩

/-- The history keeps the cap: no state holds a value that is too long, and a
command that would store one fails and changes nothing. -/
def CapRun (h : Host) (s : Store c) : List (Readings × List Bytes) → Prop
  | [] => Capped c.maxValLen (lookup s)
  | (now, tokens) :: rest =>
    let r := Handler.run s now (execute h tokens)
    Capped c.maxValLen (lookup s) ∧
      (Exceeds c.maxValLen now (lookup s) (mutation h tokens) →
        isError r.1 = true ∧ ∀ t, (∀ i, now i ≤ t) → view r.2.1 t = view s t) ∧
      CapRun h r.2.1 rest

/-- No command of the history but an append would store a value that is too
long. -/
def ModestRun (h : Host) (s : Store c) : List (Readings × List Bytes) → Prop
  | [] => True
  | (now, tokens) :: rest =>
    (isAppend (mutation h tokens) = false → ¬ Exceeds c.maxValLen now (lookup s) (mutation h tokens)) ∧
      ModestRun h (Handler.run s now (execute h tokens)).2.1 rest

theorem capRun_iff {s : Store c} (hs : Capped c.maxValLen (lookup s)) (hist : List (Readings × List Bytes)) :
    CapRun h s hist ↔ ModestRun h s hist := by
  induction hist generalizing s with
  | nil => exact iff_of_true hs trivial
  | cons x hist ih =>
    obtain ⟨now, tokens⟩ := x
    constructor
    · rintro ⟨_, hfail, hrest⟩
      have hmodest : isAppend (mutation h tokens) = false →
          ¬ Exceeds c.maxValLen now (lookup s) (mutation h tokens) := by
        intro ha hx
        have hlog := (run_write h (isWrite_of_exceeds hx) s now).2
        rcases alwaysLogged_run (alwaysLogged_execute h tokens) s now with hnil | hok
        · exact record_of_exceeds ha hx (hlog.symm.trans hnil)
        · exact absurd ((hfail hx).1.symm.trans hok) (by decide)
      exact ⟨hmodest, (ih (capped_execute hs hmodest)).mp hrest⟩
    · rintro ⟨hmodest, hrest⟩
      refine ⟨hs, fun hx => ?_, (ih (capped_execute hs hmodest)).mpr hrest⟩
      have ha : isAppend (mutation h tokens) = true := by
        by_contra ha
        exact hmodest (by simpa using ha) hx
      obtain ⟨herr, hnil⟩ := append_refused ha hx
      exact ⟨herr, fun t ht => view_execute_of_unlogged h tokens s now ht hnil⟩

/-- Only `Append` looks at the cap: a run keeps it if and only if no other
command of the run would store a longer value. -/
theorem cap_kept_iff (h : Host) (c : Config) (hist : List (Readings × List Bytes)) :
    CapRun h (new c) hist ↔ ModestRun h (new c) hist :=
  capRun_iff (fun k e he => by cases he) hist

/-- With a cap of three bytes, SET stores four. -/
theorem longSet_not_capped :
    let c := newConfig 8 2 3 flatHash
    let tokens := [ascii "SET", ascii "k", ascii "long"]
    let r := Handler.run (new c) (frozen (instant 0)) (execute host tokens)
    c.maxValLen = 3 ∧ isError r.1 = false ∧ lookup r.2.1 (ascii "k") = some ⟨ascii "long", 0⟩ := by
  decide +kernel

end MemX.CommandCap
