import MemX.CommandReplay

namespace MemX.CommandOutcome

open MachineInt DecimalText Clock StoreState StoreRules StoreOps StoreLookup StoreView
open CommandProgram CommandHandlers CommandRegistry CommandWrites CommandEffect CommandReplay RespWrite

variable {c : Config} {α β : Type} {P : α → Prop} {Q : β → Prop}

/-- Every result of a handler satisfies `P`, whatever its sections answer. -/
def Always (P : α → Prop) : Handler α → Prop
  | .pure a => P a
  | .call _ k => ∀ r, Always P (k r)
  | .propagate _ k => Always P k

/-- Every result of a handler that has propagated something satisfies `P`. -/
def AlwaysLogged (P : α → Prop) : Handler α → Prop
  | .pure _ => True
  | .call _ k => ∀ r, AlwaysLogged P (k r)
  | .propagate _ k => Always P k

theorem always_bind {p : Handler α} {f : α → Handler β} (hp : Always P p) (hf : ∀ a, P a → Always Q (f a)) :
    Always Q (p >>= f) := by
  induction p with
  | pure a => exact hf a hp
  | call a k ih => exact fun r => ih r (hp r)
  | propagate cmd k ih => exact ih hp

theorem always_then (p : Handler α) {f : α → Handler β} (hf : ∀ a, Always Q (f a)) : Always Q (p >>= f) := by
  induction p with
  | pure a => exact hf a
  | call a k ih => exact fun r => ih r
  | propagate cmd k ih => exact ih

theorem always_run {p : Handler α} (hp : Always P p) (s : Store c) (now : Readings) : P (Handler.run s now p).1 := by
  induction p generalizing s now with
  | pure a => exact hp
  | call a k ih => exact ih _ (hp _) _ _
  | propagate cmd k ih => exact ih hp s now

theorem Always.logged {p : Handler α} (hp : Always P p) : AlwaysLogged P p := by
  induction p with
  | pure a => trivial
  | call a k ih => exact fun r => ih r (hp r)
  | propagate cmd k ih => exact hp

theorem alwaysLogged_readOnly {p : Handler α} (hp : ReadOnly p) : AlwaysLogged P p := by
  induction hp with
  | pure a => trivial
  | call a k _ _ ih => exact ih

theorem alwaysLogged_run {p : Handler α} (hp : AlwaysLogged P p) (s : Store c) (now : Readings) :
    (Handler.run s now p).2.2 = [] ∨ P (Handler.run s now p).1 := by
  induction p generalizing s now with
  | pure a => exact Or.inl rfl
  | call a k ih => exact ih _ (hp _) _ _
  | propagate cmd k ih => exact Or.inr (always_run hp s now)

theorem alwaysLogged_map {p : Handler α} {g : α → β} (hp : AlwaysLogged (fun a => Q (g a)) p) :
    AlwaysLogged Q (p >>= fun a => .pure (g a)) := by
  induction p with
  | pure a => trivial
  | call a k ih => exact fun r => ih r (hp r)
  | propagate cmd k ih => exact always_bind hp fun a ha => ha

def isError : Reply → Bool
  | .error _ => true
  | _ => false

def Answered (o : Outcome) : Prop := isError (reply o) = false

theorem answered_storeSet (key val : Bytes) (o : SetOptions) : Always Answered (storeSet key val o) := by
  refine always_then _ fun done => ?_
  cases done with
  | false => rfl
  | true => exact always_then _ fun _ => always_then _ fun _ => rfl

theorem alwaysLogged_storeSet (key val : Bytes) (o : SetOptions) : AlwaysLogged Answered (storeSet key val o) :=
  (answered_storeSet key val o).logged

theorem alwaysLogged_hDel (args : List Bytes) : AlwaysLogged Answered (hDel args) :=
  Always.logged (always_then _ fun _ => always_then _ fun _ => rfl)

theorem alwaysLogged_addTo (name : String) (logged : List Bytes) (key : Bytes) (delta : Int) :
    AlwaysLogged Answered (addTo name logged key delta) := by
  intro r
  cases r with
  | error e => trivial
  | ok n => rfl

theorem alwaysLogged_hAppend (args : List Bytes) : AlwaysLogged Answered (hAppend args) := by
  intro r
  cases r with
  | error e => trivial
  | ok n => rfl

theorem alwaysLogged_flag (p : Handler Bool) (k : Handler Unit) :
    AlwaysLogged Answered (p >>= fun done => if done then k >>= fun _ => ok (.integer 1) else ok (.integer 0)) := by
  refine Always.logged (always_then _ fun done => ?_)
  cases done with
  | false => rfl
  | true => exact always_then _ fun _ => rfl

theorem alwaysLogged_expireIn (unit : Int) (args : List Bytes) : AlwaysLogged Answered (expireIn unit args) := by
  unfold expireIn
  cases parseInt (arg args 1) with
  | none => trivial
  | some n =>
    by_cases hn : n ≤ 0
    · simp only [hn, ↓reduceIte]
      exact alwaysLogged_hDel _
    · simp only [hn, ↓reduceIte]
      exact alwaysLogged_flag _ _

/-- A handler that replies with an error has propagated nothing. -/
theorem alwaysLogged_handler (h : Host) (args : List Bytes) :
    ∀ cmd ∈ commands h, AlwaysLogged Answered (cmd.handler args) := by
  intro cmd hm
  by_cases hw : cmd.write = true
  · revert cmd
    simp only [commands, List.forall_mem_cons, Bool.false_eq_true, false_implies, forall_const, true_and,
      List.not_mem_nil, implies_true, and_true]
    refine ⟨?_, alwaysLogged_hDel args, alwaysLogged_addTo _ _ _ _, alwaysLogged_addTo _ _ _ _,
      alwaysLogged_hAppend args,
      alwaysLogged_expireIn .., alwaysLogged_expireIn .., ?_, ?_, alwaysLogged_flag .., fun _ _ => rfl, ?_, ?_,
      ?_, alwaysLogged_flag .., ?_, ?_⟩
    · unfold hSet
      cases setOptions h.cases ⟨0, false, .always⟩ (args.drop 2) with
      | error msg => trivial
      | ok o => exact alwaysLogged_storeSet _ _ o
    · unfold hExpireAt
      cases parseInt (arg args 1) with
      | none => trivial
      | some ts => exact alwaysLogged_flag ..
    · unfold hPExpireAt
      cases parseInt (arg args 1) with
      | none => trivial
      | some ms => exact alwaysLogged_flag ..
    · unfold hMSet
      split
      · trivial
      · exact Always.logged (always_then _ fun _ => always_then _ fun _ => rfl)
    · unfold hMSetNX
      split
      · trivial
      · exact alwaysLogged_flag ..
    · intro old
      cases old <;> rfl
    · unfold hIncrBy
      cases parseInt (arg args 1) with
      | none => trivial
      | some delta => exact alwaysLogged_addTo _ _ _ _
    · unfold hDecrBy
      cases parseInt (arg args 1) with
      | none => trivial
      | some delta => exact alwaysLogged_addTo _ _ _ _
  · exact alwaysLogged_readOnly (readOnly_handler h args cmd hm (by simpa using hw))

theorem alwaysLogged_execute (h : Host) (tokens : List Bytes) :
    AlwaysLogged (fun r => isError r = false) (execute h tokens) := by
  unfold execute
  cases hd : dispatch h tokens with
  | refuse r => trivial
  | run cmd args => exact alwaysLogged_map (alwaysLogged_handler h args cmd (dispatch_run hd).1)

theorem logIf_eq_nil {b : Bool} {l : List (List Bytes)} (hl : l ≠ []) : logIf b l = [] ↔ b = false := by
  cases b <;> simp [logIf, hl]

/-- An operation that keeps what it found changes no later view: at most it
purged what had expired. -/
theorem live_updateKey_of_keeps {op : KeyOp α} {now : Readings} {t : Instant} (ht : now 0 ≤ t) {m : Table}
    {key : Bytes} (hk : next op (now 1) (live (now 0) (m key)) = live (now 0) (m key)) (k : Bytes) :
    live t (updateKey op now key m k) = live t (m k) := by
  unfold updateKey
  rw [hk]
  by_cases hkey : k = key
  · subst hkey
    rw [Function.update_self, live_live ht]
  · rw [Function.update_of_ne hkey]

theorem live_updateKey_of_absent {op : KeyOp α} {now : Readings} {t : Instant} (ht : now 0 ≤ t) {m : Table}
    {key : Bytes} (hop : next op (now 1) none = none) (ha : (live (now 0) (m key)).isSome = false) (k : Bytes) :
    live t (updateKey op now key m k) = live t (m k) := by
  have hnone : live (now 0) (m key) = none := by simpa using ha
  refine live_updateKey_of_keeps ht ?_ k
  rw [hnone, hop]

theorem live_mutate_of_unlogged {L : Int} {now : Readings} {t : Instant} (ht : ∀ i, now i ≤ t) {m : Table}
    (mu : Mutation) (hr : record L now m mu = []) (k : Bytes) : live t (mutate L now m mu k) = live t (m k) := by
  cases mu with
  | noop => rfl
  | set key val ttl timed mode =>
    exact live_updateKey_of_keeps (ht 0) (set_keeps ((logIf_eq_nil (by simp)).mp hr)) k
  | del keys =>
    have hzero := (logIf_eq_nil (by simp)).mp hr
    exact live_delAll_of_count_zero now ht (by simpa using hzero) k
  | incrBy key delta name logged =>
    exact live_updateKey_of_keeps (ht 0) (incrBy_keeps ((logIf_eq_nil (by simp)).mp hr)) k
  | append key suffix =>
    exact live_updateKey_of_keeps (ht 0) (append_keeps ((logIf_eq_nil (by simp)).mp hr)) k
  | expire key ttl =>
    have hno := (logIf_eq_nil (by simp)).mp hr
    exact live_updateKey_of_absent (ht 0) rfl ((answer_expire ttl _).symm.trans hno) k
  | expireAt key secs =>
    have hno := (logIf_eq_nil (by simp)).mp hr
    exact live_updateKey_of_absent (ht 0) rfl ((answer_expireAtNanos _ _).symm.trans hno) k
  | expireAtMs key ms text =>
    have hno := (logIf_eq_nil (by simp)).mp hr
    exact live_updateKey_of_absent (ht 0) rfl ((answer_expireAtNanos _ _).symm.trans hno) k
  | persist key => exact live_updateKey_of_keeps (ht 0) (persist_keeps ((logIf_eq_nil (by simp)).mp hr)) k
  | flush => simp [record] at hr
  | mset args => simp [record] at hr
  | msetnx args =>
    have hno := (logIf_eq_nil (by simp)).mp hr
    have hp := live_purgeAbsent now ht m (pairsOf args) k
    show live t ((setNX now m (pairsOf args)).2 k) = _
    unfold setNX at hno ⊢
    generalize purgeAbsent now m (pairsOf args) = r at hno hp ⊢
    obtain ⟨done, m'⟩ := r
    cases done with
    | true => cases hno
    | false => exact hp
  | getSet key val => simp [record] at hr

theorem view_execute_of_unlogged (h : Host) (tokens : List Bytes) (s : Store c) (now : Readings) {t : Instant}
    (ht : ∀ i, now i ≤ t) (hl : (Handler.run s now (execute h tokens)).2.2 = []) :
    view (Handler.run s now (execute h tokens)).2.1 t = view s t := by
  funext k
  cases hw : isWrite h tokens with
  | false => exact live_readOnly (execute_read hw) s now ht k
  | true =>
    obtain ⟨hm, hr⟩ := run_write h hw s now
    rw [view, hm]
    exact live_mutate_of_unlogged ht _ (hr.symm.trans hl) k

/-- A failed command and a command that propagates nothing leave the live view
as it was, and a failed command propagates nothing; nor does a command without
the write flag. -/
theorem execute_changes_only_logged (h : Host) (tokens : List Bytes) (s : Store c) (now : Readings) {t : Instant}
    (ht : ∀ i, now i ≤ t) :
    let r := Handler.run s now (execute h tokens)
    (isError r.1 = true ∨ r.2.2 = [] → view r.2.1 t = view s t) ∧
      (isError r.1 = true → r.2.2 = []) ∧
        (isWrite h tokens = false → r.2.2 = [] ∧ view r.2.1 t = view s t) := by
  intro r
  have herr : isError r.1 = true → r.2.2 = [] := by
    intro he
    refine (alwaysLogged_run (alwaysLogged_execute h tokens) s now).resolve_right fun hok => ?_
    exact absurd (he.symm.trans hok) (by decide)
  have hsame : r.2.2 = [] → view r.2.1 t = view s t := view_execute_of_unlogged h tokens s now ht
  refine ⟨fun hor => hsame (hor.elim herr id), herr, fun hw => ?_⟩
  have hnil : r.2.2 = [] := readOnly_log (execute_read hw) s now
  exact ⟨hnil, hsame hnil⟩

def shortLived : Store (newConfig 8 2 3 flatHash) :=
  (Handler.run (new _) (frozen (instant 0))
    (execute host [ascii "SET", ascii "k", ascii "v", ascii "PX", ascii "1"])).2.1

def longAppend : List Bytes := [ascii "APPEND", ascii "k", ascii "long"]

/-- The failed command purges the expired key on its way, and nobody sees it. -/
theorem longAppend_changes_nothing :
    isError (Handler.run shortLived (frozen (instant second)) (execute host longAppend)).1 = true ∧
      (lookup shortLived (ascii "k")).isSome ∧
      lookup (Handler.run shortLived (frozen (instant second)) (execute host longAppend)).2.1 (ascii "k") = none ∧
      view (Handler.run shortLived (frozen (instant second)) (execute host longAppend)).2.1 (instant second) =
        view shortLived (instant second) := by
  have herr : isError (Handler.run shortLived (frozen (instant second)) (execute host longAppend)).1 = true := by
    decide +kernel
  have h := execute_changes_only_logged host longAppend shortLived (frozen (instant second)) fun _ => le_rfl
  exact ⟨herr, by decide +kernel, by decide +kernel, h.1 (Or.inl herr)⟩

end MemX.CommandOutcome
