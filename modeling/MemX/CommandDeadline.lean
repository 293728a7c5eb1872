import MemX.CommandEffect

namespace MemX.CommandDeadline

open MachineInt DecimalText Clock StoreState StoreRules StoreOps StoreLookup StoreView TextCase RespWrite
open CommandProgram CommandHandlers CommandRegistry CommandWrites CommandEffect

variable {c : Config} {h : Host} {tokens args : List Bytes} {cmd : Command}

inductive Request
  | set (mode : SetMode) (unit n : Int)
  | expire (unit n : Int)
  | expireAt (unit n : Int)
deriving DecidableEq

def expiryOption (t : CaseTable) (opt v : Bytes) : Option (Int × Int) :=
  if toUpper t opt = ascii "EX" then (parseInt v).map (second, ·)
  else if toUpper t opt = ascii "PX" then (parseInt v).map (millisecond, ·)
  else none

def flagOption (t : CaseTable) (opt : Bytes) : Option SetMode :=
  if toUpper t opt = ascii "NX" then some .nx
  else if toUpper t opt = ascii "XX" then some .xx
  else none

/-- The well-formed option lists of `SET` that hold a time: the time alone, or
with `NX` or `XX` before or after it. -/
def setRequest (t : CaseTable) : List Bytes → Option Request
  | [opt, v] => (expiryOption t opt v).map fun p => .set .always p.1 p.2
  | [a, b, d] =>
    match flagOption t a with
    | some mode => (expiryOption t b d).map fun p => .set mode p.1 p.2
    | none => (flagOption t d).bind fun mode => (expiryOption t a b).map fun p => .set mode p.1 p.2
  | _ => none

def request (h : Host) (name : String) (args : List Bytes) : Option Request :=
  match name with
  | "set" => setRequest h.cases (args.drop 2)
  | "expire" => (parseInt (arg args 1)).map (.expire second)
  | "pexpire" => (parseInt (arg args 1)).map (.expire millisecond)
  | "expireat" => (parseInt (arg args 1)).map (.expireAt second)
  | "pexpireat" => (parseInt (arg args 1)).map (.expireAt millisecond)
  | _ => none

/-- The deadline asked for at a reading, as an exact integer. -/
def Request.deadline (t : Instant) : Request → Int
  | .set _ unit n => t.nanos + n * unit
  | .expire unit n => t.nanos + n * unit
  | .expireAt unit n => n * unit

theorem ascii_options : ascii "EX" ≠ ascii "NX" ∧ ascii "EX" ≠ ascii "XX" ∧ ascii "PX" ≠ ascii "NX" ∧
    ascii "PX" ≠ ascii "XX" ∧ ascii "NX" ≠ ascii "XX" ∧ ascii "EX" ≠ ascii "PX" := by decide +kernel

theorem setOptions_flag {t : CaseTable} {opt : Bytes} {mode : SetMode} (hf : flagOption t opt = some mode)
    {o : SetOptions} (ho : o.mode = .always) (rest : List Bytes) :
    setOptions t o (opt :: rest) = setOptions t { o with mode := mode } rest := by
  obtain ⟨hen, hex, hpn, hpx, hnx, _⟩ := ascii_options
  unfold flagOption at hf
  split_ifs at hf with hn hx
  · cases hf
    rw [setOptions.eq_def]
    simp [hn, hen.symm, hpn.symm, ho]
  · cases hf
    rw [setOptions.eq_def]
    simp [hx, hex.symm, hpx.symm, hnx.symm, ho]

theorem setOptions_expiry {t : CaseTable} {opt v : Bytes} {unit n : Int} (he : expiryOption t opt v = some (unit, n))
    {o : SetOptions} (ho : o.ttlSet = false) (rest : List Bytes) :
    setOptions t o (opt :: v :: rest) =
      if n ≤ 0 then .error (ascii "invalid expire time in 'set' command")
      else setOptions t { o with ttl := wrap64 (n * unit), ttlSet := true } rest := by
  obtain ⟨_, _, _, _, _, hep⟩ := ascii_options
  unfold expiryOption at he
  split_ifs at he with hx hp
  · obtain ⟨m, hm, heq⟩ := Option.map_eq_some_iff.mp he
    cases heq
    simp [setOptions, hx, hm, ho]
  · obtain ⟨m, hm, heq⟩ := Option.map_eq_some_iff.mp he
    cases heq
    simp [setOptions, hp, hm, ho, hep.symm]

theorem setOptions_request {t : CaseTable} {opts : List Bytes} {mode : SetMode} {unit n : Int}
    (hr : setRequest t opts = some (.set mode unit n)) :
    setOptions t ⟨0, false, .always⟩ opts =
      if n ≤ 0 then .error (ascii "invalid expire time in 'set' command") else .ok ⟨wrap64 (n * unit), true, mode⟩ := by
  unfold setRequest at hr
  split at hr
  · obtain ⟨p, hp, heq⟩ := Option.map_eq_some_iff.mp hr
    cases heq
    rw [setOptions_expiry hp rfl]
    rfl
  · split at hr
    · rename_i hf
      obtain ⟨p, hp, heq⟩ := Option.map_eq_some_iff.mp hr
      cases heq
      rw [setOptions_flag hf rfl, setOptions_expiry hp rfl]
      rfl
    · obtain ⟨m, hf, hr⟩ := Option.bind_eq_some_iff.mp hr
      obtain ⟨p, hp, heq⟩ := Option.map_eq_some_iff.mp hr
      cases heq
      rw [setOptions_expiry hp rfl, setOptions_flag hf rfl]
      rfl
  · cases hr

def Asks (s : Store c) (now : Readings) (op : KeyOp Bool) (key : Bytes) (p : Handler Bool) : Prop :=
  ∀ f : Bool → Handler Outcome,
    Handler.run s now (p >>= f) = Handler.run (onKey op s now key).2 (later 2 now) (f (onKey op s now key).1)

theorem run_ifDone {s : Store c} {now : Readings} {op : KeyOp Bool} {key : Bytes} {p : Handler Bool}
    (hp : Asks s now op key p) (k : Handler Outcome) (r : Reply) :
    Handler.run s now (p >>= fun done => if done then k else ok r) =
      if answer op (now 1) (view s (now 0) key) then Handler.run (onKey op s now key).2 (later 2 now) k
      else (.ok r, (onKey op s now key).2, []) := by
  rw [hp, onKey_answer]
  cases answer op (now 1) (view s (now 0) key) <;> rfl

theorem run_storeSet (s : Store c) (now : Readings) (key val : Bytes) (ttl : Int) (mode : SetMode) :
    Handler.run s now (storeSet key val ⟨ttl, true, mode⟩) =
      if answer (StoreRules.set val ttl mode) (now 1) (view s (now 0) key) then
        (.ok okText, (onKey (StoreRules.set val ttl mode) s now key).2,
          [[ascii "SET", key, val], deadlineRecord now key ttl])
      else (.ok .null, (onKey (StoreRules.set val ttl mode) s now key).2, []) :=
  run_ifDone (p := Handler.set key val ttl mode) (fun _ => rfl) _ _

theorem run_expireIn (s : Store c) (now : Readings) (key : Bytes) (ttl : Int) :
    Handler.run s now (do
      if ← Handler.expire key ttl then
        propagateDeadline key ttl
        ok (.integer 1)
      else ok (.integer 0)) =
      if answer (StoreRules.expire ttl) (now 1) (view s (now 0) key) then
        (.ok (.integer 1), (onKey (StoreRules.expire ttl) s now key).2, [deadlineRecord now key ttl])
      else (.ok (.integer 0), (onKey (StoreRules.expire ttl) s now key).2, []) :=
  run_ifDone (p := Handler.expire key ttl) (fun _ => rfl) _ _

theorem run_expireAt {s : Store c} {now : Readings} {key : Bytes} {dl : Int} {p : Handler Bool}
    (hp : Asks s now (expireAtNanos dl) key p) (name : String) (logged : List Bytes) :
    Handler.run s now (do
      if ← p then
        Handler.propagateCmd name logged
        ok (.integer 1)
      else ok (.integer 0)) =
      if answer (expireAtNanos dl) (now 1) (view s (now 0) key) then
        (.ok (.integer 1), (onKey (expireAtNanos dl) s now key).2, [ascii name :: logged])
      else (.ok (.integer 0), (onKey (expireAtNanos dl) s now key).2, []) :=
  run_ifDone hp _ _

theorem second_pos : 0 < second := by decide

theorem millisecond_pos : 0 < millisecond := by decide

theorem setRequest_pos {t : CaseTable} {opts : List Bytes} {q : Request} (hr : setRequest t opts = some q) :
    ∃ mode unit n, q = .set mode unit n ∧ 0 < unit := by
  have hpos : ∀ {opt v p}, expiryOption t opt v = some p → 0 < p.1 := by
    intro opt v p hp
    unfold expiryOption at hp
    split_ifs at hp
    · obtain ⟨m, _, rfl⟩ := Option.map_eq_some_iff.mp hp
      exact second_pos
    · obtain ⟨m, _, rfl⟩ := Option.map_eq_some_iff.mp hp
      exact millisecond_pos
  unfold setRequest at hr
  split at hr
  · obtain ⟨p, hp, rfl⟩ := Option.map_eq_some_iff.mp hr
    exact ⟨_, _, _, rfl, hpos hp⟩
  · split at hr
    · obtain ⟨p, hp, rfl⟩ := Option.map_eq_some_iff.mp hr
      exact ⟨_, _, _, rfl, hpos hp⟩
    · obtain ⟨m, _, hr⟩ := Option.bind_eq_some_iff.mp hr
      obtain ⟨p, hp, rfl⟩ := Option.map_eq_some_iff.mp hr
      exact ⟨_, _, _, rfl, hpos hp⟩
  · cases hr

def Request.Handled (s : Store c) (now : Readings) (key val : Bytes) (p : Handler Outcome) : Request → Prop
  | .set mode unit n =>
    p = if n ≤ 0 then fail (ascii "invalid expire time in 'set' command")
      else storeSet key val ⟨wrap64 (n * unit), true, mode⟩
  | .expire unit n =>
    p = if n ≤ 0 then hDel [key]
      else do
        if ← Handler.expire key (wrap64 (n * unit)) then
          propagateDeadline key (wrap64 (n * unit))
          ok (.integer 1)
        else ok (.integer 0)
  | .expireAt unit n => ∃ logged, Handler.run s now p =
    if answer (expireAtNanos (wrap64 (n * unit))) (now 1) (view s (now 0) key) then
      (.ok (.integer 1), (onKey (expireAtNanos (wrap64 (n * unit))) s now key).2, [logged])
    else (.ok (.integer 0), (onKey (expireAtNanos (wrap64 (n * unit))) s now key).2, [])

def Request.unit : Request → Int
  | .set _ unit _ => unit
  | .expire unit _ => unit
  | .expireAt unit _ => unit

theorem handled_request (hm : cmd ∈ commands h) {q : Request} (hr : request h cmd.name args = some q)
    (s : Store c) (now : Readings) : 0 < q.unit ∧ q.Handled s now (arg args 0) (arg args 1) (cmd.handler args) := by
  unfold request at hr
  split at hr
  · rename_i hname
    obtain rfl : cmd = ⟨"set", 2, none, true, hSet h⟩ := command_unique hm (by simp [commands]) hname
    obtain ⟨mode, unit, n, rfl, hu⟩ := setRequest_pos hr
    refine ⟨hu, ?_⟩
    simp only [Request.Handled, hSet, setOptions_request hr]
    split_ifs <;> rfl
  · rename_i hname
    obtain rfl : cmd = ⟨"expire", 2, some 2, true, hExpire⟩ := command_unique hm (by simp [commands]) hname
    obtain ⟨n, hn, rfl⟩ := Option.map_eq_some_iff.mp hr
    exact ⟨second_pos, by simp only [Request.Handled, hExpire, expireIn, hn]⟩
  · rename_i hname
    obtain rfl : cmd = ⟨"pexpire", 2, some 2, true, hPExpire⟩ := command_unique hm (by simp [commands]) hname
    obtain ⟨n, hn, rfl⟩ := Option.map_eq_some_iff.mp hr
    exact ⟨millisecond_pos, by simp only [Request.Handled, hPExpire, expireIn, hn]⟩
  · rename_i hname
    obtain rfl : cmd = ⟨"expireat", 2, some 2, true, hExpireAt⟩ := command_unique hm (by simp [commands]) hname
    obtain ⟨n, hn, rfl⟩ := Option.map_eq_some_iff.mp hr
    refine ⟨second_pos, [ascii "PEXPIREAT", arg args 0, formatInt (wrap64 (n * 1000))], ?_⟩
    simp only [hExpireAt, hn]
    exact run_expireAt (p := Handler.expireAt (arg args 0) n) (fun _ => rfl) _ _
  · rename_i hname
    obtain rfl : cmd = ⟨"pexpireat", 2, some 2, true, hPExpireAt⟩ := command_unique hm (by simp [commands]) hname
    obtain ⟨n, hn, rfl⟩ := Option.map_eq_some_iff.mp hr
    refine ⟨millisecond_pos, [ascii "PEXPIREAT", arg args 0, arg args 1], ?_⟩
    simp only [hPExpireAt, hn]
    exact run_expireAt (p := Handler.expireAtMs (arg args 0) n) (fun _ => rfl) _ _
  · cases hr

/-- The command was turned down: `SET` answers a failed `NX` with a null. -/
def Refused : Reply → Prop
  | .error _ => True
  | .null => True
  | _ => False

/-- A deadline that has passed means that the key is gone, any other is what
the key has; 0 is no deadline. -/
def Meets (t : Instant) (dl : Int) (o : Option Entry) : Prop :=
  if dl ≤ t.nanos then o = none else dl ≠ 0 ∧ o.map Entry.expireAt = some dl

def ExactOrRefused (s : Store c) (t : Instant) (key : Bytes) (dl : Int) (r : Reply × Store c × List (List Bytes)) :
    Prop :=
  (Refused r.1 ∧ ∀ t k, view r.2.1 t k = view s t k) ∨ Meets t dl (lookup r.2.1 key)

/-- A span of time that fits, as does the moment when it ends. -/
def Timely (t : Instant) (d : Int) : Prop := InRange d ∧ InRange (t.nanos + d) ∧ t.nanos + d ≠ 0

instance (t : Instant) (d : Int) : Decidable (Timely t d) := inferInstanceAs (Decidable (_ ∧ _ ∧ _))

/-- When the arithmetic for a request is exact. A `SET` that is refused
computes nothing, a negative span needs no arithmetic, and an absolute time
below the range does no harm if it wraps to one that has passed. -/
def Request.Sound (t : Instant) : Request → Prop
  | .set mode unit n => mode = .nx ∨ n ≤ 0 ∨ Timely t (n * unit)
  | .expire unit n => n ≤ 0 ∨ Timely t (n * unit)
  | .expireAt unit n =>
    InRange (n * unit) ∧ (n * unit = 0 → 0 ≤ t.nanos) ∨ n * unit < -2 ^ 63 ∧ wrap64 (n * unit) ≤ t.nanos

theorem meets_future {t : Instant} {dl : Int} (hdl : t.nanos < dl) (o : Option Entry) :
    Meets t dl o ↔ dl ≠ 0 ∧ o.map Entry.expireAt = some dl := by
  rw [Meets, if_neg (Int.not_le.mpr hdl)]

theorem meets_deadlineIn (t : Instant) {d : Int} (hd : 0 < d) (val : Bytes) :
    Meets t (t.nanos + d) (some ⟨val, deadlineIn t (wrap64 d)⟩) ↔ Timely t d := by
  have ht := t.inRange
  rw [meets_future (by omega)]
  simp only [Option.map_some, Option.some.injEq, deadlineIn, Timely, unixNano, InRange, wrap64] at ht ⊢
  split_ifs <;> omega

theorem meets_expire (t : Instant) {d : Int} (hd : 0 < d) (e : Entry) :
    Meets t (t.nanos + d) (next (StoreRules.expire (wrap64 d)) t (some e)) ↔ Timely t d := by
  rw [← meets_deadlineIn t hd e.val, next_expire_some]
  by_cases hw : wrap64 d ≤ 0
  · have ht := t.inRange
    rw [if_pos hw, meets_future (by omega), meets_future (by omega)]
    simp [deadlineIn, Int.not_lt.mpr hw]
    omega
  · rw [if_neg hw]

theorem meets_expireAt (t : Instant) (dl : Int) (e : Entry) :
    Meets t dl (next (expireAtNanos (wrap64 dl)) t (some e)) ↔
      InRange dl ∧ (dl = 0 → 0 ≤ t.nanos) ∨ dl < -2 ^ 63 ∧ wrap64 dl ≤ t.nanos := by
  have ht := t.inRange
  rw [next_expireAtNanos_some]
  by_cases hw : wrap64 dl ≤ t.nanos
  · simp only [Meets, hw, ↓reduceIte, Option.map_none, reduceCtorEq, and_false, and_true]
    simp only [InRange, wrap64] at ht hw ⊢
    split_ifs <;> simp <;> omega
  · simp only [Meets, hw, ↓reduceIte, Option.map_some, Option.some.injEq, reduceCtorEq, and_false]
    simp only [InRange, wrap64] at ht hw ⊢
    split_ifs <;> simp <;> omega

theorem lookup_onKey_live (op : KeyOp Bool) {s : Store c} {t : Instant} {key : Bytes} {e : Entry}
    (he : view s t key = some e) :
    lookup (onKey op s (frozen t) key).2 key = next op t (some e) := by
  rw [onKey_lookup, if_pos rfl, frozen_apply, frozen_apply, he]

theorem view_onKey_kept {op : KeyOp Bool} {s : Store c} {t : Instant} {key : Bytes} {e : Entry}
    (he : view s t key = some e) (hop : next op t (some e) = some e) (t' : Instant) (k : Bytes) :
    view (onKey op s (frozen t) key).2 t' k = view s t' k := by
  rw [view_onKey, frozen_apply, frozen_apply, he, hop]
  split_ifs with hk
  · rw [hk, view, (live_eq_some.mp he).1]
  · rfl

theorem set_exact_iff {s : Store c} {t : Instant} {key : Bytes} {e : Entry} (he : view s t key = some e)
    (val : Bytes) (mode : SetMode) {d : Int} (hd : 0 < d) {r : Outcome × Store c × List (List Bytes)}
    (hr : Handler.run s (frozen t) (storeSet key val ⟨wrap64 d, true, mode⟩) = r) :
    ExactOrRefused s t key (t.nanos + d) (reply r.1, r.2) ↔ mode = .nx ∨ Timely t d := by
  rw [run_storeSet, frozen_apply, frozen_apply, he] at hr
  by_cases hm : mode = .nx
  · have hans : answer (StoreRules.set val (wrap64 d) mode) t (some e) = false := by simp [answer, StoreRules.set, hm]
    rw [hans, if_neg Bool.false_ne_true] at hr
    rw [← hr]
    exact iff_of_true (.inl ⟨trivial, view_onKey_kept he (set_keeps hans)⟩) (.inl hm)
  · have hans : answer (StoreRules.set val (wrap64 d) mode) t (some e) = true := by simp [answer, StoreRules.set, hm]
    rw [hans, if_pos rfl] at hr
    rw [← hr, ExactOrRefused, lookup_onKey_live _ he, set_writes hans, meets_deadlineIn t hd]
    simp [reply, okText, Refused, hm]

theorem expire_exact_iff {s : Store c} {t : Instant} {key : Bytes} {e : Entry} (he : view s t key = some e)
    {d : Int} (hd : 0 < d) {r : Outcome × Store c × List (List Bytes)}
    (hr : Handler.run s (frozen t) (do
      if ← Handler.expire key (wrap64 d) then
        propagateDeadline key (wrap64 d)
        ok (.integer 1)
      else ok (.integer 0)) = r) :
    ExactOrRefused s t key (t.nanos + d) (reply r.1, r.2) ↔ Timely t d := by
  rw [run_expireIn, frozen_apply, frozen_apply, he, answer_expire, Option.isSome_some, if_pos rfl] at hr
  rw [← hr, ExactOrRefused, lookup_onKey_live _ he, meets_expire t hd]
  simp [reply, Refused]

theorem del_exact {s : Store c} {t : Instant} (key : Bytes) {d : Int} (hd : d ≤ 0)
    {r : Outcome × Store c × List (List Bytes)} (hr : Handler.run s (frozen t) (hDel [key]) = r) :
    ExactOrRefused s t key (t.nanos + d) (reply r.1, r.2) := by
  have hgone : lookup r.2.1 key = none := by
    have heff := effect_erase s (frozen t) (hDel [key])
    rw [erase_hDel, effect_mutation] at heff
    have hlook : lookup (Handler.run s (frozen t) (hDel [key])).2.1 = _ := (congrArg Prod.fst heff).symm
    rw [← hr, hlook]
    simp only [mutate, delAll, updateKey, Function.update_self, frozen_apply]
    cases live t (lookup s key) <;> rfl
  exact .inr (by rw [Meets, if_pos (by omega), hgone])

/-- The arithmetic of a deadline is exact or refused if and only if the
request is sound at the reading. -/
theorem deadline_exact_iff (hd : dispatch h tokens = .run cmd args) {q : Request}
    (hq : request h cmd.name args = some q) {s : Store c} {t : Instant} (hlive : (view s t (arg args 0)).isSome) :
    ExactOrRefused s t (arg args 0) (q.deadline t) (Handler.run s (frozen t) (execute h tokens)) ↔ q.Sound t := by
  obtain ⟨e, he⟩ := Option.isSome_iff_exists.mp hlive
  obtain ⟨hu, hh⟩ := handled_request (dispatch_run hd).1 hq s (frozen t)
  rw [run_execute hd]
  cases q with
  | set mode unit n =>
    simp only [Request.Handled] at hh
    by_cases hn : n ≤ 0
    · rw [hh, if_pos hn]
      exact iff_of_true (.inl ⟨trivial, fun _ _ => rfl⟩) (.inr (.inl hn))
    · have hpos : 0 < n * unit := Int.mul_pos (by omega) hu
      rw [hh, if_neg hn, Request.deadline, set_exact_iff he _ _ hpos rfl]
      simp [Request.Sound, hn]
  | expire unit n =>
    simp only [Request.Handled] at hh
    by_cases hn : n ≤ 0
    · rw [hh, if_pos hn]
      exact iff_of_true (del_exact _ (Int.mul_nonpos_of_nonpos_of_nonneg hn hu.le) rfl) (.inl hn)
    · have hpos : 0 < n * unit := Int.mul_pos (by omega) hu
      rw [hh, if_neg hn, Request.deadline, expire_exact_iff he hpos rfl]
      simp [Request.Sound, hn]
  | expireAt unit n =>
    obtain ⟨logged, hrun⟩ := hh
    rw [frozen_apply, frozen_apply, he, answer_expireAtNanos, Option.isSome_some, if_pos rfl] at hrun
    rw [hrun, ExactOrRefused, lookup_onKey_live _ he, Request.deadline, meets_expireAt]
    simp [reply, Refused, Request.Sound]

def oneKey : Store twoShards :=
  (Handler.run (new twoShards) (frozen (instant 0)) (execute host [ascii "SET", ascii "k", ascii "v"])).2.1

theorem dispatch_expire (n : Bytes) : dispatch host [ascii "EXPIRE", ascii "k", n] =
    .run ⟨"expire", 2, some 2, true, hExpire⟩ [ascii "k", n] := rfl

theorem oneKey_live : (view oneKey (instant 0) (ascii "k")).isSome := by decide +kernel

theorem request_ten : request host "expire" [ascii "k", ascii "10"] = some (.expire second 10) := by decide +kernel

theorem request_huge :
    request host "expire" [ascii "k", ascii "9223372037"] = some (.expire second 9223372037) := by decide +kernel

theorem expire_oneKey_exact : ExactOrRefused oneKey (instant 0) (ascii "k") ((instant 0).nanos + 10 * second)
    (Handler.run oneKey (frozen (instant 0)) (execute host [ascii "EXPIRE", ascii "k", ascii "10"])) :=
  (deadline_exact_iff (dispatch_expire _) request_ten oneKey_live).mpr (.inr (by decide))

/-- `EXPIRE k 9223372037` deletes the key at once: the product wraps to a
negative number. -/
theorem expire_oneKey_wraps : (view oneKey (instant 0) (ascii "k")).isSome ∧
    request host "expire" [ascii "k", ascii "9223372037"] = some (.expire second 9223372037) ∧
    ¬ ExactOrRefused oneKey (instant 0) (ascii "k") ((instant 0).nanos + 9223372037 * second)
      (Handler.run oneKey (frozen (instant 0)) (execute host [ascii "EXPIRE", ascii "k", ascii "9223372037"])) := by
  refine ⟨oneKey_live, request_huge, ?_⟩
  rintro (⟨hrefused, _⟩ | hmeets)
  · have hreply : (Handler.run oneKey (frozen (instant 0))
        (execute host [ascii "EXPIRE", ascii "k", ascii "9223372037"])).1 = .integer 1 := rfl
    rw [hreply] at hrefused
    exact hrefused
  · have hgone : lookup (Handler.run oneKey (frozen (instant 0))
        (execute host [ascii "EXPIRE", ascii "k", ascii "9223372037"])).2.1 (ascii "k") = none := by decide +kernel
    rw [hgone, meets_future (by decide)] at hmeets
    cases hmeets.2

/-- A deadline is logged if and only if the key has one afterwards, and then
it is the same one, rounded down to a millisecond. -/
def SameDeadline (key : Bytes) (m : Table) (log : List (List Bytes)) : Prop :=
  ((∃ args, ascii "PEXPIREAT" :: args ∈ log) ↔ ∃ e, m key = some e ∧ e.expireAt ≠ 0) ∧
    ∀ args e, ascii "PEXPIREAT" :: args ∈ log → m key = some e →
      args = [key, formatInt (e.expireAt / millisecond)]

def Request.span : Request → Option Int
  | .set _ unit n => if 0 < n then some (wrap64 (n * unit)) else none
  | .expire unit n => if 0 < n then some (wrap64 (n * unit)) else none
  | .expireAt _ _ => none

def Request.isSet : Request → Bool
  | .set _ _ _ => true
  | _ => false

/-- Two readings that give one and the same deadline to the millisecond. -/
def Agrees (t t' : Instant) (ttl : Int) : Prop :=
  0 < ttl ∧ InRange (t.nanos + ttl) ∧ t.nanos + ttl ≠ 0 ∧
    (t.nanos + ttl) / millisecond = (t'.nanos + ttl) / millisecond

instance (t t' : Instant) (ttl : Int) : Decidable (Agrees t t' ttl) := inferInstanceAs (Decidable (_ ∧ _ ∧ _ ∧ _))

theorem formatInt_inj {a b : Int} (ha : InRange a) (hb : InRange b) (hab : formatInt a = formatInt b) : a = b := by
  have h := parseInt_formatInt ha
  rw [hab, parseInt_formatInt hb] at h
  exact (Option.some.inj h).symm

theorem sameDeadline_iff {key : Bytes} {m : Table} {log : List (List Bytes)} {ms : Int} (hms : InRange ms)
    (hm : ∀ e, m key = some e → InRange e.expireAt)
    (hlog : ∀ args, ascii "PEXPIREAT" :: args ∈ log ↔ args = [key, formatInt ms]) :
    SameDeadline key m log ↔ ∃ e, m key = some e ∧ e.expireAt ≠ 0 ∧ ms = e.expireAt / millisecond := by
  constructor
  · rintro ⟨hiff, hall⟩
    obtain ⟨e, he, h0⟩ := hiff.mp ⟨_, (hlog _).mpr rfl⟩
    have hargs := hall _ e ((hlog _).mpr rfl) he
    have hin := hm e he
    have hdiv : InRange (e.expireAt / millisecond) := by
      simp only [InRange, millisecond] at hin ⊢
      omega
    simp only [List.cons.injEq, and_true, true_and] at hargs
    exact ⟨e, he, h0, formatInt_inj hms hdiv hargs⟩
  · rintro ⟨e, he, h0, rfl⟩
    refine ⟨iff_of_true ⟨_, (hlog _).mpr rfl⟩ ⟨e, he, h0⟩, fun args e' hmem he' => ?_⟩
    cases he.symm.trans he'
    exact (hlog args).mp hmem

theorem agrees_iff {t t' : Instant} (hle : t ≤ t') {ttl : Int} (httl : InRange ttl) :
    Agrees t t' ttl ↔ deadlineIn t ttl ≠ 0 ∧ unixMilli t' ttl = deadlineIn t ttl / millisecond := by
  have ht := t.inRange
  have ht' := t'.inRange
  rw [Instant.le_def] at hle
  simp only [Agrees, deadlineIn, unixMilli, unixNano, InRange, wrap64, millisecond] at *
  split_ifs <;> omega

theorem deadlineIn_inRange (t : Instant) (ttl : Int) : InRange (deadlineIn t ttl) := by
  unfold deadlineIn
  split_ifs
  · exact wrap64_inRange _
  · decide

theorem set_logged_iff {s : Store c} {now : Readings} (hmono : now 1 ≤ now 2) (key val : Bytes) (mode : SetMode)
    {ttl : Int} (httl : InRange ttl) {r : Outcome × Store c × List (List Bytes)}
    (hr : Handler.run s now (storeSet key val ⟨ttl, true, mode⟩) = r) (hacc : reply r.1 ≠ .null) :
    SameDeadline key (lookup r.2.1) r.2.2 ↔ Agrees (now 1) (now 2) ttl := by
  rw [run_storeSet] at hr
  split_ifs at hr with hans
  · have hlook : lookup r.2.1 key = some ⟨val, deadlineIn (now 1) ttl⟩ := by
      rw [← hr, onKey_lookup, if_pos rfl, set_writes hans]
    rw [sameDeadline_iff (unixMilli_inRange (now 2) httl), hlook, agrees_iff hmono httl]
    · simp
    · intro e he
      rw [hlook] at he
      cases he
      exact deadlineIn_inRange _ _
    · intro args
      have hne : ascii "PEXPIREAT" ≠ ascii "SET" := by decide +kernel
      rw [← hr]
      simp [deadlineRecord, hne]
  · rw [← hr] at hacc
    exact absurd rfl hacc

theorem expire_logged_iff {s : Store c} {now : Readings} (hmono : now 1 ≤ now 2) (key : Bytes) {ttl : Int}
    (httl : InRange ttl) {r : Outcome × Store c × List (List Bytes)}
    (hr : Handler.run s now (do
      if ← Handler.expire key ttl then
        propagateDeadline key ttl
        ok (.integer 1)
      else ok (.integer 0)) = r) :
    SameDeadline key (lookup r.2.1) r.2.2 ↔ view s (now 0) key = none ∨ Agrees (now 1) (now 2) ttl := by
  rw [run_expireIn] at hr
  cases hv : view s (now 0) key with
  | none =>
    have hlook : lookup r.2.1 key = none := by
      rw [← hr, hv]
      exact (onKey_lookup ..).trans (by rw [if_pos rfl, hv]; rfl)
    refine iff_of_true ⟨?_, ?_⟩ (.inl rfl)
    · rw [hlook, ← hr, hv]
      simp [answer_expire]
    · rw [hlook]
      rintro _ _ _ ⟨⟩
  | some e =>
    rw [hv, answer_expire, Option.isSome_some, if_pos rfl] at hr
    have hlook : lookup r.2.1 key = if ttl ≤ 0 then none else some ⟨e.val, deadlineIn (now 1) ttl⟩ := by
      rw [← hr, onKey_lookup, if_pos rfl, hv, next_expire_some]
    rw [sameDeadline_iff (unixMilli_inRange (now 2) httl), hlook]
    · by_cases h : ttl ≤ 0
      · simp [h, Agrees]
      · simp [h, agrees_iff hmono httl]
    · intro f hf
      rw [hlook] at hf
      split_ifs at hf
      cases hf
      exact deadlineIn_inRange _ _
    · intro args
      rw [← hr]
      simp [deadlineRecord]

/-- The log and the store agree on a deadline if and only if the span does
not wrap to nothing, its end is in range and no millisecond ends between the
reading of the store and that of the handler; an expiry command that finds no
key logs none. -/
theorem deadline_logged_iff (hd : dispatch h tokens = .run cmd args) {q : Request}
    (hq : request h cmd.name args = some q) {ttl : Int} (hs : q.span = some ttl) {s : Store c} {now : Readings}
    (hmono : now 1 ≤ now 2) (hacc : (Handler.run s now (execute h tokens)).1 ≠ .null) :
    SameDeadline (arg args 0) (lookup (Handler.run s now (execute h tokens)).2.1)
        (Handler.run s now (execute h tokens)).2.2 ↔
      q.isSet = false ∧ view s (now 0) (arg args 0) = none ∨ Agrees (now 1) (now 2) ttl := by
  obtain ⟨-, hh⟩ := handled_request (dispatch_run hd).1 hq s now
  rw [run_execute hd] at hacc ⊢
  cases q with
  | set mode unit n =>
    simp only [Request.span, Option.ite_none_right_eq_some, Option.some.injEq] at hs
    obtain ⟨hn, rfl⟩ := hs
    simp only [Request.Handled, if_neg (Int.not_le.mpr hn)] at hh
    rw [hh] at hacc ⊢
    rw [set_logged_iff hmono _ _ _ (wrap64_inRange _) rfl hacc]
    simp [Request.isSet]
  | expire unit n =>
    simp only [Request.span, Option.ite_none_right_eq_some, Option.some.injEq] at hs
    obtain ⟨hn, rfl⟩ := hs
    simp only [Request.Handled, if_neg (Int.not_le.mpr hn)] at hh
    rw [hh, expire_logged_iff hmono _ (wrap64_inRange _) rfl]
    simp [Request.isSet]
  | expireAt unit n => cases hs

theorem dispatch_setEX (n : Bytes) : dispatch host [ascii "SET", ascii "k", ascii "v", ascii "EX", n] =
    .run ⟨"set", 2, none, true, hSet host⟩ [ascii "k", ascii "v", ascii "EX", n] := rfl

theorem setEX_ten_logged : SameDeadline (ascii "k")
    (lookup (Handler.run (new twoShards) (frozen (instant 0))
      (execute host [ascii "SET", ascii "k", ascii "v", ascii "EX", ascii "10"])).2.1)
    (Handler.run (new twoShards) (frozen (instant 0))
      (execute host [ascii "SET", ascii "k", ascii "v", ascii "EX", ascii "10"])).2.2 := by
  have hq : request host "set" [ascii "k", ascii "v", ascii "EX", ascii "10"] = some (.set .always second 10) := by
    decide +kernel
  exact (deadline_logged_iff (dispatch_setEX _) hq rfl le_rfl (by rintro ⟨⟩)).mpr (.inr (by decide))

/-- After `SET k v EX 9223372037` the key never expires, but the log lets it
expire in the past. -/
theorem setEX_huge_logged :
    (lookup (Handler.run (new twoShards) (frozen (instant 0))
      (execute host [ascii "SET", ascii "k", ascii "v", ascii "EX", ascii "9223372037"])).2.1 (ascii "k") =
        some ⟨ascii "v", 0⟩) ∧
    ¬ SameDeadline (ascii "k")
      (lookup (Handler.run (new twoShards) (frozen (instant 0))
        (execute host [ascii "SET", ascii "k", ascii "v", ascii "EX", ascii "9223372037"])).2.1)
      (Handler.run (new twoShards) (frozen (instant 0))
        (execute host [ascii "SET", ascii "k", ascii "v", ascii "EX", ascii "9223372037"])).2.2 := by
  have hlook : lookup (Handler.run (new twoShards) (frozen (instant 0))
      (execute host [ascii "SET", ascii "k", ascii "v", ascii "EX", ascii "9223372037"])).2.1 (ascii "k") =
        some ⟨ascii "v", 0⟩ := by decide +kernel
  refine ⟨hlook, fun hsame => ?_⟩
  have hlog : (Handler.run (new twoShards) (frozen (instant 0))
      (execute host [ascii "SET", ascii "k", ascii "v", ascii "EX", ascii "9223372037"])).2.2 =
        [[ascii "SET", ascii "k", ascii "v"], [ascii "PEXPIREAT", ascii "k", ascii "-9223372036710"]] := by
    decide +kernel
  obtain ⟨e, he, h0⟩ := hsame.1.mp ⟨_, by rw [hlog]; exact List.mem_cons_of_mem _ (List.mem_singleton_self _)⟩
  rw [hlook] at he
  cases he
  exact h0 rfl

/-- What a reply to `TTL` may say of the entry under its key: -2 only if there
is none or it has expired at one of the two readings, -1 only if it has no
deadline, and otherwise a positive number. -/
def Truthful (o : Option Entry) (now : Readings) (r : Int) : Prop :=
  (r = -2 → ∀ e, o = some e → expired (now 0) e = true ∨ expired (now 1) e = true) ∧
    (r = -1 → ∃ e, o = some e ∧ e.expireAt = 0) ∧ (r ≠ -2 → r ≠ -1 → 0 < r)

def ttlReply : Option Int → Int
  | none => -2
  | some rem => if rem < 0 then -1 else max 1 ⌈seconds rem⌉

theorem run_ttl (hd : dispatch h tokens = .run cmd args) (hname : cmd.name = "ttl") (s : Store c) (now : Readings) :
    (Handler.run s now (execute h tokens)).1 =
      .integer (ttlReply (answer StoreRules.ttl (now 1) (view s (now 0) (arg args 0)))) := by
  obtain rfl : cmd = ⟨"ttl", 1, some 1, false, hTTL⟩ := command_unique (dispatch_run hd).1 (by simp [commands]) hname
  have hexec : Section.exec s now (.remaining (arg args 0)) =
      (answer StoreRules.ttl (now 1) (view s (now 0) (arg args 0)), (onKey StoreRules.ttl s now (arg args 0)).2) :=
    Prod.ext (onKey_answer StoreRules.ttl s now (arg args 0)) rfl
  rw [run_execute hd]
  change reply (Handler.run s now (.call (.remaining (arg args 0)) _)).1 = _
  rw [Handler.run, hexec]
  cases answer StoreRules.ttl (now 1) (view s (now 0) (arg args 0)) with
  | none => rfl
  | some rem =>
    by_cases hneg : rem < 0
    · simp [Handler.bind, hneg, ok, Handler.run, reply, ttlReply]
    · simp [Handler.bind, hneg, ok, Handler.run, reply, ttlReply]

theorem ttlReply_pos {rem : Int} (h : 0 ≤ rem) : 0 < ttlReply (some rem) := by
  rw [ttlReply, if_neg (Int.not_lt.mpr h)]
  exact Int.lt_of_lt_of_le Int.zero_lt_one (le_max_left _ _)

/-- `TTL` tells the truth if and only if a live key with a deadline still has
time left at the second reading, as a 64-bit difference. -/
theorem ttl_truthful_iff (hd : dispatch h tokens = .run cmd args) (hname : cmd.name = "ttl") (s : Store c)
    (now : Readings) :
    (∃ r, (Handler.run s now (execute h tokens)).1 = .integer r ∧ Truthful (lookup s (arg args 0)) now r) ↔
      ∀ e, view s (now 0) (arg args 0) = some e → e.expireAt ≠ 0 → 0 ≤ wrap64 (e.expireAt - (now 1).nanos) := by
  rw [run_ttl hd hname]
  cases hv : view s (now 0) (arg args 0) with
  | none =>
    refine iff_of_true ⟨-2, rfl, fun _ e he => .inl ?_, by rintro ⟨⟩, by simp⟩ (by rintro _ ⟨⟩)
    rw [view, he] at hv
    simpa [live] using hv
  | some e =>
    have hl := (live_eq_some.mp hv).1
    by_cases h0 : e.expireAt = 0
    · refine iff_of_true ⟨-1, ?_, by rintro ⟨⟩, fun _ => ⟨e, hl, h0⟩, by simp⟩ ?_
      · simp [answer, StoreRules.ttl, h0, ttlReply]
      · rintro _ ⟨⟩ h
        exact absurd h0 h
    · have hans : answer StoreRules.ttl (now 1) (some e) = some (wrap64 (e.expireAt - (now 1).nanos)) := by
        simp [answer, StoreRules.ttl, h0]
      rw [hans]
      constructor
      · rintro ⟨r, hr, htrue⟩ _ ⟨⟩ _
        by_contra hneg
        rw [ttlReply, if_pos (Int.not_le.mp hneg)] at hr
        cases hr
        obtain ⟨f, hf, hf0⟩ := htrue.2.1 rfl
        cases hl.symm.trans hf
        exact h0 hf0
      · intro h
        have hpos := ttlReply_pos (h e rfl h0)
        exact ⟨_, rfl, fun h => by omega, fun h => by omega, fun _ _ => hpos⟩

def datedKey : Store twoShards :=
  (Handler.run (new twoShards) (frozen (instant 0))
    (execute host [ascii "SET", ascii "k", ascii "v", ascii "PX", ascii "10"])).2.1

theorem lookup_datedKey : lookup datedKey (ascii "k") = some ⟨ascii "v", 10000000⟩ := by decide +kernel

theorem dispatch_ttl : dispatch host [ascii "TTL", ascii "k"] =
    .run ⟨"ttl", 1, some 1, false, hTTL⟩ [ascii "k"] := rfl

theorem ttl_datedKey_truthful : ∃ r, (Handler.run datedKey (frozen (instant 5000000))
    (execute host [ascii "TTL", ascii "k"])).1 = .integer r ∧
      Truthful (lookup datedKey (ascii "k")) (frozen (instant 5000000)) r := by
  refine (ttl_truthful_iff dispatch_ttl rfl datedKey _).mpr fun e he _ => ?_
  cases (live_eq_some.mp he).1.symm.trans lookup_datedKey
  decide

def crossing : Readings := fun i => instant (if i = 0 then 5000000 else 15000000)

/-- `TTL` reports a key with a deadline as having none, when the deadline
passes between its two readings. -/
theorem ttl_crossing_misreports : (∀ i, crossing i ≤ crossing (i + 1)) ∧
    lookup datedKey (ascii "k") = some ⟨ascii "v", 10000000⟩ ∧
    (Handler.run datedKey crossing (execute host [ascii "TTL", ascii "k"])).1 = .integer (-1) ∧
    ¬ Truthful (lookup datedKey (ascii "k")) crossing (-1) := by
  refine ⟨fun i => ?_, lookup_datedKey, ?_, fun htrue => ?_⟩
  · cases i with
    | zero => decide
    | succ i => exact le_rfl
  · have hv : view datedKey (crossing 0) (ascii "k") = some ⟨ascii "v", 10000000⟩ := by decide +kernel
    have hans : answer StoreRules.ttl (crossing 1) (some ⟨ascii "v", 10000000⟩) = some (-5000000) := by decide
    have harg : arg [ascii "k"] 0 = ascii "k" := rfl
    exact (run_ttl dispatch_ttl rfl datedKey crossing).trans (by rw [harg, hv, hans]; rfl)
  · obtain ⟨e, he, h0⟩ := htrue.2.1 rfl
    cases he.symm.trans lookup_datedKey
    cases h0

end MemX.CommandDeadline
