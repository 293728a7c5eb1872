import MemX.CommandRegistry

namespace MemX.CommandWrites

open MachineInt DecimalText Clock StoreState StoreRules
open CommandProgram CommandHandlers CommandRegistry RespWrite TextCase

variable {α β γ : Type}

def erase (p : Handler α) : Handler Unit := p >>= fun _ => .pure ()

@[simp] theorem pure_bind (a : α) (f : α → Handler β) : (Handler.pure a >>= f) = f a := rfl

@[simp] theorem call_bind (a : Section) (k : a.Result → Handler α) (f : α → Handler β) :
    (Handler.call a k >>= f) = .call a (fun r => k r >>= f) := rfl

@[simp] theorem propagate_bind (cmd : List Bytes) (k : Handler α) (f : α → Handler β) :
    (Handler.propagate cmd k >>= f) = .propagate cmd (k >>= f) := rfl

theorem bind_assoc (p : Handler α) (f : α → Handler β) (g : β → Handler γ) :
    ((p >>= f) >>= g) = (p >>= fun a => f a >>= g) := by
  induction p with
  | pure a => rfl
  | call a k ih => simp only [call_bind, ih]
  | propagate cmd k ih => simp only [propagate_bind, ih]

theorem erase_bind (p : Handler α) (f : α → Handler β) : erase (p >>= f) = (p >>= fun a => erase (f a)) :=
  bind_assoc p f _

/-- What a write command does to the store and to the log, without its reply. -/
inductive Mutation
  | noop
  | set (key val : Bytes) (ttl : Int) (timed : Bool) (mode : SetMode)
  | del (keys : List Bytes)
  | incrBy (key : Bytes) (delta : Int) (name : String) (logged : List Bytes)
  | append (key suffix : Bytes)
  | expire (key : Bytes) (ttl : Int)
  | expireAt (key : Bytes) (unixSeconds : Int)
  | expireAtMs (key : Bytes) (unixMs : Int) (text : Bytes)
  | persist (key : Bytes)
  | flush
  | mset (args : List Bytes)
  | msetnx (args : List Bytes)
  | getSet (key val : Bytes)

def whenDone (p : Handler Bool) (k : Handler Unit) : Handler Unit := do
  if ← p then k else .pure ()

def whenOk {ε : Type} (p : Handler (Except ε α)) (k : Handler Unit) : Handler Unit := do
  match ← p with
  | .ok _ => k
  | .error _ => .pure ()

def Mutation.handler : Mutation → Handler Unit
  | .noop => .pure ()
  | .set key val ttl timed mode =>
    whenDone (Handler.set key val ttl mode) (do
      Handler.propagateCmd "SET" [key, val]
      onlyIf timed (propagateDeadline key ttl))
  | .del keys => do
    let n ← Handler.del keys
    onlyIf (n > 0) (Handler.propagateCmd "DEL" keys)
  | .incrBy key delta name logged =>
    whenOk (Handler.incrBy key delta) (Handler.propagateCmd name logged)
  | .append key suffix => whenOk (Handler.append key suffix) (Handler.propagateCmd "APPEND" [key, suffix])
  | .expire key ttl => whenDone (Handler.expire key ttl) (propagateDeadline key ttl)
  | .expireAt key secs =>
    whenDone (Handler.expireAt key secs)
      (Handler.propagateCmd "PEXPIREAT" [key, formatInt (wrap64 (secs * 1000))])
  | .expireAtMs key ms text =>
    whenDone (Handler.expireAtMs key ms) (Handler.propagateCmd "PEXPIREAT" [key, text])
  | .persist key => whenDone (Handler.persist key) (Handler.propagateCmd "PERSIST" [key])
  | .flush => do
    Handler.flush
    Handler.propagateCmd "FLUSHDB" []
  | .mset args => do
    setAll (pairsOf args)
    Handler.propagateCmd "MSET" args
  | .msetnx args => whenDone (Handler.setNXMulti (pairsOf args)) (Handler.propagateCmd "MSET" args)
  | .getSet key val => do
    let _ ← Handler.getSet key val
    Handler.propagateCmd "SET" [key, val]

def expireMutation (unit : Int) (args : List Bytes) : Mutation :=
  match parseInt (arg args 1) with
  | none => .noop
  | some n => if n ≤ 0 then .del [arg args 0] else .expire (arg args 0) (wrap64 (n * unit))

def mutationOf (h : Host) (name : String) (args : List Bytes) : Mutation :=
  match name with
  | "set" =>
    match setOptions h.cases ⟨0, false, .always⟩ (args.drop 2) with
    | .error _ => .noop
    | .ok o => .set (arg args 0) (arg args 1) o.ttl o.ttlSet o.mode
  | "del" => .del args
  | "incr" => .incrBy (arg args 0) 1 "INCR" [arg args 0]
  | "decr" => .incrBy (arg args 0) (-1) "DECR" [arg args 0]
  | "append" => .append (arg args 0) (arg args 1)
  | "expire" => expireMutation second args
  | "pexpire" => expireMutation millisecond args
  | "expireat" =>
    match parseInt (arg args 1) with
    | none => .noop
    | some ts => .expireAt (arg args 0) ts
  | "pexpireat" =>
    match parseInt (arg args 1) with
    | none => .noop
    | some ms => .expireAtMs (arg args 0) ms (arg args 1)
  | "persist" => .persist (arg args 0)
  | "flushdb" => .flush
  | "mset" => if args.length % 2 ≠ 0 then .noop else .mset args
  | "msetnx" => if args.length % 2 ≠ 0 then .noop else .msetnx args
  | "getset" => .getSet (arg args 0) (arg args 1)
  | "setnx" => .set (arg args 0) (arg args 1) 0 false .nx
  | "incrby" =>
    match parseInt (arg args 1) with
    | none => .noop
    | some delta => .incrBy (arg args 0) delta "INCRBY" [arg args 0, arg args 1]
  | "decrby" =>
    match parseInt (arg args 1) with
    | none => .noop
    | some delta => .incrBy (arg args 0) (wrap64 (-delta)) "DECRBY" [arg args 0, arg args 1]
  | _ => .noop

def mutation (h : Host) (tokens : List Bytes) : Mutation :=
  match dispatch h tokens with
  | .refuse _ => .noop
  | .run cmd args => mutationOf h cmd.name args

theorem erase_then_pure (k : Handler Unit) (a : α) : erase (k >>= fun _ => .pure a) = k := by
  induction k with
  | pure _ => rfl
  | call _ k ih => exact congrArg _ (funext ih)
  | propagate _ k ih => exact congrArg _ ih

theorem erase_whenDone (p : Handler Bool) (k : Handler Unit) (a b : Outcome) :
    erase (p >>= fun done => if done then k >>= fun _ => .pure a else .pure b) = whenDone p k := by
  rw [erase_bind]
  unfold whenDone
  congr 1
  funext done
  cases done with
  | false => rfl
  | true => exact erase_then_pure k a

theorem erase_storeSet (key val : Bytes) (o : SetOptions) :
    erase (storeSet key val o) = (Mutation.set key val o.ttl o.ttlSet o.mode).handler := by
  have h := erase_whenDone (Handler.set key val o.ttl o.mode) (do
    Handler.propagateCmd "SET" [key, val]
    onlyIf o.ttlSet (propagateDeadline key o.ttl)) (.ok okText) (.ok .null)
  simp only [bind_assoc] at h
  exact h

theorem erase_hSet (h : Host) (args : List Bytes) : erase (hSet h args) = (mutationOf h "set" args).handler := by
  simp only [hSet, mutationOf]
  cases setOptions h.cases ⟨0, false, .always⟩ (args.drop 2) with
  | error msg => rfl
  | ok o => exact erase_storeSet _ _ o

theorem erase_hDel (args : List Bytes) : erase (hDel args) = (Mutation.del args).handler := by
  unfold hDel
  rw [erase_bind]
  exact congrArg _ (funext fun n => erase_then_pure _ _)

theorem erase_addTo (name : String) (logged : List Bytes) (key : Bytes) (delta : Int) :
    erase (addTo name logged key delta) = (Mutation.incrBy key delta name logged).handler := by
  unfold addTo
  rw [erase_bind]
  refine congrArg _ (funext fun r => ?_)
  cases r <;> rfl

theorem erase_hAppend (args : List Bytes) :
    erase (hAppend args) = (Mutation.append (arg args 0) (arg args 1)).handler := by
  unfold hAppend
  rw [erase_bind]
  refine congrArg _ (funext fun r => ?_)
  cases r <;> rfl

theorem erase_expireIn (unit : Int) (args : List Bytes) :
    erase (expireIn unit args) = (expireMutation unit args).handler := by
  unfold expireIn expireMutation
  cases parseInt (arg args 1) with
  | none => rfl
  | some n =>
    by_cases hn : n ≤ 0
    · simp only [hn, ↓reduceIte, erase_hDel]
    · simp only [hn, ↓reduceIte]
      exact erase_whenDone _ _ _ _

/-- Every write command of the table does what its mutation does. -/
theorem erase_handler (h : Host) (args : List Bytes) :
    ∀ cmd ∈ commands h, cmd.write = true → erase (cmd.handler args) = (mutationOf h cmd.name args).handler := by
  simp only [commands, List.forall_mem_cons, Bool.false_eq_true, false_implies, forall_const, true_and,
    List.not_mem_nil, implies_true, and_true]
  refine ⟨erase_hSet h args, erase_hDel args, erase_addTo .., erase_addTo .., erase_hAppend args,
    erase_expireIn .., erase_expireIn .., ?_, ?_, erase_whenDone .., rfl, ?_, ?_, rfl, erase_whenDone .., ?_, ?_⟩
  · simp only [hExpireAt, mutationOf]
    cases parseInt (arg args 1) with
    | none => rfl
    | some ts => exact erase_whenDone ..
  · simp only [hPExpireAt, mutationOf]
    cases parseInt (arg args 1) with
    | none => rfl
    | some ms => exact erase_whenDone ..
  · simp only [hMSet, mutationOf]
    split
    · rfl
    · exact (congrArg erase (bind_assoc ..).symm).trans (erase_then_pure _ _)
  · simp only [hMSetNX, mutationOf]
    split
    · rfl
    · exact erase_whenDone ..
  · simp only [hIncrBy, mutationOf]
    cases parseInt (arg args 1) with
    | none => rfl
    | some delta => exact erase_addTo ..
  · simp only [hDecrBy, mutationOf]
    cases parseInt (arg args 1) with
    | none => rfl
    | some delta => exact erase_addTo ..

theorem findCommand_mem {h : Host} {name : Bytes} {cmd : Command} (hf : findCommand h name = some cmd) :
    cmd ∈ commands h := List.mem_of_find?_eq_some hf

theorem parse_tokens {t : CaseTable} {tokens : List Bytes} {p : Parsed} (hp : parse t tokens = some p) :
    ∃ tok, tokens = tok :: p.args := by
  cases tokens with
  | nil => cases hp
  | cons tok args =>
    simp only [parse, Option.ite_none_left_eq_some, Option.some.injEq] at hp
    obtain ⟨_, rfl⟩ := hp
    exact ⟨tok, rfl⟩

theorem dispatch_run {h : Host} {tokens args : List Bytes} {cmd : Command}
    (hd : dispatch h tokens = .run cmd args) :
    cmd ∈ commands h ∧ cmd.accepts args.length = true ∧ ∃ tok, tokens = tok :: args := by
  unfold dispatch at hd
  cases hp : parse h.cases tokens with
  | none => simp [hp] at hd
  | some p =>
    cases hf : findCommand h p.name with
    | none => simp [hp, hf] at hd
    | some cmd' =>
      by_cases ha : cmd'.accepts p.args.length = true
      · simp only [hp, hf, ha, ↓reduceIte, Dispatch.run.injEq] at hd
        obtain ⟨rfl, rfl⟩ := hd
        exact ⟨findCommand_mem hf, ha, parse_tokens hp⟩
      · simp [hp, hf, ha] at hd

theorem execute_write {h : Host} {tokens : List Bytes} (hw : isWrite h tokens = true) :
    erase (execute h tokens) = (mutation h tokens).handler := by
  unfold isWrite at hw
  unfold execute mutation
  cases hd : dispatch h tokens with
  | refuse r => rfl
  | run cmd args =>
    simp only [hd] at hw
    simp only [erase_bind]
    exact erase_handler h args cmd (dispatch_run hd).1 hw

/-- A handler that only reads, up to lazy purges, and propagates nothing. -/
inductive ReadOnly : Handler α → Prop
  | pure (a : α) : ReadOnly (.pure a)
  | call (a : Section) (k : a.Result → Handler α) (ha : a.reads = true) (hk : ∀ r, ReadOnly (k r)) :
      ReadOnly (.call a k)

theorem ReadOnly.bind {p : Handler α} (hp : ReadOnly p) {f : α → Handler β} (hf : ∀ a, ReadOnly (f a)) :
    ReadOnly (p >>= f) := by
  induction hp with
  | pure a => exact hf a
  | call a k ha _ ih => exact .call a _ ha ih

theorem readOnly_call {a : Section} (ha : a.reads = true) : ReadOnly (.call a .pure) :=
  .call a _ ha .pure

theorem readOnly_existsKeys (keys : List Bytes) : ReadOnly (Handler.existsKeys keys) := by
  induction keys with
  | nil => exact .pure _
  | cons key keys ih => exact (readOnly_call rfl).bind fun _ => ih.bind fun _ => .pure _

theorem readOnly_keysFrom (pattern : Bytes) (i n : Nat) : ReadOnly (Handler.keysFrom pattern i n) := by
  induction n generalizing i with
  | zero => exact .pure _
  | succ n ih => exact (readOnly_call rfl).bind fun _ => (ih (i + 1)).bind fun _ => .pure _

theorem readOnly_getAll (keys : List Bytes) : ReadOnly (getAll keys) := by
  induction keys with
  | nil => exact .pure _
  | cons key keys ih => exact (readOnly_call rfl).bind fun _ => ih.bind fun _ => .pure _

theorem readOnly_hClient (h : Host) (args : List Bytes) : ReadOnly (hClient h args) := by
  simp only [hClient]
  split_ifs <;> exact .pure _

theorem readOnly_hScan (h : Host) (args : List Bytes) : ReadOnly (hScan h args) := by
  simp only [hScan]
  cases parseInt (arg args 0) with
  | none => exact .pure _
  | some cursor =>
    by_cases hc : cursor < 0
    · simp only [hc, ↓reduceIte]
      exact .pure _
    · simp only [hc, ↓reduceIte]
      cases scanOptions h.cases [] (args.drop 1) with
      | error msg => exact .pure _
      | ok pattern =>
        exact ReadOnly.bind ((readOnly_call rfl).bind fun _ => (readOnly_call rfl).bind fun _ => .pure _)
          fun _ => .pure _

theorem readOnly_handler (h : Host) (args : List Bytes) :
    ∀ cmd ∈ commands h, cmd.write = false → ReadOnly (cmd.handler args) := by
  simp only [commands, List.forall_mem_cons, Bool.true_eq_false, false_implies, forall_const, true_and,
    List.not_mem_nil, implies_true, and_true]
  refine ⟨?_, .pure _, (readOnly_call rfl).bind fun _ => .pure _,
    (readOnly_existsKeys args).bind fun _ => .pure _, ?_, ?_, ?_, (readOnly_call rfl).bind fun _ => .pure _,
    .pure _, readOnly_hClient h args, (readOnly_getAll args).bind fun _ => .pure _, ?_,
    ((readOnly_call rfl).bind fun _ => readOnly_keysFrom _ _ _).bind fun _ => .pure _, readOnly_hScan h args⟩
  · cases args <;> exact .pure _
  · refine ReadOnly.bind ((readOnly_call rfl).bind fun r => ?_) fun _ => .pure _
    cases r <;> exact .pure _
  · refine (readOnly_call rfl).bind fun r => ?_
    cases r with
    | none => exact .pure _
    | some rem =>
      by_cases hr : rem < 0
      · simp only [hr, ↓reduceIte]
        exact .pure _
      · simp only [hr, ↓reduceIte]
        exact .pure _
  · unfold hSelect
    split <;> exact .pure _
  · refine (readOnly_call rfl).bind fun r => ?_
    cases r <;> exact .pure _

theorem execute_read {h : Host} {tokens : List Bytes} (hw : isWrite h tokens = false) :
    ReadOnly (execute h tokens) := by
  unfold isWrite at hw
  unfold execute
  cases hd : dispatch h tokens with
  | refuse r => exact .pure _
  | run cmd args =>
    simp only [hd] at hw
    exact (readOnly_handler h args cmd (dispatch_run hd).1 hw).bind fun _ => .pure _

theorem lowerString_ascii (t : CaseTable) {s : Bytes} (h : ∀ b ∈ s, b < 0x80) :
    lowerString t s = s.map lowerByte := by
  unfold lowerString
  split
  · exact toLower_ascii t h
  · rename_i hn
    refine (List.map_congr_left fun b hb => ?_).trans (List.map_id s) |>.symm
    have hb : ¬ (65 ≤ b ∧ b ≤ 90) := by
      simp only [List.any_eq_true, Bool.and_eq_true, decide_eq_true_eq, not_exists, not_and] at hn
      exact fun hc => hn b hb hc.1 hc.2
    exact if_neg hb

/-- A command line the log may hold, and the mutation it stands for. -/
def Logs (h : Host) (cmd : List Bytes) (m : Mutation) : Prop := isWrite h cmd = true ∧ mutation h cmd = m

theorem names_nodup (h : Host) : ((commands h).map (fun cmd => ascii cmd.name)).Nodup := by
  simp only [commands, List.map_cons, List.map_nil]
  decide +kernel

theorem findCommand_of_mem {h : Host} {cmd : Command} (hm : cmd ∈ commands h) :
    findCommand h (ascii cmd.name) = some cmd := by
  have hn := names_nodup h
  unfold findCommand
  generalize commands h = l at hm hn
  induction l with
  | nil => cases hm
  | cons a l ih =>
    rw [List.map_cons, List.nodup_cons] at hn
    rcases List.mem_cons.mp hm with rfl | hm
    · simp
    · have hne : ascii a.name ≠ ascii cmd.name := fun he => hn.1 (he ▸ List.mem_map_of_mem hm)
      rw [List.find?_cons_of_neg (by simpa using hne), ih hm hn.2]

theorem dispatch_of_name {h : Host} {tok : String} {cmd : Command} {args : List Bytes}
    (hascii : (ascii tok).all (· < 0x80) = true) (hlow : (ascii tok).map lowerByte = ascii cmd.name)
    (hne : ascii cmd.name ≠ []) (hm : cmd ∈ commands h) (hacc : cmd.accepts args.length = true) :
    dispatch h (ascii tok :: args) = .run cmd args := by
  have hl : lowerString h.cases (ascii tok) = ascii cmd.name :=
    (lowerString_ascii _ (by simpa using hascii)).trans hlow
  simp only [dispatch, parse, hl, hne, ↓reduceIte, findCommand_of_mem hm, hacc]

theorem logs_of_name (h : Host) (tok name : String) (cmd : Command) (args : List Bytes)
    (hascii : (ascii tok).all (· < 0x80) = true) (hlow : (ascii tok).map lowerByte = ascii name)
    (hne : ascii name ≠ []) (hname : cmd.name = name) (hm : cmd ∈ commands h)
    (hacc : cmd.accepts args.length = true) (hw : cmd.write = true) :
    Logs h (ascii tok :: args) (mutationOf h name args) := by
  subst hname
  simp only [Logs, isWrite, mutation, dispatch_of_name hascii hlow hne hm hacc, hw, and_self]

theorem logs_set (h : Host) (key val : Bytes) : Logs h [ascii "SET", key, val] (.set key val 0 false .always) :=
  logs_of_name h "SET" "set" ⟨"set", 2, none, true, hSet h⟩ [key, val]
    (by decide) (by decide) (by decide) rfl (by simp [commands]) rfl rfl

theorem logs_del (h : Host) {keys : List Bytes} (hk : keys ≠ []) : Logs h (ascii "DEL" :: keys) (.del keys) := by
  refine logs_of_name h "DEL" "del" ⟨"del", 1, none, true, hDel⟩ keys
    (by decide) (by decide) (by decide) rfl (by simp [commands]) ?_ rfl
  have hpos : 1 ≤ keys.length := List.length_pos_iff.mpr hk
  simpa [Command.accepts] using hpos

theorem logs_incr (h : Host) (key : Bytes) : Logs h [ascii "INCR", key] (.incrBy key 1 "INCR" [key]) :=
  logs_of_name h "INCR" "incr" ⟨"incr", 1, some 1, true, hIncr⟩ [key]
    (by decide) (by decide) (by decide) rfl (by simp [commands]) rfl rfl

theorem logs_decr (h : Host) (key : Bytes) : Logs h [ascii "DECR", key] (.incrBy key (-1) "DECR" [key]) :=
  logs_of_name h "DECR" "decr" ⟨"decr", 1, some 1, true, hDecr⟩ [key]
    (by decide) (by decide) (by decide) rfl (by simp [commands]) rfl rfl

theorem logs_incrby (h : Host) (key : Bytes) {text : Bytes} {n : Int} (hp : parseInt text = some n) :
    Logs h [ascii "INCRBY", key, text] (.incrBy key n "INCRBY" [key, text]) := by
  have hl := logs_of_name h "INCRBY" "incrby" ⟨"incrby", 2, some 2, true, hIncrBy⟩ [key, text]
    (by decide) (by decide) (by decide) rfl (by simp [commands]) rfl rfl
  simpa [mutationOf, arg, hp] using hl

theorem logs_decrby (h : Host) (key : Bytes) {text : Bytes} {n : Int} (hp : parseInt text = some n) :
    Logs h [ascii "DECRBY", key, text] (.incrBy key (wrap64 (-n)) "DECRBY" [key, text]) := by
  have hl := logs_of_name h "DECRBY" "decrby" ⟨"decrby", 2, some 2, true, hDecrBy⟩ [key, text]
    (by decide) (by decide) (by decide) rfl (by simp [commands]) rfl rfl
  simpa [mutationOf, arg, hp] using hl

theorem logs_append (h : Host) (key suffix : Bytes) : Logs h [ascii "APPEND", key, suffix] (.append key suffix) :=
  logs_of_name h "APPEND" "append" ⟨"append", 2, some 2, true, hAppend⟩ [key, suffix]
    (by decide) (by decide) (by decide) rfl (by simp [commands]) rfl rfl

theorem logs_pexpireat (h : Host) (key : Bytes) {text : Bytes} {n : Int} (hp : parseInt text = some n) :
    Logs h [ascii "PEXPIREAT", key, text] (.expireAtMs key n text) := by
  have hl := logs_of_name h "PEXPIREAT" "pexpireat" ⟨"pexpireat", 2, some 2, true, hPExpireAt⟩ [key, text]
    (by decide) (by decide) (by decide) rfl (by simp [commands]) rfl rfl
  simpa [mutationOf, arg, hp] using hl

theorem logs_persist (h : Host) (key : Bytes) : Logs h [ascii "PERSIST", key] (.persist key) :=
  logs_of_name h "PERSIST" "persist" ⟨"persist", 1, some 1, true, hPersist⟩ [key]
    (by decide) (by decide) (by decide) rfl (by simp [commands]) rfl rfl

theorem logs_flushdb (h : Host) : Logs h [ascii "FLUSHDB"] .flush :=
  logs_of_name h "FLUSHDB" "flushdb" ⟨"flushdb", 0, some 0, true, hFlushDB⟩ []
    (by decide) (by decide) (by decide) rfl (by simp [commands]) rfl rfl

theorem logs_mset (h : Host) {args : List Bytes} (h2 : 2 ≤ args.length) (he : args.length % 2 = 0) :
    Logs h (ascii "MSET" :: args) (.mset args) := by
  have hl := logs_of_name h "MSET" "mset" ⟨"mset", 2, none, true, hMSet⟩ args
    (by decide) (by decide) (by decide) rfl (by simp [commands]) (by simpa [Command.accepts] using h2) rfl
  simpa [mutationOf, he] using hl

def Mutation.Proper (h : Host) : Mutation → Prop
  | .set _ _ ttl timed _ => InRange ttl ∧ (timed = false → ttl = 0)
  | .del keys => keys ≠ []
  | .incrBy key delta name logged => Logs h (ascii name :: logged) (.incrBy key delta name logged)
  | .expire _ ttl => InRange ttl
  | .expireAtMs _ ms text => parseInt text = some ms
  | .mset args => 2 ≤ args.length ∧ args.length % 2 = 0
  | .msetnx args => 2 ≤ args.length ∧ args.length % 2 = 0
  | _ => True

theorem setOptions_ttl (t : CaseTable) (rest : List Bytes) (o o' : SetOptions)
    (ho : InRange o.ttl ∧ (o.ttlSet = false → o.ttl = 0)) (hr : setOptions t o rest = .ok o') :
    InRange o'.ttl ∧ (o'.ttlSet = false → o'.ttl = 0) := by
  fun_induction setOptions t o rest with
  | case1 => cases hr; exact ho
  | case6 o opt up _ v rest _ n _ _ unit ih => exact ih ⟨wrap64_inRange _, by simp⟩ hr
  | case8 o opt rest up _ _ _ ih => exact ih ho hr
  | case10 o opt rest up _ _ _ _ ih => exact ih ho hr
  | _ => cases hr

theorem expireMutation_proper (h : Host) (unit : Int) (args : List Bytes) : (expireMutation unit args).Proper h := by
  unfold expireMutation
  cases parseInt (arg args 1) with
  | none => trivial
  | some n =>
    by_cases hn : n ≤ 0
    · simp [hn, Mutation.Proper]
    · simp only [hn, ↓reduceIte, Mutation.Proper]
      exact wrap64_inRange _

theorem mutationOf_proper (h : Host) (args : List Bytes) :
    ∀ cmd ∈ commands h, cmd.write = true → cmd.accepts args.length = true →
      (mutationOf h cmd.name args).Proper h := by
  simp only [commands, List.forall_mem_cons, Bool.false_eq_true, false_implies, forall_const, true_and,
    List.not_mem_nil, implies_true, and_true]
  refine ⟨fun _ => ?_, fun ha => ?_, fun _ => logs_incr h _, fun _ => logs_decr h _, fun _ => trivial,
    fun _ => expireMutation_proper h _ _, fun _ => expireMutation_proper h _ _, fun _ => ?_, fun _ => ?_,
    fun _ => trivial, fun _ => trivial, fun ha => ?_, fun ha => ?_, fun _ => trivial,
    fun _ => ⟨by decide, fun _ => rfl⟩, fun _ => ?_, fun _ => ?_⟩
  · simp only [mutationOf]
    cases hs : setOptions h.cases ⟨0, false, .always⟩ (args.drop 2) with
    | error msg => trivial
    | ok o => exact setOptions_ttl h.cases _ _ _ ⟨by decide, fun _ => rfl⟩ hs
  · rintro rfl
    simp [Command.accepts] at ha
  · simp only [mutationOf]
    cases parseInt (arg args 1) <;> trivial
  · simp only [mutationOf]
    cases hp : parseInt (arg args 1) with
    | none => trivial
    | some ms => exact hp
  · simp only [mutationOf]
    split
    · trivial
    · rename_i he
      exact ⟨by simpa [Command.accepts] using ha, not_not.mp he⟩
  · simp only [mutationOf]
    split
    · trivial
    · rename_i he
      exact ⟨by simpa [Command.accepts] using ha, not_not.mp he⟩
  · simp only [mutationOf]
    cases hp : parseInt (arg args 1) with
    | none => trivial
    | some n => exact logs_incrby h _ hp
  · simp only [mutationOf]
    cases hp : parseInt (arg args 1) with
    | none => trivial
    | some n => exact logs_decrby h _ hp

theorem mutation_proper {h : Host} {tokens : List Bytes} (hw : isWrite h tokens = true) :
    (mutation h tokens).Proper h := by
  unfold isWrite at hw
  unfold mutation
  cases hd : dispatch h tokens with
  | refuse r => trivial
  | run cmd args =>
    simp only [hd] at hw
    obtain ⟨hm, ha, _⟩ := dispatch_run hd
    exact mutationOf_proper h args cmd hm hw ha

end MemX.CommandWrites
