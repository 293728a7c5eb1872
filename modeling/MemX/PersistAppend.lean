import MemX.PersistLog
import MemX.RespWriter

namespace MemX.PersistAppend

open DecimalText RespRead RespWrite RespRoundTrip PersistLog BufWriter RespWriter

inductive FsyncPolicy
  | always
  | everysec
  | no
deriving DecidableEq

/-- The log file. `synced` is how much of the content the last successful `Sync`
covered; `faults` says what the next writes do, `some n` being an error after
`n` bytes, and `syncFaults` which of the next calls of `Sync` fail. -/
structure File where
  content : Bytes
  synced : Nat
  isOpen : Bool
  faults : List (Option Nat)
  syncFaults : List Bool

def File.write (p : Bytes) (f : File) : Written File :=
  if f.isOpen then
    let r := taken p f.faults.head?.join
    ⟨r.1, r.2, { f with content := f.content ++ p.take r.1, faults := f.faults.tail }⟩
  else ⟨0, true, f⟩

def File.sync (f : File) : Bool × File :=
  if f.isOpen ∧ f.syncFaults.head? ≠ some true then
    (false, { f with synced := f.content.length, syncFaults := f.syncFaults.tail })
  else (true, { f with syncFaults := f.syncFaults.tail })

def File.close (f : File) : Bool × File := (!f.isOpen, { f with isOpen := false })

def fileSink : Sink UInt8 File where
  write := File.write
  content := File.content
  content_write p f := by
    unfold File.write
    split_ifs
    · rfl
    · simp
  complete p f h := by
    unfold File.write at h ⊢
    split_ifs at h ⊢
    exact length_le_taken h

structure AOF where
  w : Buffered UInt8 File
  policy : FsyncPolicy
  closed : Bool

/-- `Open` on a file with the content `base`, which is on the disk already. -/
def openFile (base : Bytes) (policy : FsyncPolicy) (faults : List (Option Nat)) (syncFaults : List Bool) : AOF :=
  ⟨⟨[], false, ⟨base, base.length, true, faults, syncFaults⟩⟩, policy, false⟩

/-- What `Append` does to its writer; a file has a `WriteString` of its own. -/
def appendWriter (args : List Bytes) : Action File := sendCommand fileSink true args

def syncFile (a : AOF) : Bool × AOF :=
  (a.w.out.sync.1, { a with w := { a.w with out := a.w.out.sync.2 } })

def append (args : List Bytes) (a : AOF) : Bool × AOF :=
  if a.closed then (false, a)
  else
    let w := appendWriter args a.w
    if w.failed then (true, { a with w := w })
    else if a.policy = .always then syncFile { a with w := w }
    else (false, { a with w := w })

def sync (a : AOF) : Bool × AOF :=
  if a.closed then (false, a)
  else
    let w := flush fileSink a.w
    if w.failed then (true, { a with w := w }) else syncFile { a with w := w }

def finishClose (a : AOF) : Bool × AOF :=
  let a := (syncFile { a with w := flush fileSink a.w }).2
  (a.w.out.close.1, { a with w := { a.w with out := a.w.out.close.2 } })

/-- What the goroutines do to the file. `Close` sets `closed` before it takes
the lock, so other calls may come in between. -/
inductive Event
  | append (args : List Bytes)
  | sync
  | markClosed
  | finishClose

inductive Record
  | append (args : List Bytes) (err : Bool)
  | sync (err : Bool)

def step (a : AOF) : Event → List Record × AOF
  | .append args => (if a.closed then [] else [.append args (append args a).1], (append args a).2)
  | .sync => (if a.closed then [] else [.sync (sync a).1], (sync a).2)
  | .markClosed => ([], { a with closed := true })
  | .finishClose => ([], (finishClose a).2)

def run (a : AOF) : List Event → List Record × AOF
  | [] => ([], a)
  | e :: es => ((step a e).1 ++ (run (step a e).2 es).1, (run (step a e).2 es).2)

def Record.command : Record → Option (List Bytes)
  | .append args _ => some args
  | .sync _ => none

def Record.err : Record → Bool
  | .append _ err => err
  | .sync err => err

def logged (hist : List Record) : List (List Bytes) := hist.filterMap Record.command

/-- A call that promises its caller that the log is on the disk. -/
def Promises (policy : FsyncPolicy) : Record → Prop
  | .append _ err => policy = .always ∧ err = false
  | .sync err => err = false

/-- A crash leaves a front of the content, with what was synced in it. -/
def Survives (f : File) (p : Bytes) : Prop := f.content.take f.synced <+: p ∧ p <+: f.content

theorem logged_append (h h' : List Record) : logged (h ++ h') = logged h ++ logged h' := List.filterMap_append

theorem logged_appended (hist : List Record) (args : List Bytes) (err : Bool) :
    logged (hist ++ [.append args err]) = logged hist ++ [args] := logged_append _ _

theorem logged_synced (hist : List Record) (err : Bool) : logged (hist ++ [.sync err]) = logged hist :=
  (logged_append _ _).trans (List.append_nil _)

theorem encodeLog_append (cmds cmds' : List (List Bytes)) :
    encodeLog (cmds ++ cmds') = encodeLog cmds ++ encodeLog cmds' := List.flatMap_append

theorem writes_append (args : List Bytes) : Writes fileSink (appendWriter args) (encodeCommand args) :=
  writes_sendCommand args

theorem synced_of_calls {f f' : File} (h : Calls fileSink f f') : f'.synced = f.synced := by
  refine Calls.keeps (P := fun f' => f'.synced = f.synced) (fun p g hg => ?_) h rfl
  rw [← hg]
  unfold fileSink File.write
  dsimp only
  split_ifs <;> rfl

variable {base : Bytes} {policy : FsyncPolicy} {hist : List Record} {cmds more : List (List Bytes)} {f f' : File}
  {a : AOF}

/-- Between two calls the file is a front of the log so far, and without a
write error it is the log. -/
structure Holds (base : Bytes) (cmds : List (List Bytes)) (w : Buffered UInt8 File) : Prop where
  sent : w.out.content <+: base ++ encodeLog cmds
  whole : w.failed = false → w.buf = [] ∧ w.out.content = base ++ encodeLog cmds

structure Durable (base : Bytes) (policy : FsyncPolicy) (hist : List Record) (f : File) : Prop where
  kept : ∀ before r, before ++ [r] <+: hist → Promises policy r →
    (base ++ encodeLog (logged (before ++ [r]))).length ≤ f.synced
  start : base.length ≤ f.synced
  bound : f.synced ≤ f.content.length

theorem synced_of_sync (h : f.sync.1 = false) : f.sync.2.synced = f.content.length := by
  unfold File.sync at h ⊢
  split_ifs at h ⊢
  rfl

theorem content_sync (f : File) : f.sync.2.content = f.content := by
  unfold File.sync
  split_ifs <;> rfl

theorem Holds.puts {w w' : Buffered UInt8 File} (h : Holds base cmds w)
    (hp : Puts fileSink w (encodeLog more) w') (hb : w'.failed = false → w'.buf = []) :
    Holds base (cmds ++ more) w' := by
  constructor
  · cases hf : w.failed with
    | true =>
      rw [hp.stuck hf, encodeLog_append, ← List.append_assoc]
      exact h.sent.trans (List.prefix_append _ _)
    | false =>
      obtain ⟨hbuf, hc⟩ := h.whole hf
      have hs := hp.sent
      rw [hbuf, List.append_nil] at hs
      rw [encodeLog_append, ← List.append_assoc, ← hc]
      exact hs
  · intro hok
    obtain ⟨hbuf, hc⟩ := h.whole (hp.ok_before hok)
    have hs := hp.stream hok
    rw [hb hok, hbuf, List.append_nil, List.append_nil] at hs
    rw [encodeLog_append, ← List.append_assoc, ← hc]
    exact ⟨hb hok, hs⟩

theorem Holds.sync {w : Buffered UInt8 File} (h : Holds base cmds w) : Holds base cmds { w with out := w.out.sync.2 } :=
  ⟨content_sync w.out ▸ h.sent, fun hok => content_sync w.out ▸ h.whole hok⟩

theorem Durable.calls (h : Durable base policy hist f) (hc : Calls fileSink f f') : Durable base policy hist f' := by
  have hs := synced_of_calls hc
  exact ⟨hs ▸ h.kept, hs ▸ h.start, hs ▸ h.bound.trans hc.grows.length_le⟩

theorem Durable.sync (h : Durable base policy hist f) : Durable base policy hist f.sync.2 := by
  unfold File.sync
  split_ifs
  · exact ⟨fun before r hr hp => (h.kept before r hr hp).trans h.bound, h.start.trans h.bound, le_rfl⟩
  · exact ⟨h.kept, h.start, h.bound⟩

theorem Durable.record (h : Durable base policy hist f) {r : Record}
    (hr : Promises policy r → (base ++ encodeLog (logged (hist ++ [r]))).length ≤ f.synced) :
    Durable base policy (hist ++ [r]) f := by
  refine ⟨fun before r' hpre hp => ?_, h.start, h.bound⟩
  obtain heq | hpre := List.prefix_concat_iff.mp hpre
  · obtain ⟨rfl, hrr⟩ := List.append_inj' heq rfl
    cases hrr
    exact hr hp
  · exact h.kept before r' hpre hp

structure Inv (base : Bytes) (policy : FsyncPolicy) (hist : List Record) (a : AOF) : Prop where
  same : a.policy = policy
  holds : Holds base (logged hist) a.w
  durable : Durable base policy hist a.w.out

theorem inv_openFile (base : Bytes) (policy : FsyncPolicy) (faults : List (Option Nat)) (syncFaults : List Bool) :
    Inv base policy [] (openFile base policy faults syncFaults) where
  same := rfl
  holds := ⟨by simp [openFile, logged, encodeLog], fun _ => by simp [openFile, logged, encodeLog]⟩
  durable := ⟨fun before r h => absurd (List.prefix_nil.mp h) (by simp), le_rfl, le_rfl⟩

theorem Inv.plain {r : Record} (hpol : a.policy = policy) (hh : Holds base (logged (hist ++ [r])) a.w)
    (hd : Durable base policy hist a.w.out) (hr : ¬ Promises policy r) : Inv base policy (hist ++ [r]) a :=
  ⟨hpol, hh, hd.record fun hp => absurd hp hr⟩

theorem Inv.promise {r : Record} (hpol : a.policy = policy) (hh : Holds base (logged (hist ++ [r])) a.w)
    (hd : Durable base policy hist a.w.out) (hok : a.w.failed = false)
    (hr : Promises policy r → (syncFile a).1 = false) : Inv base policy (hist ++ [r]) (syncFile a).2 := by
  refine ⟨hpol, hh.sync, hd.sync.record fun hp => ?_⟩
  rw [← (hh.whole hok).2, ← synced_of_sync (hr hp)]

theorem inv_append (args : List Bytes) (hopen : a.closed = false) (h : Inv base policy hist a) :
    Inv base policy (hist ++ [.append args (append args a).1]) (append args a).2 := by
  have hh : Holds base (logged hist ++ [args]) (appendWriter args a.w) := by
    have hw : Puts fileSink a.w (encodeLog [args]) (appendWriter args a.w) := by
      simpa [encodeLog] using writes_append args a.w
    exact h.holds.puts hw (flushes_sendCommand args a.w)
  have hd := h.durable.calls (writes_append args a.w).calls
  rw [append, if_neg (by simp [hopen])]
  dsimp only
  split_ifs with hf hpol
  · exact .plain h.same (by rwa [logged_appended]) hd (by simp [Promises])
  · exact .promise (a := { a with w := appendWriter args a.w }) h.same (by rwa [logged_appended]) hd
      (by simpa using hf) And.right
  · exact .plain h.same (by rwa [logged_appended]) hd (by simp [Promises, ← h.same, hpol])

theorem flush_holds {w : Buffered UInt8 File} (h : Holds base cmds w) : Holds base cmds (flush fileSink w) := by
  have hp : Puts fileSink w (encodeLog []) (flush fileSink w) := puts_flush w
  simpa using h.puts hp (flushes_flush w)

theorem inv_sync (hopen : a.closed = false) (h : Inv base policy hist a) :
    Inv base policy (hist ++ [.sync (sync a).1]) (sync a).2 := by
  have hh := flush_holds h.holds
  have hd := h.durable.calls (puts_flush a.w).calls
  rw [sync, if_neg (by simp [hopen])]
  dsimp only
  split_ifs with hf
  · exact .plain h.same (by rwa [logged_synced]) hd (by simp [Promises])
  · exact .promise (a := { a with w := flush fileSink a.w }) h.same (by rwa [logged_synced]) hd
      (by simpa using hf) id

theorem inv_finishClose (h : Inv base policy hist a) : Inv base policy hist (finishClose a).2 := by
  have hh := (flush_holds h.holds).sync
  have hd := (h.durable.calls (puts_flush a.w).calls).sync
  exact ⟨h.same, ⟨hh.sent, hh.whole⟩, ⟨hd.kept, hd.start, hd.bound⟩⟩

theorem inv_step (e : Event) (h : Inv base policy hist a) : Inv base policy (hist ++ (step a e).1) (step a e).2 := by
  cases e with
  | append args =>
    cases hc : a.closed with
    | true => simpa [step, append, hc] using h
    | false => simpa [step, hc] using inv_append args hc h
  | sync =>
    cases hc : a.closed with
    | true => simpa [step, sync, hc] using h
    | false => simpa [step, hc] using inv_sync hc h
  | markClosed => simpa [step] using (⟨h.same, h.holds, h.durable⟩ : Inv base policy hist { a with closed := true })
  | finishClose => simpa [step] using inv_finishClose h

theorem inv_run (es : List Event) (h : Inv base policy hist a) :
    Inv base policy (hist ++ (run a es).1) (run a es).2 := by
  induction es generalizing a hist with
  | nil => simpa [run] using h
  | cons e es ih => simpa [run, List.append_assoc] using ih (inv_step e h)

/-! What `Load` reads from a log that was cut anywhere behind its base. -/

theorem readLog_whole (hb : Whole base) (s : Bytes) :
    readLog (base ++ s) = ((readLog base).1 ++ (readLog s).1, (readLog s).2) := by
  induction hb with
  | nil => rfl
  | cons hc _ ih =>
    have hx := (RespConsume.readCommand_consumes (by decide) hc).append
    rw [List.append_assoc, readLog_ok (hx _), readLog_ok (hx _), List.nil_append, List.nil_append, ih]
    rfl

theorem readLog_cut (hw : ∀ cmd ∈ cmds, Within defaultLimits cmd) {p : Bytes} (hp : p <+: encodeLog cmds) :
    (readLog p).1 <+: cmds := by
  induction cmds generalizing p with
  | nil =>
    have hnil : p = [] := List.prefix_nil.mp hp
    subst hnil
    exact List.nil_prefix
  | cons cmd cmds ih =>
    obtain ⟨hc, hcmds⟩ := List.forall_mem_cons.mp hw
    obtain ⟨q, hq, hcut⟩ | ⟨r, rfl, hr⟩ := prefix_append_cases hp
    · obtain ⟨e, he⟩ := readCommand_cut hc hcut hq
      rw [readLog_error he]
      exact List.nil_prefix
    · rw [readLog_ok (readCommand_encodeCommand hc r)]
      exact (List.prefix_append_right_inj [cmd]).mpr (ih hcmds hr)

theorem readLog_reached (hw : ∀ cmd ∈ cmds, Within defaultLimits cmd) {p : Bytes} (hp : encodeLog cmds <+: p) :
    cmds <+: (readLog p).1 := by
  obtain ⟨s, rfl⟩ := hp
  induction cmds with
  | nil => exact List.nil_prefix
  | cons cmd cmds ih =>
    obtain ⟨hc, hcmds⟩ := List.forall_mem_cons.mp hw
    have hrec := readCommand_encodeCommand hc (encodeLog cmds ++ s)
    rw [← List.append_assoc] at hrec
    change _ <+: (readLog (encodeCommand cmd ++ encodeLog cmds ++ s)).1
    rw [readLog_ok hrec]
    exact (List.prefix_append_right_inj [cmd]).mpr (ih hcmds)

theorem crash_leaves (h : Inv base policy hist a) (hw : ∀ cmd ∈ logged hist, Within defaultLimits cmd) {p : Bytes}
    (hp : Survives a.w.out p) :
    ∃ q, p = base ++ q ∧ (readLog q).1 <+: logged hist ∧
      ∀ before r, before ++ [r] <+: hist → Promises policy r → logged (before ++ [r]) <+: (readLog q).1 := by
  -- a front of the log that the sync has covered is in the file that is left
  have hleft : ∀ x, x <+: base ++ encodeLog (logged hist) → x.length ≤ a.w.out.synced → x <+: p := by
    intro x hx hlen
    refine List.IsPrefix.trans ?_ hp.1
    refine List.prefix_of_prefix_length_le hx ((List.take_prefix _ _).trans h.holds.sent) ?_
    rwa [List.length_take, min_eq_left h.durable.bound]
  obtain ⟨q, rfl⟩ := hleft base (List.prefix_append _ _) h.durable.start
  refine ⟨q, rfl, ?_, fun before r hpre hr => ?_⟩
  · exact readLog_cut hw ((List.prefix_append_right_inj base).mp (hp.2.trans h.holds.sent))
  · have hsub : logged (before ++ [r]) <+: logged hist := hpre.filterMap _
    have henc : encodeLog (logged (before ++ [r])) <+: encodeLog (logged hist) := hsub.flatMap _
    have hin := hleft _ ((List.prefix_append_right_inj base).mpr henc) (h.durable.kept before r hpre hr)
    exact readLog_reached (fun cmd hm => hw cmd (hsub.subset hm)) ((List.prefix_append_right_inj base).mp hin)

/-- Whatever the writes and syncs of a run do, and wherever a crash cuts the
file: `Load` then executes the commands of the old log and, in order, a front of
those given to `Append`, and in it everything up to a call that promised. -/
theorem crash_keeps_promises {base : Bytes} (hb : Whole base) (policy : FsyncPolicy) (faults : List (Option Nat))
    (syncFaults : List Bool) (es : List Event)
    (hw : ∀ cmd ∈ logged (run (openFile base policy faults syncFaults) es).1, Within defaultLimits cmd)
    {p : Bytes} (hp : Survives (run (openFile base policy faults syncFaults) es).2.w.out p) :
    ∃ front, (readLog p).1 = (readLog base).1 ++ front ∧
      front <+: logged (run (openFile base policy faults syncFaults) es).1 ∧
      ∀ before r, before ++ [r] <+: (run (openFile base policy faults syncFaults) es).1 → Promises policy r →
        logged (before ++ [r]) <+: front := by
  have h := inv_run es (inv_openFile base policy faults syncFaults)
  rw [List.nil_append] at h
  obtain ⟨q, rfl, hfront, hkept⟩ := crash_leaves h hw hp
  exact ⟨(readLog q).1, congrArg Prod.fst (readLog_whole hb q), hfront, hkept⟩

/-- The third of four writes fails after seven bytes, and the crash leaves five
of them. -/
def tornRun : List Record × AOF :=
  run (openFile [] .always [none, none, some 7] [])
    [.append pingCommand, .append pingEcho, .append pingCommand, .append pingEcho]

def tornFile : Bytes := encodeLog [pingCommand, pingEcho] ++ ascii "*1\r\n$"

theorem tornRun_keeps_promises :
    Survives tornRun.2.w.out tornFile ∧ ∃ front, (readLog tornFile).1 = (readLog []).1 ++ front ∧
      front <+: logged tornRun.1 ∧
      ∀ before r, before ++ [r] <+: tornRun.1 → Promises .always r → logged (before ++ [r]) <+: front := by
  have hleft : Survives tornRun.2.w.out tornFile := ⟨by decide +kernel, by decide +kernel⟩
  exact ⟨hleft, crash_keeps_promises .nil .always _ _ _ (by decide +kernel) hleft⟩

section Stuck

theorem append_stuck (h : a.w.failed = true) (hopen : a.closed = false) (args : List Bytes) :
    append args a = (true, a) := by
  have hw : appendWriter args a.w = a.w := (writes_append args a.w).stuck h
  rw [append, if_neg (by simp [hopen]), hw, if_pos h]

theorem sync_stuck (h : a.w.failed = true) (hopen : a.closed = false) : sync a = (true, a) := by
  have hw : flush fileSink a.w = a.w := (puts_flush a.w).stuck h
  rw [sync, if_neg (by simp [hopen]), hw, if_pos h]

theorem finishClose_stuck (h : a.w.failed = true) :
    (finishClose a).2.w.failed = true ∧ (finishClose a).2.w.out.content = a.w.out.content := by
  have hw : flush fileSink a.w = a.w := (puts_flush a.w).stuck h
  simp only [finishClose, syncFile, File.close, hw]
  exact ⟨h, content_sync a.w.out⟩

theorem step_stuck (h : a.w.failed = true) (e : Event) :
    (step a e).2.w.failed = true ∧ (step a e).2.w.out.content = a.w.out.content ∧
      ∀ r ∈ (step a e).1, r.err = true := by
  cases e with
  | append args =>
    cases hc : a.closed with
    | true => simp [step, append, hc, h]
    | false => simp [step, append_stuck h hc, hc, h, Record.err]
  | sync =>
    cases hc : a.closed with
    | true => simp [step, sync, hc, h]
    | false => simp [step, sync_stuck h hc, hc, h, Record.err]
  | markClosed => simp [step, h]
  | finishClose => simpa [step] using finishClose_stuck h

/-- A write error is final: until the process starts again nothing is added to
the file, and no call that finds it open succeeds. -/
theorem write_error_final {a : AOF} (h : a.w.failed = true) (es : List Event) :
    (run a es).2.w.out.content = a.w.out.content ∧ ∀ r ∈ (run a es).1, r.err = true := by
  induction es generalizing a with
  | nil => simp [run]
  | cons e es ih =>
    obtain ⟨hf, hc, hr⟩ := step_stuck h e
    obtain ⟨hc', hr'⟩ := ih hf
    refine ⟨hc'.trans hc, fun r hm => ?_⟩
    obtain hm | hm := List.mem_append.mp hm
    · exact hr r hm
    · exact hr' r hm

theorem tornRun_stuck :
    tornRun.2.w.failed = true ∧
      (run tornRun.2 [.sync, .append pingEcho, .markClosed, .finishClose]).2.w.out.content = tornRun.2.w.out.content ∧
      ∀ r ∈ (run tornRun.2 [.sync, .append pingEcho, .markClosed, .finishClose]).1, r.err = true :=
  have hf : tornRun.2.w.failed = true := by decide +kernel
  ⟨hf, write_error_final hf _⟩

end Stuck

end MemX.PersistAppend
