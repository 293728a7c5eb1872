import MemX.PersistAppend
import MemX.RespInline

namespace MemX.PersistLives

open DecimalText Utf8Runes Utf8Text RespRead RespWrite RespRoundTrip RespInline PersistLog PersistAppend BufWriter

structure Life where
  policy : FsyncPolicy
  hist : List Record

/-- A chain of processes, each of which starts on the log that the one before
left and is killed at some time. Each of them finds a log that ends at the end
of a command. -/
inductive Lives : Bytes → List Life → Bytes → Prop
  | nil (base : Bytes) : Lives base [] base
  | cons {base left last : Bytes} {lives : List Life} (hbase : Whole base) (policy : FsyncPolicy)
      (faults : List (Option Nat)) (syncFaults : List Bool) (es : List Event)
      (hw : ∀ cmd ∈ logged (run (openFile base policy faults syncFaults) es).1, Within defaultLimits cmd)
      (hleft : Survives (run (openFile base policy faults syncFaults) es).2.w.out left) (more : Lives left lives last) :
      Lives base (⟨policy, (run (openFile base policy faults syncFaults) es).1⟩ :: lives) last

structure Kept (life : Life) (part : List (List Bytes)) : Prop where
  front : part <+: logged life.hist
  promised : ∀ before r, before ++ [r] <+: life.hist → Promises life.policy r → logged (before ++ [r]) <+: part

/-- Restarts do not lose what was promised: the last log holds, behind what the
first process found and in order, a front of the commands of every life, and in
it everything up to a call that promised. -/
theorem lives_keep_promises {base last : Bytes} {lives : List Life} (h : Lives base lives last) :
    ∃ parts, (readLog last).1 = (readLog base).1 ++ parts.flatten ∧ List.Forall₂ Kept lives parts := by
  induction h with
  | nil base => exact ⟨[], (List.append_nil _).symm, .nil⟩
  | @cons base left last lives hbase policy faults syncFaults es hw hleft more ih =>
    have hinv := inv_run es (inv_openFile base policy faults syncFaults)
    rw [List.nil_append] at hinv
    obtain ⟨q, rfl, hfront, hkept⟩ := crash_leaves hinv hw hleft
    obtain ⟨parts, hread, hparts⟩ := ih
    refine ⟨(readLog q).1 :: parts, ?_, .cons ⟨hfront, hkept⟩ hparts⟩
    rw [hread, readLog_whole hbase, List.flatten_cons, List.append_assoc]

theorem whole_encodeLog {cmds : List (List Bytes)} (h : ∀ cmd ∈ cmds, Within defaultLimits cmd) :
    Whole (encodeLog cmds) := by
  induction cmds with
  | nil => exact .nil
  | cons cmd cmds ih =>
    obtain ⟨hcmd, hcmds⟩ := List.forall_mem_cons.mp h
    have hread := readCommand_encodeCommand hcmd []
    rw [List.append_nil] at hread
    exact .cons hread (ih hcmds)

theorem twoLives_kept :
    ∃ parts, (readLog (encodeLog [pingCommand] ++ ascii "*2\r\n$4")).1 = (readLog []).1 ++ parts.flatten ∧
      List.Forall₂ Kept [⟨.always, (run (openFile [] .always [] []) [.append pingCommand]).1⟩,
        ⟨.everysec, (run (openFile (encodeLog [pingCommand]) .everysec [] []) [.append pingEcho]).1⟩] parts := by
  refine lives_keep_promises (.cons .nil .always [] [] [.append pingCommand] (by decide) ?_
    (.cons (whole_encodeLog within_ping) .everysec [] [] [.append pingEcho] (by decide) ?_ (.nil _)))
  · exact ⟨by decide +kernel, by decide +kernel⟩
  · exact ⟨by decide +kernel, by decide +kernel⟩

/-! A record that was cut before its last argument. -/

/-- The encoding of a command up to the header of its last argument. -/
def torn (pre : List Bytes) (v : Bytes) : Bytes :=
  arrayLen (pre.length + 1) ++ (pre.flatMap bulk ++ writeLine 36 (formatNat v.length))

theorem encodeCommand_torn (pre : List Bytes) (v : Bytes) : encodeCommand (pre ++ [v]) = torn pre v ++ (v ++ crlf) := by
  simp [encodeCommand, torn, bulk]

theorem readBulks_torn {pre : List Bytes} {v : Bytes}
    (h : ∀ a ∈ pre ++ [v], (a.length : Int) ≤ defaultLimits.maxBulkLen) :
    readBulks logBuffer defaultLimits (pre.length + 1) (pre.flatMap bulk ++ writeLine 36 (formatNat v.length)) =
      .error .eof := by
  have hmax : ∀ a ∈ pre ++ [v], a.length < 2 ^ 63 := by
    intro a hm
    have hle : (a.length : Int) ≤ 67108864 := h a hm
    omega
  induction pre with
  | nil =>
    have hline : readLine logBuffer defaultLimits.maxHeaderLen (ascii "header line")
        (writeLine 36 (formatNat v.length) ++ []) = .ok (36 :: formatNat v.length, []) :=
      readLine_header 36 (by decide) (by decide) (by decide) (hmax v (by simp)) []
    have hlen : bulkLength defaultLimits (formatNat v.length) = some v.length := by
      have hv := h v (by simp)
      rw [bulkLength, parseInt_formatNat (hmax v (by simp))]
      dsimp only
      rw [if_neg (by omega)]
      rfl
    rw [List.append_nil] at hline
    simp only [List.flatMap_nil, List.nil_append, List.length_nil, readBulks, readBulk, hline]
    simp [hlen, readPayload, readFull]
  | cons a pre ih =>
    obtain ⟨ha, hpre⟩ := List.forall_mem_cons.mp h
    have hone := readBulk_bulk (by decide : 0 < logBuffer) (by decide) (by decide) ha
      (pre.flatMap bulk ++ writeLine 36 (formatNat v.length))
    rw [List.flatMap_cons, List.append_assoc, List.length_cons, readBulks, hone]
    dsimp only
    rw [ih hpre fun a hm => hmax a (List.mem_cons_of_mem _ hm)]

theorem readLog_torn {pre : List Bytes} {v : Bytes} (h : Within defaultLimits (pre ++ [v])) :
    readLog (torn pre v) = ([], none) := by
  obtain ⟨-, hlen, hargs⟩ := h
  have hcount : ((pre ++ [v]).length : Int) ≤ 1048576 := hlen
  rw [List.length_append, List.length_singleton] at hcount
  have hline : readLine logBuffer defaultLimits.maxHeaderLen (ascii "header line")
      (writeLine 42 (formatNat (pre.length + 1)) ++ (pre.flatMap bulk ++ writeLine 36 (formatNat v.length))) =
        .ok (42 :: formatNat (pre.length + 1), pre.flatMap bulk ++ writeLine 36 (formatNat v.length)) :=
    readLine_header 42 (by decide) (by decide) (by decide) (by omega) _
  have heof : readCommand logBuffer defaultLimits (torn pre v) = .error .eof := by
    have hhead : (torn pre v).head? = some 42 := rfl
    have hnil : torn pre v ≠ [] := by
      intro he
      rw [he] at hhead
      cases hhead
    rw [readCommand, if_neg hnil, if_pos hhead, readMultibulk, torn, arrayLen, hline]
    simp only [List.drop_one, List.tail_cons, parseInt_formatNat (by omega : pre.length + 1 < 2 ^ 63)]
    rw [if_neg (by simp only [defaultLimits]; omega)]
    exact readBulks_torn hargs
  rw [readLog_error heof]
  rfl

structure Text (a : Bytes) (ws : List Bytes) : Prop where
  words : Joined Blanks ws a
  plain : ∀ w ∈ ws, Plain w
  within : Within defaultLimits ws
  start : ∀ name ∈ ws.head?, name.head? ≠ some 42
  fits : (a ++ crlf).length ≤ logBuffer

theorem readLog_text {a : Bytes} {ws : List Bytes} (h : Text a ws) (rest : Bytes) :
    readLog (a ++ (crlf ++ rest)) = (ws :: (readLog rest).1, (readLog rest).2) := by
  have hmax : (a.length : Int) ≤ defaultLimits.maxInlineLen := by
    have hfits := h.fits
    simp only [List.length_append, logBuffer] at hfits
    simp only [defaultLimits]
    omega
  exact readLog_ok (readCommand_inline h.within h.plain h.start h.words hmax (.inr rfl) h.fits rest)

theorem text_word {word : Bytes} (hplain : Plain word) (hstar : word.head? ≠ some 42) (hlen : word.length ≤ 4094) :
    Text word [word] := by
  refine ⟨.one _, by simpa using hplain, ⟨List.cons_ne_nil _ _, (by decide : (1 : Int) ≤ defaultLimits.maxArgs), ?_⟩,
    by simpa using hstar, ?_⟩
  · intro w hw
    rw [List.mem_singleton.mp hw]
    change _ ≤ (67108864 : Int)
    omega
  · simp only [List.length_append, crlf, List.length_cons, List.length_nil, logBuffer]
    omega

theorem text_header {n : Nat} (hn : n < 2 ^ 63) : Text (36 :: formatNat n) [36 :: formatNat n] := by
  have hlen : (formatNat n).length ≤ 19 := formatNat_length (by omega) (by omega)
  have hplain : Plain (36 :: formatNat n) :=
    ⟨List.cons_ne_nil _ _, runes_not_space (List.forall_mem_cons.mpr ⟨by decide, formatNat_not_space n⟩)⟩
  exact text_word hplain (by simp) (by simp only [List.length_cons]; omega)

/-- The arguments of a command, read one by one as inline commands. -/
def spilled (texts : List (Bytes × List Bytes)) : List (List Bytes) :=
  texts.flatMap fun x => [[36 :: formatNat x.1.length], x.2]

theorem readLog_spilled {texts : List (Bytes × List Bytes)} (h : ∀ x ∈ texts, Text x.1 x.2) (rest : Bytes) :
    readLog ((texts.map Prod.fst).flatMap bulk ++ rest) = (spilled texts ++ (readLog rest).1, (readLog rest).2) := by
  induction texts with
  | nil => rfl
  | cons x texts ih =>
    obtain ⟨hx, htexts⟩ := List.forall_mem_cons.mp h
    have hlen : x.1.length < 2 ^ 63 := by
      have hfits := hx.fits
      simp only [List.length_append, logBuffer] at hfits
      omega
    have hsplit : ((x :: texts).map Prod.fst).flatMap bulk ++ rest =
        (36 :: formatNat x.1.length) ++ (crlf ++ (x.1 ++ (crlf ++ ((texts.map Prod.fst).flatMap bulk ++ rest)))) := by
      simp [bulk, writeLine]
    rw [hsplit, readLog_text (text_header hlen), readLog_text hx, ih htexts]
    rfl

theorem torn_append (pre : List Bytes) {v : Bytes} {args : List Bytes}
    (hv : v.length = (42 :: formatNat args.length).length) (rest : Bytes) :
    torn pre v ++ (encodeCommand args ++ rest) =
      encodeCommand (pre ++ [42 :: formatNat args.length]) ++ (args.flatMap bulk ++ rest) := by
  have hargs : encodeCommand args = 42 :: formatNat args.length ++ (crlf ++ args.flatMap bulk) := by
    simp [encodeCommand, arrayLen, writeLine]
  rw [encodeCommand_torn, hargs, torn, torn, hv]
  simp

theorem survives_append {base p : Bytes} {cmd : List Bytes} (hbase : base <+: p)
    (hp : p <+: base ++ encodeCommand cmd) :
    Survives (run (openFile base .everysec [] []) [.append cmd]).2.w.out p := by
  set w := appendWriter cmd (openFile base .everysec [] []).w with hw
  have hputs : Puts fileSink _ (encodeCommand cmd) w := writes_append cmd _
  have hok : w.failed = false := by
    by_contra hno
    obtain ⟨q, f, hcalls, hfail⟩ := hputs.cause rfl (by simpa using hno)
    have hfile : f.isOpen = true ∧ f.faults = [] := by
      refine hcalls.keeps (P := fun f => f.isOpen = true ∧ f.faults = []) (fun q f hf => ?_) ⟨rfl, rfl⟩
      simp [fileSink, File.write, hf]
    simp [fileSink, File.write, hfile, taken] at hfail
  have hcontent : w.out.content = base ++ encodeCommand cmd := by
    have hbuf : w.buf = [] := RespWriter.flushes_sendCommand cmd _ hok
    have hstream := hputs.stream hok
    rw [hbuf, List.append_nil] at hstream
    exact hstream.trans (congrArg (· ++ encodeCommand cmd) (List.append_nil base))
  have hsynced : w.out.synced = base.length := synced_of_calls hputs.calls
  have hrun : (run (openFile base .everysec [] []) [.append cmd]).2.w = w := by
    change (append cmd (openFile base .everysec [] [])).2.w = w
    rw [append, if_neg (by simp [openFile])]
    dsimp only
    rw [← hw, if_neg (by simp [hok]), if_neg (by simp [openFile])]
  rw [hrun, Survives, hcontent, hsynced, List.take_left]
  exact ⟨hbase, hp⟩

/-- A crash may cut a record right before its last argument. The next process
takes that for the end of the log, and appends to it. If the header of its
first command is as long as the missing argument, `Load` later reads this
header in its place without an error, and then executes the arguments of that
command one by one, as commands. -/
theorem torn_record_spills {base : Bytes} (hb : Whole base) {pre : List Bytes} {v : Bytes}
    (hcmd : Within defaultLimits (pre ++ [v])) {texts : List (Bytes × List Bytes)}
    (htexts : ∀ x ∈ texts, Text x.1 x.2) (hv : v.length = (42 :: formatNat texts.length).length)
    {cmds : List (List Bytes)} (hcmds : ∀ cmd ∈ cmds, Within defaultLimits cmd) :
    Survives (run (openFile base .everysec [] []) [.append (pre ++ [v])]).2.w.out (base ++ torn pre v) ∧
      readLog (base ++ torn pre v) = ((readLog base).1, none) ∧
      readLog (base ++ torn pre v ++ encodeLog (texts.map Prod.fst :: cmds)) =
        ((readLog base).1 ++ ((pre ++ [42 :: formatNat texts.length]) :: (spilled texts ++ cmds)), none) := by
  have hheader : Within defaultLimits (pre ++ [42 :: formatNat texts.length]) := by
    obtain ⟨-, hlen, hargs⟩ := hcmd
    refine ⟨by simp, by simpa using hlen, fun a ha => ?_⟩
    obtain ha | ha := List.mem_append.mp ha
    · exact hargs a (List.mem_append_left _ ha)
    · rw [List.mem_singleton.mp ha, ← hv]
      exact hargs v (by simp)
  refine ⟨?_, ?_, ?_⟩
  · refine survives_append (List.prefix_append _ _) ((List.prefix_append_right_inj base).mpr ?_)
    rw [encodeCommand_torn]
    exact List.prefix_append _ _
  · rw [readLog_whole hb, readLog_torn hcmd, List.append_nil]
  · have hfile : torn pre v ++ encodeLog (texts.map Prod.fst :: cmds) =
        encodeCommand (pre ++ [42 :: formatNat texts.length]) ++
          ((texts.map Prod.fst).flatMap bulk ++ encodeLog cmds) := by
      have hlen : (texts.map Prod.fst).length = texts.length := List.length_map _
      rw [← hlen] at hv ⊢
      exact torn_append pre hv (encodeLog cmds)
    rw [List.append_assoc, readLog_whole hb, hfile, readLog_ok (readCommand_encodeCommand hheader _),
      readLog_spilled htexts, readLog_encodeLog cmds hcmds]

/-- `SET k hi` is cut, and `SET a FLUSHDB` is appended to it. -/
theorem setFlush_spills :
    readLog (encodeLog [pingCommand] ++ torn [ascii "SET", ascii "k"] (ascii "hi") ++
        encodeLog [[ascii "SET", ascii "a", ascii "FLUSHDB"]]) =
      ([pingCommand, [ascii "SET", ascii "k", ascii "*3"], [ascii "$3"], [ascii "SET"], [ascii "$1"], [ascii "a"],
        [ascii "$7"], [ascii "FLUSHDB"]], none) := by
  have htexts : ∀ x ∈ [ascii "SET", ascii "a", ascii "FLUSHDB"].map (fun word => (word, [word])), Text x.1 x.2 := by
    have hwords : ∀ word ∈ [ascii "SET", ascii "a", ascii "FLUSHDB"],
        Plain word ∧ word.head? ≠ some 42 ∧ word.length ≤ 4094 := by decide
    intro x hx
    obtain ⟨word, hm, rfl⟩ := List.mem_map.mp hx
    obtain ⟨hplain, hstar, hlen⟩ := hwords word hm
    exact text_word hplain hstar hlen
  have hspill := (torn_record_spills (whole_encodeLog within_ping) (by decide :
    Within defaultLimits ([ascii "SET", ascii "k"] ++ [ascii "hi"])) htexts (by decide) (List.forall_mem_nil _)).2.2
  exact hspill

end MemX.PersistLives
