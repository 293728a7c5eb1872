import MemX.RespConsume
import MemX.RespRoundTrip

namespace MemX.PersistLog

open DecimalText RespRead RespWrite RespConsume RespRoundTrip

def logBuffer : Nat := 4096

/-- The loop of `Load`: the commands it executes, and the error it returns. An
end of input from anywhere inside `ReadCommand` counts as a clean end. -/
def readLogLoop : Nat → Bytes → List (List Bytes) × Option ReadErr
  | 0, _ => ([], none)
  | fuel + 1, s =>
    match readCommand logBuffer defaultLimits s with
    | .error .eof => ([], none)
    | .error e => ([], some e)
    | .ok (args, rest) => (args :: (readLogLoop fuel rest).1, (readLogLoop fuel rest).2)

def readLog (s : Bytes) : List (List Bytes) × Option ReadErr := readLogLoop (s.length + 1) s

structure Loaded where
  executed : List (List Bytes)
  n : Nat
  err : Option ReadErr

/-- The same loop with what it carries: the commands executed so far, and the
counter that `Load` returns. -/
def loadLoop : Nat → List (List Bytes) → Nat → Bytes → Loaded
  | 0, executed, n, _ => ⟨executed, n, none⟩
  | fuel + 1, executed, n, s =>
    match readCommand logBuffer defaultLimits s with
    | .error .eof => ⟨executed, n, none⟩
    | .error e => ⟨executed, n, some e⟩
    | .ok (args, rest) => loadLoop fuel (executed ++ [args]) (n + 1) rest

def loadFile (s : Bytes) : Loaded := loadLoop (s.length + 1) [] 0 s

theorem loadLoop_eq (fuel : Nat) (executed : List (List Bytes)) (n : Nat) (s : Bytes) :
    loadLoop fuel executed n s =
      ⟨executed ++ (readLogLoop fuel s).1, n + (readLogLoop fuel s).1.length, (readLogLoop fuel s).2⟩ := by
  induction fuel generalizing executed n s with
  | zero => simp [loadLoop, readLogLoop]
  | succ fuel ih =>
    unfold loadLoop readLogLoop
    cases readCommand logBuffer defaultLimits s with
    | error e => cases e <;> simp
    | ok p =>
      obtain ⟨args, rest⟩ := p
      simp only [ih, List.append_assoc, List.singleton_append, List.length_cons, Loaded.mk.injEq, true_and, and_true]
      omega

theorem loadFile_eq (s : Bytes) : loadFile s = ⟨(readLog s).1, (readLog s).1.length, (readLog s).2⟩ := by
  rw [loadFile, loadLoop_eq, List.nil_append, Nat.zero_add]
  rfl

def encodeLog (cmds : List (List Bytes)) : Bytes := cmds.flatMap encodeCommand

theorem readLogLoop_fuel (f g : Nat) (s : Bytes) (hf : s.length < f) (hg : s.length < g) :
    readLogLoop f s = readLogLoop g s := by
  induction f generalizing g s with
  | zero => omega
  | succ f ih =>
    cases g with
    | zero => omega
    | succ g =>
      unfold readLogLoop
      cases hr : readCommand logBuffer defaultLimits s with
      | error e => cases e <;> rfl
      | ok p =>
        obtain ⟨args, rest⟩ := p
        have hlt := (readCommand_consumes (by decide) hr).length_lt
        simp only [ih g rest (by omega) (by omega)]

theorem readLog_ok {s : Bytes} {args : List Bytes} {rest : Bytes}
    (h : readCommand logBuffer defaultLimits s = .ok (args, rest)) :
    readLog s = (args :: (readLog rest).1, (readLog rest).2) := by
  have hlt := (readCommand_consumes (by decide) h).length_lt
  have hf := readLogLoop_fuel s.length (rest.length + 1) rest hlt (by omega)
  rw [readLog, readLogLoop, h]
  simp only [hf, readLog]

theorem readLog_error {s : Bytes} {e : ReadErr} (h : readCommand logBuffer defaultLimits s = .error e) :
    readLog s = ([], if e = .eof then none else some e) := by
  rw [readLog, readLogLoop, h]
  cases e <;> rfl

theorem readCommand_encodeCommand {cmd : List Bytes} (h : Within defaultLimits cmd) (rest : Bytes) :
    readCommand logBuffer defaultLimits (encodeCommand cmd ++ rest) = .ok (cmd, rest) :=
  readCommand_encode (by decide) (by decide) (by decide) (by decide) h rest

theorem readLog_encodeLog (cmds : List (List Bytes)) (h : ∀ c ∈ cmds, Within defaultLimits c) :
    readLog (encodeLog cmds) = (cmds, none) := by
  induction cmds with
  | nil => rfl
  | cons c cmds ih =>
    have hc := readCommand_encodeCommand (h c (by simp)) (encodeLog cmds)
    change readLog (encodeCommand c ++ encodeLog cmds) = _
    rw [readLog_ok hc, ih fun c hm => h c (by simp [hm])]

theorem within_of_readLog {cmd : List Bytes} {rest : Bytes} {cmds : List (List Bytes)} {e : Option ReadErr}
    (h : readLog (encodeCommand cmd ++ rest) = (cmd :: cmds, e)) : Within defaultLimits cmd := by
  cases hr : readCommand logBuffer defaultLimits (encodeCommand cmd ++ rest) with
  | error e =>
    rw [readLog_error hr] at h
    cases h
  | ok r =>
    obtain ⟨args, rest'⟩ := r
    rw [readLog_ok hr] at h
    cases h
    exact readMultibulk_within hr

theorem readLog_encodeLog_iff (cmds : List (List Bytes)) :
    readLog (encodeLog cmds) = (cmds, none) ↔ ∀ c ∈ cmds, Within defaultLimits c := by
  refine ⟨fun h => ?_, readLog_encodeLog cmds⟩
  induction cmds with
  | nil => simp
  | cons c cmds ih =>
    change readLog (encodeCommand c ++ encodeLog cmds) = _ at h
    have hc := within_of_readLog h
    rw [readLog_ok (readCommand_encodeCommand hc (encodeLog cmds)), Prod.mk.injEq, List.cons_eq_cons] at h
    exact List.forall_mem_cons.mpr ⟨hc, ih (Prod.ext h.1.2 h.2)⟩

/-- The content is a sequence of pieces that `ReadCommand` reads as one whole
command each. -/
inductive Whole : Bytes → Prop
  | nil : Whole []
  | cons {b rest : Bytes} {args : List Bytes}
      (h : readCommand logBuffer defaultLimits b = .ok (args, [])) (hw : Whole rest) : Whole (b ++ rest)

theorem readLog_whole_append {f : Bytes} (hf : Whole f) (cmds : List (List Bytes))
    (h : ∀ c ∈ cmds, Within defaultLimits c) :
    readLog (f ++ encodeLog cmds) = ((readLog f).1 ++ cmds, none) := by
  induction hf with
  | nil => exact readLog_encodeLog cmds h
  | cons hb _ ih =>
    have hc := readCommand_consumes (by decide) hb
    rw [List.append_assoc, readLog_ok (hc.append _), readLog_ok (hc.append _), List.nil_append,
      List.nil_append, ih]
    rfl

theorem parseInt_star (x y : Bytes) : parseInt (x ++ 42 :: y) = none := by
  have hd : ∀ z : Bytes, digitsValue (z ++ 42 :: y) = none := by
    intro z
    have hnone : ∀ w : Bytes, w.foldl (fun acc b => acc.bind fun v =>
        if isDigit b then some (10 * v + (b.toNat - 48)) else none) (none : Option Nat) = none := by
      intro w
      induction w with
      | nil => rfl
      | cons b w ih => exact ih
    rw [digitsValue, List.foldl_append, List.foldl_cons]
    cases z.foldl _ (some 0) with
    | none => exact hnone y
    | some v => exact hnone y
  have hu : ∀ z : Bytes, parseUnsigned (z ++ 42 :: y) = none := by
    intro z
    rw [parseUnsigned, if_neg (by simp), hd]
  cases x with
  | nil =>
    have h0 : parseUnsigned (42 :: y) = none := hu []
    simp [parseInt, h0]
  | cons b x =>
    have hbx := hu (b :: x)
    have hxs := hu x
    rw [List.cons_append] at hbx ⊢
    unfold parseInt
    split
    · rename_i heq
      cases heq
      rw [hxs]
      rfl
    · rename_i heq
      cases heq
      rw [hxs]
      rfl
    · rw [hbx]
      rfl

theorem readLine_torn {max : Int} {what f : Bytes} (hf : (10 : UInt8) ∉ f) (n : Nat) (rest : Bytes) :
    readLine logBuffer max what (f ++ (arrayLen n ++ rest)) = .ok (f ++ 42 :: formatNat n, rest) ∨
      ∃ msg, readLine logBuffer max what (f ++ (arrayLen n ++ rest)) = .error (.protocol msg) := by
  have hsplit : f ++ (arrayLen n ++ rest) = (f ++ (42 :: formatNat n ++ [13])) ++ 10 :: rest := by
    simp [arrayLen, writeLine, crlf]
  have hl : (10 : UInt8) ∉ f ++ (42 :: formatNat n ++ [13]) := by
    simpa using ⟨hf, formatNat_no_lf n⟩
  have hstrip : stripEOL (f ++ (42 :: formatNat n ++ [13]) ++ [10]) = f ++ 42 :: formatNat n := by
    have he : f ++ (42 :: formatNat n ++ [13]) ++ [10] = (f ++ 42 :: formatNat n) ++ [13] ++ [10] := by
      simp
    rw [he, stripEOL_crlf]
  rw [hsplit]
  refine (readLine_first (by decide) hl rest).imp (fun h => ?_) fun h => ⟨_, h.1⟩
  rw [h, hstrip]

/-- An end of input in the middle of a command: either a line has no end yet,
or the header line is complete and announces a number of arguments. -/
theorem readCommand_torn {f : Bytes} (hne : f ≠ []) (h : readCommand logBuffer defaultLimits f = .error .eof) :
    (10 : UInt8) ∉ f ∨
      ∃ (n : Nat) (s : Bytes), ∀ x,
        readCommand logBuffer defaultLimits (f ++ x) = readBulks logBuffer defaultLimits n (s ++ x) := by
  unfold readCommand at h
  rw [if_neg hne] at h
  split at h
  · rename_i hstar
    unfold readMultibulk at h
    cases hl : readLine logBuffer defaultLimits.maxHeaderLen (ascii "header line") f with
    | error e =>
      rw [hl] at h
      cases h
      exact Or.inl (readLineLoop_eof _ _ _ (by omega) (by decide) hl)
    | ok p =>
      obtain ⟨line, s⟩ := p
      rw [hl] at h
      simp only at h
      cases hn : parseInt (line.drop 1) with
      | none =>
        rw [hn] at h
        cases h
      | some n =>
        rw [hn] at h
        simp only at h
        split at h
        · cases h
        · rename_i hrange
          have hx := (readLine_consumes (by decide) hl).append
          refine Or.inr ⟨n.toNat, s, fun x => ?_⟩
          rw [readCommand, if_neg (by simp [hne]), head?_append_of_ne_nil hne, if_pos hstar, readMultibulk, hx]
          simp only [hn, if_neg hrange]
  · unfold readInline at h
    cases hl : readLine logBuffer defaultLimits.maxInlineLen (ascii "inline request") f with
    | error e =>
      rw [hl] at h
      cases h
      exact Or.inl (readLineLoop_eof _ _ _ (by omega) (by decide) hl)
    | ok p =>
      rw [hl] at h
      simp only at h
      split at h
      · cases h
      · split at h <;> cases h

def pingCommand : List Bytes := [ascii "PING"]

def pingEcho : List Bytes := [ascii "PING", ascii "x"]

theorem within_ping : ∀ c ∈ [pingCommand], Within defaultLimits c := by decide

theorem within_pingEcho : ∀ c ∈ [pingEcho], Within defaultLimits c := by decide

theorem readLog_head {s : Bytes} {c : List Bytes} (h : readLog s = ([c], none)) :
    ∃ rest, readCommand logBuffer defaultLimits s = .ok (c, rest) := by
  cases hr : readCommand logBuffer defaultLimits s with
  | error e =>
    rw [readLog_error hr] at h
    cases h
  | ok p =>
    obtain ⟨args, rest⟩ := p
    rw [readLog_ok hr] at h
    simp only [Prod.mk.injEq, List.cons.injEq] at h
    exact ⟨rest, by rw [h.1.1]⟩

theorem torn_not_loadable {f : Bytes} (hne : f ≠ []) (h : readCommand logBuffer defaultLimits f = .error .eof)
    (hall : ∀ cmds, (∀ c ∈ cmds, Within defaultLimits c) →
      readLog (f ++ encodeLog cmds) = ((readLog f).1 ++ cmds, none)) : False := by
  have hnil : (readLog f).1 = [] := by rw [readLog_error h]
  rw [hnil] at hall
  obtain ⟨r1, h1⟩ := readLog_head (hall [pingCommand] within_ping)
  obtain ⟨r2, h2⟩ := readLog_head (hall [pingEcho] within_pingEcho)
  obtain hlf | ⟨n, s, hx⟩ := readCommand_torn hne h
  · have henc : f ++ encodeLog [pingCommand] =
        f ++ (arrayLen 1 ++ (pingCommand.flatMap bulk ++ [])) := by
      simp [encodeLog, encodeCommand, pingCommand]
    rw [henc, readCommand, if_neg (by simp [hne]), head?_append_of_ne_nil hne] at h1
    split at h1
    · rename_i hstar
      obtain ⟨y, rfl⟩ : ∃ y, f = 42 :: y := by
        cases f with
        | nil => exact absurd rfl hne
        | cons a y => exact ⟨y, by simpa using hstar⟩
      unfold readMultibulk at h1
      obtain hl | ⟨msg, hl⟩ := readLine_torn hlf 1 _
      · rw [hl] at h1
        simp only [List.cons_append, List.drop_one, List.tail_cons, parseInt_star] at h1
        cases h1
      · rw [hl] at h1
        cases h1
    · unfold readInline at h1
      obtain hl | ⟨msg, hl⟩ := readLine_torn hlf 1 _
      · rw [hl] at h1
        simp only at h1
        split at h1
        · cases h1
        · split at h1
          · cases h1
          · obtain ⟨fld, hfld, hstar⟩ := Utf8Runes.fields_mem (s := f ++ 42 :: formatNat 1) (x := 42)
              (by simp) (by decide) (by decide)
            simp only [Except.ok.injEq, Prod.mk.injEq] at h1
            have hp : fld = ascii "PING" := by simpa [h1.1, pingCommand] using hfld
            rw [hp] at hstar
            exact absurd hstar (by decide)
      · rw [hl] at h1
        cases h1
  · rw [hx] at h1 h2
    have hl1 := (readBulks_consumes (by decide) n h1).1
    have hl2 := (readBulks_consumes (by decide) n h2).1
    rw [← hl1] at hl2
    exact absurd hl2 (by decide)

/-- An accepted log stays loadable under every append exactly when it ends at
the end of a command. -/
theorem load_append_iff_whole (f : Bytes) (hf : (readLog f).2 = none) :
    (∀ cmds, (∀ c ∈ cmds, Within defaultLimits c) →
      readLog (f ++ encodeLog cmds) = ((readLog f).1 ++ cmds, none)) ↔ Whole f := by
  constructor
  · intro hall
    induction hn : f.length using Nat.strong_induction_on generalizing f with
    | _ n ih =>
      cases hr : readCommand logBuffer defaultLimits f with
      | error e =>
        by_cases hne : f = []
        · subst hne
          exact .nil
        · rw [readLog_error hr] at hf
          have he : e = .eof := by
            by_contra he
            simp [he] at hf
          subst he
          exact absurd hall fun hall => torn_not_loadable hne hr hall
      | ok p =>
        obtain ⟨args, rest⟩ := p
        have hc := readCommand_consumes (by decide) hr
        have hlt := hc.length_lt
        obtain ⟨b, hb, rfl, hx⟩ := hc
        have hw : Whole rest := by
          refine ih rest.length (by omega) rest ?_ ?_ rfl
          · rwa [readLog_ok hr] at hf
          · intro cmds hcmds
            have h := hall cmds hcmds
            rw [List.append_assoc, readLog_ok (hx _), readLog_ok hr] at h
            simp only [List.cons_append, Prod.mk.injEq, List.cons.injEq, true_and] at h
            exact Prod.ext h.1 h.2
        have hone : readCommand logBuffer defaultLimits b = .ok (args, []) := by simpa using hx []
        exact .cons hone hw
  · exact fun hw cmds => readLog_whole_append hw cmds

theorem load_append_inline :
    (readLog (ascii "PING\r\n")).2 = none ∧
    ((∀ cmds, (∀ c ∈ cmds, Within defaultLimits c) →
      readLog (ascii "PING\r\n" ++ encodeLog cmds) = ((readLog (ascii "PING\r\n")).1 ++ cmds, none)) ↔
      Whole (ascii "PING\r\n")) :=
  ⟨by decide, load_append_iff_whole (ascii "PING\r\n") (by decide)⟩

/-- A log cut after a header line is accepted, and refused after the next append. -/
theorem torn_header_refused :
    (readLog (ascii "*1\r\n")).2 = none ∧ Within defaultLimits pingCommand ∧
    readLog (ascii "*1\r\n" ++ encodeLog [pingCommand]) ≠ ((readLog (ascii "*1\r\n")).1 ++ [pingCommand], none) := by
  decide

theorem readCommand_cut {cmd : List Bytes} (h : Within defaultLimits cmd) {p q : Bytes}
    (hpq : encodeCommand cmd = p ++ q) (hq : q ≠ []) : ∃ e, readCommand logBuffer defaultLimits p = .error e := by
  cases hr : readCommand logBuffer defaultLimits p with
  | error e => exact ⟨e, rfl⟩
  | ok r =>
    -- what was read from `p` would be read from the whole encoding, with `q` left over
    have hlong := (readCommand_consumes (by decide) hr).append q
    have hwhole := readCommand_encodeCommand h []
    rw [List.append_nil, hpq, hlong] at hwhole
    simp only [Except.ok.injEq, Prod.mk.injEq, List.append_eq_nil_iff] at hwhole
    exact absurd hwhole.2.2 hq

theorem prefix_append_cases {p a b : Bytes} (h : p <+: a ++ b) :
    (∃ q, q ≠ [] ∧ a = p ++ q) ∨ ∃ r, p = a ++ r ∧ r <+: b := by
  obtain ⟨t, ht⟩ := h
  obtain ⟨q, rfl, -⟩ | ⟨r, rfl, rfl⟩ := List.append_eq_append_iff.mp ht
  · by_cases hq : q = []
    · subst hq
      exact Or.inr ⟨[], by simp, List.nil_prefix⟩
    · exact Or.inl ⟨q, hq, rfl⟩
  · exact Or.inr ⟨r, rfl, List.prefix_append r t⟩

theorem readLog_torn {cmds : List (List Bytes)} (h : ∀ c ∈ cmds, Within defaultLimits c) {p : Bytes}
    (hp : p <+: encodeLog cmds) :
    ∃ k ≤ cmds.length, (readLog p).1 = cmds.take k ∧
      ∀ i < cmds.length, i < k ↔ encodeLog (cmds.take (i + 1)) <+: p := by
  induction cmds generalizing p with
  | nil =>
    have hnil : p = [] := List.prefix_nil.mp hp
    subst hnil
    exact ⟨0, le_rfl, rfl, by simp⟩
  | cons c cmds ih =>
    obtain ⟨hc, hcmds⟩ := List.forall_mem_cons.mp h
    obtain ⟨q, hq, hcut⟩ | ⟨r, rfl, hr⟩ := prefix_append_cases hp
    · obtain ⟨e, he⟩ := readCommand_cut hc hcut hq
      refine ⟨0, Nat.zero_le _, by rw [readLog_error he]; rfl, fun i _ => ?_⟩
      simp only [Nat.not_lt_zero, false_iff]
      intro hle
      have hlen := hle.length_le
      have hpos := List.length_pos_iff.mpr hq
      simp only [encodeLog, List.take_succ_cons, List.flatMap_cons, hcut, List.length_append] at hlen
      omega
    · obtain ⟨k, hk, hread, hiff⟩ := ih hcmds hr
      refine ⟨k + 1, by simpa using hk, ?_, fun i hi => ?_⟩
      · rw [readLog_ok (readCommand_encodeCommand hc r), hread, List.take_succ_cons]
      · rw [List.take_succ_cons, encodeLog, List.flatMap_cons, List.prefix_append_right_inj]
        cases i with
        | zero => simp
        | succ i =>
          rw [Nat.add_lt_add_iff_right]
          exact hiff i (by simpa using hi)

/-- A log cut at any byte: `Load` executes the command at a position if and
only if its encoding lies within the cut, and nothing else, and returns how many
it has executed. -/
theorem torn_log_runs_whole_commands {cmds : List (List Bytes)} (h : ∀ c ∈ cmds, Within defaultLimits c)
    {p : Bytes} (hp : p <+: encodeLog cmds) :
    ∃ k ≤ cmds.length, (readLog p).1 = cmds.take k ∧ loadFile p = ⟨cmds.take k, k, (readLog p).2⟩ ∧
      ∀ i < cmds.length, i < k ↔ encodeLog (cmds.take (i + 1)) <+: p := by
  obtain ⟨k, hk, hread, hiff⟩ := readLog_torn h hp
  refine ⟨k, hk, hread, ?_, hiff⟩
  rw [loadFile_eq, hread, List.length_take_of_le hk]

theorem torn_ping_runs_one :
    ∃ k ≤ [pingCommand, pingEcho].length,
      (readLog (encodeCommand pingCommand ++ ascii "*2\r\n$4\r\nPI")).1 = [pingCommand, pingEcho].take k ∧
      loadFile (encodeCommand pingCommand ++ ascii "*2\r\n$4\r\nPI") = ⟨[pingCommand, pingEcho].take k, k,
        (readLog (encodeCommand pingCommand ++ ascii "*2\r\n$4\r\nPI")).2⟩ ∧
      ∀ i < [pingCommand, pingEcho].length,
        i < k ↔ encodeLog ([pingCommand, pingEcho].take (i + 1)) <+:
          encodeCommand pingCommand ++ ascii "*2\r\n$4\r\nPI" :=
  torn_log_runs_whole_commands (by decide) (by decide)

end MemX.PersistLog
