import MemX.CommandLines
import MemX.PersistLimits
import MemX.ServerConn

namespace MemX.ServerFrames

open DecimalText Clock StoreState CommandProgram CommandHandlers CommandRegistry
open RespRead RespWrite RespConsume RespRoundTrip RespInline RespFrame CommandLines PersistLimits ServerConn

variable {c : Config} {size : Nat} {lim : Limits} {s : Bytes}

def StrayLine (size : Nat) (lim : Limits) (s : Bytes) : Prop :=
  ∃ bl rest, readLine size lim.maxHeaderLen (ascii "header line") s = .ok (bl, rest) ∧ bl.head? = some 13

/-- Such a line comes where the header of one of `n` bulks is due. -/
def StrayBulk (size : Nat) (lim : Limits) (n : Nat) (s : Bytes) : Prop :=
  ∃ k args rest, k < n ∧ readBulks size lim k s = .ok (args, rest) ∧ StrayLine size lim rest

def Stray (size : Nat) (lim : Limits) (s : Bytes) : Prop :=
  ∃ line rest n, s.head? = some 42 ∧ readLine size lim.maxHeaderLen (ascii "header line") s = .ok (line, rest) ∧
    parseInt (line.drop 1) = some n ∧ 0 < n ∧ n ≤ lim.maxArgs ∧ StrayBulk size lim n.toNat rest

theorem plain_of_high {b : UInt8} (h : 0x80 ≤ b.toNat) : plain b = true := by
  have h13 : b ≠ 13 := by
    rintro rfl
    exact absurd h (by decide)
  have h10 : b ≠ 10 := by
    rintro rfl
    exact absurd h (by decide)
  simp [plain, h13, h10]

theorem oneLine_encodeRune (b : UInt8) : OneLine (Utf8Runes.encodeRune b.toNat) ↔ plain b = true := by
  have hb := b.toNat_lt
  by_cases hlow : b.toNat < 0x80
  · simp [Utf8Runes.encodeRune, hlow, Utf8Runes.byte, OneLine]
  · have h2 : b.toNat < 0x800 := by omega
    have hhigh : ∀ n, 0x80 ≤ n → n < 256 → plain (Utf8Runes.byte n) = true := by
      intro n h0 h1
      refine plain_of_high ?_
      rw [Utf8Runes.byte, UInt8.toNat_ofNat']
      omega
    refine iff_of_true ?_ (plain_of_high (by omega))
    simp only [Utf8Runes.encodeRune, hlow, h2, ↓reduceIte]
    exact List.forall_mem_cons.mpr ⟨hhigh _ (by omega) (by omega),
      List.forall_mem_cons.mpr ⟨hhigh _ (by omega) (by omega), by simp⟩⟩

theorem oneLine_expectedDollar {bl : Bytes} (hn : (10 : UInt8) ∉ bl) :
    OneLine (expectedDollar bl) ↔ bl.head? ≠ some 13 := by
  have hpre : OneLine (ascii "expected '$', got '") := oneLine_ascii String.toList_ofList rfl
  have hpost : OneLine (ascii "'") := oneLine_ascii String.toList_ofList rfl
  have hmid : ∀ m, OneLine (ascii "expected '$', got '" ++ m ++ ascii "'") ↔ OneLine m := by
    intro m
    rw [oneLine_append, oneLine_append]
    exact (and_iff_left hpost).trans (and_iff_right hpre)
  cases bl with
  | nil => exact iff_of_true ((hmid _).mpr (oneLine_ascii String.toList_ofList rfl)) (by simp)
  | cons b bl =>
    have hb : b ≠ 10 := fun he => hn (by simp [he])
    rw [expectedDollar, hmid, oneLine_encodeRune]
    simp [plain, hb]

def OneLineError {α : Type} (x : Except ReadErr α) : Prop := ∀ msg, x = .error (.protocol msg) → OneLine msg

theorem oneLineError_ok {α : Type} (a : α) : OneLineError (.ok a : Except ReadErr α) := fun msg h => by cases h

theorem oneLineError_error {α : Type} {msg : Bytes} :
    OneLineError (.error (.protocol msg) : Except ReadErr α) ↔ OneLine msg :=
  ⟨fun h => h msg rfl, fun h msg' he => by cases he; exact h⟩

theorem oneLineError_readLine {max : Int} {what : Bytes} (hw : OneLine what) :
    OneLineError (readLine size max what s) := by
  have hbig : OneLine (ascii "too big " ++ what) := oneLine_append.mpr ⟨oneLine_ascii String.toList_ofList rfl, hw⟩
  have hloop : ∀ f line s, OneLineError (readLineLoop size max what f line s) := by
    intro f
    induction f with
    | zero => exact fun line s msg h => by cases h
    | succ f ih =>
      intro line s
      unfold readLineLoop
      split
      · simp only
        split
        · exact oneLineError_error.mpr hbig
        · exact oneLineError_ok _
      · split
        · exact oneLineError_error.mpr hbig
        · exact ih _ _
      · exact fun msg h => by cases h
  exact hloop _ _ _

theorem oneLine_invalidBulk {α : Type} : OneLineError (.error invalidBulk : Except ReadErr α) :=
  oneLineError_error.mpr (oneLine_ascii String.toList_ofList rfl)

theorem oneLine_header : OneLine (ascii "header line") := oneLine_ascii String.toList_ofList rfl

theorem oneLineError_readPayload (n : Nat) (s : Bytes) : OneLineError (readPayload n s) := by
  unfold readPayload readFull
  split
  · rename_i h
    split at h
    · cases h
    · split at h <;> cases h <;> exact fun msg h => by cases h
  · split
    · exact oneLineError_ok _
    · exact oneLine_invalidBulk

theorem oneLineError_readBulk : OneLineError (readBulk size lim s) ↔ ¬ StrayLine size lim s := by
  have hline : OneLineError (readLine size lim.maxHeaderLen (ascii "header line") s) :=
    oneLineError_readLine oneLine_header
  unfold readBulk StrayLine
  cases hr : readLine size lim.maxHeaderLen (ascii "header line") s with
  | error e =>
    rw [hr] at hline
    exact iff_of_true (fun msg h => hline msg (by cases h; rfl)) (by simp)
  | ok r =>
    obtain ⟨bl, rest⟩ := r
    have hn : (10 : UInt8) ∉ bl := readLineLoop_no_lf _ (by simp) hr
    simp only
    split
    · rename_i hd
      refine iff_of_true ?_ (by simp [hd])
      cases bulkLength lim (bl.drop 1) with
      | none => exact oneLine_invalidBulk
      | some n => exact oneLineError_readPayload n rest
    · rw [oneLineError_error, oneLine_expectedDollar hn]
      simp

theorem strayBulk_zero : ¬ StrayBulk size lim 0 s := by
  rintro ⟨k, _, _, hk, _⟩
  omega

theorem strayBulk_error {n : Nat} {e : ReadErr} (h : readBulk size lim s = .error e) :
    StrayBulk size lim (n + 1) s ↔ StrayLine size lim s := by
  constructor
  · rintro ⟨k, args, rest, _, hk, hs⟩
    cases k with
    | zero =>
      cases hk
      exact hs
    | succ k => simp [readBulks, h] at hk
  · exact fun hs => ⟨0, [], s, by omega, rfl, hs⟩

theorem strayBulk_ok {n : Nat} {arg rest : Bytes} (h : readBulk size lim s = .ok (arg, rest)) :
    StrayBulk size lim (n + 1) s ↔ StrayBulk size lim n rest := by
  have hno : ¬ StrayLine size lim s := oneLineError_readBulk.mp (by rw [h]; exact oneLineError_ok _)
  constructor
  · rintro ⟨k, args, rest', hlt, hk, hs⟩
    cases k with
    | zero =>
      cases hk
      exact absurd hs hno
    | succ k =>
      cases hk' : readBulks size lim k rest with
      | error e => simp [readBulks, h, hk'] at hk
      | ok r =>
        simp only [readBulks, h, hk', Except.ok.injEq, Prod.mk.injEq] at hk
        exact ⟨k, r.1, r.2, by omega, hk', hk.2 ▸ hs⟩
  · rintro ⟨k, args, rest', hlt, hk, hs⟩
    exact ⟨k + 1, arg :: args, rest', by omega, by simp only [readBulks, h, hk], hs⟩

theorem oneLineError_readBulks (n : Nat) : OneLineError (readBulks size lim n s) ↔ ¬ StrayBulk size lim n s := by
  induction n generalizing s with
  | zero => exact iff_of_true (oneLineError_ok _) strayBulk_zero
  | succ n ih =>
    cases hr : readBulk size lim s with
    | error e =>
      have h : OneLineError (readBulk size lim s) ↔ ¬ StrayLine size lim s := oneLineError_readBulk
      rw [strayBulk_error hr, ← h, hr, readBulks, hr]
      exact ⟨fun h msg he => h msg (by cases he; rfl), fun h msg he => h msg (by cases he; rfl)⟩
    | ok r =>
      obtain ⟨arg, rest⟩ := r
      rw [strayBulk_ok hr, ← ih, readBulks, hr]
      simp only
      cases readBulks size lim n rest with
      | error e => exact ⟨fun h msg he => h msg (by cases he; rfl), fun h msg he => h msg (by cases he; rfl)⟩
      | ok rs => exact iff_of_true (oneLineError_ok _) (oneLineError_ok _)

theorem stray_iff {line rest : Bytes} {n : Int} (hs : s.head? = some 42)
    (hr : readLine size lim.maxHeaderLen (ascii "header line") s = .ok (line, rest))
    (hp : parseInt (line.drop 1) = some n) :
    Stray size lim s ↔ 0 < n ∧ n ≤ lim.maxArgs ∧ StrayBulk size lim n.toNat rest := by
  constructor
  · rintro ⟨line', rest', m, _, hr', hp', h⟩
    cases hr.symm.trans hr'
    cases hp.symm.trans hp'
    exact h
  · exact fun h => ⟨line, rest, n, hs, hr, hp, h⟩

theorem oneLineError_readMultibulk (hs : s.head? = some 42) :
    OneLineError (readMultibulk size lim s) ↔ ¬ Stray size lim s := by
  have hline : OneLineError (readLine size lim.maxHeaderLen (ascii "header line") s) :=
    oneLineError_readLine oneLine_header
  have hinvalid : OneLineError (.error invalidMultibulk : Except ReadErr (List Bytes × Bytes)) :=
    oneLineError_error.mpr (oneLine_ascii String.toList_ofList rfl)
  unfold readMultibulk
  cases hr : readLine size lim.maxHeaderLen (ascii "header line") s with
  | error e =>
    rw [hr] at hline
    refine iff_of_true (fun msg h => hline msg (by cases h; rfl)) ?_
    rintro ⟨_, _, _, _, hr', _⟩
    cases hr.symm.trans hr'
  | ok r =>
    obtain ⟨line, rest⟩ := r
    simp only
    cases hp : parseInt (line.drop 1) with
    | none =>
      refine iff_of_true hinvalid ?_
      rintro ⟨_, _, _, _, hr', hp', _⟩
      cases hr.symm.trans hr'
      cases hp.symm.trans hp'
    | some n =>
      simp only [stray_iff hs hr hp]
      split_ifs with hn
      · exact iff_of_true hinvalid fun ⟨h0, h1, _⟩ => by omega
      · rw [oneLineError_readBulks, not_iff_not]
        exact ⟨fun h => ⟨by omega, by omega, h⟩, fun h => h.2.2⟩

theorem oneLineError_readInline : OneLineError (readInline size lim s) := by
  have hline : OneLineError (readLine size lim.maxInlineLen (ascii "inline request") s) :=
    oneLineError_readLine (oneLine_ascii String.toList_ofList rfl)
  unfold readInline
  split
  · rename_i e hr
    rw [hr] at hline
    exact fun msg h => hline msg (by cases h; rfl)
  · simp only
    split_ifs
    · exact oneLineError_error.mpr (oneLine_ascii String.toList_ofList rfl)
    · exact oneLineError_error.mpr (oneLine_ascii String.toList_ofList rfl)
    · exact oneLineError_ok _

theorem oneLineError_readCommand : OneLineError (readCommand size lim s) ↔ ¬ Stray size lim s := by
  unfold readCommand
  split_ifs with hnil hs
  · exact iff_of_true (fun msg h => by cases h) (fun ⟨_, _, _, h, _⟩ => by simp [hnil] at h)
  · exact oneLineError_readMultibulk hs
  · exact iff_of_true oneLineError_readInline (fun ⟨_, _, _, h, _⟩ => hs h)

theorem readCommand_ne_nil {tokens : List Bytes} {rest : Bytes} (h : readCommand size lim s = .ok (tokens, rest)) :
    tokens ≠ [] := by
  unfold readCommand at h
  split_ifs at h
  · exact (readMultibulk_within h).1
  · exact (readInline_within h).1

/-- What `handleReadError` writes: only a protocol error is reported. -/
def handleReadError : ReadErr → List Reply
  | .protocol msg => [.error (ascii "ERR Protocol error: " ++ msg)]
  | _ => []

/-- A round of `handleConn`: what the other connections do before its command
is executed, and the readings the command takes. -/
structure Round (c : Config) where
  meanwhile : World c → World c
  now : Readings

/-- The loop of `handleConn` over what the client sends: what was done with
each command, and the error line at the end. The rounds end where the server
is stopped. -/
def handleConn (h : Host) (requirePass : Bytes) (lim : Limits) :
    List (Round c) → Bool → World c → Bytes → List Response × List Reply
  | [], _, _, _ => ([], [])
  | round :: rounds, authed, w, input =>
    match hr : readCommand connBuffer lim input with
    | .error e => ([], handleReadError e)
    | .ok (tokens, rest) =>
      let r := respond h requirePass round.now authed (round.meanwhile w) ⟨tokens, readCommand_ne_nil hr⟩
      let later := handleConn h requirePass lim rounds r.2.1 r.2.2 rest
      (r.1 :: later.1, later.2)

def stream (r : List Response × List Reply) : Bytes := sent r.1 ++ writeAll r.2

/-- The input of a connection over `n` rounds: each command that is executed is
clean, and where the input is malformed the protocol error quotes no CR. -/
def CleanInput (h : Host) (requirePass : Bytes) (lim : Limits) : Nat → Bool → Bytes → Prop
  | 0, _, _ => True
  | n + 1, authed, input =>
    match hr : readCommand connBuffer lim input with
    | .error _ => ¬ Stray connBuffer lim input
    | .ok (tokens, rest) =>
      (authed = true → Clean h tokens) ∧
        CleanInput h requirePass lim n
          (authed || (gate h.cases requirePass ⟨tokens, readCommand_ne_nil hr⟩).2) rest

theorem flat_gate (t : TextCase.CaseTable) (requirePass : Bytes) (tokens : Tokens) :
    Flat (gate t requirePass tokens).1 := by
  unfold gate
  split_ifs
  · exact (oneLine_ascii String.toList_ofList rfl : OneLine (ascii "NOAUTH Authentication required."))
  · exact (oneLine_ascii String.toList_ofList rfl : OneLine (ascii "ERR wrong number of arguments for 'auth' command"))
  · exact (oneLine_ascii String.toList_ofList rfl : OneLine (ascii "OK"))
  · exact (oneLine_ascii String.toList_ofList rfl :
      OneLine (ascii "WRONGPASS invalid username-password pair or user is disabled."))

theorem flat_respond_iff (h : Host) (requirePass : Bytes) (now : Readings) (authed : Bool) (w : World c)
    (tokens : Tokens) :
    Flat (respond h requirePass now authed w tokens).1.reply ↔ (authed = true → Clean h tokens.1) := by
  cases authed with
  | true => simpa [respond, Response.reply] using flat_execute_iff h tokens.1 w.store now
  | false => simpa [respond, Response.reply] using flat_gate h.cases requirePass tokens

theorem respond_authed (h : Host) (requirePass : Bytes) (now : Readings) (authed : Bool) (w : World c)
    (tokens : Tokens) :
    (respond h requirePass now authed w tokens).2.1 = (authed || (gate h.cases requirePass tokens).2) := by
  cases authed <;> simp [respond]

theorem flatAll_handleReadError {x : Except ReadErr (List Bytes × Bytes)} {e : ReadErr} (hx : x = .error e) :
    FlatAll (handleReadError e) ↔ OneLineError x := by
  subst hx
  have hpre : OneLine (ascii "ERR Protocol error: ") := oneLine_ascii String.toList_ofList rfl
  cases e with
  | protocol msg =>
    simp only [handleReadError, FlatAll, Flat, and_true]
    rw [oneLine_append, and_iff_right hpre, oneLineError_error]
  | _ => exact iff_of_true trivial fun msg h => by cases h

def replies (r : List Response × List Reply) : List Reply := r.1.map Response.reply ++ r.2

theorem stream_eq (r : List Response × List Reply) : stream r = writeAll (replies r) := by
  obtain ⟨rs, es⟩ := r
  simp only [stream, replies, sent]
  induction rs with
  | nil => rfl
  | cons r rs ih => simp only [List.flatMap_cons, List.map_cons, List.cons_append, writeAll, List.append_assoc, ih]

theorem flatAll_handleConn_iff (h : Host) (requirePass : Bytes) (lim : Limits) (rounds : List (Round c))
    (authed : Bool) (w : World c) (input : Bytes) :
    FlatAll (replies (handleConn h requirePass lim rounds authed w input)) ↔
      CleanInput h requirePass lim rounds.length authed input := by
  induction rounds generalizing authed w input with
  | nil => exact Iff.rfl
  | cons round rounds ih =>
    rw [List.length_cons, handleConn, CleanInput]
    split
    · rename_i e hr
      rw [← oneLineError_readCommand, ← flatAll_handleReadError hr]
      exact Iff.rfl
    · rename_i tokens rest hr
      rw [← respond_authed h requirePass round.now authed (round.meanwhile w), ← ih]
      exact and_congr (flat_respond_iff ..) Iff.rfl

theorem handleConn_errors (h : Host) (requirePass : Bytes) (lim : Limits) (rounds : List (Round c)) (authed : Bool)
    (w : World c) (input : Bytes) : (handleConn h requirePass lim rounds authed w input).2.length ≤ 1 := by
  induction rounds generalizing authed w input with
  | nil => exact Nat.zero_le 1
  | cons round rounds ih =>
    rw [handleConn]
    split
    · rename_i e _
      cases e <;> simp [handleReadError]
    · exact ih ..

/-- The lines of a reply are whole if and only if the command is clean, the
line of a protocol error is whole if and only if no stray line begins with CR
where the header of a bulk is due, and the stream of a connection frames into
its replies, one for each command and at most one error after them, if and only
if its input is clean. -/
theorem reply_lines_whole_iff (h : Host) (requirePass : Bytes) (lim : Limits) :
    (∀ (tokens : List Bytes) (s : Store c) (now : Readings),
      Flat (Handler.run s now (execute h tokens)).1 ↔ Clean h tokens) ∧
    (∀ input : Bytes,
      (∀ e, readCommand connBuffer lim input = .error e → FlatAll (handleReadError e)) ↔
        ¬ Stray connBuffer lim input) ∧
    ∀ (rounds : List (Round c)) (w : World c) (input : Bytes),
      let r := handleConn h requirePass lim rounds (requirePass = []) w input
      r.2.length ≤ 1 ∧
        (frames (stream r) = some (replies r) ↔
          CleanInput h requirePass lim rounds.length (requirePass = []) input) := by
  refine ⟨flat_execute_iff h, fun input => ?_, fun rounds w input => ⟨?_, ?_⟩⟩
  · rw [← oneLineError_readCommand]
    constructor
    · intro he msg hr
      exact (flatAll_handleReadError hr).mp (he _ hr) msg hr
    · exact fun ho e hr => (flatAll_handleReadError hr).mpr ho
  · exact handleConn_errors h requirePass lim rounds _ w input
  · rw [stream_eq, frames_writeAll_iff, flatAll_handleConn_iff]

def forged : Bytes := ascii "*1\r\n$6\r\nx\r\n+OK\r\n"

def forgedRun : List Response × List Reply :=
  handleConn host [] defaultLimits [⟨id, frozen (instant 0)⟩, ⟨id, frozen (instant 0)⟩] true emptyWorld forged

/-- The server executes one command, and its client reads two replies. -/
theorem forged_reply :
    (replies forgedRun).length = 1 ∧ (frames (stream forgedRun)).map List.length = some 2 ∧
      ¬ CleanInput host [] defaultLimits 2 true forged := by
  have hone : (replies forgedRun).length = 1 := by decide +kernel
  have htwo : (frames (stream forgedRun)).map List.length = some 2 := by decide +kernel
  refine ⟨hone, htwo, fun hclean => ?_⟩
  have hflat : FlatAll (replies forgedRun) := (flatAll_handleConn_iff ..).mpr hclean
  have hframes := (frames_writeAll_iff _).mpr hflat
  rw [← stream_eq] at hframes
  rw [hframes, Option.map_some, hone] at htwo
  cases htwo

end MemX.ServerFrames
