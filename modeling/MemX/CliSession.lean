import MemX.CliConnect
import MemX.CliTokenize
import MemX.LineScanner

namespace MemX.CliSession

open DecimalText Utf8Runes Utf8Text TextCase TextFold LineScanner StoreState CommandRegistry CommandHandlers CliTokenize
open RespRead RespWrite RespRoundTrip RespBuffered RespReply BufReader PersistLimits
open ServerConn ServerFrames ServerBuffers
open CliClient CliConnect

variable {c : Config}

def maxLine : Nat := 1048576

/-- `Do` with any number of arguments, on a connection that the server may
already have closed. -/
def doCommand (h : Host) (requirePass : Bytes) (lim : Limits) (args : List Bytes) (p : Transit c) :
    Option (Link c) → Except ReadErr Reply × Option (Link c)
  | none => (.error .eof, none)
  | some l => doArgs h requirePass lim args p.requestCuts p.replyCuts p.round l

inductive Shown
  | help
  | reply (r : Reply)
  | connectionError (err : ReadErr)

def isQuit (t : CaseTable) (text : Bytes) : Prop := toUpper t text = ascii "QUIT" ∨ toUpper t text = ascii "EXIT"

def isHelp (t : CaseTable) (text : Bytes) : Prop := toUpper t text = ascii "HELP"

instance (t : CaseTable) (text : Bytes) : Decidable (isQuit t text) := inferInstanceAs (Decidable (_ ∨ _))

instance (t : CaseTable) (text : Bytes) : Decidable (isHelp t text) := inferInstanceAs (Decidable (_ = _))

section Loop

variable (h : Host) (t : CaseTable) (requirePass : Bytes) (lim : Limits) (ways : Nat → Transit c)

/-- The loop of `runInteractive`; `n` counts the calls of `Do`. -/
def interact : Nat → List Bytes → Option (Link c) → List Shown × Option (Link c)
  | _, [], l => ([], l)
  | n, line :: lines, l =>
    let text := trimSpace line
    if text = [] then interact n lines l
    else if isQuit t text then ([], l)
    else if isHelp t text then
      let later := interact n lines l
      (.help :: later.1, later.2)
    else
      match doCommand h requirePass lim (tokenize text) (ways n) l with
      | (.error e, l) => ([.connectionError e], l)
      | (.ok r, l) =>
        let later := interact (n + 1) lines l
        (.reply r :: later.1, later.2)

def runInteractive (input : Bytes) (l : Link c) : List Shown × Option (Link c) :=
  interact h t requirePass lim ways 0 (scanLines maxLine input).lines (some l)

end Loop

/-! How a line of a command is typed. -/

def Bare (s : Bytes) : Prop :=
  ∃ rs : List Nat, rs ≠ [] ∧ (∀ r ∈ rs, Scalar r ∧ r ≠ 92 ∧ r ≠ 34 ∧ isSpace r = false) ∧ s = rs.flatMap encodeRune

/-- An argument is typed as it is or between double quotes. -/
inductive Spells : Bytes → Bytes → Prop
  | bare {s : Bytes} (hs : Bare s) : Spells s s
  | quoted {s : Bytes} (hs : Valid s) : Spells (quote s) s

def Typed (args : List Bytes) (line : Bytes) : Prop :=
  ∃ items, List.Forall₂ Spells items args ∧ Joined White items line

theorem feed_bare (tokens : List Bytes) (cur : Bytes) {rs : List Nat}
    (h : ∀ r ∈ rs, Scalar r ∧ r ≠ 92 ∧ r ≠ 34 ∧ isSpace r = false) :
    Lexer.feed ⟨tokens, cur, false, false⟩ rs = ⟨tokens, cur ++ rs.flatMap encodeRune, false, false⟩ := by
  induction rs generalizing cur with
  | nil => simp [Lexer.feed]
  | cons r rs ih =>
    obtain ⟨⟨-, h92, h34, hspace⟩, hrs⟩ := List.forall_mem_cons.mp h
    have hnext : Lexer.next ⟨tokens, cur, false, false⟩ r = ⟨tokens, cur ++ encodeRune r, false, false⟩ := by
      simp [Lexer.next, Lexer.writeRune, h92, h34, hspace]
    change Lexer.feed (Lexer.next _ r) rs = _
    rw [hnext, ih _ hrs, List.flatMap_cons, List.append_assoc]

theorem read_item {item s : Bytes} (h : Spells item s) (tokens : List Bytes) (line : Bytes) :
    Lexer.read ⟨tokens, [], false, false⟩ (item ++ line) = Lexer.read ⟨tokens, s, false, false⟩ line := by
  cases h with
  | bare hs =>
    obtain ⟨rs, -, hrs, rfl⟩ := hs
    rw [Lexer.read_encode fun r hr => (hrs r hr).1, feed_bare _ _ hrs, List.nil_append]
  | quoted hs => exact Lexer.read_quote tokens hs line

theorem read_typed {items : List Bytes} {line : Bytes} (hj : Joined White items line) {args : List Bytes}
    (hs : List.Forall₂ Spells items args) (tokens : List Bytes) :
    (Lexer.emit (Lexer.read ⟨tokens, [], false, false⟩ line)).tokens = tokens ++ args.filter (· ≠ []) := by
  induction hj generalizing args tokens with
  | nil =>
    cases hs
    simp [Lexer.read, runes, runesLoop, Lexer.feed, Lexer.emit]
  | one item =>
    obtain ⟨s, rest, hitem, hnil, rfl⟩ := List.forall₂_cons_left_iff.mp hs
    cases hnil
    have hread := read_item hitem tokens []
    rw [List.append_nil] at hread
    rw [hread]
    exact congrArg Lexer.tokens (Lexer.emit_eq tokens s)
  | cons item hgap more ih =>
    obtain ⟨s, rest, hitem, hrest, rfl⟩ := List.forall₂_cons_left_iff.mp hs
    rw [read_item hitem tokens, Lexer.read_white tokens s hgap, ih hrest, List.append_assoc, ← List.filter_append]
    rfl

/-- Empty arguments are lost. -/
theorem tokenize_typed {args : List Bytes} {line : Bytes} (h : Typed args line) :
    tokenize line = args.filter (· ≠ []) := by
  obtain ⟨items, hs, hj⟩ := h
  exact read_typed hj hs []

theorem firm_item {item s : Bytes} (h : Spells item s) : ∃ rs, Firm rs ∧ item = rs.flatMap encodeRune := by
  cases h with
  | bare hs =>
    obtain ⟨rs, hne, hrs, rfl⟩ := hs
    exact ⟨rs, ⟨hne, (hrs _ (List.head_mem hne)).2.2.2, (hrs _ (List.getLast_mem hne)).2.2.2⟩, rfl⟩
  | quoted hs =>
    obtain ⟨rs, -, rfl⟩ := hs
    exact ⟨34 :: (rs.flatMap escapeRune ++ [34]), ⟨by simp, rfl, by simp [isSpace]⟩, quote_eq rs⟩

theorem firm_joined {items : List Bytes} {line : Bytes} (hj : Joined White items line) {args : List Bytes}
    (hs : List.Forall₂ Spells items args) (hne : args ≠ []) : ∃ rs, Firm rs ∧ line = rs.flatMap encodeRune := by
  induction hj generalizing args with
  | nil =>
    cases hs
    exact absurd rfl hne
  | one item =>
    obtain ⟨s, rest, hitem, -, -⟩ := List.forall₂_cons_left_iff.mp hs
    exact firm_item hitem
  | cons item hgap more ih =>
    obtain ⟨s, rest, hitem, hrest, -⟩ := List.forall₂_cons_left_iff.mp hs
    obtain ⟨rs, hrs, rfl⟩ := firm_item hitem
    obtain ⟨ws, -, -, rfl⟩ := hgap
    obtain ⟨rs', hrs', rfl⟩ := ih hrest fun hnil => by
      rw [hnil] at hrest
      cases hrest
    exact ⟨rs ++ (ws ++ rs'), hrs.append ws hrs', by simp only [List.flatMap_append]⟩

theorem firm_typed {args : List Bytes} {line : Bytes} (h : Typed args line) (hne : args ≠ []) :
    ∃ rs, Firm rs ∧ line = rs.flatMap encodeRune := by
  obtain ⟨items, hs, hj⟩ := h
  exact firm_joined hj hs hne

theorem trimSpace_typed {args : List Bytes} {line : Bytes} (h : Typed args line) (hne : args ≠ []) :
    trimSpace line = line ∧ dropCR line = line ∧ line ≠ [] := by
  obtain ⟨rs, hrs, rfl⟩ := firm_typed h hne
  refine ⟨trimSpace_firm hrs, dropCR_firm hrs, ?_⟩
  obtain ⟨r, rs, rfl⟩ := List.exists_cons_of_ne_nil hrs.ne_nil
  simp [encodeRune_ne_nil]

section Session

variable {h : Host} {t : CaseTable} {requirePass : Bytes} {lim : Limits} {ways : Nat → Transit c}

theorem interact_typed {args : List Bytes} {line : Bytes} (htyped : Typed args line) (hne : args ≠ [])
    (hquit : ¬ isQuit t line) (hhelp : ¬ isHelp t line) (n : Nat) (lines : List Bytes) (l : Option (Link c)) :
    interact h t requirePass lim ways n (line :: lines) l =
      match doCommand h requirePass lim (args.filter (· ≠ [])) (ways n) l with
      | (.error e, l) => ([.connectionError e], l)
      | (.ok r, l) =>
        (.reply r :: (interact h t requirePass lim ways (n + 1) lines l).1,
          (interact h t requirePass lim ways (n + 1) lines l).2) := by
  obtain ⟨htrim, -, hline⟩ := trimSpace_typed htyped hne
  simp only [interact, htrim, if_neg hline, if_neg hquit, if_neg hhelp, tokenize_typed htyped]

structure Entry (t : CaseTable) where
  args : Tokens
  nonempty : [] ∉ args.1
  line : Bytes
  typed : Typed args.1 line
  notQuit : ¬ isQuit t line
  notHelp : ¬ isHelp t line
  oneLine : (10 : UInt8) ∉ line
  fits : line.length < maxLine

def turns (ways : Nat → Transit c) : Nat → List (Entry t) → List (Turn c)
  | _, [] => []
  | n, e :: es => ⟨(ways n).round.meanwhile, (ways n).round.now, e.args⟩ :: turns ways (n + 1) es

theorem filter_args (e : Entry t) : e.args.1.filter (· ≠ []) = e.args.1 := by
  refine List.filter_eq_self.mpr fun s hs => ?_
  simpa using fun hnil : s = [] => e.nonempty (hnil ▸ hs)

variable (hh : 21 ≤ lim.maxHeaderLen) (hb : lim.maxBulkLen < 2 ^ 63) (ha : lim.maxArgs < 2 ^ 63)

include hh hb ha

theorem interact_reads (n : Nat) {es : List (Entry t)} {l : Link c} (hl : Idle l)
    (hx : ∀ e ∈ es, Within lim e.args.1)
    (hfit : ∀ r ∈ (session h requirePass l.authed l.world (turns ways n es)).1,
      Sendable defaultLimits r.reply ∧ Short r.reply) :
    ∃ l', interact h t requirePass lim ways n (es.map Entry.line) (some l) =
        ((session h requirePass l.authed l.world (turns ways n es)).1.map fun r => .reply r.reply, some l') ∧
      l'.world = (session h requirePass l.authed l.world (turns ways n es)).2.2 := by
  induction es generalizing n l with
  | nil => exact ⟨l, rfl, rfl⟩
  | cons e es ih =>
    obtain ⟨hx, hxs⟩ := List.forall_mem_cons.mp hx
    obtain ⟨hone, hrest⟩ := List.forall_mem_cons.mp hfit
    have htrip := roundTrip_reads (x := ⟨e.args, (ways n).requestCuts, (ways n).replyCuts, (ways n).round⟩)
      hh hb ha hl hx hone
    obtain ⟨l', htrip, hl', hauthed, hworld⟩ := htrip
    have hdo : doCommand h requirePass lim e.args.1 (ways n) (some l) = _ := htrip
    obtain ⟨l'', htail, hend⟩ := ih (n + 1) hl' hxs (by rw [hauthed, hworld]; exact hrest)
    rw [hauthed, hworld] at htail hend
    refine ⟨l'', ?_, hend⟩
    rw [List.map_cons, interact_typed e.typed e.args.2 e.notQuit e.notHelp, filter_args, hdo]
    dsimp only
    rw [htail]
    rfl

/-- Commands typed line by line, whose arguments stand for themselves or
between double quotes: the client shows the replies of the server to them, in
their order and nothing else. -/
theorem typed_commands_answered (h : Host) (requirePass : Bytes) (w : World c) {client server : Reader UInt8}
    (hidle : Idle (dial requirePass w client server)) (ways : Nat → Transit c) (es : List (Entry t))
    (hx : ∀ e ∈ es, Within lim e.args.1)
    (hfit : ∀ r ∈ (connect h requirePass w (turns ways 0 es)).1, Sendable defaultLimits r.reply ∧ Short r.reply) :
    ∃ l, runInteractive h t requirePass lim ways (es.flatMap (·.line ++ [10])) (dial requirePass w client server) =
        ((connect h requirePass w (turns ways 0 es)).1.map fun r => .reply r.reply, some l) ∧
      l.world = (connect h requirePass w (turns ways 0 es)).2.2 := by
  have hlines : (scanLines maxLine (es.flatMap (·.line ++ [10]))).lines = es.map Entry.line := by
    have hscan : ∀ line ∈ es.map Entry.line, (10 : UInt8) ∉ line ∧ line.length < maxLine := by
      intro line hm
      obtain ⟨e, -, rfl⟩ := List.mem_map.mp hm
      exact ⟨e.oneLine, e.fits⟩
    have hsplit := congrArg Scan.lines (scanLines_written hscan)
    rw [List.flatMap_map] at hsplit
    rw [hsplit, List.map_map]
    exact List.map_congr_left fun e _ => (trimSpace_typed e.typed e.args.2).2.1
  rw [runInteractive, hlines]
  exact interact_reads hh hb ha 0 hidle hx hfit

end Session

theorem bare_ascii {s : Bytes} (hne : s ≠ [])
    (h : s.all (fun b => b.toNat < 0x80 && b != 92 && b != 34 && !isSpace b.toNat) = true) : Bare s := by
  have hbytes : ∀ b ∈ s, b.toNat < 0x80 ∧ b ≠ 92 ∧ b ≠ 34 ∧ isSpace b.toNat = false := by
    simpa [and_assoc] using h
  refine ⟨s.map UInt8.toNat, by simpa using hne, fun r hr => ?_, ?_⟩
  · obtain ⟨b, hb, rfl⟩ := List.mem_map.mp hr
    obtain ⟨hlow, h92, h34, hspace⟩ := hbytes b hb
    exact ⟨.inl (by omega), fun he => h92 (UInt8.toNat_inj.mp he), fun he => h34 (UInt8.toNat_inj.mp he), hspace⟩
  · have hbyte : ∀ b ∈ s, encodeRune b.toNat = [b] := by
      intro b hb
      rw [encodeRune, if_pos (hbytes b hb).1]
      simp [byte]
    rw [List.flatMap_map, List.flatMap_congr hbyte, List.flatMap_singleton']

theorem bare_word {word : String} (hne : ascii word ≠ [])
    (h : (ascii word).all (fun b => b.toNat < 0x80 && b != 92 && b != 34 && !isSpace b.toNat) = true) :
    Spells (ascii word) (ascii word) := .bare (bare_ascii hne h)

theorem quoted_string {s : Bytes} (h : s.all (·.toNat < 0x80) = true) : Spells (quote s) s :=
  .quoted (valid_ascii (by simpa using h))

def setEntry : Entry asciiTable where
  args := ⟨[ascii "set", ascii "k", ascii "a b"], List.cons_ne_nil _ _⟩
  nonempty := by decide
  line := ascii "set k \"a b\""
  typed := ⟨[ascii "set", ascii "k", quote (ascii "a b")],
    .cons (bare_word (by decide) (by decide)) (.cons (bare_word (by decide) (by decide))
      (.cons (quoted_string (by decide)) .nil)), .cons _ white_space (.cons _ white_space (.one _))⟩
  notQuit := by decide
  notHelp := by decide
  oneLine := by decide
  fits := by decide

def getEntry : Entry asciiTable where
  args := ⟨[ascii "get", ascii "k"], List.cons_ne_nil _ _⟩
  nonempty := by decide
  line := ascii "get k"
  typed := ⟨[ascii "get", ascii "k"], .cons (bare_word (by decide) (by decide))
    (.cons (bare_word (by decide) (by decide)) .nil), .cons _ white_space (.one _)⟩
  notQuit := by decide
  notHelp := by decide
  oneLine := by decide
  fits := by decide

theorem setEntry_answered :
    ∃ l, runInteractive host asciiTable [] defaultLimits (fun _ => direct) (ascii "set k \"a b\"\nget k\n")
        (dial [] emptyWorld (blank clientBuffer) (blank connBuffer)) =
      ([.reply okText, .reply (.bulk (ascii "a b"))], some l) := by
  have hreplies : (connect host [] emptyWorld (turns (fun _ => direct) 0 [setEntry, getEntry])).1 =
      [.executed okText, .executed (.bulk (ascii "a b"))] := rfl
  have hanswered := typed_commands_answered (by decide) (by decide) (by decide) host [] emptyWorld (idle_dial _ _)
    (fun _ => direct) [setEntry, getEntry] (by decide : ∀ e ∈ _, Within defaultLimits (Entry.args e).1) (by
      rw [hreplies]
      simp [Response.reply, okText, Sendable, Short, defaultLimits, clientBuffer, ascii])
  obtain ⟨l, hrun, -⟩ := hanswered
  rw [hreplies] at hrun
  exact ⟨l, hrun⟩

/-! A line of nothing but empty strings is a command without arguments. -/

section Nothing

variable {h : Host} {t : CaseTable} {requirePass : Bytes} {lim : Limits} {ways : Nat → Transit c}

theorem readCommand_nothing {size : Nat} (hs : 0 < size) (hh : 21 ≤ lim.maxHeaderLen) :
    readCommand size lim (encodeCommand []) = .error invalidMultibulk := by
  have hline : readLine size lim.maxHeaderLen (ascii "header line") (writeLine 42 (formatNat 0) ++ []) =
      .ok (42 :: formatNat 0, []) := readLine_header 42 (by decide) hs hh (by decide) []
  have henc : encodeCommand [] = writeLine 42 (formatNat 0) ++ [] := rfl
  have hp : parseInt (formatNat 0) = some 0 := by decide
  rw [readCommand, if_neg (by decide), if_pos (by decide), readMultibulk, henc, hline]
  simp only [List.drop_one, List.tail_cons, hp]
  rfl

def nothingReply : Reply := .error (ascii "ERR Protocol error: invalid multibulk length")

theorem sendError_nothing : (sendError invalidMultibulk fresh).out.content = writeTo nothingReply := by
  have hreply : writeAll (handleReadError invalidMultibulk) = writeTo nothingReply := by
    rw [invalidMultibulk, handleReadError, writeAll, writeAll, List.append_nil]
    rfl
  rw [← hreply]
  exact content_of_flushed (writes_sendError invalidMultibulk) (sendError_buf fun _ => rfl)

theorem doCommand_nothing (hh : 21 ≤ lim.maxHeaderLen) {l : Link c} (hl : Idle l) (p : Transit c) :
    doCommand h requirePass lim [] p (some l) = (.ok nothingReply, none) := by
  set input := deliver l.server p.requestCuts (request []) with hinput
  have hsize : input.size = connBuffer := hl.serverSize
  have hagree := refines_readCommand lim input (by rw [hsize]; decide)
  have hpend : input.pending = encodeCommand [] := by
    rw [hinput, deliver_pending, hl.serverRead, request_eq, List.nil_append]
  rw [hsize, hpend] at hagree
  beta_reduce at hagree
  rw [readCommand_nothing (by decide) hh] at hagree
  set output := deliver l.client p.replyCuts (sendError invalidMultibulk fresh).out.content with houtput
  have hunread : output.unread = [] := (List.append_eq_nil_iff.mp hl.clientRead).1
  have hopend : output.pending = writeTo nothingReply := by
    rw [houtput, deliver_pending, hl.clientRead, sendError_nothing, List.nil_append]
  have hosize : output.size = clientBuffer := hl.clientSize
  have hread : Readable (ascii "ERR Protocol error: invalid multibulk length") := readable_of (by decide) (by decide)
  obtain ⟨client, hreply, -⟩ := readReply_pieces hread.1 trivial hread.2 hosize hunread hopend
  rw [doCommand, doArgs, ← hinput]
  generalize readCommandFrom lim input = x at hagree ⊢
  cases hagree
  dsimp only
  rw [← houtput]
  exact congrArg (fun x => (x.1, none)) hreply

theorem interact_closed (h : Host) (t : CaseTable) (requirePass : Bytes) (lim : Limits) (ways : Nat → Transit c)
    (n : Nat) (lines : List Bytes) :
    ∃ k last, (last = [] ∨ last = [.connectionError .eof]) ∧
      interact h t requirePass lim ways n lines none = (List.replicate k .help ++ last, none) := by
  induction lines with
  | nil => exact ⟨0, [], .inl rfl, rfl⟩
  | cons line lines ih =>
    obtain ⟨k, last, hlast, heq⟩ := ih
    rw [interact]
    dsimp only
    split_ifs
    · exact ⟨k, last, hlast, heq⟩
    · exact ⟨0, [], .inl rfl, rfl⟩
    · exact ⟨k + 1, last, hlast, by rw [heq]; rfl⟩
    · exact ⟨0, _, .inr rfl, rfl⟩

theorem quoted_of_spells_nil {item : Bytes} (h : Spells item []) : item = [34, 34] := by
  cases h with
  | bare hs =>
    obtain ⟨rs, hne, -, hnil⟩ := hs
    obtain ⟨r, rs, rfl⟩ := List.exists_cons_of_ne_nil hne
    exact absurd (List.append_eq_nil_iff.mp hnil.symm).1 (encodeRune_ne_nil r)
  | quoted hs => rfl

theorem toUpper_quoted (t : CaseTable) (line : Bytes) : ∃ rest, toUpper t (34 :: line) = 34 :: rest := by
  have hup : encodeRune (t.upper 34) = [34] := by
    rw [t.upper_ascii 34 (by decide)]
    decide
  refine ⟨mapRunes t.upper line, ?_⟩
  rw [toUpper, mapRunes_cons, decodeRune_ascii (by decide)]
  exact congrArg (· ++ mapRunes t.upper line) hup

theorem starts_quoted {arg : Bytes} {args : List Bytes} {line : Bytes} (htyped : Typed (arg :: args) line)
    (harg : arg = []) : ∃ rest, line = 34 :: rest := by
  obtain ⟨items, hs, hj⟩ := htyped
  obtain ⟨item, rest, hitem, -, rfl⟩ := List.forall₂_cons_right_iff.mp hs
  rw [harg] at hitem
  obtain rfl := quoted_of_spells_nil hitem
  cases hj with
  | one => exact ⟨_, rfl⟩
  | cons _ hgap more => exact ⟨_, rfl⟩

/-- Empty strings are all that is typed on a line: the client shows an error of
the protocol, and no reply after it. The next command ends the session. -/
theorem empty_strings_close (hh : 21 ≤ lim.maxHeaderLen) {args : List Bytes} {line : Bytes} (htyped : Typed args line)
    (hne : args ≠ []) (hempty : ∀ arg ∈ args, arg = []) (hone : (10 : UInt8) ∉ line) (hfits : line.length < maxLine)
    (h : Host) (t : CaseTable) (requirePass : Bytes) (ways : Nat → Transit c) {l : Link c} (hl : Idle l)
    (more : Bytes) :
    ∃ k last, (last = [] ∨ last = [.connectionError .eof]) ∧
      runInteractive h t requirePass lim ways (line ++ 10 :: more) l =
        (.reply nothingReply :: (List.replicate k .help ++ last), none) := by
  have hwords : ¬ isQuit t line ∧ ¬ isHelp t line := by
    obtain ⟨arg, args, rfl⟩ := List.exists_cons_of_ne_nil hne
    obtain ⟨rest, rfl⟩ := starts_quoted htyped (hempty arg List.mem_cons_self)
    obtain ⟨upper, hupper⟩ := toUpper_quoted t rest
    rw [isQuit, isHelp, hupper]
    exact ⟨by simp [ascii], by simp [ascii]⟩
  have hnone : args.filter (· ≠ []) = [] := by
    refine List.filter_eq_nil_iff.mpr fun arg hm => ?_
    simp [hempty arg hm]
  obtain ⟨k, last, hlast, heq⟩ := interact_closed h t requirePass lim ways 1 (scanLines maxLine more).lines
  refine ⟨k, last, hlast, ?_⟩
  rw [runInteractive, scanLines, scanLoop_line hone [] hfits, List.nil_append, (trimSpace_typed htyped hne).2.1,
    interact_typed htyped hne hwords.1 hwords.2, hnone, doCommand_nothing hh hl]
  dsimp only
  rw [heq]

end Nothing

theorem twoQuotes_close :
    ∃ k last, (last = [] ∨ last = [.connectionError .eof]) ∧
      runInteractive host asciiTable [] defaultLimits (fun _ => direct) (ascii "\"\"" ++ 10 :: ascii "get k\n")
          (dial [] emptyWorld (blank clientBuffer) (blank connBuffer)) =
        (.reply nothingReply :: (List.replicate k .help ++ last), none) := by
  have htyped : Typed [[]] (ascii "\"\"") := ⟨[quote []], .cons (quoted_string (by decide)) .nil, .one _⟩
  exact empty_strings_close (by decide) htyped (by decide) (by decide) (by decide) (by decide) host asciiTable []
    (fun _ => direct) (idle_dial _ _) (ascii "get k\n")

end MemX.CliSession
