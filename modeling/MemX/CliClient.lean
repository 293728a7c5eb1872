import MemX.RespReplyView
import MemX.ServerBuffers

namespace MemX.CliClient

open MachineInt DecimalText Clock StoreState CommandProgram CommandHandlers CommandRegistry CommandOutcome
open RespRead RespWrite RespConsume RespRoundTrip RespBuffered RespReply RespReplyView BufReader
open BufWriter hiding andThen
open PersistLimits ServerConn ServerFrames ServerBuffers

variable {c : Config}

def clientBuffer : Nat := 4096

mutual

def Inner : Reply → Prop
  | .simple _ => False
  | .error _ => False
  | .integer _ => True
  | .bulk _ => True
  | .null => True
  | .array rs => InnerAll rs

def InnerAll : List Reply → Prop
  | [] => True
  | r :: rs => Inner r ∧ InnerAll rs

end

/-- A reply whose arrays hold no simple strings and no errors. -/
def Nested : Reply → Prop
  | .array rs => InnerAll rs
  | _ => True

/-- A line of the reply fits into the client's buffer with its end. -/
def Short : Reply → Prop
  | .simple s => s.length + 3 ≤ clientBuffer
  | .error s => s.length + 3 ≤ clientBuffer
  | _ => True

/-! The bytes of a reply spell it out. -/

section Bytes

variable {max : Int} {what : Bytes}

theorem writeLine_split (m : UInt8) (payload rest : Bytes) :
    writeLine m payload ++ rest = (m :: payload ++ [13]) ++ 10 :: rest := by
  simp [writeLine, crlf]

theorem lineOf_writeLine {m : UInt8} {payload : Bytes} (hm : m ≠ 10) (hn : (10 : UInt8) ∉ payload)
    (hmax : (payload.length : Int) + 1 ≤ max) (rest : Bytes) :
    lineOf max what (writeLine m payload ++ rest) = .ok (m :: payload, rest) := by
  have hl : (10 : UInt8) ∉ m :: payload ++ [13] := by simpa using ⟨hm.symm, hn⟩
  rw [writeLine_split, lineOf_line hl, stripEOL_crlf, if_neg (by simpa using hmax)]

theorem not_split_writeLine {m : UInt8} {payload : Bytes} (hm : m ≠ 10) (hn : (10 : UInt8) ∉ payload)
    (hmax : (payload.length : Int) + 2 ≤ max) (size : Nat) (rest : Bytes) :
    ¬ Split size max (writeLine m payload ++ rest) := by
  have hl : (10 : UInt8) ∉ m :: payload ++ [13] := by simpa using ⟨hm.symm, hn⟩
  rintro ⟨hlen, -⟩
  rw [writeLine_split, (takeWhile_line hl rest).1] at hlen
  simp only [List.length_append, List.length_cons, List.length_nil] at hlen
  omega

theorem andThen_of_ok {α β : Type} {y : Bytes → Except ReadErr (α × Bytes)} {g : α → Bytes → Except ReadErr (β × Bytes)}
    {s s' : Bytes} {a : α} (h : y s = .ok (a, s')) : andThen y g s = g a s' := by
  rw [andThen, h]

theorem length_formatNat_le {n : Nat} (h : n < 2 ^ 63) : (formatNat n).length ≤ 19 :=
  formatNat_length (by omega) (by omega)

theorem status_spelled {m : UInt8} {payload : Bytes} (hm : m = 43 ∨ m = 45) (hn : (10 : UInt8) ∉ payload)
    (hl : (payload.length : Int) < defaultLimits.maxInlineLen) (fuel : Nat) (s : Bytes) :
    replyLoop defaultLimits (fuel + 1) (writeLine m payload ++ s) =
      .ok (if m = 43 then .simple payload else .error payload, s) := by
  have hm10 : m ≠ 10 := by obtain rfl | rfl := hm <;> decide
  have hhead : (writeLine m payload ++ s).head? = some m := rfl
  rw [replyLoop, hhead]
  simp only [hm, ↓reduceIte]
  rw [statusOf, andThen_of_ok (lineOf_writeLine hm10 hn (by omega) s)]
  rfl

theorem integer_spelled {n : Int} (hr : InRange n) (fuel : Nat) (s : Bytes) :
    replyLoop defaultLimits (fuel + 1) (writeLine 58 (formatInt n) ++ s) = .ok (.integer n, s) := by
  have hlen := formatInt_length hr
  have hne : formatInt n ≠ [] := fun h => by
    have hp := parseInt_formatInt hr
    rw [h] at hp
    cases hp
  have hpos := List.length_pos_iff.mpr hne
  have hmax : ((formatInt n).length : Int) + 1 ≤ defaultLimits.maxHeaderLen := by
    change _ ≤ (64 : Int)
    omega
  have hhead : (writeLine 58 (formatInt n) ++ s).head? = some 58 := rfl
  rw [replyLoop, hhead]
  simp only [show ¬((58 : UInt8) = 43 ∨ (58 : UInt8) = 45) by decide, ↓reduceIte]
  rw [andThen_of_ok (lineOf_writeLine (by decide) (formatInt_no_lf n) hmax s), integerBody,
    if_neg (by simp only [List.length_cons]; omega)]
  simp only [List.drop_succ_cons, List.drop_zero, parseInt_formatInt hr]

theorem bulk_spelled {b : Bytes} (hl : (b.length : Int) ≤ defaultLimits.maxBulkLen) (fuel : Nat) (s : Bytes) :
    replyLoop defaultLimits (fuel + 1) (RespWrite.bulk b ++ s) = .ok (.bulk b, s) := by
  have hb : (b.length : Int) ≤ 67108864 := hl
  have hlen := length_formatNat_le (n := b.length) (by omega)
  have hmax : ((formatNat b.length).length : Int) + 1 ≤ defaultLimits.maxHeaderLen := by
    change _ ≤ (64 : Int)
    omega
  have hfull : readFull (b.length + 2) (b ++ crlf ++ s) = .ok (b ++ crlf, s) := by
    have hlen2 : (b ++ crlf).length = b.length + 2 := by simp [crlf]
    rw [readFull, if_pos (by rw [List.length_append, hlen2]; omega), List.take_left' hlen2, List.drop_left' hlen2]
  have hhead : (RespWrite.bulk b ++ s).head? = some 36 := rfl
  have hsplit : RespWrite.bulk b ++ s = writeLine 36 (formatNat b.length) ++ (b ++ crlf ++ s) := by
    simp [RespWrite.bulk]
  rw [replyLoop, hhead]
  simp only [show ¬((36 : UInt8) = 43 ∨ (36 : UInt8) = 45) by decide, show ¬((36 : UInt8) = 58) by decide, ↓reduceIte]
  rw [hsplit, andThen_of_ok (lineOf_writeLine (by decide) (formatNat_no_lf _) hmax _), bulkBody]
  simp only [List.drop_succ_cons, List.drop_zero, parseInt_formatNat (show b.length < 2 ^ 63 by omega)]
  rw [if_neg (by omega), if_neg (by omega), Int.toNat_natCast, andThen_of_ok hfull]
  simp [crlf]

theorem null_spelled (fuel : Nat) (s : Bytes) :
    replyLoop defaultLimits (fuel + 1) (writeLine 36 (ascii "-1") ++ s) = .ok (.null, s) := by
  have hp : parseInt (ascii "-1") = some (-1) := by decide
  have hhead : (writeLine 36 (ascii "-1") ++ s).head? = some 36 := rfl
  rw [replyLoop, hhead]
  simp only [show ¬((36 : UInt8) = 43 ∨ (36 : UInt8) = 45) by decide, show ¬((36 : UInt8) = 58) by decide, ↓reduceIte]
  rw [andThen_of_ok (lineOf_writeLine (by decide) (by decide) (by decide) s), bulkBody]
  simp only [List.drop_succ_cons, List.drop_zero, hp]
  rfl

mutual

theorem reply_spelled : (r : Reply) → Sendable defaultLimits r → ∀ {fuel : Nat} (s : Bytes), depth r ≤ fuel + 1 →
    replyLoop defaultLimits (fuel + 1) (writeTo r ++ s) = .ok (r, s)
  | .simple _, hr, fuel, s, _ => status_spelled (Or.inl rfl) hr.1 hr.2 fuel s
  | .error _, hr, fuel, s, _ => status_spelled (Or.inr rfl) hr.1 hr.2 fuel s
  | .integer _, hr, fuel, s, _ => integer_spelled hr fuel s
  | .bulk _, hr, fuel, s, _ => bulk_spelled hr fuel s
  | .null, _, fuel, s, _ => null_spelled fuel s
  | .array rs, hr, fuel, s, hd => by
    have ha : (rs.length : Int) ≤ 1048576 := hr.1
    have hlen := length_formatNat_le (n := rs.length) (by omega)
    have hmax : ((formatNat rs.length).length : Int) + 1 ≤ defaultLimits.maxHeaderLen := by
      change _ ≤ (64 : Int)
      omega
    have hall := replies_spelled rs hr.2 s (Nat.le_of_succ_le_succ hd)
    have hhead : (writeTo (.array rs) ++ s).head? = some 42 := rfl
    have hsplit : writeTo (.array rs) ++ s = writeLine 42 (formatNat rs.length) ++ (writeAll rs ++ s) := by
      simp [writeTo, arrayLen]
    rw [replyLoop, hhead]
    simp only [show ¬((42 : UInt8) = 43 ∨ (42 : UInt8) = 45) by decide, show ¬((42 : UInt8) = 58) by decide,
      show ¬((42 : UInt8) = 36) by decide, ↓reduceIte]
    rw [hsplit, andThen_of_ok (lineOf_writeLine (by decide) (formatNat_no_lf _) hmax _), arrayBody]
    simp only [List.drop_succ_cons, List.drop_zero, parseInt_formatNat (show rs.length < 2 ^ 63 by omega)]
    rw [if_neg (by simp only [not_or, not_lt]; exact ⟨by omega, hr.1⟩), if_neg (by omega), Int.toNat_natCast,
      andThen_of_ok hall]

theorem replies_spelled : (rs : List Reply) → SendableAll defaultLimits rs → ∀ {fuel : Nat} (s : Bytes),
    depthAll rs ≤ fuel → timesOf (replyLoop defaultLimits fuel) rs.length (writeAll rs ++ s) = .ok (rs, s)
  | [], _, _, s, _ => rfl
  | r :: rs, hr, fuel, s, hd => by
    have hd' : depth r ≤ fuel ∧ depthAll rs ≤ fuel := by simpa [depthAll] using hd
    have hone : replyLoop defaultLimits fuel (writeTo r ++ (writeAll rs ++ s)) = .ok (r, writeAll rs ++ s) := by
      cases fuel with
      | zero => exact absurd hd'.1 (by have := depth_pos r; omega)
      | succ fuel => exact reply_spelled r hr.1 _ hd'.1
    have hall := replies_spelled rs hr.2 s hd'.2
    rw [List.length_cons, timesOf, writeAll, List.append_assoc, andThen_of_ok hone, andThen_of_ok hall]

end

end Bytes

/-! A client that has nothing unread reads a reply as it was sent, in whatever
pieces it comes. -/

section Pieces

variable {rd : Reader UInt8}

theorem steady_header {m : UInt8} {payload : Bytes} (hm : m = 58 ∨ m = 36) (hn : (10 : UInt8) ∉ payload)
    (hl : payload.length ≤ 20) (size fuel : Nat) (l : Layout) (s : Bytes) :
    Steady defaultLimits size fuel l (writeLine m payload ++ s) := by
  have hm10 : m ≠ 10 := by obtain rfl | rfl := hm <;> decide
  have hno : ¬ Split size defaultLimits.maxHeaderLen (writeLine m payload ++ s) := by
    refine not_split_writeLine hm10 hn ?_ size s
    change _ ≤ (64 : Int)
    omega
  have hhead : (writeLine m payload ++ s).head? = some m := rfl
  cases fuel with
  | zero => trivial
  | succ fuel =>
    rw [Steady, hhead]
    obtain rfl | rfl := hm
    · simpa using hno
    · simpa using hno

theorem headerOf_writeLine {m : UInt8} {payload : Bytes} (hm : m ≠ 10) (hn : (10 : UInt8) ∉ payload) (s : Bytes) :
    headerOf (writeLine m payload ++ s) = m :: payload ∧ afterLine (writeLine m payload ++ s) = s := by
  have hl : (10 : UInt8) ∉ m :: payload ++ [13] := by simpa using ⟨hm.symm, hn⟩
  rw [headerOf, afterLine, writeLine_split, (takeWhile_line hl s).1, (takeWhile_line hl s).2, stripEOL_crlf]
  exact ⟨rfl, rfl⟩

mutual

theorem steady_inner : (r : Reply) → Inner r → Sendable defaultLimits r → ∀ {size fuel : Nat} (l : Layout) (s : Bytes),
    depth r ≤ fuel → Steady defaultLimits size fuel l (writeTo r ++ s)
  | .simple _, hi, _, _, _, _, _, _ => hi.elim
  | .error _, hi, _, _, _, _, _, _ => hi.elim
  | .integer _, _, hr, size, fuel, l, s, _ =>
    steady_header (Or.inl rfl) (formatInt_no_lf _) (formatInt_length hr) size fuel l s
  | .bulk b, _, hr, size, fuel, l, s, _ => by
    have hb : (b.length : Int) ≤ 67108864 := hr
    have hlen := length_formatNat_le (n := b.length) (by omega)
    have hst := steady_header (Or.inr rfl) (formatNat_no_lf b.length) (by omega) size fuel l (b ++ crlf ++ s)
    simpa [writeTo, RespWrite.bulk] using hst
  | .null, _, _, size, fuel, l, s, _ => steady_header (Or.inr rfl) (by decide) (by decide) size fuel l s
  | .array rs, hi, hr, size, fuel, l, s, hd => by
    have ha : (rs.length : Int) ≤ 1048576 := hr.1
    have hlen := length_formatNat_le (n := rs.length) (by omega)
    have hsplit : writeTo (.array rs) ++ s = writeLine 42 (formatNat rs.length) ++ (writeAll rs ++ s) := by
      simp [writeTo, arrayLen]
    have hhead : (writeLine 42 (formatNat rs.length) ++ (writeAll rs ++ s)).head? = some 42 := rfl
    have hno : ¬ Split size defaultLimits.maxHeaderLen (writeLine 42 (formatNat rs.length) ++ (writeAll rs ++ s)) := by
      refine not_split_writeLine (by decide) (formatNat_no_lf _) ?_ size _
      change _ ≤ (64 : Int)
      omega
    obtain ⟨hheader, hafter⟩ := headerOf_writeLine (m := 42) (by decide) (formatNat_no_lf rs.length) (writeAll rs ++ s)
    have hcount : (announced (42 :: formatNat rs.length)).toNat = rs.length := by
      rw [announced, List.drop_succ_cons, List.drop_zero, parseInt_formatNat (by omega)]
      rfl
    cases fuel with
    | zero => trivial
    | succ fuel =>
      rw [hsplit, Steady, hhead, hheader, hafter, hcount]
      have hall := steady_innerAll rs hi hr.2 size
        ((l.peek size).afterPiece size (lineLength (writeLine 42 (formatNat rs.length) ++ (writeAll rs ++ s)))) s
        (Nat.le_of_succ_le_succ hd)
      simpa using ⟨hno, hall⟩

theorem steady_innerAll : (rs : List Reply) → InnerAll rs → SendableAll defaultLimits rs →
    ∀ (size : Nat) {fuel : Nat} (l : Layout) (s : Bytes), depthAll rs ≤ fuel →
    SteadyAll (Steady defaultLimits size fuel) (afterReply defaultLimits size fuel) (replyLoop defaultLimits fuel)
      rs.length l (writeAll rs ++ s)
  | [], _, _, _, _, _, _, _ => trivial
  | r :: rs, hi, hr, size, fuel, l, s, hd => by
    have hd' : depth r ≤ fuel ∧ depthAll rs ≤ fuel := by simpa [depthAll] using hd
    have hsplit : writeAll (r :: rs) ++ s = writeTo r ++ (writeAll rs ++ s) := by simp [writeAll]
    have hspell : replyLoop defaultLimits fuel (writeTo r ++ (writeAll rs ++ s)) = .ok (r, writeAll rs ++ s) := by
      cases fuel with
      | zero => exact absurd hd'.1 (by have := depth_pos r; omega)
      | succ fuel => exact reply_spelled r hr.1 _ hd'.1
    rw [hsplit, List.length_cons, SteadyAll, hspell]
    refine ⟨steady_inner r hi.1 hr.1 l _ hd'.1, fun x hx => ?_⟩
    cases hx
    exact steady_innerAll rs hi.2 hr.2 size _ s hd'.2

end

theorem lineLength_writeLine {m : UInt8} {payload : Bytes} (hm : m ≠ 10) (hn : (10 : UInt8) ∉ payload) (s : Bytes) :
    lineLength (writeLine m payload ++ s) = payload.length + 3 := by
  have hl : (10 : UInt8) ∉ m :: payload ++ [13] := by simpa using ⟨hm.symm, hn⟩
  rw [lineLength, writeLine_split, (takeWhile_line hl s).1]
  simp

theorem steady_status {m : UInt8} {payload : Bytes} (hm : m = 43 ∨ m = 45) (hn : (10 : UInt8) ∉ payload)
    {size : Nat} (hl : payload.length + 3 ≤ size) (hl' : payload.length + 3 ≤ clientBuffer) {l : Layout}
    (hu : l.unread = 0) (fuel : Nat) (s : Bytes) : Steady defaultLimits size fuel l (writeLine m payload ++ s) := by
  have hm10 : m ≠ 10 := by obtain rfl | rfl := hm <;> decide
  have hno : ¬ Split size defaultLimits.maxInlineLen (writeLine m payload ++ s) := by
    refine not_split_writeLine hm10 hn ?_ size s
    change _ ≤ (65536 : Int)
    change _ ≤ 4096 at hl'
    omega
  -- the fill puts the line at the front, so that the place shows the same byte
  have hkept : Kept size (l.peek size) (writeLine m payload ++ s) := by
    rw [kept_iff_of_fits (by rw [lineLength_writeLine hm10 hn]; exact hl), Layout.peek, if_pos hu]
    exact Or.inr (Or.inr Iff.rfl)
  have hhead : (writeLine m payload ++ s).head? = some m := rfl
  cases fuel with
  | zero => trivial
  | succ fuel =>
    rw [Steady, hhead]
    obtain rfl | rfl := hm
    · simpa using ⟨hno, hkept⟩
    · simpa using ⟨hno, hkept⟩

theorem readReply_pieces {r : Reply} (hr : Sendable defaultLimits r) (hn : Nested r) (hshort : Short r)
    (hsize : rd.size = clientBuffer) (hu : rd.unread = []) (hp : rd.pending = writeTo r) :
    ∃ rd', readReplyFrom defaultLimits rd = (.ok r, rd') ∧ rd'.pending = [] ∧ rd'.size = clientBuffer := by
  have hs : 0 < clientBuffer := by decide
  have hl : rd.layout.unread = 0 := by simp [Reader.layout, hu]
  have hdepth : depth r ≤ rd.pending.length + 1 := by
    have hle := depth_le_length r
    rw [hp]
    omega
  have hspell : replyLoop defaultLimits (rd.pending.length + 1) rd.pending = .ok (r, []) := by
    have h : replyLoop defaultLimits (rd.pending.length + 1) (writeTo r ++ []) = .ok (r, []) :=
      reply_spelled r hr [] hdepth
    rwa [List.append_nil, ← hp] at h
  have hsteady : Steady defaultLimits clientBuffer (rd.pending.length + 1) rd.layout (writeTo r ++ []) := by
    cases r with
    | simple s => exact steady_status (Or.inl rfl) hr.1 hshort hshort hl _ []
    | error s => exact steady_status (Or.inr rfl) hr.1 hshort hshort hl _ []
    | integer n => exact steady_inner (.integer n) trivial hr _ [] hdepth
    | bulk b => exact steady_inner (.bulk b) trivial hr _ [] hdepth
    | null => exact steady_inner .null trivial hr _ [] hdepth
    | array rs => exact steady_inner (.array rs) hn hr _ [] hdepth
  rw [List.append_nil, ← hp] at hsteady
  obtain ⟨rd', h₁, h₂, h₃, -⟩ := (decides_reply defaultLimits hs _ rd hsize r [] hspell).1 hsteady
  exact ⟨rd', h₁, h₂, h₃.trans hsize⟩

end Pieces

/-! The arrays that the handlers reply with hold bulks, nulls and arrays of
bulks. -/

section Handlers

def NestedOutcome (o : Outcome) : Prop := Nested (reply o)

theorem nested_bulkOrNull (v : Option Bytes) : Nested (bulkOrNull v) := by
  cases v <;> trivial

theorem always_flag (p : Handler Bool) (k : Handler Unit) :
    Always NestedOutcome (p >>= fun done => if done then k >>= fun _ => ok (.integer 1) else ok (.integer 0)) := by
  refine always_then _ fun done => ?_
  cases done with
  | false => trivial
  | true => exact always_then _ fun _ => trivial

theorem always_parsed {s msg : Bytes} {k : Int → Handler Outcome} (hk : ∀ n, Always NestedOutcome (k n)) :
    Always NestedOutcome (match parseInt s with | none => fail msg | some n => k n) := by
  cases parseInt s with
  | none => trivial
  | some n => exact hk n

theorem always_addTo (name : String) (logged : List Bytes) (key : Bytes) (delta : Int) :
    Always NestedOutcome (addTo name logged key delta) := by
  intro r
  cases r <;> trivial

theorem always_hDel (args : List Bytes) : Always NestedOutcome (hDel args) :=
  always_then _ fun _ => always_then _ fun _ => trivial

theorem always_expireIn (unit : Int) (args : List Bytes) : Always NestedOutcome (expireIn unit args) := by
  refine always_parsed fun n => ?_
  split_ifs
  · exact always_hDel _
  · exact always_flag _ _

theorem innerAll_bulks (bs : List Bytes) : InnerAll (bs.map .bulk) := by
  induction bs with
  | nil => trivial
  | cons b bs ih => exact ⟨trivial, ih⟩

theorem always_getAll (keys : List Bytes) : Always InnerAll (getAll keys) := by
  induction keys with
  | nil => trivial
  | cons key keys ih =>
    refine always_then _ fun v => always_bind ih fun rest hr => ⟨?_, hr⟩
    cases v <;> trivial

theorem always_nested_handler (h : Host) (args : List Bytes) :
    ∀ cmd ∈ commands h, Always NestedOutcome (cmd.handler args) := by
  simp only [commands, List.forall_mem_cons, List.not_mem_nil, false_implies, implies_true, and_true]
  refine ⟨?ping, trivial, ?set, always_then _ fun v => nested_bulkOrNull v, always_hDel args,
    always_then _ fun _ => trivial, always_addTo _ _ _ _, always_addTo _ _ _ _, ?append, always_then _ fun _ => trivial,
    always_expireIn _ args, always_expireIn _ args, always_parsed fun _ => always_flag _ _,
    always_parsed fun _ => always_flag _ _, always_flag _ _, ?ttl,
    always_then _ fun _ => always_then _ fun _ => trivial,
    ?select, always_then _ fun _ => trivial, trivial, ?client, always_bind (always_getAll args) fun _ hr => hr, ?mset,
    ?msetnx, always_then _ fun v => always_then _ fun _ => nested_bulkOrNull v, always_flag _ _, ?strlen,
    always_parsed fun _ => always_addTo _ _ _ _, always_parsed fun _ => always_addTo _ _ _ _,
    always_then _ fun ks => innerAll_bulks ks, ?scan⟩
  case ping => cases args <;> trivial
  case set =>
    unfold hSet
    cases setOptions h.cases ⟨0, false, .always⟩ (args.drop 2) with
    | error msg => trivial
    | ok o =>
      refine always_then _ fun done => ?_
      cases done with
      | false => trivial
      | true => exact always_then _ fun _ => always_then _ fun _ => trivial
  case append =>
    intro r
    cases r <;> trivial
  case ttl =>
    refine always_then _ fun v => ?_
    cases v with
    | none => trivial
    | some rem =>
      dsimp only
      split_ifs <;> trivial
  case select =>
    unfold hSelect
    split_ifs <;> trivial
  case client =>
    simp only [hClient]
    split_ifs <;> trivial
  case mset =>
    unfold hMSet
    split_ifs
    · trivial
    · exact always_then _ fun _ => always_then _ fun _ => trivial
  case msetnx =>
    unfold hMSetNX
    split_ifs
    · trivial
    · exact always_flag _ _
  case strlen =>
    intro v
    cases v <;> trivial
  case scan =>
    unfold hScan
    refine always_parsed fun cursor => ?_
    split_ifs
    · trivial
    · cases scanOptions h.cases [] (args.drop 1) with
      | error msg => trivial
      | ok pattern => exact always_then _ fun r => ⟨trivial, innerAll_bulks r.2, trivial⟩

theorem nested_execute (h : Host) (tokens : List Bytes) (s : Store c) (now : Readings) :
    Nested (Handler.run s now (execute h tokens)).1 := by
  simp only [execute, dispatch]
  cases parse h.cases tokens with
  | none => trivial
  | some p =>
    cases hf : findCommand h p.name with
    | none =>
      simp only [hf]
      trivial
    | some cmd =>
      simp only [hf]
      split_ifs
      · rw [CommandLines.run_reply]
        exact always_run (always_nested_handler h p.args cmd (CommandWrites.findCommand_mem hf)) s now
      · trivial

theorem nested_respond (h : Host) (requirePass : Bytes) (now : Readings) (authed : Bool) (w : World c)
    (tokens : Tokens) : Nested (respond h requirePass now authed w tokens).1.reply := by
  cases authed with
  | true => exact nested_execute h tokens.1 w.store now
  | false =>
    simp only [respond, Bool.false_eq_true, ↓reduceIte, Response.reply, gate]
    split_ifs <;> trivial

end Handlers

/-! A client and a server, one command at a time. -/

/-- How bytes are cut into pieces on their way; a number says how many bytes
more than one the next piece has. -/
def segment : List Nat → Bytes → List Bytes
  | _, [] => []
  | [], b :: bs => [b :: bs]
  | n :: ns, b :: bs => (b :: bs.take n) :: segment ns (bs.drop n)

theorem segment_ne_nil (cuts : List Nat) (bs : Bytes) : ∀ x ∈ segment cuts bs, x ≠ [] := by
  fun_induction segment cuts bs with
  | case1 => simp
  | case2 => simp
  | case3 n ns b bs ih => simpa using ih

theorem segment_flatten (cuts : List Nat) (bs : Bytes) : (segment cuts bs).flatten = bs := by
  fun_induction segment cuts bs with
  | case1 => rfl
  | case2 => simp
  | case3 n ns b bs ih => simp [ih]

def deliver (rd : Reader UInt8) (cuts : List Nat) (bs : Bytes) : Reader UInt8 where
  done := rd.done
  unread := rd.unread
  spare := rd.spare
  chunks := rd.chunks ++ segment cuts bs
  nonempty := fun x hx => (List.mem_append.mp hx).elim (rd.nonempty x) (segment_ne_nil cuts bs x)

theorem deliver_pending (rd : Reader UInt8) (cuts : List Nat) (bs : Bytes) :
    (deliver rd cuts bs).pending = rd.pending ++ bs := by
  simp [deliver, Reader.pending, segment_flatten]

def fresh : Out := ⟨[], false, ⟨[], []⟩⟩

/-- What `Do` sends on a connection without errors, and what the server does. -/
def request (args : List Bytes) : Bytes := (RespWriter.sendCommand connSink false args fresh).out.content

def response (r : Response) : Bytes := (send r fresh).out.content

/-- One `Do`: its arguments, how the bytes of the two directions are cut, and
what happens at the server before the command is executed. -/
structure Exchange (c : Config) where
  args : Tokens
  requestCuts : List Nat
  replyCuts : List Nat
  round : Round c

structure Link (c : Config) where
  client : Reader UInt8
  server : Reader UInt8
  authed : Bool
  world : World c

/-- `Do` of the client, with the round of the server that answers it. After a
read error the server has closed the connection. -/
def doArgs (h : Host) (requirePass : Bytes) (lim : Limits) (args : List Bytes) (requestCuts replyCuts : List Nat)
    (round : Round c) (l : Link c) : Except ReadErr Reply × Option (Link c) :=
  match readCommandFrom lim (deliver l.server requestCuts (request args)) with
  | (.error e, _) =>
    ((readReplyFrom defaultLimits (deliver l.client replyCuts (sendError e fresh).out.content)).1, none)
  | (.ok tokens, server) =>
    if ht : tokens ≠ [] then
      let r := respond h requirePass round.now l.authed (round.meanwhile l.world) ⟨tokens, ht⟩
      let got := readReplyFrom defaultLimits (deliver l.client replyCuts (response r.1))
      (got.1, some ⟨got.2, server, r.2.1, r.2.2⟩)
    else (.error .eof, none)

def roundTrip (h : Host) (requirePass : Bytes) (lim : Limits) (x : Exchange c) (l : Link c) :
    Except ReadErr Reply × Option (Link c) :=
  doArgs h requirePass lim x.args.1 x.requestCuts x.replyCuts x.round l

def talk (h : Host) (requirePass : Bytes) (lim : Limits) : List (Exchange c) → Link c →
    List (Except ReadErr Reply) × World c
  | [], l => ([], l.world)
  | x :: xs, l =>
    match roundTrip h requirePass lim x l with
    | (got, none) => ([got], l.world)
    | (got, some l) => (got :: (talk h requirePass lim xs l).1, (talk h requirePass lim xs l).2)

def dial (requirePass : Bytes) (w : World c) (client server : Reader UInt8) : Link c :=
  ⟨client, server, requirePass = [], w⟩

def Exchange.turn (x : Exchange c) : Turn c := ⟨x.round.meanwhile, x.round.now, x.args⟩

theorem content_of_flushed {f : Out → Out} {p : Bytes} (hf : Writes connSink f p)
    (hbuf : (f fresh).failed = false → (f fresh).buf = []) : (f fresh).out.content = p := by
  have hputs := hf fresh
  have hok : (f fresh).failed = false := by
    by_contra hno
    obtain ⟨q, s, hcalls, hfail⟩ := hputs.cause rfl (by simpa using hno)
    have hnone : s.faults = [] :=
      hcalls.keeps (P := fun s => s.faults = []) (fun q s hs => by simp [connSink, Conn.write, hs]) rfl
    simp [connSink, Conn.write, hnone, taken] at hfail
  have hs := hputs.stream hok
  rw [hbuf hok, List.append_nil] at hs
  exact hs

theorem request_eq (args : List Bytes) : request args = encodeCommand args :=
  content_of_flushed (RespWriter.writes_sendCommand args) (RespWriter.flushes_sendCommand args fresh)

theorem response_eq (r : Response) : response r = writeTo r.reply := content_of_flushed (writes_send r) send_buf

/-- Between two calls both sides have read everything that was sent. -/
structure Idle (l : Link c) : Prop where
  clientSize : l.client.size = clientBuffer
  clientRead : l.client.pending = []
  serverSize : l.server.size = connBuffer
  serverRead : l.server.pending = []

section Talk

variable {h : Host} {requirePass : Bytes} {lim : Limits}

theorem roundTrip_reads (hh : 21 ≤ lim.maxHeaderLen) (hb : lim.maxBulkLen < 2 ^ 63) (ha : lim.maxArgs < 2 ^ 63)
    {x : Exchange c} {l : Link c} (hl : Idle l) (hx : Within lim x.args.1)
    (hfit : let r := (respond h requirePass x.round.now l.authed (x.round.meanwhile l.world) x.args).1.reply
      Sendable defaultLimits r ∧ Short r) :
    let r := respond h requirePass x.round.now l.authed (x.round.meanwhile l.world) x.args
    ∃ l', roundTrip h requirePass lim x l = (.ok r.1.reply, some l') ∧ Idle l' ∧ l'.authed = r.2.1 ∧
      l'.world = r.2.2 := by
  intro r
  have hread : readCommand connBuffer lim (encodeCommand x.args.1 ++ []) = .ok (x.args.1, []) :=
    readCommand_encode (by decide) hh hb ha hx []
  set input := deliver l.server x.requestCuts (request x.args.1) with hinput
  have hsize : input.size = connBuffer := hl.serverSize
  have hpend : input.pending = encodeCommand x.args.1 ++ [] := by
    rw [hinput, deliver_pending, hl.serverRead, request_eq, List.nil_append, List.append_nil]
  have hpos : 0 < input.size := by rw [hsize]; decide
  obtain ⟨server, hcmd, hrest, hssize⟩ := (refines_readCommand lim).ok hpos (hsize.symm ▸ hpend.symm ▸ hread)
  set output := deliver l.client x.replyCuts (response r.1) with houtput
  have hunread : output.unread = [] := (List.append_eq_nil_iff.mp hl.clientRead).1
  have hopend : output.pending = writeTo r.1.reply := by
    rw [houtput, deliver_pending, hl.clientRead, response_eq, List.nil_append]
  have hosize : output.size = clientBuffer := hl.clientSize
  obtain ⟨client, hreply, hcrest, hcsize⟩ := readReply_pieces hfit.1 (nested_respond ..) hfit.2 hosize hunread hopend
  refine ⟨⟨client, server, r.2.1, r.2.2⟩, ?_, ⟨hcsize, hcrest, hssize.trans hsize, hrest⟩, rfl, rfl⟩
  rw [roundTrip, doArgs, ← hinput, hcmd]
  dsimp only
  rw [dif_pos x.args.2]
  change ((readReplyFrom defaultLimits output).1, some (⟨(readReplyFrom defaultLimits output).2, _, _, _⟩ : Link c)) = _
  rw [hreply]

theorem talk_reads (hh : 21 ≤ lim.maxHeaderLen) (hb : lim.maxBulkLen < 2 ^ 63) (ha : lim.maxArgs < 2 ^ 63)
    {xs : List (Exchange c)} {l : Link c} (hl : Idle l) (hx : ∀ x ∈ xs, Within lim x.args.1)
    (hfit : ∀ r ∈ (session h requirePass l.authed l.world (xs.map Exchange.turn)).1,
      Sendable defaultLimits r.reply ∧ Short r.reply) :
    talk h requirePass lim xs l =
      ((session h requirePass l.authed l.world (xs.map Exchange.turn)).1.map fun r => .ok r.reply,
        (session h requirePass l.authed l.world (xs.map Exchange.turn)).2.2) := by
  induction xs generalizing l with
  | nil => rfl
  | cons x xs ih =>
    obtain ⟨hx, hxs⟩ := List.forall_mem_cons.mp hx
    obtain ⟨hone, hrest⟩ := List.forall_mem_cons.mp hfit
    obtain ⟨l', htrip, hl', hauthed, hworld⟩ := roundTrip_reads hh hb ha hl hx hone
    have htail := ih hl' hxs (by rw [hauthed, hworld]; exact hrest)
    rw [talk, htrip]
    dsimp only
    rw [htail, hauthed, hworld]
    rfl

/-- Successive commands of a client, within the limits of the server, whose
replies have lines that fit the client's buffer: however the bytes are cut on
their way, each call returns the reply that the server executed. -/
theorem client_gets_replies (hh : 21 ≤ lim.maxHeaderLen) (hb : lim.maxBulkLen < 2 ^ 63) (ha : lim.maxArgs < 2 ^ 63)
    (h : Host) (requirePass : Bytes) (w : World c) {client server : Reader UInt8}
    (hidle : Idle (dial requirePass w client server)) {xs : List (Exchange c)}
    (hx : ∀ x ∈ xs, Within lim x.args.1)
    (hfit : ∀ r ∈ (connect h requirePass w (xs.map Exchange.turn)).1, Sendable defaultLimits r.reply ∧ Short r.reply) :
    talk h requirePass lim xs (dial requirePass w client server) =
      ((connect h requirePass w (xs.map Exchange.turn)).1.map fun r => .ok r.reply,
        (connect h requirePass w (xs.map Exchange.turn)).2.2) :=
  talk_reads hh hb ha hidle hx hfit

end Talk

def blank (n : Nat) : Reader UInt8 := ⟨[], [], List.replicate n 0, [], List.forall_mem_nil _⟩

def setThenGet : List (Exchange twoShards) :=
  [⟨⟨[ascii "SET", ascii "k", ascii "v"], List.cons_ne_nil _ _⟩, [3, 0, 7], [1], ⟨id, frozen (instant 0)⟩⟩,
    ⟨⟨[ascii "GET", ascii "k"], List.cons_ne_nil _ _⟩, [], [0, 0], ⟨id, frozen (instant 0)⟩⟩]

theorem idle_blank : Idle (dial [] emptyWorld (blank clientBuffer) (blank connBuffer)) :=
  ⟨by simp [dial, blank, Reader.size_eq], rfl, by simp [dial, blank, Reader.size_eq], rfl⟩

theorem setThenGet_replies : (connect host [] emptyWorld (setThenGet.map Exchange.turn)).1 =
    [.executed okText, .executed (.bulk (ascii "v"))] := rfl

theorem setThenGet_reads :
    talk host [] defaultLimits setThenGet (dial [] emptyWorld (blank clientBuffer) (blank connBuffer)) =
      ((connect host [] emptyWorld (setThenGet.map Exchange.turn)).1.map fun r => .ok r.reply,
        (connect host [] emptyWorld (setThenGet.map Exchange.turn)).2.2) := by
  refine client_gets_replies (by decide) (by decide) (by decide) host [] emptyWorld idle_blank (by decide) ?_
  rw [setThenGet_replies]
  simp [Response.reply, okText, Sendable, Short, defaultLimits, clientBuffer, ascii]

end MemX.CliClient
