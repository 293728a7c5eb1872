import MemX.RespBuffered

namespace MemX.RespReply

open MachineInt DecimalText BufReader RespRead RespWrite RespRoundTrip RespBuffered

open ReadM (throw)

def invalidInteger : ReadErr := .protocol (ascii "invalid integer reply")

def invalidArray : ReadErr := .protocol (ascii "invalid array length")

/-- A simple string or an error. The type byte is looked at a second time,
through the view that `Peek` gave, after the line has been read. -/
def readStatusFrom (lim : Limits) : ReadM Reply := fun rd =>
  match readLineFrom lim.maxInlineLen (ascii "simple/error line") rd with
  | (.error e, rd') => (.error e, rd')
  | (.ok line, rd') =>
    if line = [] then (.error (.protocol (ascii "invalid empty reply")), rd')
    else if rd'.buffer[rd.index]? = some 43 then (.ok (.simple (line.drop 1)), rd')
    else (.ok (.error (line.drop 1)), rd')

def readIntegerFrom (lim : Limits) : ReadM Reply := do
  let line ← readLineFrom lim.maxHeaderLen (ascii "integer")
  if line.length < 2 then throw invalidInteger
  else
    match parseInt (line.drop 1) with
    | none => throw invalidInteger
    | some n => ReadM.pure (.integer n)

def readBulkReplyFrom (lim : Limits) : ReadM Reply := do
  let line ← readLineFrom lim.maxHeaderLen (ascii "bulk length")
  match parseInt (line.drop 1) with
  | none => throw invalidBulk
  | some n =>
    if n < -1 ∨ n > lim.maxBulkLen then throw invalidBulk
    else if n = -1 then ReadM.pure .null
    else do
      let buf ← readFullFrom (n.toNat + 2)
      if buf.drop n.toNat = [13, 10] then ReadM.pure (.bulk (buf.take n.toNat))
      else throw (.protocol (ascii "invalid bulk terminator"))

def readArrayReplyFrom (lim : Limits) (element : ReadM Reply) : ReadM Reply := do
  let line ← readLineFrom lim.maxHeaderLen (ascii "array length")
  match parseInt (line.drop 1) with
  | none => throw invalidArray
  | some n =>
    if n < -1 ∨ n > lim.maxArgs then throw invalidArray
    else if n = -1 then ReadM.pure .null
    else do
      let rs ← times element n.toNat
      ReadM.pure (.array rs)

def dispatchReply (lim : Limits) (element : ReadM Reply) (b : UInt8) : ReadM Reply :=
  if b = 43 ∨ b = 45 then readStatusFrom lim
  else if b = 58 then readIntegerFrom lim
  else if b = 36 then readBulkReplyFrom lim
  else if b = 42 then readArrayReplyFrom lim element
  else throw (.protocol (ascii "invalid reply type"))

def readReplyLoop (lim : Limits) : Nat → ReadM Reply
  | 0 => throw .eof
  | fuel + 1 => fun rd =>
    match rd.peek with
    | (none, rd) => (.error .eof, rd)
    | (some b, rd) => dispatchReply lim (readReplyLoop lim fuel) b rd

/-- Every array takes bytes for its header, so the input bounds the depth. -/
def readReplyFrom (lim : Limits) : ReadM Reply := fun rd => readReplyLoop lim (rd.pending.length + 1) rd

theorem readReplyLoop_peek {lim : Limits} {fuel : Nat} {rd rd' : Reader UInt8} {b : UInt8}
    (h : rd.peek = (some b, rd')) :
    readReplyLoop lim (fuel + 1) rd = dispatchReply lim (readReplyLoop lim fuel) b rd' := by
  rw [readReplyLoop]
  beta_reduce
  rw [h]

mutual

/-- The replies that a reader with the limits `lim` can receive. -/
def Sendable (lim : Limits) : Reply → Prop
  | .simple s => (10 : UInt8) ∉ s ∧ (s.length : Int) < lim.maxInlineLen
  | .error s => (10 : UInt8) ∉ s ∧ (s.length : Int) < lim.maxInlineLen
  | .integer n => InRange n
  | .bulk b => (b.length : Int) ≤ lim.maxBulkLen
  | .null => True
  | .array rs => (rs.length : Int) ≤ lim.maxArgs ∧ SendableAll lim rs

def SendableAll (lim : Limits) : List Reply → Prop
  | [] => True
  | r :: rs => Sendable lim r ∧ SendableAll lim rs

end

mutual

def depth : Reply → Nat
  | .simple _ => 1
  | .error _ => 1
  | .integer _ => 1
  | .bulk _ => 1
  | .null => 1
  | .array rs => depthAll rs + 1

def depthAll : List Reply → Nat
  | [] => 0
  | r :: rs => max (depth r) (depthAll rs)

end

theorem depth_pos (r : Reply) : 0 < depth r := by
  cases r <;> simp [depth]

mutual

theorem depth_le_length : (r : Reply) → depth r ≤ (writeTo r).length
  | .simple _ => by simp [depth, writeTo, writeLine]
  | .error _ => by simp [depth, writeTo, writeLine]
  | .integer _ => by simp [depth, writeTo, writeLine]
  | .bulk _ => by simp [depth, writeTo, RespWrite.bulk, writeLine]
  | .null => by simp [depth, writeTo, writeLine]
  | .array rs => by
    have h := depthAll_le_length rs
    simp only [depth, writeTo, arrayLen, writeLine, List.length_append, List.length_cons]
    omega

theorem depthAll_le_length : (rs : List Reply) → depthAll rs ≤ (writeAll rs).length
  | [] => by simp [depthAll]
  | r :: rs => by
    have h := depth_le_length r
    have h' := depthAll_le_length rs
    simp only [depthAll, writeAll, List.length_append]
    omega

end

section Buffered

variable {max : Int} {what line suffix : Bytes} {rd : Reader UInt8}

theorem readLineFrom_buffered (hu : rd.unread = line ++ (crlf ++ suffix)) (hn : (10 : UInt8) ∉ line)
    (hmax : line.length ≤ max) : readLineFrom max what rd = (.ok line, rd.advance (line.length + 2)) := by
  have hsplit : rd.unread = (line ++ [13]) ++ 10 :: suffix := by simp [hu, crlf]
  have hm : (10 : UInt8) ∈ rd.unread := by simp [hsplit]
  have hne : ∀ b ∈ line ++ [13], decide (b ≠ 10) = true := by
    intro b hb
    have : b ≠ 10 := by
      rintro rfl
      simp [hn] at hb
    simpa using this
  have htake : rd.unread.takeWhile (· ≠ 10) = line ++ [13] := by
    rw [hsplit, List.takeWhile_append_of_pos hne]
    simp
  rw [readLineFrom, readLineLoopFrom]
  beta_reduce
  rw [Reader.readSlice_buffered hm, htake]
  simp only [List.nil_append, stripEOL_crlf, List.length_append, List.length_singleton]
  rw [if_neg (by omega)]

theorem readFullFrom_buffered {n : Nat} (h : n ≤ rd.unread.length) :
    readFullFrom n rd = (.ok (rd.unread.take n), rd.advance n) := by
  rw [readFullFrom, Reader.readFull_buffered h]
  simp [h]

theorem bind_ok {α β : Type} {x : ReadM α} {f : α → ReadM β} {a : α} {rd' : Reader UInt8} (h : x rd = (.ok a, rd')) :
    (x >>= f) rd = f a rd' := by
  change ReadM.bind x f rd = _
  rw [ReadM.bind, h]

theorem header_buffered {m : UInt8} {payload : Bytes} (hm : m ≠ 10) (hu : rd.unread = writeLine m payload ++ suffix)
    (hn : (10 : UInt8) ∉ payload) (hmax : payload.length + 1 ≤ max) :
    readLineFrom max what rd = (.ok (m :: payload), rd.advance (writeLine m payload).length) := by
  have hsplit : rd.unread = (m :: payload) ++ (crlf ++ suffix) := by simp [hu, writeLine]
  rw [readLineFrom_buffered hsplit (by simpa using ⟨hm.symm, hn⟩) (by simpa using hmax)]
  simp [writeLine, crlf]

end Buffered

section RoundTrip

variable {lim : Limits} (hh : 21 ≤ lim.maxHeaderLen) (hb : lim.maxBulkLen < 2 ^ 63)

theorem status_buffered {m : UInt8} {s suffix : Bytes} (hm : m = 43 ∨ m = 45) (hn : (10 : UInt8) ∉ s)
    (hl : (s.length : Int) < lim.maxInlineLen) {rd : Reader UInt8} (hu : rd.unread = writeLine m s ++ suffix) :
    readStatusFrom lim rd = (.ok (if m = 43 then .simple s else .error s), rd.advance (writeLine m s).length) := by
  have hm10 : m ≠ 10 := by rcases hm with rfl | rfl <;> decide
  have hbyte : (rd.advance (writeLine m s).length).buffer[rd.index]? = some m := by
    rw [Reader.advance_buffer, Reader.buffer, hu, Reader.index, List.getElem?_append_right le_rfl, Nat.sub_self]
    rfl
  rw [readStatusFrom, header_buffered hm10 hu hn (by omega)]
  simp only [hbyte, reduceCtorEq, ↓reduceIte, List.drop_succ_cons, List.drop_zero, Option.some.injEq]
  split <;> rfl

theorem formatInt_no_lf (n : Int) : (10 : UInt8) ∉ formatInt n := by
  unfold formatInt
  split
  · simpa using formatNat_no_lf _
  · exact formatNat_no_lf _

include hh

theorem integer_buffered {n : Int} (hr : InRange n) {suffix : Bytes} {rd : Reader UInt8}
    (hu : rd.unread = writeLine 58 (formatInt n) ++ suffix) :
    readIntegerFrom lim rd = (.ok (.integer n), rd.advance (writeLine 58 (formatInt n)).length) := by
  have hlen := formatInt_length hr
  have hne : formatInt n ≠ [] := by
    unfold formatInt
    split
    · simp
    · exact formatNat_ne_nil _
  have hpos := List.length_pos_iff.mpr hne
  rw [readIntegerFrom, bind_ok (header_buffered (by decide) hu (formatInt_no_lf n) (by omega))]
  simp only [List.length_cons, List.drop_succ_cons, List.drop_zero, parseInt_formatInt hr]
  rw [if_neg (by omega)]
  rfl

include hb in
theorem bulk_buffered {b suffix : Bytes} (hl : (b.length : Int) ≤ lim.maxBulkLen) {rd : Reader UInt8}
    (hu : rd.unread = RespWrite.bulk b ++ suffix) :
    readBulkReplyFrom lim rd = (.ok (.bulk b), rd.advance (RespWrite.bulk b).length) := by
  have hlen := formatNat_length (by omega : 0 < 19) (by omega : b.length < 10 ^ 19)
  have hsplit : rd.unread = writeLine 36 (formatNat b.length) ++ (b ++ crlf ++ suffix) := by simp [hu, RespWrite.bulk]
  have hrest := Reader.advance_unread hsplit
  have hp : parseInt (formatNat b.length) = some (b.length : Int) := parseInt_formatNat (by omega)
  rw [readBulkReplyFrom, bind_ok (header_buffered (by decide) hsplit (formatNat_no_lf _) (by omega))]
  simp only [List.drop_succ_cons, List.drop_zero, hp]
  rw [if_neg (by omega), if_neg (by omega), bind_ok (readFullFrom_buffered (by simp [hrest, crlf]))]
  have htake : (b ++ crlf ++ suffix).take (b.length + 2) = b ++ crlf := by simp [crlf, List.take_append]
  rw [hrest, Reader.advance_advance]
  simp only [Int.toNat_natCast, htake]
  rw [if_pos (by simp [crlf])]
  simp [ReadM.pure, RespWrite.bulk, crlf]

theorem null_buffered {suffix : Bytes} {rd : Reader UInt8} (hu : rd.unread = writeLine 36 (ascii "-1") ++ suffix)
    (h0 : -1 ≤ lim.maxBulkLen) :
    readBulkReplyFrom lim rd = (.ok .null, rd.advance (writeLine 36 (ascii "-1")).length) := by
  have hp : parseInt (ascii "-1") = some (-1) := by decide
  rw [readBulkReplyFrom, bind_ok (header_buffered (by decide) hu (by decide) (by
    have : (ascii "-1").length = 2 := rfl
    omega))]
  simp only [List.drop_succ_cons, List.drop_zero, hp]
  rw [if_neg (by omega), if_pos trivial]
  rfl

end RoundTrip

mutual

theorem readReplyLoop_buffered {lim : Limits} (hh : 21 ≤ lim.maxHeaderLen) (hb : lim.maxBulkLen < 2 ^ 63)
    (ha : lim.maxArgs < 2 ^ 63) (h0 : -1 ≤ lim.maxBulkLen) : (r : Reply) → Sendable lim r →
    ∀ {fuel : Nat} {rd : Reader UInt8} {suffix : Bytes}, depth r ≤ fuel + 1 → rd.unread = writeTo r ++ suffix →
    readReplyLoop lim (fuel + 1) rd = (.ok r, rd.advance (writeTo r).length)
  | .simple s, hr, fuel, rd, suffix, _, hu => by
    rw [readReplyLoop_peek (Reader.peek_buffered hu)]
    exact status_buffered (Or.inl rfl) hr.1 hr.2 hu
  | .error s, hr, fuel, rd, suffix, _, hu => by
    rw [readReplyLoop_peek (Reader.peek_buffered hu)]
    exact status_buffered (Or.inr rfl) hr.1 hr.2 hu
  | .integer n, hr, fuel, rd, suffix, _, hu => by
    rw [readReplyLoop_peek (Reader.peek_buffered hu)]
    exact integer_buffered hh hr hu
  | .bulk b, hr, fuel, rd, suffix, _, hu => by
    rw [readReplyLoop_peek (Reader.peek_buffered hu)]
    exact bulk_buffered hh hb hr hu
  | .null, _, fuel, rd, suffix, _, hu => by
    rw [readReplyLoop_peek (Reader.peek_buffered hu)]
    exact null_buffered hh hu h0
  | .array rs, hr, fuel, rd, suffix, hd, hu => by
    have hn := hr.1
    have hlen := formatNat_length (by omega : 0 < 19) (by omega : rs.length < 10 ^ 19)
    have hsplit : rd.unread = writeLine 42 (formatNat rs.length) ++ (writeAll rs ++ suffix) := by
      simp [hu, writeTo, arrayLen]
    have hp : parseInt (formatNat rs.length) = some (rs.length : Int) := parseInt_formatNat (by omega)
    have hall := timesReply_buffered hh hb ha h0 rs hr.2 (by simpa [depth] using hd)
      (Reader.advance_unread hsplit)
    rw [readReplyLoop_peek (Reader.peek_buffered hu)]
    change readArrayReplyFrom lim (readReplyLoop lim fuel) rd = _
    rw [readArrayReplyFrom, bind_ok (header_buffered (by decide) hsplit (formatNat_no_lf _) (by omega))]
    simp only [List.drop_succ_cons, List.drop_zero, hp]
    rw [if_neg (by omega), if_neg (by omega), Int.toNat_natCast, bind_ok hall, Reader.advance_advance]
    simp [ReadM.pure, writeTo, arrayLen]

theorem timesReply_buffered {lim : Limits} (hh : 21 ≤ lim.maxHeaderLen) (hb : lim.maxBulkLen < 2 ^ 63)
    (ha : lim.maxArgs < 2 ^ 63) (h0 : -1 ≤ lim.maxBulkLen) : (rs : List Reply) → SendableAll lim rs →
    ∀ {fuel : Nat} {rd : Reader UInt8} {suffix : Bytes}, depthAll rs ≤ fuel → rd.unread = writeAll rs ++ suffix →
    times (readReplyLoop lim fuel) rs.length rd = (.ok rs, rd.advance (writeAll rs).length)
  | [], _, fuel, rd, suffix, _, _ => by
    simp [times, ReadM.pure, writeAll, Reader.advance]
  | r :: rs, hr, fuel, rd, suffix, hd, hu => by
    have hsplit : rd.unread = writeTo r ++ (writeAll rs ++ suffix) := by simp [hu, writeAll]
    have hd' : depth r ≤ fuel ∧ depthAll rs ≤ fuel := by simpa [depthAll] using hd
    have hall := timesReply_buffered hh hb ha h0 rs hr.2 hd'.2 (Reader.advance_unread hsplit)
    have hpos := depth_pos r
    obtain ⟨f, rfl⟩ : ∃ f, fuel = f + 1 := ⟨fuel - 1, by omega⟩
    have hone := readReplyLoop_buffered hh hb ha h0 r hr.1 hd'.1 hsplit
    rw [List.length_cons, times, bind_ok hone, bind_ok hall, Reader.advance_advance]
    simp [ReadM.pure, writeAll]

end

/-- Replies are read back from the buffer with the bytes after them left
unread, so that no reply's bytes begin another's. -/
theorem reply_roundtrip {lim : Limits} (hh : 21 ≤ lim.maxHeaderLen) (hb : lim.maxBulkLen < 2 ^ 63)
    (ha : lim.maxArgs < 2 ^ 63) (h0 : -1 ≤ lim.maxBulkLen) :
    (∀ r, Sendable lim r → ∀ (rd : Reader UInt8) (suffix : Bytes), rd.unread = writeTo r ++ suffix →
      ∃ rd', readReplyFrom lim rd = (.ok r, rd') ∧ rd'.unread = suffix ∧ rd'.chunks = rd.chunks) ∧
    ∀ r r', Sendable lim r → Sendable lim r' → writeTo r <+: writeTo r' → r = r' := by
  have hread : ∀ r, Sendable lim r → ∀ (rd : Reader UInt8) (suffix : Bytes), rd.unread = writeTo r ++ suffix →
      readReplyFrom lim rd = (.ok r, rd.advance (writeTo r).length) := by
    intro r hr rd suffix hu
    have hd := depth_le_length r
    refine readReplyLoop_buffered hh hb ha h0 r hr ?_ hu
    simp only [Reader.pending, hu, List.length_append]
    omega
  refine ⟨fun r hr rd suffix hu => ⟨_, hread r hr rd suffix hu, Reader.advance_unread hu, rfl⟩, ?_⟩
  intro r r' hr hr' hp
  obtain ⟨t, ht⟩ := hp
  have h₁ := hread r hr ⟨[], writeTo r', [], [], by simp⟩ t ht.symm
  have h₂ := hread r' hr' ⟨[], writeTo r', [], [], by simp⟩ [] (by simp)
  rw [h₁] at h₂
  cases h₂
  rfl

def buffered (b : Bytes) : Reader UInt8 := ⟨[], b, [], [], by simp⟩

theorem reply_roundtrip_scan :
    (∃ rd', readReplyFrom defaultLimits
        (buffered (writeTo (.array [.bulk (ascii "0"), .array [.null]]) ++ ascii "+OK")) =
      (.ok (.array [.bulk (ascii "0"), .array [.null]]), rd') ∧ rd'.unread = ascii "+OK" ∧ rd'.chunks = []) ∧
    ∀ r r', Sendable defaultLimits r → Sendable defaultLimits r' → writeTo r <+: writeTo r' → r = r' :=
  ⟨(reply_roundtrip (by decide) (by decide) (by decide) (by decide)).1 _
      (by simp [Sendable, SendableAll, defaultLimits, ascii]) _ _ rfl,
    (reply_roundtrip (by decide) (by decide) (by decide) (by decide)).2⟩

/-- Under a limit below -1 no null is accepted. -/
theorem null_refused_by_negative_limit :
    Sendable ⟨-2, 1, 64, 64⟩ .null ∧
      (readReplyFrom ⟨-2, 1, 64, 64⟩ (buffered (writeTo .null))).1 = .error invalidBulk :=
  ⟨trivial, rfl⟩

end MemX.RespReply
