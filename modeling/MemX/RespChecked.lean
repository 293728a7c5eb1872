import MemX.CheckedRun
import MemX.RespReplyView
import MemX.RespInline

namespace MemX.RespChecked

open MachineInt DecimalText BufReader RespRead RespWrite RespRoundTrip RespConsume RespBuffered RespReply RespInline
open CheckedRun Prog

/-- The buffers that are asked for with a size: the `blen+2` bytes of a
payload, the slots of a multibulk command or of an array reply, and the list
that `bytes.Fields` makes. A line grows with what `ReadSlice` returns. -/
inductive Request
  | payload (bytes : Int)
  | array (slots : Int)
  | fields (slots : Int)
deriving DecidableEq

/-- The readers with the checks that the runtime makes of every index, every
slice and every size. -/
abbrev Checked : Type → Type := Prog Request ReadErr (Reader UInt8)

def nextSlice : ReadM (Reader.Slice UInt8) := fun rd => (.ok (rd.readSlice 10).1, (rd.readSlice 10).2)

def peekOne : ReadM Bytes := fun rd =>
  match rd.peek with
  | (none, rd) => (.error .eof, rd)
  | (some b, rd) => (.ok [b], rd)

def stripChecked (line : Bytes) : Checked Bytes := do
  let line ← slice line 0 (line.length - 1)
  if line.length > 0 then
    let b ← index line (line.length - 1)
    if b = 13 then slice line 0 (line.length - 1) else ret line
  else ret line

def readLineLoopChecked (max : Int) (what : Bytes) : Nat → Bytes → Checked Bytes
  | 0, _ => fail .eof
  | fuel + 1, line => do
    match ← lift nextSlice with
    | .found frag =>
      let line ← stripChecked (line ++ frag)
      if line.length > max then fail (.protocol (ascii "too big " ++ what)) else ret line
    | .full frag =>
      if (line ++ frag).length > max then fail (.protocol (ascii "too big " ++ what))
      else readLineLoopChecked max what fuel (line ++ frag)
    | .eof => fail .eof

def readLineChecked (max : Int) (what : Bytes) : Checked Bytes := fun rd =>
  readLineLoopChecked max what (rd.pending.length + 1) [] rd

def badEnd (buf : Bytes) (blen : Int) : Checked Bool := do
  let cr ← index buf blen
  if cr ≠ 13 then ret true
  else
    let lf ← index buf (wrap64 (blen + 1))
    ret (lf ≠ 10)

/-- The payload of a bulk string, the same for commands and replies but for
the error of a wrong terminator. -/
def payloadChecked {α : Type} (wrap : Bytes → α) (blen : Int) (bad : ReadErr) : Checked α := do
  make .payload (wrap64 (blen + 2))
  let buf ← lift (readFullFrom (wrap64 (blen + 2)).toNat)
  if ← badEnd buf blen then fail bad
  else
    let data ← slice buf 0 blen
    ret (wrap data)

def notDollar (bl : Bytes) : Checked Bool :=
  if bl.length = 0 then ret true
  else do
    let b ← index bl 0
    ret (b ≠ 36)

def gotInstead (bl : Bytes) : Checked Bytes :=
  if bl.length > 0 then do
    let b ← index bl 0
    ret (Utf8Runes.encodeRune b.toNat)
  else ret (ascii "?")

def readBulkChecked (lim : Limits) : Checked Bytes := do
  let bl ← readLineChecked lim.maxHeaderLen (ascii "header line")
  if ← notDollar bl then
    let c ← gotInstead bl
    fail (.protocol (ascii "expected '$', got '" ++ c ++ ascii "'"))
  else
    let digits ← slice bl 1 bl.length
    match parseInt digits with
    | none => fail invalidBulk
    | some blen => if blen < 0 ∨ blen > lim.maxBulkLen then fail invalidBulk else payloadChecked id blen invalidBulk

/-- The loop of `readMultibulk` from `i` on, with `k` of the `n` arguments to
come. -/
def readBulksChecked (lim : Limits) (n : Int) : Nat → Int → Checked (List Bytes)
  | 0, _ => ret []
  | k + 1, i => do
    let arg ← readBulkChecked lim
    store i n
    let args ← readBulksChecked lim n k (i + 1)
    ret (arg :: args)

def readMultibulkChecked (lim : Limits) : Checked (List Bytes) := do
  let line ← readLineChecked lim.maxHeaderLen (ascii "header line")
  let digits ← slice line 1 line.length
  match parseInt digits with
  | none => fail invalidMultibulk
  | some n =>
    if n ≤ 0 ∨ n > lim.maxArgs then fail invalidMultibulk
    else do
      make .array n
      readBulksChecked lim n n.toNat 0

def readInlineChecked (lim : Limits) : Checked (List Bytes) := do
  let line ← readLineChecked lim.maxInlineLen (ascii "inline request")
  let fields := Utf8Runes.fields line
  make .fields fields.length
  if fields = [] then fail (.protocol (ascii "empty command"))
  else if fields.length > lim.maxArgs then fail (.protocol (ascii "too many arguments"))
  else ret fields

def readCommandChecked (lim : Limits) : Checked (List Bytes) := do
  let b ← lift peekOne
  let first ← index b 0
  if first = 42 then readMultibulkChecked lim else readInlineChecked lim

/-- `b` is still the view of the buffer at the place where `Peek` was called,
whatever stands there when the line has been read. -/
def readStatusChecked (lim : Limits) : Checked Reply := do
  let place ← lift fun rd => (.ok rd.index, rd)
  let line ← readLineChecked lim.maxInlineLen (ascii "simple/error line")
  if line = [] then fail (.protocol (ascii "invalid empty reply"))
  else
    let msg ← slice line 1 line.length
    let b ← lift fun rd => (.ok ((rd.buffer.drop place).take 1), rd)
    let first ← index b 0
    if first = 43 then ret (.simple msg) else ret (.error msg)

def readIntegerChecked (lim : Limits) : Checked Reply := do
  let line ← readLineChecked lim.maxHeaderLen (ascii "integer")
  if line.length < 2 then fail invalidInteger
  else
    let digits ← slice line 1 line.length
    match parseInt digits with
    | none => fail invalidInteger
    | some n => ret (.integer n)

def readBulkReplyChecked (lim : Limits) : Checked Reply := do
  let line ← readLineChecked lim.maxHeaderLen (ascii "bulk length")
  let digits ← slice line 1 line.length
  match parseInt digits with
  | none => fail invalidBulk
  | some blen =>
    if blen < -1 ∨ blen > lim.maxBulkLen then fail invalidBulk
    else if blen = -1 then ret .null
    else payloadChecked .bulk blen (.protocol (ascii "invalid bulk terminator"))

def timesChecked {α : Type} (x : Checked α) : Nat → Checked (List α)
  | 0 => ret []
  | n + 1 => do
    let a ← x
    let as ← timesChecked x n
    ret (a :: as)

def readArrayReplyChecked (lim : Limits) (element : Checked Reply) : Checked Reply := do
  let line ← readLineChecked lim.maxHeaderLen (ascii "array length")
  let digits ← slice line 1 line.length
  match parseInt digits with
  | none => fail invalidArray
  | some n =>
    if n < -1 ∨ n > lim.maxArgs then fail invalidArray
    else if n = -1 then ret .null
    else do
      make .array n
      let rs ← timesChecked element n.toNat
      ret (.array rs)

def dispatchReplyChecked (lim : Limits) (element : Checked Reply) (b : UInt8) : Checked Reply :=
  if b = 43 ∨ b = 45 then readStatusChecked lim
  else if b = 58 then readIntegerChecked lim
  else if b = 36 then readBulkReplyChecked lim
  else if b = 42 then readArrayReplyChecked lim element
  else fail (.protocol (ascii "invalid reply type"))

def readReplyLoopChecked (lim : Limits) : Nat → Checked Reply
  | 0 => fail .eof
  | fuel + 1 => do
    let b ← lift peekOne
    let first ← index b 0
    dispatchReplyChecked lim (readReplyLoopChecked lim fuel) first

/-- What the limits allow a reader to ask for. -/
def Bounded (lim : Limits) : Request → Prop
  | .payload bytes => bytes ≤ lim.maxBulkLen + 2
  | .array slots => slots ≤ lim.maxArgs
  | .fields slots => 2 * slots ≤ lim.maxInlineLen + 1

def Ready (rd : Reader UInt8) : Prop := 0 < rd.size

abbrev Reads {α : Type} (lim : Limits) (p : Checked α) (rd : Reader UInt8) (r : Except ReadErr α × Reader UInt8) :
    Prop :=
  Computes (Bounded lim) Ready p rd r

variable {α β : Type} {lim : Limits} {max : Int} {what : Bytes} {rd : Reader UInt8}

theorem reads_bind {p : Checked α} {x : ReadM α} {f : α → Checked β} {g : α → ReadM β}
    (hp : Reads lim p rd (x rd))
    (hf : ∀ a rd', x rd = (.ok a, rd') → Ready rd' → Reads lim (f a) rd' (g a rd')) :
    Reads lim (p >>= f) rd ((x >>= g) rd) := by
  cases hx : x rd with
  | mk res rd' =>
    rw [hx] at hp
    cases res with
    | error e =>
      have hbind : (x >>= g) rd = (.error e, rd') := by
        change ReadM.bind x g rd = _
        rw [ReadM.bind, hx]
      rw [hbind]
      exact hp.fails
    | ok a =>
      rw [bind_ok hx]
      exact hp.next (hf a rd' hx hp.2.2.2)

theorem size_of_refines {x : ReadM α} {y : Nat → Bytes → Except ReadErr (α × Bytes)} (hx : Refines x y)
    (hs : Ready rd) : (x rd).2.size = rd.size := by
  have h := hx rd hs
  generalize x rd = p at h ⊢
  generalize y rd.size rd.pending = q at h
  cases h with
  | ok a rd' hs' => exact hs'
  | error e rd' hs' => exact hs'

theorem reads_strip (hs : Ready rd) {line : Bytes} (hne : line ≠ []) :
    Reads lim (stripChecked line) rd (.ok (stripEOL line), rd) := by
  have hto : ∀ l : Bytes, ((l.length : Int) - 1).toNat = l.length - 1 := fun l => by omega
  have hcut : ∀ l : Bytes, 0 < l.length → Reads lim (slice l 0 (l.length - 1)) rd (.ok l.dropLast, rd) := by
    intro l hl
    have h : Reads lim (slice l 0 (l.length - 1)) rd _ :=
      computes_slice hs le_rfl (by omega : (0 : Int) ≤ l.length - 1) (by omega)
    rwa [Int.toNat_zero, List.drop_zero, hto, ← List.dropLast_eq_take] at h
  refine (hcut line (List.length_pos_iff.mpr hne)).next ?_
  simp only [stripEOL]
  generalize line.dropLast = l
  by_cases hl : l.length > 0
  · obtain ⟨b, hb⟩ : ∃ b, l.getLast? = some b := ⟨_, List.getLast?_eq_some_getLast (List.length_pos_iff.mp hl)⟩
    rw [if_pos hl, hb]
    refine (computes_index hs (by omega) (by rw [hto, ← List.getLast?_eq_getElem?, hb])).next ?_
    by_cases hcr : b = 13
    · rw [if_pos hcr, if_pos (congrArg some hcr)]
      exact hcut l hl
    · rw [if_neg hcr, if_neg fun h => hcr (Option.some.inj h)]
      exact computes_ret hs l
  · obtain rfl : l = [] := List.length_eq_zero_iff.mp (by omega)
    exact computes_ret hs []

theorem reads_readLineLoop (hs : Ready rd) (fuel : Nat) (line : Bytes) :
    Reads lim (readLineLoopChecked max what fuel line) rd (readLineLoopFrom max what fuel line rd) := by
  induction fuel generalizing rd line with
  | zero => exact computes_fail hs ReadErr.eof
  | succ fuel ih =>
    have hagree := readSlice_agree hs
    have hsize := (rd.readSlice_spec 10 hs).2.2
    cases hp : rd.readSlice 10 with
    | mk out rd' =>
      rw [hp] at hagree hsize
      have hs' : Ready rd' := hs.trans_eq hsize.symm
      have hnext : nextSlice rd = (.ok out, rd') := by rw [nextSlice, hp]
      have hslice : Reads lim (lift nextSlice) rd (nextSlice rd) := computes_lift (by rwa [hnext])
      rw [hnext] at hslice
      refine hslice.next ?_
      simp only [readLineLoopFrom, hp]
      generalize hq : RespRead.readSlice rd.size rd.pending = q at hagree
      cases hagree with
      | found frag _ _ =>
        obtain ⟨l, -, rfl, -⟩ := readSlice_found hq
        refine (reads_strip hs' (by simp)).next ?_
        simp only
        split_ifs with hmax
        · exact computes_fail hs' _
        · exact computes_ret hs' _
      | full frag _ _ =>
        simp only
        split_ifs with hmax
        · exact computes_fail hs' _
        · exact ih hs' (line ++ frag)
      | eof _ _ => exact computes_fail hs' _

theorem reads_readLine (hs : Ready rd) : Reads lim (readLineChecked max what) rd (readLineFrom max what rd) :=
  reads_readLineLoop hs _ []

theorem reads_tail (hs : Ready rd) {line : Bytes} (hne : line ≠ []) :
    Reads lim (slice line 1 line.length) rd (.ok (line.drop 1), rd) := by
  have hpos := List.length_pos_iff.mpr hne
  have h : Reads lim (slice line 1 line.length) rd _ := computes_slice hs zero_le_one (by omega) le_rfl
  rwa [Int.toNat_natCast, List.take_length, Int.toNat_one] at h

theorem reads_first (hs : Ready rd) (b : UInt8) (l : Bytes) : Reads lim (index (b :: l) 0) rd (.ok b, rd) :=
  computes_index hs le_rfl rfl

theorem line_ne_nil (hs : Ready rd) {b : UInt8} (hb : rd.pending.head? = some b) (hlf : b ≠ 10) (hcr : b ≠ 13)
    {line : Bytes} {rd' : Reader UInt8} (h : readLineFrom max what rd = (.ok line, rd')) : line ≠ [] :=
  readLine_ne_nil hs ((refines_readLine max what).eq_of_ok hs h) hb hlf hcr

theorem readFull_length {n : Nat} (hs : Ready rd) (hn : 0 < n) {buf : Bytes} {rd' : Reader UInt8}
    (h : readFullFrom n rd = (.ok buf, rd')) : buf.length = n := by
  have hq : readFull n rd.pending = .ok (buf, rd'.pending) := (refines_readFull hn).eq_of_ok hs h
  rw [readFull] at hq
  split_ifs at hq with hlen
  rw [← (Prod.mk.inj (Except.ok.inj hq)).1, List.length_take]
  omega

theorem reads_badEnd (hs : Ready rd) {buf : Bytes} {n : Nat} (hbuf : buf.length = n + 2) (hn : (n : Int) < 2 ^ 63 - 2) :
    Reads lim (badEnd buf n) rd (.ok (decide (buf.drop n ≠ [13, 10])), rd) := by
  have hwrap : wrap64 ((n : Int) + 1) = (n + 1 : Nat) := wrap64_of_inRange ⟨by omega, by omega⟩
  have hn₀ : n < buf.length := by omega
  have hn₁ : n + 1 < buf.length := by omega
  have hdrop : buf.drop n = [buf[n], buf[n + 1]] := by
    rw [List.drop_eq_getElem_cons hn₀, List.drop_eq_getElem_cons hn₁, List.drop_of_length_le (by omega)]
  rw [hdrop]
  refine (computes_index hs (Int.natCast_nonneg n) (List.getElem?_eq_getElem hn₀)).next ?_
  by_cases hcr : buf[n] = 13
  · rw [if_neg (not_not_intro hcr), hwrap]
    refine (computes_index hs (Int.natCast_nonneg _) (List.getElem?_eq_getElem hn₁)).next ?_
    have hlf : decide (buf[n + 1] ≠ 10) = decide ([buf[n], buf[n + 1]] ≠ [13, 10]) := by simp [hcr]
    rw [← hlf]
    exact computes_ret hs _
  · have htrue : decide ([buf[n], buf[n + 1]] ≠ [13, 10]) = true := by simp [hcr]
    rw [if_pos hcr, htrue]
    exact computes_ret hs true

theorem reads_notDollar (hs : Ready rd) (bl : Bytes) :
    Reads lim (notDollar bl) rd (.ok (decide (bl.head? ≠ some 36)), rd) := by
  cases bl with
  | nil => exact computes_ret hs true
  | cons b bl =>
    refine (reads_first hs b bl).next ?_
    rw [List.head?_cons, decide_eq_decide.mpr (not_congr Option.some_inj)]
    exact computes_ret hs _

theorem reads_gotInstead (hs : Ready rd) (bl : Bytes) :
    Reads lim
      (gotInstead bl >>= fun c => (fail (.protocol (ascii "expected '$', got '" ++ c ++ ascii "'")) : Checked α)) rd
      (.error (.protocol (expectedDollar bl)), rd) := by
  cases bl with
  | nil => exact Computes.next (computes_ret hs (ascii "?")) (computes_fail hs _)
  | cons b bl => exact Computes.next ((reads_first hs b bl).next (computes_ret hs _)) (computes_fail hs _)

section Commands

variable (hb : lim.maxBulkLen ≤ 2 ^ 63 - 3)

include hb

theorem reads_payload (hs : Ready rd) (wrap : Bytes → α) (bad : ReadErr) {blen : Int} (h₀ : 0 ≤ blen)
    (hlim : blen ≤ lim.maxBulkLen) :
    Reads lim (payloadChecked wrap blen bad) rd ((do
      let buf ← readFullFrom (blen.toNat + 2)
      if buf.drop blen.toNat = [13, 10] then ReadM.pure (wrap (buf.take blen.toNat))
      else ReadM.throw bad : ReadM α) rd) := by
  obtain ⟨n, rfl⟩ := Int.eq_ofNat_of_zero_le h₀
  have hwrap : wrap64 ((n : Int) + 2) = (n + 2 : Nat) := wrap64_of_inRange ⟨by omega, by omega⟩
  rw [payloadChecked, hwrap]
  refine (computes_make hs (Int.natCast_nonneg _) (by simp only [Bounded]; omega)).next ?_
  rw [Int.toNat_natCast, Int.toNat_natCast]
  refine reads_bind (computes_lift ?_) fun buf rd' hfull hs' => ?_
  · exact hs.trans_eq (size_of_refines (refines_readFull (by omega)) hs).symm
  have hbuf := readFull_length hs (by omega) hfull
  refine (reads_badEnd hs' hbuf (by omega)).next ?_
  by_cases hend : buf.drop n = [13, 10]
  · simp only [hend, ne_eq, not_true_eq_false, decide_false, Bool.false_eq_true, ↓reduceIte]
    have hcut : Reads lim (slice buf 0 n) rd' _ := computes_slice hs' le_rfl (Int.natCast_nonneg n) (by omega)
    exact hcut.next (computes_ret hs' _)
  · simp only [hend, ne_eq, not_false_eq_true, decide_true, ↓reduceIte]
    exact computes_fail hs' bad

theorem reads_readBulk (hs : Ready rd) : Reads lim (readBulkChecked lim) rd (readBulkFrom lim rd) := by
  refine reads_bind (reads_readLine hs) fun bl rd' _ hs' => ?_
  refine (reads_notDollar hs' bl).next ?_
  by_cases hd : bl.head? = some 36
  · simp only [hd, ne_eq, not_true_eq_false, decide_false, Bool.false_eq_true, ↓reduceIte]
    have hne : bl ≠ [] := by
      rintro rfl
      cases hd
    refine (reads_tail hs' hne).next ?_
    rw [bulkLength]
    cases parseInt (bl.drop 1) with
    | none => exact computes_fail hs' _
    | some blen =>
      simp only
      split_ifs with hlim
      · exact computes_fail hs' _
      · exact reads_payload hb hs' id invalidBulk (by omega) (by omega)
  · simp only [hd, ne_eq, not_false_eq_true, decide_true, ↓reduceIte]
    exact reads_gotInstead hs' bl

theorem reads_readBulks {n : Int} (k : Nat) {i : Int} (hi : 0 ≤ i) (hn : i + k ≤ n) (hs : Ready rd) :
    Reads lim (readBulksChecked lim n k i) rd (times (readBulkFrom lim) k rd) := by
  induction k generalizing i rd with
  | zero => exact computes_ret hs []
  | succ k ih =>
    refine reads_bind (reads_readBulk hb hs) fun arg rd' _ hs' => ?_
    refine (computes_store hs' hi (by omega)).next ?_
    refine reads_bind (ih (by omega) (by omega) hs') fun args rd'' _ hs'' => ?_
    exact computes_ret hs'' _

theorem reads_readMultibulk (hs : Ready rd) (hstar : rd.pending.head? = some 42) :
    Reads lim (readMultibulkChecked lim) rd (readMultibulkFrom lim rd) := by
  refine reads_bind (reads_readLine hs) fun line rd' hline hs' => ?_
  refine (reads_tail hs' (line_ne_nil hs hstar (by decide) (by decide) hline)).next ?_
  cases parseInt (line.drop 1) with
  | none => exact computes_fail hs' _
  | some n =>
    simp only
    split_ifs with hlim
    · exact computes_fail hs' _
    · refine (computes_make hs' (by omega) (by simp only [Bounded]; omega)).next ?_
      exact reads_readBulks hb n.toNat le_rfl (by omega) hs'

end Commands

theorem line_length (hs : Ready rd) {line : Bytes} {rd' : Reader UInt8}
    (h : readLineFrom max what rd = (.ok line, rd')) : (line.length : Int) ≤ max :=
  readLineLoop_max _ _ _ ((refines_readLine max what).eq_of_ok hs h)

theorem reads_readInline (hs : Ready rd) : Reads lim (readInlineChecked lim) rd (readInlineFrom lim rd) := by
  refine reads_bind (reads_readLine hs) fun line rd' hline hs' => ?_
  have hlen := line_length hs hline
  have hcount := Utf8Text.fields_count line
  refine (computes_make hs' (Int.natCast_nonneg _) (by simp only [Bounded]; omega)).next ?_
  split_ifs with hnil hmany
  · exact computes_fail hs' _
  · exact computes_fail hs' _
  · exact computes_ret hs' _

theorem reads_peek {f : UInt8 → Checked α} {g : UInt8 → ReadM α} (hs : Ready rd)
    (hf : ∀ b rd', rd'.unread.head? = some b → Ready rd' → Reads lim (f b) rd' (g b rd')) :
    Reads lim (lift peekOne >>= fun b => index b 0 >>= f) rd
      (match rd.peek with
        | (none, rd) => (.error .eof, rd)
        | (some b, rd) => g b rd) := by
  have hsize := rd.peek_size
  have hhead := rd.peek_head
  have hpeek : Ready (peekOne rd).2 → Reads lim (lift peekOne) rd (peekOne rd) := computes_lift
  rw [peekOne] at hpeek
  cases hp : rd.peek with
  | mk b rd' =>
    rw [hp] at hsize hhead hpeek
    have hs' : Ready rd' := hs.trans_eq hsize.symm
    cases b with
    | none => exact (hpeek hs').fails
    | some b => exact (hpeek hs').next ((reads_first hs' b []).next (hf b rd' hhead.symm hs'))

theorem pending_head {b : UInt8} (h : rd.unread.head? = some b) : rd.pending.head? = some b := by
  rw [Reader.pending, List.head?_append, h, Option.some_or]

theorem reads_readCommand (hb : lim.maxBulkLen ≤ 2 ^ 63 - 3) (hs : Ready rd) :
    Reads lim (readCommandChecked lim) rd (readCommandFrom lim rd) := by
  refine reads_peek (g := fun b rd => if b = 42 then readMultibulkFrom lim rd else readInlineFrom lim rd) hs
    fun b rd' hhead hs' => ?_
  by_cases hstar : b = 42
  · rw [if_pos hstar, if_pos hstar]
    exact reads_readMultibulk hb hs' (pending_head (hstar ▸ hhead))
  · rw [if_neg hstar, if_neg hstar]
    exact reads_readInline hs'

theorem reads_readStatus (hs : Ready rd) {b : UInt8} (hhead : rd.unread.head? = some b) :
    Reads lim (readStatusChecked lim) rd (readStatusFrom lim rd) := by
  have hplace : Reads lim (lift fun rd => (.ok rd.index, rd)) rd (.ok rd.index, rd) := computes_lift hs
  have hline : Reads lim (readLineChecked lim.maxInlineLen (ascii "simple/error line")) rd _ := reads_readLine hs
  have hsize := size_of_refines (refines_readLine lim.maxInlineLen (ascii "simple/error line")) hs
  refine hplace.next ?_
  rw [readStatusFrom]
  cases hl : readLineFrom lim.maxInlineLen (ascii "simple/error line") rd with
  | mk res rd' =>
    rw [hl] at hline hsize
    cases res with
    | error e => exact hline.fails
    | ok line =>
      have hs' : Ready rd' := hline.2.2.2
      refine hline.next ?_
      by_cases hnil : line = []
      · simp only [hnil, ↓reduceIte]
        exact computes_fail hs' _
      · have hin : rd.index < rd'.buffer.length := by
          have hpos := List.length_pos_of_mem (List.mem_of_mem_head? hhead)
          have hroom := rd.size_eq
          rw [Reader.index]
          change rd'.buffer.length = rd.size at hsize
          omega
        have hview : (rd'.buffer.drop rd.index).take 1 = [rd'.buffer[rd.index]] := by
          rw [List.drop_eq_getElem_cons hin]
          rfl
        have hlook : Reads lim (lift fun rd' => (.ok ((rd'.buffer.drop rd.index).take 1), rd')) rd' _ :=
          computes_lift hs'
        rw [hview] at hlook
        simp only [hnil, ↓reduceIte, List.getElem?_eq_getElem hin, Option.some.injEq]
        refine (reads_tail hs' hnil).next (hlook.next ((reads_first hs' _ []).next ?_))
        split_ifs with hplus
        · exact computes_ret hs' _
        · exact computes_ret hs' _

theorem reads_readInteger (hs : Ready rd) : Reads lim (readIntegerChecked lim) rd (readIntegerFrom lim rd) := by
  refine reads_bind (reads_readLine hs) fun line rd' _ hs' => ?_
  by_cases hlen : line.length < 2
  · rw [if_pos hlen, if_pos hlen]
    exact computes_fail hs' _
  · rw [if_neg hlen, if_neg hlen]
    have hne : line ≠ [] := by
      rintro rfl
      exact hlen (by decide)
    refine (reads_tail hs' hne).next ?_
    cases parseInt (line.drop 1) with
    | none => exact computes_fail hs' _
    | some n => exact computes_ret hs' _

theorem reads_times {x : Checked α} {y : ReadM α} (h : ∀ {rd}, Ready rd → Reads lim x rd (y rd)) (hs : Ready rd)
    (n : Nat) : Reads lim (timesChecked x n) rd (times y n rd) := by
  induction n generalizing rd with
  | zero => exact computes_ret hs []
  | succ n ih =>
    refine reads_bind (h hs) fun a rd' _ hs' => ?_
    refine reads_bind (ih hs') fun as rd'' _ hs'' => ?_
    exact computes_ret hs'' _

theorem reads_readArrayReply (hs : Ready rd) (hstar : rd.pending.head? = some 42) {x : Checked Reply} {y : ReadM Reply}
    (h : ∀ {rd}, Ready rd → Reads lim x rd (y rd)) :
    Reads lim (readArrayReplyChecked lim x) rd (readArrayReplyFrom lim y rd) := by
  refine reads_bind (reads_readLine hs) fun line rd' hline hs' => ?_
  refine (reads_tail hs' (line_ne_nil hs hstar (by decide) (by decide) hline)).next ?_
  cases parseInt (line.drop 1) with
  | none => exact computes_fail hs' _
  | some n =>
    simp only
    split_ifs with hlim hnull
    · exact computes_fail hs' _
    · exact computes_ret hs' _
    · refine (computes_make hs' (by omega) (by simp only [Bounded]; omega)).next ?_
      refine reads_bind (reads_times h hs' n.toNat) fun rs rd'' _ hs'' => ?_
      exact computes_ret hs'' _

section Replies

variable (hb : lim.maxBulkLen ≤ 2 ^ 63 - 3)

include hb

theorem reads_readBulkReply (hs : Ready rd) (hdollar : rd.pending.head? = some 36) :
    Reads lim (readBulkReplyChecked lim) rd (readBulkReplyFrom lim rd) := by
  refine reads_bind (reads_readLine hs) fun line rd' hline hs' => ?_
  refine (reads_tail hs' (line_ne_nil hs hdollar (by decide) (by decide) hline)).next ?_
  cases parseInt (line.drop 1) with
  | none => exact computes_fail hs' _
  | some blen =>
    simp only
    split_ifs with hlim hnull
    · exact computes_fail hs' _
    · exact computes_ret hs' _
    · exact reads_payload hb hs' Reply.bulk _ (by omega) (by omega)

theorem reads_readReplyLoop (fuel : Nat) (hs : Ready rd) :
    Reads lim (readReplyLoopChecked lim fuel) rd (readReplyLoop lim fuel rd) := by
  induction fuel generalizing rd with
  | zero => exact computes_fail hs _
  | succ fuel ih =>
    refine reads_peek (g := dispatchReply lim (readReplyLoop lim fuel)) hs fun b rd' hhead hs' => ?_
    rw [dispatchReplyChecked, dispatchReply]
    split_ifs with hstatus hint hbulk harray
    · exact reads_readStatus hs' hhead
    · exact reads_readInteger hs'
    · exact reads_readBulkReply hb hs' (pending_head (hbulk ▸ hhead))
    · exact reads_readArrayReply hs' (pending_head (harray ▸ hhead)) ih
    · exact computes_fail hs' _

end Replies

theorem readCommand_tokens (hs : Ready rd) {tokens : List Bytes} (h : (readCommandFrom lim rd).1 = .ok tokens) :
    1 ≤ tokens.length ∧ tokens.length ≤ lim.maxArgs ∧
      (rd.pending.head? = some 42 → ∀ t ∈ tokens, (t.length : Int) ≤ lim.maxBulkLen) ∧
      (rd.pending.head? ≠ some 42 → ((tokens.map List.length).sum : Int) ≤ lim.maxInlineLen) := by
  have hq : readCommand rd.size lim rd.pending = _ := (refines_readCommand lim).eq_of_ok hs (Prod.ext h rfl)
  rw [readCommand] at hq
  split_ifs at hq with hnil hstar
  · obtain ⟨hne, hlen, hall⟩ := readMultibulk_within hq
    exact ⟨List.length_pos_iff.mpr hne, hlen, fun _ => hall, absurd hstar⟩
  · obtain ⟨hne, hlen, htotal⟩ := readInline_within hq
    exact ⟨List.length_pos_iff.mpr hne, hlen, fun h => absurd h hstar, fun _ => htotal⟩

/-- Whatever arrives, and however deep the arrays of a reply nest, no index, no
slice and no size makes the readers panic, and what they ask for and accept
keeps the limits. -/
theorem parsing_bounded (hb : lim.maxBulkLen ≤ 2 ^ 63 - 3) (hs : 0 < rd.size) (depth : Nat) :
    (readCommandChecked lim rd).result ≠ .error .panic ∧
      (readReplyLoopChecked lim depth rd).result ≠ .error .panic ∧
      (∀ q ∈ (readCommandChecked lim rd).requests ++ (readReplyLoopChecked lim depth rd).requests, Bounded lim q) ∧
      ∀ tokens, (readCommandChecked lim rd).result = .ok tokens →
        1 ≤ tokens.length ∧ tokens.length ≤ lim.maxArgs ∧
          (rd.pending.head? = some 42 → ∀ t ∈ tokens, (t.length : Int) ≤ lim.maxBulkLen) ∧
          (rd.pending.head? ≠ some 42 → ((tokens.map List.length).sum : Int) ≤ lim.maxInlineLen) := by
  have hcommand := reads_readCommand hb hs
  have hreply := reads_readReplyLoop hb depth hs
  refine ⟨hcommand.not_panic, hreply.not_panic, fun q hq => ?_, fun tokens htokens => ?_⟩
  · exact (List.mem_append.mp hq).elim (hcommand.1 q) (hreply.1 q)
  · exact readCommand_tokens hs (hcommand.ok htokens)

def oneArgument : Limits := ⟨64, 1, 64, 64⟩

def pingFrame : Reader UInt8 := freshReader (ascii "*1\r\n$4\r\nPING\r\n") (by decide)

theorem pingFrame_bounded :
    (readCommandChecked oneArgument pingFrame).result = .ok [ascii "PING"] ∧
      (∀ q ∈ (readCommandChecked oneArgument pingFrame).requests, Bounded oneArgument q) ∧
      ([ascii "PING"].length : Int) ≤ oneArgument.maxArgs := by
  have hread : (readCommandChecked oneArgument pingFrame).result = .ok [ascii "PING"] := by decide +kernel
  obtain ⟨-, -, hrequests, htokens⟩ := parsing_bounded (by decide : oneArgument.maxBulkLen ≤ 2 ^ 63 - 3)
    (by decide : 0 < pingFrame.size) 1
  exact ⟨hread, fun q hq => hrequests q (List.mem_append_left _ hq), (htokens _ hread).2.1⟩

/-- The list of the fields is made before its length is compared with the
limit. -/
theorem twoFields_listed :
    (readCommandChecked oneArgument (freshReader (ascii "a b\n") (by decide))).requests = [.fields 2] ∧
      oneArgument.maxArgs = 1 := by
  decide +kernel

end MemX.RespChecked
