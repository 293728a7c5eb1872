import MemX.BufLayout
import MemX.RespReply

namespace MemX.RespReplyView

open DecimalText BufReader RespRead RespWrite RespConsume RespRoundTrip RespBuffered RespReply

variable {α β : Type} {lim : Limits} {max : Int} {what : Bytes} {rd : Reader UInt8}

/-! What the bytes of a stream say, without a buffer. -/

def lineOf (max : Int) (what s : Bytes) : Except ReadErr (Bytes × Bytes) :=
  if (10 : UInt8) ∈ s then
    let line := stripEOL (s.takeWhile (· != 10) ++ [10])
    if line.length > max then .error (.protocol (ascii "too big " ++ what))
    else .ok (line, (s.dropWhile (· != 10)).drop 1)
  else .error .eof

def andThen (y : Bytes → Except ReadErr (α × Bytes)) (g : α → Bytes → Except ReadErr (β × Bytes)) (s : Bytes) :
    Except ReadErr (β × Bytes) :=
  match y s with
  | .error e => .error e
  | .ok (a, s) => g a s

def statusOf (lim : Limits) (b : UInt8) : Bytes → Except ReadErr (Reply × Bytes) :=
  andThen (lineOf lim.maxInlineLen (ascii "simple/error line")) fun line s =>
    if line = [] then .error (.protocol (ascii "invalid empty reply"))
    else .ok (if b = 43 then .simple (line.drop 1) else .error (line.drop 1), s)

def integerBody (line s : Bytes) : Except ReadErr (Reply × Bytes) :=
  if line.length < 2 then .error invalidInteger
  else
    match parseInt (line.drop 1) with
    | none => .error invalidInteger
    | some n => .ok (.integer n, s)

def bulkBody (lim : Limits) (line s : Bytes) : Except ReadErr (Reply × Bytes) :=
  match parseInt (line.drop 1) with
  | none => .error invalidBulk
  | some n =>
    if n < -1 ∨ n > lim.maxBulkLen then .error invalidBulk
    else if n = -1 then .ok (.null, s)
    else
      andThen (readFull (n.toNat + 2)) (fun buf s =>
        if buf.drop n.toNat = [13, 10] then .ok (.bulk (buf.take n.toNat), s)
        else .error (.protocol (ascii "invalid bulk terminator"))) s

def timesOf (y : Bytes → Except ReadErr (α × Bytes)) : Nat → Bytes → Except ReadErr (List α × Bytes)
  | 0, s => .ok ([], s)
  | n + 1, s => andThen y (fun a => andThen (timesOf y n) fun as s => .ok (a :: as, s)) s

def arrayBody (lim : Limits) (element : Bytes → Except ReadErr (Reply × Bytes)) (line s : Bytes) :
    Except ReadErr (Reply × Bytes) :=
  match parseInt (line.drop 1) with
  | none => .error invalidArray
  | some n =>
    if n < -1 ∨ n > lim.maxArgs then .error invalidArray
    else if n = -1 then .ok (.null, s)
    else andThen (timesOf element n.toNat) (fun rs s => .ok (.array rs, s)) s

def replyLoop (lim : Limits) : Nat → Bytes → Except ReadErr (Reply × Bytes)
  | 0, _ => .error .eof
  | fuel + 1, s =>
    match s.head? with
    | none => .error .eof
    | some b =>
      if b = 43 ∨ b = 45 then statusOf lim b s
      else if b = 58 then andThen (lineOf lim.maxHeaderLen (ascii "integer")) integerBody s
      else if b = 36 then andThen (lineOf lim.maxHeaderLen (ascii "bulk length")) (bulkBody lim) s
      else if b = 42 then
        andThen (lineOf lim.maxHeaderLen (ascii "array length")) (arrayBody lim (replyLoop lim fuel)) s
      else .error (.protocol (ascii "invalid reply type"))

/-- One reply, decided by the bytes alone. -/
def replyOf (lim : Limits) (s : Bytes) : Except ReadErr (Reply × Bytes) := replyLoop lim (s.length + 1) s

theorem andThen_ok {y : Bytes → Except ReadErr (α × Bytes)} {g : α → Bytes → Except ReadErr (β × Bytes)} {s : Bytes}
    {r : β × Bytes} (h : andThen y g s = .ok r) : ∃ a s', y s = .ok (a, s') ∧ g a s' = .ok r := by
  unfold andThen at h
  cases hy : y s with
  | error e =>
    rw [hy] at h
    cases h
  | ok p =>
    rw [hy] at h
    exact ⟨p.1, p.2, rfl, h⟩

theorem lineOf_ok {s line rest : Bytes} (h : lineOf max what s = .ok (line, rest)) :
    ∃ l, (10 : UInt8) ∉ l ∧ s = l ++ 10 :: rest ∧ line = stripEOL (l ++ [10]) ∧ (line.length : Int) ≤ max ∧
      s.takeWhile (· != 10) = l := by
  unfold lineOf at h
  split at h
  · rename_i hm
    simp only at h
    split at h
    · cases h
    · rename_i hmax
      cases h
      have hr : readSlice (s.length + 1) s =
          .found (s.takeWhile (· != 10) ++ [10]) ((s.dropWhile (· != 10)).drop 1) := by
        rw [readSlice, if_pos (by rwa [List.take_of_length_le (by omega)])]
      obtain ⟨l, hl, hfrag, hs, -⟩ := readSlice_found hr
      have hle : s.takeWhile (· != 10) = l := List.append_inj_left' hfrag rfl
      exact ⟨l, hl, hs, by rw [hle], by omega, hle⟩
  · cases h

/-- The first line, with the `\r` of its end, is one byte beyond the limit and
ends where a buffer is full. -/
def Split (size : Nat) (max : Int) (s : Bytes) : Prop :=
  ((s.takeWhile (· != 10)).length : Int) = max + 1 ∧ (size : Int) ∣ max + 1

instance (size : Nat) (max : Int) (s : Bytes) : Decidable (Split size max s) := inferInstanceAs (Decidable (_ ∧ _))

theorem readLine_of_lineOf (hs : 0 < rd.size) {line rest : Bytes} (h : lineOf max what rd.pending = .ok (line, rest)) :
    readLine rd.size max what rd.pending =
      if Split rd.size max rd.pending then .error (.protocol (ascii "too big " ++ what)) else .ok (line, rest) := by
  obtain ⟨l, hl, hp, rfl, hmax, -⟩ := lineOf_ok h
  rw [hp, readLine_within hs hl hmax rest]
  simp only [Split, (takeWhile_line hl rest).1]

/-- The first line of a stream ends in `\r\n`, its `\r` is one byte beyond the
limit and a full buffer ends with it. -/
def FillsAtLimit (size : Nat) (max : Int) (s : Bytes) : Prop :=
  (s.takeWhile (· != 10)).getLast? = some 13 ∧ ((s.takeWhile (· != 10)).length : Int) = max + 1 ∧ (size : Int) ∣ max + 1

theorem lineOf_line {l : Bytes} (hl : (10 : UInt8) ∉ l) (rest : Bytes) :
    lineOf max what (l ++ 10 :: rest) =
      if ((stripEOL (l ++ [10])).length : Int) > max then .error (.protocol (ascii "too big " ++ what))
      else .ok (stripEOL (l ++ [10]), rest) := by
  obtain ⟨htake, hdrop⟩ := takeWhile_line hl rest
  rw [lineOf, if_pos (by simp), htake, hdrop]
  rfl

/-- The limit on a line is independent of the buffer if and only if the line
does not fill buffers up to a `\r` right beyond the limit. -/
theorem line_limit_iff {size : Nat} (hs : 16 ≤ size) (max : Int) (what : Bytes) {s : Bytes} (hlf : (10 : UInt8) ∈ s) :
    readLine size max what s = lineOf max what s ↔ ¬ FillsAtLimit size max s := by
  have hpos : 0 < size := by omega
  obtain ⟨l, rest, rfl, hl⟩ := List.eq_append_cons_of_mem hlf
  rw [FillsAtLimit, (takeWhile_line hl rest).1, lineOf_line hl]
  by_cases hbig : ((stripEOL (l ++ [10])).length : Int) > max
  · rw [if_pos hbig, readLine_over hpos hl hbig]
    refine iff_of_true rfl ?_
    rintro ⟨hcr, hlen, -⟩
    have hne : 0 < l.length := List.length_pos_of_mem (List.mem_of_getLast? hcr)
    rw [stripEOL_of_cr hcr, List.length_dropLast] at hbig
    omega
  · rw [if_neg hbig, readLine_within hpos hl (not_lt.mp hbig) rest]
    by_cases hcut : (l.length : Int) = max + 1 ∧ (size : Int) ∣ max + 1
    · have hcr : l.getLast? = some 13 := by
        by_contra hcr
        rw [stripEOL_of_not_cr hcr] at hbig
        omega
      rw [if_pos hcut]
      exact iff_of_false (by rintro ⟨⟩) fun h => h ⟨hcr, hcut⟩
    · rw [if_neg hcut]
      exact iff_of_true rfl fun h => hcut h.2

/-- A line of the limit's length, which two buffers of 16 bytes hold. -/
theorem wholeLine_read : readLine 16 32 [] (List.replicate 32 97 ++ [13, 10]) =
    lineOf 32 [] (List.replicate 32 97 ++ [13, 10]) :=
  (line_limit_iff le_rfl 32 [] (by simp)).mpr (by rintro ⟨-, -, h⟩; revert h; decide)

/-- Fifteen bytes and `\r\n` under the limit 15: a buffer of 16 bytes is full
before the line end, one of 17 is not. -/
theorem fullLine_refused :
    readLine 16 15 [] (List.replicate 15 97 ++ [13, 10]) = .error (.protocol (ascii "too big ")) ∧
      lineOf 15 [] (List.replicate 15 97 ++ [13, 10]) = .ok (List.replicate 15 97, []) ∧
      readLine 17 15 [] (List.replicate 15 97 ++ [13, 10]) = .ok (List.replicate 15 97, []) := by
  decide

/-! Where the bytes lie while a line is read. -/

def lineLength (s : Bytes) : Nat := (s.takeWhile (· != 10)).length + 1

def afterLine (s : Bytes) : Bytes := (s.dropWhile (· != 10)).drop 1

theorem lineLength_line {l : Bytes} (hl : (10 : UInt8) ∉ l) (rest : Bytes) :
    lineLength (l ++ 10 :: rest) = l.length + 1 := by
  rw [lineLength, (takeWhile_line hl rest).1]

theorem lineLength_drop {size : Nat} {s : Bytes} (hlf : (10 : UInt8) ∈ s) (h : size < lineLength s) :
    (10 : UInt8) ∈ s.drop size ∧ lineLength (s.drop size) = lineLength s - size := by
  obtain ⟨l, rest, rfl, hl⟩ := List.eq_append_cons_of_mem hlf
  rw [lineLength_line hl] at h ⊢
  have hd : (10 : UInt8) ∉ l.drop size := fun hm => hl (List.mem_of_mem_drop hm)
  rw [List.drop_append_of_le_length (by omega), lineLength_line hd, List.length_drop]
  exact ⟨by simp, by omega⟩

theorem lineLength_le {s : Bytes} (hlf : (10 : UInt8) ∈ s) : lineLength s ≤ s.length := by
  obtain ⟨l, rest, rfl, hl⟩ := List.eq_append_cons_of_mem hlf
  rw [lineLength_line hl, List.length_append, List.length_cons]
  omega

theorem mem_take_iff {size : Nat} {s : Bytes} (hlf : (10 : UInt8) ∈ s) :
    (10 : UInt8) ∈ s.take size ↔ lineLength s ≤ size := by
  obtain ⟨l, rest, rfl, hl⟩ := List.eq_append_cons_of_mem hlf
  rw [lineLength_line hl, List.take_append]
  constructor
  · intro hm
    by_contra hlt
    rw [Nat.sub_eq_zero_of_le (by omega), List.take_zero, List.append_nil] at hm
    exact hl (List.mem_of_mem_take hm)
  · intro hle
    obtain ⟨k, hk⟩ := Nat.exists_eq_add_of_le' (show 1 ≤ size - l.length by omega)
    rw [hk]
    simp

theorem sliceLength_line {size : Nat} {s : Bytes} (hlf : (10 : UInt8) ∈ s) :
    Reader.sliceLength 10 size s = if lineLength s ≤ size then lineLength s else size := by
  have hne : (fun b : UInt8 => decide (b ≠ 10)) = fun b => b != 10 := by
    funext b
    simp [bne, beq_eq_decide]
  rw [Reader.sliceLength, hne]
  simp only [mem_take_iff hlf]
  rfl

theorem readLineLoopFrom_layout (max : Int) (what : Bytes) (fuel : Nat) (line : Bytes) (rd : Reader UInt8)
    (hs : 0 < rd.size) (hlf : (10 : UInt8) ∈ rd.pending) {a : Bytes} {rd' : Reader UInt8}
    (h : readLineLoopFrom max what fuel line rd = (.ok a, rd')) :
    rd'.layout = rd.layout.afterPiece rd.size (lineLength rd.pending) ∧
      ∀ i, rd'.buffer[i]? = Layout.slicesShow rd.size i (Layout.lastSlice rd.size (lineLength rd.pending))
        (Layout.fullSlices rd.size (lineLength rd.pending)) rd.layout rd.pending rd.buffer[i]? := by
  induction fuel generalizing line rd with
  | zero => cases h
  | succ fuel ih =>
    have hlen := lineLength_le hlf
    obtain ⟨hout, hpend, hsize⟩ := rd.readSlice_spec 10 hs
    unfold readLineLoopFrom at h
    rw [Reader.sliceOf] at hout hpend
    by_cases hfit : lineLength rd.pending ≤ rd.size
    · have hm : Reader.sliceLength 10 rd.size rd.pending = lineLength rd.pending := by
        rw [sliceLength_line hlf, if_pos hfit]
      obtain ⟨hlayout, hshow⟩ := Reader.readSlice_layout 10 hm hlen
      obtain ⟨hq, hl⟩ := Layout.fullSlices_fits (by simp [lineLength]) hfit
      rw [if_pos ((mem_take_iff hlf).mpr hfit)] at hout
      have hrd : rd' = (rd.readSlice 10).2 := by
        generalize rd.readSlice 10 = p at hout h ⊢
        obtain ⟨out, rd₁⟩ := p
        simp only at hout
        subst hout
        simp only at h
        split at h
        · cases h
        · cases h
          rfl
      rw [hrd, Layout.afterPiece, hq, hl]
      exact ⟨hlayout, hshow⟩
    · have hover : rd.size < lineLength rd.pending := not_le.mp hfit
      have hm : Reader.sliceLength 10 rd.size rd.pending = rd.size := by
        rw [sliceLength_line hlf, if_neg hfit]
      obtain ⟨hlayout, hshow⟩ := Reader.readSlice_layout 10 hm (by omega)
      obtain ⟨hq, hl⟩ := Layout.fullSlices_over hs hover
      obtain ⟨hlf', hlen'⟩ := lineLength_drop hlf hover
      have hno : (10 : UInt8) ∉ rd.pending.take rd.size := fun hm => hfit ((mem_take_iff hlf).mp hm)
      rw [if_neg hno, if_pos (by omega)] at hout hpend
      simp only at hpend
      have hgo :
          readLineLoopFrom max what fuel (line ++ rd.pending.take rd.size) (rd.readSlice 10).2 = (.ok a, rd') := by
        generalize rd.readSlice 10 = p at hout h ⊢
        obtain ⟨out, rd₁⟩ := p
        simp only at hout
        subst hout
        simp only at h
        split at h
        · cases h
        · exact h
      have hrest := ih _ (rd.readSlice 10).2 (by rw [hsize]; exact hs) (by rw [hpend]; exact hlf') hgo
      rw [hpend, hsize, hlen', hlayout] at hrest
      rw [Layout.afterPiece, hq, hl]
      refine ⟨hrest.1, fun i => ?_⟩
      rw [hrest.2 i, hshow i]
      rfl

theorem readLineFrom_of_lineOf (hs : 0 < rd.size) {line rest : Bytes}
    (h : lineOf max what rd.pending = .ok (line, rest)) :
    (Split rd.size max rd.pending → ∃ e, (readLineFrom max what rd).1 = .error e) ∧
      (¬ Split rd.size max rd.pending →
        ∃ rd', readLineFrom max what rd = (.ok line, rd') ∧ rd'.pending = rest ∧ rd'.size = rd.size ∧
          rd'.layout = rd.layout.afterPiece rd.size (lineLength rd.pending) ∧
          (rd.unread ≠ [] →
            rd'.buffer[rd.index]? = rd.layout.pieceShows rd.size (lineLength rd.pending) rd.pending)) := by
  have hr : Agree rd.size (readLineFrom max what rd) (readLine rd.size max what rd.pending) :=
    refines_readLine max what rd hs
  rw [readLine_of_lineOf hs h] at hr
  refine ⟨fun hsp => ?_, fun hsp => ?_⟩
  · rw [if_pos hsp] at hr
    generalize readLineFrom max what rd = p at hr ⊢
    cases hr with
    | error e rd' _ => exact ⟨_, rfl⟩
  · obtain ⟨rd', hread, hpend, hsize⟩ :
        ∃ rd', readLineFrom max what rd = (.ok line, rd') ∧ rd'.pending = rest ∧ rd'.size = rd.size := by
      rw [if_neg hsp] at hr
      generalize readLineFrom max what rd = p at hr ⊢
      cases hr with
      | ok a rd' hs' => exact ⟨rd', rfl, rfl, hs'⟩
    have hlf : (10 : UInt8) ∈ rd.pending := by
      obtain ⟨l, -, hp, -⟩ := lineOf_ok h
      simp [hp]
    obtain ⟨hlayout, hshow⟩ := readLineLoopFrom_layout max what _ [] rd hs hlf hread
    refine ⟨rd', hread, hpend, hsize, hlayout, fun hu => ?_⟩
    obtain ⟨b, bs, hb⟩ := List.exists_cons_of_ne_nil hu
    have hat : rd.buffer[rd.index]? = rd.pending.head? := by
      rw [Reader.buffer, Reader.index, List.getElem?_append_right le_rfl, Nat.sub_self, Reader.pending, hb]
      rfl
    rw [hshow, hat]
    rfl

/-- Under the condition `P` a reader gives `a` and leaves `rest`, in the layout
`l`, and otherwise it does not give `a`. -/
def Decides (x : ReadM α) (rd : Reader UInt8) (a : α) (rest : Bytes) (l : Layout) (P : Prop) : Prop :=
  (P → ∃ rd', x rd = (.ok a, rd') ∧ rd'.pending = rest ∧ rd'.size = rd.size ∧ rd'.layout = l) ∧
    (¬ P → (x rd).1 ≠ .ok a)

theorem bind_error {x : ReadM α} {f : α → ReadM β} {e : ReadErr} (h : (x rd).1 = .error e) :
    ((x >>= f) rd).1 = .error e := by
  change (ReadM.bind x f rd).1 = _
  unfold ReadM.bind
  generalize x rd = p at h ⊢
  obtain ⟨res, rd'⟩ := p
  simp only at h
  subst h
  rfl

theorem bind_eq_ok {x : ReadM α} {f : α → ReadM β} {b : β} (h : ((x >>= f) rd).1 = .ok b) :
    ∃ a, (x rd).1 = .ok a ∧ (f a (x rd).2).1 = .ok b := by
  cases hx : (x rd).1 with
  | error e =>
    rw [bind_error hx] at h
    cases h
  | ok a =>
    rw [bind_ok (Prod.ext hx rfl)] at h
    exact ⟨a, rfl, h⟩

theorem decides_map {x : ReadM α} {g : α → β} (hg : Function.Injective g) {a : α} {rest : Bytes} {l : Layout} {P : Prop}
    (h : Decides x rd a rest l P) : Decides (x >>= fun a => ReadM.pure (g a)) rd (g a) rest l P := by
  obtain ⟨hyes, hno⟩ := h
  refine ⟨fun hP => ?_, fun hP heq => ?_⟩
  · obtain ⟨rd', h₁, hrest⟩ := hyes hP
    rw [bind_ok h₁]
    exact ⟨rd', rfl, hrest⟩
  · obtain ⟨a', ha', heq⟩ := bind_eq_ok heq
    obtain rfl : a' = a := hg (Except.ok.inj heq)
    exact hno hP ha'

theorem decides_line (hs : 0 < rd.size) {line s' rest : Bytes} (h : lineOf max what rd.pending = .ok (line, s'))
    {f : Bytes → ReadM α} {a : α} {l : Layout} {P : Prop}
    (hf : ∀ rd' : Reader UInt8, rd'.pending = s' → rd'.size = rd.size →
      rd'.layout = rd.layout.afterPiece rd.size (lineLength rd.pending) → Decides (f line) rd' a rest l P) :
    Decides (readLineFrom max what >>= f) rd a rest l (¬ Split rd.size max rd.pending ∧ P) := by
  obtain ⟨hbad, hgood⟩ := readLineFrom_of_lineOf hs h
  by_cases hsp : Split rd.size max rd.pending
  · obtain ⟨e, he⟩ := hbad hsp
    refine ⟨fun hP => absurd hsp hP.1, fun _ heq => ?_⟩
    rw [bind_error he] at heq
    cases heq
  · obtain ⟨rd', hr, hp, hsize, hlayout, -⟩ := hgood hsp
    obtain ⟨hyes, hno⟩ := hf rd' hp hsize hlayout
    rw [Decides, bind_ok hr]
    simp only [hsp, not_false_eq_true, true_and]
    refine ⟨fun hP => ?_, hno⟩
    obtain ⟨rd'', h₁, h₂, h₃, h₄⟩ := hyes hP
    exact ⟨rd'', h₁, h₂, h₃.trans hsize, h₄⟩

def headerOf (s : Bytes) : Bytes := stripEOL (s.takeWhile (· != 10) ++ [10])

/-- Code that goes on from a header in a way that only the bytes decide, and
that moves the layout by `m`. -/
theorem decides_header (hs : 0 < rd.size) {f : Bytes → ReadM α} {g : Bytes → Bytes → Except ReadErr (α × Bytes)}
    (hf : ∀ line, Refines (f line) (fun _ => g line)) {m : Bytes → Layout → Layout}
    (hm : ∀ line (rd₁ rd₂ : Reader UInt8) a, rd₁.size = rd.size → f line rd₁ = (.ok a, rd₂) →
      rd₂.layout = m line rd₁.layout)
    {a : α} {rest : Bytes} (h : andThen (lineOf max what) g rd.pending = .ok (a, rest)) :
    Decides (readLineFrom max what >>= f) rd a rest
      (m (headerOf rd.pending) (rd.layout.afterPiece rd.size (lineLength rd.pending)))
      (¬ Split rd.size max rd.pending) := by
  obtain ⟨line, s', hline, hrest⟩ := andThen_ok h
  obtain ⟨l, -, -, hstrip, -, htake⟩ := lineOf_ok hline
  rw [headerOf, htake, ← hstrip]
  have hd := decides_line (f := f) (P := True) hs hline fun rd' hp hs' hl' => by
    rw [← hp] at hrest
    obtain ⟨rd'', h₁, h₂, h₃⟩ := (hf line).ok (show 0 < rd'.size by omega) hrest
    exact ⟨fun _ => ⟨rd'', h₁, h₂, h₃, (hm line rd' rd'' a hs' h₁).trans (congrArg _ hl')⟩,
      fun hno => absurd trivial hno⟩
  simpa using hd

theorem refines_integerBody (line : Bytes) :
    Refines (if line.length < 2 then ReadM.throw invalidInteger
      else
        match parseInt (line.drop 1) with
        | none => ReadM.throw invalidInteger
        | some n => ReadM.pure (.integer n)) (fun _ => integerBody line) := by
  unfold integerBody
  by_cases hl : line.length < 2
  · simp only [hl, ↓reduceIte]
    exact refines_throw _
  · simp only [hl, ↓reduceIte]
    cases parseInt (line.drop 1) with
    | none => exact refines_throw _
    | some n => exact refines_pure _

theorem layout_integerBody (line : Bytes) {rd rd' : Reader UInt8} {r : Reply}
    (h : (if line.length < 2 then ReadM.throw invalidInteger
      else
        match parseInt (line.drop 1) with
        | none => ReadM.throw invalidInteger
        | some n => ReadM.pure (.integer n) : ReadM Reply) rd = (.ok r, rd')) : rd'.layout = rd.layout := by
  by_cases hl : line.length < 2
  · simp only [hl, ↓reduceIte] at h
    cases h
  · simp only [hl, ↓reduceIte] at h
    cases hn : parseInt (line.drop 1) with
    | none =>
      rw [hn] at h
      cases h
    | some n =>
      rw [hn] at h
      cases h
      rfl

theorem refines_bulkBody (lim : Limits) (line : Bytes) :
    Refines (match parseInt (line.drop 1) with
      | none => ReadM.throw invalidBulk
      | some n =>
        if n < -1 ∨ n > lim.maxBulkLen then ReadM.throw invalidBulk
        else if n = -1 then ReadM.pure .null
        else do
          let buf ← readFullFrom (n.toNat + 2)
          if buf.drop n.toNat = [13, 10] then ReadM.pure (.bulk (buf.take n.toNat))
          else ReadM.throw (.protocol (ascii "invalid bulk terminator"))) (fun _ => bulkBody lim line) := by
  unfold bulkBody
  cases parseInt (line.drop 1) with
  | none => exact refines_throw _
  | some n =>
    by_cases hr : n < -1 ∨ n > lim.maxBulkLen
    · simp only [hr, ↓reduceIte]
      exact refines_throw _
    · by_cases h1 : n = -1
      · subst h1
        simp only [hr, ↓reduceIte]
        exact refines_pure _
      · simp only [hr, h1, ↓reduceIte]
        refine (refines_readFull (by omega)).bind
          (g := fun buf _ s => if buf.drop n.toNat = [13, 10] then .ok (.bulk (buf.take n.toNat), s)
            else .error (.protocol (ascii "invalid bulk terminator")))
          (fun buf => ?_) (fun _ _ _ h => by rw [andThen, h]) fun _ _ _ _ h => by rw [andThen, h]
        by_cases hend : buf.drop n.toNat = [13, 10]
        · simp only [hend, ↓reduceIte]
          exact refines_pure _
        · simp only [hend, ↓reduceIte]
          exact refines_throw _

def announced (line : Bytes) : Int := (parseInt (line.drop 1)).getD 0

def afterBulk (size : Nat) (line : Bytes) (l : Layout) : Layout :=
  if announced line = -1 then l else l.readFull size ((announced line).toNat + 2)

theorem readFullFrom_snd (n : Nat) (rd : Reader UInt8) : (readFullFrom n rd).2 = (rd.readFull n).2 := by
  simp only [readFullFrom]
  split_ifs <;> rfl

theorem layout_bulkBody (lim : Limits) (line : Bytes) {rd rd' : Reader UInt8} {r : Reply}
    (h : (match parseInt (line.drop 1) with
      | none => ReadM.throw invalidBulk
      | some n =>
        if n < -1 ∨ n > lim.maxBulkLen then ReadM.throw invalidBulk
        else if n = -1 then ReadM.pure .null
        else do
          let buf ← readFullFrom (n.toNat + 2)
          if buf.drop n.toNat = [13, 10] then ReadM.pure (.bulk (buf.take n.toNat))
          else ReadM.throw (.protocol (ascii "invalid bulk terminator")) : ReadM Reply) rd = (.ok r, rd')) :
    rd'.layout = afterBulk rd.size line rd.layout := by
  unfold afterBulk announced
  cases hn : parseInt (line.drop 1) with
  | none =>
    rw [hn] at h
    cases h
  | some n =>
    rw [hn] at h
    simp only [Option.getD_some] at h ⊢
    by_cases hr : n < -1 ∨ n > lim.maxBulkLen
    · simp only [hr, ↓reduceIte] at h
      cases h
    · by_cases h1 : n = -1
      · subst h1
        simp only [hr, ↓reduceIte] at h ⊢
        cases h
        rfl
      · simp only [hr, h1, ↓reduceIte] at h ⊢
        have hfst := congrArg Prod.fst h
        obtain ⟨buf, hbuf, hend⟩ := bind_eq_ok hfst
        rw [bind_ok (Prod.ext hbuf rfl)] at h
        rw [← Reader.layout_readFull, ← readFullFrom_snd]
        by_cases hterm : buf.drop n.toNat = [13, 10]
        · simp only [hterm, ↓reduceIte] at h
          cases h
          rfl
        · simp only [hterm, ↓reduceIte] at h
          cases h

/-- The place where the type byte stood shows a `+` after the line has been
read if and only if the type byte is one. -/
def Kept (size : Nat) (l : Layout) (s : Bytes) : Prop :=
  l.pieceShows size (lineLength s) s = some 43 ↔ s.head? = some 43

instance (size : Nat) (l : Layout) (s : Bytes) : Decidable (Kept size l s) := inferInstanceAs (Decidable (_ ↔ _))

theorem decides_status (hs : 0 < rd.size) {b : UInt8} (hb : rd.unread.head? = some b) {r : Reply} {rest : Bytes}
    (h : statusOf lim b rd.pending = .ok (r, rest)) :
    Decides (readStatusFrom lim) rd r rest (rd.layout.afterPiece rd.size (lineLength rd.pending))
      (¬ Split rd.size lim.maxInlineLen rd.pending ∧ Kept rd.size rd.layout rd.pending) := by
  obtain ⟨line, s', hline, hrest⟩ := andThen_ok h
  obtain ⟨hbad, hgood⟩ := readLineFrom_of_lineOf hs hline
  have hne : line ≠ [] := by
    rintro rfl
    simp at hrest
  rw [if_neg hne] at hrest
  cases hrest
  have hu : rd.unread ≠ [] := by
    rintro hu
    simp [hu] at hb
  have hhead : rd.pending.head? = some b := by
    rw [Reader.pending, List.head?_append_of_ne_nil _ hu, hb]
  unfold Decides readStatusFrom
  by_cases hsp : Split rd.size lim.maxInlineLen rd.pending
  · obtain ⟨e, he⟩ := hbad hsp
    refine ⟨fun hP => absurd hsp hP.1, fun _ => ?_⟩
    generalize readLineFrom lim.maxInlineLen (ascii "simple/error line") rd = p at he ⊢
    obtain ⟨res, rd'⟩ := p
    simp only at he
    subst he
    simp
  · obtain ⟨rd', hr, hp, hsize, hlayout, hshow⟩ := hgood hsp
    rw [Kept, hhead, ← hshow hu]
    simp only [hr, hne, ↓reduceIte, hsp, not_false_eq_true, true_and, Option.some.injEq]
    by_cases hplus : rd'.buffer[rd.index]? = some 43
    · by_cases h43 : b = 43
      · simp [hplus, h43, hp, hsize, hlayout]
      · simp [hplus, h43]
    · by_cases h43 : b = 43
      · simp [hplus, h43]
      · simp [hplus, h43, hp, hsize, hlayout]

section Elements

variable (P : Layout → Bytes → Prop) (move : Layout → Bytes → Layout) (y : Bytes → Except ReadErr (Reply × Bytes))

/-- Each element finds the layout that those before it leave. -/
def SteadyAll : Nat → Layout → Bytes → Prop
  | 0, _, _ => True
  | n + 1, l, s => P l s ∧ ∀ x ∈ (y s).toOption, SteadyAll n (move l s) x.2

def afterAll : Nat → Layout → Bytes → Layout
  | 0, l, _ => l
  | n + 1, l, s =>
    match y s with
    | .error _ => l
    | .ok x => afterAll n (move l s) x.2

end Elements

def afterReply (lim : Limits) (size : Nat) : Nat → Layout → Bytes → Layout
  | 0, l, _ => l
  | fuel + 1, l, s =>
    let l' := (l.peek size).afterPiece size (lineLength s)
    if s.head? = some 36 then afterBulk size (headerOf s) l'
    else if s.head? = some 42 then
      afterAll (afterReply lim size fuel) (replyLoop lim fuel) (announced (headerOf s)).toNat l' (afterLine s)
    else l'

/-- While one reply is read, from bytes that lie as `l` says, no line overruns
a full buffer and every simple string and every error keeps its type byte. -/
def Steady (lim : Limits) (size : Nat) : Nat → Layout → Bytes → Prop
  | 0, _, _ => True
  | fuel + 1, l, s =>
    if s.head? = some 43 ∨ s.head? = some 45 then
      ¬ Split size lim.maxInlineLen s ∧ Kept size (l.peek size) s
    else if s.head? = some 42 then
      ¬ Split size lim.maxHeaderLen s ∧
        SteadyAll (Steady lim size fuel) (afterReply lim size fuel) (replyLoop lim fuel)
          (announced (headerOf s)).toNat ((l.peek size).afterPiece size (lineLength s)) (afterLine s)
    else ¬ Split size lim.maxHeaderLen s

theorem decides_times {size : Nat} {x : ReadM Reply} {y : Bytes → Except ReadErr (Reply × Bytes)}
    {P : Layout → Bytes → Prop} {move : Layout → Bytes → Layout}
    (hx : ∀ rd : Reader UInt8, rd.size = size → ∀ r rest, y rd.pending = .ok (r, rest) →
      Decides x rd r rest (move rd.layout rd.pending) (P rd.layout rd.pending))
    (n : Nat) (hs : rd.size = size) {rs : List Reply} {rest : Bytes} (h : timesOf y n rd.pending = .ok (rs, rest)) :
    Decides (times x n) rd rs rest (afterAll move y n rd.layout rd.pending)
      (SteadyAll P move y n rd.layout rd.pending) := by
  induction n generalizing rd rs with
  | zero =>
    cases h
    exact ⟨fun _ => ⟨rd, rfl, rfl, rfl, rfl⟩, fun hn => absurd trivial hn⟩
  | succ n ih =>
    obtain ⟨r, s', hone, hmore⟩ := andThen_ok h
    obtain ⟨rs', s'', hall, hlast⟩ := andThen_ok hmore
    cases hlast
    obtain ⟨hyes, hno⟩ := hx rd hs r s' hone
    unfold times SteadyAll afterAll
    simp only [hone, Except.toOption, Option.mem_some_iff, forall_eq']
    by_cases hP : P rd.layout rd.pending
    · obtain ⟨rd', hr, hp, hsize, hlayout⟩ := hyes hP
      obtain ⟨hyes', hno'⟩ := decides_map (List.cons_injective (a := r)) (ih (hsize.trans hs) (by rw [hp]; exact hall))
      rw [hlayout, hp] at hyes' hno'
      rw [Decides, bind_ok hr]
      simp only [hP, true_and]
      refine ⟨fun hQ => ?_, hno'⟩
      obtain ⟨rd'', h₁, h₂, h₃, h₄⟩ := hyes' hQ
      exact ⟨rd'', h₁, h₂, h₃.trans hsize, h₄⟩
    · refine ⟨fun hQ => absurd hQ.1 hP, fun _ heq => ?_⟩
      obtain ⟨r₂, hr₂, heq⟩ := bind_eq_ok heq
      obtain ⟨rs₂, -, heq⟩ := bind_eq_ok heq
      cases heq
      exact hno hP hr₂

theorem decides_array (hs : 0 < rd.size) {x : ReadM Reply} {y : Bytes → Except ReadErr (Reply × Bytes)}
    {P : Layout → Bytes → Prop} {move : Layout → Bytes → Layout}
    (hx : ∀ rd' : Reader UInt8, rd'.size = rd.size → ∀ r rest, y rd'.pending = .ok (r, rest) →
      Decides x rd' r rest (move rd'.layout rd'.pending) (P rd'.layout rd'.pending))
    {r : Reply} {rest : Bytes}
    (h : andThen (lineOf lim.maxHeaderLen (ascii "array length")) (arrayBody lim y) rd.pending = .ok (r, rest)) :
    Decides (readArrayReplyFrom lim x) rd r rest
      (afterAll move y (announced (headerOf rd.pending)).toNat
        (rd.layout.afterPiece rd.size (lineLength rd.pending)) (afterLine rd.pending))
      (¬ Split rd.size lim.maxHeaderLen rd.pending ∧
        SteadyAll P move y (announced (headerOf rd.pending)).toNat
          (rd.layout.afterPiece rd.size (lineLength rd.pending)) (afterLine rd.pending)) := by
  obtain ⟨line, s', hline, hrest⟩ := andThen_ok h
  obtain ⟨l, hl, hpend, hstrip, -, htake⟩ := lineOf_ok hline
  have hheader : headerOf rd.pending = line := by rw [headerOf, htake, hstrip]
  have hafter : afterLine rd.pending = s' := by
    rw [afterLine, hpend, (takeWhile_line hl s').2]
    rfl
  rw [hheader, hafter]
  unfold readArrayReplyFrom
  refine decides_line hs hline fun rd' hp hsize hlayout => ?_
  rw [← hlayout, ← hp]
  unfold arrayBody at hrest
  unfold announced
  cases hnum : parseInt (line.drop 1) with
  | none =>
    rw [hnum] at hrest
    cases hrest
  | some n =>
    simp only [hnum] at hrest
    split at hrest
    · cases hrest
    · rename_i hrange
      simp only [hrange, ↓reduceIte, Option.getD_some]
      split at hrest
      · rename_i h1
        cases hrest
        subst h1
        exact ⟨fun _ => ⟨rd', rfl, hp, rfl, rfl⟩, fun hno => absurd trivial hno⟩
      · rename_i h1
        obtain ⟨rs, s'', hall, hlast⟩ := andThen_ok hrest
        cases hlast
        simp only [h1, ↓reduceIte]
        exact decides_map (fun _ _ => Reply.array.inj) (decides_times hx n.toNat hsize (by rw [hp]; exact hall))

/-- What one reply is read as, by induction on the depth of its arrays. -/
theorem decides_reply (lim : Limits) {size : Nat} (hpos : 0 < size) (fuel : Nat) :
    ∀ rd : Reader UInt8, rd.size = size → ∀ r rest, replyLoop lim fuel rd.pending = .ok (r, rest) →
      Decides (readReplyLoop lim fuel) rd r rest (afterReply lim size fuel rd.layout rd.pending)
        (Steady lim size fuel rd.layout rd.pending) := by
  induction fuel with
  | zero =>
    intro rd _ r rest h
    cases h
  | succ fuel ih =>
    intro rd hs r rest h
    have hsize := rd.peek_size
    have hpend := rd.peek_pending
    have hhead := rd.peek_head
    have hlayout := rd.layout_peek
    have hfirst : rd.peek.1 = rd.pending.head? := Reader.peek_eq_head (by omega)
    unfold replyLoop at h
    unfold Steady afterReply
    rw [← hs]
    rw [← hfirst] at h ⊢
    rw [← hlayout]
    rcases hp : rd.peek with ⟨o, rd₁⟩
    rw [hp] at h hsize hpend hhead
    simp only at h hsize hpend hhead ⊢
    rw [← hpend] at h ⊢
    rw [← hsize]
    have hs₁ : 0 < rd₁.size := by omega
    have ih' : ∀ rd' : Reader UInt8, rd'.size = rd₁.size → ∀ r rest, replyLoop lim fuel rd'.pending = .ok (r, rest) →
        Decides (readReplyLoop lim fuel) rd' r rest (afterReply lim rd₁.size fuel rd'.layout rd'.pending)
          (Steady lim rd₁.size fuel rd'.layout rd'.pending) := by
      rw [hsize, hs]
      exact ih
    cases o with
    | none => cases h
    | some b =>
      simp only at h
      -- the size of the reader is that before the peek
      rw [Decides, readReplyLoop_peek hp, ← hsize, ← Decides]
      simp only [Option.some.injEq]
      unfold dispatchReply
      by_cases hb : b = 43 ∨ b = 45
      · have h36 : b ≠ 36 := by obtain rfl | rfl := hb <;> decide
        have h42 : b ≠ 42 := by obtain rfl | rfl := hb <;> decide
        simp only [hb, h36, h42, ↓reduceIte] at h ⊢
        exact decides_status hs₁ hhead.symm h
      · by_cases h58 : b = 58
        · subst h58
          simp only [hb, ↓reduceIte] at h ⊢
          exact decides_header hs₁ refines_integerBody (m := fun _ l => l)
            (fun line _ _ _ _ => layout_integerBody line) h
        · by_cases h36 : b = 36
          · subst h36
            simp only [hb, h58, ↓reduceIte] at h ⊢
            exact decides_header hs₁ (refines_bulkBody lim) (m := afterBulk rd₁.size)
              (fun line _ _ _ hsz hok => hsz ▸ layout_bulkBody lim line hok) h
          · by_cases h42 : b = 42
            · subst h42
              simp only [hb, h58, h36, ↓reduceIte] at h ⊢
              exact decides_array hs₁ ih' h
            · simp only [hb, h58, h36, h42, ↓reduceIte] at h
              cases h

/-- The type byte of a line that fits in the buffer is kept if the line is
there, if no more bytes arrive than were in front of it, or if the byte that
comes to its place is as good. -/
theorem kept_iff_of_fits {size : Nat} {l : Layout} {s : Bytes} (hfit : lineLength s ≤ size) :
    Kept size l s ↔ lineLength s ≤ l.unread ∨ (l.gather size (lineLength s)).unread ≤ l.index ∨
      (s[l.index]? = some 43 ↔ s.head? = some 43) := by
  obtain ⟨hq, hl⟩ := Layout.fullSlices_fits (by simp [lineLength]) hfit
  rw [Kept, Layout.pieceShows, hq, hl, Layout.slicesShow, Layout.sliceShows]
  by_cases hu : l.unread < lineLength s
  · by_cases hi : l.index < (l.gather size (lineLength s)).unread
    · simp [hu, hi, not_le.mpr hu, not_le.mpr hi]
    · simp [hi, not_lt.mp hi]
  · simp [hu, not_lt.mp hu]

/-- A reply that the bytes of a stream spell out is read, and the bytes after
it left unread, if and only if the way they lie in the buffer and in the chunks
is steady for it. -/
theorem reply_read_iff_steady (lim : Limits) {rd : Reader UInt8} (hs : 0 < rd.size) {r : Reply} {rest : Bytes}
    (h : replyOf lim rd.pending = .ok (r, rest)) :
    ((∃ rd', readReplyFrom lim rd = (.ok r, rd') ∧ rd'.pending = rest) ↔
        Steady lim rd.size (rd.pending.length + 1) rd.layout rd.pending) ∧
      ∀ l : Layout, lineLength rd.pending ≤ rd.size → (Kept rd.size l rd.pending ↔
        lineLength rd.pending ≤ l.unread ∨ (l.gather rd.size (lineLength rd.pending)).unread ≤ l.index ∨
          (rd.pending[l.index]? = some 43 ↔ rd.pending.head? = some 43)) := by
  obtain ⟨hyes, hno⟩ := decides_reply lim hs (rd.pending.length + 1) rd rfl r rest h
  refine ⟨⟨fun hread => ?_, fun hst => ?_⟩, fun l hfit => kept_iff_of_fits hfit⟩
  · obtain ⟨rd', hr, -⟩ := hread
    by_contra hst
    refine hno hst ?_
    change (readReplyFrom lim rd).1 = _
    rw [hr]
  · obtain ⟨rd', h₁, h₂, -⟩ := hyes hst
    exact ⟨rd', h₁, h₂⟩

def cutPong : Reader UInt8 where
  done := ascii "+OK\r\n"
  unread := ascii "+PO"
  spare := List.replicate 8 0
  chunks := [ascii "NG\r\n"]
  nonempty := by decide

def wholePong : Reader UInt8 := buffered (ascii "+PONG\r\n")

/-- A reply in two pieces that ends before it reaches its own place. -/
def shortPong : Reader UInt8 where
  done := ascii "+OK\r\n"
  unread := ascii "+P"
  spare := List.replicate 9 0
  chunks := [ascii "O\r\n"]
  nonempty := by decide

theorem shortPong_read :
    Steady defaultLimits shortPong.size (shortPong.pending.length + 1) shortPong.layout shortPong.pending ∧
      ∃ rd', readReplyFrom defaultLimits shortPong = (.ok (.simple (ascii "PO")), rd') ∧ rd'.pending = [] := by
  have hst : Steady defaultLimits shortPong.size (shortPong.pending.length + 1) shortPong.layout shortPong.pending :=
    show ¬ Split _ _ _ ∧ Kept _ _ _ by decide
  exact ⟨hst, (reply_read_iff_steady defaultLimits (by decide) rfl).1.mpr hst⟩

/-- The same bytes are a simple string or an error, as they arrive. -/
theorem cutPong_read_as_error :
    cutPong.size = 16 ∧ cutPong.pending = wholePong.pending ∧
      (readReplyFrom defaultLimits wholePong).1 = .ok (.simple (ascii "PONG")) ∧
      (readReplyFrom defaultLimits cutPong).1 = .ok (.error (ascii "PONG")) :=
  ⟨by decide, by decide, rfl, rfl⟩

end MemX.RespReplyView
