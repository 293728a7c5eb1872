import MemX.BufReader
import MemX.RespRoundTrip

namespace MemX.RespBuffered

open DecimalText BufReader RespRead RespWrite RespRoundTrip

variable {α β : Type}

def ReadM (α : Type) : Type := Reader UInt8 → Except ReadErr α × Reader UInt8

namespace ReadM

def pure (a : α) : ReadM α := fun rd => (.ok a, rd)

def throw (e : ReadErr) : ReadM α := fun rd => (.error e, rd)

def bind (x : ReadM α) (f : α → ReadM β) : ReadM β := fun rd =>
  match x rd with
  | (.error e, rd) => (.error e, rd)
  | (.ok a, rd) => f a rd

instance : Monad ReadM where
  pure := ReadM.pure
  bind := ReadM.bind

end ReadM

open ReadM

/-! The functions of the reader over an explicit buffer. -/

def readLineLoopFrom (max : Int) (what : Bytes) : Nat → Bytes → ReadM Bytes
  | 0, _ => throw .eof
  | fuel + 1, line => fun rd =>
    match rd.readSlice 10 with
    | (.found frag, rd) =>
      let line := stripEOL (line ++ frag)
      if line.length > max then (.error (.protocol (ascii "too big " ++ what)), rd) else (.ok line, rd)
    | (.full frag, rd) =>
      if (line ++ frag).length > max then (.error (.protocol (ascii "too big " ++ what)), rd)
      else readLineLoopFrom max what fuel (line ++ frag) rd
    | (.eof, rd) => (.error .eof, rd)

def readLineFrom (max : Int) (what : Bytes) : ReadM Bytes := fun rd =>
  readLineLoopFrom max what (rd.pending.length + 1) [] rd

def readFullFrom (n : Nat) : ReadM Bytes := fun rd =>
  let (buf, rd) := rd.readFull n
  if buf.length ≥ n then (.ok buf, rd) else if buf = [] then (.error .eof, rd) else (.error .unexpectedEOF, rd)

def readPayloadFrom (n : Nat) : ReadM Bytes := do
  let buf ← readFullFrom (n + 2)
  if buf.drop n = [13, 10] then ReadM.pure (buf.take n) else throw invalidBulk

def readBulkFrom (lim : Limits) : ReadM Bytes := do
  let bl ← readLineFrom lim.maxHeaderLen (ascii "header line")
  if bl.head? = some 36 then
    match bulkLength lim (bl.drop 1) with
    | none => throw invalidBulk
    | some n => readPayloadFrom n
  else throw (.protocol (expectedDollar bl))

def times (x : ReadM α) : Nat → ReadM (List α)
  | 0 => ReadM.pure []
  | n + 1 => do
    let a ← x
    let as ← times x n
    ReadM.pure (a :: as)

def readMultibulkFrom (lim : Limits) : ReadM (List Bytes) := do
  let line ← readLineFrom lim.maxHeaderLen (ascii "header line")
  match parseInt (line.drop 1) with
  | none => throw invalidMultibulk
  | some n => if n ≤ 0 ∨ n > lim.maxArgs then throw invalidMultibulk else times (readBulkFrom lim) n.toNat

def readInlineFrom (lim : Limits) : ReadM (List Bytes) := do
  let line ← readLineFrom lim.maxInlineLen (ascii "inline request")
  let fields := Utf8Runes.fields line
  if fields = [] then throw (.protocol (ascii "empty command"))
  else if fields.length > lim.maxArgs then throw (.protocol (ascii "too many arguments"))
  else ReadM.pure fields

def readCommandFrom (lim : Limits) : ReadM (List Bytes) := fun rd =>
  match rd.peek with
  | (none, rd) => (.error .eof, rd)
  | (some b, rd) => if b = 42 then readMultibulkFrom lim rd else readInlineFrom lim rd

/-- The outcome of a read from a buffer of `size` bytes, and the same outcome
of a read from the bytes to come, with the bytes that it leaves. -/
inductive Agree (size : Nat) : Except ReadErr α × Reader UInt8 → Except ReadErr (α × Bytes) → Prop
  | ok (a : α) (rd : Reader UInt8) (hs : rd.size = size) : Agree size (.ok a, rd) (.ok (a, rd.pending))
  | error (e : ReadErr) (rd : Reader UInt8) (hs : rd.size = size) : Agree size (.error e, rd) (.error e)

/-- A reader over a buffer does what a reader over the bytes to come does,
whatever the buffer holds and however the bytes arrive. -/
def Refines (x : ReadM α) (y : Nat → Bytes → Except ReadErr (α × Bytes)) : Prop :=
  ∀ rd : Reader UInt8, 0 < rd.size → Agree rd.size (x rd) (y rd.size rd.pending)

theorem refines_throw (e : ReadErr) : Refines (throw e : ReadM α) (fun _ _ => .error e) :=
  fun rd _ => .error e rd rfl

theorem refines_pure (a : α) : Refines (ReadM.pure a) (fun _ s => .ok (a, s)) := fun rd _ => .ok a rd rfl

theorem Refines.bind {x : ReadM α} {y : Nat → Bytes → Except ReadErr (α × Bytes)} (hx : Refines x y)
    {f : α → ReadM β} {g : α → Nat → Bytes → Except ReadErr (β × Bytes)} (hf : ∀ a, Refines (f a) (g a))
    {z : Nat → Bytes → Except ReadErr (β × Bytes)} (he : ∀ n s e, y n s = .error e → z n s = .error e)
    (ho : ∀ n s a rest, y n s = .ok (a, rest) → z n s = g a n rest) : Refines (x >>= f) z := by
  intro rd hs
  have h := hx rd hs
  change Agree rd.size (match x rd with | (.error e, rd) => (.error e, rd) | (.ok a, rd) => f a rd) _
  generalize x rd = p at h ⊢
  generalize hy : y rd.size rd.pending = q at h
  cases h with
  | error e rd' hs' =>
    rw [he _ _ _ hy]
    exact .error e rd' hs'
  | ok a rd' hs' =>
    rw [ho _ _ _ _ hy, ← hs']
    exact hf a rd' (by omega)

theorem Refines.ok {x : ReadM α} {y : Nat → Bytes → Except ReadErr (α × Bytes)} (hx : Refines x y)
    {rd : Reader UInt8} (hs : 0 < rd.size) {a : α} {rest : Bytes} (hy : y rd.size rd.pending = .ok (a, rest)) :
    ∃ rd', x rd = (.ok a, rd') ∧ rd'.pending = rest ∧ rd'.size = rd.size := by
  have h := hx rd hs
  rw [hy] at h
  generalize x rd = p at h ⊢
  cases h with
  | ok a rd' hs' => exact ⟨rd', rfl, rfl, hs'⟩

theorem Refines.eq_of_ok {x : ReadM α} {y : Nat → Bytes → Except ReadErr (α × Bytes)} (hx : Refines x y)
    {rd rd' : Reader UInt8} (hs : 0 < rd.size) {a : α} (h : x rd = (.ok a, rd')) :
    y rd.size rd.pending = .ok (a, rd'.pending) := by
  have hagree := hx rd hs
  rw [h] at hagree
  generalize y rd.size rd.pending = q at hagree ⊢
  cases hagree with
  | ok _ _ _ => rfl

inductive SliceAgree (size : Nat) : Reader.Slice UInt8 × Reader UInt8 → RespRead.Slice → Prop
  | found (frag : Bytes) (rd : Reader UInt8) (hs : rd.size = size) :
      SliceAgree size (.found frag, rd) (.found frag rd.pending)
  | full (frag : Bytes) (rd : Reader UInt8) (hs : rd.size = size) :
      SliceAgree size (.full frag, rd) (.full frag rd.pending)
  | eof (rd : Reader UInt8) (hs : rd.size = size) : SliceAgree size (.eof, rd) .eof

theorem readSlice_agree {rd : Reader UInt8} (hs : 0 < rd.size) :
    SliceAgree rd.size (rd.readSlice 10) (RespRead.readSlice rd.size rd.pending) := by
  obtain ⟨h₁, h₂, h₃⟩ := rd.readSlice_spec 10 hs
  have hne : (fun b : UInt8 => b != 10) = fun b => decide (b ≠ 10) := by
    funext b
    simp [bne, beq_eq_decide]
  generalize rd.readSlice 10 = p at h₁ h₂ h₃ ⊢
  obtain ⟨out, rd'⟩ := p
  simp only at h₁ h₂ h₃
  unfold Reader.sliceOf at h₁ h₂
  unfold RespRead.readSlice
  by_cases hm : (10 : UInt8) ∈ rd.pending.take rd.size
  · rw [if_pos hm] at h₁ h₂
    simp only at h₁ h₂
    rw [if_pos hm, hne, h₁, ← h₂]
    exact .found _ rd' h₃
  · rw [if_neg hm] at h₁ h₂
    rw [if_neg hm]
    by_cases hlen : rd.size ≤ rd.pending.length
    · rw [if_pos hlen] at h₁ h₂
      simp only at h₁ h₂
      rw [if_pos hlen, h₁, ← h₂]
      exact .full _ rd' h₃
    · rw [if_neg hlen] at h₁
      rw [if_neg hlen, h₁]
      exact .eof rd' h₃

theorem refines_readLineLoop (max : Int) (what : Bytes) (fuel : Nat) (line : Bytes) :
    Refines (readLineLoopFrom max what fuel line) (fun n s => readLineLoop n max what fuel line s) := by
  induction fuel generalizing line with
  | zero => exact refines_throw .eof
  | succ fuel ih =>
    intro rd hs
    have h := readSlice_agree hs
    beta_reduce
    unfold readLineLoopFrom readLineLoop
    generalize rd.readSlice 10 = p at h ⊢
    generalize RespRead.readSlice rd.size rd.pending = q at h ⊢
    cases h with
    | found frag rd' hs' =>
      simp only
      split
      · exact .error _ rd' hs'
      · exact .ok _ rd' hs'
    | full frag rd' hs' =>
      simp only
      split
      · exact .error _ rd' hs'
      · rw [← hs'] at hs ⊢
        exact ih _ rd' hs
    | eof rd' hs' => exact .error _ rd' hs'

theorem refines_readLine (max : Int) (what : Bytes) :
    Refines (readLineFrom max what) (fun n s => readLine n max what s) :=
  fun rd hs => refines_readLineLoop max what (rd.pending.length + 1) [] rd hs

theorem refines_readFull {n : Nat} (hn : 0 < n) : Refines (readFullFrom n) (fun _ s => readFull n s) := by
  intro rd hs
  obtain ⟨h₁, h₂, h₃⟩ := rd.readFull_spec n hs
  unfold readFullFrom readFull
  rcases hr : rd.readFull n with ⟨buf, rd'⟩
  rw [hr] at h₁ h₂ h₃
  simp only at h₁ h₂ h₃ ⊢
  subst h₁
  rw [← h₂, List.length_take]
  by_cases hlen : rd.pending.length ≥ n
  · rw [if_pos (by omega), if_pos hlen]
    exact .ok _ rd' h₃
  · rw [if_neg (by omega), if_neg hlen]
    have hnil : rd.pending.take n = [] ↔ rd.pending = [] := by
      rw [List.take_eq_nil_iff]
      exact ⟨fun h => h.resolve_left (by omega), Or.inr⟩
    by_cases he : rd.pending = []
    · rw [if_pos (hnil.mpr he), if_pos he]
      exact .error _ rd' h₃
    · rw [if_neg (fun h => he (hnil.mp h)), if_neg he]
      exact .error _ rd' h₃

theorem refines_readPayload (n : Nat) : Refines (readPayloadFrom n) (fun _ s => readPayload n s) := by
  unfold readPayloadFrom
  refine (refines_readFull (by omega)).bind
    (g := fun buf _ s => if buf.drop n = [13, 10] then .ok (buf.take n, s) else .error invalidBulk)
    (fun buf => ?_) (fun _ _ _ h => by rw [readPayload, h]) fun _ _ _ _ h => by rw [readPayload, h]
  by_cases h : buf.drop n = [13, 10]
  · simp only [h, ↓reduceIte]
    exact refines_pure _
  · simp only [h, ↓reduceIte]
    exact refines_throw _

theorem refines_readBulk (lim : Limits) : Refines (readBulkFrom lim) (fun n s => readBulk n lim s) := by
  unfold readBulkFrom
  refine (refines_readLine lim.maxHeaderLen (ascii "header line")).bind
    (g := fun bl _ s =>
      if bl.head? = some 36 then
        match bulkLength lim (bl.drop 1) with
        | none => .error invalidBulk
        | some n => readPayload n s
      else .error (.protocol (expectedDollar bl)))
    (fun bl => ?_) (fun _ _ _ h => by rw [readBulk, h]) fun _ _ bl _ h => ?_
  rotate_left
  · cases hb : bulkLength lim (bl.drop 1) <;> simp only [readBulk, h, hb]
  by_cases h : bl.head? = some 36
  · simp only [h, ↓reduceIte]
    cases bulkLength lim (bl.drop 1) with
    | none => exact refines_throw _
    | some n => exact refines_readPayload n
  · simp only [h, ↓reduceIte]
    exact refines_throw _

theorem refines_readBulks (lim : Limits) (k : Nat) :
    Refines (times (readBulkFrom lim) k) (fun n s => readBulks n lim k s) := by
  induction k with
  | zero => exact refines_pure _
  | succ k ih =>
    unfold times
    refine (refines_readBulk lim).bind
      (g := fun arg n s => (readBulks n lim k s).map fun p => (arg :: p.1, p.2))
      (fun arg => ?_) (fun _ _ _ h => by rw [readBulks, h]) fun n _ _ s h => ?_
    rotate_left
    · cases hb : readBulks n lim k s <;> simp only [readBulks, h, hb, Except.map]
    exact ih.bind (fun args => refines_pure _) (fun _ _ _ h => by rw [h]; rfl) fun _ _ _ _ h => by rw [h]; rfl

theorem refines_readMultibulk (lim : Limits) :
    Refines (readMultibulkFrom lim) (fun n s => readMultibulk n lim s) := by
  unfold readMultibulkFrom
  refine (refines_readLine lim.maxHeaderLen (ascii "header line")).bind
    (g := fun line n s =>
      match parseInt (line.drop 1) with
      | none => .error invalidMultibulk
      | some k => if k ≤ 0 ∨ k > lim.maxArgs then .error invalidMultibulk else readBulks n lim k.toNat s)
    (fun line => ?_) (fun _ _ _ h => by rw [readMultibulk, h]) fun _ _ line _ h => ?_
  rotate_left
  · cases hp : parseInt (line.drop 1) <;> simp only [readMultibulk, h, hp]
  cases parseInt (line.drop 1) with
  | none => exact refines_throw _
  | some k =>
    by_cases h : k ≤ 0 ∨ k > lim.maxArgs
    · simp only [h, ↓reduceIte]
      exact refines_throw _
    · simp only [h, ↓reduceIte]
      exact refines_readBulks lim k.toNat

theorem refines_readInline (lim : Limits) : Refines (readInlineFrom lim) (fun n s => readInline n lim s) := by
  unfold readInlineFrom
  refine (refines_readLine lim.maxInlineLen (ascii "inline request")).bind
    (g := fun line _ s =>
      if Utf8Runes.fields line = [] then .error (.protocol (ascii "empty command"))
      else if (Utf8Runes.fields line).length > lim.maxArgs then .error (.protocol (ascii "too many arguments"))
      else .ok (Utf8Runes.fields line, s))
    (fun line => ?_) (fun _ _ _ h => by rw [readInline, h]) fun _ _ _ _ h => by rw [readInline, h]
  by_cases h : Utf8Runes.fields line = []
  · simp only [h, ↓reduceIte]
    exact refines_throw _
  · by_cases hn : (Utf8Runes.fields line).length > lim.maxArgs
    · simp only [h, hn, ↓reduceIte]
      exact refines_throw _
    · simp only [h, hn, ↓reduceIte]
      exact refines_pure _

/-- `ReadCommand` depends only on the bytes to come and on the buffer's size. -/
theorem refines_readCommand (lim : Limits) : Refines (readCommandFrom lim) (fun n s => readCommand n lim s) := by
  intro rd hs
  have hsize := rd.peek_size
  have hpend := rd.peek_pending
  have hhead := rd.peek_eq_head hs
  beta_reduce
  unfold readCommandFrom readCommand
  rcases hp : rd.peek with ⟨b, rd'⟩
  rw [hp] at hsize hpend hhead
  simp only at hsize hpend hhead
  rw [← hhead, ← hpend, ← hsize]
  cases b with
  | none =>
    have hnil : rd'.pending = [] := by
      rw [hpend]
      exact List.head?_eq_none_iff.mp hhead.symm
    rw [if_pos hnil]
    exact .error _ rd' rfl
  | some b =>
    have hne : rd'.pending ≠ [] := by
      rw [hpend]
      rintro hnil
      rw [hnil] at hhead
      cases hhead
    rw [if_neg hne]
    by_cases hb : b = 42
    · rw [if_pos (by rw [hb])]
      simp only [hb, ↓reduceIte]
      exact refines_readMultibulk lim rd' (by omega)
    · rw [if_neg (by simpa using hb)]
      simp only [hb, ↓reduceIte]
      exact refines_readInline lim rd' (by omega)

/-- Pipelined commands are read back one by one, whatever the limits, the
chunks and the bytes after them. -/
theorem pipeline_roundtrip {lim : Limits} (hh : 21 ≤ lim.maxHeaderLen) (hb : lim.maxBulkLen < 2 ^ 63)
    (ha : lim.maxArgs < 2 ^ 63) {cmds : List (List Bytes)} (h : ∀ c ∈ cmds, Within lim c) {tail : Bytes}
    {rd : Reader UInt8} (hs : 0 < rd.size) (hp : rd.pending = cmds.flatMap encodeCommand ++ tail) :
    ∃ rd', times (readCommandFrom lim) cmds.length rd = (.ok cmds, rd') ∧ rd'.pending = tail := by
  induction cmds generalizing rd with
  | nil => exact ⟨rd, rfl, by simpa using hp⟩
  | cons c cmds ih =>
    obtain ⟨hc, hcmds⟩ := List.forall_mem_cons.mp h
    have hone : readCommand rd.size lim rd.pending = .ok (c, cmds.flatMap encodeCommand ++ tail) := by
      rw [hp, List.flatMap_cons, List.append_assoc]
      exact readCommand_encode hs hh hb ha hc _
    obtain ⟨rd₁, hr₁, hp₁, hs₁⟩ := (refines_readCommand lim).ok hs hone
    obtain ⟨rd₂, hr₂, hp₂⟩ := ih hcmds (by omega) hp₁
    refine ⟨rd₂, ?_, hp₂⟩
    change (readCommandFrom lim).bind _ rd = _
    rw [ReadM.bind, hr₁]
    change (times (readCommandFrom lim) cmds.length).bind _ rd₁ = _
    rw [ReadM.bind, hr₂]
    rfl

/-- Two commands and three bytes more, cut inside a header and inside a
command. -/
def cutInput : Reader UInt8 where
  done := []
  unread := ascii "*1\r\n$4"
  spare := List.replicate 10 0
  chunks := [ascii "\r\nPING\r\n*2\r\n", ascii "$3\r\nGET\r\n$1\r\nk\r\nxyz"]
  nonempty := by decide

def cutCommands : List (List Bytes) := [[ascii "PING"], [ascii "GET", ascii "k"]]

theorem cutInput_read :
    ∃ rd', times (readCommandFrom defaultLimits) cutCommands.length cutInput = (.ok cutCommands, rd') ∧
      rd'.pending = ascii "xyz" :=
  pipeline_roundtrip (by decide) (by decide) (by decide) (by decide) (by decide) (by decide)

end MemX.RespBuffered
