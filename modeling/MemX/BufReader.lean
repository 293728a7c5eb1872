import Mathlib.Data.List.Basic
import Mathlib.Tactic

namespace MemX.BufReader

variable {α : Type}

/-- A buffered reader. The buffer is cut at the read index and at the write
index: `done` has been read, `unread` has arrived and not been read, and
`spare` holds whatever bytes an earlier use left there. The rest of the input
arrives in nonempty chunks. -/
@[ext]
structure Reader (α : Type) where
  done : List α
  unread : List α
  spare : List α
  chunks : List (List α)
  nonempty : ∀ c ∈ chunks, c ≠ []

namespace Reader

def buffer (rd : Reader α) : List α := rd.done ++ (rd.unread ++ rd.spare)

def size (rd : Reader α) : Nat := rd.buffer.length

def index (rd : Reader α) : Nat := rd.done.length

def pending (rd : Reader α) : List α := rd.unread ++ rd.chunks.flatten

theorem size_eq (rd : Reader α) : rd.size = rd.done.length + (rd.unread.length + rd.spare.length) := by
  simp [size, buffer]

theorem unread_le_size (rd : Reader α) : rd.unread.length ≤ rd.size := by
  rw [size_eq]
  omega

/-- Move the unread bytes to the front of the buffer. The bytes behind them
stay as they are. -/
def slide (rd : Reader α) : Reader α where
  done := []
  unread := rd.unread
  spare := rd.buffer.drop rd.unread.length
  chunks := rd.chunks
  nonempty := rd.nonempty

def receive (n : Nat) : List (List α) → List α × List (List α)
  | [] => ([], [])
  | c :: cs => (c.take n, if c.length ≤ n then cs else c.drop n :: cs)

theorem receive_flatten (n : Nat) (cs : List (List α)) : (receive n cs).1 ++ (receive n cs).2.flatten = cs.flatten := by
  cases cs with
  | nil => rfl
  | cons c cs =>
    simp only [receive]
    split
    · rename_i h
      rw [List.take_of_length_le h, List.flatten_cons]
    · rw [List.flatten_cons, List.flatten_cons, ← List.append_assoc, List.take_append_drop]

theorem receive_length_le (n : Nat) (cs : List (List α)) : (receive n cs).1.length ≤ n := by
  cases cs with
  | nil => exact Nat.zero_le n
  | cons c cs => simp [receive]

theorem receive_nonempty {n : Nat} {cs : List (List α)} (h : ∀ c ∈ cs, c ≠ []) :
    ∀ c ∈ (receive n cs).2, c ≠ [] := by
  cases cs with
  | nil => exact h
  | cons c cs =>
    simp only [receive]
    split
    · exact (List.forall_mem_cons.mp h).2
    · rename_i hn
      refine List.forall_mem_cons.mpr ⟨fun hd => hn ?_, (List.forall_mem_cons.mp h).2⟩
      exact List.drop_eq_nil_iff.mp hd

theorem receive_pos {n : Nat} (hn : 0 < n) {cs : List (List α)} (h : ∀ c ∈ cs, c ≠ []) (hc : cs ≠ []) :
    0 < (receive n cs).1.length := by
  cases cs with
  | nil => exact absurd rfl hc
  | cons c cs =>
    have hpos := List.length_pos_iff.mpr (h c (by simp))
    simp only [receive, List.length_take]
    omega

/-- `fill`: slide, then read once into the free part of the buffer. -/
def fill (rd : Reader α) : Reader α where
  done := []
  unread := rd.unread ++ (receive rd.slide.spare.length rd.chunks).1
  spare := rd.slide.spare.drop (receive rd.slide.spare.length rd.chunks).1.length
  chunks := (receive rd.slide.spare.length rd.chunks).2
  nonempty := receive_nonempty rd.nonempty

theorem spare_slide (rd : Reader α) : rd.slide.spare.length = rd.size - rd.unread.length := by
  simp [slide, size]

theorem fill_size (rd : Reader α) : rd.fill.size = rd.size := by
  have hs := rd.spare_slide
  have hle := rd.unread_le_size
  have hr := receive_length_le rd.slide.spare.length rd.chunks
  have h : rd.fill.size = rd.unread.length + (receive rd.slide.spare.length rd.chunks).1.length +
      (rd.slide.spare.length - (receive rd.slide.spare.length rd.chunks).1.length) := by
    simp only [size_eq, fill, List.length_nil, List.length_append, List.length_drop]
    omega
  omega

theorem fill_pending (rd : Reader α) : rd.fill.pending = rd.pending := by
  simp only [pending, fill, List.append_assoc, receive_flatten]

theorem fill_grows {rd : Reader α} (hroom : rd.unread.length < rd.size) (hc : rd.chunks ≠ []) :
    rd.unread.length < rd.fill.unread.length := by
  have hs := rd.spare_slide
  have hpos := receive_pos (n := rd.slide.spare.length) (by omega) rd.nonempty hc
  simp only [fill, List.length_append]
  omega

def advance (n : Nat) (rd : Reader α) : Reader α where
  done := rd.done ++ rd.unread.take n
  unread := rd.unread.drop n
  spare := rd.spare
  chunks := rd.chunks
  nonempty := rd.nonempty

theorem advance_buffer (n : Nat) (rd : Reader α) : (rd.advance n).buffer = rd.buffer := by
  simp only [buffer, advance, List.append_assoc]
  rw [← List.append_assoc (rd.unread.take n), List.take_append_drop]

theorem advance_size (n : Nat) (rd : Reader α) : (rd.advance n).size = rd.size := by
  rw [size, advance_buffer, size]

theorem advance_pending {n : Nat} {rd : Reader α} (h : n ≤ rd.unread.length) :
    (rd.advance n).pending = rd.pending.drop n := by
  simp only [pending, advance]
  rw [List.drop_append_of_le_length h]

theorem advance_advance (m n : Nat) (rd : Reader α) : (rd.advance m).advance n = rd.advance (m + n) := by
  apply Reader.ext
  · simp only [advance, List.append_assoc, List.take_add]
  · simp only [advance, List.drop_drop]
  · rfl
  · rfl

theorem advance_unread {u v : List α} {rd : Reader α} (h : rd.unread = u ++ v) : (rd.advance u.length).unread = v := by
  rw [advance, h, List.drop_left]

/-- `Peek(1)`. The element stands at the read index of the reader returned. -/
def peek (rd : Reader α) : Option α × Reader α :=
  if rd.unread = [] then (rd.fill.unread.head?, rd.fill) else (rd.unread.head?, rd)

theorem peek_size (rd : Reader α) : rd.peek.2.size = rd.size := by
  unfold peek
  split
  · exact rd.fill_size
  · rfl

theorem peek_pending (rd : Reader α) : rd.peek.2.pending = rd.pending := by
  unfold peek
  split
  · exact rd.fill_pending
  · rfl

theorem peek_head (rd : Reader α) : rd.peek.1 = rd.peek.2.unread.head? := by
  unfold peek
  split <;> rfl

theorem peek_buffered {rd : Reader α} {x : α} {xs : List α} (h : rd.unread = x :: xs) : rd.peek = (some x, rd) := by
  rw [peek, if_neg (by simp [h]), h]
  rfl

theorem peek_unread {rd : Reader α} (hs : 0 < rd.size) (h : rd.pending ≠ []) : rd.peek.2.unread ≠ [] := by
  unfold peek
  split
  · rename_i hu
    have hc : rd.chunks ≠ [] := by
      rintro hc
      simp [pending, hu, hc] at h
    have hg : rd.unread.length < rd.fill.unread.length := fill_grows (by simpa [hu] using hs) hc
    exact List.ne_nil_of_length_pos (Nat.zero_lt_of_lt hg)
  · assumption

theorem peek_eq_head {rd : Reader α} (hs : 0 < rd.size) : rd.peek.1 = rd.pending.head? := by
  rw [peek_head, ← rd.peek_pending]
  by_cases h : rd.pending = []
  · have hp : rd.peek.2.pending = [] := by rw [peek_pending, h]
    have hu : rd.peek.2.unread = [] := (List.append_eq_nil_iff.mp hp).1
    rw [hp, hu]
  · obtain ⟨x, xs, hx⟩ := List.exists_cons_of_ne_nil (peek_unread hs h)
    simp [pending, hx]

section Slice

variable [DecidableEq α]

inductive Slice (α : Type)
  | found (frag : List α)
  | full (frag : List α)
  | eof

def readSliceLoop (delim : α) : Nat → Reader α → Slice α × Reader α
  | 0, rd => (.eof, rd)
  | fuel + 1, rd =>
    if delim ∈ rd.unread then
      let frag := rd.unread.takeWhile (· ≠ delim) ++ [delim]
      (.found frag, rd.advance frag.length)
    else if rd.size ≤ rd.unread.length then (.full rd.unread, rd.advance rd.unread.length)
    else if rd.chunks = [] then (.eof, rd.fill.advance rd.fill.unread.length)
    else readSliceLoop delim fuel rd.fill

def readSlice (delim : α) (rd : Reader α) : Slice α × Reader α := readSliceLoop delim (rd.size + 1) rd

/-- What `readSlice` finds in an input `p`, with a buffer of `size` elements,
and what it leaves unread. -/
def sliceOf (delim : α) (size : Nat) (p : List α) : Slice α × List α :=
  if delim ∈ p.take size then
    (.found (p.takeWhile (· ≠ delim) ++ [delim]), (p.dropWhile (· ≠ delim)).drop 1)
  else if size ≤ p.length then (.full (p.take size), p.drop size)
  else (.eof, [])

theorem takeWhile_append_of_mem {delim : α} {u v : List α} (h : delim ∈ u) :
    (u ++ v).takeWhile (· ≠ delim) = u.takeWhile (· ≠ delim) ∧
      (u ++ v).dropWhile (· ≠ delim) = u.dropWhile (· ≠ delim) ++ v := by
  induction u with
  | nil => cases h
  | cons x u ih =>
    by_cases hx : x = delim
    · simp [hx]
    · have hu : delim ∈ u := (List.mem_cons.mp h).resolve_left fun he => hx he.symm
      simpa [hx] using ih hu

theorem takeWhile_length_lt {delim : α} {u : List α} (h : delim ∈ u) :
    (u.takeWhile (· ≠ delim)).length < u.length := by
  induction u with
  | nil => cases h
  | cons x u ih =>
    by_cases hx : x = delim
    · simp [hx]
    · have hu : delim ∈ u := (List.mem_cons.mp h).resolve_left fun he => hx he.symm
      simpa [hx] using ih hu

theorem dropWhile_drop_one (delim : α) (u : List α) :
    (u.dropWhile (· ≠ delim)).drop 1 = u.drop ((u.takeWhile (· ≠ delim)).length + 1) := by
  induction u with
  | nil => rfl
  | cons x u ih =>
    by_cases hx : x = delim
    · simp [hx]
    · simpa [hx] using ih

theorem readSlice_buffered {delim : α} {rd : Reader α} (h : delim ∈ rd.unread) :
    readSlice delim rd = (.found (rd.unread.takeWhile (· ≠ delim) ++ [delim]),
      rd.advance ((rd.unread.takeWhile (· ≠ delim)).length + 1)) := by
  rw [readSlice, readSliceLoop, if_pos h]
  simp

theorem readSliceLoop_spec (delim : α) (fuel : Nat) (rd : Reader α) (hs : 0 < rd.size)
    (hf : rd.size < fuel + rd.unread.length) :
    (readSliceLoop delim fuel rd).1 = (sliceOf delim rd.size rd.pending).1 ∧
      (readSliceLoop delim fuel rd).2.pending = (sliceOf delim rd.size rd.pending).2 ∧
      (readSliceLoop delim fuel rd).2.size = rd.size := by
  have hle := rd.unread_le_size
  induction fuel generalizing rd with
  | zero => omega
  | succ fuel ih =>
    unfold readSliceLoop
    by_cases hm : delim ∈ rd.unread
    · have hlt := takeWhile_length_lt hm
      have hp : delim ∈ rd.pending.take rd.size := by
        rw [pending, List.take_append, List.take_of_length_le hle]
        exact List.mem_append_left _ hm
      obtain ⟨ht, hd⟩ := takeWhile_append_of_mem (v := rd.chunks.flatten) hm
      rw [if_pos hm, sliceOf, if_pos hp]
      refine ⟨by rw [pending, ht], ?_, rd.advance_size _⟩
      rw [advance_pending (by simpa using hlt), dropWhile_drop_one, pending, ht]
      simp
    · rw [if_neg hm]
      by_cases hfull : rd.size ≤ rd.unread.length
      · have hlen : rd.unread.length = rd.size := by omega
        have htake : rd.pending.take rd.size = rd.unread := by
          rw [pending, ← hlen, List.take_left]
        rw [if_pos hfull, sliceOf, htake, if_neg hm, if_pos (by simp [pending]; omega)]
        refine ⟨rfl, ?_, rd.advance_size _⟩
        rw [advance_pending le_rfl, hlen]
      · rw [if_neg hfull]
        by_cases hc : rd.chunks = []
        · have hpend : rd.pending = rd.unread := by simp [pending, hc]
          rw [if_pos hc, sliceOf, hpend, List.take_of_length_le hle, if_neg hm, if_neg hfull]
          refine ⟨rfl, ?_, by rw [advance_size, fill_size]⟩
          have hnil : rd.fill.chunks = [] := by simp [fill, hc, receive]
          rw [advance_pending le_rfl]
          simp [pending, hnil]
        · have hg := fill_grows (by omega) hc
          have h := ih rd.fill (by rwa [fill_size]) (by rw [fill_size]; omega) rd.fill.unread_le_size
          rw [if_neg hc]
          rwa [fill_size, fill_pending] at h

theorem readSlice_spec (delim : α) {rd : Reader α} (hs : 0 < rd.size) :
    (readSlice delim rd).1 = (sliceOf delim rd.size rd.pending).1 ∧
      (readSlice delim rd).2.pending = (sliceOf delim rd.size rd.pending).2 ∧
      (readSlice delim rd).2.size = rd.size :=
  readSliceLoop_spec delim (rd.size + 1) rd hs (by omega)

end Slice

/-- One `Read` of at most `n` elements. With nothing buffered a large read goes
past the buffer, and a small one fills it first. -/
def read (n : Nat) (rd : Reader α) : List α × Reader α :=
  if rd.unread = [] then
    if rd.size ≤ n then
      ((receive n rd.chunks).1,
        { rd with chunks := (receive n rd.chunks).2, nonempty := receive_nonempty rd.nonempty })
    else (rd.fill.unread.take n, rd.fill.advance n)
  else (rd.unread.take n, rd.advance n)

def readFullLoop : Nat → Nat → Reader α → List α × Reader α
  | 0, _, rd => ([], rd)
  | fuel + 1, n, rd =>
    if n = 0 then ([], rd)
    else if (rd.read n).1 = [] then rd.read n
    else
      ((rd.read n).1 ++ (readFullLoop fuel (n - (rd.read n).1.length) (rd.read n).2).1,
        (readFullLoop fuel (n - (rd.read n).1.length) (rd.read n).2).2)

def readFull (n : Nat) (rd : Reader α) : List α × Reader α := readFullLoop n n rd

theorem readFull_buffered {n : Nat} {rd : Reader α} (h : n ≤ rd.unread.length) :
    rd.readFull n = (rd.unread.take n, rd.advance n) := by
  unfold readFull
  cases n with
  | zero =>
    rw [readFullLoop]
    simp [advance]
  | succ n =>
    have hu : rd.unread ≠ [] := by
      rintro hu
      simp [hu] at h
    have hr : rd.read (n + 1) = (rd.unread.take (n + 1), rd.advance (n + 1)) := by rw [read, if_neg hu]
    have hrest : ∀ f (rd' : Reader α), readFullLoop f 0 rd' = ([], rd') := by
      intro f rd'
      cases f <;> rfl
    have hlen : n + 1 - (rd.unread.take (n + 1)).length = 0 := by
      rw [List.length_take]
      omega
    rw [readFullLoop, if_neg (by omega), hr]
    simp only [hlen, hrest, List.append_nil]
    rw [if_neg (by simpa using hu)]

theorem advance_split (n : Nat) (rd : Reader α) : rd.pending = rd.unread.take n ++ (rd.advance n).pending := by
  simp only [pending, advance]
  rw [← List.append_assoc, List.take_append_drop]

theorem read_spec {n : Nat} {rd : Reader α} (hs : 0 < rd.size) (hn : 0 < n) :
    rd.pending = (rd.read n).1 ++ (rd.read n).2.pending ∧ (rd.read n).1.length ≤ n ∧
      (rd.read n).2.size = rd.size ∧ ((rd.read n).1 = [] → rd.pending = []) := by
  have htake : ∀ u : List α, u.take n = [] → u = [] := by
    intro u hu
    exact (List.take_eq_nil_iff.mp hu).resolve_left (by omega)
  unfold read
  by_cases hu : rd.unread = []
  · have hp : rd.pending = rd.chunks.flatten := by simp [pending, hu]
    have hend : rd.chunks = [] → rd.pending = [] := by
      rintro hc
      simp [hp, hc]
    rw [if_pos hu]
    by_cases hbig : rd.size ≤ n
    · rw [if_pos hbig]
      refine ⟨?_, receive_length_le n rd.chunks, rfl, fun hnil => hend ?_⟩
      · simp only [pending, hu, List.nil_append]
        exact (receive_flatten n rd.chunks).symm
      · by_contra hc
        have hpos := receive_pos hn rd.nonempty hc
        simp only at hnil
        rw [hnil] at hpos
        exact absurd hpos (by simp)
    · rw [if_neg hbig]
      refine ⟨?_, List.length_take_le n _, by rw [advance_size, fill_size], fun hnil => hend ?_⟩
      · rw [← advance_split, fill_pending]
      · by_contra hc
        have hg : rd.unread.length < rd.fill.unread.length := fill_grows (by simpa [hu] using hs) hc
        rw [htake _ hnil] at hg
        exact absurd hg (by simp)
  · rw [if_neg hu]
    exact ⟨rd.advance_split n, List.length_take_le n _, rd.advance_size n, fun hnil => absurd (htake _ hnil) hu⟩

theorem readFullLoop_spec (fuel n : Nat) (rd : Reader α) (hs : 0 < rd.size) (hf : n ≤ fuel) :
    (readFullLoop fuel n rd).1 = rd.pending.take n ∧ (readFullLoop fuel n rd).2.pending = rd.pending.drop n ∧
      (readFullLoop fuel n rd).2.size = rd.size := by
  induction fuel generalizing n rd with
  | zero =>
    have hn : n = 0 := by omega
    subst hn
    exact ⟨rfl, rfl, rfl⟩
  | succ fuel ih =>
    unfold readFullLoop
    by_cases hn : n = 0
    · subst hn
      simp
    · rw [if_neg hn]
      have hpos : 0 < n := by omega
      obtain ⟨hsplit, hlen, hsize, hend⟩ := read_spec hs hpos
      by_cases hnil : (rd.read n).1 = []
      · rw [hend hnil] at hsplit ⊢
        rw [if_pos hnil, hnil]
        exact ⟨by simp, by simp [(List.append_eq_nil_iff.mp hsplit.symm).2], hsize⟩
      · have hpos : (rd.read n).1.length ≠ 0 := by simpa using hnil
        obtain ⟨h₁, h₂, h₃⟩ := ih (n - (rd.read n).1.length) (rd.read n).2 (by rwa [hsize]) (by omega)
        rw [if_neg hnil]
        refine ⟨?_, ?_, by rw [h₃, hsize]⟩
        · rw [h₁, hsplit, List.take_append, List.take_of_length_le hlen]
        · rw [h₂, hsplit, List.drop_append, List.drop_of_length_le hlen, List.nil_append]

theorem readFull_spec (n : Nat) {rd : Reader α} (hs : 0 < rd.size) :
    (rd.readFull n).1 = rd.pending.take n ∧ (rd.readFull n).2.pending = rd.pending.drop n ∧
      (rd.readFull n).2.size = rd.size :=
  readFullLoop_spec n n rd hs le_rfl

end Reader

end MemX.BufReader
