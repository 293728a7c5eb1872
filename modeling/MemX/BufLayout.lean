import MemX.BufReader

namespace MemX.BufReader

variable {α : Type}

/-- Where the input of a buffered reader lies: the read index, the number of
unread elements in the buffer and the sizes of the chunks to come. -/
structure Layout where
  index : Nat
  unread : Nat
  chunks : List Nat
deriving DecidableEq

namespace Layout

def receive (n : Nat) : List Nat → Nat × List Nat
  | [] => (0, [])
  | c :: cs => (min n c, if c ≤ n then cs else (c - n) :: cs)

def fill (size : Nat) (l : Layout) : Layout where
  index := 0
  unread := l.unread + (receive (size - l.unread) l.chunks).1
  chunks := (receive (size - l.unread) l.chunks).2

def advance (n : Nat) (l : Layout) : Layout where
  index := l.index + min n l.unread
  unread := l.unread - n
  chunks := l.chunks

def peek (size : Nat) (l : Layout) : Layout := if l.unread = 0 then l.fill size else l

def read (size n : Nat) (l : Layout) : Nat × Layout :=
  if l.unread = 0 then
    if size ≤ n then ((receive n l.chunks).1, { l with chunks := (receive n l.chunks).2 })
    else (min n (l.fill size).unread, (l.fill size).advance n)
  else (min n l.unread, l.advance n)

def readFullLoop (size : Nat) : Nat → Nat → Layout → Layout
  | 0, _, l => l
  | fuel + 1, n, l =>
    if n = 0 then l
    else if (l.read size n).1 = 0 then (l.read size n).2
    else readFullLoop size fuel (n - (l.read size n).1) (l.read size n).2

def readFull (size n : Nat) (l : Layout) : Layout := readFullLoop size n n l

def gatherFrom (size m i a : Nat) : List Nat → Layout
  | [] => ⟨i, a, []⟩
  | c :: cs =>
    if m ≤ a then ⟨i, a, c :: cs⟩
    else if c ≤ size - a then gatherFrom size m 0 (a + c) cs
    else ⟨0, size, (c - (size - a)) :: cs⟩

def gather (size m : Nat) (l : Layout) : Layout := gatherFrom size m l.index l.unread l.chunks

theorem gather_of_le {size m : Nat} {l : Layout} (h : m ≤ l.unread) : l.gather size m = l := by
  obtain ⟨i, a, cs⟩ := l
  unfold gather
  cases cs with
  | nil => rfl
  | cons c cs => exact if_pos h

theorem gather_fill {size m : Nat} {l : Layout} (hm : m ≤ size) (ha : l.unread < m) (hc : l.chunks ≠ []) :
    (l.fill size).gather size m = l.gather size m := by
  obtain ⟨i, a, cs⟩ := l
  obtain ⟨c, cs, rfl⟩ := List.exists_cons_of_ne_nil hc
  simp only at ha
  have hstep : gather size m ⟨i, a, c :: cs⟩ =
      if c ≤ size - a then gatherFrom size m 0 (a + c) cs else ⟨0, size, (c - (size - a)) :: cs⟩ :=
    if_neg (not_le.mpr ha)
  rw [hstep]
  by_cases hle : c ≤ size - a
  · have hmin : min (size - a) c = c := by omega
    simp only [gather, fill, receive, hle, ↓reduceIte, hmin]
  · have hmin : a + min (size - a) c = size := by omega
    rw [if_neg hle]
    simp only [gather, fill, receive, hle, ↓reduceIte, hmin]
    exact if_pos hm

theorem le_gather {size m : Nat} {l : Layout} (hs : l.unread ≤ size) : l.unread ≤ (l.gather size m).unread := by
  obtain ⟨i, a, cs⟩ := l
  simp only [gather] at hs ⊢
  induction cs generalizing i a with
  | nil => exact le_rfl
  | cons c cs ih =>
    unfold gatherFrom
    split
    · exact le_rfl
    · split
      · exact (Nat.le_add_right a c).trans (ih 0 (a + c) (by omega))
      · exact hs

/-- What `q` slices leave, each of which filled the buffer. -/
def overflow (size : Nat) : Nat → Layout → Layout
  | 0, l => l
  | q + 1, l => overflow size q ((l.gather size size).advance size)

/-- How often a piece of `n` elements fills the buffer before its last slice,
and how long that is. -/
def fullSlices (size n : Nat) : Nat := (n - 1) / size

def lastSlice (size n : Nat) : Nat := (n - 1) % size + 1

theorem fullSlices_fits {size n : Nat} (hn : 0 < n) (h : n ≤ size) : fullSlices size n = 0 ∧ lastSlice size n = n := by
  unfold fullSlices lastSlice
  rw [Nat.div_eq_of_lt (by omega), Nat.mod_eq_of_lt (by omega)]
  omega

theorem fullSlices_over {size n : Nat} (hs : 0 < size) (h : size < n) :
    fullSlices size n = fullSlices size (n - size) + 1 ∧ lastSlice size n = lastSlice size (n - size) := by
  have hsub : n - size - 1 = n - 1 - size := by omega
  unfold fullSlices lastSlice
  rw [hsub, Nat.div_eq_sub_div hs (by omega), Nat.mod_eq_sub_mod (by omega)]
  exact ⟨rfl, rfl⟩

def afterPiece (size n : Nat) (l : Layout) : Layout :=
  ((l.overflow size (fullSlices size n)).gather size (lastSlice size n)).advance (lastSlice size n)

/-- What the place `i` of the buffer shows after a slice of `m` elements of the
input `s`, when it showed `b` before: a slice that has to be waited for moves
the unread elements to the front, and the place shows the one that comes there
if so many have arrived. -/
def sliceShows (size i m : Nat) (l : Layout) (s : List α) (b : Option α) : Option α :=
  if l.unread < m ∧ i < (l.gather size m).unread then s[i]? else b

def slicesShow (size i m : Nat) : Nat → Layout → List α → Option α → Option α
  | 0, l, s, b => sliceShows size i m l s b
  | q + 1, l, s, b =>
    slicesShow size i m q ((l.gather size size).advance size) (s.drop size) (sliceShows size i size l s b)

/-- What the place of the read index shows when a piece of `n` elements of the
input `s` has been read from there. -/
def pieceShows (size n : Nat) (l : Layout) (s : List α) : Option α :=
  slicesShow size l.index (lastSlice size n) (fullSlices size n) l s s.head?

end Layout

namespace Reader

def layout (rd : Reader α) : Layout := ⟨rd.index, rd.unread.length, rd.chunks.map List.length⟩

theorem receive_layout (n : Nat) (cs : List (List α)) :
    Layout.receive n (cs.map List.length) = ((receive n cs).1.length, (receive n cs).2.map List.length) := by
  cases cs with
  | nil => rfl
  | cons c cs =>
    simp only [List.map_cons, Layout.receive, receive, List.length_take]
    split <;> simp

theorem layout_fill (rd : Reader α) : rd.fill.layout = rd.layout.fill rd.size := by
  simp only [layout, Layout.fill, receive_layout, ← rd.spare_slide]
  simp [fill, index]

theorem layout_advance (n : Nat) (rd : Reader α) : (rd.advance n).layout = rd.layout.advance n := by
  simp [layout, Layout.advance, advance, index]

theorem layout_peek (rd : Reader α) : rd.peek.2.layout = rd.layout.peek rd.size := by
  unfold peek Layout.peek
  by_cases hu : rd.unread = []
  · rw [if_pos hu, if_pos (by simp [layout, hu]), layout_fill]
  · rw [if_neg hu, if_neg (by simpa [layout] using hu)]

theorem layout_read (n : Nat) (rd : Reader α) :
    rd.layout.read rd.size n = ((rd.read n).1.length, (rd.read n).2.layout) := by
  unfold read Layout.read
  by_cases hu : rd.unread = []
  · rw [if_pos (show rd.layout.unread = 0 by simp [layout, hu]), if_pos hu]
    by_cases hn : rd.size ≤ n
    · rw [if_pos hn, if_pos hn]
      simp only [layout, receive_layout]
      rfl
    · rw [if_neg hn, if_neg hn, layout_advance, layout_fill, ← layout_fill]
      simp [layout]
  · rw [if_neg (show rd.layout.unread ≠ 0 by simpa [layout] using hu), if_neg hu, layout_advance]
    simp [layout]

theorem read_size (n : Nat) (rd : Reader α) : (rd.read n).2.size = rd.size := by
  unfold read
  split
  · split
    · rfl
    · rw [advance_size, fill_size]
  · exact rd.advance_size n

theorem layout_readFull (n : Nat) (rd : Reader α) : (rd.readFull n).2.layout = rd.layout.readFull rd.size n := by
  have hloop : ∀ fuel n (rd : Reader α),
      (readFullLoop fuel n rd).2.layout = rd.layout.readFullLoop rd.size fuel n := by
    intro fuel
    induction fuel with
    | zero => exact fun _ _ => rfl
    | succ fuel ih =>
      intro n rd
      unfold readFullLoop Layout.readFullLoop
      by_cases hn : n = 0
      · rw [if_pos hn, if_pos hn]
      · rw [if_neg hn, if_neg hn, layout_read]
        by_cases hnil : (rd.read n).1 = []
        · rw [if_pos hnil, if_pos (by simp [hnil])]
        · rw [if_neg hnil, if_neg (by simpa using hnil), ← rd.read_size n]
          exact ih _ _
  exact hloop n n rd

/-- Filling moves the unread elements to the front, puts the new ones behind
them, and leaves what is further back. -/
theorem fill_shows (rd : Reader α) (i : Nat) :
    rd.fill.buffer[i]? = if i < rd.fill.unread.length then rd.pending[i]? else rd.buffer[i]? := by
  have hbuf : rd.fill.buffer = rd.fill.unread ++ rd.buffer.drop rd.fill.unread.length := by
    simp [buffer, fill, slide, List.drop_drop]
  rw [hbuf, ← rd.fill_pending]
  split
  · rename_i hi
    rw [List.getElem?_append_left hi, pending, List.getElem?_append_left hi]
  · rename_i hi
    rw [List.getElem?_append_right (not_lt.mp hi), List.getElem?_drop, Nat.add_sub_cancel' (not_lt.mp hi)]

variable [DecidableEq α]

def sliceLength (delim : α) (size : Nat) (p : List α) : Nat :=
  if delim ∈ p.take size then (p.takeWhile (· ≠ delim)).length + 1 else size

theorem sliceLength_le (delim : α) (size : Nat) (p : List α) : sliceLength delim size p ≤ size := by
  unfold sliceLength
  split
  · rename_i hm
    have hlt := takeWhile_length_lt hm
    have hle := List.length_take_le size p
    rw [← List.take_append_drop size p, (takeWhile_append_of_mem hm).1]
    omega
  · exact le_rfl

theorem sliceLength_buffered {delim : α} {rd : Reader α} (h : delim ∈ rd.unread) :
    sliceLength delim rd.size rd.pending = (rd.unread.takeWhile (· ≠ delim)).length + 1 := by
  have hp : delim ∈ rd.pending.take rd.size := by
    rw [pending, List.take_append, List.take_of_length_le rd.unread_le_size]
    exact List.mem_append_left _ h
  rw [sliceLength, if_pos hp, pending, (takeWhile_append_of_mem h).1]

theorem unread_lt_sliceLength {delim : α} {rd : Reader α} (h : delim ∉ rd.unread) (hroom : rd.unread.length < rd.size) :
    rd.unread.length < sliceLength delim rd.size rd.pending := by
  unfold sliceLength
  split
  · have hall : ∀ x ∈ rd.unread, decide (x ≠ delim) = true := by
      intro x hx
      exact decide_eq_true fun he => h (he ▸ hx)
    rw [pending, List.takeWhile_append_of_pos hall, List.length_append]
    omega
  · exact hroom

omit [DecidableEq α] in
theorem gather_fill {rd : Reader α} {m : Nat} (hm : m ≤ rd.size) (hlt : rd.unread.length < m) (hc : rd.chunks ≠ []) :
    rd.fill.layout.gather rd.size m = rd.layout.gather rd.size m := by
  rw [layout_fill]
  exact Layout.gather_fill hm hlt (by simpa [layout] using hc)

omit [DecidableEq α] in
theorem fill_sliceShows {rd : Reader α} {m : Nat} (hm : m ≤ rd.size) (hlt : rd.unread.length < m)
    (hc : rd.chunks ≠ []) (i : Nat) :
    rd.fill.layout.sliceShows rd.size i m rd.pending rd.fill.buffer[i]? =
      rd.layout.sliceShows rd.size i m rd.pending rd.buffer[i]? := by
  have hgather := gather_fill hm hlt hc
  have hmono : rd.fill.unread.length ≤ (rd.layout.gather rd.size m).unread := by
    have hle : rd.fill.layout.unread ≤ rd.size := rd.fill_size ▸ rd.fill.unread_le_size
    rw [← hgather]
    exact Layout.le_gather hle
  unfold Layout.sliceShows
  rw [hgather, fill_shows]
  by_cases hi : i < (rd.layout.gather rd.size m).unread
  · rw [if_pos (show rd.layout.unread < m ∧ _ from ⟨hlt, hi⟩)]
    by_cases hmore : rd.fill.unread.length < m
    · rw [if_pos (show rd.fill.layout.unread < m ∧ _ from ⟨hmore, hi⟩)]
    · have hdone : rd.layout.gather rd.size m = rd.fill.layout :=
        hgather.symm.trans (Layout.gather_of_le (not_lt.mp hmore))
      have hi' : i < rd.fill.unread.length := by rwa [hdone] at hi
      rw [if_neg fun h => hmore h.1, if_pos hi']
  · simp only [hi, and_false, ↓reduceIte]
    rw [if_neg (by omega)]

theorem readSliceLoop_layout (delim : α) (fuel : Nat) (rd : Reader α) (hf : rd.size < fuel + rd.unread.length)
    {m : Nat} (hm : sliceLength delim rd.size rd.pending = m) (hp : m ≤ rd.pending.length) :
    (readSliceLoop delim fuel rd).2.layout = (rd.layout.gather rd.size m).advance m ∧
      ∀ i, (readSliceLoop delim fuel rd).2.buffer[i]? =
        rd.layout.sliceShows rd.size i m rd.pending rd.buffer[i]? := by
  have hle := rd.unread_le_size
  have hmle : m ≤ rd.size := hm ▸ sliceLength_le delim rd.size rd.pending
  induction fuel generalizing rd with
  | zero => omega
  | succ fuel ih =>
    have hstay : m ≤ rd.unread.length → (rd.advance m).layout = (rd.layout.gather rd.size m).advance m ∧
        ∀ i, (rd.advance m).buffer[i]? = rd.layout.sliceShows rd.size i m rd.pending rd.buffer[i]? := by
      intro h
      refine ⟨by rw [layout_advance, Layout.gather_of_le h], fun i => ?_⟩
      rw [advance_buffer, Layout.sliceShows, if_neg fun hlt => not_lt.mpr h hlt.1]
    unfold readSliceLoop
    by_cases hmem : delim ∈ rd.unread
    · have hlen := (sliceLength_buffered hmem).symm.trans hm
      have hlt := takeWhile_length_lt hmem
      rw [if_pos hmem]
      simp only [List.length_append, List.length_cons, List.length_nil, zero_add, hlen]
      exact hstay (by omega)
    · rw [if_neg hmem]
      by_cases hfull : rd.size ≤ rd.unread.length
      · have hlen : rd.unread.length = m := by
          have htake : rd.pending.take rd.size = rd.unread := by
            rw [pending, ← le_antisymm hle hfull, List.take_left]
          rw [← hm, sliceLength, htake, if_neg hmem]
          omega
        rw [if_pos hfull, hlen]
        exact hstay hlen.ge
      · have hlt := unread_lt_sliceLength hmem (not_le.mp hfull)
        rw [hm] at hlt
        rw [if_neg hfull]
        by_cases hc : rd.chunks = []
        · simp only [pending, hc, List.flatten_nil, List.append_nil] at hp
          omega
        · have hg := fill_grows (not_le.mp hfull) hc
          obtain ⟨hlayout, hshows⟩ := ih rd.fill (by rw [fill_size]; omega) (by rw [fill_size, fill_pending]; exact hm)
            (by rw [fill_pending]; exact hp) rd.fill.unread_le_size (by rw [fill_size]; exact hmle)
          rw [fill_size, gather_fill hmle hlt hc] at hlayout
          rw [if_neg hc]
          refine ⟨hlayout, fun i => ?_⟩
          rw [hshows, fill_pending, fill_size, fill_sliceShows hmle hlt hc]

theorem readSlice_layout (delim : α) {rd : Reader α} {m : Nat} (hm : sliceLength delim rd.size rd.pending = m)
    (hp : m ≤ rd.pending.length) :
    (readSlice delim rd).2.layout = (rd.layout.gather rd.size m).advance m ∧
      ∀ i, (readSlice delim rd).2.buffer[i]? = rd.layout.sliceShows rd.size i m rd.pending rd.buffer[i]? :=
  readSliceLoop_layout delim (rd.size + 1) rd (by omega) hm hp

end Reader

end MemX.BufReader
