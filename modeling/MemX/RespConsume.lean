import MemX.RespRead

namespace MemX.RespConsume

open DecimalText RespRead

variable {α : Type}

/-- A reader that succeeds on `s` has read a nonempty piece of it, and reads
the same from that piece whatever comes after. -/
def Consumes (f : Bytes → Except ReadErr (α × Bytes)) (s : Bytes) (a : α) (rest : Bytes) : Prop :=
  ∃ b, b ≠ [] ∧ s = b ++ rest ∧ ∀ x, f (b ++ x) = .ok (a, x)

theorem Consumes.length_lt {f : Bytes → Except ReadErr (α × Bytes)} {s rest : Bytes} {a : α}
    (h : Consumes f s a rest) : rest.length < s.length := by
  obtain ⟨b, hb, rfl, -⟩ := h
  have := List.length_pos_iff.mpr hb
  simp only [List.length_append]
  omega

theorem Consumes.append {f : Bytes → Except ReadErr (α × Bytes)} {s rest : Bytes} {a : α}
    (h : Consumes f s a rest) (x : Bytes) : f (s ++ x) = .ok (a, rest ++ x) := by
  obtain ⟨b, -, rfl, hb⟩ := h
  rw [List.append_assoc]
  exact hb (rest ++ x)

theorem takeWhile_line {l : Bytes} (hn : (10 : UInt8) ∉ l) (rest : Bytes) :
    (l ++ 10 :: rest).takeWhile (· != 10) = l ∧ (l ++ 10 :: rest).dropWhile (· != 10) = 10 :: rest := by
  have hne : ∀ b ∈ l, (b != 10) = true := by
    intro b hb
    simpa using fun h : b = 10 => hn (h ▸ hb)
  constructor
  · rw [List.takeWhile_append_of_pos hne]
    simp
  · rw [List.dropWhile_append_of_pos hne]
    simp

theorem readSlice_line {size : Nat} {l : Bytes} (hn : (10 : UInt8) ∉ l) (hl : l.length < size) (rest : Bytes) :
    readSlice size (l ++ 10 :: rest) = .found (l ++ [10]) rest := by
  have hm : (10 : UInt8) ∈ (l ++ 10 :: rest).take size := by
    rw [List.take_append]
    obtain ⟨k, hk⟩ : ∃ k, size - l.length = k + 1 := ⟨size - l.length - 1, by omega⟩
    simp [hk]
  obtain ⟨htake, hdrop⟩ := takeWhile_line hn rest
  rw [readSlice, if_pos hm, htake, hdrop]
  rfl

theorem readSlice_long {size : Nat} {l : Bytes} (hn : (10 : UInt8) ∉ l) (hl : size ≤ l.length) (rest : Bytes) :
    readSlice size (l ++ 10 :: rest) = .full (l.take size) (l.drop size ++ 10 :: rest) := by
  have htake : (l ++ 10 :: rest).take size = l.take size := List.take_append_of_le_length hl
  have hdrop : (l ++ 10 :: rest).drop size = l.drop size ++ 10 :: rest := List.drop_append_of_le_length hl
  have hm : (10 : UInt8) ∉ l.take size := fun h => hn (List.mem_of_mem_take h)
  rw [readSlice, htake, if_neg hm, if_pos (by simp only [List.length_append]; omega), hdrop]

theorem readSlice_found {size : Nat} {s frag rest : Bytes} (h : readSlice size s = .found frag rest) :
    ∃ l, (10 : UInt8) ∉ l ∧ frag = l ++ [10] ∧ s = l ++ 10 :: rest ∧
      ∀ x, readSlice size (frag ++ x) = .found frag x := by
  have hm : (10 : UInt8) ∈ s := by
    rw [readSlice] at h
    split_ifs at h with hm
    exact List.mem_of_mem_take hm
  obtain ⟨l, s', rfl, hl⟩ := List.eq_append_cons_of_mem hm
  by_cases hlen : l.length < size
  · rw [readSlice_line hl hlen] at h
    cases h
    refine ⟨l, hl, rfl, rfl, fun x => ?_⟩
    rw [List.append_assoc]
    exact readSlice_line hl hlen x
  · rw [readSlice_long hl (Nat.le_of_not_lt hlen)] at h
    cases h

theorem readSlice_full {size : Nat} {s frag rest : Bytes} (h : readSlice size s = .full frag rest) :
    (10 : UInt8) ∉ frag ∧ frag.length = size ∧ s = frag ++ rest ∧
      ∀ x, readSlice size (frag ++ x) = .full frag x := by
  unfold readSlice at h
  split at h
  · cases h
  · rename_i hm
    split at h
    · rename_i hlen
      cases h
      have hl : (s.take size).length = size := by simp only [List.length_take]; omega
      refine ⟨hm, hl, (List.take_append_drop size s).symm, fun x => ?_⟩
      have ht : (s.take size ++ x).take size = s.take size := by
        rw [List.take_append_of_le_length (by omega), List.take_of_length_le (by omega)]
      have hd : (s.take size ++ x).drop size = x := by
        rw [List.drop_append_of_le_length (by omega), List.drop_of_length_le (by omega), List.nil_append]
      rw [readSlice, ht, if_neg hm, hd, if_pos (by rw [List.length_append]; omega)]
    · cases h

theorem readSlice_eof {size : Nat} {s : Bytes} (h : readSlice size s = .eof) : (10 : UInt8) ∉ s := by
  unfold readSlice at h
  split at h
  · cases h
  · rename_i hm
    split at h
    · cases h
    · rename_i hlen
      rwa [List.take_of_length_le (by omega)] at hm

section Line

variable {size : Nat} {max : Int} {what : Bytes}

theorem readLineLoop_consumes (hs : 0 < size) (f : Nat) (line s l rest : Bytes)
    (h : readLineLoop size max what f line s = .ok (l, rest)) :
    ∃ b, b ≠ [] ∧ s = b ++ rest ∧ ∀ g x, (b ++ x).length < g →
      readLineLoop size max what g line (b ++ x) = .ok (l, x) := by
  induction f generalizing line s with
  | zero => cases h
  | succ f ih =>
    unfold readLineLoop at h
    cases hr : readSlice size s with
    | eof =>
      rw [hr] at h
      cases h
    | found frag r =>
      obtain ⟨l', -, hfrag, hsplit, hx⟩ := readSlice_found hr
      rw [hr] at h
      simp only at h
      split at h
      · cases h
      · rename_i hmax
        cases h
        refine ⟨frag, by simp [hfrag], by simp [hsplit, hfrag], fun g x hg => ?_⟩
        cases g with
        | zero => omega
        | succ g =>
          unfold readLineLoop
          rw [hx x]
          simp only
          rw [if_neg hmax]
    | full frag r =>
      obtain ⟨-, hlen, hsplit, hx⟩ := readSlice_full hr
      rw [hr] at h
      simp only at h
      split at h
      · cases h
      · rename_i hmax
        obtain ⟨b, hb, hsb, hg⟩ := ih (line ++ frag) r h
        refine ⟨frag ++ b, by simp [hb], by simp [hsplit, hsb], fun g x hgl => ?_⟩
        cases g with
        | zero => omega
        | succ g =>
          unfold readLineLoop
          rw [List.append_assoc, hx]
          simp only
          rw [if_neg hmax]
          simp only [List.length_append] at hgl
          exact hg g x (by simp only [List.length_append]; omega)

theorem readLine_consumes (hs : 0 < size) {s l rest : Bytes} (h : readLine size max what s = .ok (l, rest)) :
    Consumes (readLine size max what) s l rest := by
  obtain ⟨b, hb, hsb, hg⟩ := readLineLoop_consumes hs _ _ _ _ _ h
  exact ⟨b, hb, hsb, fun x => hg _ x (by omega)⟩

theorem readLineLoop_eof (f : Nat) (line s : Bytes) (hf : s.length < f) (hs : 0 < size)
    (h : readLineLoop size max what f line s = .error .eof) : (10 : UInt8) ∉ s := by
  induction f generalizing line s with
  | zero => omega
  | succ f ih =>
    unfold readLineLoop at h
    cases hr : readSlice size s with
    | eof => exact readSlice_eof hr
    | found frag r =>
      rw [hr] at h
      simp only at h
      split at h <;> cases h
    | full frag r =>
      obtain ⟨hn, hlen, rfl, -⟩ := readSlice_full hr
      rw [hr] at h
      simp only at h
      simp only [List.length_append] at hf
      split at h
      · cases h
      · have := ih (line ++ frag) r (by omega) h
        simp [hn, this]

theorem stripEOL_of_cr {l : Bytes} (h : l.getLast? = some 13) : stripEOL (l ++ [10]) = l.dropLast := by
  simp only [stripEOL, List.dropLast_concat, if_pos h]

theorem stripEOL_of_not_cr {l : Bytes} (h : l.getLast? ≠ some 13) : stripEOL (l ++ [10]) = l := by
  simp only [stripEOL, List.dropLast_concat, if_neg h]

theorem stripEOL_length (l : Bytes) : (stripEOL (l ++ [10])).length ≤ l.length := by
  simp only [stripEOL, List.dropLast_concat]
  split
  · rw [List.length_dropLast]
    omega
  · exact le_rfl

theorem stripEOL_drops (l : Bytes) : l.length ≤ (stripEOL (l ++ [10])).length + 1 := by
  simp only [stripEOL, List.dropLast_concat]
  split
  · rw [List.length_dropLast]
    omega
  · omega

/-- The limit is checked at every full buffer, before the line end is stripped,
and once more on the line without its end. -/
theorem readLineLoop_exact (hs : 0 < size) (f : Nat) (line l rest : Bytes) (hl : (10 : UInt8) ∉ l)
    (hf : l.length < f) :
    readLineLoop size max what f line (l ++ 10 :: rest) =
      if (size ≤ l.length ∧ max < line.length + (l.length / size * size : Nat)) ∨
          max < (stripEOL (line ++ (l ++ [10]))).length then .error (.protocol (ascii "too big " ++ what))
      else .ok (stripEOL (line ++ (l ++ [10])), rest) := by
  induction f generalizing line l with
  | zero => omega
  | succ f ih =>
    unfold readLineLoop
    by_cases hlt : l.length < size
    · rw [readSlice_line hl hlt]
      simp only [not_le.mpr hlt, false_and, false_or]
    · have hle : size ≤ l.length := not_lt.mp hlt
      have hstep : l.length / size * size = (l.length - size) / size * size + size := by
        rw [Nat.div_eq_sub_div hs hle, Nat.add_mul, Nat.one_mul]
      have hlen : (line ++ l.take size).length = line.length + size := by
        rw [List.length_append, List.length_take, min_eq_left hle]
      rw [readSlice_long hl hle]
      simp only [hlen]
      by_cases hbig : ((line.length + size : Nat) : Int) > max
      · rw [if_pos hbig, if_pos (Or.inl ⟨hle, by omega⟩)]
      · rw [if_neg hbig, ih (line ++ l.take size) (l.drop size) (fun h => hl (List.mem_of_mem_drop h))
          (by rw [List.length_drop]; omega)]
        have hjoin : line ++ l.take size ++ (l.drop size ++ [10]) = line ++ (l ++ [10]) := by
          rw [List.append_assoc, ← List.append_assoc (l.take size), List.take_append_drop]
        rw [hjoin, hlen, List.length_drop]
        have hiff : (size ≤ l.length - size ∧
            max < ((line.length + size : Nat) : Int) + ((l.length - size) / size * size : Nat)) ↔
            (size ≤ l.length ∧ max < (line.length : Int) + (l.length / size * size : Nat)) := by
          rw [hstep]
          constructor
          · rintro ⟨-, h⟩
            exact ⟨hle, by push_cast at h ⊢; omega⟩
          · rintro ⟨-, h⟩
            by_cases hge : size ≤ l.length - size
            · exact ⟨hge, by push_cast at h ⊢; omega⟩
            · rw [Nat.div_eq_of_lt (not_le.mp hge)] at h
              push_cast at h hbig
              omega
        simp only [hiff]

theorem readLineLoop_line (hs : 0 < size) (f : Nat) (line l rest : Bytes) (hl : (10 : UInt8) ∉ l)
    (hf : l.length < f) :
    readLineLoop size max what f line (l ++ 10 :: rest) = .ok (stripEOL (line ++ (l ++ [10])), rest) ∨
      readLineLoop size max what f line (l ++ 10 :: rest) = .error (.protocol (ascii "too big " ++ what)) ∧
        max < (line ++ l).length := by
  rw [readLineLoop_exact hs f line l rest hl hf]
  split
  · rename_i hbig
    have hstrip := stripEOL_length (line ++ l)
    have hdiv := Nat.div_mul_le_self l.length size
    rw [List.append_assoc] at hstrip
    rw [List.length_append] at hstrip ⊢
    refine Or.inr ⟨rfl, ?_⟩
    rcases hbig with ⟨-, h⟩ | h <;> omega
  · exact Or.inl rfl

/-- A line within the limit is read unless its `\r` is one byte beyond the
limit and ends a full buffer. -/
theorem readLine_within (hs : 0 < size) {l : Bytes} (hl : (10 : UInt8) ∉ l)
    (hmax : ((stripEOL (l ++ [10])).length : Int) ≤ max) (rest : Bytes) :
    readLine size max what (l ++ 10 :: rest) =
      if (l.length : Int) = max + 1 ∧ (size : Int) ∣ max + 1 then .error (.protocol (ascii "too big " ++ what))
      else .ok (stripEOL (l ++ [10]), rest) := by
  have hstrip := stripEOL_drops l
  have hdiv := Nat.div_mul_le_self l.length size
  have hcond : ((size ≤ l.length ∧ max < ((l.length / size * size : Nat) : Int)) ∨
      max < (stripEOL (l ++ [10])).length) ↔ (l.length : Int) = max + 1 ∧ (size : Int) ∣ max + 1 := by
    constructor
    · rintro (⟨_, hbig⟩ | hbig)
      · have hfull : l.length / size * size = l.length := by omega
        have hlen : (l.length : Int) = max + 1 := by omega
        refine ⟨hlen, ?_⟩
        rw [← hlen, Int.natCast_dvd_natCast]
        exact Dvd.intro_left _ hfull
      · omega
    · rintro ⟨hlen, hdvd⟩
      rw [← hlen, Int.natCast_dvd_natCast] at hdvd
      refine Or.inl ⟨Nat.le_of_dvd (by omega) hdvd, ?_⟩
      rw [Nat.div_mul_cancel hdvd]
      omega
  have hexact : readLine size max what (l ++ 10 :: rest) = _ :=
    readLineLoop_exact hs _ [] l rest hl (by rw [List.length_append]; omega)
  simpa only [List.length_nil, List.nil_append, Nat.cast_zero, zero_add, hcond] using hexact

theorem readLineLoop_ok_mem {f : Nat} {line s l rest : Bytes}
    (h : readLineLoop size max what f line s = .ok (l, rest)) : (10 : UInt8) ∈ s := by
  induction f generalizing line s with
  | zero => cases h
  | succ f ih =>
    unfold readLineLoop at h
    cases hr : readSlice size s with
    | eof =>
      rw [hr] at h
      cases h
    | found frag r =>
      obtain ⟨l', -, -, rfl, -⟩ := readSlice_found hr
      simp
    | full frag r =>
      obtain ⟨-, -, rfl, -⟩ := readSlice_full hr
      simp only [hr] at h
      split at h
      · cases h
      · exact List.mem_append_right _ (ih h)

theorem readLine_first (hs : 0 < size) {l : Bytes} (hl : (10 : UInt8) ∉ l) (rest : Bytes) :
    readLine size max what (l ++ 10 :: rest) = .ok (stripEOL (l ++ [10]), rest) ∨
      readLine size max what (l ++ 10 :: rest) = .error (.protocol (ascii "too big " ++ what)) ∧ max < l.length :=
  readLineLoop_line hs _ [] l rest hl (by simp only [List.length_append]; omega)

theorem mem_of_mem_stripEOL {l : Bytes} {b : UInt8} (h : b ∈ stripEOL (l ++ [10])) : b ∈ l := by
  simp only [stripEOL, List.dropLast_concat] at h
  split at h
  · exact List.mem_of_mem_dropLast h
  · exact h

theorem readLineLoop_no_lf (f : Nat) {line s l rest : Bytes} (hn : (10 : UInt8) ∉ line)
    (h : readLineLoop size max what f line s = .ok (l, rest)) : (10 : UInt8) ∉ l := by
  induction f generalizing line s with
  | zero => cases h
  | succ f ih =>
    unfold readLineLoop at h
    cases hr : readSlice size s with
    | eof => simp [hr] at h
    | found frag r =>
      obtain ⟨l', hl', rfl, -, -⟩ := readSlice_found hr
      simp only [hr] at h
      split at h
      · cases h
      · cases h
        intro hm
        rw [← List.append_assoc] at hm
        rcases List.mem_append.mp (mem_of_mem_stripEOL hm) with hm | hm
        · exact hn hm
        · exact hl' hm
    | full frag r =>
      simp only [hr] at h
      split at h
      · cases h
      · refine ih (fun hm => ?_) h
        rcases List.mem_append.mp hm with hm | hm
        · exact hn hm
        · exact (readSlice_full hr).1 hm

theorem readLineLoop_max (f : Nat) (line s : Bytes) {l rest : Bytes}
    (h : readLineLoop size max what f line s = .ok (l, rest)) : (l.length : Int) ≤ max := by
  induction f generalizing line s with
  | zero => cases h
  | succ f ih =>
    unfold readLineLoop at h
    split at h
    · simp only at h
      split at h
      · cases h
      · cases h
        omega
    · split at h
      · cases h
      · exact ih _ _ h
    · cases h

theorem readLine_ne_nil (hs : 0 < size) {s l rest : Bytes} (h : readLine size max what s = .ok (l, rest)) {b : UInt8}
    (hb : s.head? = some b) (hlf : b ≠ 10) (hcr : b ≠ 13) : l ≠ [] := by
  obtain ⟨l', rest', rfl, hn⟩ := List.eq_append_cons_of_mem (readLineLoop_ok_mem h)
  obtain hread | ⟨hread, -⟩ := readLine_first hs hn rest'
  · rw [hread] at h
    cases h
    cases l' with
    | nil => exact absurd (Option.some.inj hb).symm hlf
    | cons c l' =>
      obtain rfl : c = b := Option.some.inj hb
      cases l' with
      | nil =>
        rw [stripEOL_of_not_cr (by simpa using hcr)]
        exact List.cons_ne_nil _ _
      | cons d l' =>
        intro hnil
        have hlen : (c :: d :: l').length ≤ (stripEOL ((c :: d :: l') ++ [10])).length + 1 := stripEOL_drops _
        rw [hnil] at hlen
        simp at hlen
  · rw [hread] at h
    cases h

theorem readLine_over (hs : 0 < size) {l : Bytes} (hl : (10 : UInt8) ∉ l)
    (hbig : ((stripEOL (l ++ [10])).length : Int) > max) {rest : Bytes} :
    readLine size max what (l ++ 10 :: rest) = .error (.protocol (ascii "too big " ++ what)) := by
  rcases readLine_first hs hl rest with h | ⟨h, -⟩
  · have hle : ((stripEOL (l ++ [10])).length : Int) ≤ max := readLineLoop_max _ _ _ h
    omega
  · exact h

end Line

section Command

variable {size : Nat} {lim : Limits}

theorem readPayload_consumes {n : Nat} {s a rest : Bytes} (h : readPayload n s = .ok (a, rest)) :
    Consumes (readPayload n) s a rest := by
  unfold readPayload readFull at h
  by_cases hlen : s.length ≥ n + 2
  · rw [if_pos hlen] at h
    simp only at h
    split at h
    · rename_i hend
      cases h
      have hl : (s.take (n + 2)).length = n + 2 := by simp only [List.length_take]; omega
      refine ⟨s.take (n + 2), List.ne_nil_of_length_pos (by omega), (List.take_append_drop _ s).symm, fun x => ?_⟩
      have ht : (s.take (n + 2) ++ x).take (n + 2) = s.take (n + 2) := by
        rw [List.take_append_of_le_length (by omega), List.take_of_length_le (by omega)]
      have hd : (s.take (n + 2) ++ x).drop (n + 2) = x := by
        rw [List.drop_append_of_le_length (by omega), List.drop_of_length_le (by omega), List.nil_append]
      have hx : (s.take (n + 2) ++ x).length ≥ n + 2 := by rw [List.length_append]; omega
      simp only [readPayload, readFull, if_pos hx, ht, hd, if_pos hend]
    · cases h
  · rw [if_neg hlen] at h
    split at h
    · rename_i hx
      split at hx <;> cases h
    · rename_i hx
      split at hx <;> cases hx

theorem readBulk_consumes (hs : 0 < size) {s a rest : Bytes} (h : readBulk size lim s = .ok (a, rest)) :
    Consumes (readBulk size lim) s a rest := by
  unfold readBulk at h
  cases hl : readLine size lim.maxHeaderLen (ascii "header line") s with
  | error e =>
    rw [hl] at h
    cases h
  | ok p =>
    obtain ⟨bl, s1⟩ := p
    rw [hl] at h
    simp only at h
    split at h
    · rename_i hd
      cases hn : bulkLength lim (bl.drop 1) with
      | none =>
        rw [hn] at h
        cases h
      | some n =>
        rw [hn] at h
        obtain ⟨b1, hb1, rfl, hx1⟩ := readLine_consumes hs hl
        obtain ⟨b2, hb2, rfl, hx2⟩ := readPayload_consumes h
        refine ⟨b1 ++ b2, by simp [hb1], by simp, fun x => ?_⟩
        rw [List.append_assoc, readBulk, hx1]
        simp only [if_pos hd, hn]
        exact hx2 x
    · cases h

theorem readBulks_consumes (hs : 0 < size) (n : Nat) {s : Bytes} {args : List Bytes} {rest : Bytes}
    (h : readBulks size lim n s = .ok (args, rest)) :
    args.length = n ∧ ∃ b, s = b ++ rest ∧ ∀ x, readBulks size lim n (b ++ x) = .ok (args, x) := by
  induction n generalizing s args with
  | zero =>
    cases h
    exact ⟨rfl, [], rfl, fun x => rfl⟩
  | succ n ih =>
    unfold readBulks at h
    cases hb : readBulk size lim s with
    | error e =>
      rw [hb] at h
      cases h
    | ok p =>
      obtain ⟨a, s1⟩ := p
      rw [hb] at h
      simp only at h
      cases hr : readBulks size lim n s1 with
      | error e =>
        rw [hr] at h
        cases h
      | ok q =>
        obtain ⟨as, s2⟩ := q
        rw [hr] at h
        cases h
        obtain ⟨hlen, b2, rfl, hx2⟩ := ih hr
        obtain ⟨b1, -, rfl, hx1⟩ := readBulk_consumes hs hb
        refine ⟨by simp [hlen], b1 ++ b2, by simp, fun x => ?_⟩
        rw [List.append_assoc, readBulks, hx1]
        simp only [hx2 x]

theorem readMultibulk_consumes (hs : 0 < size) {s : Bytes} {args : List Bytes} {rest : Bytes}
    (h : readMultibulk size lim s = .ok (args, rest)) : Consumes (readMultibulk size lim) s args rest := by
  unfold readMultibulk at h
  cases hl : readLine size lim.maxHeaderLen (ascii "header line") s with
  | error e =>
    rw [hl] at h
    cases h
  | ok p =>
    obtain ⟨line, s1⟩ := p
    rw [hl] at h
    simp only at h
    cases hn : parseInt (line.drop 1) with
    | none =>
      rw [hn] at h
      cases h
    | some n =>
      rw [hn] at h
      simp only at h
      split at h
      · cases h
      · rename_i hrange
        obtain ⟨b1, hb1, rfl, hx1⟩ := readLine_consumes hs hl
        obtain ⟨-, b2, rfl, hx2⟩ := readBulks_consumes hs _ h
        refine ⟨b1 ++ b2, by simp [hb1], by simp, fun x => ?_⟩
        rw [List.append_assoc, readMultibulk, hx1]
        simp only [hn, if_neg hrange]
        exact hx2 x

theorem readInline_consumes (hs : 0 < size) {s : Bytes} {args : List Bytes} {rest : Bytes}
    (h : readInline size lim s = .ok (args, rest)) : Consumes (readInline size lim) s args rest := by
  unfold readInline at h
  cases hl : readLine size lim.maxInlineLen (ascii "inline request") s with
  | error e =>
    rw [hl] at h
    cases h
  | ok p =>
    obtain ⟨line, s1⟩ := p
    rw [hl] at h
    simp only at h
    split at h
    · cases h
    · rename_i hne
      split at h
      · cases h
      · rename_i hmax
        cases h
        obtain ⟨b, hb, rfl, hx⟩ := readLine_consumes hs hl
        refine ⟨b, hb, rfl, fun x => ?_⟩
        rw [readInline, hx]
        simp only [if_neg hne, if_neg hmax]

theorem head?_append_of_ne_nil {b : Bytes} (hb : b ≠ []) (x : Bytes) : (b ++ x).head? = b.head? := by
  cases b with
  | nil => exact absurd rfl hb
  | cons y ys => rfl

theorem readCommand_consumes (hs : 0 < size) {s : Bytes} {args : List Bytes} {rest : Bytes}
    (h : readCommand size lim s = .ok (args, rest)) : Consumes (readCommand size lim) s args rest := by
  unfold readCommand at h
  split at h
  · cases h
  · split at h
    · rename_i hstar
      obtain ⟨b, hb, rfl, hx⟩ := readMultibulk_consumes hs h
      rw [head?_append_of_ne_nil hb] at hstar
      refine ⟨b, hb, rfl, fun x => ?_⟩
      rw [readCommand, if_neg (by simp [hb]), head?_append_of_ne_nil hb, if_pos hstar, hx]
    · rename_i hstar
      obtain ⟨b, hb, rfl, hx⟩ := readInline_consumes hs h
      rw [head?_append_of_ne_nil hb] at hstar
      refine ⟨b, hb, rfl, fun x => ?_⟩
      rw [readCommand, if_neg (by simp [hb]), head?_append_of_ne_nil hb, if_neg hstar, hx]

end Command

end MemX.RespConsume
