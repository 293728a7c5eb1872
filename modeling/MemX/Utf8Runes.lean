import MemX.DecimalText

namespace MemX.Utf8Runes

open DecimalText

def runeError : Nat := 0xFFFD

def between (lo hi : Nat) (b : UInt8) : Bool := lo ≤ b.toNat && b.toNat ≤ hi

def cont (b : UInt8) : Bool := between 0x80 0xBF b

/-- The range of the second byte of a sequence that starts with `b`, and the
length of the sequence; 0 for a byte that starts none. -/
def lead (b : UInt8) : Nat × Nat × Nat :=
  let n := b.toNat
  if n < 0x80 then (0, 0, 1)
  else if n < 0xC2 then (0, 0, 0)
  else if n < 0xE0 then (0x80, 0xBF, 2)
  else if n = 0xE0 then (0xA0, 0xBF, 3)
  else if n = 0xED then (0x80, 0x9F, 3)
  else if n < 0xF0 then (0x80, 0xBF, 3)
  else if n = 0xF0 then (0x90, 0xBF, 4)
  else if n < 0xF4 then (0x80, 0xBF, 4)
  else if n = 0xF4 then (0x80, 0x8F, 4)
  else (0, 0, 0)

/-- The first rune of a byte string with its width. An invalid encoding is
the error rune of width 1. -/
def decodeRune : Bytes → Nat × Nat
  | [] => (runeError, 0)
  | b :: s =>
    match lead b, s with
    | (_, _, 1), _ => (b.toNat, 1)
    | (lo, hi, 2), b1 :: _ =>
      if between lo hi b1 then ((b.toNat % 32) * 64 + b1.toNat % 64, 2) else (runeError, 1)
    | (lo, hi, 3), b1 :: b2 :: _ =>
      if between lo hi b1 && cont b2 then
        ((b.toNat % 16) * 4096 + (b1.toNat % 64) * 64 + b2.toNat % 64, 3)
      else (runeError, 1)
    | (lo, hi, 4), b1 :: b2 :: b3 :: _ =>
      if between lo hi b1 && cont b2 && cont b3 then
        ((b.toNat % 8) * 262144 + (b1.toNat % 64) * 4096 + (b2.toNat % 64) * 64 + b3.toNat % 64, 4)
      else (runeError, 1)
    | _, _ => (runeError, 1)

def byte (n : Nat) : UInt8 := UInt8.ofNat n

/-- The encoding of a rune; surrogates and values out of range become the
error rune. -/
def encodeRune (r : Nat) : Bytes :=
  if r < 0x80 then [byte r]
  else if r < 0x800 then [byte (0xC0 + r / 64), byte (0x80 + r % 64)]
  else if (0xD800 ≤ r ∧ r ≤ 0xDFFF) ∨ 0x10FFFF < r then [0xEF, 0xBF, 0xBD]
  else if r < 0x10000 then [byte (0xE0 + r / 4096), byte (0x80 + r / 64 % 64), byte (0x80 + r % 64)]
  else [byte (0xF0 + r / 262144), byte (0x80 + r / 4096 % 64), byte (0x80 + r / 64 % 64), byte (0x80 + r % 64)]

def isSpace (r : Nat) : Bool :=
  (9 ≤ r && r ≤ 13) || r == 0x20 || r == 0x85 || r == 0xA0 || r == 0x1680 || (0x2000 ≤ r && r ≤ 0x200A) ||
    r == 0x2028 || r == 0x2029 || r == 0x202F || r == 0x205F || r == 0x3000

def runesLoop : Nat → Bytes → List (Nat × Bytes)
  | 0, _ => []
  | _ + 1, [] => []
  | fuel + 1, b :: s =>
    let (r, n) := decodeRune (b :: s)
    (r, (b :: s).take n) :: runesLoop fuel ((b :: s).drop n)

def runes (s : Bytes) : List (Nat × Bytes) := runesLoop s.length s

def splitSpaces : List (Nat × Bytes) → Bytes → List Bytes
  | [], field => if field = [] then [] else [field]
  | (r, bs) :: rest, field =>
    if isSpace r then (if field = [] then [] else [field]) ++ splitSpaces rest []
    else splitSpaces rest (field ++ bs)

def fields (s : Bytes) : List Bytes := splitSpaces (runes s) []

theorem lead_ascii {b : UInt8} (h : b.toNat < 0x80) : lead b = (0, 0, 1) := by
  rw [lead]
  exact if_pos h

theorem decodeRune_ascii {b : UInt8} (h : b.toNat < 0x80) (s : Bytes) : decodeRune (b :: s) = (b.toNat, 1) := by
  simp [decodeRune, lead_ascii h]

/-- The first byte of a longer rune, or the range of the second, keeps it out of
ASCII; the second byte is not ASCII either. -/
theorem lead_high {b : UInt8} (hb : 0x80 ≤ b.toNat) : (lead b).2.2 = 0 ∨ 0x80 ≤ (lead b).1 ∧
    (((lead b).2.2 = 2 ∧ 2 ≤ b.toNat % 32) ∨
      ((lead b).2.2 = 3 ∧ (1 ≤ b.toNat % 16 ∨ 0xA0 ≤ (lead b).1 ∧ (lead b).2.1 ≤ 0xBF)) ∨
      ((lead b).2.2 = 4 ∧ (1 ≤ b.toNat % 8 ∨ 0x90 ≤ (lead b).1 ∧ (lead b).2.1 ≤ 0xBF))) := by
  have hlt := b.toNat_lt
  unfold lead
  simp only
  split_ifs <;> dsimp only <;> omega

theorem lead_lower {b : UInt8} (h : 2 ≤ (lead b).2.2) : 0x80 ≤ (lead b).1 := by
  by_cases hb : b.toNat < 0x80
  · rw [lead_ascii hb] at h
    exact absurd h (by decide)
  · obtain h₀ | ⟨hlow, -⟩ := lead_high (Nat.le_of_not_lt hb)
    · omega
    · exact hlow

theorem decodeRune_high {b : UInt8} (hb : 0x80 ≤ b.toNat) (s : Bytes) :
    ∃ r cs rest, s = cs ++ rest ∧ decodeRune (b :: s) = (r, cs.length + 1) ∧ 0x80 ≤ r ∧ ∀ x ∈ cs, 0x80 ≤ x.toNat := by
  have herr : ∃ r cs rest, s = cs ++ rest ∧ (runeError, 1) = (r, List.length cs + 1) ∧ 0x80 ≤ r ∧
      ∀ x ∈ cs, 0x80 ≤ x.toNat := ⟨runeError, [], s, rfl, rfl, by decide, by simp⟩
  have hcases := lead_high hb
  rcases hl : lead b with ⟨lo, hi, k⟩
  simp only [hl] at hcases
  simp only [decodeRune, hl]
  split
  · rename_i heq
    cases heq
    omega
  · rename_i lo' hi' b1 rest heq
    cases heq
    split
    · rename_i hx
      simp only [between, Bool.and_eq_true, decide_eq_true_eq] at hx
      exact ⟨_, [b1], rest, rfl, rfl, by omega, by simpa using by omega⟩
    · exact herr
  · rename_i lo' hi' b1 b2 rest heq
    cases heq
    split
    · rename_i hx
      simp only [cont, between, Bool.and_eq_true, decide_eq_true_eq] at hx
      exact ⟨_, [b1, b2], rest, rfl, rfl, by omega, by simpa using ⟨by omega, by omega⟩⟩
    · exact herr
  · rename_i lo' hi' b1 b2 b3 rest heq
    cases heq
    split
    · rename_i hx
      simp only [cont, between, Bool.and_eq_true, decide_eq_true_eq] at hx
      exact ⟨_, [b1, b2, b3], rest, rfl, rfl, by omega, by simpa using ⟨by omega, by omega, by omega⟩⟩
    · exact herr
  · exact herr

theorem decodeRune_take_tail (b : UInt8) (s : Bytes) :
    ∃ n, (decodeRune (b :: s)).2 = n + 1 ∧ ∀ x ∈ s.take n, 0x80 ≤ x.toNat := by
  by_cases hb : b.toNat < 0x80
  · exact ⟨0, by rw [decodeRune_ascii hb], by simp⟩
  · obtain ⟨r, cs, rest, rfl, hdec, -, hcs⟩ := decodeRune_high (Nat.le_of_not_lt hb) s
    exact ⟨cs.length, by rw [hdec], by rwa [List.take_left]⟩

theorem runesLoop_ascii_mem (fuel : Nat) (s : Bytes) (hf : s.length ≤ fuel) {x : UInt8}
    (hx : x.toNat < 0x80) (hm : x ∈ s) : (x.toNat, [x]) ∈ runesLoop fuel s := by
  induction fuel generalizing s with
  | zero =>
    have hs : s = [] := List.length_eq_zero_iff.mp (by omega)
    subst hs
    cases hm
  | succ fuel ih =>
    cases s with
    | nil => cases hm
    | cons b s =>
      obtain ⟨n, hn, htail⟩ := decodeRune_take_tail b s
      rw [runesLoop]
      simp only [hn, List.take_succ_cons, List.drop_succ_cons, List.mem_cons]
      rcases List.mem_cons.mp hm with rfl | hm
      · have hd := decodeRune_ascii hx s
        rw [hd] at hn
        have hn0 : n = 0 := by omega
        subst hn0
        simp [hd]
      · have hsplit : x ∈ s.take n ++ s.drop n := by rwa [List.take_append_drop]
        rcases List.mem_append.mp hsplit with ht | hd
        · exact absurd (htail x ht) (by omega)
        · refine Or.inr (ih (s.drop n) ?_ hd)
          simp only [List.length_cons, List.length_drop] at hf ⊢
          omega

theorem runes_ascii {s : Bytes} (h : ∀ b ∈ s, b.toNat < 0x80) : runes s = s.map (fun b => (b.toNat, [b])) := by
  unfold runes
  induction s with
  | nil => rfl
  | cons b s ih =>
    obtain ⟨hb, hs⟩ := List.forall_mem_cons.mp h
    simp only [List.length_cons, runesLoop, decodeRune_ascii hb, List.map_cons]
    simp [ih hs]

theorem splitSpaces_mem (rs : List (Nat × Bytes)) (field : Bytes) {x : UInt8}
    (h : x ∈ field ∨ ∃ r bs, (r, bs) ∈ rs ∧ isSpace r = false ∧ x ∈ bs) :
    ∃ f ∈ splitSpaces rs field, x ∈ f := by
  induction rs generalizing field with
  | nil =>
    rcases h with h | ⟨_, _, h, _⟩
    · have hne : field ≠ [] := List.ne_nil_of_mem h
      exact ⟨field, by simp [splitSpaces, hne], h⟩
    · cases h
  | cons p rs ih =>
    obtain ⟨r, bs⟩ := p
    unfold splitSpaces
    cases hs : isSpace r with
    | true =>
      simp only [↓reduceIte, List.mem_append]
      rcases h with h | ⟨r', bs', hm, hsp, hx⟩
      · have hne : field ≠ [] := List.ne_nil_of_mem h
        exact ⟨field, by simp [hne], h⟩
      · rcases List.mem_cons.mp hm with heq | hm
        · cases heq
          rw [hs] at hsp
          cases hsp
        · obtain ⟨f, hf, hxf⟩ := ih [] (Or.inr ⟨r', bs', hm, hsp, hx⟩)
          exact ⟨f, Or.inr hf, hxf⟩
    | false =>
      simp only [Bool.false_eq_true, ↓reduceIte]
      apply ih
      rcases h with h | ⟨r', bs', hm, hsp, hx⟩
      · exact Or.inl (by simp [h])
      · rcases List.mem_cons.mp hm with heq | hm
        · cases heq
          exact Or.inl (by simp [hx])
        · exact Or.inr ⟨r', bs', hm, hsp, hx⟩

theorem fields_mem {s : Bytes} {x : UInt8} (hm : x ∈ s) (hx : x.toNat < 0x80)
    (hs : isSpace x.toNat = false) : ∃ f ∈ fields s, x ∈ f :=
  splitSpaces_mem _ _ (Or.inr ⟨_, _, runesLoop_ascii_mem s.length s le_rfl hx hm, hs, by simp⟩)

theorem runesLoop_length (fuel : Nat) (s : Bytes) : ((runesLoop fuel s).map (·.2.length)).sum ≤ s.length := by
  induction fuel generalizing s with
  | zero => simp [runesLoop]
  | succ fuel ih =>
    cases s with
    | nil => simp [runesLoop]
    | cons b s =>
      have h := ih ((b :: s).drop (decodeRune (b :: s)).2)
      simp only [runesLoop, List.map_cons, List.sum_cons, List.length_take, List.length_drop] at h ⊢
      omega

end MemX.Utf8Runes
