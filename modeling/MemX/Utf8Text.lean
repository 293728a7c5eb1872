import MemX.Utf8Runes

namespace MemX.Utf8Text

open DecimalText Utf8Runes

/-! How the runes of a text come together from those of its parts. -/

theorem runesLoop_fuel {f g : Nat} {s : Bytes} (hf : s.length ≤ f) (hg : s.length ≤ g) :
    runesLoop f s = runesLoop g s := by
  induction f generalizing g s with
  | zero =>
    obtain rfl : s = [] := List.length_eq_zero_iff.mp (by omega)
    cases g <;> rfl
  | succ f ih =>
    cases s with
    | nil => cases g <;> rfl
    | cons b s =>
      cases g with
      | zero => simp at hg
      | succ g =>
        obtain ⟨n, hn, -⟩ := decodeRune_take_tail b s
        simp only [runesLoop, hn, List.drop_succ_cons, List.cons.injEq, true_and]
        simp only [List.length_cons] at hf hg
        exact ih (by rw [List.length_drop]; omega) (by rw [List.length_drop]; omega)

theorem runes_cons (b : UInt8) (s : Bytes) :
    runes (b :: s) = ((decodeRune (b :: s)).1, (b :: s).take (decodeRune (b :: s)).2) ::
      runes ((b :: s).drop (decodeRune (b :: s)).2) := by
  obtain ⟨n, hn, -⟩ := decodeRune_take_tail b s
  rw [runes, List.length_cons, runesLoop]
  simp only [List.cons.injEq, true_and]
  exact runesLoop_fuel (by rw [hn, List.drop_succ_cons, List.length_drop]; omega) le_rfl

theorem runes_bytes (s : Bytes) : (runes s).flatMap (·.2) = s := by
  induction hlen : s.length using Nat.strong_induction_on generalizing s with
  | _ len ih =>
    cases s with
    | nil => rfl
    | cons b s =>
      obtain ⟨n, hn, -⟩ := decodeRune_take_tail b s
      have htail := ih (s.drop n).length (by rw [← hlen, List.length_drop, List.length_cons]; omega) (s.drop n) rfl
      rw [runes_cons, List.flatMap_cons, hn, List.drop_succ_cons, htail, List.take_succ_cons]
      simp

theorem between_ascii {b x : UInt8} (h : 2 ≤ (lead b).2.2) (hx : x.toNat < 0x80) :
    between (lead b).1 (lead b).2.1 x = false := by
  have hlow := lead_lower h
  simp only [between, Bool.and_eq_false_iff, decide_eq_false_iff_not]
  exact .inl (by omega)

theorem cont_ascii {x : UInt8} (hx : x.toNat < 0x80) : cont x = false := by
  simp only [cont, between, Bool.and_eq_false_iff, decide_eq_false_iff_not]
  exact .inl (by omega)

def high (x : UInt8) : Bool := 0x80 ≤ x.toNat

theorem decodeRune_conts (b : UInt8) (s : Bytes) : decodeRune (b :: s) = decodeRune (b :: s.takeWhile high) := by
  have hb : ∀ x, high x = false → 2 ≤ (lead b).2.2 → between (lead b).1 (lead b).2.1 x = false := fun x hx hk =>
    between_ascii hk (by simpa [high] using hx)
  have hc : ∀ x, high x = false → cont x = false := fun x hx => cont_ascii (by simpa [high] using hx)
  rcases hl : lead b with ⟨lo, hi, _ | _ | _ | _ | _ | k⟩ <;> simp only [hl] at hb
  · simp [decodeRune, hl]
  · simp [decodeRune, hl]
  · cases s with
    | nil => rfl
    | cons b1 s => cases h1 : high b1 <;> simp [decodeRune, hl, h1, hb]
  · cases s with
    | nil => rfl
    | cons b1 s =>
      cases s with
      | nil => cases h1 : high b1 <;> simp [decodeRune, hl, h1]
      | cons b2 s =>
        cases h1 : high b1 with
        | false => simp [decodeRune, hl, h1, hb]
        | true => cases h2 : high b2 <;> simp [decodeRune, hl, h1, h2, hc]
  · cases s with
    | nil => rfl
    | cons b1 s =>
      cases s with
      | nil => cases h1 : high b1 <;> simp [decodeRune, hl, h1]
      | cons b2 s =>
        cases s with
        | nil => cases h1 : high b1 <;> cases h2 : high b2 <;> simp [decodeRune, hl, h1, h2]
        | cons b3 s =>
          cases h1 : high b1 with
          | false => simp [decodeRune, hl, h1, hb]
          | true =>
            cases h2 : high b2 with
            | false => simp [decodeRune, hl, h1, h2, hc]
            | true => cases h3 : high b3 <;> simp [decodeRune, hl, h1, h2, h3, hc]
  · simp [decodeRune, hl]

theorem decodeRune_width (b : UInt8) (s : Bytes) : (decodeRune (b :: s)).2 ≤ s.length + 1 := by
  by_cases hb : b.toNat < 0x80
  · rw [decodeRune_ascii hb]
    exact Nat.le_add_left 1 _
  · obtain ⟨r, cs, rest, rfl, hdec, -⟩ := decodeRune_high (Nat.le_of_not_lt hb) s
    rw [hdec, List.length_append]
    omega

theorem takeWhile_high_append (s : Bytes) {x : UInt8} (hx : x.toNat < 0x80) (t : Bytes) :
    (s ++ x :: t).takeWhile high = s.takeWhile high := by
  have hlow : high x = false := by simpa [high] using hx
  induction s with
  | nil => simp [hlow]
  | cons b s ih => cases hb : high b <;> simp [hb, ih]

/-- An ASCII byte ends whatever rune is open before it. -/
theorem runes_append_ascii (s : Bytes) {x : UInt8} (hx : x.toNat < 0x80) (t : Bytes) :
    runes (s ++ x :: t) = runes s ++ runes (x :: t) := by
  induction hlen : s.length using Nat.strong_induction_on generalizing s with
  | _ len ih =>
    cases s with
    | nil => rfl
    | cons b s =>
      have hdec : decodeRune (b :: (s ++ x :: t)) = decodeRune (b :: s) := by
        rw [decodeRune_conts, takeWhile_high_append s hx, ← decodeRune_conts]
      have hw := decodeRune_width b s
      obtain ⟨n, hn, -⟩ := decodeRune_take_tail b s
      have hle : n ≤ s.length := by omega
      have htail := ih (s.drop n).length (by rw [← hlen, List.length_drop, List.length_cons]; omega) (s.drop n) rfl
      rw [List.cons_append, runes_cons, runes_cons, hdec, hn]
      simp only [List.take_succ_cons, List.drop_succ_cons, List.take_append_of_le_length hle,
        List.drop_append_of_le_length hle, htail, List.cons_append]

theorem runes_ascii_cons {x : UInt8} (hx : x.toNat < 0x80) (t : Bytes) :
    runes (x :: t) = (x.toNat, [x]) :: runes t := by
  rw [runes_cons, decodeRune_ascii hx]
  rfl

theorem runes_ascii_append {g : Bytes} (hg : ∀ b ∈ g, b.toNat < 0x80) (t : Bytes) :
    runes (g ++ t) = g.map (fun b => (b.toNat, [b])) ++ runes t := by
  induction g with
  | nil => rfl
  | cons b g ih =>
    obtain ⟨hb, hg⟩ := List.forall_mem_cons.mp hg
    rw [List.cons_append, runes_ascii_cons hb, ih hg]
    rfl

theorem decodeRune_low {b : UInt8} {s : Bytes} (h : (decodeRune (b :: s)).1 < 0x80) : b.toNat < 0x80 := by
  by_contra hb
  obtain ⟨r, cs, rest, -, hdec, hr, -⟩ := decodeRune_high (Nat.le_of_not_lt hb) s
  rw [hdec] at h
  exact absurd h (Nat.not_lt.mpr hr)

theorem ascii_of_runes {s : Bytes} (h : ∀ p ∈ runes s, p.1 < 0x80) : ∀ b ∈ s, b.toNat < 0x80 := by
  induction s with
  | nil => simp
  | cons b s ih =>
    rw [runes_cons] at h
    obtain ⟨hb, hs⟩ := List.forall_mem_cons.mp h
    have hlow := decodeRune_low hb
    rw [decodeRune_ascii hlow] at hs
    exact List.forall_mem_cons.mpr ⟨hlow, ih hs⟩

/-- The code points that have an encoding of their own. -/
def Scalar (r : Nat) : Prop := r < 0xD800 ∨ 0xDFFF < r ∧ r ≤ 0x10FFFF

theorem toNat_byte {n : Nat} (h : n < 256) : (byte n).toNat = n := by
  simp only [byte, UInt8.toNat_ofNat']
  omega

theorem lead_of_two {b : UInt8} (h₁ : 0xC2 ≤ b.toNat) (h₂ : b.toNat < 0xE0) : lead b = (0x80, 0xBF, 2) := by
  simp only [lead]
  rw [if_neg (by omega), if_neg (by omega), if_pos h₂]

theorem lead_of_three {b : UInt8} (h₁ : 0xE0 ≤ b.toNat) (h₂ : b.toNat < 0xF0) :
    lead b = (if b.toNat = 0xE0 then 0xA0 else 0x80, if b.toNat = 0xED then 0x9F else 0xBF, 3) := by
  simp only [lead]
  rw [if_neg (by omega), if_neg (by omega), if_neg (by omega)]
  split_ifs <;> first | rfl | omega

theorem lead_of_four {b : UInt8} (h₁ : 0xF0 ≤ b.toNat) (h₂ : b.toNat ≤ 0xF4) :
    lead b = (if b.toNat = 0xF0 then 0x90 else 0x80, if b.toNat = 0xF4 then 0x8F else 0xBF, 4) := by
  simp only [lead]
  rw [if_neg (by omega), if_neg (by omega), if_neg (by omega), if_neg (by omega), if_neg (by omega), if_neg (by omega)]
  split_ifs <;> first | rfl | omega

theorem decodeRune_encodeRune {r : Nat} (h : Scalar r) (t : Bytes) :
    decodeRune (encodeRune r ++ t) = (r, (encodeRune r).length) := by
  unfold Scalar at h
  unfold encodeRune
  split_ifs with h1 h2 h3 h4
  · have hb := toNat_byte (by omega : r < 256)
    rw [List.singleton_append, decodeRune_ascii (by omega), hb]
    rfl
  · have h0 := toNat_byte (by omega : 0xC0 + r / 64 < 256)
    have ht := toNat_byte (by omega : 0x80 + r % 64 < 256)
    have hl := lead_of_two (b := byte (0xC0 + r / 64)) (by omega) (by omega)
    simp only [List.cons_append, List.nil_append, decodeRune, hl, between, h0, ht]
    rw [if_pos (by simp; omega)]
    simp only [List.length_cons, List.length_nil, Prod.mk.injEq, and_true]
    omega
  · omega
  · have h0 := toNat_byte (by omega : 0xE0 + r / 4096 < 256)
    have h1 := toNat_byte (by omega : 0x80 + r / 64 % 64 < 256)
    have ht := toNat_byte (by omega : 0x80 + r % 64 < 256)
    have hl := lead_of_three (b := byte (0xE0 + r / 4096)) (by omega) (by omega)
    simp only [List.cons_append, List.nil_append, decodeRune, hl, between, cont, h0, h1, ht]
    rw [if_pos (by simp only [Bool.and_eq_true, decide_eq_true_eq]; split_ifs <;> omega)]
    simp only [List.length_cons, List.length_nil, Prod.mk.injEq, and_true]
    omega
  · have h0 := toNat_byte (by omega : 0xF0 + r / 262144 < 256)
    have h1 := toNat_byte (by omega : 0x80 + r / 4096 % 64 < 256)
    have h2 := toNat_byte (by omega : 0x80 + r / 64 % 64 < 256)
    have ht := toNat_byte (by omega : 0x80 + r % 64 < 256)
    have hl := lead_of_four (b := byte (0xF0 + r / 262144)) (by omega) (by omega)
    simp only [List.cons_append, List.nil_append, decodeRune, hl, between, cont, h0, h1, h2, ht]
    rw [if_pos (by simp only [Bool.and_eq_true, decide_eq_true_eq]; split_ifs <;> omega)]
    simp only [List.length_cons, List.length_nil, Prod.mk.injEq, and_true]
    omega

theorem encodeRune_ne_nil (r : Nat) : encodeRune r ≠ [] := by
  unfold encodeRune
  split_ifs <;> simp

theorem encodeRune_low {r : Nat} {b : UInt8} (hb : b ∈ encodeRune r) (hlow : b.toNat < 0x80) :
    r < 0x80 ∧ b = byte r := by
  have hbig : ∀ n, 0x80 ≤ n → n < 256 → b ≠ byte n := by
    rintro n h₁ h₂ rfl
    rw [toNat_byte h₂] at hlow
    omega
  unfold encodeRune at hb
  split_ifs at hb with h1 h2 h3 h4
  · exact ⟨h1, List.mem_singleton.mp hb⟩
  · simp only [List.mem_cons, List.not_mem_nil, or_false] at hb
    obtain hb | hb := hb
    · exact absurd hb (hbig _ (by omega) (by omega))
    · exact absurd hb (hbig _ (by omega) (by omega))
  · simp only [List.mem_cons, List.not_mem_nil, or_false] at hb
    obtain rfl | rfl | rfl := hb <;> exact absurd hlow (by decide)
  · simp only [List.mem_cons, List.not_mem_nil, or_false] at hb
    obtain hb | hb | hb := hb <;> exact absurd hb (hbig _ (by omega) (by omega))
  · simp only [List.mem_cons, List.not_mem_nil, or_false] at hb
    obtain hb | hb | hb | hb := hb <;> exact absurd hb (hbig _ (by omega) (by omega))

instance (r : Nat) : Decidable (Scalar r) := inferInstanceAs (Decidable (_ ∨ _))

def written (r : Nat) : Nat := if Scalar r then r else runeError

theorem scalar_written (r : Nat) : Scalar (written r) := by
  unfold written
  split_ifs with h
  · exact h
  · decide

theorem encodeRune_written (r : Nat) : encodeRune (written r) = encodeRune r := by
  unfold written
  split_ifs with h
  · rfl
  · have hout : (0xD800 ≤ r ∧ r ≤ 0xDFFF) ∨ 0x10FFFF < r := by
      unfold Scalar at h
      omega
    rw [encodeRune, encodeRune, if_neg (by decide), if_neg (by decide), if_neg (by decide), if_pos (by decide),
      if_neg (by omega), if_neg (by omega), if_pos hout]
    decide

theorem runes_encodeRune (r : Nat) (t : Bytes) :
    runes (encodeRune r ++ t) = (written r, encodeRune r) :: runes t := by
  have hdec := decodeRune_encodeRune (scalar_written r) t
  rw [encodeRune_written] at hdec
  obtain ⟨b, s, hbs⟩ := List.exists_cons_of_ne_nil (encodeRune_ne_nil r)
  rw [hbs] at hdec ⊢
  rw [List.cons_append] at hdec ⊢
  rw [runes_cons, hdec]
  simp

/-- Encoded code points are read back as they were written. -/
theorem runes_encode (rs : List Nat) (t : Bytes) :
    runes (rs.flatMap encodeRune ++ t) = rs.map (fun r => (written r, encodeRune r)) ++ runes t := by
  induction rs with
  | nil => rfl
  | cons r rs ih => rw [List.flatMap_cons, List.append_assoc, runes_encodeRune, ih, List.map_cons, List.cons_append]

/-- A line that consists of the items with a gap between any two of them. -/
inductive Joined (Gap : Bytes → Prop) : List Bytes → Bytes → Prop
  | nil : Joined Gap [] []
  | one (item : Bytes) : Joined Gap [item] item
  | cons (item : Bytes) {gap : Bytes} (hgap : Gap gap) {next : Bytes} {items : List Bytes} {line : Bytes}
      (more : Joined Gap (next :: items) line) : Joined Gap (item :: next :: items) (item ++ (gap ++ line))

theorem Joined.mono {Gap Gap' : Bytes → Prop} (h : ∀ gap, Gap gap → Gap' gap) {items : List Bytes} {line : Bytes}
    (hj : Joined Gap items line) : Joined Gap' items line := by
  induction hj with
  | nil => exact .nil
  | one item => exact .one item
  | cons item hgap more ih => exact .cons item (h _ hgap) ih

def Plain (word : Bytes) : Prop := word ≠ [] ∧ ∀ p ∈ runes word, isSpace p.1 = false

instance (word : Bytes) : Decidable (Plain word) := inferInstanceAs (Decidable (_ ∧ _))

theorem runes_not_space {s : Bytes} (h : ∀ b ∈ s, b.toNat < 0x80 ∧ isSpace b.toNat = false) :
    ∀ p ∈ runes s, isSpace p.1 = false := by
  intro p hp
  rw [runes_ascii fun b hb => (h b hb).1] at hp
  obtain ⟨b, hb, rfl⟩ := List.mem_map.mp hp
  exact (h b hb).2

theorem formatNat_not_space (n : Nat) : ∀ b ∈ formatNat n, b.toNat < 0x80 ∧ isSpace b.toNat = false := by
  intro b hb
  have hdigit := formatNat_digits n b hb
  simp only [isDigit, Bool.and_eq_true, decide_eq_true_eq] at hdigit
  refine ⟨by omega, ?_⟩
  simp only [isSpace, Bool.or_eq_false_iff, Bool.and_eq_false_iff, decide_eq_false_iff_not, beq_eq_false_iff_ne]
  omega

def Blank (gap : Bytes) : Prop := gap ≠ [] ∧ ∀ b ∈ gap, b.toNat < 0x80 ∧ isSpace b.toNat = true

theorem splitSpaces_word {rs : List (Nat × Bytes)} (h : ∀ p ∈ rs, isSpace p.1 = false) (rest : List (Nat × Bytes))
    (field : Bytes) : splitSpaces (rs ++ rest) field = splitSpaces rest (field ++ rs.flatMap (·.2)) := by
  induction rs generalizing field with
  | nil => simp
  | cons p rs ih =>
    obtain ⟨hp, hrs⟩ := List.forall_mem_cons.mp h
    rw [List.cons_append, splitSpaces, if_neg (by simp [hp]), ih hrs]
    simp

theorem splitSpaces_gap {rs : List (Nat × Bytes)} (hne : rs ≠ []) (h : ∀ p ∈ rs, isSpace p.1 = true)
    (rest : List (Nat × Bytes)) {field : Bytes} (hf : field ≠ []) :
    splitSpaces (rs ++ rest) field = field :: splitSpaces rest [] := by
  have hskip : ∀ rs : List (Nat × Bytes), (∀ p ∈ rs, isSpace p.1 = true) →
      splitSpaces (rs ++ rest) [] = splitSpaces rest [] := by
    intro rs h
    induction rs with
    | nil => rfl
    | cons p rs ih =>
      obtain ⟨hp, hrs⟩ := List.forall_mem_cons.mp h
      rw [List.cons_append, splitSpaces, if_pos hp, if_pos rfl, ih hrs]
      rfl
  obtain ⟨p, rs, rfl⟩ := List.exists_cons_of_ne_nil hne
  obtain ⟨hp, hrs⟩ := List.forall_mem_cons.mp h
  rw [List.cons_append, splitSpaces, if_pos hp, if_neg hf, hskip rs hrs]
  rfl

theorem fields_joined {items : List Bytes} {line : Bytes} (h : Joined Blank items line)
    (hplain : ∀ w ∈ items, Plain w) : fields line = items := by
  induction h with
  | nil => rfl
  | one item =>
    obtain ⟨hne, hword⟩ := hplain item (by simp)
    have hsplit := splitSpaces_word hword [] []
    rw [List.append_nil, List.nil_append, runes_bytes] at hsplit
    rw [fields, hsplit, splitSpaces, if_neg hne]
  | @cons item gap hgap next items line more ih =>
    obtain ⟨⟨hne, hword⟩, hmore⟩ := List.forall_mem_cons.mp hplain
    obtain ⟨hg, hblank⟩ := hgap
    have hspace : ∀ p ∈ gap.map (fun b => (b.toNat, [b])), isSpace p.1 = true := by
      intro p hp
      obtain ⟨b, hb, rfl⟩ := List.mem_map.mp hp
      exact (hblank b hb).2
    have hruns : runes (item ++ (gap ++ line)) = runes item ++ (gap.map (fun b => (b.toNat, [b])) ++ runes line) := by
      rw [← runes_ascii_append fun b hb => (hblank b hb).1]
      obtain ⟨b, gap, rfl⟩ := List.exists_cons_of_ne_nil hg
      exact runes_append_ascii item (hblank b (by simp)).1 (gap ++ line)
    rw [fields, hruns, splitSpaces_word hword, List.nil_append, runes_bytes,
      splitSpaces_gap (by simpa using hg) hspace _ hne]
    exact congrArg (item :: ·) (ih hmore)

/-! The room that the fields of a text take in it. -/

theorem runesLoop_ne_nil (fuel : Nat) (s : Bytes) : ∀ p ∈ runesLoop fuel s, p.2 ≠ [] := by
  induction fuel generalizing s with
  | zero => exact fun p hp => absurd hp List.not_mem_nil
  | succ fuel ih =>
    cases s with
    | nil => exact fun p hp => absurd hp List.not_mem_nil
    | cons b s =>
      obtain ⟨n, hn, -⟩ := decodeRune_take_tail b s
      simp only [runesLoop, hn, List.forall_mem_cons]
      exact ⟨List.cons_ne_nil _ _, ih _⟩

theorem splitSpaces_ne_nil (rs : List (Nat × Bytes)) (field : Bytes) : ∀ f ∈ splitSpaces rs field, f ≠ [] := by
  have hlast : ∀ field : Bytes, ∀ f ∈ (if field = [] then [] else [field]), f ≠ [] := by
    intro field f hf
    split_ifs at hf with h
    · exact absurd hf List.not_mem_nil
    · rwa [List.mem_singleton.mp hf]
  induction rs generalizing field with
  | nil => exact hlast field
  | cons p rs ih =>
    intro f hf
    by_cases hsp : isSpace p.1 = true
    · rw [splitSpaces, if_pos hsp] at hf
      exact (List.mem_append.mp hf).elim (hlast field f) (ih [] f)
    · rw [splitSpaces, if_neg hsp] at hf
      exact ih _ f hf

theorem splitSpaces_room {rs : List (Nat × Bytes)} (hrs : ∀ p ∈ rs, p.2 ≠ []) (field : Bytes) :
    ((splitSpaces rs field).map (·.length + 1)).sum ≤ field.length + (rs.map (·.2.length)).sum + 1 := by
  have hlast : ∀ field : Bytes, ((if field = [] then [] else [field]).map (·.length + 1)).sum ≤ field.length + 1 := by
    intro field
    split_ifs <;> simp
  induction rs generalizing field with
  | nil => exact hlast field
  | cons p rs ih =>
    obtain ⟨hp, hrs⟩ := List.forall_mem_cons.mp hrs
    have hpos := List.length_pos_iff.mpr hp
    rw [List.map_cons, List.sum_cons]
    by_cases hsp : isSpace p.1 = true
    · have hrest := ih hrs []
      have hfield := hlast field
      rw [splitSpaces, if_pos hsp, List.map_append, List.sum_append]
      rw [List.length_nil] at hrest
      omega
    · have hrest := ih hrs (field ++ p.2)
      rw [splitSpaces, if_neg hsp]
      rw [List.length_append] at hrest
      omega

theorem fields_room (s : Bytes) : ((fields s).map (·.length + 1)).sum ≤ s.length + 1 := by
  have hroom := splitSpaces_room (runesLoop_ne_nil s.length s) []
  have hlen := runesLoop_length s.length s
  rw [List.length_nil] at hroom
  rw [fields, runes]
  omega

theorem fields_count (s : Bytes) : 2 * (fields s).length ≤ s.length + 1 := by
  have hpos : ∀ n ∈ (fields s).map (·.length + 1), 2 ≤ n := by
    intro n hn
    obtain ⟨f, hf, rfl⟩ := List.mem_map.mp hn
    have hlen := List.length_pos_iff.mpr (splitSpaces_ne_nil _ _ f hf)
    omega
  have hsum := List.card_nsmul_le_sum _ 2 hpos
  rw [List.length_map, smul_eq_mul] at hsum
  have hroom := fields_room s
  omega

theorem fields_total (s : Bytes) : ((fields s).map List.length).sum ≤ s.length := by
  have hroom := fields_room s
  rw [List.sum_map_add] at hroom
  cases hf : fields s with
  | nil => exact Nat.zero_le _
  | cons f fs =>
    rw [hf, List.map_const', List.sum_replicate, List.length_cons, smul_eq_mul] at hroom
    omega

end MemX.Utf8Text
