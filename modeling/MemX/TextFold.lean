import MemX.TextCase
import MemX.Utf8Text

namespace MemX.TextFold

open DecimalText Utf8Runes Utf8Text TextCase

/-- Two texts that differ only in the case of ASCII letters. -/
def Recased (s s' : Bytes) : Prop := s.map lowerByte = s'.map lowerByte

instance (s s' : Bytes) : Decidable (Recased s s') := inferInstanceAs (Decidable (_ = _))

def isUpper (b : UInt8) : Bool := 65 ≤ b && b ≤ 90

theorem isUpper_iff (b : UInt8) : isUpper b = true ↔ 65 ≤ b.toNat ∧ b.toNat ≤ 90 := by
  simp [isUpper, UInt8.le_iff_toNat_le]

theorem lowerByte_toNat (b : UInt8) :
    (lowerByte b).toNat = if 65 ≤ b.toNat ∧ b.toNat ≤ 90 then b.toNat + 32 else b.toNat := by
  unfold lowerByte
  simp only [UInt8.le_iff_toNat_le, UInt8.reduceToNat]
  split_ifs with h
  · rw [UInt8.toNat_add]
    simp only [UInt8.reduceToNat]
    omega
  · rfl

theorem lowerByte_of_not_upper {b : UInt8} (h : isUpper b = false) : lowerByte b = b := by
  have hb : ¬ (65 ≤ b.toNat ∧ b.toNat ≤ 90) := by
    rw [← isUpper_iff, h]
    exact Bool.false_ne_true
  rw [← UInt8.toNat_inj, lowerByte_toNat, if_neg hb]

theorem lowerByte_idem (b : UInt8) : lowerByte (lowerByte b) = lowerByte b := by
  rw [← UInt8.toNat_inj, lowerByte_toNat, lowerByte_toNat]
  split_ifs <;> omega

theorem high_lowerByte (b : UInt8) : high (lowerByte b) = high b := by
  simp only [high, lowerByte_toNat]
  split_ifs with h
  · rw [decide_eq_decide]
    omega
  · rfl

theorem lowerByte_high {b : UInt8} (h : high b = true) : lowerByte b = b := by
  have hb : 0x80 ≤ b.toNat := by simpa [high] using h
  rw [← UInt8.toNat_inj, lowerByte_toNat, if_neg (by omega)]

theorem takeWhile_high_lower (s : Bytes) : (s.map lowerByte).takeWhile high = s.takeWhile high := by
  induction s with
  | nil => rfl
  | cons b s ih =>
    simp only [List.map_cons, List.takeWhile_cons, high_lowerByte, ih]
    split_ifs with h
    · rw [lowerByte_high h]
    · rfl

theorem mapRunes_cons (f : Nat → Nat) (b : UInt8) (s : Bytes) :
    mapRunes f (b :: s) =
      encodeRune (f (decodeRune (b :: s)).1) ++ mapRunes f ((b :: s).drop (decodeRune (b :: s)).2) := by
  rw [mapRunes, runes_cons, List.flatMap_cons, mapRunes]

theorem toLower_map_lowerByte (t : CaseTable) (s : Bytes) : toLower t (s.map lowerByte) = toLower t s := by
  unfold toLower
  induction hlen : s.length using Nat.strong_induction_on generalizing s with
  | _ len ih =>
    cases s with
    | nil => rfl
    | cons b s =>
      rw [List.length_cons] at hlen
      cases hb : high b with
      | false =>
        have hlow : b.toNat < 0x80 := by simpa [high] using hb
        have hlow' : (lowerByte b).toNat < 0x80 := by simpa [high] using (high_lowerByte b).trans hb
        rw [List.map_cons, mapRunes_cons, mapRunes_cons, decodeRune_ascii hlow, decodeRune_ascii hlow',
          encodeRune_lower t hlow, encodeRune_lower t hlow', lowerByte_idem]
        exact congrArg _ (ih s.length (by omega) s rfl)
      | true =>
        have hdec : decodeRune (b :: s.map lowerByte) = decodeRune (b :: s) := by
          rw [decodeRune_conts, takeWhile_high_lower, ← decodeRune_conts]
        obtain ⟨n, hn, -⟩ := decodeRune_take_tail b s
        rw [List.map_cons, lowerByte_high hb, mapRunes_cons, mapRunes_cons, hdec, hn, List.drop_succ_cons,
          List.drop_succ_cons, ← List.map_drop, ih (s.drop n).length (by rw [List.length_drop]; omega) (s.drop n) rfl]

theorem toLower_recased (t : CaseTable) {s s' : Bytes} (h : Recased s s') : toLower t s = toLower t s' := by
  rw [← toLower_map_lowerByte t s, h, toLower_map_lowerByte]

/-- A text of valid encodings, all of runes that are their own lower case. -/
def Steady (t : CaseTable) (s : Bytes) : Prop := ∀ p ∈ runes s, encodeRune (t.lower p.1) = p.2

instance (t : CaseTable) (s : Bytes) : Decidable (Steady t s) := inferInstanceAs (Decidable (∀ p ∈ runes s, _))

theorem runes_mapRunes (f : Nat → Nat) (s : Bytes) :
    runes (mapRunes f s) = (runes s).map fun p => (written (f p.1), encodeRune (f p.1)) := by
  have h := runes_encode ((runes s).map fun p => f p.1) []
  rw [List.append_nil, List.flatMap_map, List.map_map] at h
  exact h.trans (List.append_nil _)

theorem toLower_eq_self_iff (t : CaseTable) (s : Bytes) : toLower t s = s ↔ Steady t s := by
  constructor
  · intro h p hp
    have hruns := runes_mapRunes t.lower s
    rw [show mapRunes t.lower s = s from h] at hruns
    have hid : (runes s).map id = _ := (List.map_id _).trans hruns
    have hpoint := List.map_inj_left.mp hid p hp
    exact (congrArg Prod.snd hpoint).symm
  · intro h
    rw [toLower, mapRunes, List.flatMap_congr h, runes_bytes]

theorem map_eq_iff_recased {g : UInt8 → UInt8} {s word : Bytes}
    (hg : ∀ b ∈ s, ∀ k ∈ word, g b = k ↔ lowerByte b = lowerByte k) : s.map g = word ↔ Recased s word := by
  unfold Recased
  induction s generalizing word with
  | nil => simp [eq_comm]
  | cons b s ih =>
    cases word with
    | nil => simp
    | cons k word =>
      have htail : ∀ b ∈ s, ∀ k ∈ word, g b = k ↔ lowerByte b = lowerByte k := fun b hb k hk =>
        hg b (List.mem_cons_of_mem _ hb) k (List.mem_cons_of_mem _ hk)
      simp only [List.map_cons, List.cons.injEq, ih htail, hg b (by simp) k (by simp)]

theorem upper_eq_iff (t : CaseTable) {b k : UInt8} (hb : b.toNat < 0x80) (hk : isUpper k = true) :
    byte (t.upper b.toNat) = k ↔ lowerByte b = lowerByte k := by
  rw [isUpper_iff] at hk
  rw [t.upper_ascii _ hb, ← UInt8.toNat_inj, ← UInt8.toNat_inj, lowerByte_toNat, lowerByte_toNat, if_pos hk]
  by_cases h : 97 ≤ b.toNat ∧ b.toNat ≤ 122
  · rw [if_pos h, toNat_byte (by omega), if_neg (by omega)]
    omega
  · rw [if_neg h, toNat_byte (by omega)]
    split_ifs <;> omega

theorem toUpper_ascii (t : CaseTable) {s : Bytes} (h : ∀ b ∈ s, b.toNat < 0x80) :
    toUpper t s = s.map fun b => byte (t.upper b.toNat) := by
  rw [toUpper, mapRunes_ascii _ h, List.map_eq_flatMap]
  refine List.flatMap_congr fun b hb => ?_
  rw [encodeRune, if_pos]
  rw [t.upper_ascii _ (h b hb)]
  have := h b hb
  split_ifs <;> omega

/-- A word of capitals to which no rune beyond ASCII is raised: a text has it
for its upper case if and only if it spells it in some case. -/
theorem toUpper_eq_iff (t : CaseTable) {word : Bytes} (hw : ∀ k ∈ word, isUpper k = true ∧ k ≠ 73 ∧ k ≠ 83)
    (s : Bytes) : toUpper t s = word ↔ Recased s word := by
  have hascii : toUpper t s = word ∨ Recased s word → ∀ b ∈ s, b.toNat < 0x80 := by
    rintro (h | h)
    · refine ascii_of_runes fun p hp => ?_
      obtain ⟨b, bs, hbs⟩ := List.exists_cons_of_ne_nil (encodeRune_ne_nil (t.upper p.1))
      have hb : b ∈ encodeRune (t.upper p.1) := by simp [hbs]
      have hm : b ∈ word := h ▸ List.mem_flatMap.mpr ⟨p, hp, hb⟩
      obtain ⟨hup, h73, h83⟩ := hw b hm
      have hrange := (isUpper_iff b).mp hup
      obtain ⟨hlow, rfl⟩ := encodeRune_low hb (by omega)
      by_contra hp'
      rcases t.upper_other p.1 (Nat.le_of_not_lt hp') hlow with ⟨-, he⟩ | ⟨-, he⟩
      · exact h73 (by rw [he]; rfl)
      · exact h83 (by rw [he]; rfl)
    · intro b hb
      have hm : lowerByte b ∈ word.map lowerByte := h ▸ List.mem_map_of_mem hb
      obtain ⟨k, hk, he⟩ := List.mem_map.mp hm
      have hrange := (isUpper_iff k).mp (hw k hk).1
      have hnat := congrArg UInt8.toNat he
      rw [lowerByte_toNat, lowerByte_toNat, if_pos hrange] at hnat
      split_ifs at hnat <;> omega
  have hiff : (∀ b ∈ s, b.toNat < 0x80) → (toUpper t s = word ↔ Recased s word) := by
    intro h
    rw [toUpper_ascii t h]
    exact map_eq_iff_recased fun b hb k hk => upper_eq_iff t (h b hb) (hw k hk).1
  exact ⟨fun h => (hiff (hascii (.inl h))).mp h, fun h => (hiff (hascii (.inr h))).mpr h⟩

end MemX.TextFold
