import MemX.Utf8Runes

namespace MemX.TextCase

open DecimalText Utf8Runes

/-- The case mappings of a Unicode version: the ASCII letters, and the only
four runes beyond ASCII that a mapping takes into ASCII. -/
structure CaseTable where
  lower : Nat → Nat
  upper : Nat → Nat
  lower_ascii : ∀ r, r < 0x80 → lower r = if 65 ≤ r ∧ r ≤ 90 then r + 32 else r
  upper_ascii : ∀ r, r < 0x80 → upper r = if 97 ≤ r ∧ r ≤ 122 then r - 32 else r
  lower_other : ∀ r, 0x80 ≤ r → lower r < 0x80 → r = 0x130 ∧ lower r = 105 ∨ r = 0x212A ∧ lower r = 107
  upper_other : ∀ r, 0x80 ≤ r → upper r < 0x80 → r = 0x131 ∧ upper r = 73 ∨ r = 0x17F ∧ upper r = 83

def asciiTable : CaseTable where
  lower r := if 65 ≤ r ∧ r ≤ 90 then r + 32 else if r = 0x130 then 105 else if r = 0x212A then 107 else r
  upper r := if 97 ≤ r ∧ r ≤ 122 then r - 32 else if r = 0x131 then 73 else if r = 0x17F then 83 else r
  lower_ascii r h := by split_ifs <;> omega
  upper_ascii r h := by split_ifs <;> omega
  lower_other r h := by split_ifs <;> omega
  upper_other r h := by split_ifs <;> omega

/-- Map a text rune by rune; invalid bytes become the error rune. -/
def mapRunes (f : Nat → Nat) (s : Bytes) : Bytes := (runes s).flatMap (fun p => encodeRune (f p.1))

def toLower (t : CaseTable) (s : Bytes) : Bytes := mapRunes t.lower s

def toUpper (t : CaseTable) (s : Bytes) : Bytes := mapRunes t.upper s

theorem mapRunes_ascii (f : Nat → Nat) {s : Bytes} (h : ∀ b ∈ s, b.toNat < 0x80) :
    mapRunes f s = s.flatMap (fun b => encodeRune (f b.toNat)) := by
  have hr : runes s = s.map (fun b => (b.toNat, [b])) := runes_ascii h
  rw [mapRunes, hr, List.flatMap_map]

def lowerByte (b : UInt8) : UInt8 := if 65 ≤ b ∧ b ≤ 90 then b + 32 else b

theorem encodeRune_lower (t : CaseTable) {b : UInt8} (h : b < 0x80) :
    encodeRune (t.lower b.toNat) = [lowerByte b] := by
  have hb : b.toNat < 0x80 := h
  rw [t.lower_ascii _ hb]
  unfold lowerByte
  by_cases hc : 65 ≤ b ∧ b ≤ 90
  · have hn : 65 ≤ b.toNat ∧ b.toNat ≤ 90 := hc
    rw [if_pos hn, if_pos hc]
    have he : byte (b.toNat + 32) = b + 32 := by simp [byte]
    simp only [encodeRune, he, if_pos (show b.toNat + 32 < 0x80 by omega)]
  · have hn : ¬ (65 ≤ b.toNat ∧ b.toNat ≤ 90) := hc
    rw [if_neg hn, if_neg hc]
    simp [encodeRune, hb, byte]

theorem toLower_ascii (t : CaseTable) {s : Bytes} (h : ∀ b ∈ s, b < 0x80) : toLower t s = s.map lowerByte := by
  rw [toLower, mapRunes_ascii _ h, List.map_eq_flatMap]
  exact List.flatMap_congr fun b hb => encodeRune_lower t (h b hb)

theorem toUpper_of_upper (t : CaseTable) {s : Bytes} (h : ∀ b ∈ s, b.toNat < 0x80 ∧ ¬ (97 ≤ b.toNat ∧ b.toNat ≤ 122)) :
    toUpper t s = s := by
  have hbyte : ∀ b ∈ s, encodeRune (t.upper b.toNat) = [b] := by
    intro b hb
    obtain ⟨hlt, hsmall⟩ := h b hb
    rw [t.upper_ascii _ hlt, if_neg hsmall]
    simp [encodeRune, hlt, byte]
  rw [toUpper, mapRunes_ascii _ fun b hb => (h b hb).1, List.flatMap_congr hbyte, List.flatMap_singleton']

end MemX.TextCase
