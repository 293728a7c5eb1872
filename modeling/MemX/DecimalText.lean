import MemX.MachineInt

namespace MemX.DecimalText

open MachineInt

abbrev Bytes := List UInt8

def ascii (s : String) : Bytes := s.toList.map (fun c => UInt8.ofNat c.toNat)

def isDigit (b : UInt8) : Bool := 48 ≤ b.toNat && b.toNat ≤ 57

def digit (d : Nat) : UInt8 := UInt8.ofNat (48 + d)

def formatNat (n : Nat) : Bytes :=
  if n = 0 then [48] else ((Nat.digits 10 n).map digit).reverse

def formatInt (n : Int) : Bytes :=
  if n < 0 then 45 :: formatNat n.natAbs else formatNat n.natAbs

def digitsValue (s : Bytes) : Option Nat :=
  s.foldl (fun acc b => acc.bind fun v =>
    if isDigit b then some (10 * v + (b.toNat - 48)) else none) (some 0)

def parseUnsigned (s : Bytes) : Option Nat := if s = [] then none else digitsValue s

/-- Decimal parsing of a signed 64-bit integer: an optional sign, then at
least one digit, with values outside the range refused. -/
def parseInt : Bytes → Option Int
  | 43 :: s => (parseUnsigned s).bind fun n => if n < 2 ^ 63 then some n else none
  | 45 :: s => (parseUnsigned s).bind fun n => if n ≤ 2 ^ 63 then some (-n) else none
  | s => (parseUnsigned s).bind fun n => if n < 2 ^ 63 then some n else none

theorem digit_toNat {d : Nat} (h : d < 10) : (digit d).toNat = 48 + d := by
  simp only [digit, UInt8.toNat_ofNat']
  omega

theorem digitsValue_concat (s : Bytes) (b : UInt8) :
    digitsValue (s ++ [b]) = (digitsValue s).bind fun v =>
      if isDigit b then some (10 * v + (b.toNat - 48)) else none := by
  simp [digitsValue, List.foldl_append]

theorem formatNat_small {n : Nat} (h : n < 10) : formatNat n = [digit n] := by
  unfold formatNat
  split
  · subst n
    rfl
  · rw [Nat.digits_of_lt 10 n (by omega) h]
    rfl

theorem formatNat_step {n : Nat} (h : 10 ≤ n) :
    formatNat n = formatNat (n / 10) ++ [digit (n % 10)] := by
  unfold formatNat
  rw [if_neg (by omega), if_neg (by omega), Nat.digits_def' (by omega) (by omega)]
  simp

theorem digitsValue_formatNat (n : Nat) : digitsValue (formatNat n) = some n := by
  induction n using Nat.strong_induction_on with
  | _ n ih =>
    by_cases h : n < 10
    · have hd := digit_toNat h
      simp [formatNat_small h, digitsValue, isDigit, hd]
      omega
    · have hd := digit_toNat (Nat.mod_lt n (by omega : 10 > 0))
      rw [formatNat_step (by omega), digitsValue_concat, ih (n / 10) (by omega)]
      simp [isDigit, hd]
      omega

theorem formatNat_ne_nil (n : Nat) : formatNat n ≠ [] := by
  by_cases h : n < 10
  · simp [formatNat_small h]
  · simp [formatNat_step (by omega : 10 ≤ n)]

theorem formatNat_digits (n : Nat) : ∀ b ∈ formatNat n, isDigit b = true := by
  induction n using Nat.strong_induction_on with
  | _ n ih =>
    intro b hb
    by_cases h : n < 10
    · rw [formatNat_small h, List.mem_singleton] at hb
      subst hb
      simp [isDigit, digit_toNat h]
      omega
    · rw [formatNat_step (by omega), List.mem_append, List.mem_singleton] at hb
      rcases hb with hb | hb
      · exact ih (n / 10) (by omega) b hb
      · subst hb
        simp [isDigit, digit_toNat (Nat.mod_lt n (by omega : 10 > 0))]
        omega

theorem formatNat_length {n k : Nat} (hk : 0 < k) (h : n < 10 ^ k) : (formatNat n).length ≤ k := by
  unfold formatNat
  split
  · simpa using Nat.succ_le_of_lt hk
  · simpa using (Nat.digits_length_le_iff (by omega) n).mpr h

theorem mem_formatInt {n : Int} {b : UInt8} (hb : b ∈ formatInt n) : b = 45 ∨ isDigit b = true := by
  unfold formatInt at hb
  split_ifs at hb
  · exact (List.mem_cons.mp hb).imp id (formatNat_digits _ b)
  · exact .inr (formatNat_digits _ b hb)

theorem formatInt_ne_nil (n : Int) : formatInt n ≠ [] := by
  unfold formatInt
  split_ifs
  · exact List.cons_ne_nil _ _
  · exact formatNat_ne_nil _

theorem formatInt_length {n : Int} (hr : InRange n) : (formatInt n).length ≤ 20 := by
  unfold InRange at hr
  unfold formatInt
  have hl : (formatNat n.natAbs).length ≤ 19 := formatNat_length (by omega) (by omega)
  split
  · rw [List.length_cons]
    omega
  · omega

theorem parseUnsigned_formatNat (n : Nat) : parseUnsigned (formatNat n) = some n := by
  rw [parseUnsigned, if_neg (formatNat_ne_nil n), digitsValue_formatNat]

theorem digit_ne_sign {b : UInt8} (h : isDigit b = true) : b ≠ 43 ∧ b ≠ 45 := by
  constructor
  · rintro rfl
    exact absurd h (by decide)
  · rintro rfl
    exact absurd h (by decide)

theorem parseInt_of_digits {s : Bytes} (h : ∀ b ∈ s, isDigit b = true) :
    parseInt s = (parseUnsigned s).bind fun n => if n < 2 ^ 63 then some (n : Int) else none := by
  cases s with
  | nil => rfl
  | cons b s =>
    have hb := digit_ne_sign (h b (by simp))
    unfold parseInt
    split
    · rename_i heq
      exact absurd (List.cons.inj heq).1 hb.1
    · rename_i heq
      exact absurd (List.cons.inj heq).1 hb.2
    · rfl

theorem parseInt_formatNat {n : Nat} (h : n < 2 ^ 63) : parseInt (formatNat n) = some (n : Int) := by
  rw [parseInt_of_digits (formatNat_digits n), parseUnsigned_formatNat, Option.bind_some, if_pos h]

theorem parseInt_formatInt {n : Int} (h : InRange n) : parseInt (formatInt n) = some n := by
  unfold InRange at h
  unfold formatInt
  split
  · rw [parseInt, parseUnsigned_formatNat, Option.bind_some, if_pos (by omega)]
    congr 1
    omega
  · rw [parseInt_formatNat (by omega)]
    congr 1
    omega

theorem parseInt_inRange {s : Bytes} {n : Int} (h : parseInt s = some n) : InRange n := by
  unfold parseInt at h
  unfold InRange
  split at h <;>
  · obtain ⟨m, -, hm⟩ := Option.bind_eq_some_iff.mp h
    split at hm
    · cases hm
      omega
    · cases hm

end MemX.DecimalText
