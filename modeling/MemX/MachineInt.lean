import Mathlib

namespace MemX.MachineInt

/-- The signed 64-bit result of an integer operation: overflow wraps around. -/
def wrap64 (x : Int) : Int := (x + 2 ^ 63) % 2 ^ 64 - 2 ^ 63

def InRange (x : Int) : Prop := -2 ^ 63 ≤ x ∧ x < 2 ^ 63

instance (x : Int) : Decidable (InRange x) := inferInstanceAs (Decidable (_ ∧ _))

theorem wrap64_inRange (x : Int) : InRange (wrap64 x) := by
  unfold InRange wrap64
  omega

theorem wrap64_of_inRange {x : Int} (h : InRange x) : wrap64 x = x := by
  unfold InRange at h
  unfold wrap64
  omega

theorem wrap64_eq_iff (x y : Int) : wrap64 x = wrap64 y ↔ x % 2 ^ 64 = y % 2 ^ 64 := by
  unfold wrap64
  omega

theorem wrap64_wrap64_mul (x y : Int) : wrap64 (wrap64 x * y) = wrap64 (x * y) := by
  rw [wrap64_eq_iff]
  have h : wrap64 x % 2 ^ 64 = x % 2 ^ 64 := by
    unfold wrap64
    omega
  rw [Int.mul_emod, h, ← Int.mul_emod]

end MemX.MachineInt
