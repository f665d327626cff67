import Mathlib.Algebra.Group.Int.Defs
import Mathlib.Algebra.Group.Nat.Defs
import Mathlib.Data.Nat.Size
import Mathlib.Order.Bounds.Defs

/-!
# Two's complement

The width that an integer needs in two's complement is one more than the number
of binary digits of the integer, or of its complement when it is negative.
-/

namespace CsappLabs.Foundation

def foldSign (x : Int) : Nat := if x < 0 then (-x - 1).toNat else x.toNat

def FitsWidth (n : Nat) (x : Int) : Prop := -2 ^ (n - 1) ≤ x ∧ x ≤ 2 ^ (n - 1) - 1

theorem fitsWidth_iff (n : Nat) (x : Int) : FitsWidth n x ↔ foldSign x < 2 ^ (n - 1) := by
  unfold FitsWidth foldSign
  have hcast : ((2 ^ (n - 1) : Nat) : Int) = 2 ^ (n - 1) := by norm_cast
  generalize (2 : Int) ^ (n - 1) = p at hcast
  split <;> omega

theorem isLeast_width (x : Int) :
    IsLeast {n | 1 ≤ n ∧ FitsWidth n x} ((foldSign x).size + 1) := by
  constructor
  · refine ⟨Nat.le_add_left 1 _, (fitsWidth_iff _ _).mpr ?_⟩
    rw [Nat.add_sub_cancel]
    exact Nat.lt_size_self _
  · rintro n ⟨hpos, hfits⟩
    have hle := Nat.size_le.mpr ((fitsWidth_iff _ _).mp hfits)
    omega

theorem size_div_pow {k n : Nat} (h : 2 ^ k ≤ n) : n.size = k + (n / 2 ^ k).size := by
  have hk : k < n.size := Nat.lt_size.mpr h
  apply Nat.le_antisymm
  · rw [Nat.size_le, Nat.pow_add, Nat.mul_comm, ← Nat.div_lt_iff_lt_mul (Nat.two_pow_pos k)]
    exact Nat.lt_size_self _
  · have hdiv : n / 2 ^ k < 2 ^ (n.size - k) := by
      rw [Nat.div_lt_iff_lt_mul (Nat.two_pow_pos k), ← Nat.pow_add,
        Nat.sub_add_cancel (Nat.le_of_lt hk)]
      exact Nat.lt_size_self n
    have hle := Nat.size_le.mpr hdiv
    omega

theorem size_half {n : Nat} (h : n ≠ 0) : n.size = (n / 2).size + 1 := by
  by_cases hone : n = 1
  · subst hone
    rfl
  · have htwo : 2 ^ 1 ≤ n := by omega
    rw [size_div_pow htwo, Nat.pow_one, Nat.add_comm]

theorem toNat_and_mask {w k : Nat} {mask : BitVec w} (h : mask.toNat = 2 ^ k - 1) (x : BitVec w) :
    (x &&& mask).toNat = x.toNat % 2 ^ k := by
  rw [BitVec.toNat_and, h, Nat.and_two_pow_sub_one_eq_mod]

theorem toNat_sshiftRight_of_lt {w : Nat} {x : BitVec w} (h : x.toNat < 2 ^ (w - 1)) (k : Nat) :
    (x.sshiftRight k).toNat = x.toNat / 2 ^ k := by
  have hmsb : x.msb = false := by simpa [BitVec.msb_eq_decide] using h
  rw [BitVec.toNat_sshiftRight_of_msb_false hmsb, Nat.shiftRight_eq_div_pow]

end CsappLabs.Foundation
