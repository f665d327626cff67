import Mathlib.Data.Nat.Bitwise
import CsappLabs.DataLab.Single
import CsappLabs.Foundation.TwosComplement

/-!
# From an integer to a single-precision number

`float_i2f` of `bits.c` shifts the leading one of the absolute value out of the
word, cuts nine bits off and adds the carry of the rounding to the packed word,
where it may run from the fraction into the exponent.
-/

namespace CsappLabs.DataLab

open CsappLabs.Foundation

/-- The loop of `float_i2f`; `none` when `fuel` turns are not enough. -/
def shiftLoop : Nat → BitVec 32 → BitVec 32 → Option (BitVec 32 × BitVec 32)
  | 0, _, _ => none
  | fuel + 1, afterShift, shiftLeft =>
      let tmp := afterShift
      let afterShift := afterShift <<< 1
      let shiftLeft := shiftLeft + 1
      if tmp &&& 0x80000000 ≠ 0 then some (afterShift, shiftLeft)
      else shiftLoop fuel afterShift shiftLeft

def floatI2f (x : BitVec 32) : Option (BitVec 32) :=
  if x = 0 then some 0
  else do
    let sign : BitVec 32 := if x.slt 0 then 0x80000000 else 0
    let absX := if x.slt 0 then -x else x
    let (afterShift, shiftLeft) ← shiftLoop 32 absX 0
    let flag : BitVec 32 :=
      if 0x0100 < afterShift &&& 0x01ff then 1
      else if afterShift &&& 0x03ff = 0x0300 then 1
      else 0
    some (sign + (afterShift >>> 9) + ((159 - shiftLeft) <<< 23) + flag)

variable {x a s : BitVec 32} {fuel : Nat}

/-! ## The loop -/

theorem and_msb (a : BitVec 32) : a &&& 0x80000000 ≠ 0 ↔ 2 ^ 31 ≤ a.toNat := by
  have hlt := a.isLt
  have hand : (a &&& 0x80000000).toNat = (a.toNat.testBit 31).toNat * 2 ^ 31 := by
    rw [BitVec.toNat_and]
    exact Nat.and_two_pow a.toNat 31
  have hbit : a.toNat.testBit 31 = decide (2 ^ 31 ≤ a.toNat) := by
    rw [Nat.testBit_eq_decide_div_mod_eq]
    exact decide_eq_decide.mpr (by omega)
  rw [Ne, ← BitVec.toNat_inj, hand, hbit]
  simp

theorem shiftLoop_eq (hpos : a.toNat ≠ 0) (hfuel : 33 ≤ fuel + a.toNat.size) :
    ∃ b, shiftLoop fuel a s = some (b, s + BitVec.ofNat 32 (33 - a.toNat.size)) ∧
      b.toNat + 2 ^ 32 = 2 * (a.toNat * 2 ^ (32 - a.toNat.size)) := by
  induction fuel generalizing a s with
  | zero =>
      have hsize : a.toNat.size ≤ 32 := Nat.size_le.mpr a.isLt
      omega
  | succ fuel ih =>
      have hlt := a.isLt
      have hdouble : (a <<< 1).toNat = 2 * a.toNat % 2 ^ 32 := by
        rw [BitVec.toNat_shiftLeft, Nat.shiftLeft_eq, Nat.mul_comm]
      rw [shiftLoop]
      by_cases hmsb : 2 ^ 31 ≤ a.toNat
      · have hsize : a.toNat.size = 32 := by
          apply Nat.le_antisymm (Nat.size_le.mpr hlt)
          exact Nat.lt_size.mpr hmsb
        rw [if_pos ((and_msb a).mpr hmsb), hsize]
        refine ⟨a <<< 1, rfl, ?_⟩
        rw [hdouble]
        omega
      · have hless : a.toNat.size ≤ 31 := Nat.size_le.mpr (Nat.not_le.mp hmsb)
        have hmod : (a <<< 1).toNat = 2 * a.toNat := by
          rw [hdouble]
          omega
        have hsize : (a <<< 1).toNat.size = a.toNat.size + 1 := by
          rw [hmod, size_half (by omega), Nat.mul_div_cancel_left _ (by decide)]
        obtain ⟨b, hloop, hb⟩ := ih (a := a <<< 1) (s := s + 1) (by omega) (by omega)
        rw [if_neg (mt (and_msb a).mp hmsb), hloop, hsize]
        refine ⟨b, ?_, ?_⟩
        · have hcount : 33 - a.toNat.size = 1 + (33 - (a.toNat.size + 1)) := by omega
          rw [hcount, BitVec.ofNat_add, ← BitVec.add_assoc]
          rfl
        · have hpow : 32 - a.toNat.size = 32 - (a.toNat.size + 1) + 1 := by omega
          rw [hb, hsize, hmod, hpow, Nat.pow_succ]
          ring

/-! ## Packing -/

theorem toNat_ite (P Q : Prop) [Decidable P] [Decidable Q] :
    (if P then 1 else if Q then 1 else 0 : BitVec 32).toNat = (decide (P ∨ Q)).toNat := by
  by_cases hP : P
  · simp [hP]
  · by_cases hQ : Q
    · simp [hP, hQ]
    · simp [hP, hQ]

/-- The flag is the carry of the rounding, and the sum has the code of the
rounded number. -/
theorem pack_eq {b : BitVec 32} {n : Nat} (hb : b.toNat + 2 ^ 32 = 2 * n) :
    (if 0x0100 < b &&& 0x01ff then 1
      else if b &&& 0x03ff = 0x0300 then 1 else 0 : BitVec 32).toNat = (carries n 8).toNat ∧
      (b >>> 9).toNat + 2 ^ 23 = n / 2 ^ 8 := by
  have hlt := b.isLt
  have h9 : (b &&& 0x01ff).toNat = b.toNat % 2 ^ 9 := toNat_and_mask (by decide) b
  have h10 : (b &&& 0x03ff).toNat = b.toNat % 2 ^ 10 := toNat_and_mask (by decide) b
  constructor
  · have hover : (0x0100 < b &&& 0x01ff) ↔ 2 ^ 8 < 2 * (n % 2 ^ 8) := by
      rw [BitVec.lt_def, h9]
      show 2 ^ 8 < b.toNat % 2 ^ 9 ↔ _
      omega
    have htie : b &&& 0x03ff = 0x0300 ↔ 2 * (n % 2 ^ 8) = 2 ^ 8 ∧ n / 2 ^ 8 % 2 = 1 := by
      rw [← BitVec.toNat_inj, h10]
      show b.toNat % 2 ^ 10 = 768 ↔ _
      omega
    rw [carries, if_congr hover rfl (if_congr htie rfl rfl), toNat_ite]
  · rw [BitVec.toNat_ushiftRight, Nat.shiftRight_eq_div_pow]
    omega

theorem toNat_abs (x : BitVec 32) :
    (if x.slt 0 then -x else x).toNat = x.toInt.natAbs := by
  have hlt := x.isLt
  have hslt : x.slt 0 = x.msb := BitVec.slt_zero_eq_msb
  have hmsb : x.msb = decide (2 ^ 31 ≤ x.toNat) := x.msb_eq_decide
  rw [hslt, BitVec.toInt_eq_msb_cond, hmsb]
  by_cases hneg : 2 ^ 31 ≤ x.toNat
  · rw [decide_eq_true hneg, if_pos rfl, if_pos rfl, BitVec.toNat_neg]
    omega
  · rw [decide_eq_false hneg, if_neg Bool.false_ne_true, if_neg Bool.false_ne_true,
      Int.natAbs_natCast]

theorem slt_zero_iff (x : BitVec 32) : x.slt 0 = true ↔ x.toInt < 0 := BitVec.slt_iff_toInt_lt

theorem toNat_exponent {k : Nat} (hk : k ≤ 33) :
    ((159 - (0 + BitVec.ofNat 32 k)) <<< 23 : BitVec 32).toNat = (159 - k) * 2 ^ 23 := by
  have hsub : (159 - (0 + BitVec.ofNat 32 k) : BitVec 32) = BitVec.ofNat 32 (159 - k) := by
    apply BitVec.eq_of_toNat_eq
    simp
    omega
  rw [hsub, BitVec.toNat_shiftLeft, Nat.shiftLeft_eq, BitVec.toNat_ofNat]
  omega

theorem floatI2f_code (x : BitVec 32) :
    ∃ u c, floatI2f x = some u ∧ u.toNat = (if x.toInt < 0 then 2 ^ 31 else 0) + c ∧
      c < 255 * 2 ^ 23 ∧ NearestCode 23 (x.toInt.natAbs * 2 ^ 149) c ∧
      codeMagnitude 23 c = roundToBits 24 x.toInt.natAbs * 2 ^ 149 := by
  by_cases hzero : x = 0
  · subst hzero
    refine ⟨0, 0, rfl, rfl, by decide, fun c' => ?_, rfl⟩
    have hnone : distance 23 ((0 : BitVec 32).toInt.natAbs * 2 ^ 149) 0 = 0 := distance_zero 23 0
    rw [hnone]
    exact ⟨Nat.zero_le _, fun _ => .inr rfl⟩
  · have habs := toNat_abs x
    have hpos : x.toInt.natAbs ≠ 0 := by
      rw [Ne, Int.natAbs_eq_zero]
      exact fun h0 => hzero (BitVec.eq_of_toInt_eq h0)
    generalize hn : x.toInt.natAbs = n at *
    have hsize : n.size ≤ 32 := Nat.size_le.mpr (habs ▸ BitVec.isLt _)
    have hsize' : 0 < n.size := Nat.size_pos.mpr (Nat.pos_of_ne_zero hpos)
    obtain ⟨b, hloop, hb⟩ := @shiftLoop_eq (if x.slt 0 then -x else x) 0 32
      (by rwa [habs]) (by rw [habs]; omega)
    rw [habs] at hloop hb
    have hlt := b.isLt
    obtain ⟨hflag, hfrac⟩ := pack_eq hb
    have hexp := toNat_exponent (show 33 - n.size ≤ 33 by omega)
    have hround := roundToBits_shift (show n.size + (32 - n.size) = 24 + 8 by omega)
    obtain ⟨hnear, hmag⟩ := nearestCode_of_bits (p := 23) (k := 8) (n := n * 2 ^ (32 - n.size))
      (by decide) (by omega) (by omega) (117 + n.size)
    have hexps : 32 - n.size + (117 + n.size) = 149 := by omega
    have hscale : 2 ^ (32 - n.size) * 2 ^ (117 + n.size) = 2 ^ 149 := by
      rw [← Nat.pow_add, hexps]
    rw [Nat.mul_assoc, hscale] at hnear
    rw [Nat.pow_add, ← Nat.mul_assoc, hround, Nat.mul_assoc, hscale] at hmag
    rw [floatI2f, if_neg hzero]
    refine ⟨_, _, Option.bind_eq_some_iff.mpr ⟨_, hloop, rfl⟩, ?_, ?_, hnear, hmag⟩
    · have hsum : ((if x.slt 0 then 0x80000000 else 0 : BitVec 32)).toNat =
          if x.toInt < 0 then 2 ^ 31 else 0 := by
        rw [apply_ite BitVec.toNat, if_congr (slt_zero_iff x) rfl rfl]
        rfl
      rw [BitVec.toNat_add, BitVec.toNat_add, BitVec.toNat_add, hsum, hexp, hflag, roundEven]
      have hup := Bool.toNat_le (carries (n * 2 ^ (32 - n.size)) 8)
      split
      · omega
      · omega
    · have hup := Bool.toNat_le (carries (n * 2 ^ (32 - n.size)) 8)
      rw [roundEven]
      omega

theorem floatI2f_spec (x : BitVec 32) :
    ∃ u, floatI2f x = some u ∧ u.msb = decide (x.toInt < 0) ∧ IsFinite u ∧
      NearestCode 23 (x.toInt.natAbs * 2 ^ 149) (code u) ∧
      value u = (if x.toInt < 0 then -1 else 1) * roundToBits 24 x.toInt.natAbs := by
  obtain ⟨u, c, heq, hu, hc, hnear, hmag⟩ := floatI2f_code x
  have hcode : code u = c := by
    rw [code, hu]
    split <;> omega
  have hmsb : u.msb = decide (x.toInt < 0) := by
    rw [BitVec.msb_eq_decide, hu]
    split <;> simp <;> omega
  have hfinite : IsFinite u := by
    rw [IsFinite, exponent, hu]
    split <;> omega
  rw [← hcode] at hnear hmag
  refine ⟨u, heq, hmsb, hfinite, hnear, ?_⟩
  rw [value_eq, hmag, hmsb, if_congr decide_eq_true_iff rfl rfl, Nat.cast_mul, ← mul_assoc,
    Nat.cast_pow, Nat.cast_ofNat]
  have hpos : (0 : ℚ) < 2 ^ 149 := by positivity
  exact mul_div_cancel_right₀ _ hpos.ne'

/-- The result is the nearest number, with the sign of the integer and the
absolute value rounded to 24 bits. -/
theorem floatI2f_nearest (x : BitVec 32) :
    ∃ u, floatI2f x = some u ∧ IsNearest x.toInt u ∧ u.msb = decide (x.toInt < 0) ∧
      value u = (if x.toInt < 0 then -1 else 1) * roundToBits 24 x.toInt.natAbs := by
  obtain ⟨u, heq, hmsb, hfinite, hnear, hvalue⟩ := floatI2f_spec x
  exact ⟨u, heq, isNearest_of_code hfinite hmsb hnear, hmsb, hvalue⟩

end CsappLabs.DataLab
