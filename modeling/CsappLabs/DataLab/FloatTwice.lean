import CsappLabs.DataLab.FloatToInt

/-!
# Doubling a single-precision number

`float_twice` of `bits.c` shifts the fraction of a subnormal number, which may
carry into the exponent, and counts the exponent of a normal one up.  Doubling
is exact, so that nothing is rounded until the result is infinite.
-/

namespace CsappLabs.DataLab

open CsappLabs.Foundation

def floatTwice (uf : BitVec 32) : BitVec 32 :=
  let tmp := uf
  if tmp &&& 0x7F800000#32 = 0#32 then (tmp &&& 0x80000000#32) ||| ((tmp &&& 0x007FFFFF#32) <<< 1)
  else if tmp &&& 0x7F800000#32 ≠ 0x7F800000#32 then
    let tmp := tmp + 1#32 <<< 23
    if tmp &&& 0x7F800000#32 = 0x7F800000#32 then (tmp >>> 23) <<< 23 else tmp
  else tmp

instance (uf : BitVec 32) : Decidable (IsFinite uf) := inferInstanceAs (Decidable (_ ≠ _))

variable {uf r : BitVec 32}

/-! ## The word -/

/-- The bits of a word at the ones of a mask that has `j` of them in a row. -/
theorem toNat_and_field {w j k : Nat} {mask : BitVec w} (h : mask.toNat = (2 ^ j - 1) * 2 ^ k)
    (x : BitVec w) : (x &&& mask).toNat = x.toNat / 2 ^ k % 2 ^ j * 2 ^ k := by
  rw [BitVec.toNat_and, h]
  apply Nat.eq_of_testBit_eq
  intro i
  rw [Nat.testBit_and, Nat.testBit_mul_two_pow, Nat.testBit_mul_two_pow,
    Nat.testBit_two_pow_sub_one, Nat.testBit_mod_two_pow, Nat.testBit_div_two_pow]
  by_cases hk : k ≤ i
  · rw [Nat.sub_add_cancel hk]
    simp [hk, Bool.and_comm]
  · simp [hk]

def sign (uf : BitVec 32) : Nat := uf.toNat / 2 ^ 31

theorem toNat_fields (uf : BitVec 32) :
    uf.toNat = 2 ^ 31 * sign uf + 2 ^ 23 * exponent uf + fraction uf := by
  rw [sign, exponent, fraction]
  omega

theorem fields_of_toNat {s e f : Nat} (h : uf.toNat = 2 ^ 31 * s + 2 ^ 23 * e + f)
    (he : e < 2 ^ 8) (hf : f < 2 ^ 23) : sign uf = s ∧ exponent uf = e ∧ fraction uf = f := by
  rw [sign, exponent, fraction]
  omega

theorem fraction_lt (uf : BitVec 32) : fraction uf < 2 ^ 23 := Nat.mod_lt _ (by decide)

theorem sign_lt (uf : BitVec 32) : sign uf < 2 := by
  have hlt := uf.isLt
  rw [sign]
  omega

theorem msb_sign (uf : BitVec 32) : uf.msb = decide (sign uf = 1) := by
  have hlt := uf.isLt
  rw [BitVec.msb_eq_decide, sign]
  exact decide_eq_decide.mpr (by omega)

theorem and_exponent (uf : BitVec 32) : (uf &&& 0x7F800000#32).toNat = exponent uf * 2 ^ 23 :=
  toNat_and_field (j := 8) (by decide) uf

theorem exponent_zero_iff (uf : BitVec 32) : uf &&& 0x7F800000#32 = 0#32 ↔ exponent uf = 0 := by
  rw [← BitVec.toNat_inj, and_exponent]
  show _ = 0 ↔ _
  omega

theorem exponent_ones_iff (uf : BitVec 32) :
    uf &&& 0x7F800000#32 = 0x7F800000#32 ↔ exponent uf = 255 := by
  rw [← BitVec.toNat_inj, and_exponent]
  show _ = 255 * 2 ^ 23 ↔ _
  omega

theorem toNat_floatTwice (uf : BitVec 32) :
    (floatTwice uf).toNat =
      if exponent uf = 0 then 2 ^ 31 * sign uf + 2 * fraction uf
      else if exponent uf = 255 then uf.toNat
      else if exponent uf = 254 then 2 ^ 31 * sign uf + 2 ^ 23 * 255
      else uf.toNat + 2 ^ 23 := by
  have hfields := toNat_fields uf
  have hs := sign_lt uf
  have hf := fraction_lt uf
  have he := exponent_lt uf
  unfold floatTwice
  simp only [exponent_zero_iff]
  by_cases hzero : exponent uf = 0
  · rw [if_pos hzero, if_pos hzero]
    have hsign : (uf &&& 0x80000000#32).toNat = 2 ^ 31 * sign uf := by
      rw [toNat_and_field (j := 1) (k := 31) (by decide) uf, sign]
      omega
    have hfrac : ((uf &&& 0x007FFFFF#32) <<< 1).toNat = 2 * fraction uf := by
      have hmask : (uf &&& 0x007FFFFF#32).toNat = fraction uf := toNat_and_mask (by decide) uf
      rw [BitVec.toNat_shiftLeft, hmask, Nat.shiftLeft_eq]
      omega
    rw [BitVec.toNat_or, hsign, hfrac, ← Nat.two_pow_add_eq_or_of_lt (by omega)]
  · rw [if_neg hzero, if_neg hzero]
    by_cases hones : exponent uf = 255
    · rw [if_neg (not_not.mpr ((exponent_ones_iff uf).mpr hones)), if_pos hones]
    · have hstep : (uf + 1#32 <<< 23).toNat = uf.toNat + 2 ^ 23 := by
        have hone : (1#32 <<< 23).toNat = 2 ^ 23 := by decide
        rw [BitVec.toNat_add, hone]
        omega
      have hnext : (uf + 1#32 <<< 23).toNat =
          2 ^ 31 * sign uf + 2 ^ 23 * (exponent uf + 1) + fraction uf := by
        rw [hstep]
        omega
      obtain ⟨-, hexp, -⟩ := fields_of_toNat hnext (by omega) hf
      rw [if_pos (fun h => hones ((exponent_ones_iff uf).mp h)), if_neg hones]
      simp only [exponent_ones_iff, hexp]
      by_cases hlast : exponent uf = 254
      · rw [if_pos (by omega), if_pos hlast, BitVec.toNat_shiftLeft, BitVec.toNat_ushiftRight,
          hstep, Nat.shiftLeft_eq, Nat.shiftRight_eq_div_pow]
        omega
      · rw [if_neg (by omega), if_neg hlast, hstep]

/-! ## The value -/

theorem value_double (hs : sign r = sign uf)
    (hm : magnitude 23 (exponent r) (fraction r) =
      2 * magnitude 23 (exponent uf) (fraction uf)) : value r = 2 * value uf := by
  rw [value, value, hm, msb_sign, msb_sign, hs]
  push_cast
  ring

theorem abs_value (uf : BitVec 32) :
    |value uf| = magnitude 23 (exponent uf) (fraction uf) / 2 ^ 149 := by
  have hmag : (0 : ℚ) ≤ magnitude 23 (exponent uf) (fraction uf) / 2 ^ 149 := by positivity
  rw [value, mul_div_assoc, abs_mul, abs_of_nonneg hmag]
  cases uf.msb <;> simp

theorem magnitude_lt (h : exponent uf < 254) :
    magnitude 23 (exponent uf) (fraction uf) < 2 ^ 24 * 2 ^ 252 := by
  have hf := fraction_lt uf
  rw [magnitude]
  split
  · omega
  · have hpow : (2 : Nat) ^ (exponent uf - 1) ≤ 2 ^ 252 :=
      Nat.pow_le_pow_right (by decide) (by omega)
    calc (2 ^ 23 + fraction uf) * 2 ^ (exponent uf - 1)
        ≤ (2 ^ 23 + fraction uf) * 2 ^ 252 := Nat.mul_le_mul_left _ hpow
      _ < 2 ^ 24 * 2 ^ 252 := Nat.mul_lt_mul_of_pos_right (by omega) (by positivity)

theorem le_magnitude (h : exponent uf = 254) :
    2 ^ 24 * 2 ^ 252 ≤ magnitude 23 (exponent uf) (fraction uf) := by
  rw [magnitude, if_neg (by omega), h]
  calc 2 ^ 24 * 2 ^ 252 = 2 ^ 23 * 2 ^ (254 - 1) := by norm_num
    _ ≤ (2 ^ 23 + fraction uf) * 2 ^ (254 - 1) := Nat.mul_le_mul_right _ (Nat.le_add_right _ _)

theorem abs_double_lt_iff (h : IsFinite uf) : |2 * value uf| < 2 ^ 128 ↔ exponent uf ≠ 254 := by
  have hexp : exponent uf < 255 := by
    have hlt := exponent_lt uf
    rw [IsFinite] at h
    omega
  have hscale : |2 * value uf| < 2 ^ 128 ↔
      magnitude 23 (exponent uf) (fraction uf) < 2 ^ 24 * 2 ^ 252 := by
    rw [abs_mul, abs_two, abs_value, ← mul_div_assoc, div_lt_iff₀ (by positivity)]
    have hpow : (2 : ℚ) ^ 128 * 2 ^ 149 = 2 * (2 ^ 24 * 2 ^ 252 : Nat) := by
      push_cast
      norm_num
    rw [hpow, mul_lt_mul_iff_right₀ (by norm_num), Nat.cast_lt]
  rw [hscale]
  constructor
  · intro hlt heq
    exact absurd (le_magnitude heq) (by omega)
  · exact fun hne => magnitude_lt (by omega)

theorem floatTwice_fields (uf : BitVec 32) :
    sign (floatTwice uf) = sign uf ∧
      (exponent uf ≠ 255 → exponent uf ≠ 254 → exponent (floatTwice uf) ≠ 255 ∧
        magnitude 23 (exponent (floatTwice uf)) (fraction (floatTwice uf)) =
          2 * magnitude 23 (exponent uf) (fraction uf)) ∧
      (exponent uf = 254 → exponent (floatTwice uf) = 255 ∧ fraction (floatTwice uf) = 0) := by
  have hword := toNat_floatTwice uf
  have hfields := toNat_fields uf
  have hs := sign_lt uf
  have hf := fraction_lt uf
  have he := exponent_lt uf
  by_cases hzero : exponent uf = 0
  · rw [if_pos hzero] at hword
    by_cases hcarry : 2 * fraction uf < 2 ^ 23
    · -- the fraction does not reach the exponent
      obtain ⟨h₁, h₂, h₃⟩ := fields_of_toNat (e := 0) hword (by decide) hcarry
      refine ⟨h₁, fun _ _ => ⟨by omega, ?_⟩, by omega⟩
      rw [h₂, h₃, hzero, magnitude, magnitude, if_pos rfl, if_pos rfl]
    · have hnormal : (floatTwice uf).toNat =
          2 ^ 31 * sign uf + 2 ^ 23 * 1 + (2 * fraction uf - 2 ^ 23) := by omega
      obtain ⟨h₁, h₂, h₃⟩ := fields_of_toNat hnormal (by decide) (by omega)
      refine ⟨h₁, fun _ _ => ⟨by omega, ?_⟩, by omega⟩
      rw [h₂, h₃, hzero, magnitude, magnitude, if_neg (by decide), if_pos rfl]
      omega
  · rw [if_neg hzero] at hword
    by_cases hones : exponent uf = 255
    · rw [if_pos hones, BitVec.toNat_inj] at hword
      rw [hword]
      exact ⟨rfl, fun hne => absurd hones hne, fun hlast => by omega⟩
    · rw [if_neg hones] at hword
      by_cases hlast : exponent uf = 254
      · rw [if_pos hlast] at hword
        have hinf : (floatTwice uf).toNat = 2 ^ 31 * sign uf + 2 ^ 23 * 255 + 0 := hword
        obtain ⟨h₁, h₂, h₃⟩ := fields_of_toNat hinf (by decide) (by decide)
        exact ⟨h₁, fun _ hne => absurd hlast hne, fun _ => ⟨h₂, h₃⟩⟩
      · rw [if_neg hlast] at hword
        have hnext : (floatTwice uf).toNat =
            2 ^ 31 * sign uf + 2 ^ 23 * (exponent uf + 1) + fraction uf := by omega
        obtain ⟨h₁, h₂, h₃⟩ := fields_of_toNat hnext (by omega) hf
        refine ⟨h₁, fun _ _ => ⟨by omega, ?_⟩, fun heq => absurd heq hlast⟩
        obtain ⟨k, hk⟩ := Nat.exists_eq_succ_of_ne_zero hzero
        rw [h₂, h₃, magnitude, magnitude, if_neg (Nat.succ_ne_zero _), if_neg hzero, hk,
          Nat.add_sub_cancel, Nat.succ_eq_add_one, Nat.add_sub_cancel]
        ring

/-- The result is twice the number, also where the number or the result is
subnormal, or the infinity of its sign where that is out of range.  An infinity
or NaN is returned as it is. -/
theorem floatTwice_doubles (uf : BitVec 32) :
    (floatTwice uf).msb = uf.msb ∧
      if IsFinite uf then
        if |2 * value uf| < 2 ^ 128 then
          IsFinite (floatTwice uf) ∧ value (floatTwice uf) = 2 * value uf
        else exponent (floatTwice uf) = 255 ∧ fraction (floatTwice uf) = 0
      else floatTwice uf = uf := by
  obtain ⟨hsign, hdouble, hinf⟩ := floatTwice_fields uf
  refine ⟨by rw [msb_sign, msb_sign, hsign], ?_⟩
  by_cases hfin : IsFinite uf
  · rw [if_pos hfin]
    by_cases hlt : |2 * value uf| < 2 ^ 128
    · obtain ⟨hne, hm⟩ := hdouble hfin ((abs_double_lt_iff hfin).mp hlt)
      rw [if_pos hlt]
      exact ⟨hne, value_double hsign hm⟩
    · rw [if_neg hlt]
      exact hinf (by_contra fun hne => hlt ((abs_double_lt_iff hfin).mpr hne))
  · have hones : exponent uf = 255 := not_not.mp hfin
    have hword := toNat_floatTwice uf
    rw [if_neg (by omega), if_pos hones, BitVec.toNat_inj] at hword
    rw [if_neg hfin]
    exact hword

end CsappLabs.DataLab
