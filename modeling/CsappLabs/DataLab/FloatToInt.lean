import Mathlib.Data.Rat.Floor
import CsappLabs.DataLab.IntToFloat

/-!
# From a single-precision number to an integer

`float_f2i` of `bits.c` tells the cases apart by the exponent: numbers below one
are cut to zero, numbers out of range give `0x80000000`, and the significand of
the others is shifted.
-/

namespace CsappLabs.DataLab

open CsappLabs.Foundation

def floatF2i (uf : BitVec 32) : BitVec 32 :=
  let exp := (uf >>> 23) &&& 0xFF
  let frac := uf &&& 0x7FFFFF
  let e := exp - 127
  if exp = 0x7F800000 then 0x80000000
  else if exp = 0 then 0
  else if e.slt 0 then 0
  else if (30 : BitVec 32).slt e then 0x80000000
  else
    let frac := frac ||| 0x800000
    let frac :=
      if (23 : BitVec 32).sle e then frac <<< (e - 23).toNat
      else frac.sshiftRight (23 - e).toNat
    if (uf >>> 31) &&& 1 ≠ 0 then ~~~frac + 1 else frac

def truncate (q : ℚ) : Int := if 0 ≤ q then ⌊q⌋ else ⌈q⌉

def InRange (uf : BitVec 32) : Prop :=
  IsFinite uf ∧ -2 ^ 31 ≤ truncate (value uf) ∧ truncate (value uf) ≤ 2 ^ 31 - 1

def FitsBits (b : Nat) (x : Int) : Prop := ∃ m k, m < 2 ^ b ∧ x.natAbs = m * 2 ^ k

variable {uf : BitVec 32}

/-! ## The integral part -/

def integral (uf : BitVec 32) : Nat := magnitude 23 (exponent uf) (fraction uf) / 2 ^ 149

theorem truncate_value (uf : BitVec 32) :
    truncate (value uf) = if uf.msb then -(integral uf : Int) else integral uf := by
  rw [integral, truncate, value]
  generalize magnitude 23 (exponent uf) (fraction uf) = m
  have hcast : ((2 ^ 149 : Nat) : ℚ) = 2 ^ 149 := by push_cast; rfl
  have hfloor : ⌊(m : ℚ) / 2 ^ 149⌋ = (m / 2 ^ 149 : Nat) := by
    rw [← hcast, Rat.floor_natCast_div_natCast, Int.natCast_ediv]
  have hnonneg : (0 : ℚ) ≤ m / 2 ^ 149 := by positivity
  cases uf.msb with
  | true =>
      simp only [if_true]
      rw [neg_one_mul, neg_div]
      by_cases hzero : (m : ℚ) / 2 ^ 149 = 0
      · rw [hzero, Int.floor_zero] at hfloor
        rw [hzero, ← hfloor]
        simp
      · have hneg : ¬(0 : ℚ) ≤ -(m / 2 ^ 149) :=
          fun h => hzero (le_antisymm (neg_nonneg.mp h) hnonneg)
        rw [if_neg hneg, Int.ceil_neg, hfloor]
  | false =>
      simp only [Bool.false_eq_true, if_false]
      rw [one_mul, if_pos hnonneg, hfloor]

theorem integral_eq (uf : BitVec 32) :
    (exponent uf < 127 → integral uf = 0) ∧
    (127 ≤ exponent uf → exponent uf < 150 →
      integral uf = (2 ^ 23 + fraction uf) / 2 ^ (150 - exponent uf)) ∧
    (150 ≤ exponent uf → integral uf = (2 ^ 23 + fraction uf) * 2 ^ (exponent uf - 150)) := by
  have hfrac : fraction uf < 2 ^ 23 := Nat.mod_lt _ (by decide)
  rw [integral]
  generalize exponent uf = e
  generalize fraction uf = f at hfrac
  refine ⟨fun he => ?_, fun hlo hhi => ?_, fun he => ?_⟩
  · rw [magnitude]
    split
    · exact Nat.div_eq_of_lt (Nat.lt_trans hfrac (Nat.pow_lt_pow_right (by decide) (by decide)))
    · have hpow : 2 ^ (e - 1) ≤ 2 ^ 125 := Nat.pow_le_pow_right (by decide) (by omega)
      have hlt : (2 ^ 23 + f) * 2 ^ (e - 1) < 2 ^ 24 * 2 ^ 125 :=
        Nat.mul_lt_mul_of_lt_of_le (by omega) hpow (Nat.two_pow_pos 125)
      rw [← Nat.pow_add] at hlt
      exact Nat.div_eq_of_lt hlt
  · have hscale : 2 ^ 149 = 2 ^ (150 - e) * 2 ^ (e - 1) := by
      rw [← Nat.pow_add, show 150 - e + (e - 1) = 149 by omega]
    rw [magnitude, if_neg (by omega), hscale, Nat.mul_div_mul_right _ _ (Nat.two_pow_pos _)]
  · have hscale : 2 ^ (e - 1) = 2 ^ (e - 150) * 2 ^ 149 := by
      rw [← Nat.pow_add, show e - 150 + 149 = e - 1 by omega]
    rw [magnitude, if_neg (by omega), hscale, ← Nat.mul_assoc,
      Nat.mul_div_cancel _ (Nat.two_pow_pos 149)]

/-! ## The fields -/

theorem toNat_exp (uf : BitVec 32) : ((uf >>> 23) &&& 0xFF).toNat = exponent uf := by
  have hmask : (0xFF : BitVec 32).toNat = 2 ^ 8 - 1 := by decide
  rw [toNat_and_mask hmask, BitVec.toNat_ushiftRight, Nat.shiftRight_eq_div_pow, exponent]

theorem toNat_frac (uf : BitVec 32) :
    (uf &&& 0x7FFFFF ||| 0x800000).toNat = 2 ^ 23 + fraction uf := by
  have hfrac : (uf &&& 0x7FFFFF).toNat = fraction uf := toNat_and_mask (by decide) uf
  have hlt : fraction uf < 2 ^ 23 := Nat.mod_lt _ (by decide)
  have hor := Nat.two_pow_add_eq_or_of_lt hlt 1
  rw [Nat.mul_one] at hor
  rw [BitVec.toNat_or, hfrac, Nat.or_comm, hor]
  rfl

theorem sign_bit (uf : BitVec 32) : (uf >>> 31) &&& 1 ≠ 0 ↔ uf.msb = true := by
  have hmask : (1 : BitVec 32).toNat = 2 ^ 1 - 1 := by decide
  have hand : ((uf >>> 31) &&& 1).toNat = uf.toNat / 2 ^ 31 % 2 := by
    rw [toNat_and_mask hmask, BitVec.toNat_ushiftRight, Nat.shiftRight_eq_div_pow, Nat.pow_one]
  have hlt := uf.isLt
  rw [Ne, ← BitVec.toNat_inj, hand, BitVec.msb_eq_decide, decide_eq_true_iff]
  show ¬_ = 0 ↔ 2 ^ 31 ≤ _
  omega

/-! ## The cases -/

theorem toInt_sub_bias {exp : BitVec 32} (h : exp.toNat < 256) :
    (exp - 127).toInt = exp.toNat - 127 := by
  have hsub : (exp - 127).toNat = (2 ^ 32 - 127 + exp.toNat) % 2 ^ 32 := BitVec.toNat_sub _ _
  rw [BitVec.toInt_eq_toNat_cond, hsub]
  split <;> omega

theorem exponent_lt (uf : BitVec 32) : exponent uf < 256 := Nat.mod_lt _ (by decide)

theorem slt_zero_bias {exp : BitVec 32} (h : exp.toNat < 256) :
    (exp - 127).slt 0 = true ↔ exp.toNat < 127 := by
  rw [BitVec.slt_iff_toInt_lt, toInt_sub_bias h]
  show _ < (0 : Int) ↔ _
  omega

theorem slt_thirty_bias {exp : BitVec 32} (h : exp.toNat < 256) :
    (30 : BitVec 32).slt (exp - 127) = true ↔ 157 < exp.toNat := by
  rw [BitVec.slt_iff_toInt_lt, toInt_sub_bias h]
  show (30 : Int) < _ ↔ _
  omega

theorem sle_bias {exp : BitVec 32} (h : exp.toNat < 256) :
    (23 : BitVec 32).sle (exp - 127) = true ↔ 150 ≤ exp.toNat := by
  rw [BitVec.sle_iff_toInt_le, toInt_sub_bias h]
  show (23 : Int) ≤ _ ↔ _
  omega

theorem shift_significand {exp frac : BitVec 32} (hexp : exp.toNat = exponent uf)
    (hfrac : frac.toNat = 2 ^ 23 + fraction uf) (hlo : 127 ≤ exponent uf)
    (hhi : exponent uf ≤ 157) :
    (if (23 : BitVec 32).sle (exp - 127) then frac <<< (exp - 127 - 23).toNat
      else frac.sshiftRight (23 - (exp - 127)).toNat) = BitVec.ofNat 32 (integral uf) := by
  have hlt : exp.toNat < 256 := hexp ▸ exponent_lt uf
  have hf : fraction uf < 2 ^ 23 := Nat.mod_lt _ (by decide)
  obtain ⟨_, hright, hleft⟩ := integral_eq uf
  apply BitVec.eq_of_toNat_eq
  rw [BitVec.toNat_ofNat]
  by_cases hwide : 150 ≤ exponent uf
  · have hcount : (exp - 127 - 23).toNat = exponent uf - 150 := by
      rw [BitVec.toNat_sub, BitVec.toNat_sub, hexp]
      show (2 ^ 32 - 23 + (2 ^ 32 - 127 + exponent uf) % 2 ^ 32) % 2 ^ 32 = _
      omega
    rw [if_pos ((sle_bias hlt).mpr (hexp ▸ hwide)), hcount, hleft hwide, BitVec.toNat_shiftLeft,
      hfrac, Nat.shiftLeft_eq]
  · have hcount : (23 - (exp - 127)).toNat = 150 - exponent uf := by
      rw [BitVec.toNat_sub, BitVec.toNat_sub, hexp]
      show (2 ^ 32 - (2 ^ 32 - 127 + exponent uf) % 2 ^ 32 + 23) % 2 ^ 32 = _
      omega
    have hsmall : frac.toNat < 2 ^ (32 - 1) := by
      rw [hfrac]
      omega
    have hless := Nat.div_le_self (2 ^ 23 + fraction uf) (2 ^ (150 - exponent uf))
    rw [if_neg (mt (sle_bias hlt).mp (hexp ▸ hwide)), hcount, hright hlo (by omega),
      toNat_sshiftRight_of_lt hsmall, hfrac, Nat.mod_eq_of_lt (by omega)]

/-- The tests of the exponent; the first one never holds. -/
theorem floatF2i_cases (uf : BitVec 32) :
    floatF2i uf =
      if exponent uf < 127 then 0
      else if 157 < exponent uf then 0x80000000
      else if uf.msb then -BitVec.ofNat 32 (integral uf) else BitVec.ofNat 32 (integral uf) := by
  have hexp := toNat_exp uf
  have hfrac := toNat_frac uf
  rw [floatF2i]
  generalize (uf >>> 23) &&& 0xFF = exp at hexp
  have hlt : exp.toNat < 256 := hexp ▸ exponent_lt uf
  have hfield : exp ≠ 0x7F800000 := by
    rintro rfl
    exact absurd hlt (by decide)
  have hneg (y : BitVec 32) : ~~~y + 1 = -y := (BitVec.neg_eq_not_add y).symm
  simp only [if_neg hfield, hneg, if_congr (sign_bit uf) rfl rfl]
  by_cases hzero : exp = 0
  · rw [if_pos hzero, if_pos (by rw [← hexp, hzero]; decide)]
  rw [if_neg hzero]
  by_cases hlow : exponent uf < 127
  · rw [if_pos ((slt_zero_bias hlt).mpr (hexp ▸ hlow)), if_pos hlow]
  rw [if_neg (mt (slt_zero_bias hlt).mp (hexp ▸ hlow)), if_neg hlow]
  by_cases hhigh : 157 < exponent uf
  · rw [if_pos ((slt_thirty_bias hlt).mpr (hexp ▸ hhigh)), if_pos hhigh]
  rw [if_neg (mt (slt_thirty_bias hlt).mp (hexp ▸ hhigh)), if_neg hhigh,
    shift_significand hexp hfrac (by omega) (by omega)]

/-! ## Both sides of the boundaries -/

theorem integral_lt (h : exponent uf ≤ 157) : integral uf < 2 ^ 31 := by
  have hf : fraction uf < 2 ^ 23 := Nat.mod_lt _ (by decide)
  obtain ⟨hsmall, hright, hleft⟩ := integral_eq uf
  by_cases hlow : exponent uf < 127
  · rw [hsmall hlow]
    decide
  · by_cases hwide : 150 ≤ exponent uf
    · have hpow : 2 ^ (exponent uf - 150) ≤ 2 ^ 7 := Nat.pow_le_pow_right (by decide) (by omega)
      have hless : (2 ^ 23 + fraction uf) * 2 ^ (exponent uf - 150) < 2 ^ 24 * 2 ^ 7 :=
        Nat.mul_lt_mul_of_lt_of_le (by omega) hpow (Nat.two_pow_pos 7)
      rwa [hleft hwide]
    · have hless := Nat.div_le_self (2 ^ 23 + fraction uf) (2 ^ (150 - exponent uf))
      rw [hright (by omega) (by omega)]
      omega

theorem le_integral (h : 157 < exponent uf) : 2 ^ 31 ≤ integral uf := by
  obtain ⟨_, _, hleft⟩ := integral_eq uf
  have hpow : 2 ^ 8 ≤ 2 ^ (exponent uf - 150) := Nat.pow_le_pow_right (by decide) (by omega)
  have hprod : 2 ^ 23 * 2 ^ 8 ≤ (2 ^ 23 + fraction uf) * 2 ^ (exponent uf - 150) :=
    Nat.mul_le_mul (Nat.le_add_right _ _) hpow
  rwa [hleft (by omega)]

theorem toInt_integral (h : integral uf < 2 ^ 31) :
    (if uf.msb then -BitVec.ofNat 32 (integral uf) else BitVec.ofNat 32 (integral uf)).toInt =
      truncate (value uf) := by
  have hnat : (BitVec.ofNat 32 (integral uf)).toNat = integral uf := by
    rw [BitVec.toNat_ofNat]
    omega
  rw [truncate_value]
  cases uf.msb with
  | true =>
      rw [if_pos rfl, if_pos rfl, BitVec.toInt_eq_toNat_cond, BitVec.toNat_neg, hnat]
      split <;> omega
  | false =>
      rw [if_neg Bool.false_ne_true, if_neg Bool.false_ne_true, BitVec.toInt_eq_toNat_cond, hnat]
      split <;> omega

theorem inRange_of_exponent (h : exponent uf ≤ 157) : InRange uf := by
  have hlt := integral_lt h
  rw [InRange, IsFinite, truncate_value]
  split <;> omega

theorem truncate_of_inRange (hin : InRange uf) (h : 157 < exponent uf) :
    truncate (value uf) = -2 ^ 31 := by
  have hle := le_integral h
  obtain ⟨_, hlo, hhi⟩ := hin
  rw [truncate_value] at hlo hhi ⊢
  cases hmsb : uf.msb with
  | true =>
      rw [hmsb, if_pos rfl] at hlo
      rw [if_pos rfl]
      omega
  | false =>
      rw [hmsb, if_neg Bool.false_ne_true] at hhi
      omega

theorem toInt_floatF2i (h : InRange uf) : (floatF2i uf).toInt = truncate (value uf) := by
  rw [floatF2i_cases]
  by_cases hlow : exponent uf < 127
  · have hzero := (integral_eq uf).1 hlow
    rw [if_pos hlow, truncate_value, hzero]
    cases uf.msb <;> rfl
  · rw [if_neg hlow]
    by_cases hhigh : 157 < exponent uf
    · rw [if_pos hhigh, truncate_of_inRange h hhigh]
      rfl
    · rw [if_neg hhigh, toInt_integral (integral_lt (Nat.not_lt.mp hhigh))]

theorem floatF2i_of_not_inRange (h : ¬InRange uf) : floatF2i uf = 0x80000000 := by
  have hhigh : 157 < exponent uf := Nat.not_le.mp (mt inRange_of_exponent h)
  rw [floatF2i_cases, if_neg (by omega), if_pos hhigh]

theorem truncate_intCast (n : Int) : truncate n = n := by
  rw [truncate, Int.floor_intCast, Int.ceil_intCast, ite_self]

theorem floatF2i_floatI2f {x : BitVec 32} (h : FitsBits 24 x.toInt) :
    ∃ u, floatI2f x = some u ∧ floatF2i u = x := by
  obtain ⟨u, heq, _, hfinite, _, hvalue⟩ := floatI2f_spec x
  obtain ⟨m, k, hm, habs⟩ := h
  have hround : roundToBits 24 x.toInt.natAbs = x.toInt.natAbs := by
    rw [habs, roundToBits_of_mul hm]
  have hsame : value u = x.toInt := by
    rw [hvalue, hround]
    by_cases hneg : x.toInt < 0
    · rw [if_pos hneg, Nat.cast_natAbs, abs_of_neg hneg, Int.cast_neg, neg_mul_neg, one_mul]
    · rw [if_neg hneg, Nat.cast_natAbs, abs_of_nonneg (not_lt.mp hneg), one_mul]
  have hin : InRange u := by
    rw [InRange, hsame, truncate_intCast]
    exact ⟨hfinite, x.le_toInt, Int.le_sub_one_of_lt x.toInt_lt⟩
  refine ⟨u, heq, BitVec.eq_of_toInt_eq ?_⟩
  rw [toInt_floatF2i hin, hsame, truncate_intCast]

/-- The number is cut toward zero when that is an `int`; an `int` of few bits
comes back from its conversion. -/
theorem floatF2i_truncates (uf x : BitVec 32) :
    (InRange uf → (floatF2i uf).toInt = truncate (value uf)) ∧
    (¬InRange uf → floatF2i uf = 0x80000000) ∧
    (FitsBits 24 x.toInt → ∃ u, floatI2f x = some u ∧ floatF2i u = x) :=
  ⟨toInt_floatF2i, floatF2i_of_not_inRange, floatF2i_floatI2f⟩

theorem floatF2i_truncates_example :
    (floatF2i 0xCF000000).toInt = -2 ^ 31 ∧ floatF2i 0x7F800000 = 0x80000000 ∧
      ∃ u, floatI2f 0x1000002 = some u ∧ floatF2i u = 0x1000002 := by
  have hleast : truncate (value 0xCF000000) = -2 ^ 31 := by
    rw [truncate_value]
    decide
  have hin : InRange 0xCF000000 := by
    rw [InRange, hleast]
    exact ⟨by unfold IsFinite; decide, by decide, by decide⟩
  have hout : ¬InRange 0x7F800000 := fun h => h.1 (by decide)
  have hbits : FitsBits 24 (0x1000002 : BitVec 32).toInt := ⟨0x800001, 1, by decide, by decide⟩
  exact ⟨((floatF2i_truncates 0xCF000000 0).1 hin).trans hleast,
    (floatF2i_truncates 0x7F800000 0).2.1 hout, (floatF2i_truncates 0 0x1000002).2.2 hbits⟩

end CsappLabs.DataLab
