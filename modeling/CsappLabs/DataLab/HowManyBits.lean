import CsappLabs.Foundation.TwosComplement

/-!
# The number of bits of an integer

`howManyBits` of `bits.c` folds the sign away and then searches for the highest
bit in five steps, each of which halves the bits that are left.  The function of
`tests.c` that it is checked against counts the bits in a loop.
-/

namespace CsappLabs.DataLab

open CsappLabs.Foundation

def lnot (x : BitVec 32) : BitVec 32 := if x = 0#32 then 1#32 else 0#32

def howManyBits (x : BitVec 32) : BitVec 32 :=
  let sign := x.sshiftRight 31
  let x := (sign &&& ~~~x) ||| (~~~sign &&& x)
  let bit16 := lnot (lnot (x.sshiftRight 16)) <<< 4
  let x := x.sshiftRight bit16.toNat
  let bit8 := lnot (lnot (x.sshiftRight 8)) <<< 3
  let x := x.sshiftRight bit8.toNat
  let bit4 := lnot (lnot (x.sshiftRight 4)) <<< 2
  let x := x.sshiftRight bit4.toNat
  let bit2 := lnot (lnot (x.sshiftRight 2)) <<< 1
  let x := x.sshiftRight bit2.toNat
  let bit1 := lnot (lnot (x.sshiftRight 1))
  let x := x.sshiftRight bit1.toNat
  let bit0 := x
  bit16 + bit8 + bit4 + bit2 + bit1 + bit0 + 1

/-- The loop of `test_howManyBits`; `none` when `fuel` turns are not enough. -/
def countLoop : Nat → BitVec 32 → BitVec 32 → Option (BitVec 32)
  | 0, _, _ => none
  | fuel + 1, a, cnt => if a = 0 then some cnt else countLoop fuel (a >>> 1) (cnt + 1)

def testHowManyBits (x : BitVec 32) : Option (BitVec 32) := do
  let x := if x.slt 0 then -x - 1 else x
  let cnt ← countLoop 33 x 0
  some (cnt + 1)

variable {x : BitVec 32} {k j fuel : Nat}

/-! ## The sign -/

theorem sshiftRight_sign (x : BitVec 32) :
    x.sshiftRight 31 = if x.msb then BitVec.allOnes 32 else 0#32 := by
  have hmsb : x.msb = x[31] := x.msb_eq_getLsbD_last
  ext i hi
  rw [BitVec.getElem_sshiftRight, apply_ite fun y : BitVec 32 => y[i]]
  by_cases h0 : 31 + i < 32
  · obtain rfl : i = 0 := by omega
    simp only [h0, dif_pos, Nat.add_zero, ← hmsb, BitVec.getElem_allOnes, BitVec.getElem_zero]
    cases x.msb <;> rfl
  · simp only [h0, dif_neg, not_false_eq_true, BitVec.getElem_allOnes]
    cases x.msb
    · exact (BitVec.getElem_zero hi).symm
    · rfl

theorem foldSign_toInt (x : BitVec 32) :
    foldSign x.toInt = if x.msb then 2 ^ 32 - 1 - x.toNat else x.toNat := by
  have hlt := x.isLt
  have hmsb : x.msb = decide (2 ^ 31 ≤ x.toNat) := x.msb_eq_decide
  rw [foldSign, BitVec.toInt_eq_msb_cond, hmsb]
  by_cases hneg : 2 ^ 31 ≤ x.toNat
  · simp only [hneg, decide_true, if_true]
    split <;> omega
  · simp only [hneg, decide_false, Bool.false_eq_true, if_false]
    split <;> omega

theorem foldSign_lt (x : BitVec 32) : foldSign x.toInt < 2 ^ 31 := by
  have hlt := x.isLt
  have hmsb : x.msb = decide (2 ^ 31 ≤ x.toNat) := x.msb_eq_decide
  rw [foldSign_toInt, hmsb]
  by_cases hneg : 2 ^ 31 ≤ x.toNat
  · simp only [hneg, decide_true, if_true]
    omega
  · simp only [hneg, decide_false, Bool.false_eq_true, if_false]
    omega

theorem toNat_folded (x : BitVec 32) :
    ((x.sshiftRight 31 &&& ~~~x) ||| (~~~x.sshiftRight 31 &&& x)).toNat = foldSign x.toInt := by
  rw [sshiftRight_sign, foldSign_toInt]
  cases x.msb with
  | true =>
      simp only [if_true]
      rw [BitVec.allOnes_and, BitVec.not_allOnes, BitVec.zero_and, BitVec.or_zero, BitVec.toNat_not]
  | false =>
      simp only [Bool.false_eq_true, if_false]
      rw [BitVec.zero_and, BitVec.zero_or, BitVec.not_zero, BitVec.allOnes_and]

/-! ## The search -/

theorem lnot_lnot (x : BitVec 32) : lnot (lnot x) = if x = 0#32 then 0#32 else 1#32 := by
  by_cases hx : x = 0#32
  · simp [lnot, hx]
  · simp [lnot, hx]

/-- One step of the search halves the bits that are left. -/
theorem search_step (hk : 2 ^ j = k) (hj : j < 32) (hx : x.toNat < 2 ^ (2 * k))
    (hpos : x.toNat < 2 ^ 31) :
    let bit := lnot (lnot (x.sshiftRight k)) <<< j
    x.toNat.size = bit.toNat + (x.sshiftRight bit.toNat).toNat.size ∧
      (x.sshiftRight bit.toNat).toNat < 2 ^ k := by
  dsimp only
  have hshift : (x.sshiftRight k).toNat = x.toNat / 2 ^ k := toNat_sshiftRight_of_lt hpos k
  by_cases hzero : x.sshiftRight k = 0#32
  · have hlt : x.toNat < 2 ^ k := by
      rw [hzero] at hshift
      exact Nat.lt_of_div_eq_zero (Nat.two_pow_pos k) hshift.symm
    rw [lnot_lnot, if_pos hzero]
    simpa using hlt
  · have hbit : (lnot (lnot (x.sshiftRight k)) <<< j).toNat = k := by
      rw [lnot_lnot, if_neg hzero, BitVec.toNat_shiftLeft, Nat.shiftLeft_eq, ← hk]
      have hlt : 2 ^ j < 2 ^ 32 := Nat.pow_lt_pow_right (by decide) hj
      exact (congrArg (· % 2 ^ 32) (Nat.one_mul _)).trans (Nat.mod_eq_of_lt hlt)
    have hle : 2 ^ k ≤ x.toNat := by
      apply Nat.not_lt.mp
      intro hlt
      rw [Nat.div_eq_of_lt hlt] at hshift
      exact hzero (BitVec.eq_of_toNat_eq hshift)
    rw [hbit, hshift]
    refine ⟨size_div_pow hle, ?_⟩
    rw [Nat.div_lt_iff_lt_mul (Nat.two_pow_pos k), ← Nat.pow_add, ← Nat.two_mul]
    exact hx

theorem size_of_lt_two {n : Nat} (h : n < 2 ^ 1) : n.size = n := by
  match n with
  | 0 => rfl
  | 1 => rfl

theorem howManyBits_eq (x : BitVec 32) :
    (howManyBits x).toNat = (foldSign x.toInt).size + 1 := by
  have hlt := foldSign_lt x
  rw [← toNat_folded] at hlt ⊢
  unfold howManyBits
  extract_lets sign y₀ bit16 y₁ bit8 y₂ bit4 y₃ bit2 y₄ bit1 y₅ bit0
  have hy₀ : y₀.toNat < 2 ^ (2 * 16) := Nat.lt_trans hlt (by decide)
  obtain ⟨h₁, hy₁⟩ := search_step (show 2 ^ 4 = 16 from rfl) (by decide) hy₀ hlt
  obtain ⟨h₂, hy₂⟩ := search_step (show 2 ^ 3 = 8 from rfl) (by decide) hy₁
    (Nat.lt_trans hy₁ (by decide))
  obtain ⟨h₃, hy₃⟩ := search_step (show 2 ^ 2 = 4 from rfl) (by decide) hy₂
    (Nat.lt_trans hy₂ (by decide))
  obtain ⟨h₄, hy₄⟩ := search_step (show 2 ^ 1 = 2 from rfl) (by decide) hy₃
    (Nat.lt_trans hy₃ (by decide))
  obtain ⟨h₅, hy₅⟩ := search_step (show 2 ^ 0 = 1 from rfl) (by decide) hy₄
    (Nat.lt_trans hy₄ (by decide))
  rw [BitVec.shiftLeft_zero] at h₅ hy₅
  have hlast : y₅.toNat.size = bit0.toNat := size_of_lt_two hy₅
  have hsize : y₀.toNat.size ≤ 31 := Nat.size_le.mpr hlt
  have hsum : y₀.toNat.size =
      bit16.toNat + (bit8.toNat + (bit4.toNat + (bit2.toNat + (bit1.toNat + bit0.toNat)))) := by
    rw [← hlast, ← h₅, ← h₄, ← h₃, ← h₂]
    exact h₁
  have hone : (1 : BitVec 32).toNat = 1 := rfl
  show (bit16 + bit8 + bit4 + bit2 + bit1 + bit0 + 1).toNat = y₀.toNat.size + 1
  simp only [BitVec.toNat_add, hone]
  clear_value bit16 bit8 bit4 bit2 bit1 bit0
  omega

/-! ## The loop -/

theorem countLoop_eq {a cnt : BitVec 32} (h : a.toNat.size < fuel) :
    countLoop fuel a cnt = some (cnt + BitVec.ofNat 32 a.toNat.size) := by
  induction fuel generalizing a cnt with
  | zero => cases h
  | succ fuel ih =>
      by_cases hzero : a = 0
      · subst hzero
        simp [countLoop]
      · have hne : a.toNat ≠ 0 := fun h0 => hzero (BitVec.eq_of_toNat_eq h0)
        have hsize := size_half hne
        have hhalf : (a >>> 1).toNat = a.toNat / 2 := by
          rw [BitVec.toNat_ushiftRight, Nat.shiftRight_eq_div_pow, Nat.pow_one]
        have hless : (a >>> 1).toNat.size < fuel := by
          rw [hhalf]
          omega
        rw [countLoop, if_neg hzero, ih hless, hhalf, hsize, Nat.add_comm (a.toNat / 2).size,
          BitVec.ofNat_add, ← BitVec.add_assoc]
        rfl

theorem toNat_complement (x : BitVec 32) :
    (if x.slt 0 then -x - 1 else x).toNat = foldSign x.toInt := by
  have hsub : -x - 1 = ~~~x := by
    rw [BitVec.neg_eq_not_add]
    exact BitVec.add_sub_cancel _ _
  have hslt : x.slt 0 = x.msb := BitVec.slt_zero_eq_msb
  rw [hsub, hslt, foldSign_toInt]
  cases x.msb with
  | true => exact BitVec.toNat_not
  | false => rfl

theorem testHowManyBits_eq (x : BitVec 32) : testHowManyBits x = some (howManyBits x) := by
  have hsize : (foldSign x.toInt).size ≤ 31 := Nat.size_le.mpr (foldSign_lt x)
  have hloop := @countLoop_eq 33 (if x.slt 0 then -x - 1 else x) 0
  rw [toNat_complement] at hloop
  rw [testHowManyBits, hloop (by omega)]
  refine congrArg some (BitVec.eq_of_toNat_eq ?_)
  rw [howManyBits_eq]
  simp
  omega

theorem howManyBits_least (x : BitVec 32) :
    IsLeast {n : Nat | 1 ≤ n ∧ -2 ^ (n - 1) ≤ x.toInt ∧ x.toInt ≤ 2 ^ (n - 1) - 1}
        (howManyBits x).toNat ∧
      testHowManyBits x = some (howManyBits x) := by
  rw [howManyBits_eq]
  exact ⟨isLeast_width x.toInt, testHowManyBits_eq x⟩

end CsappLabs.DataLab
