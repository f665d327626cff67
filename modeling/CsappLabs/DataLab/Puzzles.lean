import CsappLabs.DataLab.HowManyBits

/-!
# The integer puzzles

Each function of `bits.c` is written with a few operators of the machine word
and has a counterpart in `tests.c`, against which `btest.c` runs it on a part of
the arguments.
-/

namespace CsappLabs.DataLab

open CsappLabs.Foundation

/-! ## `bits.c` -/

def bitXor (x y : BitVec 32) : BitVec 32 :=
  let AND := x &&& y
  let NOR := ~~~x &&& ~~~y
  ~~~AND &&& ~~~NOR

def tmin : BitVec 32 := 1#32 <<< 31

def isTmax (x : BitVec 32) : BitVec 32 :=
  let neg1 := lnot (~~~x)
  lnot ((~~~(x + 1#32) ^^^ x) ||| neg1)

def allOddBits (x : BitVec 32) : BitVec 32 :=
  let mask := 0xAA#32 <<< 8 + 0xAA#32
  let mask := mask <<< 16 + mask
  lnot ((x &&& mask) ^^^ mask)

def negate (x : BitVec 32) : BitVec 32 := ~~~x + 1#32

def isAsciiDigit (x : BitVec 32) : BitVec 32 :=
  let neg0x30 := ~~~0x30#32 + 1#32
  let xMinus0x30 := x + neg0x30
  let neg0x3a := ~~~0x3A#32 + 1#32
  let xMinus0x3a := x + neg0x3a
  let lowerBoundMask := lnot (xMinus0x30.sshiftRight 31)
  let upperBoundMask := lnot (lnot (xMinus0x3a.sshiftRight 31))
  lowerBoundMask &&& upperBoundMask

def conditional (x y z : BitVec 32) : BitVec 32 :=
  let x := lnot (lnot x)
  let x := ~~~x + 1#32
  (x &&& y) ||| (~~~x &&& z)

def isLessOrEqual (x y : BitVec 32) : BitVec 32 :=
  let sx := x.sshiftRight 31 &&& 1#32
  let sy := y.sshiftRight 31 &&& 1#32
  let z := x + ~~~y + 1#32
  let s := (z.sshiftRight 31 &&& 1#32) ||| lnot (z ^^^ 0#32)
  (lnot (sx ^^^ sy) &&& s) ||| (sx &&& lnot sy)

def logicalNeg (x : BitVec 32) : BitVec 32 :=
  (~~~x &&& ~~~(~~~x + 1#32)).sshiftRight 31 &&& 1#32

/-! ## `tests.c` -/

def truth (p : Prop) [Decidable p] : BitVec 32 := if p then 1#32 else 0#32

def oddLoop (x : BitVec 32) : Nat → Nat → BitVec 32
  | _, 0 => 1#32
  | i, n + 1 => if x &&& (1#32 <<< i) = 0#32 then 0#32 else oddLoop x (i + 2) n

def testBitXor (x y : BitVec 32) : BitVec 32 := x ^^^ y

def testTmin : BitVec 32 := 0x80000000#32

def testIsTmax (x : BitVec 32) : BitVec 32 := truth (x = 0x7FFFFFFF#32)

def testAllOddBits (x : BitVec 32) : BitVec 32 := oddLoop x 1 16

def testNegate (x : BitVec 32) : BitVec 32 := -x

def testIsAsciiDigit (x : BitVec 32) : BitVec 32 := truth (0x30 ≤ x.toInt ∧ x.toInt ≤ 0x39)

def testConditional (x y z : BitVec 32) : BitVec 32 := if x ≠ 0#32 then y else z

def testIsLessOrEqual (x y : BitVec 32) : BitVec 32 := truth (x.toInt ≤ y.toInt)

def testLogicalNeg (x : BitVec 32) : BitVec 32 := lnot x

variable {x y z : BitVec 32}

/-! ## Signs and truth values -/

theorem sign_mask (x : BitVec 32) : x.sshiftRight 31 &&& 1#32 = truth (x.msb = true) := by
  rw [sshiftRight_sign, truth]
  cases x.msb <;> rfl

theorem lnot_sign (x : BitVec 32) : lnot (x.sshiftRight 31) = truth (x.msb = false) := by
  rw [sshiftRight_sign, truth]
  cases x.msb <;> rfl

theorem lnot_truth (p : Prop) [Decidable p] : lnot (truth p) = truth ¬p := by
  by_cases hp : p
  · simp [truth, lnot, hp]
  · simp [truth, lnot, hp]

theorem truth_congr {p q : Prop} [Decidable p] [Decidable q] (h : p ↔ q) : truth p = truth q := by
  by_cases hp : p
  · rw [truth, truth, if_pos hp, if_pos (h.mp hp)]
  · rw [truth, truth, if_neg hp, if_neg fun hq => hp (h.mpr hq)]

theorem truth_and (p q : Prop) [Decidable p] [Decidable q] :
    truth p &&& truth q = truth (p ∧ q) := by
  by_cases hp : p <;> by_cases hq : q <;> simp [truth, hp, hq]

theorem truth_or (p q : Prop) [Decidable p] [Decidable q] :
    truth p ||| truth q = truth (p ∨ q) := by
  by_cases hp : p <;> by_cases hq : q <;> simp [truth, hp, hq]

theorem lnot_eq_truth (x : BitVec 32) : lnot x = truth (x = 0#32) := rfl

theorem lnot_xor_truth (p q : Prop) [Decidable p] [Decidable q] :
    lnot (truth p ^^^ truth q) = truth (p ↔ q) := by
  by_cases hp : p <;> by_cases hq : q <;> simp [truth, lnot, hp, hq]

/-! ## The puzzles -/

theorem bitXor_eq (x y : BitVec 32) : bitXor x y = testBitXor x y := by
  ext i hi
  simp only [bitXor, testBitXor, BitVec.getElem_and, BitVec.getElem_not, BitVec.getElem_xor]
  cases x[i] <;> cases y[i] <;> rfl

theorem negate_eq (x : BitVec 32) : negate x = testNegate x := (BitVec.neg_eq_not_add x).symm

theorem conditional_eq (x y z : BitVec 32) : conditional x y z = testConditional x y z := by
  unfold conditional testConditional
  by_cases hx : x = 0#32
  · have hmask : ~~~lnot (lnot x) + 1#32 = 0#32 := by
      rw [hx]
      decide
    simp only [hmask]
    rw [if_neg fun hne => hne hx, BitVec.zero_and, BitVec.not_zero, BitVec.allOnes_and,
      BitVec.zero_or]
  · have hmask : ~~~lnot (lnot x) + 1#32 = BitVec.allOnes 32 := by
      rw [lnot_eq_truth x, truth, if_neg hx]
      decide
    simp only [hmask]
    rw [if_pos hx, BitVec.allOnes_and, BitVec.not_allOnes, BitVec.zero_and, BitVec.or_zero]

theorem isTmax_eq (x : BitVec 32) : isTmax x = testIsTmax x := by
  have hlt := x.isLt
  have hsum : (~~~(x + 1#32)).toNat = 2 ^ 32 - 1 - (x.toNat + 1) % 2 ^ 32 := by
    rw [BitVec.toNat_not, BitVec.toNat_add]
    rfl
  have hall : (~~~x).toNat = 2 ^ 32 - 1 - x.toNat := BitVec.toNat_not
  have hone : lnot (~~~x) = 0#32 ↔ x.toNat ≠ 2 ^ 32 - 1 := by
    have hzero : ~~~x = 0#32 ↔ x.toNat = 2 ^ 32 - 1 := by
      rw [← BitVec.toNat_inj, hall]
      show _ = 0 ↔ _
      omega
    rw [lnot_eq_truth, truth, Ne, ← hzero]
    by_cases hx : ~~~x = 0#32
    · simp [hx]
    · simp [hx]
  unfold isTmax testIsTmax
  simp only
  rw [lnot_eq_truth]
  apply truth_congr
  rw [BitVec.or_eq_zero_iff, BitVec.xor_eq_zero_iff, hone, ← BitVec.toNat_inj, hsum,
    ← BitVec.toNat_inj]
  show _ ↔ x.toNat = 2147483647
  omega

/-! ### Bits -/

theorem oddLoop_eq {i n : Nat} (x : BitVec 32) :
    oddLoop x i n = truth (∀ j < n, x.getLsbD (i + 2 * j) = true) := by
  induction n generalizing i with
  | zero => rw [oddLoop, truth, if_pos (by simp)]
  | succ n ih =>
      have hsplit : (∀ j < n + 1, x.getLsbD (i + 2 * j) = true) ↔
          x.getLsbD i = true ∧ ∀ j < n, x.getLsbD (i + 2 + 2 * j) = true := by
        constructor
        · intro h
          refine ⟨h 0 (Nat.succ_pos n), fun j hj => ?_⟩
          have hnext := h (j + 1) (by omega)
          rwa [show i + 2 * (j + 1) = i + 2 + 2 * j by omega] at hnext
        · rintro ⟨hfirst, hrest⟩ j hj
          cases j with
          | zero => exact hfirst
          | succ j =>
              rw [show i + 2 * (j + 1) = i + 2 + 2 * j by omega]
              exact hrest j (by omega)
      rw [oddLoop, ih, truth_congr hsplit, ← BitVec.twoPow_eq, BitVec.and_twoPow]
      cases hbit : x.getLsbD i with
      | true =>
          have hlt : i < 32 := BitVec.lt_of_getLsbD hbit
          have hne : BitVec.twoPow 32 i ≠ 0#32 := by
            intro hzero
            have hone := congrArg (fun y : BitVec 32 => y.getLsbD i) hzero
            simp [hlt] at hone
          rw [if_pos rfl, if_neg hne]
          exact truth_congr (by simp)
      | false => simp [truth]

theorem allOddBits_eq (x : BitVec 32) : allOddBits x = testAllOddBits x := by
  have hmask : ∀ i : Fin 32, (0xAAAAAAAA#32).getLsbD i = decide (i.val % 2 = 1) := by decide
  have hbuilt : (0xAA#32 <<< 8 + 0xAA#32) <<< 16 + (0xAA#32 <<< 8 + 0xAA#32) = 0xAAAAAAAA#32 := by
    decide
  unfold allOddBits testAllOddBits
  simp only [hbuilt]
  rw [lnot_eq_truth, oddLoop_eq]
  apply truth_congr
  rw [BitVec.xor_eq_zero_iff]
  constructor
  · intro h j hj
    have hbit := congrArg (fun y : BitVec 32 => y.getLsbD (1 + 2 * j)) h
    have hone := hmask ⟨1 + 2 * j, by omega⟩
    simp only [BitVec.getLsbD_and] at hbit
    rw [show (0xAAAAAAAA#32).getLsbD (1 + 2 * j) = true by rw [hone]; simp] at hbit
    simpa using hbit
  · intro h
    apply BitVec.eq_of_getLsbD_eq
    intro i hi
    rw [BitVec.getLsbD_and, hmask ⟨i, hi⟩]
    by_cases hodd : i % 2 = 1
    · have hset := h (i / 2) (by omega)
      rw [show 1 + 2 * (i / 2) = i by omega] at hset
      simp [hset, hodd]
    · simp [hodd]

/-! ### Comparisons -/

theorem isAsciiDigit_eq (x : BitVec 32) : isAsciiDigit x = testIsAsciiDigit x := by
  have hlt := x.isLt
  have hlow : (x + (~~~0x30#32 + 1#32)).toNat = (x.toNat + (2 ^ 32 - 0x30)) % 2 ^ 32 :=
    BitVec.toNat_add _ _
  have hhigh : (x + (~~~0x3A#32 + 1#32)).toNat = (x.toNat + (2 ^ 32 - 0x3A)) % 2 ^ 32 :=
    BitVec.toNat_add _ _
  unfold isAsciiDigit testIsAsciiDigit
  simp only
  rw [lnot_sign, lnot_sign, lnot_truth, truth_and]
  apply truth_congr
  simp only [BitVec.msb_eq_decide, hlow, hhigh, decide_eq_false_iff_not,
    BitVec.toInt_eq_toNat_cond]
  omega

theorem isLessOrEqual_eq (x y : BitVec 32) : isLessOrEqual x y = testIsLessOrEqual x y := by
  have hx := x.isLt
  have hy := y.isLt
  have hdiff : (x + ~~~y + 1#32).toNat =
      ((x.toNat + (2 ^ 32 - 1 - y.toNat)) % 2 ^ 32 + 1) % 2 ^ 32 := by
    rw [BitVec.toNat_add, BitVec.toNat_add, BitVec.toNat_not]
    rfl
  unfold isLessOrEqual testIsLessOrEqual
  simp only [BitVec.xor_zero]
  rw [sign_mask, sign_mask, sign_mask, lnot_xor_truth, lnot_truth, lnot_eq_truth, truth_or,
    truth_and, truth_and, truth_or]
  apply truth_congr
  rw [← BitVec.toNat_inj, hdiff]
  simp only [BitVec.msb_eq_decide, hdiff, decide_eq_true_iff, BitVec.toInt_eq_toNat_cond,
    BitVec.toNat_ofNat]
  omega

theorem logicalNeg_eq (x : BitVec 32) : logicalNeg x = testLogicalNeg x := by
  have hlt := x.isLt
  have hneg : (~~~x + 1#32).toNat = (2 ^ 32 - x.toNat) % 2 ^ 32 := by
    rw [← BitVec.neg_eq_not_add, BitVec.toNat_neg]
  unfold logicalNeg testLogicalNeg
  rw [sign_mask, lnot_eq_truth]
  apply truth_congr
  have hmsb : (~~~x &&& ~~~(~~~x + 1#32)).msb = true ↔
      x.msb = false ∧ (~~~x + 1#32).msb = false := by simp
  rw [hmsb, BitVec.msb_eq_decide, BitVec.msb_eq_decide, hneg, decide_eq_false_iff_not,
    decide_eq_false_iff_not, ← BitVec.toNat_inj]
  show _ ↔ x.toNat = 0
  omega

/-- Every integer puzzle gives what its test expects, on all arguments. -/
theorem puzzles_agree (x y z : BitVec 32) :
    bitXor x y = testBitXor x y ∧ tmin = testTmin ∧ isTmax x = testIsTmax x ∧
      allOddBits x = testAllOddBits x ∧ negate x = testNegate x ∧
      isAsciiDigit x = testIsAsciiDigit x ∧ conditional x y z = testConditional x y z ∧
      isLessOrEqual x y = testIsLessOrEqual x y ∧ logicalNeg x = testLogicalNeg x :=
  ⟨bitXor_eq x y, by decide, isTmax_eq x, allOddBits_eq x, negate_eq x, isAsciiDigit_eq x,
    conditional_eq x y z, isLessOrEqual_eq x y, logicalNeg_eq x⟩

end CsappLabs.DataLab
