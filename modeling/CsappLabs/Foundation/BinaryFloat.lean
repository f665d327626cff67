import Mathlib.Data.Nat.Size
import Mathlib.Order.Monotone.Basic
import Mathlib.Tactic.Ring

/-!
# Binary floating-point numbers

A magnitude has an exponent and `p` bits of fraction.  It is counted in units of
the smallest subnormal number, so that it is a natural number.  Read as one
number, exponent and fraction count the magnitudes in increasing order: the
next code has the next magnitude, also where the fraction carries.
-/

namespace CsappLabs.Foundation

variable {p e f c c' t : Nat}

def magnitude (p e f : Nat) : Nat := if e = 0 then f else (2 ^ p + f) * 2 ^ (e - 1)

def codeMagnitude (p c : Nat) : Nat := magnitude p (c / 2 ^ p) (c % 2 ^ p)

def ulp (p c : Nat) : Nat := 2 ^ (c / 2 ^ p - 1)

theorem codeMagnitude_eq (hf : f < 2 ^ p) : codeMagnitude p (e * 2 ^ p + f) = magnitude p e f := by
  rw [codeMagnitude, Nat.mul_comm, Nat.mul_add_div (Nat.two_pow_pos p), Nat.div_eq_of_lt hf,
    Nat.add_zero, Nat.mul_add_mod, Nat.mod_eq_of_lt hf]

theorem codeMagnitude_succ (p c : Nat) : codeMagnitude p (c + 1) = codeMagnitude p c + ulp p c := by
  have hc := Nat.div_add_mod c (2 ^ p)
  have hf := Nat.mod_lt c (Nat.two_pow_pos p)
  rw [Nat.mul_comm] at hc
  rw [ulp]
  generalize c / 2 ^ p = e at hc
  generalize c % 2 ^ p = f at hc hf
  subst hc
  by_cases hlast : f + 1 < 2 ^ p
  · rw [Nat.add_assoc, codeMagnitude_eq hlast, codeMagnitude_eq hf, magnitude, magnitude]
    by_cases he : e = 0
    · rw [if_pos he, if_pos he, he]
      rfl
    · rw [if_neg he, if_neg he]
      ring
  · have hcarry : e * 2 ^ p + f + 1 = (e + 1) * 2 ^ p + 0 := by
      rw [Nat.add_assoc, Nat.add_one_mul]
      omega
    have hfull : 2 ^ p = f + 1 := by omega
    rw [hcarry, codeMagnitude_eq (Nat.two_pow_pos p), codeMagnitude_eq hf, magnitude, magnitude,
      if_neg (Nat.succ_ne_zero e), Nat.add_sub_cancel, Nat.add_zero]
    by_cases he : e = 0
    · rw [if_pos he, he, hfull]
      exact Nat.mul_one _
    · obtain ⟨k, rfl⟩ := Nat.exists_eq_succ_of_ne_zero he
      rw [if_neg he, Nat.succ_eq_add_one, Nat.add_sub_cancel, hfull]
      ring

theorem codeMagnitude_strictMono (p : Nat) : StrictMono (codeMagnitude p) := by
  apply strictMono_nat_of_lt_succ
  intro c
  rw [codeMagnitude_succ]
  exact Nat.lt_add_of_pos_right (Nat.two_pow_pos _)

/-! ## The nearest magnitude -/

def distance (p t c : Nat) : Nat := ((codeMagnitude p c : Int) - t).natAbs

/-- No magnitude is nearer to `t` than that of `c`, and `c` is even if another
one is as near. -/
def NearestCode (p t c : Nat) : Prop :=
  ∀ c', distance p t c ≤ distance p t c' ∧
    (distance p t c = distance p t c' → c' = c ∨ c % 2 = 0)

def roundsUp (p t c : Nat) : Bool :=
  ulp p c < 2 * (t - codeMagnitude p c) ∨ 2 * (t - codeMagnitude p c) = ulp p c ∧ c % 2 = 1

theorem nearestCode_round (hlo : codeMagnitude p c ≤ t) (hhi : t ≤ codeMagnitude p (c + 1)) :
    NearestCode p t (c + (roundsUp p t c).toNat) := by
  intro c'
  have hsucc := codeMagnitude_succ p c
  have hulp : 0 < ulp p c := Nat.two_pow_pos _
  -- another code lies below `c` or above the next one
  have hother : codeMagnitude p c' < codeMagnitude p c ∨ c' = c ∨ c' = c + 1 ∨
      codeMagnitude p (c + 1) < codeMagnitude p c' := by
    simp only [(codeMagnitude_strictMono p).lt_iff_lt]
    omega
  simp only [distance]
  by_cases hup : roundsUp p t c = true
  · rw [hup, Bool.toNat_true]
    simp only [roundsUp, decide_eq_true_eq] at hup
    rcases hother with hlt | rfl | rfl | hlt
    · omega
    · omega
    · omega
    · omega
  · rw [Bool.eq_false_of_not_eq_true hup, Bool.toNat_false, Nat.add_zero]
    simp only [roundsUp, decide_eq_true_eq] at hup
    rcases hother with hlt | rfl | rfl | hlt
    · omega
    · omega
    · omega
    · omega

/-! ## Rounding to a number of bits -/

/-- More than half of `2 ^ k` is cut off, or half of it behind an odd number. -/
def carries (n k : Nat) : Bool :=
  2 ^ k < 2 * (n % 2 ^ k) ∨ 2 * (n % 2 ^ k) = 2 ^ k ∧ n / 2 ^ k % 2 = 1

/-- `n / 2 ^ k` rounded to the nearest integer, to the even one in the middle. -/
def roundEven (n k : Nat) : Nat := n / 2 ^ k + (carries n k).toNat

def roundToBits (b n : Nat) : Nat := roundEven n (n.size - b) * 2 ^ (n.size - b)

variable {n k j m b : Nat}

theorem carries_scale (n k j : Nat) : carries (n * 2 ^ j) (k + j) = carries n k := by
  have hj := Nat.two_pow_pos j
  have hmod : n * 2 ^ j % 2 ^ (k + j) = n % 2 ^ k * 2 ^ j := by
    rw [Nat.pow_add, Nat.mul_mod_mul_right]
  have hdiv : n * 2 ^ j / 2 ^ (k + j) = n / 2 ^ k := by
    rw [Nat.pow_add, Nat.mul_div_mul_right _ _ hj]
  simp only [carries, hmod, hdiv]
  simp only [Nat.pow_add, ← Nat.mul_assoc, Nat.mul_lt_mul_right hj,
    Nat.mul_left_inj (Nat.ne_of_gt hj)]

theorem roundEven_scale (n k j : Nat) : roundEven (n * 2 ^ j) (k + j) = roundEven n k := by
  rw [roundEven, roundEven, carries_scale, Nat.pow_add,
    Nat.mul_div_mul_right _ _ (Nat.two_pow_pos j)]

theorem roundEven_zero (n : Nat) : roundEven n 0 = n := by
  have hcut : carries n 0 = false := by
    simp [carries, Nat.mod_one]
  rw [roundEven, hcut, Nat.pow_zero, Nat.div_one]
  rfl

theorem roundToBits_of_small (h : n.size ≤ b) : roundToBits b n = n := by
  rw [roundToBits, Nat.sub_eq_zero_of_le h, roundEven_zero, Nat.pow_zero, Nat.mul_one]

theorem roundToBits_of_mul (h : m < 2 ^ b) (k : Nat) : roundToBits b (m * 2 ^ k) = m * 2 ^ k := by
  rcases Nat.le_total (m * 2 ^ k).size b with hle | hge
  · exact roundToBits_of_small hle
  · have hsize : (m * 2 ^ k).size ≤ b + k := by
      rw [Nat.size_le, Nat.pow_add]
      exact Nat.mul_lt_mul_of_pos_right h (Nat.two_pow_pos k)
    obtain ⟨j, hj⟩ := Nat.exists_eq_add_of_le (show (m * 2 ^ k).size - b ≤ k by omega)
    rw [roundToBits]
    generalize (m * 2 ^ k).size - b = d at hj
    have hscale := roundEven_scale (m * 2 ^ j) 0 d
    rw [roundEven_zero, Nat.zero_add] at hscale
    rw [hj, Nat.add_comm d, Nat.pow_add, ← Nat.mul_assoc, hscale]

theorem roundToBits_shift (hsize : n.size + j = b + k) :
    roundEven (n * 2 ^ j) k * 2 ^ k = roundToBits b n * 2 ^ j := by
  rcases Nat.le_total n.size b with hle | hge
  · obtain ⟨i, rfl⟩ := Nat.exists_eq_add_of_le (show k ≤ j by omega)
    have hscale := roundEven_scale (n * 2 ^ i) 0 k
    rw [roundEven_zero, Nat.zero_add] at hscale
    rw [roundToBits_of_small hle, Nat.pow_add, Nat.mul_comm (2 ^ k), ← Nat.mul_assoc, hscale]
  · obtain rfl : k = n.size - b + j := by omega
    rw [roundEven_scale, roundToBits, Nat.pow_add, Nat.mul_assoc]

theorem nearestCode_of_bits (hp : 0 < p) (hlo : 2 ^ (p + k) ≤ n) (hhi : n < 2 ^ (p + k + 1))
    (m : Nat) :
    NearestCode p (n * 2 ^ m) ((k + m) * 2 ^ p + roundEven n k) ∧
      codeMagnitude p ((k + m) * 2 ^ p + roundEven n k) = roundEven n k * 2 ^ (k + m) := by
  have hq : 2 ^ p ≤ n / 2 ^ k := by
    rwa [Nat.le_div_iff_mul_le (Nat.two_pow_pos k), ← Nat.pow_add]
  have hq' : n / 2 ^ k < 2 ^ p + 2 ^ p := by
    rw [Nat.div_lt_iff_lt_mul (Nat.two_pow_pos k), ← Nat.two_mul, Nat.mul_assoc, ← Nat.pow_add,
      ← Nat.pow_succ']
    exact hhi
  have hcut := Nat.div_add_mod n (2 ^ k)
  have hrest := Nat.mod_lt n (Nat.two_pow_pos k)
  rw [roundEven, ← Nat.add_assoc]
  generalize hc : (k + m) * 2 ^ p + n / 2 ^ k = c
  have hsplit : c = (k + m + 1) * 2 ^ p + (n / 2 ^ k - 2 ^ p) := by
    rw [← hc, Nat.add_one_mul]
    omega
  have hmag : codeMagnitude p c = n / 2 ^ k * 2 ^ (k + m) := by
    rw [hsplit, codeMagnitude_eq (by omega), magnitude, if_neg (Nat.succ_ne_zero _),
      Nat.add_sub_cancel, Nat.add_sub_cancel' hq]
  have hulp : ulp p c = 2 ^ (k + m) := by
    rw [ulp, hsplit, Nat.mul_comm, Nat.mul_add_div (Nat.two_pow_pos p),
      Nat.div_eq_of_lt (by omega), Nat.add_zero, Nat.add_sub_cancel]
  have hsucc := codeMagnitude_succ p c
  -- what is cut off, in units of the last place
  have ht : n * 2 ^ m = codeMagnitude p c + n % 2 ^ k * 2 ^ m := by
    rw [hmag, Nat.pow_add, ← Nat.mul_assoc, ← Nat.add_mul, Nat.mul_comm (n / 2 ^ k), hcut]
  have hpar : c % 2 = n / 2 ^ k % 2 := by
    obtain ⟨i, rfl⟩ := Nat.exists_eq_succ_of_ne_zero (Nat.ne_of_gt hp)
    rw [← hc, Nat.pow_succ, ← Nat.mul_assoc, Nat.mul_add_mod_self_right]
  have hup : roundsUp p (n * 2 ^ m) c = carries n k := by
    have hm := Nat.two_pow_pos m
    simp only [roundsUp, carries, ht, hulp, hpar, Nat.add_sub_cancel_left, Nat.pow_add,
      ← Nat.mul_assoc, Nat.mul_lt_mul_right hm, Nat.mul_left_inj (Nat.ne_of_gt hm)]
  rw [← hup]
  constructor
  · apply nearestCode_round
    · omega
    · have hless := Nat.mul_lt_mul_of_pos_right hrest (Nat.two_pow_pos m)
      rw [← Nat.pow_add] at hless
      omega
  · cases roundsUp p (n * 2 ^ m) c with
    | false => exact hmag
    | true =>
        rw [Bool.toNat_true, hsucc, hmag, hulp, Nat.add_one_mul]

end CsappLabs.Foundation
