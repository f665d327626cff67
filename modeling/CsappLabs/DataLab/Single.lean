import Mathlib.Algebra.Order.Ring.Rat
import Mathlib.Algebra.Order.Field.Basic
import Mathlib.Tactic.FieldSimp
import CsappLabs.Foundation.BinaryFloat

/-!
# Single-precision numbers

The numbers that a word stands for as a `float`: one bit of sign, eight bits of
exponent and 23 bits of fraction.
-/

namespace CsappLabs.DataLab

open CsappLabs.Foundation

def exponent (uf : BitVec 32) : Nat := uf.toNat / 2 ^ 23 % 2 ^ 8

def fraction (uf : BitVec 32) : Nat := uf.toNat % 2 ^ 23

def IsFinite (uf : BitVec 32) : Prop := exponent uf ≠ 255

/-- The smallest subnormal number is `2 ^ -149`. -/
def value (uf : BitVec 32) : ℚ :=
  (if uf.msb then -1 else 1) * magnitude 23 (exponent uf) (fraction uf) / 2 ^ 149

/-- The finite number is the nearest to `x`, and among two that are as near it
has the even fraction. -/
structure IsNearest (x : Int) (uf : BitVec 32) : Prop where
  finite : IsFinite uf
  nearest : ∀ v, IsFinite v → |value uf - x| ≤ |value v - x|
  even : ∀ v, IsFinite v → |value uf - x| = |value v - x| →
    value v = value uf ∨ fraction uf % 2 = 0

variable {u v : BitVec 32} {c n : Nat} {s : Bool}

/-! ## Exponent and fraction as one number -/

def code (uf : BitVec 32) : Nat := uf.toNat % 2 ^ 31

theorem magnitude_code (uf : BitVec 32) :
    magnitude 23 (exponent uf) (fraction uf) = codeMagnitude 23 (code uf) := by
  have hexp : code uf / 2 ^ 23 = exponent uf := by
    rw [code, exponent]
    omega
  have hfrac : code uf % 2 ^ 23 = fraction uf := by
    rw [code, fraction]
    omega
  rw [codeMagnitude, hexp, hfrac]

theorem fraction_even (h : code u % 2 = 0) : fraction u % 2 = 0 := by
  rw [code] at h
  rw [fraction]
  omega

theorem value_eq (uf : BitVec 32) :
    value uf = (if uf.msb then -1 else 1) * codeMagnitude 23 (code uf) / 2 ^ 149 := by
  rw [value, magnitude_code]

def error (s : Bool) (n : Nat) (v : BitVec 32) : Nat :=
  if v.msb = s then distance 23 (n * 2 ^ 149) (code v)
  else codeMagnitude 23 (code v) + n * 2 ^ 149

theorem abs_cast_sub (m t : Nat) : |(m : ℚ) - t| = ((m : Int) - t).natAbs := by
  rw [Nat.cast_natAbs, Int.cast_abs, Int.cast_sub, Int.cast_natCast, Int.cast_natCast]

theorem abs_signed_sub (r s : Bool) (m t : Nat) :
    |(if r then -1 else 1) * (m : ℚ) - (if s then -1 else 1) * t| =
      if r = s then |(m : ℚ) - t| else m + t := by
  have hnonneg : (0 : ℚ) ≤ m + t := add_nonneg (Nat.cast_nonneg m) (Nat.cast_nonneg t)
  cases r with
  | true =>
      cases s with
      | true =>
          have hneg : (-1 : ℚ) * m - -1 * t = -(m - t) := by ring
          simp only [if_true]
          rw [hneg, abs_neg]
      | false =>
          have hneg : (-1 : ℚ) * m - 1 * t = -(m + t) := by ring
          simp only [if_true, Bool.false_eq_true, if_false, Bool.true_eq_false]
          rw [hneg, abs_neg, abs_of_nonneg hnonneg]
  | false =>
      cases s with
      | true =>
          have hsum : (1 : ℚ) * m - -1 * t = m + t := by ring
          simp only [if_true, Bool.false_eq_true, if_false]
          rw [hsum, abs_of_nonneg hnonneg]
      | false =>
          simp only [Bool.false_eq_true, if_false, if_true, one_mul]

theorem abs_value_sub (s : Bool) (n : Nat) (v : BitVec 32) :
    |value v - (if s then -1 else 1) * n| = error s n v / 2 ^ 149 := by
  have hpos : (0 : ℚ) < 2 ^ 149 := by positivity
  have hscale : (2 ^ 149 : ℚ) * ((if s then -1 else 1) * n) =
      (if s then -1 else 1) * (n * 2 ^ 149 : Nat) := by
    push_cast
    ring
  rw [value_eq, div_sub' hpos.ne', abs_div, abs_of_pos hpos, hscale, abs_signed_sub, error]
  congr 1
  by_cases hsame : v.msb = s
  · rw [if_pos hsame, if_pos hsame, abs_cast_sub, distance]
  · rw [if_neg hsame, if_neg hsame, Nat.cast_add]

theorem distance_zero (p t : Nat) : distance p t 0 = t := by
  have hzero : codeMagnitude p 0 = 0 := by
    simp [codeMagnitude, magnitude]
  rw [distance, hzero]
  omega

theorem isNearest_of_code {x : Int} (hfinite : IsFinite u) (hmsb : u.msb = decide (x < 0))
    (hnear : NearestCode 23 (x.natAbs * 2 ^ 149) (code u)) : IsNearest x u := by
  have hpos : (0 : ℚ) < 2 ^ 149 := by positivity
  have hx : (x : ℚ) = (if decide (x < 0) then -1 else 1) * (x.natAbs : ℚ) := by
    by_cases hneg : x < 0
    · rw [decide_eq_true hneg, if_pos rfl, Nat.cast_natAbs, abs_of_neg hneg, Int.cast_neg,
        neg_mul_neg, one_mul]
    · rw [decide_eq_false hneg, if_neg Bool.false_ne_true, Nat.cast_natAbs,
        abs_of_nonneg (not_lt.mp hneg), one_mul]
  have hu : error (decide (x < 0)) x.natAbs u = distance 23 (x.natAbs * 2 ^ 149) (code u) := by
    rw [error, if_pos hmsb]
  have hzero := hnear 0
  rw [distance_zero] at hzero
  -- a number of the other sign is not nearer than zero
  have herror : ∀ v, error (decide (x < 0)) x.natAbs u ≤ error (decide (x < 0)) x.natAbs v ∧
      (error (decide (x < 0)) x.natAbs u = error (decide (x < 0)) x.natAbs v →
        value v = value u ∨ code u % 2 = 0) := by
    intro v
    rw [hu, error]
    by_cases hsame : v.msb = decide (x < 0)
    · rw [if_pos hsame]
      obtain ⟨hle, htie⟩ := hnear (code v)
      refine ⟨hle, fun heq => (htie heq).imp (fun hcode => ?_) id⟩
      rw [value_eq, value_eq, hcode, hsame, hmsb]
    · rw [if_neg hsame]
      refine ⟨by omega, fun heq => .inr ?_⟩
      have hnone : distance 23 (x.natAbs * 2 ^ 149) (code u) = x.natAbs * 2 ^ 149 := by omega
      cases hzero.2 hnone with
      | inl hcode => omega
      | inr heven => exact heven
  refine ⟨hfinite, fun v _ => ?_, fun v _ heq => ?_⟩
  · rw [hx, abs_value_sub, abs_value_sub, div_le_div_iff_of_pos_right hpos, Nat.cast_le]
    exact (herror v).1
  · rw [hx, abs_value_sub, abs_value_sub, div_left_inj' hpos.ne', Nat.cast_inj] at heq
    exact ((herror v).2 heq).imp id fraction_even

end CsappLabs.DataLab
