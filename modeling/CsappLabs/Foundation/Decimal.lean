import CsappLabs.Foundation.Scan
import Mathlib.Data.Nat.Digits.Defs

/-!
# Numbers that are printed

The text that `%d` prints for a number, and that it is a numeral for it.
-/

namespace CsappLabs.Foundation

variable {n : Nat} {l : List Nat}

def digitChar (d : Nat) : UInt8 := UInt8.ofNat (48 + d)

def showNat (n : Nat) : List UInt8 :=
  if n = 0 then [48] else ((Nat.digits 10 n).map digitChar).reverse

def showInt : Int → List UInt8
  | .ofNat n => showNat n
  | .negSucc n => 45 :: showNat (n + 1)

theorem toNat_digitChar {d : Nat} (hd : d < 10) : (digitChar d).toNat = 48 + d := by
  rw [digitChar, UInt8.toNat_ofNat']
  omega

theorem isdigit_digitChar {d : Nat} (hd : d < 10) : isdigit (digitChar d) = true := by
  have hval := toNat_digitChar hd
  have hzero : (48 : UInt8).toNat = 48 := rfl
  have hnine : (57 : UInt8).toNat = 57 := rfl
  simp only [isdigit, decide_eq_true_eq, UInt8.le_iff_toNat_le, hval, hzero, hnine]
  omega

theorem digitsValue_digits (hl : ∀ d ∈ l, d < 10) :
    digitsValue (l.map digitChar).reverse = Nat.ofDigits 10 l := by
  rw [digitsValue, List.foldl_reverse]
  induction l with
  | nil => rfl
  | cons d l ih =>
      rw [List.forall_mem_cons] at hl
      have hval := toNat_digitChar hl.1
      rw [List.map_cons, List.foldr_cons, ih hl.2, hval, Nat.ofDigits_cons]
      simp
      omega

theorem numeral_showNat (n : Nat) : Numeral n (showNat n) := by
  by_cases hn : n = 0
  · subst hn
    exact ⟨by simp [showNat], by simp [showNat, isdigit], rfl⟩
  · have hlt : ∀ d ∈ Nat.digits 10 n, d < 10 := fun d hd => Nat.digits_lt_base (by decide) hd
    have hshow : showNat n = ((Nat.digits 10 n).map digitChar).reverse := if_neg hn
    rw [hshow]
    refine ⟨?_, ?_, ?_⟩
    · rw [ne_eq, List.reverse_eq_nil_iff, List.map_eq_nil_iff]
      exact Nat.digits_ne_nil_iff_ne_zero.mpr hn
    · intro c hc
      rw [List.mem_reverse, List.mem_map] at hc
      obtain ⟨d, hd, rfl⟩ := hc
      exact isdigit_digitChar (hlt d hd)
    · rw [digitsValue_digits hlt, Nat.ofDigits_digits]

end CsappLabs.Foundation
