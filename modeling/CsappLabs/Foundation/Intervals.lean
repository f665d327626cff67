import Mathlib.Order.Interval.Finset.Nat
import Mathlib.Algebra.Order.BigOperators.Group.List
import Mathlib.Algebra.GroupWithZero.Nat

/-!
# Intervals of natural numbers

Intervals that do not overlap need as much room as they are long together, and
a test that looks only for the ends of one interval in the other one misses
the interval that lies strictly inside.
-/

namespace CsappLabs.Foundation

variable {ι : Type*} {start length : ι → Nat} {l : List ι} {lo hi lo' hi' : Nat}

def covered (start length : ι → Nat) : List ι → Finset Nat
  | [] => ∅
  | i :: l => Finset.Ico (start i) (start i + length i) ∪ covered start length l

theorem mem_covered {x : Nat} :
    x ∈ covered start length l ↔ ∃ i ∈ l, start i ≤ x ∧ x < start i + length i := by
  induction l with
  | nil => simp [covered]
  | cons i l ih => simp [covered, ih]

theorem card_covered
    (h : l.Pairwise fun i j => start i + length i ≤ start j ∨ start j + length j ≤ start i) :
    (covered start length l).card = (l.map length).sum := by
  induction l with
  | nil => rfl
  | cons i l ih =>
      obtain ⟨hi, hl⟩ := List.pairwise_cons.mp h
      have hdisj : Disjoint (Finset.Ico (start i) (start i + length i))
          (covered start length l) := by
        apply Finset.disjoint_left.mpr
        intro x hx hx'
        obtain ⟨j, hj, h₁, h₂⟩ := mem_covered.mp hx'
        have happart := hi j hj
        rw [Finset.mem_Ico] at hx
        omega
      rw [covered, Finset.card_union_of_disjoint hdisj, ih hl, Nat.card_Ico, List.map_cons,
        List.sum_cons, Nat.add_sub_cancel_left]

/-- Intervals without overlap are together no longer than what they lie in. -/
theorem sum_length_le (hin : ∀ i ∈ l, lo ≤ start i ∧ start i + length i ≤ hi)
    (h : l.Pairwise fun i j => start i + length i ≤ start j ∨ start j + length j ≤ start i) :
    (l.map length).sum ≤ hi - lo := by
  rw [← card_covered h, ← Nat.card_Ico]
  apply Finset.card_le_card
  intro x hx
  obtain ⟨i, hi, h₁, h₂⟩ := mem_covered.mp hx
  have hbounds := hin i hi
  rw [Finset.mem_Ico]
  omega

/-- Neither end of `[lo, hi]` is in `[lo', hi']`: the intervals are apart, or
the second one is strictly inside the first. -/
theorem ends_outside_iff (h : lo ≤ hi) :
    ¬((lo ≥ lo' ∧ lo ≤ hi') ∨ (hi ≥ lo' ∧ hi ≤ hi')) ↔
      (hi < lo' ∨ hi' < lo) ∨ (lo < lo' ∧ hi' < hi) := by
  omega

end CsappLabs.Foundation
