import Mathlib.Logic.Function.Basic

/-!
# Ring buffers

A ring buffer holds the end of a list, each element in the slot of its
position.  Slots are used again after `n` positions.
-/

namespace CsappLabs.Foundation

variable {κ α : Type*} {slot : Nat → κ} {buf : κ → α} {xs : List α} {lo n : Nat}

def Wraps (n : Nat) (slot : Nat → κ) : Prop := ∀ i j, slot i = slot j → i % n = j % n

/-- The elements from position `lo` on are in their slots. -/
def Window (slot : Nat → κ) (buf : κ → α) (xs : List α) (lo : Nat) : Prop :=
  ∀ k (h : k < xs.length), lo ≤ k → buf (slot k) = xs[k]

theorem Window.nil (slot : Nat → κ) (buf : κ → α) : Window slot buf [] 0 := nofun

theorem Window.pop (h : Window slot buf xs lo) : Window slot buf xs (lo + 1) :=
  fun k hk hlo => h k hk (Nat.le_of_succ_le hlo)

theorem slot_ne (hwraps : Wraps n slot) {i j : Nat} (hij : i < j) (hn : j < i + n) :
    slot i ≠ slot j := by
  intro heq
  have hmod : (j - i) % n = 0 := Nat.sub_mod_eq_zero_of_mod_eq (hwraps i j heq).symm
  rw [Nat.mod_eq_of_lt (by omega)] at hmod
  omega

/-- An element is added when fewer than `n` are kept; none of these is
overwritten. -/
theorem Window.push [DecidableEq κ] (hwraps : Wraps n slot) (h : Window slot buf xs lo)
    (hroom : xs.length < lo + n) (x : α) :
    Window slot (Function.update buf (slot xs.length) x) (xs ++ [x]) lo := by
  intro k hk hlo
  by_cases hold : k < xs.length
  · rw [Function.update_of_ne (slot_ne hwraps hold (by omega)), List.getElem_append_left hold]
    exact h k hold hlo
  · obtain rfl : k = xs.length := by
      rw [List.length_append, List.length_singleton] at hk
      omega
    simp

end CsappLabs.Foundation
