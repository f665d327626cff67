import CsappLabs.Transpose.Tiles
import Mathlib.Tactic.SplitIfs

/-!
# Transposing tiles in place

Two nested loops exchange the elements on both sides of a diagonal.  The tile
consists of square blocks of `k` columns next to each other, which are
transposed at the same time.
-/

namespace CsappLabs.Transpose

open CsappLabs.Foundation

variable {α : Type} {M N : Nat} {s : Matrices α} {f : Nat → Nat → α}
  {r c h w x y x' y' k a b u v lo : Nat}

def exchange (f : Nat → Nat → α) (x y x' y' : Nat) : Nat → Nat → α :=
  fun u v => if u = x' ∧ v = y' then f x y else if u = x ∧ v = y then f x' y' else f u v

def mirror (k : Nat) (f : Nat → Nat → α) : Nat → Nat → α :=
  fun x y => f (y % k) (y - y % k + x)

def mirrored (k a b : Nat) (f : Nat → Nat → α) : Nat → Nat → α :=
  fun x y =>
    if min x (y % k) < a ∨ min x (y % k) = a ∧ max x (y % k) < b then mirror k f x y else f x y

theorem Matrices.paste_one {z : α} (hx : x < h) (hy : y < w) :
    (s.paste r c h w f).paste (r + x) (c + y) 1 1 (fun _ _ => z) =
      s.paste r c h w fun u v => if u = x ∧ v = y then z else f u v := by
  simp only [Matrices.paste]
  congr 1
  funext r' c'
  by_cases hcell : r' = r + x ∧ c' = c + y
  · obtain ⟨rfl, rfl⟩ := hcell
    rw [paste_in (by omega) (by omega), paste_in (by omega) (by omega), if_pos (by omega)]
  · rw [paste_out (by omega)]
    unfold Transpose.paste
    split
    · simp only []
      rw [if_neg (by omega)]
    · rfl

theorem swap_paste (hr : r + h ≤ M) (hc : c + w ≤ N) (hx : x < h) (hy : y < w) (hx' : x' < h)
    (hy' : y' < w) :
    swap M N (r + x) (c + y) (r + x') (c + y') (s.paste r c h w f) =
      some (s.paste r c h w (exchange f x y x' y')) := by
  have hload : loadB M N (r + x) (c + y) (s.paste r c h w f) = some (f x y) := by
    rw [loadB_eq ⟨by omega, by omega⟩, Matrices.paste_B, paste_in (by omega) (by omega)]
    congr 2 <;> omega
  have hload' : loadB M N (r + x') (c + y') (s.paste r c h w f) = some (f x' y') := by
    rw [loadB_eq ⟨by omega, by omega⟩, Matrices.paste_B, paste_in (by omega) (by omega)]
    congr 2 <;> omega
  simp only [swap, hload, hload', bind, Option.bind]
  rw [storeB_eq ⟨by omega, by omega⟩, Matrices.paste_one hx hy]
  simp only []
  rw [storeB_eq ⟨by omega, by omega⟩, Matrices.paste_one hx' hy']
  rfl

/-! ## The order of the pairs -/

theorem mirrored_first (hx : x < k) : mirrored k 0 1 f x y = f x y := by
  have hmod : y % k < k := Nat.mod_lt _ (by omega)
  have hle := Nat.mod_le y k
  unfold mirrored mirror
  split
  · congr 1 <;> omega
  · rfl

theorem mirrored_next (hx : x < k) :
    mirrored k a k f x y = mirrored k (a + 1) (a + 2) f x y := by
  have hmod : y % k < k := Nat.mod_lt _ (by omega)
  have hle := Nat.mod_le y k
  unfold mirrored mirror
  split
  · rw [if_pos (by omega)]
  · split
    · congr 1 <;> omega
    · rfl

theorem mirrored_last (hx : x < k) : mirrored k k (k + 1) f x y = mirror k f x y := by
  rw [mirrored, if_pos (by omega)]

theorem exchange_mirrored (hab : a < b) (hb : b < 8) (hx : x < 8) (hy : y < 8) :
    exchange (mirrored 8 a b f) a b b a x y = mirrored 8 a (b + 1) f x y := by
  simp only [exchange, mirrored, mirror]
  split_ifs <;> first | omega | (congr 1 <;> omega)

theorem exchange_mirrored_two (hab : a < b) (hb : b < 4) (hx : x < 4) (hy : y < 8) :
    exchange (exchange (mirrored 4 a b f) a b b a) a (b + 4) b (a + 4) x y =
      mirrored 4 a (b + 1) f x y := by
  simp only [exchange, mirrored, mirror]
  split_ifs <;> first | omega | (congr 1 <;> omega)

/-! ## The loops -/

theorem mirror_loops {body : Nat → Nat → Matrices α → Option (Matrices α)} (hint : lo + k ≤ intMax)
    (hbody : ∀ a b, a < b → b < k → body (lo + a) (lo + b) (s.paste r c k w (mirrored k a b f)) =
      some (s.paste r c k w (mirrored k a (b + 1) f))) :
    forLoop lo (lo + k) 1 (fun i => forLoop (i + 1) (lo + k) 1 (body i)) (s.paste r c k w f) =
      some (s.paste r c k w (mirror k f)) := by
  have hpairs := forLoop_pairs body
    (fun i j => s.paste r c k w (mirrored k (i - lo) (j - lo) f)) (Nat.le_add_right lo k) hint
    (fun i hlo hi => by
      have hnext : i + 1 - lo = i - lo + 1 := by omega
      have hnext' : i + 2 - lo = i - lo + 2 := by omega
      simp only [Nat.add_sub_cancel_left, hnext, hnext']
      exact Matrices.paste_congr fun x hx y _ => mirrored_next hx)
    (fun i j hlo hij hj => by
      have hone := hbody (i - lo) (j - lo) (by omega) (by omega)
      rw [Nat.add_sub_cancel' hlo, Nat.add_sub_cancel' (by omega)] at hone
      have hnext : j + 1 - lo = j - lo + 1 := by omega
      simp only [hnext]
      exact hone)
  simp only [Nat.sub_self, Nat.add_sub_cancel_left, Nat.add_assoc] at hpairs
  rw [Matrices.paste_congr fun x hx y _ => mirrored_first hx,
    Matrices.paste_congr fun x hx y _ => mirrored_last hx] at hpairs
  exact hpairs

end CsappLabs.Transpose
