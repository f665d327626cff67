import CsappLabs.Transpose.Model

/-!
# Tiles of a matrix

What the statements of the transpositions do to `B`, as a tile that is pasted
over a part of it.  A loop over the rows or the columns of a tile pastes it
line by line.
-/

namespace CsappLabs.Transpose

open CsappLabs.Foundation

variable {α : Type} {M N : Nat} {s t : Matrices α} {B : Nat → Nat → α} {r c r' c' h w h' w' n i j : Nat}
  {f g : Nat → Nat → α} {tmp : Nat → α}

def paste (B : Nat → Nat → α) (r₀ c₀ h w : Nat) (f : Nat → Nat → α) : Nat → Nat → α :=
  fun r c =>
    if r₀ ≤ r ∧ r < r₀ + h ∧ c₀ ≤ c ∧ c < c₀ + w then f (r - r₀) (c - c₀) else B r c

def Matrices.paste (s : Matrices α) (r₀ c₀ h w : Nat) (f : Nat → Nat → α) : Matrices α :=
  { s with B := Transpose.paste s.B r₀ c₀ h w f }

@[simp] theorem Matrices.paste_A (s : Matrices α) (r₀ c₀ h w : Nat) (f : Nat → Nat → α) :
    (s.paste r₀ c₀ h w f).A = s.A := rfl

@[simp] theorem Matrices.paste_B (s : Matrices α) (r₀ c₀ h w : Nat) (f : Nat → Nat → α) :
    (s.paste r₀ c₀ h w f).B = Transpose.paste s.B r₀ c₀ h w f := rfl

theorem paste_in (hr : r ≤ r' ∧ r' < r + h) (hc : c ≤ c' ∧ c' < c + w) :
    paste B r c h w f r' c' = f (r' - r) (c' - c) := if_pos ⟨hr.1, hr.2, hc.1, hc.2⟩

theorem paste_out (hout : r' < r ∨ r + h ≤ r' ∨ c' < c ∨ c + w ≤ c') :
    paste B r c h w f r' c' = B r' c' := if_neg (by omega)

theorem paste_at {x y : Nat} (hx : x < h) (hy : y < w) :
    paste B r c h w f (r + x) (c + y) = f x y := by
  rw [paste_in (by omega) (by omega), Nat.add_sub_cancel_left, Nat.add_sub_cancel_left]

theorem paste_none (B : Nat → Nat → α) (r c w : Nat) (f : Nat → Nat → α) :
    paste B r c 0 w f = B := by
  funext r' c'
  exact paste_out (by omega)

theorem paste_none_right (B : Nat → Nat → α) (r c h : Nat) (f : Nat → Nat → α) :
    paste B r c h 0 f = B := by
  funext r' c'
  exact paste_out (by omega)

theorem paste_congr (hfg : ∀ x < h, ∀ y < w, f x y = g x y) :
    paste B r c h w f = paste B r c h w g := by
  funext r' c'
  unfold paste
  by_cases hin : r ≤ r' ∧ r' < r + h ∧ c ≤ c' ∧ c' < c + w
  · rw [if_pos hin, if_pos hin, hfg _ (by omega) _ (by omega)]
  · rw [if_neg hin, if_neg hin]

theorem paste_comm (r r' : Nat) (hapart : r + h ≤ r' ∨ r' + h' ≤ r ∨ c + w ≤ c' ∨ c' + w' ≤ c) :
    paste (paste B r c h w f) r' c' h' w' g = paste (paste B r' c' h' w' g) r c h w f := by
  funext a b
  unfold paste
  split
  · rw [if_neg (by omega)]
  · rfl

theorem paste_rows {d : Nat} :
    paste (paste B r c h w f) (r + h) c d w (fun x y => f (h + x) y) = paste B r c (h + d) w f := by
  funext r' c'
  by_cases hnew : r + h ≤ r' ∧ r' < r + h + d ∧ c ≤ c' ∧ c' < c + w
  · rw [paste_in (by omega) (by omega), paste_in (by omega) (by omega),
      show h + (r' - (r + h)) = r' - r by omega]
  · rw [paste_out (by omega)]
    unfold paste
    congr 1
    rw [eq_iff_iff]
    omega

theorem paste_cols {d : Nat} :
    paste (paste B r c h w f) r (c + w) h d (fun x y => f x (w + y)) = paste B r c h (w + d) f := by
  funext r' c'
  by_cases hnew : c + w ≤ c' ∧ c' < c + w + d ∧ r ≤ r' ∧ r' < r + h
  · rw [paste_in (by omega) (by omega), paste_in (by omega) (by omega),
      show w + (c' - (c + w)) = c' - c by omega]
  · rw [paste_out (by omega)]
    unfold paste
    congr 1
    rw [eq_iff_iff]
    omega

namespace Matrices

theorem paste_none (s : Matrices α) (r c w : Nat) (f : Nat → Nat → α) :
    s.paste r c 0 w f = s := by
  rw [Matrices.paste, Transpose.paste_none]

theorem paste_none_right (s : Matrices α) (r c h : Nat) (f : Nat → Nat → α) :
    s.paste r c h 0 f = s := by
  rw [Matrices.paste, Transpose.paste_none_right]

theorem paste_congr (hfg : ∀ x < h, ∀ y < w, f x y = g x y) :
    s.paste r c h w f = s.paste r c h w g := by
  rw [Matrices.paste, Transpose.paste_congr hfg, Matrices.paste]

theorem paste_comm (r r' : Nat) (hapart : r + h ≤ r' ∨ r' + h' ≤ r ∨ c + w ≤ c' ∨ c' + w' ≤ c) :
    (s.paste r c h w f).paste r' c' h' w' g = (s.paste r' c' h' w' g).paste r c h w f := by
  simp only [Matrices.paste, Transpose.paste_comm r r' hapart]

theorem paste_rows {d : Nat} :
    (s.paste r c h w f).paste (r + h) c d w (fun x y => f (h + x) y) = s.paste r c (h + d) w f := by
  simp only [Matrices.paste, Transpose.paste_rows]

theorem paste_cols {d : Nat} :
    (s.paste r c h w f).paste r (c + w) h d (fun x y => f x (w + y)) = s.paste r c h (w + d) f := by
  simp only [Matrices.paste, Transpose.paste_cols]

theorem paste_row :
    (s.paste r c h w f).paste (r + h) c 1 w (fun _ y => f h y) = s.paste r c (h + 1) w f := by
  rw [← paste_rows]
  apply paste_congr
  intro x hx y _
  rw [Nat.lt_one_iff.mp hx, Nat.add_zero]

theorem paste_col :
    (s.paste r c h w f).paste r (c + w) h 1 (fun x _ => f x w) = s.paste r c h (w + 1) f := by
  rw [← paste_cols]
  apply paste_congr
  intro x _ y hy
  rw [Nat.lt_one_iff.mp hy, Nat.add_zero]

end Matrices

/-! ## Statements -/

theorem loadA_eq (h : r < N ∧ c < M) : loadA M N r c s = some (s.A r c) := if_pos h

theorem loadB_eq (h : r < M ∧ c < N) : loadB M N r c s = some (s.B r c) := if_pos h

theorem storeB_eq (h : r < M ∧ c < N) (v : α) :
    storeB M N r c v s = some (s.paste r c 1 1 fun _ _ => v) := by
  rw [storeB, if_pos h]
  congr 2
  funext r' c'
  unfold paste
  congr 1
  rw [eq_iff_iff]
  omega

theorem loadsA_eq {row col : Nat → Nat} (h : ∀ k < n, row k < N ∧ col k < M) :
    loadsA M N n row col s = some fun k => s.A (row k) (col k) := if_pos h

theorem loadsA_bounds {row col : Nat → Nat} (h : loadsA M N n row col s = some tmp) :
    ∀ k < n, row k < N ∧ col k < M := by
  by_contra hout
  rw [loadsA, if_neg hout] at h
  cases h

theorem loadsB_eq {row col : Nat → Nat} (h : ∀ k < n, row k < M ∧ col k < N) :
    loadsB M N n row col s = some fun k => s.B (row k) (col k) := if_pos h

theorem stores_row (hr : r < M) (hc : c + n ≤ N) :
    stores M N (fun _ => r) (fun k => c + k) tmp n s = some (s.paste r c 1 n fun _ y => tmp y) := by
  induction n with
  | zero => rw [stores, Matrices.paste_none_right]
  | succ n ih =>
      simp only [stores, ih (by omega), bind, Option.bind]
      rw [storeB_eq ⟨hr, by omega⟩]
      exact congrArg some (Matrices.paste_col (f := fun _ y => tmp y))

theorem stores_col (hr : r + n ≤ M) (hc : c < N) :
    stores M N (fun k => r + k) (fun _ => c) tmp n s = some (s.paste r c n 1 fun x _ => tmp x) := by
  induction n with
  | zero => rw [stores, Matrices.paste_none]
  | succ n ih =>
      simp only [stores, ih (by omega), bind, Option.bind]
      rw [storeB_eq ⟨by omega, hc⟩]
      exact congrArg some (Matrices.paste_row (f := fun x _ => tmp x))

/-- The elements that are read are not among those that have been written. -/
theorem moves_row (hr : r < M) (hc : c + n ≤ N) (hr' : r' < M) (hc' : c' + n ≤ N)
    (hapart : r' ≠ r ∨ c' + n ≤ c ∨ c + n ≤ c') :
    moves M N (fun _ => r) (fun k => c + k) (fun _ => r') (fun k => c' + k) n s =
      some (s.paste r c 1 n fun _ y => s.B r' (c' + y)) := by
  induction n with
  | zero => rw [moves, Matrices.paste_none_right]
  | succ n ih =>
      simp only [moves, ih (by omega) (by omega) (by omega), bind, Option.bind]
      rw [loadB_eq ⟨hr', by omega⟩]
      simp only [Matrices.paste_B]
      rw [paste_out (by omega), storeB_eq ⟨hr, by omega⟩]
      exact congrArg some (Matrices.paste_col (f := fun _ y => s.B r' (c' + y)))

theorem moveRow_eq (hra : r < N) (hca : c + 8 ≤ M) (hrb : r' < M) (hcb : c' + 8 ≤ N) :
    moveRow M N r c r' c' s = some (s.paste r' c' 1 8 fun _ y => s.A r (c + y)) := by
  rw [moveRow, loadsA_eq (fun k hk => ⟨hra, by omega⟩)]
  exact stores_row hrb hcb

/-! ## Loops -/

variable {lo hi d : Nat} {body : Nat → Matrices α → Option (Matrices α)}

theorem forLoop_rows (hd : 0 < d) (hdvd : d ∣ h) (hhi : hi = lo + h) (hint : hi ≤ intMax)
    (hbody : ∀ k, d ∣ k → k + d ≤ h → body (lo + k) (s.paste r c k w f) =
      some ((s.paste r c k w f).paste (r + k) c d w fun x y => f (k + x) y)) :
    forLoop lo hi d body s = some (s.paste r c h w f) := by
  subst hhi
  have hloop := forLoop_exact (s := s) body (fun i t => t = s.paste r c (i - lo) w f) hd
    (Nat.le_add_right lo h) (by rwa [Nat.add_sub_cancel_left]) hint
    (by rw [Nat.sub_self, Matrices.paste_none]) (by
      rintro i t hlo hle hdvd' rfl
      have hi : lo + (i - lo) = i := by omega
      have hnext : i + d - lo = i - lo + d := by omega
      have hone := hbody (i - lo) hdvd' (by omega)
      rw [hi, Matrices.paste_rows, ← hnext] at hone
      exact ⟨_, hone, rfl⟩)
  obtain ⟨t, ht, rfl⟩ := hloop
  rw [ht, Nat.add_sub_cancel_left]

theorem forLoop_cols (hd : 0 < d) (hdvd : d ∣ w) (hhi : hi = lo + w) (hint : hi ≤ intMax)
    (hbody : ∀ k, d ∣ k → k + d ≤ w → body (lo + k) (s.paste r c h k f) =
      some ((s.paste r c h k f).paste r (c + k) h d fun x y => f x (k + y))) :
    forLoop lo hi d body s = some (s.paste r c h w f) := by
  subst hhi
  have hloop := forLoop_exact (s := s) body (fun i t => t = s.paste r c h (i - lo) f) hd
    (Nat.le_add_right lo w) (by rwa [Nat.add_sub_cancel_left]) hint
    (by rw [Nat.sub_self, Matrices.paste_none_right]) (by
      rintro i t hlo hle hdvd' rfl
      have hi : lo + (i - lo) = i := by omega
      have hnext : i + d - lo = i - lo + d := by omega
      have hone := hbody (i - lo) hdvd' (by omega)
      rw [hi, Matrices.paste_cols, ← hnext] at hone
      exact ⟨_, hone, rfl⟩)
  obtain ⟨t, ht, rfl⟩ := hloop
  rw [ht, Nat.add_sub_cancel_left]

theorem forLoop_each_row (hhi : hi = lo + h) (hint : hi ≤ intMax)
    (hbody : ∀ k < h, body (lo + k) (s.paste r c k w f) =
      some ((s.paste r c k w f).paste (r + k) c 1 w fun _ y => f k y)) :
    forLoop lo hi 1 body s = some (s.paste r c h w f) := by
  refine forLoop_rows Nat.one_pos (Nat.one_dvd h) hhi hint fun k _ hk => ?_
  rw [hbody k hk, Matrices.paste_row, Matrices.paste_rows]

theorem forLoop_each_col (hhi : hi = lo + w) (hint : hi ≤ intMax)
    (hbody : ∀ k < w, body (lo + k) (s.paste r c h k f) =
      some ((s.paste r c h k f).paste r (c + k) h 1 fun x _ => f x k)) :
    forLoop lo hi 1 body s = some (s.paste r c h w f) := by
  refine forLoop_cols Nat.one_pos (Nat.one_dvd w) hhi hint fun k _ hk => ?_
  rw [hbody k hk, Matrices.paste_col, Matrices.paste_cols]

/-- A loop over all rows, `d` at a time; the last turn is clipped. -/
theorem forLoop_clipped_rows (hd : 0 < d) (hint : ∀ i < hi, d ∣ i → i + d ≤ intMax)
    (hbody : ∀ i < hi, d ∣ i → body i (s.paste 0 c i w f) = some ((s.paste 0 c i w f).paste i c
      (min (i + d) hi - i) w fun x y => f (i + x) y)) :
    forLoop 0 hi d body s = some (s.paste 0 c hi w f) := by
  have hloop := forLoop_inv (s := s) body (fun i t => t = s.paste 0 c (min i hi) w f) hd
    (by rw [Nat.zero_min, Matrices.paste_none]) (by
      rintro i t - (hlt : i < hi) hdvd rfl
      refine ⟨hint i hlt hdvd, _, ?_, rfl⟩
      have hnext : i + (min (i + d) hi - i) = min (i + d) hi := by omega
      have hrows := Matrices.paste_rows (s := s) (r := 0) (h := i) (d := min (i + d) hi - i)
        (c := c) (w := w) (f := f)
      rw [Nat.zero_add, hnext] at hrows
      rw [Nat.min_eq_left (Nat.le_of_lt hlt), hbody i hlt hdvd, hrows])
  obtain ⟨j, t, ht, hge, -, -, rfl⟩ := hloop
  rw [ht, Nat.min_eq_right hge]

theorem forLoop_clipped_cols (hd : 0 < d) (hint : ∀ i < hi, d ∣ i → i + d ≤ intMax)
    (hbody : ∀ i < hi, d ∣ i → body i (s.paste r 0 h i f) = some ((s.paste r 0 h i f).paste r i
      h (min (i + d) hi - i) fun x y => f x (i + y))) :
    forLoop 0 hi d body s = some (s.paste r 0 h hi f) := by
  have hloop := forLoop_inv (s := s) body (fun i t => t = s.paste r 0 h (min i hi) f) hd
    (by rw [Nat.zero_min, Matrices.paste_none_right]) (by
      rintro i t - (hlt : i < hi) hdvd rfl
      refine ⟨hint i hlt hdvd, _, ?_, rfl⟩
      have hnext : i + (min (i + d) hi - i) = min (i + d) hi := by omega
      have hcols := Matrices.paste_cols (s := s) (c := 0) (w := i) (d := min (i + d) hi - i)
        (r := r) (h := h) (f := f)
      rw [Nat.zero_add, hnext] at hcols
      rw [Nat.min_eq_left (Nat.le_of_lt hlt), hbody i hlt hdvd, hcols])
  obtain ⟨j, t, ht, hge, -, -, rfl⟩ := hloop
  rw [ht, Nat.min_eq_right hge]

theorem forLoop_two_rows (hhi : hi = lo + h) (hint : hi ≤ intMax)
    (hapart : r + h ≤ r' ∨ r' + h ≤ r ∨ c + w ≤ c' ∨ c' + w' ≤ c)
    (hbody : ∀ k < h, body (lo + k) ((s.paste r c k w f).paste r' c' k w' g) =
      some ((((s.paste r c k w f).paste r' c' k w' g).paste (r + k) c 1 w fun _ y => f k y).paste
        (r' + k) c' 1 w' fun _ y => g k y)) :
    forLoop lo hi 1 body s = some ((s.paste r c h w f).paste r' c' h w' g) := by
  subst hhi
  have hloop := forLoop_exact (s := s) body
    (fun i t => t = (s.paste r c (i - lo) w f).paste r' c' (i - lo) w' g) Nat.one_pos
    (Nat.le_add_right lo h) (Nat.one_dvd _) hint
    (by rw [Nat.sub_self, Matrices.paste_none, Matrices.paste_none]) (by
      rintro i t hlo hle - rfl
      have hi : lo + (i - lo) = i := by omega
      have hnext : i + 1 - lo = i - lo + 1 := by omega
      have hone := hbody (i - lo) (by omega)
      rw [hi, Matrices.paste_comm r' (r + (i - lo)) (by omega), Matrices.paste_row,
        Matrices.paste_row, ← hnext] at hone
      exact ⟨_, hone, rfl⟩)
  obtain ⟨t, ht, rfl⟩ := hloop
  rw [ht, Nat.add_sub_cancel_left]

theorem forLoop_two_cols (hhi : hi = lo + w) (hint : hi ≤ intMax)
    (hapart : r + h ≤ r' ∨ r' + h' ≤ r ∨ c + w ≤ c' ∨ c' + w ≤ c)
    (hbody : ∀ k < w, body (lo + k) ((s.paste r c h k f).paste r' c' h' k g) =
      some ((((s.paste r c h k f).paste r' c' h' k g).paste r (c + k) h 1 fun x _ => f x k).paste
        r' (c' + k) h' 1 fun x _ => g x k)) :
    forLoop lo hi 1 body s = some ((s.paste r c h w f).paste r' c' h' w g) := by
  subst hhi
  have hloop := forLoop_exact (s := s) body
    (fun i t => t = (s.paste r c h (i - lo) f).paste r' c' h' (i - lo) g) Nat.one_pos
    (Nat.le_add_right lo w) (Nat.one_dvd _) hint
    (by rw [Nat.sub_self, Matrices.paste_none_right, Matrices.paste_none_right]) (by
      rintro i t hlo hle - rfl
      have hi : lo + (i - lo) = i := by omega
      have hnext : i + 1 - lo = i - lo + 1 := by omega
      have hone := hbody (i - lo) (by omega)
      rw [hi, Matrices.paste_comm r' r (by omega), Matrices.paste_col,
        Matrices.paste_col, ← hnext] at hone
      exact ⟨_, hone, rfl⟩)
  obtain ⟨t, ht, rfl⟩ := hloop
  rw [ht, Nat.add_sub_cancel_left]

/-! ## The transposed matrix -/

def Matrices.transposed (s : Matrices α) (M N : Nat) : Matrices α :=
  s.paste 0 0 M N fun r c => s.A c r

theorem Matrices.transposed_B (hr : r < M) (hc : c < N) : (s.transposed M N).B r c = s.A c r := by
  rw [Matrices.transposed, Matrices.paste_B, paste_in (by omega) (by omega)]
  rfl

theorem trans_eq (hM : M ≤ intMax) (hN : N ≤ intMax) :
    trans M N s = some (s.transposed M N) := by
  refine forLoop_each_col (Nat.zero_add N).symm hN fun i hi => ?_
  refine forLoop_each_row (Nat.zero_add M).symm hM fun j hj => ?_
  rw [loadA_eq ⟨by omega, by omega⟩]
  simp only [bind, Option.bind, Matrices.paste_A, Nat.zero_add]
  exact storeB_eq ⟨hj, hi⟩ _

end CsappLabs.Transpose
