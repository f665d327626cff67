import CsappLabs.Transpose.Ragged

/-!
# Matrices in larger arrays

`tracegen` hands over the beginning of arrays with 256 · 256 elements, where a
matrix lies row by row.  An access past the end of a row is one to the next row
there, and one past the last row is one behind the matrix.  `trans_61_67` ends
in an array that is large enough.
-/

namespace CsappLabs.Transpose

open CsappLabs.Foundation

variable {α : Type}

structure Arrays (α : Type) where
  A : Nat → α
  B : Nat → α

namespace Arrays

section

variable (size M N : Nat)

def loadA (row col : Nat) (s : Arrays α) : Option α :=
  if row * M + col < size then some (s.A (row * M + col)) else none

def loadsA (n : Nat) (row col : Nat → Nat) (s : Arrays α) : Option (Nat → α) :=
  if ∀ k < n, row k * M + col k < size then some fun k => s.A (row k * M + col k) else none

def storeB (row col : Nat) (v : α) (s : Arrays α) : Option (Arrays α) :=
  if row * N + col < size then
    some { s with B := fun k => if k = row * N + col then v else s.B k }
  else none

def stores (row col : Nat → Nat) (tmp : Nat → α) : Nat → Arrays α → Option (Arrays α)
  | 0, s => some s
  | n + 1, s => do storeB size N (row n) (col n) (tmp n) (← stores row col tmp n s)

/-- The body of the loops of `trans_61_67`. -/
def trans6167Block (i j : Nat) (s : Arrays α) : Option (Arrays α) := do
  let hi ← int (i + 8)
  let hj ← int (j + 23)
  if hi ≤ N ∧ hj ≠ 0 then
    forLoop j hj 1 (fun bj s => do
      let tmp ← loadsA size M 8 (fun k => i + k) (fun _ => bj) s
      stores size N (fun _ => bj) (fun k => i + k) tmp 8 s) s
  else
    forLoop i (min hi N) 1 (fun bi => forLoop j (min hj M) 1 fun bj s => do
      storeB size N bj bi (← loadA size M bi bj s) s) s

def trans6167 (s : Arrays α) : Option (Arrays α) :=
  forLoop 0 N 8 (fun i => forLoop 0 M 23 (trans6167Block size M N i)) s

def matrices (s : Arrays α) : Matrices α :=
  ⟨fun r c => s.A (r * M + c), fun r c => s.B (r * N + c)⟩

def put (s : Arrays α) (t : Matrices α) : Arrays α :=
  ⟨fun k => if k < N * M then t.A (k / M) (k % M) else s.A k,
    fun k => if k < M * N then t.B (k / N) (k % N) else s.B k⟩

/-- `transpose_submit`, where the functions for square matrices stay in these. -/
def transposeSubmit (s : Arrays α) : Option (Option (Arrays α)) :=
  if M = 32 ∧ N = 32 then (trans3232Opt M N (matrices M N s)).map fun t => some (put M N s t)
  else if M = 64 ∧ N = 64 then (trans6464 M N (matrices M N s)).map fun t => some (put M N s t)
  else if M = 61 ∧ N = 67 then (trans6167 size M N s).map some
  else some none

end

/-! ## The elements that have been moved -/

/-- Of each row `r` of `A` the first `u r` elements have been moved to `B`. -/
def moved (s : Arrays α) (M N : Nat) (u : Nat → Nat) : Arrays α :=
  { s with B := fun k => if k / N < u (k % N) then s.A (k % N * M + k / N) else s.B k }

/-- The `h` rows from `i` on have been moved up to the column `c`. -/
def upTo (u : Nat → Nat) (i h c : Nat) : Nat → Nat :=
  fun r => if i ≤ r ∧ r < i + h then c else u r

variable {size M N : Nat} {s s' t : Arrays α} {u v : Nat → Nat} {i j h c r n k : Nat}

theorem div_row (hr : r < N) : (c * N + r) / N = c := by
  rw [Nat.add_comm, Nat.add_mul_div_right r c (by omega), Nat.div_eq_of_lt hr, Nat.zero_add]

theorem mod_row (hr : r < N) : (c * N + r) % N = r := by
  rw [Nat.add_comm, Nat.add_mul_mod_self_right, Nat.mod_eq_of_lt hr]

theorem moved_congr (hN : 0 < N) (huv : ∀ r < N, u r = v r) : s.moved M N u = s.moved M N v := by
  unfold moved
  congr 1
  funext k
  rw [huv _ (Nat.mod_lt k hN)]

theorem moved_nothing (hN : 0 < N) (hu : ∀ r < N, u r = 0) : s.moved M N u = s := by
  rw [moved_congr hN hu]
  rfl

theorem moved_at (hr : r < N) (hc : c < u r) : (s.moved M N u).B (c * N + r) = s.A (r * M + c) := by
  simp only [moved, div_row hr, mod_row hr, if_pos hc]

theorem upTo_same (hu : ∀ r, i ≤ r → r < i + h → u r = c) : upTo u i h c = u := by
  funext r
  unfold upTo
  split
  next hin => exact (hu r hin.1 hin.2).symm
  next => rfl

theorem upTo_none : upTo u i 0 c = u := upTo_same fun r hle hlt => by omega

theorem upTo_again {d : Nat} : upTo (upTo u i h c) i h d = upTo u i h d := by
  funext r
  unfold upTo
  split
  next => rfl
  next => rfl

theorem upTo_row : upTo (upTo u i h c) (i + h) 1 c = upTo u i (h + 1) c := by
  funext r
  unfold upTo
  grind

theorem upTo_at (hle : i ≤ r) (hlt : r < i + h) : upTo u i h c r = c := if_pos ⟨hle, hlt⟩

theorem upTo_out (hout : r < i ∨ i + h ≤ r) : upTo u i h c r = u r := if_neg (by omega)

/-! ## One block -/

theorem storeB_moved (hr : r < N) (hu : u r = c) (hsize : c * N + r < size) :
    storeB size N c r (s.A (r * M + c)) (s.moved M N u) =
      some (s.moved M N (upTo u r 1 (c + 1))) := by
  rw [storeB, if_pos hsize]
  unfold moved
  congr 2
  funext k
  by_cases hk : k = c * N + r
  · subst hk
    rw [if_pos rfl, div_row hr, mod_row hr, upTo_at (by omega) (by omega), if_pos (by omega)]
  · rw [if_neg hk]
    by_cases hrow : k % N = r
    · -- another element of the row
      have hcol : k / N ≠ c := fun heq => hk (by rw [← heq, ← hrow, Nat.div_add_mod'])
      simp only [hrow, hu]
      rw [upTo_at (by omega) (by omega)]
      congr 1
      rw [eq_iff_iff]
      omega
    · rw [upTo_out (by omega)]

theorem stores_moved (hrows : i + n ≤ N) (hu : ∀ r, i ≤ r → r < i + n → u r = c)
    (hsize : c * N + (i + n) ≤ size) :
    stores size N (fun _ => c) (fun k => i + k) (fun k => s.A ((i + k) * M + c)) n
        (s.moved M N u) = some (s.moved M N (upTo u i n (c + 1))) := by
  induction n with
  | zero => rw [stores, upTo_none]
  | succ n ih =>
      have hrest := ih (by omega) (fun r hle hlt => hu r hle (by omega)) (by omega)
      have hrow : upTo u i n (c + 1) (i + n) = c := by
        rw [upTo_out (by omega)]
        exact hu _ (by omega) (by omega)
      simp only [stores, hrest, bind, Option.bind]
      rw [storeB_moved (by omega) hrow (by omega), upTo_row]

theorem fullBlock_moved (hrows : i + 8 ≤ N) (hint : j + 23 ≤ intMax)
    (hu : ∀ r, i ≤ r → r < i + 8 → u r = j)
    (hload : ∀ k < 8, ∀ c < j + 23, (i + k) * M + c < size)
    (hstore : ∀ c < j + 23, c * N + (i + 8) ≤ size) :
    forLoop j (j + 23) 1 (fun bj s => do
      let tmp ← loadsA size M 8 (fun k => i + k) (fun _ => bj) s
      stores size N (fun _ => bj) (fun k => i + k) tmp 8 s) (s.moved M N u) =
      some (s.moved M N (upTo u i 8 (j + 23))) := by
  have hloop := forLoop_exact (s := s.moved M N u)
    (fun bj s => do
      let tmp ← loadsA size M 8 (fun k => i + k) (fun _ => bj) s
      stores size N (fun _ => bj) (fun k => i + k) tmp 8 s)
    (fun bj t => t = s.moved M N (upTo u i 8 bj)) Nat.one_pos (Nat.le_add_right j 23)
    (Nat.one_dvd _) hint
    (by rw [upTo_same hu]) (by
      rintro bj t hlo hle - rfl
      have hloads : loadsA size M 8 (fun k => i + k) (fun _ => bj) (s.moved M N (upTo u i 8 bj)) =
          some fun k => s.A ((i + k) * M + bj) := if_pos fun k hk => hload k hk bj hle
      refine ⟨_, ?_, rfl⟩
      simp only [hloads, bind, Option.bind]
      rw [stores_moved hrows (fun r hle' hlt => upTo_at hle' hlt) (hstore bj (by omega)),
        upTo_again])
  obtain ⟨t, ht, rfl⟩ := hloop
  exact ht

theorem clippedRow_moved (hr : r < N) (hint : n ≤ intMax) (hu : u r = j) (hle : j ≤ n)
    (hload : ∀ c < n, r * M + c < size) (hstore : ∀ c < n, c * N + r < size) :
    forLoop j n 1 (fun bj s => do storeB size N bj r (← loadA size M r bj s) s)
        (s.moved M N u) = some (s.moved M N (upTo u r 1 n)) := by
  have hloop := forLoop_exact (s := s.moved M N u)
    (fun bj s => do storeB size N bj r (← loadA size M r bj s) s)
    (fun bj t => t = s.moved M N (upTo u r 1 bj)) Nat.one_pos hle (Nat.one_dvd _) hint
    (by rw [upTo_same fun r' hle' hlt => by rw [← hu]; congr 1; omega]) (by
      rintro bj t hlo hle' - rfl
      have hone : loadA size M r bj (s.moved M N (upTo u r 1 bj)) = some (s.A (r * M + bj)) :=
        if_pos (hload bj (by omega))
      refine ⟨_, ?_, rfl⟩
      simp only [hone, bind, Option.bind]
      rw [storeB_moved hr (upTo_at (by omega) (by omega)) (hstore bj (by omega)), upTo_again])
  obtain ⟨t, ht, rfl⟩ := hloop
  exact ht

structure Fits (size M N : Nat) : Prop where
  matrix : M * N ≤ size
  columns : 8 ≤ N → ((M + 22) / 23 * 23 - 1) * N + N / 8 * 8 ≤ size

theorem Fits.store (hfits : Fits size M N) (hr : r < N / 8 * 8) (hc : c < (M + 22) / 23 * 23) :
    c * N + r < size := by
  have hcolumns := hfits.columns (by omega)
  have hle : c * N ≤ ((M + 22) / 23 * 23 - 1) * N := Nat.mul_le_mul_right N (by omega)
  omega

theorem Fits.load (hfits : Fits size M N) (hr : r < N / 8 * 8) (hc : c < (M + 22) / 23 * 23) :
    r * M + c < size := by
  have hcolumns := hfits.columns (by omega)
  generalize hw : (M + 22) / 23 * 23 = w at hc hcolumns
  generalize hf : N / 8 * 8 = f at hr hcolumns
  -- the last element of a wide matrix with the full rows
  have hrow : r * M ≤ r * w := Nat.mul_le_mul_left r (by omega)
  have hrows : (r + 1) * w ≤ f * w := Nat.mul_le_mul_right w hr
  have hwide : (w - 1) * f ≤ (w - 1) * N := Nat.mul_le_mul_left (w - 1) (by omega)
  have hlast : (w - 1) * f + f = f * w := by
    rw [Nat.mul_comm f w, ← Nat.succ_mul, Nat.succ_eq_add_one, Nat.sub_add_cancel (by omega)]
  rw [Nat.succ_mul] at hrows
  omega

theorem Fits.store_matrix (hfits : Fits size M N) (hr : r < N) (hc : c < M) :
    c * N + r < size := by
  have hmatrix := hfits.matrix
  have hle : (c + 1) * N ≤ M * N := Nat.mul_le_mul_right N hc
  rw [Nat.succ_mul] at hle
  omega

theorem Fits.load_matrix (hfits : Fits size M N) (hr : r < N) (hc : c < M) :
    r * M + c < size := by
  have hmatrix := hfits.matrix
  have hle : (r + 1) * M ≤ N * M := Nat.mul_le_mul_right M hr
  rw [Nat.succ_mul, Nat.mul_comm N M] at hle
  omega

def blockEnd (M N i j : Nat) : Nat := if i + 8 ≤ N then j else min j M

theorem trans6167Block_moved (hfits : Fits size M N) (hi8 : i + 8 ≤ intMax)
    (hj23 : j + 23 ≤ intMax) (hi : 8 ∣ i) (hj : 23 ∣ j) (hiN : i < N) (hjM : j < M)
    (hu : ∀ r, i ≤ r → r < min (i + 8) N → u r = j) :
    trans6167Block size M N i j (s.moved M N u) =
      some (s.moved M N (upTo u i (min (i + 8) N - i) (blockEnd M N i (j + 23)))) := by
  simp only [trans6167Block, int, if_pos hi8, if_pos hj23, bind, Option.bind]
  by_cases hfull : i + 8 ≤ N
  · rw [if_pos (by omega), Nat.min_eq_left hfull, Nat.add_sub_cancel_left, blockEnd, if_pos hfull]
    refine fullBlock_moved hfull hj23 (fun r hle hlt => hu r hle (by omega)) ?_ ?_
    · intro k hk c hc
      exact hfits.load (by omega) (by omega)
    · intro c hc
      have hlast := hfits.store (c := c) (r := i + 7) (by omega) (by omega)
      omega
  · rw [if_neg (by omega), Nat.min_eq_right (by omega), blockEnd, if_neg hfull]
    have hint : N ≤ intMax := by omega
    have hloop := forLoop_exact (s := s.moved M N u)
      (fun bi => forLoop j (min (j + 23) M) 1 fun bj s => do
        storeB size N bj bi (← loadA size M bi bj s) s)
      (fun bi t => t = s.moved M N (upTo u i (bi - i) (min (j + 23) M))) Nat.one_pos
      (Nat.le_of_lt hiN) (Nat.one_dvd _) hint (by rw [Nat.sub_self, upTo_none]) (by
        rintro bi t hlo hle - rfl
        have hnext : bi + 1 - i = bi - i + 1 := by omega
        have hbi : i + (bi - i) = bi := by omega
        have hcol : upTo u i (bi - i) (min (j + 23) M) bi = j := by
          rw [upTo_out (by omega)]
          exact hu bi hlo (by omega)
        refine ⟨_, clippedRow_moved hle (by omega) hcol (by omega)
          (fun c hc => hfits.load_matrix hle (by omega))
          (fun c hc => hfits.store_matrix hle (by omega)), ?_⟩
        have hrow := upTo_row (u := u) (i := i) (h := bi - i) (c := min (j + 23) M)
        rw [hbi] at hrow
        rw [hnext, hrow])
    obtain ⟨t, ht, rfl⟩ := hloop
    exact ht

/-- Where the rows end: the full blocks go past the end of a row. -/
def reached (M N r : Nat) : Nat := if r < N / 8 * 8 then (M + 22) / 23 * 23 else M

theorem lt_reached (hc : c < M) : c < reached M N r := by
  unfold reached
  split
  next => omega
  next => exact hc

theorem trans6167Rows_moved (hfits : Fits size M N) (hM : M ≤ 2147483600) (hi8 : i + 8 ≤ intMax)
    (hi : 8 ∣ i) (hiN : i < N) (hu : ∀ r, i ≤ r → u r = 0) :
    forLoop 0 M 23 (trans6167Block size M N i) (s.moved M N u) =
      some (s.moved M N (upTo u i (min (i + 8) N - i) (reached M N i))) := by
  have hmax : intMax = 2147483647 := rfl
  have hstart : upTo u i (min (i + 8) N - i) (blockEnd M N i 0) = u :=
    upTo_same fun r hle _ => by simp [hu r hle, blockEnd]
  have hloop := forLoop_inv (s := s.moved M N u) (trans6167Block size M N i)
    (fun j t => j < M + 23 ∧
      t = s.moved M N (upTo u i (min (i + 8) N - i) (blockEnd M N i j)))
    (by decide : 0 < 23) ⟨Nat.succ_pos (M + 22), by rw [hstart]⟩ (by
      rintro j t - (hjM : j < M) hj ⟨-, rfl⟩
      have hone := trans6167Block_moved (s := s) hfits hi8 (j := j) (by omega) hi (by omega) hiN
        hjM (u := upTo u i (min (i + 8) N - i) (blockEnd M N i j)) (fun r hle hlt => by
          rw [upTo_at hle (by omega), blockEnd]
          split <;> omega)
      rw [upTo_again] at hone
      exact ⟨by omega, _, hone, by omega, rfl⟩)
  obtain ⟨j, t, ht, hge, -, hdvd, hlt, rfl⟩ := hloop
  rw [ht]
  have hend : blockEnd M N i j = reached M N i := by
    unfold blockEnd reached
    split
    next hfull =>
      rw [if_pos (by omega)]
      omega
    next hclip =>
      rw [if_neg (by omega)]
      omega
  rw [hend]

theorem trans6167_moved (hpos : 0 < N) (hfits : Fits size M N) (hM : M ≤ 2147483600)
    (hN : N ≤ 2147483600) : trans6167 size M N s = some (s.moved M N (reached M N)) := by
  have hmax : intMax = 2147483647 := rfl
  have hstart : s = s.moved M N fun r => if r < 0 then reached M N r else 0 :=
    (moved_nothing hpos fun r _ => if_neg (Nat.not_lt_zero r)).symm
  have hloop := forLoop_inv (fun i => forLoop 0 M 23 (trans6167Block size M N i))
    (fun i t => t = s.moved M N fun r => if r < i then reached M N r else 0)
    (by decide : 0 < 8) hstart (by
      rintro i t - (hiN : i < N) hi rfl
      have hone := trans6167Rows_moved (s := s) hfits hM (i := i) (by omega) (by omega) hiN
        (u := fun r => if r < i then reached M N r else 0) (fun r hle => if_neg (by omega))
      refine ⟨by omega, _, hone, moved_congr (by omega) fun r hr => ?_⟩
      by_cases hblock : i ≤ r ∧ r < i + 8
      · rw [upTo_at hblock.1 (by omega), if_pos hblock.2, reached, reached]
        congr 1
        rw [eq_iff_iff]
        omega
      · rw [upTo_out (by omega)]
        congr 1
        rw [eq_iff_iff]
        omega)
  obtain ⟨i, t, ht, hge, -, -, rfl⟩ := hloop
  rw [trans6167, ht, moved_congr (by omega) fun r hr => if_pos (by omega)]

/-! ## When a run ends -/

theorem stores_bounds {row col : Nat → Nat} {tmp : Nat → α}
    (h : stores size N row col tmp n s = some s') (hk : k < n) : row k * N + col k < size := by
  induction n generalizing s' with
  | zero => omega
  | succ n ih =>
      obtain ⟨t, ht, hstore⟩ := Option.bind_eq_some_iff.mp h
      by_cases hlast : k = n
      · subst hlast
        by_contra hout
        rw [storeB, if_neg hout] at hstore
        cases hstore
      · exact ih ht (by omega)

theorem trans6167Block_columns (hi : i + 8 ≤ N) (h : trans6167Block size M N i j s = some s') :
    (j + 22) * N + (i + 7) < size := by
  obtain ⟨hi8, hint, hrest⟩ := Option.bind_eq_some_iff.mp h
  obtain ⟨hj23, hint', hloop⟩ := Option.bind_eq_some_iff.mp hrest
  obtain ⟨-, rfl⟩ := int_eq_some.mp hint
  obtain ⟨-, rfl⟩ := int_eq_some.mp hint'
  rw [if_pos (by omega)] at hloop
  obtain ⟨-, t, t', hturn⟩ := forLoop_ok (k := 22) hloop (by omega)
  obtain ⟨tmp, -, hstores⟩ := Option.bind_eq_some_iff.mp hturn
  have hbound := stores_bounds hstores (k := 7) (by decide)
  rwa [Nat.mul_one] at hbound

theorem trans6167Block_matrix (hi : i < N) (hi8 : N < i + 8) (hj : j < M) (hj23 : M ≤ j + 23)
    (h : trans6167Block size M N i j s = some s') : (M - 1) * N + (N - 1) < size := by
  obtain ⟨hi8', hint, hrest⟩ := Option.bind_eq_some_iff.mp h
  obtain ⟨hj23', hint', hloop⟩ := Option.bind_eq_some_iff.mp hrest
  obtain ⟨-, rfl⟩ := int_eq_some.mp hint
  obtain ⟨-, rfl⟩ := int_eq_some.mp hint'
  rw [if_neg (by omega), Nat.min_eq_right (by omega)] at hloop
  obtain ⟨-, t, t', hrow⟩ := forLoop_ok (k := N - 1 - i) hloop (by omega)
  rw [Nat.min_eq_right hj23] at hrow
  obtain ⟨-, r, r', hturn⟩ := forLoop_ok (k := M - 1 - j) hrow (by omega)
  obtain ⟨v, -, hstore⟩ := Option.bind_eq_some_iff.mp hturn
  by_contra hout
  have hcol : j + (M - 1 - j) * 1 = M - 1 := by omega
  have hlast : i + (N - 1 - i) * 1 = N - 1 := by omega
  rw [hcol, hlast, storeB, if_neg hout] at hstore
  cases hstore

theorem trans6167_fits (hM : 0 < M) (hN : 0 < N) (h : trans6167 size M N s = some s') :
    Fits size M N := by
  have hlastM : 0 + (M - 1) / 23 * 23 < M := by omega
  have hcolumns : 8 ≤ N → ((M + 22) / 23 * 23 - 1) * N + N / 8 * 8 ≤ size := by
    intro h8
    obtain ⟨-, t, t', hrow⟩ := forLoop_ok (k := N / 8 - 1) h (by omega)
    obtain ⟨-, u, u', hblock⟩ := forLoop_ok hrow hlastM
    have hbound := trans6167Block_columns (by omega) hblock
    rw [show 0 + (M - 1) / 23 * 23 + 22 = (M + 22) / 23 * 23 - 1 by omega] at hbound
    omega
  refine ⟨?_, hcolumns⟩
  have hmul : (M - 1) * N + N = M * N := by
    rw [← Nat.succ_mul, Nat.succ_eq_add_one, Nat.sub_add_cancel hM]
  by_cases hclip : N / 8 * 8 = N
  · have hle : (M - 1) * N ≤ ((M + 22) / 23 * 23 - 1) * N := Nat.mul_le_mul_right N (by omega)
    have hwide := hcolumns (by omega)
    omega
  · obtain ⟨-, t, t', hrow⟩ := forLoop_ok (k := N / 8) h (by omega)
    obtain ⟨-, u, u', hblock⟩ := forLoop_ok hrow hlastM
    have hbound := trans6167Block_matrix (by omega) (by omega) hlastM (by omega) hblock
    omega

/-- `trans_61_67` ends if and only if the blocks lie in the array.  It leaves the
transpose of `A` then, and behind it the elements of the columns that a full
block takes past the end of a row. -/
theorem behind_the_matrix (hM : 0 < M) (hN : 0 < N) (hsize : size ≤ 2147483600) (s : Arrays α) :
    ((∃ s', trans6167 size M N s = some s') ↔ Fits size M N) ∧
      ∀ s', trans6167 size M N s = some s' →
        s'.A = s.A ∧ (∀ r < N, ∀ c < M, s'.B (c * N + r) = s.A (r * M + c)) ∧
        ∀ k, M * N ≤ k → s'.B k =
          if k / N < (M + 22) / 23 * 23 ∧ k % N < N / 8 * 8 then s.A (k % N * M + k / N)
          else s.B k := by
  have hrun : Fits size M N → trans6167 size M N s = some (s.moved M N (reached M N)) := by
    intro hfits
    have hleM : M * 1 ≤ M * N := Nat.mul_le_mul_left M hN
    have hleN : 1 * N ≤ M * N := Nat.mul_le_mul_right N hM
    have hmatrix := hfits.matrix
    exact trans6167_moved hN hfits (by omega) (by omega)
  refine ⟨⟨?_, fun hfits => ⟨_, hrun hfits⟩⟩, ?_⟩
  · rintro ⟨s', h⟩
    exact trans6167_fits hM hN h
  · intro s' h
    rw [hrun (trans6167_fits hM hN h)] at h
    cases h
    refine ⟨rfl, ?_, ?_⟩
    · intro r hr c hc
      exact moved_at hr (lt_reached hc)
    · intro k hk
      have hcol : M ≤ k / N := (Nat.le_div_iff_mul_le hN).mpr hk
      have hback : k / N < reached M N (k % N) ↔
          k / N < (M + 22) / 23 * 23 ∧ k % N < N / 8 * 8 := by
        unfold reached
        split
        next hfull => simp [hfull]
        next hclip => omega
      simp only [moved, hback]

theorem behind_the_matrix_61_67 :
    ((∃ s', trans6167 65536 61 67 (⟨fun k => k, fun _ => 0⟩ : Arrays Nat) = some s') ↔
        Fits 65536 61 67) ∧
      ∀ s', trans6167 65536 61 67 (⟨fun k => k, fun _ => 0⟩ : Arrays Nat) = some s' →
        (s'.A = fun k => k) ∧ (∀ r < 67, ∀ c < 61, s'.B (c * 67 + r) = r * 61 + c) ∧
        ∀ k, 61 * 67 ≤ k → s'.B k =
          if k / 67 < (61 + 22) / 23 * 23 ∧ k % 67 < 67 / 8 * 8 then k % 67 * 61 + k / 67
          else 0 :=
  behind_the_matrix (by decide) (by decide) (by decide) _

/-! ## Submissions that stay in the matrices -/

theorem put_matrices (s : Arrays α) (u : Matrices α) :
    (∀ r < N, ∀ c < M, ((s.put M N u).matrices M N).A r c = u.A r c) ∧
      ∀ r < M, ∀ c < N, ((s.put M N u).matrices M N).B r c = u.B r c := by
  have hplace : ∀ {h w r c : Nat}, r < h → c < w → r * w + c < h * w := by
    intro h w r c hr hc
    have hle : (r + 1) * w ≤ h * w := Nat.mul_le_mul_right w hr
    rw [Nat.succ_mul] at hle
    omega
  constructor
  · intro r hr c hc
    simp only [matrices, put, if_pos (hplace hr hc), div_row hc, mod_row hc]
  · intro r hr c hc
    simp only [matrices, put, if_pos (hplace hr hc), div_row hc, mod_row hc]

theorem transposeSubmit_square (hMN : M = N) (h : N = 32 ∨ N = 64)
    (s : Arrays α) : s.transposeSubmit size M N =
      some (some (s.put M N ((s.matrices M N).transposed M N))) := by
  subst hMN
  rcases h with rfl | rfl
  · rw [transposeSubmit, if_pos (by decide),
      trans3232Opt_eq (by decide) (by decide) (by decide) (by decide)]
    rfl
  · rw [transposeSubmit, if_neg (by decide), if_pos (by decide),
      trans6464_eq (by decide) (by decide) (by decide)]
    rfl

end Arrays

end CsappLabs.Transpose
