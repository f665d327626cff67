import CsappLabs.Transpose.Mirror

/-!
# The transposition with scratch space

`trans_64_64` goes through the rows of blocks of `B`.  The block on the
diagonal is built first, with the upper half of another block of the row as
scratch space; the other blocks of the row are written after that.
-/

namespace CsappLabs.Transpose

open CsappLabs.Foundation

variable {α : Type} {M N i j x y r c : Nat} {s t : Matrices α} {A : Nat → Nat → α}

theorem mirror_left (f : Nat → Nat → α) (hy : y < 4) : mirror 4 f x y = f y x := by
  unfold mirror
  congr 1 <;> omega

theorem mirror_right (f : Nat → Nat → α) (hy : y < 4) :
    mirror 4 f x (4 + y) = f y (4 + x) := by
  unfold mirror
  congr 1 <;> omega

/-! ## The block on the diagonal -/

theorem shift_lower_half (hN : N ≤ intMax) (hM : i + 8 ≤ M) (hi : i + 8 ≤ N) (hj : j + 8 ≤ N) :
    forLoop i (i + 4) 1 (fun bi => moveRow M N (bi + 4) i bi j) s =
      some (s.paste i j 4 8 fun x y => s.A (i + x + 4) (i + y)) := by
  refine forLoop_each_row rfl (by omega) fun k hk => ?_
  rw [moveRow_eq (by omega) hM (by omega) hj]
  rfl

theorem copy_upper_half (hN : N ≤ intMax) (hM : i + 8 ≤ M) (hi : i + 8 ≤ N) :
    forLoop i (i + 4) 1 (fun bi => moveRow M N bi i bi i) s =
      some (s.paste i i 4 8 fun x y => s.A (i + x) (i + y)) := by
  refine forLoop_each_row rfl (by omega) fun k hk => ?_
  rw [moveRow_eq (by omega) hM (by omega) hi]
  rfl

theorem mirror_scratch (hM : i + 8 ≤ M) (hj : j + 8 ≤ N) (f : Nat → Nat → α) :
    forLoop 0 4 1 (fun bi => forLoop (bi + 1) 4 1 fun bj s => do
      let s ← swap M N (i + bi) (j + bj) (i + bj) (j + bi) s
      swap M N (i + bi) (j + bj + 4) (i + bj) (j + bi + 4) s) (s.paste i j 4 8 f) =
        some (s.paste i j 4 8 (mirror 4 f)) := by
  refine mirror_loops (show 0 + 4 ≤ intMax by decide) fun a b hab hb => ?_
  rw [Nat.zero_add, Nat.zero_add,
    swap_paste (by omega) hj (by omega) (by omega) hb (by omega)]
  simp only [bind, Option.bind, Nat.add_assoc j]
  rw [swap_paste (by omega) hj (by omega) (by omega) hb (by omega)]
  exact congrArg some (Matrices.paste_congr fun x hx y hy => exchange_mirrored_two hab hb hx hy)

theorem mirror_upper_half (hN : N ≤ intMax) (hM : i + 8 ≤ M) (hi : i + 8 ≤ N) (f : Nat → Nat → α) :
    forLoop i (i + 4) 1 (fun bi => forLoop (bi + 1) (i + 4) 1 fun bj s => do
      let s ← swap M N bi bj bj bi s
      swap M N bi (bj + 4) bj (bi + 4) s) (s.paste i i 4 8 f) =
        some (s.paste i i 4 8 (mirror 4 f)) := by
  refine mirror_loops (by omega) fun a b hab hb => ?_
  rw [swap_paste (by omega) hi (by omega) (by omega) hb (by omega)]
  simp only [bind, Option.bind, Nat.add_assoc i]
  rw [swap_paste (by omega) hi (by omega) (by omega) hb (by omega)]
  exact congrArg some (Matrices.paste_congr fun x hx y hy => exchange_mirrored_two hab hb hx hy)

theorem exchange_quarters (hM : i + 8 ≤ M) (hi : i + 8 ≤ N) (hj : j + 8 ≤ N)
    (hapart : j + 8 ≤ i ∨ i + 8 ≤ j) :
    forLoop 0 4 1 (fun bi s => do
      let tmp ← loadsB M N 4 (fun _ => i + bi) (fun k => i + 4 + k) s
      let s ← moves M N (fun _ => i + bi) (fun k => i + 4 + k) (fun _ => i + bi)
        (fun k => j + k) 4 s
      stores M N (fun _ => i + bi) (fun k => j + k) tmp 4 s) s =
        some ((s.paste i (i + 4) 4 4 fun x y => s.B (i + x) (j + y)).paste i j 4 4
          fun x y => s.B (i + x) (i + 4 + y)) := by
  refine forLoop_two_rows (Nat.zero_add 4).symm (by decide) (by omega) fun k hk => ?_
  rw [Nat.zero_add, loadsB_eq (fun y hy => ⟨by omega, by omega⟩)]
  simp only [bind, Option.bind]
  -- the rows that are still to come are those of `s`
  have hrow : ∀ c, ((s.paste i (i + 4) k 4 fun x y => s.B (i + x) (j + y)).paste i j k 4
      fun x y => s.B (i + x) (i + 4 + y)).B (i + k) c = s.B (i + k) c := by
    intro c
    simp only [Matrices.paste_B]
    rw [paste_out (by omega), paste_out (by omega)]
  rw [moves_row (by omega) (by omega) (by omega) (by omega) (by omega)]
  simp only [hrow]
  exact stores_row (by omega) (by omega)

theorem fill_lower_half (hM : i + 8 ≤ M) (hi : i + 8 ≤ N) (hj : j + 8 ≤ N) :
    forLoop 0 4 1 (fun bi => moves M N (fun _ => i + bi + 4) (fun k => i + k) (fun _ => i + bi)
      (fun k => j + k) 8) s =
        some (s.paste (i + 4) i 4 8 fun x y => s.B (i + x) (j + y)) := by
  refine forLoop_each_row (Nat.zero_add 4).symm (by decide) fun k hk => ?_
  rw [Nat.zero_add, moves_row (by omega) hi (by omega) hj (by omega), Nat.add_right_comm]
  congr 2
  funext x y
  simp only [Matrices.paste_B]
  rw [paste_out (by omega)]

/-- The lower half of the block in the scratch space, the upper half in place. -/
def Matrices.halves (s : Matrices α) (i j : Nat) : Matrices α :=
  (s.paste i j 4 8 (mirror 4 fun x y => s.A (i + x + 4) (i + y))).paste i i 4 8
    (mirror 4 fun x y => s.A (i + x) (i + y))

/-- The block on the diagonal after the quarters are exchanged and the lower
half is filled. -/
def Matrices.diagonal (s : Matrices α) (i j : Nat) : Matrices α :=
  let s := s.halves i j
  let s := (s.paste i (i + 4) 4 4 fun x y => s.B (i + x) (j + y)).paste i j 4 4
    fun x y => s.B (i + x) (i + 4 + y)
  s.paste (i + 4) i 4 8 fun x y => s.B (i + x) (j + y)

theorem diagonalBlock_eq (hN : N ≤ intMax) (hM : i + 8 ≤ M) (hi : i + 8 ≤ N) (hj : j + 8 ≤ N)
    (hapart : j + 8 ≤ i ∨ i + 8 ≤ j) : diagonalBlock M N i j s = some (s.diagonal i j) := by
  refine Option.bind_eq_some_iff.mpr ⟨_, shift_lower_half hN hM hi hj, ?_⟩
  refine Option.bind_eq_some_iff.mpr ⟨_, mirror_scratch hM hj _, ?_⟩
  refine Option.bind_eq_some_iff.mpr ⟨_, copy_upper_half hN hM hi, ?_⟩
  refine Option.bind_eq_some_iff.mpr ⟨_, mirror_upper_half hN hM hi _, ?_⟩
  refine Option.bind_eq_some_iff.mpr ⟨_, exchange_quarters hM hi hj hapart, ?_⟩
  exact fill_lower_half hM hi hj

theorem halves_scratch (hapart : j + 8 ≤ i ∨ i + 8 ≤ j) (hx : x < 4) (hy : y < 8) :
    (s.halves i j).B (i + x) (j + y) = mirror 4 (fun x y => s.A (i + x + 4) (i + y)) x y := by
  simp only [Matrices.halves, Matrices.paste_B]
  rw [paste_out (by omega), paste_at hx hy]

theorem halves_upper (hx : x < 4) (hy : y < 8) :
    (s.halves i j).B (i + x) (i + y) = mirror 4 (fun x y => s.A (i + x) (i + y)) x y := by
  simp only [Matrices.halves, Matrices.paste_B]
  rw [paste_at hx hy]

theorem diagonal_in (hapart : j + 8 ≤ i ∨ i + 8 ≤ j) (hx : x < 8) (hy : y < 8) :
    (s.diagonal i j).B (i + x) (i + y) = s.A (i + y) (i + x) := by
  simp only [Matrices.diagonal]
  simp only [Matrices.paste_B]
  by_cases hx4 : x < 4
  · rw [paste_out (by omega), paste_out (by omega)]
    by_cases hy4 : y < 4
    · rw [paste_out (by omega), halves_upper hx4 hy, mirror_left _ hy4]
    · -- the upper right quarter comes from the scratch space
      obtain ⟨z, rfl⟩ := Nat.exists_eq_add_of_le (Nat.not_lt.mp hy4)
      rw [← Nat.add_assoc, paste_at hx4 (by omega), halves_scratch hapart hx4 (by omega),
        mirror_left _ (by omega), Nat.add_right_comm]
  · -- the lower half is what the scratch space holds at the end
    obtain ⟨z, rfl⟩ := Nat.exists_eq_add_of_le (Nat.not_lt.mp hx4)
    rw [← Nat.add_assoc, paste_at (by omega) hy]
    by_cases hy4 : y < 4
    · rw [paste_at (by omega) hy4, Nat.add_assoc, halves_upper (by omega) (by omega),
        mirror_right _ hy4, Nat.add_assoc]
    · obtain ⟨z', rfl⟩ := Nat.exists_eq_add_of_le (Nat.not_lt.mp hy4)
      rw [paste_out (by omega), paste_out (by omega), halves_scratch hapart (by omega) hy,
        mirror_right _ (by omega)]
      congr 1
      · omega
      · omega

theorem diagonal_out (hout : r < i ∨ i + 8 ≤ r ∨ (c < i ∨ i + 8 ≤ c) ∧ (c < j ∨ j + 8 ≤ c)) :
    (s.diagonal i j).B r c = s.B r c := by
  simp only [Matrices.diagonal, Matrices.halves, Matrices.paste_B]
  rw [paste_out (by omega), paste_out (by omega), paste_out (by omega), paste_out (by omega),
    paste_out (by omega)]

/-! ## The other blocks -/

theorem spread_upper_half (hN : N ≤ intMax) (hi : i + 8 ≤ M) (hj : j + 8 ≤ N) :
    forLoop j (j + 4) 1 (fun bi s => do
      let tmp ← loadsA M N 8 (fun _ => bi) (fun k => i + k) s
      let s ← stores M N (fun k => i + k) (fun _ => bi) tmp 4 s
      stores M N (fun k => i + k) (fun _ => bi + 4) (fun k => tmp (k + 4)) 4 s) s =
        some ((s.paste i j 4 4 fun x y => s.A (j + y) (i + x)).paste i (j + 4) 4 4
          fun x y => s.A (j + y) (i + (x + 4))) := by
  refine forLoop_two_cols rfl (by omega) (by omega) fun k hk => ?_
  rw [loadsA_eq (fun x hx => ⟨by omega, by omega⟩)]
  simp only [bind, Option.bind]
  rw [stores_col (by omega) (by omega)]
  simp only []
  rw [stores_col (by omega) (by omega), Nat.add_right_comm j k 4]
  rfl

theorem move_quarter (hM : M ≤ intMax) (hi : i + 8 ≤ M) (hj : j + 8 ≤ N) :
    forLoop i (i + 4) 1 (fun bj s => do
      let tmp ← loadsA M N 4 (fun k => j + 4 + k) (fun _ => bj) s
      let tmp' ← loadsB M N 4 (fun _ => bj) (fun k => j + 4 + k) s
      let s ← stores M N (fun _ => bj) (fun k => j + 4 + k) tmp 4 s
      stores M N (fun _ => bj + 4) (fun k => j + k) tmp' 4 s) s =
        some ((s.paste i (j + 4) 4 4 fun x y => s.A (j + 4 + y) (i + x)).paste (i + 4) j 4 4
          fun x y => s.B (i + x) (j + 4 + y)) := by
  refine forLoop_two_rows rfl (by omega) (by omega) fun k hk => ?_
  -- the rows that are still to come are those of `s`
  have hrow : ∀ c, ((s.paste i (j + 4) k 4 fun x y => s.A (j + 4 + y) (i + x)).paste (i + 4) j k 4
      fun x y => s.B (i + x) (j + 4 + y)).B (i + k) c = s.B (i + k) c := by
    intro c
    simp only [Matrices.paste_B]
    rw [paste_out (by omega), paste_out (by omega)]
  rw [loadsA_eq (fun x hx => ⟨by omega, by omega⟩), loadsB_eq (fun x hx => ⟨by omega, by omega⟩)]
  simp only [bind, Option.bind, hrow]
  rw [stores_row (by omega) (by omega)]
  simp only []
  rw [stores_row (by omega) (by omega), Nat.add_right_comm i k 4]
  rfl

theorem fill_last_quarter (hN : N ≤ intMax) (hi : i + 8 ≤ M) (hj : j + 8 ≤ N) :
    forLoop (j + 4) (j + 8) 1 (fun bi s => do
      let tmp ← loadsA M N 4 (fun _ => bi) (fun k => i + 4 + k) s
      stores M N (fun k => i + 4 + k) (fun _ => bi) tmp 4 s) s =
        some (s.paste (i + 4) (j + 4) 4 4 fun x y => s.A (j + 4 + y) (i + 4 + x)) := by
  refine forLoop_each_col rfl (by omega) fun k hk => ?_
  rw [loadsA_eq (fun x hx => ⟨by omega, by omega⟩)]
  simp only [bind, Option.bind]
  exact stores_col (by omega) (by omega)

theorem offDiagonalBlock_eq (hN : N ≤ intMax) (hM : M ≤ intMax) (hi : i + 8 ≤ M)
    (hj : j + 8 ≤ N) :
    offDiagonalBlock M N i j s = some (s.paste i j 8 8 fun x y => s.A (j + y) (i + x)) := by
  refine Option.bind_eq_some_iff.mpr ⟨_, spread_upper_half hN hi hj, ?_⟩
  refine Option.bind_eq_some_iff.mpr ⟨_, move_quarter hM hi hj, ?_⟩
  rw [fill_last_quarter hN hi hj]
  simp only [Matrices.paste]
  congr 2
  funext r c
  by_cases hin : i ≤ r ∧ r < i + 8 ∧ j ≤ c ∧ c < j + 8
  · obtain ⟨x, rfl⟩ := Nat.exists_eq_add_of_le hin.1
    obtain ⟨y, rfl⟩ := Nat.exists_eq_add_of_le hin.2.2.1
    rw [paste_at (r := i) (w := 8) (by omega) (by omega)]
    by_cases hx : x < 4
    · by_cases hy : y < 4
      · rw [paste_out (by omega), paste_out (by omega), paste_out (by omega),
          paste_out (by omega), paste_at hx hy]
      · obtain ⟨y, rfl⟩ := Nat.exists_eq_add_of_le (Nat.not_lt.mp hy)
        rw [← Nat.add_assoc j, paste_out (by omega), paste_out (by omega),
          paste_at hx (by omega)]
    · obtain ⟨x, rfl⟩ := Nat.exists_eq_add_of_le (Nat.not_lt.mp hx)
      rw [← Nat.add_assoc i]
      by_cases hy : y < 4
      · -- the quarter that was stored beside its place
        rw [paste_out (by omega), paste_at (by omega) hy, paste_at (by omega) hy,
          Nat.add_comm x 4, Nat.add_assoc]
      · obtain ⟨y, rfl⟩ := Nat.exists_eq_add_of_le (Nat.not_lt.mp hy)
        rw [← Nat.add_assoc j, paste_at (by omega) (by omega)]
  · rw [paste_out (by omega), paste_out (by omega), paste_out (by omega), paste_out (by omega),
      paste_out (by omega), paste_out (by omega)]

/-! ## The rows of blocks -/

/-- Rows `i` to `i + 7` of `B` while the loop over `j` runs: the block on the
diagonal and the blocks in front of `j` are final, the scratch space is not. -/
structure RowBlock (n i : Nat) (s : Matrices α) (j : Nat) (t : Matrices α) : Prop where
  A : t.A = s.A
  done : ∀ r c, i ≤ r → r < i + 8 → c < n → c < j ∨ i ≤ c ∧ c < i + 8 → t.B r c = s.A c r
  outside : ∀ r c, r < i ∨ i + 8 ≤ r ∨ n ≤ c → t.B r c = s.B r c

variable {n : Nat}

theorem RowBlock.start (hn : n ≤ intMax) (hi : i + 8 ≤ n) (hj : j + 8 ≤ n)
    (hapart : j + 8 ≤ i ∨ i + 8 ≤ j) :
    ∃ t, diagonalBlock n n i j s = some t ∧ RowBlock n i s 0 t := by
  refine ⟨_, diagonalBlock_eq hn hi hi hj hapart, rfl, fun r c hr hr' _ hc => ?_, fun r c hout => ?_⟩
  · obtain ⟨x, rfl⟩ := Nat.exists_eq_add_of_le hr
    obtain ⟨y, rfl⟩ := Nat.exists_eq_add_of_le (show i ≤ c by omega)
    exact diagonal_in hapart (by omega) (by omega)
  · exact diagonal_out (by omega)

theorem RowBlock.next (h : RowBlock n i s j t) (hn : n ≤ intMax) (hi : i + 8 ≤ n) (hj : j + 8 ≤ n) :
    ∃ t', (if i = j then some t else offDiagonalBlock n n i j t) = some t' ∧
      RowBlock n i s (j + 8) t' := by
  by_cases hij : i = j
  · rw [if_pos hij]
    exact ⟨t, rfl, h.A, fun r c hr hr' hc hcj => h.done r c hr hr' hc (by omega), h.outside⟩
  · rw [if_neg hij, offDiagonalBlock_eq hn hn hi hj]
    refine ⟨_, rfl, h.A, fun r c hr hr' hc hcj => ?_, fun r c hout => ?_⟩
    · rw [Matrices.paste_B]
      by_cases hblock : j ≤ c ∧ c < j + 8
      · rw [paste_in ⟨hr, hr'⟩ hblock, Nat.add_sub_cancel' hr, Nat.add_sub_cancel' hblock.1, h.A]
      · rw [paste_out (by omega), h.done r c hr hr' hc (by omega)]
    · rw [Matrices.paste_B, paste_out (by omega), h.outside r c hout]

theorem RowBlock.finish (h : RowBlock n i s n t) :
    t = s.paste i 0 8 n fun x y => s.A y (i + x) := by
  obtain ⟨A, B⟩ := t
  obtain rfl : A = s.A := h.A
  rw [Matrices.paste]
  congr 1
  funext r c
  by_cases hin : i ≤ r ∧ r < i + 8 ∧ c < n
  · rw [paste_in (by omega) (by omega), Nat.add_sub_cancel' hin.1, Nat.sub_zero]
    exact h.done r c hin.1 hin.2.1 hin.2.2 (.inl hin.2.2)
  · rw [paste_out (by omega)]
    exact h.outside r c (by omega)

theorem trans6464_eq (hn : n ≤ intMax) (h8 : 8 ∣ n) (h16 : 16 ≤ n) :
    trans6464 n n s = some (s.transposed n n) := by
  refine forLoop_rows (by decide) h8 (Nat.zero_add n).symm hn fun i h8i hi => ?_
  rw [Nat.zero_add]
  have hscratch : (if i = 0 then 8 else 0) + 8 ≤ i ∨ i + 8 ≤ if i = 0 then 8 else 0 := by
    split <;> omega
  obtain ⟨t, ht, hstart⟩ := RowBlock.start (s := s.paste 0 0 i n fun r c => s.A c r) hn hi
    (show (if i = 0 then 8 else 0) + 8 ≤ n by split <;> omega) hscratch
  have hloop := forLoop_exact (s := t)
    (fun j s => if i = j then some s else offDiagonalBlock n n i j s)
    (RowBlock n i (s.paste 0 0 i n fun r c => s.A c r)) (by decide : 0 < 8) (Nat.zero_le n) h8 hn
    hstart fun j t _ hj h8j h =>
      h.next hn hi hj
  obtain ⟨u, hu, hrow⟩ := hloop
  exact Option.bind_eq_some_iff.mpr ⟨t, ht, hu.trans (congrArg some hrow.finish)⟩

/-- For every square matrix whose dimension is a multiple of 8 and at least 16
the transposition accesses no element out of bounds, keeps `A`, and transposes
whatever `B` holds before. -/
theorem square_transposed (hn : n ≤ intMax) (h8 : 8 ∣ n) (h16 : 16 ≤ n) (s : Matrices α) :
    ∃ s', trans6464 n n s = some s' ∧ s'.A = s.A ∧ ∀ r < n, ∀ c < n, s'.B c r = s.A r c :=
  ⟨_, trans6464_eq hn h8 h16, rfl, fun _ hr _ hc => Matrices.transposed_B hc hr⟩

theorem square_transposed_16 :
    ∃ s', trans6464 16 16 (⟨fun r c => 100 * r + c, fun _ _ => 7⟩ : Matrices Nat) = some s' ∧
      (s'.A = fun r c => 100 * r + c) ∧ ∀ r < 16, ∀ c < 16, s'.B c r = 100 * r + c :=
  square_transposed (by decide) (by decide) (by decide) _

end CsappLabs.Transpose
