import CsappLabs.Transpose.Opt
import CsappLabs.Transpose.Scratch

/-!
# The transposition of ragged blocks

`trans_61_67` clips the blocks at the last rows of `A`.  A block of eight full
rows is taken to be complete, although its 23 columns can go past the end of a
row.
-/

namespace CsappLabs.Transpose

open CsappLabs.Foundation

variable {α : Type} {M N i j : Nat} {s s' t : Matrices α}

/-! ## Blocks that are clipped or complete -/

theorem trans6167Block_eq (hM : M ≤ intMax) (hi : i < N) (hj : j < M) (hi8 : i + 8 ≤ intMax)
    (hj23 : j + 23 ≤ intMax) (hclip : N < i + 8 ∨ j + 23 ≤ M) :
    trans6167Block M N i j s =
      some (s.paste j i (min (j + 23) M - j) (min (i + 8) N - i) fun x y => s.A (i + y) (j + x)) := by
  simp only [trans6167Block, int, if_pos hi8, if_pos hj23, bind, Option.bind]
  by_cases hfull : i + 8 ≤ N ∧ j + 23 ≤ M
  · rw [if_pos (by omega), Nat.min_eq_left hfull.1, Nat.min_eq_left hfull.2,
      Nat.add_sub_cancel_left, Nat.add_sub_cancel_left]
    refine forLoop_each_row rfl hj23 fun k hk => ?_
    rw [loadsA_eq (fun x hx => ⟨by omega, by omega⟩)]
    exact stores_row (by omega) hfull.1
  · rw [if_neg (by omega)]
    refine forLoop_each_col (by omega) (by omega) fun k hk => ?_
    refine forLoop_each_row (by omega) (by omega) fun k' hk' => ?_
    rw [loadA_eq ⟨by omega, by omega⟩]
    exact storeB_eq ⟨by omega, by omega⟩ _

theorem trans6167_eq (hclip : N < 8 ∨ 23 ∣ M) (hM : M ≤ 2147483642) (hN : N ≤ 2147483640) :
    trans6167 M N s = some (s.transposed M N) := by
  have hmax : intMax = 2147483647 := rfl
  refine forLoop_clipped_cols (by decide) (fun i hi h8 => by omega) fun i hi h8 => ?_
  refine forLoop_clipped_rows (by decide) (fun j hj h23 => by omega) fun j hj h23 => ?_
  rw [trans6167Block_eq (by omega) hi hj (by omega) (by omega) (by omega)]
  rfl

/-! ## Blocks that go past the end of a row -/

theorem trans6167Block_columns (hi : i + 8 ≤ N) (h : trans6167Block M N i j s = some s') :
    j + 23 ≤ M := by
  by_contra hlt
  obtain ⟨hi8, hint, hrest⟩ := Option.bind_eq_some_iff.mp h
  obtain ⟨hj23, hint', hloop⟩ := Option.bind_eq_some_iff.mp hrest
  obtain ⟨-, rfl⟩ := int_eq_some.mp hint
  obtain ⟨-, rfl⟩ := int_eq_some.mp hint'
  rw [if_pos (by omega)] at hloop
  -- the last column of the block is not one of the matrix
  obtain ⟨-, t, t', hturn⟩ := forLoop_ok (k := 22) hloop (by omega)
  obtain ⟨tmp, htmp, -⟩ := Option.bind_eq_some_iff.mp hturn
  have hbound := loadsA_bounds htmp
  have hcol := (hbound 0 (by decide)).2
  omega

theorem trans6167_last (hM : 0 < M) (hN : 0 < N) (h : trans6167 M N s = some s') :
    M ≤ 2147483642 ∧ N ≤ 2147483640 := by
  have hmax : intMax = 2147483647 := rfl
  have hlastN : 0 + (N - 1) / 8 * 8 < N := by omega
  have hlastM : 0 + (M - 1) / 23 * 23 < M := by omega
  obtain ⟨hiN, t, t', hrow⟩ := forLoop_ok h hlastN
  obtain ⟨hjM, -⟩ := forLoop_ok hrow hlastM
  constructor <;> omega

theorem trans6167_columns (hN : 8 ≤ N) (h : trans6167 M N s = some s') : 23 ∣ M := by
  by_contra hdvd
  have hlast : 0 + M / 23 * 23 < M := by omega
  obtain ⟨-, t, t', hrow⟩ := forLoop_ok (k := 0) h (by omega)
  obtain ⟨-, u, u', hblock⟩ := forLoop_ok hrow hlast
  have hcols := trans6167Block_columns (by omega) hblock
  omega

/-- `trans_61_67` accesses no element out of bounds and leaves the transpose
of `A`, if and only if there are less than eight rows or the columns of `A` are
a multiple of 23, and the counters stay in the range of `int`. -/
theorem within_bounds_iff (hM : 0 < M) (hN : 0 < N) (s : Matrices α) :
    (∃ s', trans6167 M N s = some s' ∧ ∀ r < N, ∀ c < M, s'.B c r = s.A r c) ↔
      (N < 8 ∨ 23 ∣ M) ∧ M ≤ 2147483642 ∧ N ≤ 2147483640 := by
  constructor
  · rintro ⟨s', h, -⟩
    refine ⟨?_, trans6167_last hM hN h⟩
    by_cases hrows : N < 8
    · exact Or.inl hrows
    · exact Or.inr (trans6167_columns (Nat.not_lt.mp hrows) h)
  · rintro ⟨hclip, hM', hN'⟩
    exact ⟨_, trans6167_eq hclip hM' hN', fun _ hr _ hc => Matrices.transposed_B hc hr⟩

theorem within_bounds_iff_23_9 :
    (∃ s', trans6167 23 9 (⟨fun r c => 100 * r + c, fun _ _ => 7⟩ : Matrices Nat) = some s' ∧
      ∀ r < 9, ∀ c < 23, s'.B c r = 100 * r + c) ↔
        (9 < 8 ∨ 23 ∣ 23) ∧ 23 ≤ 2147483642 ∧ 9 ≤ 2147483640 :=
  within_bounds_iff (by decide) (by decide) _

theorem transposeSubmit_ragged (s : Matrices α) : transposeSubmit 61 67 s = none := by
  have hnone : trans6167 61 67 s = none := by
    refine Option.eq_none_iff_forall_ne_some.mpr fun s' h => ?_
    have hdvd : 23 ∣ 61 := trans6167_columns (by decide) h
    omega
  rw [transposeSubmit, if_neg (by decide), if_neg (by decide), if_pos (by decide), hnone]
  rfl

theorem transposeSubmit_square (hMN : M = N) (h : N = 32 ∨ N = 64) (s : Matrices α) :
    transposeSubmit M N s = some (some (s.transposed M N)) := by
  subst hMN
  rcases h with rfl | rfl
  · rw [transposeSubmit, if_pos (by decide),
      trans3232Opt_eq (by decide) (by decide) (by decide) (by decide)]
    rfl
  · rw [transposeSubmit, if_neg (by decide), if_pos (by decide),
      trans6464_eq (by decide) (by decide) (by decide)]
    rfl

/-- The dimensions of the handout: the block of the columns 46 to 68 reads
behind column 60. -/
theorem handout_out_of_bounds :
    ¬ ∃ s', trans6167 61 67 (⟨fun r c => 100 * r + c, fun _ _ => 7⟩ : Matrices Nat) = some s' ∧
      ∀ r < 67, ∀ c < 61, s'.B c r = 100 * r + c := by
  rintro ⟨s', h, -⟩
  have hdvd : 23 ∣ 61 := trans6167_columns (by decide) h
  omega

end CsappLabs.Transpose
