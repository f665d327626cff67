import CsappLabs.Transpose.Mirror

/-!
# The transposition of blocks of eight

`trans_32_32_opt` copies each block as it is and then transposes it in place.
It leaves the same matrix as the row-wise `trans`.
-/

namespace CsappLabs.Transpose

open CsappLabs.Foundation

variable {α : Type} {M N i j : Nat} {s : Matrices α}

theorem mirror_block (f : Nat → Nat → α) {x y : Nat} (hy : y < 8) : mirror 8 f x y = f y x := by
  unfold mirror
  congr 1 <;> omega

/-- One block ends as the transpose of the block of `A` on the other side of
the diagonal. -/
theorem trans3232Block_eq (hN : N ≤ intMax) (hi : i + 8 ≤ N) (hj : j + 8 ≤ M) :
    trans3232Block M N i j s = some (s.paste j i 8 8 fun x y => s.A (i + y) (j + x)) := by
  have hcopy : forLoop i (i + 8) 1 (fun bi => moveRow M N bi j (j + (bi - i)) i) s =
      some (s.paste j i 8 8 fun x y => s.A (i + x) (j + y)) := by
    refine forLoop_each_row rfl (by omega) fun k hk => ?_
    rw [Nat.add_sub_cancel_left, moveRow_eq (by omega) hj (by omega) hi]
    rfl
  have hswap : forLoop 0 8 1 (fun bi => forLoop (bi + 1) 8 1 fun bj =>
      swap M N (bi + j) (bj + i) (bj + j) (bi + i))
      (s.paste j i 8 8 fun x y => s.A (i + x) (j + y)) =
        some (s.paste j i 8 8 (mirror 8 fun x y => s.A (i + x) (j + y))) := by
    refine mirror_loops (show 0 + 8 ≤ intMax by decide) fun a b hab hb => ?_
    rw [Nat.zero_add, Nat.zero_add, Nat.add_comm a j, Nat.add_comm b i, Nat.add_comm b j,
      Nat.add_comm a i, swap_paste hj hi (by omega) hb hb (by omega)]
    exact congrArg some (Matrices.paste_congr fun x hx y hy => exchange_mirrored hab hb hx hy)
  simp only [trans3232Block, hcopy, hswap, bind, Option.bind]
  exact congrArg some (Matrices.paste_congr fun x _ y hy => mirror_block _ hy)

theorem trans3232Opt_eq (hM : M ≤ intMax) (hN : N ≤ intMax) (h8M : 8 ∣ M) (h8N : 8 ∣ N) :
    trans3232Opt M N s = some (s.transposed M N) := by
  refine forLoop_cols (by decide) h8N (Nat.zero_add N).symm hN fun i _ hi => ?_
  refine forLoop_rows (by decide) h8M (Nat.zero_add M).symm hM fun j _ hj => ?_
  rw [Nat.zero_add, Nat.zero_add, trans3232Block_eq hN hi hj]
  rfl

/-- For every matrix whose dimensions are multiples of 8 the optimised
transposition accesses no element out of bounds, keeps `A`, and agrees with
`trans`. -/
theorem opt_agrees_with_trans (hM : M ≤ intMax) (hN : N ≤ intMax) (h8M : 8 ∣ M) (h8N : 8 ∣ N)
    (s : Matrices α) :
    ∃ s', trans3232Opt M N s = some s' ∧ trans M N s = some s' ∧ s'.A = s.A :=
  ⟨_, trans3232Opt_eq hM hN h8M h8N, trans_eq hM hN, rfl⟩

theorem opt_agrees_with_trans_rectangle :
    ∃ s', trans3232Opt 16 8 (⟨fun r c => 10 * r + c, fun _ _ => 0⟩ : Matrices Nat) = some s' ∧
      trans 16 8 (⟨fun r c => 10 * r + c, fun _ _ => 0⟩ : Matrices Nat) = some s' ∧
      s'.A = fun r c => 10 * r + c :=
  opt_agrees_with_trans (by decide) (by decide) (by decide) (by decide) _

end CsappLabs.Transpose
