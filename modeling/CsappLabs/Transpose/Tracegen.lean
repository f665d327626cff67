import CsappLabs.Transpose.Arrays

/-!
# The checks of a transposition

`tracegen` compares what a function has left in `B` with the transpose that
`correctTrans` makes, as `is_transpose` does without a second matrix.  It accepts
the three dimensions of the handout: what `trans_61_67` stores behind `B` does
not reach the matrix.  The two simpler versions leave the same matrix wherever
they end.
-/

namespace CsappLabs.Transpose

open CsappLabs.Foundation

variable {α : Type}

/-! ## The simpler versions -/

def transNaive (M N : Nat) (s : Matrices α) : Option (Matrices α) :=
  forLoop 0 N 8 (fun i => forLoop 0 M 8 fun j s => do
    let hi ← int (i + 8)
    let hj ← int (j + 8)
    forLoop i (min hi N) 1 (fun bi => forLoop j (min hj M) 1 fun bj s => do
      storeB M N bj bi (← loadA M N bi bj s) s) s) s

def trans3232Rows (M N i j : Nat) (s : Matrices α) : Option (Matrices α) := do
  forLoop i (← int (i + 8)) 1 (fun k s => do
    let tmp ← loadsA M N 8 (fun _ => k) (fun x => j + x) s
    stores M N (fun x => j + x) (fun _ => k) tmp 8 s) s

def trans3232 (M N : Nat) (s : Matrices α) : Option (Matrices α) :=
  forLoop 0 N 8 (fun i => forLoop 0 M 8 (trans3232Rows M N i)) s

variable {M N i j : Nat} {s s' t : Matrices α}

/-! ## Where the simpler versions end -/

theorem transNaive_eq (hM : M ≤ 2147483640) (hN : N ≤ 2147483640) :
    transNaive M N s = some (s.transposed M N) := by
  have hmax : intMax = 2147483647 := rfl
  refine forLoop_clipped_cols (by decide) (fun i hi h8 => by omega) fun i hi h8 => ?_
  refine forLoop_clipped_rows (by decide) (fun j hj h8' => by omega) fun j hj h8' => ?_
  have hi8 : i + 8 ≤ intMax := by omega
  have hj8 : j + 8 ≤ intMax := by omega
  simp only [int, if_pos hi8, if_pos hj8, bind, Option.bind]
  refine forLoop_each_col (by omega) (by omega) fun k hk => ?_
  refine forLoop_each_row (by omega) (by omega) fun k' hk' => ?_
  rw [loadA_eq ⟨by omega, by omega⟩]
  exact storeB_eq ⟨by omega, by omega⟩ _

theorem trans3232Rows_eq (hN : N ≤ intMax) (hi : i + 8 ≤ N) (hj : j + 8 ≤ M) :
    trans3232Rows M N i j s = some (s.paste j i 8 8 fun x y => s.A (i + y) (j + x)) := by
  have hi8 : i + 8 ≤ intMax := by omega
  simp only [trans3232Rows, int, if_pos hi8, bind, Option.bind]
  refine forLoop_each_col rfl hi8 fun k hk => ?_
  rw [loadsA_eq (fun x hx => ⟨by omega, by omega⟩)]
  exact stores_col hj (by omega)

theorem trans3232_eq (hM : M ≤ intMax) (hN : N ≤ intMax) (h8M : 8 ∣ M) (h8N : 8 ∣ N) :
    trans3232 M N s = some (s.transposed M N) := by
  refine forLoop_cols (by decide) h8N (Nat.zero_add N).symm hN fun i _ hi => ?_
  refine forLoop_rows (by decide) h8M (Nat.zero_add M).symm hM fun j _ hj => ?_
  rw [Nat.zero_add, Nat.zero_add, trans3232Rows_eq hN hi hj]
  rfl

theorem trans3232Rows_bounds (h : trans3232Rows M N i j s = some s') : i + 8 ≤ N ∧ j + 8 ≤ M := by
  obtain ⟨hi, hint, hloop⟩ := Option.bind_eq_some_iff.mp h
  obtain ⟨-, rfl⟩ := int_eq_some.mp hint
  obtain ⟨-, t, t', hturn⟩ := forLoop_ok (k := 7) hloop (by omega)
  obtain ⟨tmp, htmp, -⟩ := Option.bind_eq_some_iff.mp hturn
  have hbound := loadsA_bounds htmp 7 (by decide)
  omega

theorem trans3232_multiples (hM : 0 < M) (hN : 0 < N) (h : trans3232 M N s = some s') :
    8 ∣ M ∧ 8 ∣ N := by
  have hlastN : 0 + (N - 1) / 8 * 8 < N := by omega
  have hlastM : 0 + (M - 1) / 8 * 8 < M := by omega
  obtain ⟨-, t, t', hrow⟩ := forLoop_ok h hlastN
  obtain ⟨-, u, u', hblock⟩ := forLoop_ok hrow hlastM
  have hbounds := trans3232Rows_bounds hblock
  omega

/-- `trans_naive` is `trans`, in another order; `trans_32_32` ends if and only if
the matrix consists of blocks of eight, and then it is `trans` as well. -/
theorem versions_agree (hM : 0 < M) (hN : 0 < N) (hM' : M ≤ 2147483640) (hN' : N ≤ 2147483640)
    (s : Matrices α) :
    transNaive M N s = trans M N s ∧
      ∀ s', trans3232 M N s = some s' ↔ 8 ∣ M ∧ 8 ∣ N ∧ trans M N s = some s' := by
  have hmax : intMax = 2147483647 := rfl
  have htrans := trans_eq (s := s) (M := M) (N := N) (by omega) (by omega)
  refine ⟨by rw [transNaive_eq hM' hN', htrans], fun s' => ?_⟩
  constructor
  · intro h
    obtain ⟨h8M, h8N⟩ := trans3232_multiples hM hN h
    rw [trans3232_eq (by omega) (by omega) h8M h8N] at h
    exact ⟨h8M, h8N, htrans.trans h⟩
  · rintro ⟨h8M, h8N, h⟩
    rw [trans3232_eq (by omega) (by omega) h8M h8N, ← htrans, h]

theorem versions_agree_12_8 :
    transNaive 12 8 (⟨fun r c => 10 * r + c, fun _ _ => 0⟩ : Matrices Nat) =
        trans 12 8 ⟨fun r c => 10 * r + c, fun _ _ => 0⟩ ∧
      ∀ s', trans3232 12 8 (⟨fun r c => 10 * r + c, fun _ _ => 0⟩ : Matrices Nat) = some s' ↔
        8 ∣ 12 ∧ 8 ∣ 8 ∧ trans 12 8 ⟨fun r c => 10 * r + c, fun _ _ => 0⟩ = some s' :=
  versions_agree (by decide) (by decide) (by decide) (by decide) _

/-! ## The checks -/

section

variable [DecidableEq α]

def isTranspose (M N : Nat) (s : Matrices α) : Bool :=
  (List.range N).all fun i => (List.range M).all fun j => s.A i j = s.B j i

def correctTrans (M N : Nat) : Matrices α → Option (Matrices α) := trans M N

/-- `validate`, where `memset` has made each element of `C` a `zero`. -/
def validate (M N : Nat) (zero : α) (s : Matrices α) : Option Bool := do
  let c ← correctTrans M N ⟨s.A, fun _ _ => zero⟩
  some ((List.range M).all fun i => (List.range N).all fun j => s.B i j = c.B i j)

/-- How `main` of `tracegen` ends: with a fault, or with a status. -/
def tracegen (M N : Nat) (zero : α) (s : Arrays α) : Option Nat := do
  match ← s.transposeSubmit (256 * 256) M N with
  | none => some 1
  | some s => some (if ← validate M N zero (s.matrices M N) then 0 else 1)

theorem isTranspose_iff : isTranspose M N s = true ↔ ∀ i < N, ∀ j < M, s.A i j = s.B j i := by
  simp [isTranspose]

theorem validate_eq (hM : M ≤ intMax) (hN : N ≤ intMax) (zero : α) :
    validate M N zero s = some (isTranspose M N s) := by
  simp only [validate, correctTrans, trans_eq hM hN, bind, Option.bind_some, Option.some.injEq]
  rw [Bool.eq_iff_iff, isTranspose_iff]
  simp only [List.all_eq_true, List.mem_range, decide_eq_true_eq]
  constructor
  · intro h i hi j hj
    rw [h j hj i hi, Matrices.transposed_B hj hi]
  · intro h i hi j hj
    rw [Matrices.transposed_B hi hj, h j hj i hi]

theorem isTranspose_put (s : Arrays α) (u : Matrices α) :
    isTranspose M N ((s.put M N (u.transposed M N)).matrices M N) = true := by
  obtain ⟨hA, hB⟩ := s.put_matrices (M := M) (N := N) (u.transposed M N)
  refine isTranspose_iff.mpr fun r hr c hc => ?_
  rw [hA r hr c hc, hB c hc r hr, Matrices.transposed_B hc hr, Matrices.transposed,
    Matrices.paste_A]

open Arrays in
theorem Arrays.transposeSubmit_ragged (s : Arrays α) : ∃ s',
    s.transposeSubmit (256 * 256) 61 67 = some (some s') ∧
      isTranspose 61 67 (s'.matrices 61 67) = true := by
  have hfits : Fits (256 * 256) 61 67 := ⟨by decide, by decide⟩
  refine ⟨s.moved 61 67 (reached 61 67), ?_, isTranspose_iff.mpr fun r hr c hc => ?_⟩
  · rw [Arrays.transposeSubmit, if_neg (by decide), if_neg (by decide), if_pos (by decide),
      trans6167_moved (by decide) hfits (by decide) (by decide)]
    rfl
  · exact (moved_at hr (lt_reached hc)).symm

/-- `tracegen` accepts what is submitted for the dimensions of the handout, and no
other one; what it accepts is what `is_transpose` accepts. -/
theorem tracegen_accepts_iff (zero : α) (s : Arrays α) :
    (tracegen M N zero s = some 0 ↔ M = N ∧ (N = 32 ∨ N = 64) ∨ M = 61 ∧ N = 67) ∧
      ∀ t : Matrices α, M ≤ intMax → N ≤ intMax →
        validate M N zero t = some (isTranspose M N t) := by
  refine ⟨?_, fun t hM hN => validate_eq hM hN zero⟩
  have hmax : intMax = 2147483647 := rfl
  by_cases hsquare : M = N ∧ (N = 32 ∨ N = 64)
  · refine iff_of_true ?_ (.inl hsquare)
    simp only [tracegen, Arrays.transposeSubmit_square hsquare.1 hsquare.2, bind,
      Option.bind_some, validate_eq (by omega : M ≤ intMax) (by omega : N ≤ intMax),
      isTranspose_put, if_true]
  · by_cases hragged : M = 61 ∧ N = 67
    · refine iff_of_true ?_ (.inr hragged)
      obtain ⟨rfl, rfl⟩ := hragged
      obtain ⟨s', hsubmit, htranspose⟩ := s.transposeSubmit_ragged
      simp only [tracegen, hsubmit, bind, Option.bind_some,
        validate_eq (by decide : 61 ≤ intMax) (by decide : 67 ≤ intMax), htranspose, if_true]
    · refine iff_of_false ?_ (not_or.mpr ⟨hsquare, hragged⟩)
      have hnone : s.transposeSubmit (256 * 256) M N = some none := by
        rw [Arrays.transposeSubmit, if_neg (by omega), if_neg (by omega), if_neg hragged]
      simp [tracegen, hnone]

theorem tracegen_accepts_61_67 :
    tracegen 61 67 0 (⟨fun k => k, fun _ => 7⟩ : Arrays Nat) = some 0 ∧
      validate 61 67 0 (⟨fun r c => r + c, fun r c => c - r⟩ : Matrices Nat) =
        some (isTranspose 61 67 ⟨fun r c => r + c, fun r c => c - r⟩) :=
  ⟨(tracegen_accepts_iff 0 _).1.mpr (.inr ⟨rfl, rfl⟩),
    (tracegen_accepts_iff 0 ⟨fun k => k, fun _ => 7⟩).2 _ (by decide) (by decide)⟩

end

end CsappLabs.Transpose
