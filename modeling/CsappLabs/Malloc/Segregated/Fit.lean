import CsappLabs.Malloc.Segregated.Runs

/-!
# The fit search is complete

The search starts with the first list whose blocks can be as large as `asize`.
A list that it skips has smaller blocks only, so that it fails exactly if no
free block is large enough.
-/

namespace CsappLabs.Malloc.Segregated

open CsappLabs.Foundation

variable {s s₀ s₁ : State} {w : World State} {bs : List Block} {b : Block}
  {n i asize base : Nat}

theorem walkFit_none {prev f last : Nat} {xs : List Nat}
    (h : Linked (getSuccessor s.mem) (getPredecessor s.mem) prev f xs last 0)
    (hpos : ∀ x ∈ xs, x ≠ 0) (fuel : Nat) (hnone : walkFit s asize fuel f = some 0) :
    ∀ x ∈ xs, getSize s.mem (hdrp x) < asize := by
  induction xs generalizing prev f fuel with
  | nil => simp
  | cons x xs ih =>
      obtain ⟨rfl, -, htail⟩ := h
      have hf : f ≠ 0 := hpos f (by simp)
      cases fuel with
      | zero => simp [walkFit] at hnone
      | succ fuel =>
          by_cases hlt : getSize s.mem (hdrp f) < asize
          · rw [walkFit, if_pos ⟨hf, hlt⟩] at hnone
            intro y hy
            cases List.mem_cons.mp hy with
            | inl he => exact he ▸ hlt
            | inr hy => exact ih htail (fun x hx => hpos x (by simp [hx])) fuel hnone y hy
          · rw [walkFit, if_neg fun hc => hlt hc.2] at hnone
            exact absurd (Option.some.inj hnone) hf

def NoFit (bs : List Block) (asize i : Nat) : Prop :=
  ∀ b, FreeOf bs b → listIndex b.size = i → b.size < asize

theorem noFit_of_walk (h : Heap s bs (FreeOf bs)) (hi : i < 16)
    (hnone : walkFit s asize walkFuel (s.selectSegEntry i) = some 0) : NoFit bs asize i := by
  obtain ⟨xs, last, hlink, -, hmem⟩ := h.lists i hi
  intro b hb hidx
  have hbx : b.ptr ∈ xs := (hmem b.ptr).mpr ⟨b, hb, rfl, hidx⟩
  have hpos : ∀ x ∈ xs, x ≠ 0 := fun x hx => h.nodes.node_pos ((hmem x).mp hx).node
  have hlt := walkFit_none hlink hpos walkFuel hnone b.ptr hbx
  rwa [h.layout.getSize_hdrp hb.1] at hlt

theorem noFit_of_empty (h : Heap s bs (FreeOf bs)) (hi : i < 16)
    (hempty : s.selectSegEntry i = 0) : NoFit bs asize i := by
  refine noFit_of_walk h hi ?_
  rw [hempty, show walkFuel = 2 ^ 32 - 1 + 1 from rfl, walkFit, if_neg fun hc => hc.1 rfl]

/-- With `k` lists left, the search has halved `asize` once for each list that
it has passed. -/
theorem searchFit_none (h : Heap s bs (FreeOf bs)) (k : Nat) (hk : k ≤ 16)
    (hnone : searchFit s asize k (asize >>> (16 - k)) = some 0) :
    ∀ i < 16, 16 - k ≤ i → i = 15 ∨ asize >>> i ≤ 1 → NoFit bs asize i := by
  induction k with
  | zero => exact fun i hi hge => absurd hge (by omega)
  | succ k ih =>
      have hshift : asize >>> (16 - (k + 1)) >>> 1 = asize >>> (16 - k) := by
        rw [← Nat.shiftRight_add]
        congr 1
        omega
      have hi16 : 16 - (k + 1) < 16 := by omega
      have hentry : maxSegEntry - (k + 1) = 16 - (k + 1) := rfl
      unfold searchFit at hnone
      simp only [hentry, hshift] at hnone
      intro i hi hge hclass
      by_cases hik : i = 16 - (k + 1)
      · subst hik
        by_cases hempty : s.selectSegEntry (16 - (k + 1)) = 0
        · exact noFit_of_empty h hi16 hempty
        · rw [if_pos ⟨hclass, hempty⟩] at hnone
          obtain ⟨q, hq, -⟩ := walkFit_list asize h hi16
          rw [hq] at hnone
          by_cases hq0 : q = 0
          · exact noFit_of_walk h hi16 (hq.trans (by rw [hq0]))
          · simp [hq0] at hnone
      · refine ih (by omega) ?_ i hi (by omega) hclass
        split at hnone
        · obtain ⟨q, hq, -⟩ := walkFit_list asize h hi16
          rw [hq] at hnone
          by_cases hq0 : q = 0
          · simpa [hq0] using hnone
          · simp [hq0] at hnone
        · exact hnone

theorem class_searched (hle : asize ≤ b.size) :
    listIndex b.size = 15 ∨ asize >>> listIndex b.size ≤ 1 := by
  by_cases hlog : 15 ≤ Nat.log2 b.size
  · exact .inl (Nat.min_eq_left hlog)
  · right
    have hidx : listIndex b.size = Nat.log2 b.size := Nat.min_eq_right (by omega)
    by_cases hb : b.size = 0
    · obtain rfl : asize = 0 := by omega
      simp
    · have hlt : b.size < 2 ^ (Nat.log2 b.size + 1) := (Nat.log2_lt hb).mp (by omega)
      have hdiv : asize / 2 ^ Nat.log2 b.size < 2 := by
        rw [Nat.div_lt_iff_lt_mul (Nat.two_pow_pos _)]
        rw [pow_succ] at hlt
        omega
      rw [hidx, Nat.shiftRight_eq_div_pow]
      omega

theorem searchFit_complete (asize : Nat) (h : Heap s bs (FreeOf bs)) :
    ∃ q, searchFit s asize maxSegEntry asize = some q ∧
      (q = 0 ∧ (∀ b, FreeOf bs b → b.size < asize) ∨
        ∃ b, FreeOf bs b ∧ b.ptr = q ∧ asize ≤ b.size) := by
  obtain ⟨q, hq, hfit⟩ := searchFit_spec asize h maxSegEntry (Nat.le_refl _) asize
  refine ⟨q, hq, ?_⟩
  cases hfit with
  | inr hfit => exact .inr hfit
  | inl hq0 =>
      refine .inl ⟨hq0, fun b hb => ?_⟩
      by_contra hge
      rw [hq0] at hq
      have hnone := searchFit_none h 16 (Nat.le_refl _) hq
      have hlt := hnone (listIndex b.size) (listIndex_lt _) (by omega)
        (class_searched (by omega)) b hb rfl
      omega

/-! ## `mm_malloc` -/

def growAndPlace (s : State) (asize : Nat) : Option (State × Nat) :=
  match extendHeap s (max asize chunksize / 4) with
  | none => none
  | some (s, bp) => if bp = 0 then some (s, 0) else place s bp asize

theorem Sound.mmMalloc_eq (h : Sound base s bs) (hn : n ≠ 0) {q : Nat}
    (hq : searchFit s (adjustSize n) maxSegEntry (adjustSize n) = some q) :
    mmMalloc s n =
      if q = 0 then growAndPlace s (adjustSize n) else place s q (adjustSize n) := by
  unfold mmMalloc growAndPlace
  simp only [h.initIfNeeded_eq, hn, if_false, hq]
  by_cases hq0 : q = 0
  · cases extendHeap s (max (adjustSize n) chunksize / 4) <;> simp [hq0]
  · simp [hq0]

/-- The search ends; `extend_heap` is called exactly if no free block is large
enough, and otherwise such a block is placed. -/
theorem fit_complete (h₀ : Fresh base s₀) (hinit : mmInit s₀ = some (s₁, 0))
    (hrun : Reach allocator (fun _ _ => True) ⟨s₁, []⟩ w) (hn : 1 ≤ n) :
    ∃ bs q, WellFormed w.heap bs ∧
      searchFit w.heap (adjustSize n) maxSegEntry (adjustSize n) = some q ∧
      mmMalloc w.heap n = (if q = 0 then growAndPlace w.heap (adjustSize n)
        else place w.heap q (adjustSize n)) ∧
      (q = 0 ↔ ∀ b ∈ bs, b.alloc = false → b.size < adjustSize n) ∧
      (q ≠ 0 → ∃ b ∈ bs, b.alloc = false ∧ b.ptr = q ∧ adjustSize n ≤ b.size) := by
  obtain ⟨bs, hcons⟩ := run_consistent h₀ hinit hrun
  have hsound := hcons.inv
  obtain ⟨q, hq, hfit⟩ := searchFit_complete (adjustSize n) hsound.heap
  refine ⟨bs, q, hsound.wellFormed, hq, hsound.mmMalloc_eq (by omega) hq, ?_, ?_⟩
  · cases hfit with
    | inl hnone => exact iff_of_true hnone.1 fun b hb hfree => hnone.2 b ⟨hb, hfree⟩
    | inr hfound =>
        obtain ⟨b, hb, rfl, hle⟩ := hfound
        refine iff_of_false (hsound.heap.nodes.node_pos ⟨b, hb, rfl⟩) fun hnone => ?_
        have hlt := hnone b hb.1 hb.2
        omega
  · intro hq0
    cases hfit with
    | inl hnone => exact absurd hnone.1 hq0
    | inr hfound =>
        obtain ⟨b, hb, hp, hle⟩ := hfound
        exact ⟨b, hb.1, hb.2, hp, hle⟩

theorem fit_complete_arena :
    ∃ w : World State, w.live = [⟨4208, 30⟩] ∧ ∃ bs q, WellFormed w.heap bs ∧
      searchFit w.heap (adjustSize 12) maxSegEntry (adjustSize 12) = some q ∧
      mmMalloc w.heap 12 = (if q = 0 then growAndPlace w.heap (adjustSize 12)
        else place w.heap q (adjustSize 12)) ∧
      (q = 0 ↔ ∀ b ∈ bs, b.alloc = false → b.size < adjustSize 12) ∧
      (q ≠ 0 → ∃ b ∈ bs, b.alloc = false ∧ b.ptr = q ∧ adjustSize 12 ≤ b.size) := by
  obtain ⟨s₁, w, hinit, hrun, hlive⟩ := arena_run [.malloc 8, .malloc 30, .free 4176]
    [⟨4208, 30⟩] (by decide +kernel)
  exact ⟨w, hlive, fit_complete arena_fresh hinit hrun (by decide)⟩

end CsappLabs.Malloc.Segregated
