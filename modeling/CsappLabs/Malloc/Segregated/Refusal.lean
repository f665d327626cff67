import CsappLabs.Malloc.Segregated.Fit

/-!
# Requests that `mem_sbrk` refuses

A call returns `NULL` only after `mem_sbrk` has refused to extend the heap, and
nothing is stored on the way there.  This holds of every 32-bit size, also of
those for which the adjusted size wraps around.
-/

namespace CsappLabs.Malloc.Segregated

variable {s s' s₀ s₁ : State} {w : World State} {bs : List Block} {d : Block}
  {n p q asize base : Nat}

/-- No list has a block of `asize` bytes, and `mem_sbrk` does not extend the
heap. -/
def Refused (s : State) (asize : Nat) : Prop :=
  searchFit s asize maxSegEntry asize = some 0 ∧
    s.memSbrk (toInt (extendSize (max asize chunksize / 4))) = none

def Moves (s : State) (bp size : Nat) : Prop :=
  getSize s.mem (hdrp bp) < adjustSize size ∧
    ¬((getAlloc s.mem (hdrp (nextBlkp s.mem bp)) = 0 ∨
        getSize s.mem (hdrp (nextBlkp s.mem bp)) = 0) ∧
      addw (getSize s.mem (hdrp bp)) (getSize s.mem (hdrp (nextBlkp s.mem bp))) ≥
        adjustSize size)

instance (s : State) (bp size : Nat) : Decidable (Moves s bp size) :=
  inferInstanceAs (Decidable (_ ∧ ¬((_ ∨ _) ∧ _)))

theorem growAndPlace_refused (h : s.memSbrk (toInt (extendSize (max asize chunksize / 4))) = none) :
    growAndPlace s asize = some (s, 0) := by
  have hextend : extendHeap s (max asize chunksize / 4) = some (s, 0) := by
    unfold extendHeap
    simp only [h]
  simp [growAndPlace, hextend]

theorem place_ptr (hsmall : asize < 96) (h : place s p asize = some (s', q)) : q = p := by
  unfold place at h
  simp only [if_neg (show ¬asize ≥ 96 by omega)] at h
  by_cases hrest : subw (getSize s.mem (hdrp p)) asize ≤ 2 * 8
  · rw [if_pos hrest] at h
    exact (congrArg Prod.snd (Option.some.inj h)).symm
  · rw [if_neg hrest] at h
    split at h
    · cases h
    · exact (congrArg Prod.snd (Option.some.inj h)).symm

namespace Sound

theorem ptr_ne (h : Sound base s bs) (hd : d ∈ bs) : d.ptr ≠ 0 := by
  have := (h.heap.ptr_bounds hd).1
  omega

/-- The adjusted size has wrapped around: a block is placed, or the heap could
not be extended. -/
theorem malloc_null_wrapped (h : Sound base s bs) (hn : 2 ^ 32 ≤ n + 15) (hlt : n < 2 ^ 32)
    (heq : mmMalloc s n = some (s', 0)) : s' = s := by
  have hsmall := adjustSize_wrapped hn hlt
  have hmax := max_chunksize (show adjustSize n ≤ 16 by omega)
  obtain ⟨q, hq, hfit⟩ := searchFit_spec (adjustSize n) h.heap maxSegEntry (Nat.le_refl _)
    (adjustSize n)
  rw [h.mmMalloc_eq (by omega) hq] at heq
  by_cases hq0 : q = 0
  · rw [if_pos hq0, growAndPlace, hmax] at heq
    rcases h.extend_effect (Nat.le_refl 16) (by decide) (by decide) with
      ⟨-, hext⟩ | ⟨-, t, bs', b, hext, -, hb, -, heff, -⟩
    · rw [hext] at heq
      exact (congrArg Prod.fst (Option.some.inj heq)).symm
    · have hb0 := heff.inv.ptr_ne hb.1
      simp only [hext, hb0, if_false] at heq
      exact absurd (place_ptr (by omega) heq).symm hb0
  · rw [if_neg hq0] at heq
    exact absurd (place_ptr (by omega) heq).symm hq0

theorem malloc_null (h : Sound base s bs) (hlt : n < 2 ^ 32)
    (heq : mmMalloc s n = some (s', 0)) : s' = s := by
  by_cases hn : n + 15 < 2 ^ 32
  · rcases h.malloc_effect hn with hfail | ⟨t, bs', d, hout, -, -, heff⟩
    · exact congrArg Prod.fst (Option.some.inj (heq.symm.trans hfail))
    · have hd0 := heff.inv.ptr_ne ((heff.mem d (heff.new_alloc d rfl)).mpr (.inr rfl))
      exact absurd (congrArg Prod.snd (Option.some.inj (heq.symm.trans hout))).symm hd0
  · exact h.malloc_null_wrapped (by omega) hlt heq

theorem realloc_null (h : Sound base s bs) (hd : d ∈ bs) (hn0 : n ≠ 0)
    (heq : mmRealloc s d.ptr n = some (s', 0)) : s' = s := by
  have hd0 := h.ptr_ne hd
  unfold mmRealloc at heq
  simp only [hd0, hn0, if_false] at heq
  by_cases hfit : getSize s.mem (hdrp d.ptr) ≥ adjustSize n
  · rw [if_pos hfit] at heq
    exact absurd (congrArg Prod.snd (Option.some.inj heq)) hd0
  · rw [if_neg hfit] at heq
    split at heq
    · exact absurd (congrArg Prod.snd (Option.some.inj heq)) hd0
    · cases hm : mmMalloc s (adjustSize n) with
      | none =>
          simp only [hm] at heq
          cases heq
      | some r =>
          obtain ⟨t, newBlock⟩ := r
          simp only [hm] at heq
          by_cases hnew : newBlock = 0
          · subst hnew
            have ht := h.malloc_null (adjustSize_lt_word n) hm
            rw [if_pos rfl] at heq
            exact (congrArg Prod.fst (Option.some.inj heq)).symm.trans ht
          · rw [if_neg hnew] at heq
            obtain ⟨u, -, hu⟩ := Option.map_eq_some_iff.mp heq
            exact absurd (congrArg Prod.snd hu) hnew

theorem malloc_refused (h : Sound base s bs) (hn0 : n ≠ 0) (hr : Refused s (adjustSize n)) :
    mmMalloc s n = some (s, 0) := by
  rw [h.mmMalloc_eq hn0 hr.1, if_pos rfl, growAndPlace_refused hr.2]

theorem mmRealloc_moves (h : Sound base s bs) (hd : d ∈ bs) (hn0 : n ≠ 0)
    (hmoves : Moves s d.ptr n) :
    mmRealloc s d.ptr n =
      match mmMalloc s (adjustSize n) with
      | none => none
      | some (t, newBlock) =>
          if newBlock = 0 then some (t, 0)
          else (mmFree (t.memcpy newBlock d.ptr (min (adjustSize n) d.size)) d.ptr).map
            fun t => (t, newBlock) := by
  rw [← h.heap.layout.getSize_hdrp hd]
  unfold mmRealloc
  rw [if_neg (h.ptr_ne hd), if_neg hn0]
  exact (if_neg (Nat.not_le.mpr hmoves.1)).trans (if_neg hmoves.2)

theorem realloc_refused (h : Sound base s bs) (hd : d ∈ bs) (hn0 : n ≠ 0)
    (hmoves : Moves s d.ptr n) (hr : Refused s (adjustSize (adjustSize n))) :
    mmRealloc s d.ptr n = some (s, 0) := by
  have hinner := h.malloc_refused (n := adjustSize n) (by have := hmoves.1; omega) hr
  rw [h.mmRealloc_moves hd hn0 hmoves, hinner]
  exact if_pos rfl

end Sound

/-- A request for `n` bytes that returns `NULL` leaves the world as it was, and
one for which `mem_sbrk` refuses returns `NULL`. -/
structure FailsClean (w : World State) (n : Nat) : Prop where
  malloc : ∀ s', mmMalloc w.heap n = some (s', 0) →
    s' = w.heap ∧ w.exec allocator (.malloc n) = some w
  malloc_refused : Refused w.heap (adjustSize n) → mmMalloc w.heap n = some (w.heap, 0)
  realloc : ∀ r ∈ w.live, ∀ s', mmRealloc w.heap r.ptr n = some (s', 0) →
    s' = w.heap ∧ w.exec allocator (.realloc r.ptr n) = some w
  realloc_refused : ∀ r ∈ w.live, Moves w.heap r.ptr n →
    Refused w.heap (adjustSize (adjustSize n)) → mmRealloc w.heap r.ptr n = some (w.heap, 0)

theorem failed_calls (h₀ : Fresh base s₀) (hinit : mmInit s₀ = some (s₁, 0))
    (hrun : Reach allocator (fun _ _ => True) ⟨s₁, []⟩ w) (hn : 1 ≤ n) (hlt : n < 2 ^ 32) :
    FailsClean w n := by
  obtain ⟨bs, hcons⟩ := run_consistent h₀ hinit hrun
  have hsound := hcons.inv
  have hn0 : n ≠ 0 := by omega
  refine ⟨fun s' heq => ?_, hsound.malloc_refused hn0, fun r hr s' heq => ?_,
    fun r hr hmoves hrefused => ?_⟩
  · obtain rfl := hsound.malloc_null hlt heq
    have hcall : allocator.mmMalloc w.heap n = some (w.heap, 0) := heq
    exact ⟨rfl, by simp [World.exec, hcall]⟩
  · obtain ⟨d, hd, -, hp, -⟩ := hcons.held r hr
    rw [← hp] at heq ⊢
    obtain rfl := hsound.realloc_null hd hn0 heq
    have hcall : allocator.mmRealloc w.heap d.ptr n = some (w.heap, 0) := heq
    exact ⟨rfl, by simp [World.exec, hcall, hn0]⟩
  · obtain ⟨d, hd, -, hp, -⟩ := hcons.held r hr
    rw [← hp] at hmoves ⊢
    exact hsound.realloc_refused hd hn0 hmoves hrefused

theorem failed_calls_arena :
    ∃ w : World State, w.live = [⟨4208, 30⟩, ⟨4176, 8⟩] ∧ FailsClean w (2 ^ 31) := by
  obtain ⟨s₁, w, hinit, hrun, hlive⟩ := arena_two_blocks
  exact ⟨w, hlive, failed_calls arena_fresh hinit hrun (by decide) (by decide)⟩

end CsappLabs.Malloc.Segregated
