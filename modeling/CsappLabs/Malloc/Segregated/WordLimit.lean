import CsappLabs.Malloc.Capacity
import CsappLabs.Malloc.Segregated.Refusal

/-!
# Requests near the word limit of the segregated allocator

Like the explicit-list allocator it adjusts the size of a moving `mm_realloc`
twice.
-/

namespace CsappLabs.Malloc.Segregated

open CsappLabs.Foundation

variable {s s' : State} {bs : List Block} {d : Block} {n p q bp base size asize : Nat}

/-! ## The break -/

def Stores (s s' : State) : Prop := ∃ m strays, s' = { s.setMem m with strays := strays }

namespace Stores

theorem trans {s'' : State} (h : Stores s s') (h' : Stores s' s'') : Stores s s'' := by
  obtain ⟨m, strays, rfl⟩ := h
  obtain ⟨m', strays', rfl⟩ := h'
  exact ⟨m', strays', rfl⟩

theorem refl (s : State) : Stores s s := ⟨s.mem, s.strays, rfl⟩

theorem put (s : State) (p v : Nat) : Stores s (s.put p v) := ⟨_, _, rfl⟩

theorem put₂ (s : State) (p v q u : Nat) : Stores s ((s.put p v).put q u) :=
  (put s p v).trans (.put _ _ _)

theorem memcpy (s : State) (dst src n : Nat) : Stores s (s.memcpy dst src n) := ⟨_, _, rfl⟩

theorem memBrk_eq (h : Stores s s') : s'.memBrk = s.memBrk := by
  obtain ⟨m, strays, rfl⟩ := h
  rfl

theorem memStartBrk_eq (h : Stores s s') : s'.memStartBrk = s.memStartBrk := by
  obtain ⟨m, strays, rfl⟩ := h
  rfl

theorem heapListp_eq (h : Stores s s') : s'.heapListp = s.heapListp := by
  obtain ⟨m, strays, rfl⟩ := h
  rfl

end Stores

theorem deleteNode_stores (s : State) (bp : Nat) : Stores s (deleteNode s bp) := by
  unfold deleteNode
  simp only []
  split
  · split
    · exact .put₂ _ _ _ _ _
    · exact .put _ _ _
  · split
    · exact .put₂ _ _ _ _ _
    · exact .put _ _ _

theorem insertNode_stores (h : insertNode s bp size = some s') : Stores s s' := by
  unfold insertNode at h
  generalize selectList (maxSegEntry - 1) size = r at h
  obtain ⟨size, i⟩ := r
  simp only at h
  generalize findPlace s size walkFuel (s.selectSegEntry i)
    (if s.selectSegEntry i ≠ 0 then getSuccessor s.mem (s.selectSegEntry i) else 0) = found at h
  cases found with
  | none => cases h
  | some place =>
      obtain ⟨insertPtr, nextPtr⟩ := place
      simp only at h
      by_cases hinsert : insertPtr ≠ 0
      · by_cases hnext : nextPtr ≠ 0
        · rw [if_pos hinsert, if_pos hnext] at h
          obtain rfl := Option.some.inj h
          exact (Stores.put₂ _ _ _ _ _).trans (.put₂ _ _ _ _ _)
        · rw [if_pos hinsert, if_neg hnext] at h
          obtain rfl := Option.some.inj h
          exact (Stores.put₂ _ _ _ _ _).trans (.put _ _ _)
      · by_cases hnext : nextPtr ≠ 0
        · rw [if_neg hinsert, if_pos hnext] at h
          obtain rfl := Option.some.inj h
          exact (Stores.put₂ _ _ _ _ _).trans (.put₂ _ _ _ _ _)
        · rw [if_neg hinsert, if_neg hnext] at h
          obtain rfl := Option.some.inj h
          exact (Stores.put₂ _ _ _ _ _).trans (.put _ _ _)

theorem insertMerged_stores (h : insertMerged s bp size = some (s', q)) : Stores s s' := by
  obtain ⟨t, hinsert, ht⟩ := Option.map_eq_some_iff.mp h
  obtain ⟨rfl, -⟩ := Prod.mk.inj ht
  exact (Stores.put₂ _ _ _ _ _).trans (insertNode_stores hinsert)

theorem coalesce_stores (h : coalesce s bp = some (s', q)) : Stores s s' := by
  unfold coalesce at h
  simp only at h
  by_cases hprev : getAlloc s.mem (ftrp s.mem (prevBlkp s.mem bp)) ≠ 0
  · by_cases hnext : getAlloc s.mem (hdrp (nextBlkp s.mem bp)) ≠ 0
    · rw [if_pos ⟨hprev, hnext⟩] at h
      obtain ⟨t, hinsert, ht⟩ := Option.map_eq_some_iff.mp h
      obtain ⟨rfl, -⟩ := Prod.mk.inj ht
      exact insertNode_stores hinsert
    · rw [if_neg fun hb => hnext hb.2, if_pos ⟨hprev, hnext⟩] at h
      exact ((deleteNode_stores _ _).trans (.put₂ _ _ _ _ _)).trans (insertMerged_stores h)
  · rw [if_neg fun hb => hprev hb.1, if_neg fun hb => hprev hb.1] at h
    by_cases hnext : getAlloc s.mem (hdrp (nextBlkp s.mem bp)) ≠ 0
    · rw [if_pos ⟨hprev, hnext⟩] at h
      exact ((deleteNode_stores _ _).trans (.put₂ _ _ _ _ _)).trans (insertMerged_stores h)
    · rw [if_neg fun hb => hnext hb.2] at h
      exact (((deleteNode_stores _ _).trans (deleteNode_stores _ _)).trans
        (.put₂ _ _ _ _ _)).trans (insertMerged_stores h)

/-- A request below 96 bytes. -/
theorem place_stores (hsmall : asize < 96) (h : place s p asize = some (s', q)) :
    Stores s s' := by
  unfold place at h
  simp only [if_neg (show ¬asize ≥ 96 by omega)] at h
  by_cases hrest : subw (getSize s.mem (hdrp p)) asize ≤ 2 * 8
  · rw [if_pos hrest] at h
    obtain ⟨rfl, -⟩ := Prod.mk.inj (Option.some.inj h)
    exact (deleteNode_stores _ _).trans (.put₂ _ _ _ _ _)
  · rw [if_neg hrest] at h
    split at h
    · cases h
    · next t r hcoalesce =>
        obtain ⟨rfl, -⟩ := Prod.mk.inj (Option.some.inj h)
        refine Stores.trans ?_ (coalesce_stores hcoalesce)
        exact (((deleteNode_stores _ _).trans (.put₂ _ _ _ _ _)).trans (.put₂ _ _ _ _ _)).trans
          (.put₂ _ _ _ _ _)

theorem mmFree_stores (hinit : s.heapListp ≠ 0) (h : mmFree s bp = some s') : Stores s s' := by
  unfold mmFree initIfNeeded at h
  simp only [hinit, if_false] at h
  by_cases hbp : bp = 0
  · rw [if_pos hbp] at h
    exact Option.some.inj h ▸ .refl s
  · rw [if_neg hbp] at h
    obtain ⟨r, hcoalesce, rfl⟩ := Option.map_eq_some_iff.mp h
    exact (Stores.put₂ _ _ _ _ _).trans (coalesce_stores hcoalesce)

/-! ## The calls -/

namespace Sound

theorem hasCapacity (h : Sound base s bs) (hd : d ∈ bs) (hn : n + 8 ≤ d.size) :
    HasCapacity s.toMemlib d.ptr n :=
  h.heap.layout.hasCapacity (by have := h.heap.base; omega) hd hn

theorem mallocFits (h : Sound base s bs) (hn : n + 15 < 2 ^ 32) :
    MallocFits allocator State.heapListp s n := by
  cases h.malloc_effect hn with
  | inl heq => exact ⟨s, 0, heq, fun hp => absurd rfl hp, h.heap.layout.blocksReach⟩
  | inr hout =>
      obtain ⟨s', bs', d, heq, -, hsize, heff⟩ := hout
      have hd : d ∈ bs' := (heff.mem d (heff.new_alloc d rfl)).mpr (.inr rfl)
      exact ⟨s', d.ptr, heq, fun _ => heff.inv.hasCapacity hd hsize,
        heff.inv.heap.layout.blocksReach⟩

theorem malloc_wrapped (h : Sound base s bs) (hn : 2 ^ 32 ≤ n + 15) (hlt : n < 2 ^ 32) :
    ((∀ b ∈ bs, b.alloc = true) ∧ ¬s.Granted chunksize) ∧ mmMalloc s n = some (s, 0) ∨
      ((∃ b ∈ bs, b.alloc = false) ∨ s.Granted chunksize) ∧
        ∃ s₁ bs₁ q, q ≠ 0 ∧ Sound base s₁ bs₁ ∧ mmMalloc s n = place s₁ q (adjustSize n) := by
  have hsmall := adjustSize_wrapped hn hlt
  have hmax := max_chunksize (show adjustSize n ≤ 16 by omega)
  obtain ⟨q, hq, hfit⟩ := searchFit_complete (adjustSize n) h.heap
  have heq := h.mmMalloc_eq (by omega) hq
  cases hfit with
  | inl hnone =>
      rw [if_pos hnone.1, growAndPlace, hmax] at heq
      cases h.extend_effect (Nat.le_refl 16) (by decide) (by decide) with
      | inl hrefused =>
          refine .inl ⟨⟨fun b hb => ?_, hrefused.1⟩, ?_⟩
          · have h16 := h.heap.layout.tiles.size_ge hb
            by_contra hfree
            have hlt := hnone.2 b ⟨hb, by simpa using hfree⟩
            omega
          · rw [heq, hrefused.2]
            rfl
      | inr hgrown =>
          obtain ⟨hgrant, s₁, bs₁, b, hext, -, hb, -, heff, -⟩ := hgrown
          have hb0 := heff.inv.ptr_ne hb.1
          refine .inr ⟨.inr hgrant, s₁, bs₁, b.ptr, hb0, heff.inv, ?_⟩
          rw [heq, hext]
          exact if_neg hb0
  | inr hfound =>
      obtain ⟨b, hb, rfl, -⟩ := hfound
      have hb0 := h.ptr_ne hb.1
      rw [if_neg hb0] at heq
      exact .inr ⟨.inl ⟨b, hb.1, hb.2⟩, s, bs, b.ptr, hb0, h, heq⟩

theorem mallocLimit (h : Sound base s bs) (hlt : n < 2 ^ 32) :
    MallocLimit allocator State.heapListp s n := by
  refine h.heap.layout.mallocLimit h.mallocFits fun hn => ?_
  have hsmall := adjustSize_wrapped hn hlt
  cases h.malloc_wrapped hn hlt with
  | inl hnull => exact .inl hnull
  | inr hblock =>
      obtain ⟨hroom, s₁, bs₁, q, hq, -, heq⟩ := hblock
      refine .inr ⟨hroom, fun s' p hout => ?_⟩
      rw [place_ptr (by omega) (heq.symm.trans hout)]
      exact hq

theorem realloc_moves (h : Sound base s bs) (hd : d ∈ bs) (hn0 : n ≠ 0)
    (hlarge : maxHeap < adjustSize n) :
    mmRealloc s d.ptr n =
      match mmMalloc s (adjustSize n) with
      | none => none
      | some (t, newBlock) =>
          if newBlock = 0 then some (t, 0)
          else (mmFree (t.memcpy newBlock d.ptr (min (adjustSize n) d.size)) d.ptr).map
            fun t => (t, newBlock) := by
  have hsize := h.heap.layout.getSize_hdrp hd
  have htop := h.heap.top
  have hbase := h.heap.base
  obtain ⟨hd₁, hd₂, -, -, -⟩ := h.heap.ptr_bounds hd
  refine h.mmRealloc_moves hd hn0 ⟨by omega, ?_⟩
  rw [hsize]
  exact h.heap.layout.too_large hd (adjustSize n) (by omega)

theorem reallocFits (h : Sound base s bs) (hd : d ∈ bs) (ha : d.alloc = true) (hn0 : n ≠ 0)
    (hn : n + 23 < 2 ^ 32) : ReallocFits allocator s d.ptr n := by
  cases h.realloc_effect hd ha hn hn0 with
  | inl heq => exact ⟨s, 0, heq, fun hq => absurd rfl hq⟩
  | inr hout =>
      obtain ⟨s', bs', e, heq, -, hsize, heff, -⟩ := hout
      have he : e ∈ bs' := (heff.mem e (heff.new_alloc e rfl)).mpr (.inr rfl)
      exact ⟨s', e.ptr, heq, fun _ => heff.inv.hasCapacity he hsize⟩

theorem reallocLimit (h : Sound base s bs) (hd : d ∈ bs) (ha : d.alloc = true) (hn0 : n ≠ 0)
    (hlt : n < 2 ^ 32) : ReallocLimit allocator State.heapListp s d.ptr n where
  ptr := h.ptr_ne hd
  fits := h.reallocFits hd ha hn0
  same hn := by
    have hsmall := adjustSize_wrapped hn hlt
    have hsize := h.heap.layout.getSize_hdrp hd
    have h16 := h.heap.layout.tiles.size_ge hd
    have hfit : d.size ≥ adjustSize n := by omega
    show mmRealloc s d.ptr n = some (s, d.ptr)
    simp [mmRealloc, hn0, h.ptr_ne hd, hsize, hfit]
  null hn hn' hstarved := by
    have hlast := adjustSize_last hn hn'
    have hmoves := h.realloc_moves hd hn0 (by rw [hlast]; decide)
    have hlimit := h.mallocLimit (adjustSize_lt_word n)
    have hnull : mmMalloc s (adjustSize n) = some (s, 0) :=
      hlimit.null (show 2 ^ 32 ≤ adjustSize n + 15 by omega) hstarved
    rw [hnull] at hmoves
    exact hmoves
  block hn hn' hstarved s' q hout := by
    have hlast := adjustSize_last hn hn'
    have hmoves := h.realloc_moves hd hn0 (by rw [hlast]; decide)
    have hwrap : 2 ^ 32 ≤ adjustSize n + 15 := by omega
    have hsmall := adjustSize_wrapped hwrap (adjustSize_lt_word n)
    have hcall : mmRealloc s d.ptr n = some (s', q) := hout
    rcases h.malloc_wrapped hwrap (adjustSize_lt_word n) with
      ⟨hnone, -⟩ | ⟨-, s₁, bs₁, p, hp, hsound, heq⟩
    · exact absurd (h.heap.layout.starved_iff.mpr hnone) hstarved
    · rw [hmoves, heq] at hcall
      cases hplace : place s₁ p (adjustSize (adjustSize n)) with
      | none =>
          rw [hplace] at hcall
          cases hcall
      | some r =>
          obtain ⟨t, newBlock⟩ := r
          obtain rfl := place_ptr (by omega) hplace
          rw [hplace] at hcall
          simp only [hp, if_false] at hcall
          obtain ⟨u, hfree, hu⟩ := Option.map_eq_some_iff.mp hcall
          obtain ⟨rfl, rfl⟩ := Prod.mk.inj hu
          have hcopied := (place_stores (by omega) hplace).trans
            (.memcpy t newBlock d.ptr (min (adjustSize n) d.size))
          have hinit : (t.memcpy newBlock d.ptr (min (adjustSize n) d.size)).heapListp ≠ 0 := by
            have hbase := hsound.heap.base
            rw [hcopied.heapListp_eq]
            omega
          have hall := hcopied.trans (mmFree_stores hinit hfree)
          refine ⟨hp, ?_⟩
          show u.memBrk ≤ u.memStartBrk + maxHeap
          rw [hall.memBrk_eq, hall.memStartBrk_eq]
          exact hsound.heap.top

end Sound

end CsappLabs.Malloc.Segregated
