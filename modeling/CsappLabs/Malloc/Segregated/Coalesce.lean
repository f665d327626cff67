import CsappLabs.Malloc.Segregated.Heap

/-!
# `coalesce` and `extend_heap`

`coalesce` is given a free block that is in no list.  It merges the block with
its free neighbours, as `coalesceBlocks` says, and the lists hold all free
blocks afterwards.
-/

namespace CsappLabs.Malloc.Segregated

open CsappLabs.Foundation

variable {s : State} {F : Block → Prop} {a b c d : Block} {bs l r xs : List Block}
  {m m' : Mem} {s₁ s' : State} {i p : Nat}

def outside (d : Block) (xs : List Block) : List Block :=
  xs.filter fun c => c.ptr < d.ptr ∨ d.ptr + d.size ≤ c.ptr

theorem outside_filter (h₁ : d.ptr ≤ p) (h₂ : p < d.ptr + d.size) :
    outside d (xs.filter (·.ptr ≠ p)) = outside d xs := by
  unfold outside
  rw [List.filter_filter]
  refine List.filter_congr fun c _ => ?_
  by_cases hc : c.ptr = p
  · simp [hc, h₁, h₂]
  · simp [hc]

/-- The free block `d` goes into its list, and the blocks that it has taken in
leave theirs. -/
def PutSecond (s s' : State) (d : Block) : Prop :=
  ∀ i < 16, s'.lists i = secondIn d i (outside d (s.lists i))

theorem PutSecond.of_same (h : PutSecond s₁ s' d) (hl : SameLists s s₁) :
    PutSecond s s' d := by
  intro i hi
  rw [h i hi, hl i hi]

theorem PutSecond.of_delete (h : PutSecond s₁ s' d)
    (hl : ∀ i < 16, s₁.lists i = (s.lists i).filter (·.ptr ≠ p)) (h₁ : d.ptr ≤ p)
    (h₂ : p < d.ptr + d.size) : PutSecond s s' d := by
  intro i hi
  rw [h i hi, hl i hi, outside_filter h₁ h₂]

theorem Heap.outside_lists (h : Heap s (l ++ d :: r) (FreeIn l r)) (hi : i < 16) :
    outside d (s.lists i) = s.lists i := by
  refine List.filter_eq_self.mpr fun c hc => ?_
  obtain ⟨⟨hside, -⟩, -⟩ := (h.mem_lists hi).mp hc
  simp only [decide_eq_true_eq]
  cases hside with
  | inl hl =>
      have hend := h.layout.tiles.left_end hl
      have hc16 := h.layout.tiles.size_ge (b := c) (by simp [hl])
      left
      omega
  | inr hr => exact .inr (h.layout.tiles.right_start hr)

theorem PutSecond.eq_secondIn (h : PutSecond s s' d)
    (hheap : Heap s (l ++ d :: r) (FreeIn l r)) (hi : i < 16) :
    s'.lists i = secondIn d i (s.lists i) := by
  rw [h i hi, hheap.outside_lists hi]

theorem Heap.not_listed (h : Heap s (l ++ d :: r) (FreeIn l r)) : ¬FreeIn l r d := by
  have h16 := h.layout.tiles.size_ge (b := d) (by simp)
  exact not_freeIn_inside h.layout.tiles (Nat.le_refl _) (by omega) (by omega)

/-- What a routine that ends in `insert_node` leaves: block list `bs`, all
free blocks in lists, and the payload of the allocated blocks of `cs` kept. -/
structure Merged (s : State) (m' : Mem) (bs cs : List Block) : Prop where
  heap : Heap (s.setMem m') bs (FreeOf bs)
  keeps : KeepsAllocated s.mem m' cs

theorem insertNode_merged (h : Heap s (l ++ d :: r) (FreeIn l r)) (hd : d.alloc = false) :
    ∃ m', insertNode s d.ptr d.size = some (s.setMem m') ∧
      Merged s m' (l ++ d :: r) (l ++ d :: r) ∧ PutSecond s (s.setMem m') d := by
  obtain ⟨m', heq, hheap, hkeep, hlists⟩ := h.insert (by simp) hd h.not_listed
  refine ⟨m', heq, ⟨hheap.iff fun c => freeOf_insert hd, hkeep⟩, fun i hi => ?_⟩
  rw [hlists i hi, h.outside_lists hi]

theorem insertMerged_spec (h : Heap s (l ++ d :: r) (FreeIn l r)) (hd : d.alloc = false) :
    ∃ m', insertMerged s d.ptr d.size = some (s.setMem m', d.ptr) ∧
      Merged s m' (l ++ d :: r) (l ++ d :: r) ∧ PutSecond s (s.setMem m') d := by
  obtain ⟨m₁, heq₁, -, hheap₁, hkeep₁, hlists₁⟩ := h.clearLinks (by simp) hd h.not_listed
  obtain ⟨m₂, heq₂, ⟨hheap₂, hkeep₂⟩, hput⟩ := insertNode_merged hheap₁ hd
  refine ⟨m₂, ?_, ⟨hheap₂, hkeep₁.trans hkeep₂ fun c hc _ => hc⟩, hput.of_same hlists₁⟩
  simp only [insertMerged, heq₁, heq₂, State.setMem_setMem, Option.map_some]

/-! ## The tag writes as state changes -/

theorem put_header_footer {p n k : Nat} (m : Mem) (h₁ : s.memStartBrk + 4 ≤ p)
    (h₂ : p + n ≤ s.memBrk) (h16 : 16 ≤ n) (hn : n % 8 = 0) (hk : k < 2)
    (hlt : s.memBrk < 2 ^ 32) :
    ((s.setMem m).put (hdrp p) (pack n k)).put
        (ftrp ((s.setMem m).put (hdrp p) (pack n k)).mem p) (pack n k) =
      s.setMem (retag m p (p + n) (pack n k)) := by
  have hhdr : (s.setMem m).put (hdrp p) (pack n k) =
      s.setMem (store m (hdrp p) (pack n k)) :=
    State.put_eq ⟨by simp [hdrp]; omega, by simp [hdrp]; omega⟩
  have hftr : ftrp (store m (hdrp p) (pack n k)) p = p + n - 8 := by
    rw [ftrp, getSize_header m hn hk (by omega)]
  rw [hhdr, State.setMem_mem, hftr, State.put_eq ⟨by simp; omega, by simp; omega⟩,
    ← retag_header_first m hn hk (by omega), hftr]
  rfl

namespace Heap

theorem ptr_bounds (h : Heap s bs F) (hb : b ∈ bs) :
    s.memStartBrk + 80 ≤ b.ptr ∧ b.ptr + b.size ≤ s.memBrk ∧ 16 ≤ b.size ∧
      b.size % 8 = 0 ∧ s.memBrk < 2 ^ 32 := by
  have hge := h.layout.tiles.ptr_ge hb
  have hbase := h.base
  exact ⟨by omega, h.layout.tiles.ptr_add_size_le hb, h.layout.tiles.size_ge hb,
    h.layout.tiles.size_mod hb, h.layout.hi_lt⟩

end Heap

/-! ## The four cases of `coalesce` -/

theorem coalesce_none (h : Heap s (l ++ b :: r) (FreeIn l r)) (hb : b.alloc = false)
    (hl : Layout.EndsAllocated l) (hr : Layout.StartsAllocated r) :
    ∃ m', coalesce s b.ptr = some (s.setMem m', b.ptr) ∧
      Merged s m' (l ++ b :: r) (l ++ b :: r) ∧ PutSecond s (s.setMem m') b := by
  have hprev := h.layout.prevAlloc_of_ends hl
  have hnext := h.layout.nextAlloc_of_starts hr
  have hsize := h.layout.getSize_hdrp (b := b) (by simp)
  obtain ⟨m', heq, hmerged, hput⟩ := insertNode_merged h hb
  refine ⟨m', ?_, hmerged, hput⟩
  simp [coalesce, hprev, hnext, hsize, heq]

theorem coalesce_after (h : Heap s (l ++ b :: c :: r) (FreeIn l (c :: r)))
    (hl : Layout.EndsAllocated l) (hc : c.alloc = false) :
    ∃ m', coalesce s b.ptr = some (s.setMem m', b.ptr) ∧
      Merged s m' (l ++ ⟨b.ptr, b.size + c.size, false⟩ :: r) (l ++ r) ∧
      PutSecond s (s.setMem m') ⟨b.ptr, b.size + c.size, false⟩ := by
  have hprev := h.layout.prevAlloc_of_ends hl
  have hnext := h.layout.nextAlloc_of_free hc
  have hnptr := h.layout.nextBlkp_cons
  have hbsize := h.layout.getSize_hdrp (b := b) (by simp)
  have hcsize := h.layout.getSize_hdrp (b := c) (by simp)
  have hend := h.layout.tiles.prev_end
  obtain ⟨hb₁, -, hb₃, hb₄, hb₅⟩ := h.ptr_bounds (b := b) (by simp)
  obtain ⟨-, hc₂, hc₃, hc₄, -⟩ := h.ptr_bounds (b := c) (by simp)
  obtain ⟨m₁, heq₁, hheap₁, hkeep₁, hlists₁⟩ := h.delete (b := c) ⟨.inr (by simp), hc⟩
  have hheap₁' : Heap (s.setMem m₁) (l ++ [b, c] ++ r) (FreeIn l r) := by
    have := hheap₁.iff fun e => freeIn_delete_after (e := e) h.layout.tiles.nodup
    simpa using this
  obtain ⟨hheap₂, hpay₂, hlists₂⟩ := hheap₁'.retag (d := ⟨b.ptr, b.size + c.size, false⟩)
    (fun _ => freeIn_side) (by simp) ⟨rfl, hb₃, hb₄, hend.symm, hc₃, hc₄, by simp; omega⟩
  obtain ⟨m₃, heq₃, hmerged, hput⟩ := insertMerged_spec hheap₂ rfl
  refine ⟨m₃, ?_, ⟨hmerged.heap, ?_⟩, (hput.of_same hlists₂).of_delete hlists₁
    (by simp; omega) (by simp; omega)⟩
  · have hputs := put_header_footer (s := s) (p := b.ptr) (n := b.size + c.size) (k := 0)
      m₁ (by omega) (by omega) (by omega) (by omega) (by omega) hb₅
    have hcase : coalesce s b.ptr = mergeNext s b.ptr := by simp [coalesce, hprev, hnext]
    rw [hcase, mergeNext]
    simp only [hnptr, hbsize, hcsize, heq₁,
      addw_eq (show b.size + c.size < 2 ^ 32 by omega), hputs]
    exact heq₃
  · exact KeepsAllocated.around [b, c] [⟨b.ptr, b.size + c.size, false⟩]
      (by simpa using hkeep₁) hpay₂ (by simpa using hmerged.keeps)

theorem coalesce_before (h : Heap s (l ++ a :: b :: r) (FreeIn (l ++ [a]) r))
    (ha : a.alloc = false) (hr : Layout.StartsAllocated r) :
    ∃ m', coalesce s b.ptr = some (s.setMem m', a.ptr) ∧
      Merged s m' (l ++ ⟨a.ptr, a.size + b.size, false⟩ :: r) (l ++ r) ∧
      PutSecond s (s.setMem m') ⟨a.ptr, a.size + b.size, false⟩ := by
  have hprev := h.layout.prevAlloc_of_free ha
  have hnext : getAlloc s.mem (hdrp (nextBlkp s.mem b.ptr)) = 1 :=
    Layout.nextAlloc_of_starts (l := l ++ [a]) (by simpa using h.layout) hr
  have hpptr := h.layout.prevBlkp_concat
  have hbsize := h.layout.getSize_hdrp (b := b) (by simp)
  have hasize := h.layout.getSize_hdrp (b := a) (by simp)
  have hend := h.layout.tiles.prev_end
  obtain ⟨ha₁, -, ha₃, ha₄, ha₅⟩ := h.ptr_bounds (b := a) (by simp)
  obtain ⟨-, hb₂, hb₃, hb₄, -⟩ := h.ptr_bounds (b := b) (by simp)
  obtain ⟨m₁, heq₁, hheap₁, hkeep₁, hlists₁⟩ := h.delete (b := a) ⟨.inl (by simp), ha⟩
  have hheap₁' : Heap (s.setMem m₁) (l ++ [a, b] ++ r) (FreeIn l r) := by
    have := hheap₁.iff fun e => freeIn_delete_before (e := e) h.layout.tiles.nodup
    simpa using this
  obtain ⟨hheap₂, hpay₂, hlists₂⟩ := hheap₁'.retag (d := ⟨a.ptr, a.size + b.size, false⟩)
    (fun _ => freeIn_side) (by simp) ⟨rfl, ha₃, ha₄, hend.symm, hb₃, hb₄, by simp; omega⟩
  obtain ⟨m₃, heq₃, hmerged, hput⟩ := insertMerged_spec hheap₂ rfl
  refine ⟨m₃, ?_, ⟨hmerged.heap, ?_⟩, (hput.of_same hlists₂).of_delete hlists₁
    (by simp) (by simp; omega)⟩
  · obtain ⟨hpp, hw, hpp'⟩ := coalesce_before_writes hheap₁.layout
      (pack (a.size + b.size) 0)
    have hftr : ftrp m₁ b.ptr = b.ptr + b.size - 8 := hheap₁.layout.ftrp_eq (by simp)
    have hput₁ : (s.setMem m₁).put (ftrp m₁ b.ptr) (pack (a.size + b.size) 0) =
        s.setMem (store m₁ (ftrp m₁ b.ptr) (pack (a.size + b.size) 0)) :=
      h.put_eq m₁ _ (by omega) (by omega)
    have hput₂ : ∀ m v, (s.setMem m).put (hdrp a.ptr) v = s.setMem (store m (hdrp a.ptr) v) :=
      fun m v => h.put_eq m v (by unfold hdrp; omega) (by unfold hdrp; omega)
    have hd : b.ptr + b.size = a.ptr + (a.size + b.size) := by omega
    rw [State.setMem_mem, hd] at hw hpp'
    rw [State.setMem_mem] at hpp
    have hcase : coalesce s b.ptr = mergePrev s b.ptr := by simp [coalesce, hprev, hnext]
    rw [hcase, mergePrev]
    simp only [hpptr, hbsize, hasize, heq₁, State.setMem_mem, hput₁, hpp, hput₂,
      addw_eq (show b.size + a.size < 2 ^ 32 by omega), Nat.add_comm b.size a.size, hw, hpp']
    exact heq₃
  · exact KeepsAllocated.around [a, b] [⟨a.ptr, a.size + b.size, false⟩]
      (by simpa using hkeep₁) hpay₂ (by simpa using hmerged.keeps)

theorem coalesce_both (h : Heap s (l ++ a :: b :: c :: r) (FreeIn (l ++ [a]) (c :: r)))
    (ha : a.alloc = false) (hc : c.alloc = false) :
    ∃ m', coalesce s b.ptr = some (s.setMem m', a.ptr) ∧
      Merged s m' (l ++ ⟨a.ptr, a.size + b.size + c.size, false⟩ :: r) (l ++ r) ∧
      PutSecond s (s.setMem m') ⟨a.ptr, a.size + b.size + c.size, false⟩ := by
  have h' : Layout s.mem (s.heapListp + 8) ((l ++ [a]) ++ b :: c :: r) s.memBrk := by
    simpa using h.layout
  have hprev := h.layout.prevAlloc_of_free ha
  have hnext := h'.nextAlloc_of_free hc
  have hpptr := h.layout.prevBlkp_concat
  have hnptr := h'.nextBlkp_cons
  have hbsize := h.layout.getSize_hdrp (b := b) (by simp)
  have hasize := h.layout.getSize_hdrp (b := a) (by simp)
  have hcsize := h.layout.getSize_ftrp (b := c) (by simp)
  have hab := h.layout.tiles.prev_end
  have hbc := h'.tiles.prev_end
  obtain ⟨ha₁, -, ha₃, ha₄, ha₅⟩ := h.ptr_bounds (b := a) (by simp)
  obtain ⟨-, hb₂, hb₃, hb₄, -⟩ := h.ptr_bounds (b := b) (by simp)
  obtain ⟨-, hc₂, hc₃, hc₄, -⟩ := h.ptr_bounds (b := c) (by simp)
  obtain ⟨m₁, heq₁, hheap₁, hkeep₁, hlists₁⟩ := h.delete (b := a) ⟨.inl (by simp), ha⟩
  have hheap₁' : Heap (s.setMem m₁) (l ++ a :: b :: c :: r) (FreeIn l (c :: r)) :=
    hheap₁.iff fun e => freeIn_delete_before (e := e) h.layout.tiles.nodup
  have hnptr₁ : nextBlkp m₁ b.ptr = c.ptr :=
    Layout.nextBlkp_cons (l := l ++ [a]) (by simpa using hheap₁'.layout)
  obtain ⟨m₂, heq₂, hheap₂, hkeep₂, hlists₂⟩ := hheap₁'.delete (b := c) ⟨.inr (by simp), hc⟩
  have hheap₂' : Heap (s.setMem m₂) (l ++ [a, b, c] ++ r) (FreeIn l r) := by
    have := hheap₂.iff fun e => freeIn_delete_after (l := l) (b := b) (e := e) (by
      have hnd := h.layout.tiles.nodup
      exact hnd.sublist (by simp))
    simpa using this
  have hlay₂ : Layout m₂ (s.heapListp + 8) (l ++ a :: b :: c :: r) s.memBrk := by
    simpa using hheap₂'.layout
  obtain ⟨hheap₃, hpay₃, hlists₃⟩ := hheap₂'.retag
    (d := ⟨a.ptr, a.size + b.size + c.size, false⟩) (fun _ => freeIn_side) (by simp)
    ⟨rfl, ha₃, ha₄, hab.symm, hb₃, hb₄, by rw [hab]; exact hbc.symm, hc₃, hc₄,
      by simp [Nat.add_assoc]⟩
  obtain ⟨m₄, heq₄, hmerged, hput⟩ := insertMerged_spec hheap₃ rfl
  refine ⟨m₄, ?_, ⟨hmerged.heap, ?_⟩, ((hput.of_same hlists₃).of_delete hlists₂
    (by simp; omega) (by simp; omega)).of_delete hlists₁ (by simp) (by simp; omega)⟩
  · obtain ⟨hftr, hpp⟩ := coalesce_both_writes hlay₂ (pack (a.size + b.size + c.size) 0)
    have hput₁ : ∀ m v, (s.setMem m).put (hdrp a.ptr) v = s.setMem (store m (hdrp a.ptr) v) :=
      fun m v => h.put_eq m v (by unfold hdrp; omega) (by unfold hdrp; omega)
    have hput₂ : ∀ m v, (s.setMem m).put (c.ptr + c.size - 8) v =
        s.setMem (store m (c.ptr + c.size - 8) v) :=
      fun m v => h.put_eq m v (by omega) (by omega)
    have hsum : addw b.size (addw a.size c.size) = a.size + b.size + c.size := by
      rw [addw_eq (show a.size + c.size < 2 ^ 32 by omega), addw_eq (by omega)]
      omega
    have hd : c.ptr + c.size = a.ptr + (a.size + b.size + c.size) := by omega
    have hcase : coalesce s b.ptr = mergeBoth s b.ptr := by simp [coalesce, hprev, hnext]
    have heq₂' : deleteNode (s.setMem m₁) c.ptr = s.setMem m₂ := heq₂
    have hw : store (store m₂ (hdrp a.ptr) (pack (a.size + b.size + c.size) 0))
        (c.ptr + c.size - 8) (pack (a.size + b.size + c.size) 0) =
        retag m₂ a.ptr (c.ptr + c.size) (pack (a.size + b.size + c.size) 0) := rfl
    have hpp₂ : prevBlkp m₂ b.ptr = a.ptr := hlay₂.prevBlkp_concat
    rw [hcase, mergeBoth]
    simp only [hpptr, hnptr, hbsize, hasize, hcsize, hsum, heq₁, State.setMem_mem, hnptr₁,
      heq₂', hpp₂, hput₁, hftr, hput₂, hw, hpp]
    rw [hd]
    exact heq₄
  · have hkeep : KeepsAllocated s.mem m₂ (l ++ a :: b :: c :: r) :=
      hkeep₁.trans hkeep₂ fun e he _ => he
    exact KeepsAllocated.around [a, b, c] [⟨a.ptr, a.size + b.size + c.size, false⟩]
      (by simpa using hkeep) hpay₃ (by simpa using hmerged.keeps)

theorem coalesce_spec (h : Heap s (l ++ b :: r) (FreeIn l r)) (hb : b.alloc = false) :
    ∃ m', coalesce s b.ptr = some (s.setMem m', (mergedBlock l b r).ptr) ∧
      Merged s m' (coalesceBlocks l b r) (l ++ r) ∧
      PutSecond s (s.setMem m') (mergedBlock l b r) := by
  have hself : (⟨b.ptr, b.size, false⟩ : Block) = b := by rw [← hb]
  rcases Layout.endsAllocated_or l with hl | ⟨l, a, rfl, ha⟩ <;>
    rcases Layout.startsAllocated_or r with hr | ⟨c, r, rfl, hc⟩
  · obtain ⟨m', heq, ⟨hheap, hkeep⟩, hput⟩ := coalesce_none h hb hl hr
    rw [coalesceBlocks_none hl hr, hself]
    exact ⟨m', by simpa [mergedBlock, hl] using heq, ⟨hheap, hkeep.without⟩,
      by simpa [mergedBlock, hl, hr, hself] using hput⟩
  · obtain ⟨m', heq, ⟨hheap, hkeep⟩, hput⟩ := coalesce_after h hl hc
    rw [coalesceBlocks_after hl hc]
    exact ⟨m', by simpa [mergedBlock, hl] using heq, ⟨hheap, hkeep.insert_free hc⟩,
      by simpa [mergedBlock, hl, hc] using hput⟩
  · obtain ⟨m', heq, ⟨hheap, hkeep⟩, hput⟩ := coalesce_before (by simpa using h) ha hr
    rw [coalesceBlocks_before ha hr]
    exact ⟨m', by simpa [mergedBlock, ha] using heq,
      ⟨hheap, by simpa using hkeep.insert_free ha⟩, by simpa [mergedBlock, ha, hr] using hput⟩
  · obtain ⟨m', heq, ⟨hheap, hkeep⟩, hput⟩ := coalesce_both (by simpa using h) ha hc
    rw [coalesceBlocks_both ha hc]
    exact ⟨m', by simpa [mergedBlock, ha] using heq,
      ⟨hheap, by simpa using (hkeep.insert_free hc).insert_free ha⟩,
      by simpa [mergedBlock, ha, hc] using hput⟩

end CsappLabs.Malloc.Segregated
