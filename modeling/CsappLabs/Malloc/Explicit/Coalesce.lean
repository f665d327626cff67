import CsappLabs.Malloc.Explicit.Heap

/-!
# `coalesce` and `extend_heap`

`coalesce` is given a free block that is not in the list.  It merges the block
with its free neighbours, as `coalesceBlocks` says, and the list holds the merged
block afterwards.  A free block that the list has lost stays lost, unless it is a
neighbour; all `coalesce` needs of the block in front is that `delete_node`
leaves a list without it.
-/

namespace CsappLabs.Malloc.Explicit

open CsappLabs.Foundation

variable {s : State} {F F' : Block → Prop} {a b c d : Block} {bs l r xs : List Block}
  {m m' : Mem} {n p : Nat}

def Unlinks (s : State) (a : Block) (bs : List Block) (F' : Block → Prop) : Prop :=
  ∃ m', deleteNode s a.ptr = s.setMem m' ∧ Heap (s.setMem m') bs F' ∧
    KeepsAllocated s.mem m' bs

theorem Heap.unlinks (h : Heap s bs F) (ha : F a) (hF : ∀ c, F' c ↔ F c ∧ c ≠ a) :
    Unlinks s a bs F' := by
  obtain ⟨m', heq, hheap, hkeep⟩ := h.delete ha
  exact ⟨m', heq, hheap.iff hF, hkeep⟩

/-- The free blocks on the two sides, of those in `F`. -/
def ListedIn (F : Block → Prop) (l r : List Block) (c : Block) : Prop := FreeIn l r c ∧ F c

theorem listedIn_true : ListedIn (fun _ => True) l r = FreeIn l r :=
  funext fun _ => propext (and_iff_left trivial)

theorem listedIn_side (h : ListedIn F l r c) : c ∈ l ∨ c ∈ r := freeIn_side h.1

theorem listedIn_delete_after (h : (l ++ b :: c :: r).Nodup) {e : Block} :
    ListedIn F l r e ↔ ListedIn F l (c :: r) e ∧ e ≠ c := by
  rw [ListedIn, freeIn_delete_after h, ListedIn, and_right_comm]

theorem listedIn_delete_before (h : (l ++ a :: b :: r).Nodup) {e : Block} :
    ListedIn F l r e ↔ ListedIn F (l ++ [a]) r e ∧ e ≠ a := by
  rw [ListedIn, freeIn_delete_before h, ListedIn, and_right_comm]

theorem listedIn_insert (hd : d.alloc = false) (hF : F d) :
    FreeOf (l ++ d :: r) c ∧ F c ↔ ListedIn F l r c ∨ c = d := by
  rw [freeOf_insert hd, ListedIn, or_and_right]
  exact or_congr_right ⟨And.left, fun h => ⟨h, h ▸ hF⟩⟩

/-- What a routine that ends in `insert_node` leaves: block list `bs`, its free
blocks in the list as far as `F` holds them, and the payload of the allocated
blocks of `cs` kept. -/
structure Merged (s : State) (m' : Mem) (F : Block → Prop) (bs cs : List Block) : Prop where
  heap : Heap (s.setMem m') bs (fun c => FreeOf bs c ∧ F c)
  keeps : KeepsAllocated s.mem m' cs

theorem Merged.whole (h : Merged s m' (fun _ => True) bs xs) :
    Heap (s.setMem m') bs (FreeOf bs) :=
  h.heap.iff fun _ => (and_iff_left trivial).symm

theorem not_freeIn_self (h : (l ++ d :: r).Nodup) : ¬FreeIn l r d := by
  obtain ⟨-, hr, hdisj⟩ := List.nodup_append.mp h
  rintro ⟨hd | hd, -⟩
  · exact hdisj d hd d (by simp) rfl
  · exact (List.nodup_cons.mp hr).1 hd

structure LinkedFirst (s : State) (G : Block → Prop) (m' : Mem) (d : Nat) : Prop where
  succ : ∀ u, LinkNode s G u → getSuccessor m' u =
    if u = d then getSuccessor s.mem s.heapFreep
    else if u = s.heapFreep then d else getSuccessor s.mem u
  pred : ∀ u, LinkNode s G u → getPredecessor m' u =
    if u = getSuccessor s.mem s.heapFreep then d
    else if u = d then s.heapFreep else getPredecessor s.mem u

theorem insertNode_merged (h : Heap s (l ++ d :: r) (ListedIn F l r)) (hd : d.alloc = false)
    (hF : F d) :
    ∃ m', insertNode s d.ptr = s.setMem m' ∧ Merged s m' F (l ++ d :: r) (l ++ d :: r) ∧
      LinkedFirst s (fun c => ListedIn F l r c ∨ c = d) m' d.ptr := by
  have hG : ∀ c, ListedIn F l r c ∨ c = d → c ∈ l ++ d :: r ∧ c.alloc = false :=
    fun c hc => ((listedIn_insert hd hF).mpr hc).1
  obtain ⟨m', heq, honly, hlist, hsucc, hpred⟩ :=
    insertNode_spec (h.nodes_of fun c hc => (hG c hc).1)
      (fun hc => not_freeIn_self h.layout.tiles.nodup hc.1) h.list
  obtain ⟨hheap, hkeep⟩ := h.of_links hG honly hlist hG
  exact ⟨m', heq, ⟨hheap.iff fun c => listedIn_insert hd hF, hkeep⟩, hsucc, hpred⟩

/-! ## The tag writes as state changes -/

theorem put_header_footer {k : Nat} (s : State) (hn : n % 8 = 0) (hk : k < 2)
    (hlt : n < 2 ^ 32) :
    (s.put (hdrp p) (pack n k)).put (ftrp (s.put (hdrp p) (pack n k)).mem p) (pack n k) =
      s.setMem (retag s.mem p (p + n) (pack n k)) := by
  rw [← retag_header_first s.mem hn hk hlt]
  rfl

/-! ## The four cases of `coalesce` -/

theorem prevBlkp_ne (h : Heap s (l ++ a :: b :: r) F') : prevBlkp s.mem b.ptr ≠ b.ptr := by
  have hend := h.layout.tiles.prev_end
  have h16 := h.layout.tiles.size_ge (b := a) (by simp)
  rw [h.layout.prevBlkp_concat]
  omega

theorem coalesce_insert (h : Heap s (l ++ b :: r) F') (hl : Layout.EndsAllocated l)
    (hr : Layout.StartsAllocated r) : coalesce s b.ptr = (insertNode s b.ptr, b.ptr) := by
  have hprev := h.layout.prevAlloc_of_ends hl
  have hnext := h.layout.nextAlloc_of_starts hr
  simp [coalesce, hprev, hnext]

theorem coalesce_none (h : Heap s (l ++ b :: r) (ListedIn F l r)) (hb : b.alloc = false)
    (hF : F b) (hl : Layout.EndsAllocated l) (hr : Layout.StartsAllocated r) :
    ∃ m', coalesce s b.ptr = (s.setMem m', b.ptr) ∧
      Merged s m' F (l ++ b :: r) (l ++ b :: r) := by
  obtain ⟨m', heq, hmerged, -⟩ := insertNode_merged h hb hF
  exact ⟨m', by rw [coalesce_insert h hl hr, heq], hmerged⟩

theorem coalesce_after (h : Heap s (l ++ b :: c :: r) (ListedIn F l (c :: r)))
    (hl : Layout.EndsAllocated l) (hc : c.alloc = false) (hcF : F c)
    (hF : F ⟨b.ptr, b.size + c.size, false⟩) :
    ∃ m', coalesce s b.ptr = (s.setMem m', b.ptr) ∧
      Merged s m' F (l ++ ⟨b.ptr, b.size + c.size, false⟩ :: r) (l ++ r) := by
  have hprev := h.layout.prevAlloc_of_ends hl
  have hnext := h.layout.nextAlloc_of_free hc
  have hnptr := h.layout.nextBlkp_cons
  have hbsize := h.layout.getSize_hdrp (b := b) (by simp)
  have hcsize := h.layout.getSize_hdrp (b := c) (by simp)
  have hend := h.layout.tiles.prev_end
  obtain ⟨-, -, hb₃, hb₄, hb₅⟩ := h.ptr_bounds (b := b) (by simp)
  obtain ⟨-, hc₂, hc₃, hc₄, -⟩ := h.ptr_bounds (b := c) (by simp)
  obtain ⟨m₁, heq₁, hheap₁, hkeep₁⟩ := h.delete (b := c) ⟨⟨.inr (by simp), hc⟩, hcF⟩
  have hheap₁' : Heap (s.setMem m₁) (l ++ [b, c] ++ r) (ListedIn F l r) := by
    have := hheap₁.iff fun e => listedIn_delete_after (F := F) (e := e) h.layout.tiles.nodup
    simpa using this
  obtain ⟨hheap₂, hpay₂⟩ := hheap₁'.retag (d := ⟨b.ptr, b.size + c.size, false⟩)
    (fun _ => listedIn_side) (by simp)
    ⟨rfl, hb₃, hb₄, hend.symm, hc₃, hc₄, by simp [Nat.add_assoc]⟩
  obtain ⟨m₃, heq₃, hmerged, -⟩ := insertNode_merged hheap₂ rfl hF
  refine ⟨m₃, ?_, hmerged.heap, ?_⟩
  · have htags := put_header_footer (p := b.ptr) (n := b.size + c.size) (k := 0) (s.setMem m₁)
      (by omega) (by decide) (by omega)
    have hmerge : mergeNext s b.ptr = s.setMem
        (retag m₁ b.ptr (b.ptr + (b.size + c.size)) (pack (b.size + c.size) 0)) := by
      rw [mergeNext, hnptr, hbsize, hcsize, heq₁,
        addw_eq (show b.size + c.size < 2 ^ 32 by omega)]
      exact htags
    have heq₃' : insertNode (s.setMem (retag m₁ b.ptr (b.ptr + (b.size + c.size))
        (pack (b.size + c.size) 0))) b.ptr = s.setMem m₃ := heq₃
    simp [coalesce, hprev, hnext, hmerge, heq₃']
  · exact KeepsAllocated.around [b, c] [⟨b.ptr, b.size + c.size, false⟩]
      (by simpa using hkeep₁) hpay₂ (by simpa using hmerged.keeps)

theorem coalesce_before (h : Heap s (l ++ a :: b :: r) F')
    (hdel : Unlinks s a (l ++ a :: b :: r) (ListedIn F l r)) (ha : a.alloc = false)
    (hr : Layout.StartsAllocated r) (hF : F ⟨a.ptr, a.size + b.size, false⟩) :
    ∃ m', coalesce s b.ptr = (s.setMem m', a.ptr) ∧
      Merged s m' F (l ++ ⟨a.ptr, a.size + b.size, false⟩ :: r) (l ++ r) := by
  have h' : Layout s.mem (s.heapListp + 8) ((l ++ [a]) ++ b :: r) s.memBrk := by
    simpa using h.layout
  have hprev := h.layout.prevAlloc_of_free ha
  have hnext := h'.nextAlloc_of_starts hr
  have hpptr := h.layout.prevBlkp_concat
  have hne := prevBlkp_ne h
  have hbsize := h.layout.getSize_hdrp (b := b) (by simp)
  have hasize := h.layout.getSize_hdrp (b := a) (by simp)
  have hend := h.layout.tiles.prev_end
  obtain ⟨-, -, ha₃, ha₄, ha₅⟩ := h.ptr_bounds (b := a) (by simp)
  obtain ⟨-, hb₂, hb₃, hb₄, -⟩ := h.ptr_bounds (b := b) (by simp)
  obtain ⟨m₁, heq₁, hheap₁, hkeep₁⟩ := hdel
  have hheap₁' : Heap (s.setMem m₁) (l ++ [a, b] ++ r) (ListedIn F l r) := by simpa using hheap₁
  obtain ⟨hheap₂, hpay₂⟩ := hheap₁'.retag (d := ⟨a.ptr, a.size + b.size, false⟩)
    (fun _ => listedIn_side) (by simp)
    ⟨rfl, ha₃, ha₄, hend.symm, hb₃, hb₄, by simp [Nat.add_assoc]⟩
  obtain ⟨m₃, heq₃, hmerged, -⟩ := insertNode_merged hheap₂ rfl hF
  refine ⟨m₃, ?_, hmerged.heap, ?_⟩
  · obtain ⟨hpp, hw, hpp'⟩ := coalesce_before_writes hheap₁.layout (pack (a.size + b.size) 0)
    have hd : b.ptr + b.size = a.ptr + (a.size + b.size) := by omega
    rw [State.setMem_mem, hd] at hw hpp'
    rw [State.setMem_mem] at hpp
    have hmerge : mergePrev s b.ptr = s.setMem
        (retag m₁ a.ptr (a.ptr + (a.size + b.size)) (pack (a.size + b.size) 0)) := by
      rw [mergePrev, hpptr, hbsize, hasize, heq₁,
        addw_eq (show b.size + a.size < 2 ^ 32 by omega), Nat.add_comm b.size a.size]
      simp only [State.put_eq, State.setMem_mem, State.setMem_setMem, hpp, hw]
    have heq₃' : insertNode (s.setMem (retag m₁ a.ptr (a.ptr + (a.size + b.size))
        (pack (a.size + b.size) 0))) a.ptr = s.setMem m₃ := heq₃
    have hcase : coalesce s b.ptr = (insertNode (mergePrev s b.ptr)
        (prevBlkp (mergePrev s b.ptr).mem b.ptr), prevBlkp (mergePrev s b.ptr).mem b.ptr) := by
      simp [coalesce, hprev, hnext, hne]
    rw [hcase, hmerge, State.setMem_mem, hpp', heq₃']
  · exact KeepsAllocated.around [a, b] [⟨a.ptr, a.size + b.size, false⟩]
      (by simpa using hkeep₁) hpay₂ (by simpa using hmerged.keeps)

theorem coalesce_both (h : Heap s (l ++ a :: b :: c :: r) F')
    (hdel : Unlinks s a (l ++ a :: b :: c :: r) (ListedIn F l (c :: r))) (ha : a.alloc = false)
    (hc : c.alloc = false) (hcF : F c) (hF : F ⟨a.ptr, a.size + b.size + c.size, false⟩) :
    ∃ m', coalesce s b.ptr = (s.setMem m', a.ptr) ∧
      Merged s m' F (l ++ ⟨a.ptr, a.size + b.size + c.size, false⟩ :: r) (l ++ r) := by
  have h' : Layout s.mem (s.heapListp + 8) ((l ++ [a]) ++ b :: c :: r) s.memBrk := by
    simpa using h.layout
  have hprev := h.layout.prevAlloc_of_free ha
  have hnext := h'.nextAlloc_of_free hc
  have hpptr := h.layout.prevBlkp_concat
  have hnptr := h'.nextBlkp_cons
  have hne := prevBlkp_ne h
  have hbsize := h.layout.getSize_hdrp (b := b) (by simp)
  have hasize := h.layout.getSize_hdrp (b := a) (by simp)
  have hcsize := h.layout.getSize_ftrp (b := c) (by simp)
  have hab := h.layout.tiles.prev_end
  have hbc := h'.tiles.prev_end
  obtain ⟨-, -, ha₃, ha₄, ha₅⟩ := h.ptr_bounds (b := a) (by simp)
  obtain ⟨-, hb₂, hb₃, hb₄, -⟩ := h.ptr_bounds (b := b) (by simp)
  obtain ⟨-, hc₂, hc₃, hc₄, -⟩ := h.ptr_bounds (b := c) (by simp)
  obtain ⟨m₁, heq₁, hheap₁, hkeep₁⟩ := hdel
  have hnptr₁ : nextBlkp m₁ b.ptr = c.ptr :=
    Layout.nextBlkp_cons (l := l ++ [a]) (by simpa using hheap₁.layout)
  obtain ⟨m₂, heq₂, hheap₂, hkeep₂⟩ := hheap₁.delete (b := c) ⟨⟨.inr (by simp), hc⟩, hcF⟩
  have hheap₂' : Heap (s.setMem m₂) (l ++ [a, b, c] ++ r) (ListedIn F l r) := by
    have := hheap₂.iff fun e => listedIn_delete_after (F := F) (l := l) (b := b) (e := e) (by
      have hnd := h.layout.tiles.nodup
      exact hnd.sublist (by simp))
    simpa using this
  have hlay₂ : Layout m₂ (s.heapListp + 8) (l ++ a :: b :: c :: r) s.memBrk := by
    simpa using hheap₂'.layout
  obtain ⟨hheap₃, hpay₃⟩ := hheap₂'.retag
    (d := ⟨a.ptr, a.size + b.size + c.size, false⟩) (fun _ => listedIn_side) (by simp)
    ⟨rfl, ha₃, ha₄, hab.symm, hb₃, hb₄, by rw [hab]; exact hbc.symm, hc₃, hc₄,
      by simp [Nat.add_assoc]⟩
  obtain ⟨m₄, heq₄, hmerged, -⟩ := insertNode_merged hheap₃ rfl hF
  refine ⟨m₄, ?_, hmerged.heap, ?_⟩
  · obtain ⟨hftr, hpp⟩ := coalesce_both_writes hlay₂ (pack (a.size + b.size + c.size) 0)
    have hsum : addw b.size (addw a.size c.size) = a.size + b.size + c.size := by
      rw [addw_eq (show a.size + c.size < 2 ^ 32 by omega), addw_eq (by omega)]
      omega
    have hd : c.ptr + c.size = a.ptr + (a.size + b.size + c.size) := by omega
    have hpp₂ : prevBlkp m₂ b.ptr = a.ptr := hlay₂.prevBlkp_concat
    have hw : store (store m₂ (hdrp a.ptr) (pack (a.size + b.size + c.size) 0))
        (c.ptr + c.size - 8) (pack (a.size + b.size + c.size) 0) =
        retag m₂ a.ptr (c.ptr + c.size) (pack (a.size + b.size + c.size) 0) := rfl
    have hmerge : mergeBoth s b.ptr = s.setMem
        (retag m₂ a.ptr (c.ptr + c.size) (pack (a.size + b.size + c.size) 0)) := by
      rw [mergeBoth, hpptr, hnptr, hbsize, hasize, hcsize, heq₁]
      simp only [State.setMem_mem, hnptr₁, heq₂, State.setMem_setMem, State.put_eq, hpp₂,
        hsum, hftr, hw]
    have hcase : coalesce s b.ptr = (insertNode (mergeBoth s b.ptr)
        (prevBlkp (mergeBoth s b.ptr).mem b.ptr), prevBlkp (mergeBoth s b.ptr).mem b.ptr) := by
      simp [coalesce, hprev, hnext, hne]
    rw [hcase, hmerge, State.setMem_mem, hpp, hd]
    have heq₄' : insertNode (s.setMem (retag m₂ a.ptr (a.ptr + (a.size + b.size + c.size))
        (pack (a.size + b.size + c.size) 0))) a.ptr = s.setMem m₄ := heq₄
    rw [heq₄']
  · have hkeep : KeepsAllocated s.mem m₂ (l ++ a :: b :: c :: r) :=
      hkeep₁.trans hkeep₂ fun e he _ => he
    exact KeepsAllocated.around [a, b, c] [⟨a.ptr, a.size + b.size + c.size, false⟩]
      (by simpa using hkeep) hpay₃ (by simpa using hmerged.keeps)

theorem coalesce_spec_before (h : Heap s (l ++ a :: b :: r) F')
    (hdel : Unlinks s a (l ++ a :: b :: r) (ListedIn F l r)) (ha : a.alloc = false)
    (hnext : ∀ c ∈ freeAfter r, F c) (hF : F (mergedBlock (l ++ [a]) b r)) :
    ∃ m', coalesce s b.ptr = (s.setMem m', (mergedBlock (l ++ [a]) b r).ptr) ∧
      Merged s m' F (coalesceBlocks (l ++ [a]) b r) (l ++ [a] ++ r) := by
  rcases Layout.startsAllocated_or r with hr | ⟨c, r, rfl, hc⟩
  · obtain ⟨m', heq, hheap, hkeep⟩ :=
      coalesce_before h hdel ha hr (by simpa [mergedBlock, ha, hr] using hF)
    rw [coalesceBlocks_before ha hr]
    exact ⟨m', by simpa [mergedBlock, ha] using heq, hheap,
      by simpa using hkeep.insert_free ha⟩
  · obtain ⟨m', heq, hheap, hkeep⟩ := coalesce_both h hdel ha hc
      (hnext c (by simp [hc])) (by simpa [mergedBlock, ha, hc] using hF)
    rw [coalesceBlocks_both ha hc]
    exact ⟨m', by simpa [mergedBlock, ha] using heq, hheap,
      by simpa using (hkeep.insert_free hc).insert_free ha⟩

theorem coalesce_listed (h : Heap s (l ++ b :: r) (ListedIn F l r)) (hb : b.alloc = false)
    (hprev : ∀ a ∈ freeBefore l, F a) (hnext : ∀ c ∈ freeAfter r, F c)
    (hF : F (mergedBlock l b r)) :
    ∃ m', coalesce s b.ptr = (s.setMem m', (mergedBlock l b r).ptr) ∧
      Merged s m' F (coalesceBlocks l b r) (l ++ r) := by
  have hself : (⟨b.ptr, b.size, false⟩ : Block) = b := by rw [← hb]
  rcases Layout.endsAllocated_or l with hl | ⟨l, a, rfl, ha⟩
  · rcases Layout.startsAllocated_or r with hr | ⟨c, r, rfl, hc⟩
    · obtain ⟨m', heq, hheap, hkeep⟩ :=
        coalesce_none h hb (by simpa [mergedBlock, hl, hr, hself] using hF) hl hr
      rw [coalesceBlocks_none hl hr, hself]
      exact ⟨m', by simpa [mergedBlock, hl] using heq, hheap, hkeep.without⟩
    · obtain ⟨m', heq, hheap, hkeep⟩ := coalesce_after h hl hc
        (hnext c (by simp [hc])) (by simpa [mergedBlock, hl, hc] using hF)
      rw [coalesceBlocks_after hl hc]
      exact ⟨m', by simpa [mergedBlock, hl] using heq, hheap, hkeep.insert_free hc⟩
  · have h' : Heap s (l ++ a :: b :: r) (ListedIn F (l ++ [a]) r) := by simpa using h
    exact coalesce_spec_before h'
      (h'.unlinks ⟨⟨.inl (by simp), ha⟩, hprev a (by simp [ha])⟩ fun e =>
        listedIn_delete_before (e := e) h'.layout.tiles.nodup) ha hnext hF

theorem coalesce_spec (h : Heap s (l ++ b :: r) (FreeIn l r)) (hb : b.alloc = false) :
    ∃ m', coalesce s b.ptr = (s.setMem m', (mergedBlock l b r).ptr) ∧
      Merged s m' (fun _ => True) (coalesceBlocks l b r) (l ++ r) := by
  rw [← listedIn_true] at h
  exact coalesce_listed h hb (fun _ _ => trivial) (fun _ _ => trivial) trivial

/-! ## `extend_heap` -/

theorem extendHeap_refused {words : Nat} (hn : extendSize words < 2 ^ 32)
    (hg : ¬s.Granted (extendSize words)) : extendHeap s words = (s, 0) := by
  unfold extendHeap
  simp only [State.memSbrk_of_refused hn hg]

theorem extendHeap_eq {words : Nat} (h : Heap s bs F) (h16 : 16 ≤ extendSize words)
    (hn : extendSize words % 8 = 0) (hg : s.Granted (extendSize words)) :
    extendHeap s words = coalesce ((s.grow (extendSize words)).setMem
      (growTags s.mem s.memBrk (extendSize words))) s.memBrk := by
  generalize hsize : extendSize words = n at *
  have hlt : n < 2 ^ 32 := hg.1.trans (by decide)
  have hlo := h.layout.lo_ge
  have hle := h.layout.tiles.le
  have htags := put_header_footer (p := s.memBrk) (n := n) (k := 0) (s.grow n) hn (by decide) hlt
  have hnext : nextBlkp (retag s.mem s.memBrk (s.memBrk + n) (pack n 0)) s.memBrk =
      s.memBrk + n := nextBlkp_retag _ hn h16 (by decide) hlt
  unfold extendHeap
  simp only [hsize, State.memSbrk_of_granted hg]
  rw [htags, State.grow_mem, State.setMem_mem, hnext]
  rfl

theorem extendHeap_spec (words : Nat) (h : Heap s bs (FreeOf bs)) (h16 : 16 ≤ extendSize words)
    (hn : extendSize words % 8 = 0) (hg : s.Granted (extendSize words)) :
    ∃ m', extendHeap s words =
        ((s.grow (extendSize words)).setMem m',
          (mergedBlock bs ⟨s.memBrk, extendSize words, false⟩ []).ptr) ∧
      Merged (s.grow (extendSize words)) m' (fun _ => True)
        (coalesceBlocks bs ⟨s.memBrk, extendSize words, false⟩ []) bs := by
  have heq := extendHeap_eq h h16 hn hg
  obtain ⟨hheap₁, hpay₁⟩ := h.grow h16 hn (hg.2.trans_eq (Nat.add_comm _ _))
  have hheap₂ : Heap ((s.grow (extendSize words)).setMem
      (growTags s.mem s.memBrk (extendSize words)))
      (bs ++ ⟨s.memBrk, extendSize words, false⟩ :: []) (FreeIn bs []) :=
    hheap₁.iff fun c => by simp [FreeIn, FreeOf]
  obtain ⟨m', heq', hmerged⟩ := coalesce_spec hheap₂ rfl
  refine ⟨m', heq.trans heq', hmerged.heap, fun c hc ha => ?_⟩
  exact (hpay₁ c hc).trans (hmerged.keeps c (by simp [hc]) ha)

end CsappLabs.Malloc.Explicit
