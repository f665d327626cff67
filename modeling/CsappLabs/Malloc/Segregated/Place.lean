import CsappLabs.Malloc.Segregated.Coalesce

/-!
# `extend_heap` and `place`

`extend_heap` adds a free block at the end of the heap and merges it with the
last block if that is free.  `place` turns a free block into an allocated one,
handing out its front or its back.
-/

namespace CsappLabs.Malloc.Segregated

open CsappLabs.Foundation

namespace State

def grow (s : State) (n : Nat) : State :=
  { s with toMemlib := { s.toMemlib with memBrk := s.memBrk + n } }

variable {s : State} {n : Nat}

@[simp] theorem grow_mem : (s.grow n).mem = s.mem := rfl
@[simp] theorem grow_memBrk : (s.grow n).memBrk = s.memBrk + n := rfl
@[simp] theorem grow_memStartBrk : (s.grow n).memStartBrk = s.memStartBrk := rfl
@[simp] theorem grow_heapListp : (s.grow n).heapListp = s.heapListp := rfl
@[simp] theorem grow_segFreeListp : (s.grow n).segFreeListp = s.segFreeListp := rfl

theorem memSbrk_toInt (s : State) (hn : n < 2 ^ 32) :
    s.memSbrk (toInt n) =
      if s.Granted n then some (s.grow n, s.memBrk) else none := by
  unfold memSbrk
  rw [s.toMemlib.memSbrk_toInt hn]
  by_cases hg : s.Granted n
  · rw [if_pos hg, if_pos hg]
    rfl
  · rw [if_neg hg, if_neg hg]
    rfl

theorem memSbrk_of_granted {s : State} (h : s.Granted n) :
    s.memSbrk (toInt n) = some (s.grow n, s.memBrk) := by
  have hn : n < 2 ^ 32 := h.1.trans (by decide)
  rw [s.memSbrk_toInt hn, if_pos h]

def Grown (s s' : State) : Prop := ∃ n m, s' = (s.grow n).setMem m

theorem Grown.setMem (s : State) (m : Mem) : Grown s (s.setMem m) := ⟨0, m, rfl⟩

theorem Grown.refl (s : State) : Grown s s := Grown.setMem s s.mem

theorem Grown.trans {s₁ s₂ s₃ : State} (h : Grown s₁ s₂) (h' : Grown s₂ s₃) : Grown s₁ s₃ := by
  obtain ⟨n, m, rfl⟩ := h
  obtain ⟨n', m', rfl⟩ := h'
  refine ⟨n + n', m', ?_⟩
  simp only [grow, State.setMem, Nat.add_assoc]

theorem Grown.strays {s s' : State} (h : Grown s s') : s'.strays = s.strays := by
  obtain ⟨n, m, rfl⟩ := h
  rfl

theorem Grown.memBrk_le {s s' : State} (h : Grown s s') : s.memBrk ≤ s'.memBrk := by
  obtain ⟨n, m, rfl⟩ := h
  exact Nat.le_add_right _ _

end State

variable {s : State} {F : Block → Prop} {a b c d : Block} {bs l r xs : List Block}
  {m m' : Mem} {n p asize : Nat}

/-! ## A block whose links are cleared while its tags are written -/

theorem put_header_links_footer {k : Nat} (m : Mem) (h₁ : s.memStartBrk + 4 ≤ p)
    (h₂ : p + n ≤ s.memBrk) (h16 : 16 ≤ n) (hn : n % 8 = 0) (hk : k < 2)
    (hlt : s.memBrk < 2 ^ 32) :
    let t := (((s.setMem m).put (hdrp p) (pack n k)).setPredecessor p 0).setSuccessor p 0
    t.put (ftrp t.mem p) (pack n k) =
      s.setMem (store (store (retag m p (p + n) (pack n k)) p 0) (succPtr p) 0) := by
  have hput : ∀ m w v, s.memStartBrk ≤ w → w + 4 ≤ s.memBrk →
      (s.setMem m).put w v = s.setMem (store m w v) :=
    fun m w v h₁ h₂ => State.put_eq ⟨h₁, h₂⟩
  have ht : (((s.setMem m).put (hdrp p) (pack n k)).setPredecessor p 0).setSuccessor p 0 =
      s.setMem (store (store (store m (p - 4) (pack n k)) p 0) (succPtr p) 0) := by
    simp only [State.setPredecessor, State.setSuccessor, hdrp, succPtr]
    rw [hput _ _ _ (by omega) (by omega), hput _ _ _ (by omega) (by omega),
      hput _ _ _ (by omega) (by omega)]
  have hftr : ftrp (store (store (store m (p - 4) (pack n k)) p 0) (succPtr p) 0) p =
      p + n - 8 := by
    unfold succPtr
    rw [ftrp_store _ (by omega), ftrp_store _ (by omega), ← hdrp, ftrp,
      getSize_header m hn hk (by omega)]
  intro t
  have ht' : t = s.setMem (store (store (store m (p - 4) (pack n k)) p 0) (succPtr p) 0) := ht
  rw [ht', State.setMem_mem, hftr, hput _ _ _ (by omega) (by omega),
    retag_links_between m (by omega) (by omega)]

/-! ## Growing the heap -/

namespace Heap

theorem grow (h : Heap s bs F) (h16 : 16 ≤ n) (hn : n % 8 = 0)
    (hgrant : s.memBrk + n ≤ s.memStartBrk + maxHeap) :
    Heap ((s.grow n).setMem (growTags s.mem s.memBrk n))
        (bs ++ [⟨s.memBrk, n, false⟩]) F ∧
      (∀ c ∈ bs, SamePayload s.mem (growTags s.mem s.memBrk n) c) ∧
      SameLists s ((s.grow n).setMem (growTags s.mem s.memBrk n)) := by
  have hmax := h.max
  have hlo := h.layout.lo_ge
  have hle := h.layout.tiles.le
  have hout : ∀ x, x < s.memBrk - 4 → growTags s.mem s.memBrk n x = s.mem x :=
    fun x hx => growTags_of_outside s.mem (by omega) h16 (.inl hx)
  have hpay : ∀ c ∈ bs, SamePayload s.mem (growTags s.mem s.memBrk n) c := by
    intro c hc x h₁ h₂
    have := h.layout.tiles.ptr_add_size_le hc
    exact hout x (by omega)
  have hheads : ∀ i < 16, load (growTags s.mem s.memBrk n) (s.segFreeListp + 4 * i) =
      load s.mem (s.segFreeListp + 4 * i) := by
    have hb := h.base
    have hs := h.seg
    exact fun i hi => load_congr fun x h₁ h₂ => hout x (by omega)
  have hheap : Heap ((s.grow n).setMem (growTags s.mem s.memBrk n))
      (bs ++ [⟨s.memBrk, n, false⟩]) F :=
    { layout := h.layout.grow h16 hn (by omega)
      lists := h.lists.congr
        (fun c hc => ⟨h.nodes.size_ge c hc, hpay c (h.listed c hc).1⟩) hheads
      listed := fun c hc => ⟨by simp [(h.listed c hc).1], (h.listed c hc).2⟩
      seg := h.seg
      base := h.base
      top := hgrant
      max := h.max
      start := h.start }
  exact ⟨hheap, hpay, h.sameLists hheap (fun c hc => hpay c (h.listed c hc).1) hheads⟩

end Heap

theorem extendHeap_refused {words : Nat} (hn : extendSize words < 2 ^ 32)
    (hg : ¬s.Granted (extendSize words)) : extendHeap s words = some (s, 0) := by
  unfold extendHeap
  simp only [s.memSbrk_toInt hn, if_neg hg]

theorem extendHeap_spec {words : Nat} (h : Heap s bs (FreeOf bs)) (h16 : 16 ≤ extendSize words)
    (hn : extendSize words % 8 = 0) (hg : s.Granted (extendSize words)) :
    ∃ m', extendHeap s words =
        some ((s.grow (extendSize words)).setMem m',
          (mergedBlock bs ⟨s.memBrk, extendSize words, false⟩ []).ptr) ∧
      Merged (s.grow (extendSize words)) m'
        (coalesceBlocks bs ⟨s.memBrk, extendSize words, false⟩ []) bs ∧
      PutSecond s ((s.grow (extendSize words)).setMem m')
        (mergedBlock bs ⟨s.memBrk, extendSize words, false⟩ []) := by
  generalize hsize : extendSize words = n at *
  have hgrant : s.memBrk + n ≤ s.memStartBrk + maxHeap := hg.2.trans_eq (Nat.add_comm _ _)
  have hmax := h.max
  have hlo := h.layout.lo_ge
  have hle := h.layout.tiles.le
  have hbase := h.base
  obtain ⟨hheap₁, hpay₁, hlists₁⟩ := h.grow h16 hn hgrant
  have hfresh : ¬FreeOf bs ⟨s.memBrk, n, false⟩ := by
    rintro ⟨hmem, -⟩
    have := h.layout.tiles.ptr_add_size_le hmem
    simp only at this
    omega
  obtain ⟨m₂, -, hm₂, hheap₂, hkeep₂, hlists₂⟩ := hheap₁.clearLinks (by simp) rfl hfresh
  have hheap₃ : Heap ((s.grow n).setMem m₂) (bs ++ ⟨s.memBrk, n, false⟩ :: [])
      (FreeIn bs []) :=
    hheap₂.iff fun c => by simp [FreeIn, FreeOf]
  obtain ⟨m₄, heq₄, hmerged, hput⟩ := coalesce_spec hheap₃ rfl
  refine ⟨m₄, ?_, ⟨hmerged.heap, ?_⟩, (hput.of_same hlists₂).of_same hlists₁⟩
  · have htags := put_header_links_footer (s := s.grow n) (p := s.memBrk) (n := n) (k := 0)
      s.mem (by simp; omega) (by simp) h16 hn (by decide) (by simp; omega)
    have hself : (s.grow n).setMem s.mem = s.grow n := rfl
    rw [hself] at htags
    have hnext : nextBlkp (store (store (retag s.mem s.memBrk (s.memBrk + n) (pack n 0))
        s.memBrk 0) (succPtr s.memBrk) 0) s.memBrk = s.memBrk + n := by
      unfold succPtr
      rw [nextBlkp_store _ (by omega), nextBlkp_store _ (by omega),
        nextBlkp_retag _ hn h16 (by decide) (by omega)]
    have hput : ∀ m, ((s.grow n).setMem m).put (hdrp (s.memBrk + n)) (pack 0 1) =
        (s.grow n).setMem (store m (hdrp (s.memBrk + n)) (pack 0 1)) :=
      fun m => State.put_eq ⟨by simp [hdrp]; omega, by simp [hdrp]; omega⟩
    have hm : store (store (store (retag s.mem s.memBrk (s.memBrk + n) (pack n 0))
        s.memBrk 0) (succPtr s.memBrk) 0) (hdrp (s.memBrk + n)) (pack 0 1) = m₂ := by
      rw [hm₂]
      unfold growTags succPtr hdrp
      rw [store_comm _ 0 _ (a := s.memBrk + 4) (by omega),
        store_comm _ 0 _ (a := s.memBrk) (by omega)]
      rfl
    unfold extendHeap
    simp only [hsize, s.memSbrk_toInt (show n < 2 ^ 32 by omega), if_pos hg]
    rw [htags, State.setMem_mem, hnext, hput, hm]
    exact heq₄
  · intro c hc ha
    exact ((hpay₁ c hc).trans (hkeep₂ c (by simp [hc]) ha)).trans
      (hmerged.keeps c (by simp [hc]) ha)

/-! ## Placing a block -/

/-- The allocated block `d` of at least `asize` bytes comes out of the free
blocks of `bs`. -/
structure Placed (s : State) (m' : Mem) (bs bs' : List Block) (d : Block) (asize : Nat) :
    Prop where
  merged : Merged s m' bs' bs
  apart : NoAdjacentFree bs'
  gains : Gains bs bs' d
  size : asize ≤ d.size

theorem place_delete (h : Heap s (l ++ b :: r) (FreeOf (l ++ b :: r))) (hb : b.alloc = false) :
    ∃ m₁, deleteNode s b.ptr = s.setMem m₁ ∧
      Heap (s.setMem m₁) (l ++ [b] ++ r) (FreeIn l r) ∧
      KeepsAllocated s.mem m₁ (l ++ b :: r) ∧
      ∀ i < 16, (s.setMem m₁).lists i = outside b (s.lists i) := by
  obtain ⟨m₁, heq₁, hheap₁, hkeep₁, hlists₁⟩ := h.delete (b := b) ⟨by simp, hb⟩
  have h16 := h.layout.tiles.size_ge (b := b) (by simp)
  have hheap : Heap (s.setMem m₁) (l ++ b :: r) (FreeIn l r) :=
    hheap₁.iff fun c => freeIn_delete_self (c := c) h.layout.tiles.nodup
  refine ⟨m₁, heq₁, by simpa using hheap, hkeep₁, fun i hi => ?_⟩
  rw [← hheap.outside_lists hi, hlists₁ i hi, outside_filter (Nat.le_refl _) (by omega)]

theorem place_whole (h : Heap s (l ++ b :: r) (FreeOf (l ++ b :: r)))
    (hapart : NoAdjacentFree (l ++ b :: r)) (hb : b.alloc = false) (hle : asize ≤ b.size)
    (hrest : b.size - asize ≤ 16) :
    ∃ m', place s b.ptr asize = some (s.setMem m', b.ptr) ∧
      Placed s m' (l ++ b :: r) (l ++ ⟨b.ptr, b.size, true⟩ :: r) ⟨b.ptr, b.size, true⟩
        asize ∧
      ∀ i < 16, (s.setMem m').lists i = outside b (s.lists i) := by
  obtain ⟨hb₁, hb₂, hb₃, hb₄, hb₅⟩ := h.ptr_bounds (b := b) (by simp)
  have hbsize := h.layout.getSize_hdrp (b := b) (by simp)
  obtain ⟨m₁, heq₁, hheap₁, hkeep₁, hlists₁⟩ := place_delete h hb
  obtain ⟨hheap₂, hpay₂, hlists₂⟩ := hheap₁.retag (d := ⟨b.ptr, b.size, true⟩)
    (fun _ => freeIn_side) (by simp) ⟨rfl, hb₃, hb₄, rfl⟩
  refine ⟨_, ?_, ⟨⟨hheap₂.iff fun c => freeOf_allocated rfl, ?_⟩, ?_, ?_, hle⟩,
    fun i hi => (hlists₂ i hi).trans (hlists₁ i hi)⟩
  · have htags := put_header_footer (s := s) (p := b.ptr) (n := b.size) (k := 1) m₁
      (by omega) hb₂ hb₃ hb₄ (by decide) hb₅
    unfold place
    simp only [hbsize, subw_eq hle (show b.size < 2 ^ 32 by omega), if_pos hrest, heq₁, htags]
    rfl
  · exact fun c hc ha => (hkeep₁ c hc ha).trans (hpay₂ c (mem_sides hb hc ha))
  · exact noAdjacentFree_insert hapart.left hapart.right.tail (.inl rfl)
  · have := gains_of_free (d := ⟨b.ptr, b.size, true⟩) [⟨b.ptr, b.size, true⟩]
      h.layout.tiles hb rfl (Nat.le_refl _) (by simp; omega) (by simp)
    simpa using this

theorem back_writes (p n₁ n₂ : Nat) (m : Mem) (h₁ : s.memStartBrk + 4 ≤ p)
    (h₂ : p + (n₁ + n₂) ≤ s.memBrk) (hn₁ : 16 ≤ n₁) (hn₂ : 16 ≤ n₂) (hm₁ : n₁ % 8 = 0)
    (hm₂ : n₂ % 8 = 0) (hlt : s.memBrk < 2 ^ 32) :
    let t := (s.setMem m).put (hdrp p) (pack n₁ 0)
    let t := (t.setPredecessor p 0).setSuccessor p 0
    let t := t.put (ftrp t.mem p) (pack n₁ 0)
    let t := t.put (hdrp (nextBlkp t.mem p)) (pack n₂ 1)
    t.put (ftrp t.mem (nextBlkp t.mem p)) (pack n₂ 1) =
      s.setMem (store (store (splitTags m p n₁ n₂ (pack n₁ 0) (pack n₂ 1)) p 0)
        (succPtr p) 0) := by
  have htags₁ := put_header_links_footer (s := s) (p := p) (n := n₁) (k := 0) m
    h₁ (by omega) hn₁ hm₁ (by decide) hlt
  have hnext₁ : nextBlkp (store (store (retag m p (p + n₁) (pack n₁ 0)) p 0)
      (succPtr p) 0) p = p + n₁ := by
    unfold succPtr
    rw [nextBlkp_store _ (by omega), nextBlkp_store _ (by omega),
      nextBlkp_retag _ hm₁ hn₁ (by decide) (by omega)]
  have hnext₂ : ∀ v, nextBlkp (store (store (store (retag m p (p + n₁) (pack n₁ 0))
      p 0) (succPtr p) 0) (hdrp (p + n₁)) v) p = p + n₁ := by
    intro v
    unfold hdrp
    rw [nextBlkp_store _ (by omega), hnext₁]
  have htags₂ := fun m => put_header_footer (s := s) (p := p + n₁) (n := n₂) (k := 1) m
    (by omega) (by omega) hn₂ hm₂ (by decide) hlt
  have hput : ∀ m, (s.setMem m).put (hdrp (p + n₁)) (pack n₂ 1) =
      s.setMem (store m (hdrp (p + n₁)) (pack n₂ 1)) :=
    fun m => State.put_eq ⟨by simp [hdrp]; omega, by simp [hdrp]; omega⟩
  simp only [hput, State.setMem_mem] at htags₂
  intro t₁ t₂ t₃ t₄
  have ht₃ : t₃ = s.setMem (store (store (retag m p (p + n₁) (pack n₁ 0)) p 0)
      (succPtr p) 0) := htags₁
  have ht₄ : t₄ = s.setMem (store (store (store (retag m p (p + n₁) (pack n₁ 0)) p 0)
      (succPtr p) 0) (hdrp (p + n₁)) (pack n₂ 1)) := by
    show t₃.put (hdrp (nextBlkp t₃.mem p)) (pack n₂ 1) = _
    rw [ht₃, State.setMem_mem, hnext₁, hput]
  rw [ht₄, State.setMem_mem, hnext₂, htags₂]
  unfold succPtr splitTags
  rw [retag_store_comm _ 0 (by omega) (by omega), retag_store_comm _ 0 (by omega) (by omega)]

theorem place_back (h : Heap s (l ++ b :: r) (FreeOf (l ++ b :: r)))
    (hapart : NoAdjacentFree (l ++ b :: r)) (hb : b.alloc = false) (hle : asize ≤ b.size)
    (hrest : 16 < b.size - asize) (hbig : 96 ≤ asize) (hmod : asize % 8 = 0) :
    ∃ m', place s b.ptr asize = some (s.setMem m', b.ptr + (b.size - asize)) ∧
      Placed s m' (l ++ b :: r)
        (l ++ splitBlocks b.ptr (b.size - asize) asize false true ++ r)
        ⟨b.ptr + (b.size - asize), asize, true⟩ asize ∧
      ∀ i < 16, (s.setMem m').lists i =
        secondIn ⟨b.ptr, b.size - asize, false⟩ i (outside b (s.lists i)) := by
  obtain ⟨hb₁, hb₂, hb₃, hb₄, hb₅⟩ := h.ptr_bounds (b := b) (by simp)
  have hbsize := h.layout.getSize_hdrp (b := b) (by simp)
  obtain ⟨m₁, heq₁, hheap₁, hkeep₁, hlists₁⟩ := place_delete h hb
  generalize hn : b.size - asize = n at *
  obtain ⟨hheap₂, hpay₂, hlists₂⟩ := hheap₁.split n asize false true
    (fun _ => freeIn_side) (by omega) (by omega) (by omega) (by omega)
  obtain ⟨m₃, -, hm₃, hheap₃, hkeep₃, hlists₃⟩ := hheap₂.clearLinks (b := ⟨b.ptr, n, false⟩)
    (by simp [splitBlocks]) rfl
    (not_freeIn_inside h.layout.tiles (Nat.le_refl _) (by simp; omega) (by simp; omega))
  have hheap₃' : Heap (s.setMem m₃)
      (l ++ ⟨b.ptr, n, false⟩ :: ⟨b.ptr + n, asize, true⟩ :: r)
      (FreeIn l (⟨b.ptr + n, asize, true⟩ :: r)) := by
    have := hheap₃.iff fun c => (freeIn_allocated (l := l) (r := r) (c := c)
      (d := ⟨b.ptr + n, asize, true⟩) rfl)
    simpa [splitBlocks] using this
  have hends := hapart.endsAllocated hb
  have hstarts : Layout.StartsAllocated (⟨b.ptr + n, asize, true⟩ :: r) := by
    simp [Layout.StartsAllocated]
  obtain ⟨m', heq', hmerged, hput⟩ := coalesce_none hheap₃' rfl hends hstarts
  have hlay : Layout m' (s.heapListp + 8)
      (l ++ ⟨b.ptr, n, false⟩ :: ⟨b.ptr + n, asize, true⟩ :: r) s.memBrk :=
    hmerged.heap.layout
  have hnext : nextBlkp m' b.ptr = b.ptr + n := hlay.nextBlkp_cons
  refine ⟨m', ?_, ⟨⟨by simpa [splitBlocks] using hmerged.heap, ?_⟩, ?_, ?_, Nat.le_refl _⟩,
    fun i hi => ?_⟩
  · have hwrites := back_writes (s := s) b.ptr n asize m₁
      (by omega) (by omega) (by omega) (by omega) (by omega) hmod hb₅
    have hm₃' : store (store (splitTags m₁ b.ptr n asize (pack n 0) (pack asize 1)) b.ptr 0)
        (succPtr b.ptr) 0 = m₃ := hm₃.symm
    unfold place
    simp only [hbsize, subw_eq hle (show b.size < 2 ^ 32 by omega), hn, heq₁,
      if_neg (show ¬n ≤ 2 * 8 by omega), if_pos (show asize ≥ 96 from hbig)]
    rw [hwrites, hm₃', heq']
    simp only [State.setMem_setMem, State.setMem_mem, hnext]
  · intro c hc ha
    have hside := mem_sides hb hc ha
    refine (((hkeep₁ c hc ha).trans (hpay₂ c hside)).trans (hkeep₃ c ?_ ha)).trans
      (hmerged.keeps c ?_ ha)
    · rcases hside with hc | hc <;> simp [hc]
    · rcases hside with hc | hc <;> simp [hc]
  · have hright : NoAdjacentFree (⟨b.ptr + n, asize, true⟩ :: r) :=
      noAdjacentFree_insert (l := []) noAdjacentFree_nil hapart.right.tail (.inl rfl)
    have := noAdjacentFree_insert (d := ⟨b.ptr, n, false⟩) hapart.left hright
      (.inr ⟨hends, hstarts⟩)
    simpa [splitBlocks] using this
  · refine gains_of_free _ h.layout.tiles hb rfl (by simp) (by simp; omega) ?_
    rintro c hc
    have hne : c ≠ ⟨b.ptr, n, false⟩ := by
      rintro rfl
      simp at hc
    simp [splitBlocks, hne]
  · have hlists : (s.setMem m₃).lists i = outside b (s.lists i) :=
      ((hlists₃ i hi).trans (hlists₂ i hi)).trans (hlists₁ i hi)
    exact (hput.eq_secondIn hheap₃' hi).trans (congrArg _ hlists)

theorem front_writes (p n₁ n₂ : Nat) (m : Mem) (h₁ : s.memStartBrk + 4 ≤ p)
    (h₂ : p + (n₁ + n₂) ≤ s.memBrk) (hn₁ : 16 ≤ n₁) (hn₂ : 16 ≤ n₂) (hm₁ : n₁ % 8 = 0)
    (hm₂ : n₂ % 8 = 0) (hlt : s.memBrk < 2 ^ 32) :
    let t := (s.setMem m).put (hdrp p) (pack n₁ 1)
    let t := t.put (ftrp t.mem p) (pack n₁ 1)
    let t := t.put (hdrp (nextBlkp t.mem p)) (pack n₂ 0)
    let t := t.setPredecessor (nextBlkp t.mem p) 0
    let t := t.setSuccessor (nextBlkp t.mem p) 0
    t.put (ftrp t.mem (nextBlkp t.mem p)) (pack n₂ 0) =
      s.setMem (store (store (splitTags m p n₁ n₂ (pack n₁ 1) (pack n₂ 0)) (p + n₁) 0)
        (succPtr (p + n₁)) 0) := by
  have hput : ∀ m w v, s.memStartBrk ≤ w → w + 4 ≤ s.memBrk →
      (s.setMem m).put w v = s.setMem (store m w v) :=
    fun m w v h₁ h₂ => State.put_eq ⟨h₁, h₂⟩
  have htags₁ := put_header_footer (s := s) (p := p) (n := n₁) (k := 1) m
    h₁ (by omega) hn₁ hm₁ (by decide) hlt
  have htags₂ := put_header_links_footer (s := s) (p := p + n₁) (n := n₂) (k := 0)
    (retag m p (p + n₁) (pack n₁ 1)) (by omega) (by omega) hn₂ hm₂ (by decide) hlt
  have hnext₁ : nextBlkp (retag m p (p + n₁) (pack n₁ 1)) p = p + n₁ :=
    nextBlkp_retag _ hm₁ hn₁ (by decide) (by omega)
  intro t₁ t₂ t₃ t₄ t₅
  have ht₂ : t₂ = s.setMem (retag m p (p + n₁) (pack n₁ 1)) := htags₁
  have ht₃ : t₃ = (s.setMem (retag m p (p + n₁) (pack n₁ 1))).put (hdrp (p + n₁))
      (pack n₂ 0) := by
    show t₂.put (hdrp (nextBlkp t₂.mem p)) (pack n₂ 0) = _
    rw [ht₂, State.setMem_mem, hnext₁]
  have hnext₃ : nextBlkp t₃.mem p = p + n₁ := by
    rw [ht₃]
    show nextBlkp (store _ (p + n₁ - 4) _) p = _
    rw [nextBlkp_store _ (by omega), State.setMem_mem, hnext₁]
  have ht₄ : t₄ = t₃.setPredecessor (p + n₁) 0 := by
    show t₃.setPredecessor (nextBlkp t₃.mem p) 0 = _
    rw [hnext₃]
  have hnext₄ : nextBlkp t₄.mem p = p + n₁ := by
    rw [ht₄]
    show nextBlkp (store t₃.mem (p + n₁) 0) p = _
    rw [nextBlkp_store _ (by omega), hnext₃]
  have ht₅ : t₅ = t₄.setSuccessor (p + n₁) 0 := by
    show t₄.setSuccessor (nextBlkp t₄.mem p) 0 = _
    rw [hnext₄]
  have hnext₅ : nextBlkp t₅.mem p = p + n₁ := by
    rw [ht₅]
    show nextBlkp (store t₄.mem (p + n₁ + 4) 0) p = _
    rw [nextBlkp_store _ (by omega), hnext₄]
  rw [hnext₅, ht₅, ht₄, ht₃]
  exact htags₂

theorem place_front (h : Heap s (l ++ b :: r) (FreeOf (l ++ b :: r)))
    (hapart : NoAdjacentFree (l ++ b :: r)) (hb : b.alloc = false) (hle : asize ≤ b.size)
    (hrest : 16 < b.size - asize) (h16 : 16 ≤ asize) (hsmall : asize < 96)
    (hmod : asize % 8 = 0) :
    ∃ m', place s b.ptr asize = some (s.setMem m', b.ptr) ∧
      Placed s m' (l ++ b :: r)
        (l ++ splitBlocks b.ptr asize (b.size - asize) true false ++ r)
        ⟨b.ptr, asize, true⟩ asize ∧
      ∀ i < 16, (s.setMem m').lists i =
        secondIn ⟨b.ptr + asize, b.size - asize, false⟩ i (outside b (s.lists i)) := by
  obtain ⟨hb₁, hb₂, hb₃, hb₄, hb₅⟩ := h.ptr_bounds (b := b) (by simp)
  have hbsize := h.layout.getSize_hdrp (b := b) (by simp)
  obtain ⟨m₁, heq₁, hheap₁, hkeep₁, hlists₁⟩ := place_delete h hb
  generalize hn : b.size - asize = n at *
  obtain ⟨hheap₂, hpay₂, hlists₂⟩ := hheap₁.split asize n true false
    (fun _ => freeIn_side) (by omega) (by omega) (by omega) (by omega)
  obtain ⟨m₃, -, hm₃, hheap₃, hkeep₃, hlists₃⟩ := hheap₂.clearLinks (b := ⟨b.ptr + asize, n, false⟩)
    (by simp [splitBlocks]) rfl
    (not_freeIn_inside h.layout.tiles (by simp) (by simp; omega) (by simp; omega))
  have hheap₃' : Heap (s.setMem m₃)
      ((l ++ [⟨b.ptr, asize, true⟩]) ++ ⟨b.ptr + asize, n, false⟩ :: r)
      (FreeIn (l ++ [⟨b.ptr, asize, true⟩]) r) := by
    have := hheap₃.iff fun c => (freeIn_allocated_before (l := l) (r := r) (c := c)
      (d := ⟨b.ptr, asize, true⟩) rfl)
    simpa [splitBlocks] using this
  have hends : Layout.EndsAllocated (l ++ [⟨b.ptr, asize, true⟩]) := by
    simp [Layout.EndsAllocated]
  have hstarts := hapart.startsAllocated hb
  obtain ⟨m', heq', hmerged, hput⟩ := coalesce_none hheap₃' rfl hends hstarts
  refine ⟨m', ?_, ⟨⟨by simpa [splitBlocks] using hmerged.heap, ?_⟩, ?_, ?_, Nat.le_refl _⟩,
    fun i hi => ?_⟩
  · have hwrites := front_writes (s := s) b.ptr asize n m₁
      (by omega) (by omega) (by omega) (by omega) hmod (by omega) hb₅
    have hm₃' : store (store (splitTags m₁ b.ptr asize n (pack asize 1) (pack n 0))
        (b.ptr + asize) 0) (succPtr (b.ptr + asize)) 0 = m₃ := hm₃.symm
    have hnext : nextBlkp m₃ b.ptr = b.ptr + asize := by
      have hlay : Layout m₃ (s.heapListp + 8)
          (l ++ ⟨b.ptr, asize, true⟩ :: ⟨b.ptr + asize, n, false⟩ :: r) s.memBrk := by
        simpa using hheap₃'.layout
      exact hlay.nextBlkp_cons
    unfold place
    simp only [hbsize, subw_eq hle (show b.size < 2 ^ 32 by omega), hn, heq₁,
      if_neg (show ¬n ≤ 2 * 8 by omega), if_neg (show ¬asize ≥ 96 by omega)]
    rw [hwrites, hm₃', State.setMem_mem, hnext, heq']
    rfl
  · intro c hc ha
    have hside := mem_sides hb hc ha
    refine (((hkeep₁ c hc ha).trans (hpay₂ c hside)).trans (hkeep₃ c ?_ ha)).trans
      (hmerged.keeps c ?_ ha)
    · rcases hside with hc | hc <;> simp [hc]
    · rcases hside with hc | hc <;> simp [hc]
  · have hleft : NoAdjacentFree (l ++ [⟨b.ptr, asize, true⟩]) :=
      noAdjacentFree_insert hapart.left noAdjacentFree_nil (.inl rfl)
    have := noAdjacentFree_insert (d := ⟨b.ptr + asize, n, false⟩) hleft hapart.right.tail
      (.inr ⟨hends, hstarts⟩)
    simpa [splitBlocks] using this
  · refine gains_of_free _ h.layout.tiles hb rfl (by simp) (by simp; omega) ?_
    rintro c hc
    have hne : c ≠ ⟨b.ptr + asize, n, false⟩ := by
      rintro rfl
      simp at hc
    simp [splitBlocks, hne]
  · have hlists : (s.setMem m₃).lists i = outside b (s.lists i) :=
      ((hlists₃ i hi).trans (hlists₂ i hi)).trans (hlists₁ i hi)
    exact (hput.eq_secondIn hheap₃' hi).trans (congrArg _ hlists)

def restBlock (b : Block) (asize : Nat) : Block :=
  if asize ≥ 96 then ⟨b.ptr, b.size - asize, false⟩
  else ⟨b.ptr + asize, b.size - asize, false⟩

def cutIn (b : Block) (asize i : Nat) (xs : List Block) : List Block :=
  if b.size - asize ≤ 16 then outside b xs else secondIn (restBlock b asize) i (outside b xs)

theorem place_spec (h : Heap s bs (FreeOf bs)) (hapart : NoAdjacentFree bs) (hb : FreeOf bs b)
    (hle : asize ≤ b.size) (h16 : 16 ≤ asize) (hmod : asize % 8 = 0) :
    ∃ m' bs' d, place s b.ptr asize = some (s.setMem m', d.ptr) ∧
      Placed s m' bs bs' d asize ∧
      ∀ i < 16, (s.setMem m').lists i = cutIn b asize i (s.lists i) := by
  obtain ⟨hmem, hfree⟩ := hb
  obtain ⟨l, r, rfl⟩ := List.append_of_mem hmem
  by_cases hrest : b.size - asize ≤ 16
  · obtain ⟨m', heq, hplaced, hlists⟩ := place_whole h hapart hfree hle hrest
    exact ⟨m', _, ⟨b.ptr, b.size, true⟩, heq, hplaced, by simpa [cutIn, hrest] using hlists⟩
  · by_cases hbig : 96 ≤ asize
    · obtain ⟨m', heq, hplaced, hlists⟩ :=
        place_back h hapart hfree hle (by omega) hbig hmod
      exact ⟨m', _, ⟨b.ptr + (b.size - asize), asize, true⟩, heq, hplaced,
        by simpa [cutIn, hrest, restBlock, hbig] using hlists⟩
    · obtain ⟨m', heq, hplaced, hlists⟩ :=
        place_front h hapart hfree hle (by omega) h16 (by omega) hmod
      exact ⟨m', _, ⟨b.ptr, asize, true⟩, heq, hplaced,
        by simpa [cutIn, hrest, restBlock, hbig] using hlists⟩

end CsappLabs.Malloc.Segregated
