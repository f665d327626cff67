import CsappLabs.Malloc.Coalescing
import CsappLabs.Malloc.TagWrites
import CsappLabs.Malloc.Implicit.Model

/-!
# `coalesce` and `extend_heap` with a cursor

Between two routines `rover` is the pointer of the prologue or of a block.
Merging blocks removes boundaries, and `settleRover` moves the cursor to the
start of the merged block when the boundary it was at is gone.
-/

namespace CsappLabs.Malloc.Implicit

open CsappLabs.Foundation

namespace State

def setMem (s : State) (m : Mem) : State :=
  { s with toMemlib := { s.toMemlib with mem := m } }

def setRover (s : State) (p : Nat) : State := { s with rover := p }

def grow (s : State) (n : Nat) : State :=
  { s with toMemlib := { s.toMemlib with memBrk := s.memBrk + n } }

variable {s : State} {m m' : Mem} {n p v : Nat}

@[simp] theorem setMem_mem : (s.setMem m).mem = m := rfl
@[simp] theorem setMem_memBrk : (s.setMem m).memBrk = s.memBrk := rfl
@[simp] theorem setMem_memStartBrk : (s.setMem m).memStartBrk = s.memStartBrk := rfl
@[simp] theorem setMem_heapListp : (s.setMem m).heapListp = s.heapListp := rfl
@[simp] theorem setMem_rover : (s.setMem m).rover = s.rover := rfl
@[simp] theorem setMem_setMem : (s.setMem m).setMem m' = s.setMem m' := rfl
@[simp] theorem setMem_self : s.setMem s.mem = s := rfl
@[simp] theorem put_eq : s.put p v = s.setMem (store s.mem p v) := rfl
@[simp] theorem memcpy_eq {dst src : Nat} :
    s.memcpy dst src n = s.setMem (copy s.mem dst src n) := rfl
@[simp] theorem setRover_mem : (s.setRover p).mem = s.mem := rfl
@[simp] theorem setRover_memBrk : (s.setRover p).memBrk = s.memBrk := rfl
@[simp] theorem setRover_memStartBrk : (s.setRover p).memStartBrk = s.memStartBrk := rfl
@[simp] theorem setRover_heapListp : (s.setRover p).heapListp = s.heapListp := rfl
@[simp] theorem setRover_rover : (s.setRover p).rover = p := rfl
@[simp] theorem grow_mem : (s.grow n).mem = s.mem := rfl
@[simp] theorem grow_memBrk : (s.grow n).memBrk = s.memBrk + n := rfl
@[simp] theorem grow_memStartBrk : (s.grow n).memStartBrk = s.memStartBrk := rfl
@[simp] theorem grow_heapListp : (s.grow n).heapListp = s.heapListp := rfl
@[simp] theorem grow_rover : (s.grow n).rover = s.rover := rfl

theorem memSbrk_of_granted (h : s.Granted n) :
    s.memSbrk (toInt n) = some (s.grow n, s.memBrk) := by
  have hn : n < 2 ^ 32 := h.1.trans (by decide)
  unfold memSbrk
  rw [s.toMemlib.memSbrk_toInt hn, if_pos h]
  rfl

theorem memSbrk_of_refused (hn : n < 2 ^ 32) (h : ¬s.Granted n) :
    s.memSbrk (toInt n) = none := by
  unfold memSbrk
  rw [s.toMemlib.memSbrk_toInt hn, if_neg h]
  rfl

end State

structure Heap (s : State) (bs : List Block) : Prop where
  layout : Layout s.mem (s.heapListp + 8) bs s.memBrk
  base : s.heapListp = s.memStartBrk + 8
  top : s.memBrk ≤ s.memStartBrk + maxHeap
  max : s.memStartBrk + maxHeap < 2 ^ 32
  start : 0 < s.memStartBrk

def AtBlock (s : State) (bs : List Block) : Prop :=
  s.rover = s.heapListp ∨ ∃ b ∈ bs, b.ptr = s.rover

variable {s : State} {a b c d : Block} {bs l r xs ys : List Block} {m m' : Mem} {n p : Nat}

namespace Heap

theorem ptr_bounds (h : Heap s bs) (hb : b ∈ bs) :
    s.memStartBrk + 16 ≤ b.ptr ∧ b.ptr + b.size ≤ s.memBrk ∧ 16 ≤ b.size ∧
      b.size % 8 = 0 ∧ s.memBrk < 2 ^ 32 := by
  have hge := h.layout.tiles.ptr_ge hb
  have hbase := h.base
  exact ⟨by omega, h.layout.tiles.ptr_add_size_le hb, h.layout.tiles.size_ge hb,
    h.layout.tiles.size_mod hb, h.layout.hi_lt⟩

theorem of_layout (h : Heap s bs) (hlay : Layout m' (s.heapListp + 8) ys s.memBrk) :
    Heap (s.setMem m') ys :=
  ⟨hlay, h.base, h.top, h.max, h.start⟩

theorem setRover (h : Heap s bs) (p : Nat) : Heap (s.setRover p) bs :=
  ⟨h.layout, h.base, h.top, h.max, h.start⟩

theorem retag (h : Heap s (l ++ xs ++ r)) (hne : xs ≠ [])
    (hxs : Tiles d.ptr xs (d.ptr + d.size)) :
    Heap (s.setMem (Malloc.retag s.mem d.ptr (d.ptr + d.size) d.tag)) (l ++ d :: r) ∧
      ∀ c, c ∈ l ∨ c ∈ r →
        SamePayload s.mem (Malloc.retag s.mem d.ptr (d.ptr + d.size) d.tag) c :=
  ⟨h.of_layout (h.layout.retag hne hxs), fun _ hc =>
    retag_samePayload s.mem d.tag h.layout.tiles hxs hne h.layout.lo_ge hc⟩

end Heap

theorem put_header_footer {k : Nat} (s : State) (hn : n % 8 = 0) (hk : k < 2)
    (hlt : n < 2 ^ 32) :
    (s.put (hdrp p) (pack n k)).put (ftrp (s.put (hdrp p) (pack n k)).mem p) (pack n k) =
      s.setMem (retag s.mem p (p + n) (pack n k)) := by
  rw [← retag_header_first s.mem hn hk hlt]
  rfl

/-! ## The cursor -/

theorem AtBlock.setMem (h : AtBlock s bs) (m : Mem) : AtBlock (s.setMem m) bs := h

theorem settleRover_spec (h : Heap s (l ++ d :: r)) (hxs : Tiles d.ptr xs (d.ptr + d.size))
    (hrover : AtBlock s (l ++ xs ++ r)) :
    ∃ q, settleRover s d.ptr = s.setRover q ∧ AtBlock (s.setRover q) (l ++ d :: r) := by
  have hnext := h.layout.nextBlkp_eq (b := d) (by simp)
  have hd := h.ptr_bounds (b := d) (by simp)
  have hbase := h.base
  unfold settleRover
  rw [hnext]
  by_cases hin : s.rover > d.ptr ∧ s.rover < d.ptr + d.size
  · exact ⟨d.ptr, by rw [if_pos hin]; rfl, .inr ⟨d, by simp, rfl⟩⟩
  · refine ⟨s.rover, by rw [if_neg hin]; rfl, ?_⟩
    rcases hrover with hp | ⟨b, hb, hbr⟩
    · exact .inl hp
    · simp only [List.mem_append] at hb
      rcases hb with (hb | hb) | hb
      · exact .inr ⟨b, by simp [hb], hbr⟩
      · have hge := hxs.ptr_ge hb
        have hle := hxs.ptr_add_size_le hb
        have h16 := hxs.size_ge hb
        exact .inr ⟨d, by simp, by show d.ptr = s.rover; omega⟩
      · exact .inr ⟨b, by simp [hb], hbr⟩

/-! ## `coalesce` -/

structure Merged (s s' : State) (bs cs : List Block) : Prop where
  heap : Heap s' bs
  rover : AtBlock s' bs
  start : s'.memStartBrk = s.memStartBrk
  keeps : KeepsAllocated s.mem s'.mem cs

theorem merge_settle (h : Heap s (l ++ xs ++ r)) (hrover : AtBlock s (l ++ xs ++ r))
    (hne : xs ≠ []) (hxs : Tiles d.ptr xs (d.ptr + d.size)) :
    ∃ s', settleRover (s.setMem (retag s.mem d.ptr (d.ptr + d.size) d.tag)) d.ptr = s' ∧
      Merged s s' (l ++ d :: r) (l ++ r) := by
  obtain ⟨hheap, hpay⟩ := h.retag hne hxs
  obtain ⟨q, heq, hat⟩ := settleRover_spec hheap hxs (hrover.setMem _)
  exact ⟨_, heq, hheap.setRover q, hat, rfl, fun c hc _ => hpay c (List.mem_append.mp hc)⟩

theorem coalesce_none (h : Heap s (l ++ b :: r)) (hrover : AtBlock s (l ++ b :: r))
    (hl : Layout.EndsAllocated l) (hr : Layout.StartsAllocated r) :
    ∃ s', coalesce s b.ptr = (s', b.ptr) ∧ Merged s s' (l ++ b :: r) (l ++ r) := by
  have hprev := h.layout.prevAlloc_of_ends hl
  have hnext := h.layout.nextAlloc_of_starts hr
  exact ⟨s, by simp [coalesce, hprev, hnext], h, hrover, rfl, KeepsAllocated.refl _ _⟩

theorem coalesce_after (h : Heap s (l ++ b :: c :: r)) (hrover : AtBlock s (l ++ b :: c :: r))
    (hl : Layout.EndsAllocated l) (hc : c.alloc = false) :
    ∃ s', coalesce s b.ptr = (s', b.ptr) ∧
      Merged s s' (l ++ ⟨b.ptr, b.size + c.size, false⟩ :: r) (l ++ r) := by
  have hprev := h.layout.prevAlloc_of_ends hl
  have hnext := h.layout.nextAlloc_of_free hc
  have hnptr := h.layout.nextBlkp_cons
  have hbsize := h.layout.getSize_hdrp (b := b) (by simp)
  have hcsize := h.layout.getSize_hdrp (b := c) (by simp)
  have hend := h.layout.tiles.prev_end
  obtain ⟨-, -, hb₃, hb₄, hb₅⟩ := h.ptr_bounds (b := b) (by simp)
  obtain ⟨-, hc₂, hc₃, hc₄, -⟩ := h.ptr_bounds (b := c) (by simp)
  have hheap : Heap s (l ++ [b, c] ++ r) := by simpa using h
  have hat : AtBlock s (l ++ [b, c] ++ r) := by simpa using hrover
  obtain ⟨s', hsettle, hmerged⟩ := merge_settle (d := ⟨b.ptr, b.size + c.size, false⟩)
    hheap hat (by simp)
    ⟨rfl, hb₃, hb₄, hend.symm, hc₃, hc₄, by simp [Nat.add_assoc]⟩
  have htags := put_header_footer (p := b.ptr) (n := b.size + c.size) (k := 0) s
    (by omega) (by decide) (by omega)
  have hmerge : mergeNext s b.ptr = s.setMem
      (retag s.mem b.ptr (b.ptr + (b.size + c.size)) (pack (b.size + c.size) 0)) := by
    rw [mergeNext, hnptr, hbsize, hcsize, addw_eq (show b.size + c.size < 2 ^ 32 by omega)]
    exact htags
  have hsettle' : settleRover (s.setMem (retag s.mem b.ptr (b.ptr + (b.size + c.size))
      (pack (b.size + c.size) 0))) b.ptr = s' := hsettle
  refine ⟨s', ?_, hmerged⟩
  simp [coalesce, hprev, hnext, hmerge, hsettle']

theorem coalesce_before (h : Heap s (l ++ a :: b :: r)) (hrover : AtBlock s (l ++ a :: b :: r))
    (ha : a.alloc = false) (hr : Layout.StartsAllocated r) :
    ∃ s', coalesce s b.ptr = (s', a.ptr) ∧
      Merged s s' (l ++ ⟨a.ptr, a.size + b.size, false⟩ :: r) (l ++ r) := by
  have h' : Layout s.mem (s.heapListp + 8) ((l ++ [a]) ++ b :: r) s.memBrk := by
    simpa using h.layout
  have hprev := h.layout.prevAlloc_of_free ha
  have hnext := h'.nextAlloc_of_starts hr
  have hpptr := h.layout.prevBlkp_concat
  have hbsize := h.layout.getSize_hdrp (b := b) (by simp)
  have hasize := h.layout.getSize_hdrp (b := a) (by simp)
  have hend := h.layout.tiles.prev_end
  obtain ⟨-, -, ha₃, ha₄, ha₅⟩ := h.ptr_bounds (b := a) (by simp)
  obtain ⟨-, hb₂, hb₃, hb₄, -⟩ := h.ptr_bounds (b := b) (by simp)
  have hheap : Heap s (l ++ [a, b] ++ r) := by simpa using h
  have hat : AtBlock s (l ++ [a, b] ++ r) := by simpa using hrover
  obtain ⟨s', hsettle, hmerged⟩ := merge_settle (d := ⟨a.ptr, a.size + b.size, false⟩)
    hheap hat (by simp)
    ⟨rfl, ha₃, ha₄, hend.symm, hb₃, hb₄, by simp [Nat.add_assoc]⟩
  obtain ⟨hpp, hw, hpp'⟩ := coalesce_before_writes h.layout (pack (a.size + b.size) 0)
  have hd : b.ptr + b.size = a.ptr + (a.size + b.size) := by omega
  rw [hd] at hw hpp'
  have hmerge : mergePrev s b.ptr = s.setMem
      (retag s.mem a.ptr (a.ptr + (a.size + b.size)) (pack (a.size + b.size) 0)) := by
    rw [mergePrev, hpptr, hbsize, hasize, addw_eq (show b.size + a.size < 2 ^ 32 by omega),
      Nat.add_comm b.size a.size]
    simp only [State.put_eq, State.setMem_mem, State.setMem_setMem, hpp, hw]
  have hsettle' : settleRover (s.setMem (retag s.mem a.ptr (a.ptr + (a.size + b.size))
      (pack (a.size + b.size) 0))) a.ptr = s' := hsettle
  have hcase : coalesce s b.ptr = (settleRover (mergePrev s b.ptr)
      (prevBlkp (mergePrev s b.ptr).mem b.ptr), prevBlkp (mergePrev s b.ptr).mem b.ptr) := by
    simp [coalesce, hprev, hnext]
  exact ⟨s', by rw [hcase, hmerge, State.setMem_mem, hpp', hsettle'], hmerged⟩

theorem coalesce_both (h : Heap s (l ++ a :: b :: c :: r))
    (hrover : AtBlock s (l ++ a :: b :: c :: r)) (ha : a.alloc = false) (hc : c.alloc = false) :
    ∃ s', coalesce s b.ptr = (s', a.ptr) ∧
      Merged s s' (l ++ ⟨a.ptr, a.size + b.size + c.size, false⟩ :: r) (l ++ r) := by
  have h' : Layout s.mem (s.heapListp + 8) ((l ++ [a]) ++ b :: c :: r) s.memBrk := by
    simpa using h.layout
  have hprev := h.layout.prevAlloc_of_free ha
  have hnext := h'.nextAlloc_of_free hc
  have hpptr := h.layout.prevBlkp_concat
  have hnptr := h'.nextBlkp_cons
  have hbsize := h.layout.getSize_hdrp (b := b) (by simp)
  have hasize := h.layout.getSize_hdrp (b := a) (by simp)
  have hcsize := h.layout.getSize_ftrp (b := c) (by simp)
  have hab := h.layout.tiles.prev_end
  have hbc := h'.tiles.prev_end
  obtain ⟨-, -, ha₃, ha₄, ha₅⟩ := h.ptr_bounds (b := a) (by simp)
  obtain ⟨-, hb₂, hb₃, hb₄, -⟩ := h.ptr_bounds (b := b) (by simp)
  obtain ⟨-, hc₂, hc₃, hc₄, -⟩ := h.ptr_bounds (b := c) (by simp)
  have hheap : Heap s (l ++ [a, b, c] ++ r) := by simpa using h
  have hat : AtBlock s (l ++ [a, b, c] ++ r) := by simpa using hrover
  obtain ⟨s', hsettle, hmerged⟩ := merge_settle
    (d := ⟨a.ptr, a.size + b.size + c.size, false⟩) hheap hat (by simp)
    ⟨rfl, ha₃, ha₄, hab.symm, hb₃, hb₄, by rw [hab]; exact hbc.symm, hc₃, hc₄,
      by simp [Nat.add_assoc]⟩
  obtain ⟨hftr, hpp⟩ := coalesce_both_writes h.layout (pack (a.size + b.size + c.size) 0)
  have hsum : addw b.size (addw c.size a.size) = a.size + b.size + c.size := by
    rw [addw_eq (show c.size + a.size < 2 ^ 32 by omega), addw_eq (by omega)]
    omega
  have hd : c.ptr + c.size = a.ptr + (a.size + b.size + c.size) := by omega
  have hw : store (store s.mem (hdrp a.ptr) (pack (a.size + b.size + c.size) 0))
      (c.ptr + c.size - 8) (pack (a.size + b.size + c.size) 0) =
      retag s.mem a.ptr (c.ptr + c.size) (pack (a.size + b.size + c.size) 0) := rfl
  have hmerge : mergeBoth s b.ptr = s.setMem
      (retag s.mem a.ptr (c.ptr + c.size) (pack (a.size + b.size + c.size) 0)) := by
    rw [mergeBoth, hpptr, hnptr, hbsize, hasize, hcsize]
    simp only [State.setMem_mem, State.setMem_setMem, State.put_eq, hsum, hftr, hw]
  have hsettle' : settleRover (s.setMem (retag s.mem a.ptr
      (a.ptr + (a.size + b.size + c.size)) (pack (a.size + b.size + c.size) 0))) a.ptr = s' :=
    hsettle
  have hcase : coalesce s b.ptr = (settleRover (mergeBoth s b.ptr)
      (prevBlkp (mergeBoth s b.ptr).mem b.ptr), prevBlkp (mergeBoth s b.ptr).mem b.ptr) := by
    simp [coalesce, hprev, hnext]
  exact ⟨s', by rw [hcase, hmerge, State.setMem_mem, hpp, hd, hsettle'], hmerged⟩

theorem coalesce_spec (h : Heap s (l ++ b :: r)) (hrover : AtBlock s (l ++ b :: r))
    (hb : b.alloc = false) :
    ∃ s', coalesce s b.ptr = (s', (mergedBlock l b r).ptr) ∧
      Merged s s' (coalesceBlocks l b r) (l ++ r) := by
  have hself : (⟨b.ptr, b.size, false⟩ : Block) = b := by rw [← hb]
  have keep : ∀ {s' bs cs es}, Merged s s' bs cs →
      (∀ e ∈ es, e.alloc = true → e ∈ cs) → Merged s s' bs es :=
    fun hm hsub => ⟨hm.heap, hm.rover, hm.start, fun e he hea => hm.keeps e (hsub e he hea) hea⟩
  rcases Layout.endsAllocated_or l with hl | ⟨l, a, rfl, ha⟩
  · rcases Layout.startsAllocated_or r with hr | ⟨c, r, rfl, hc⟩
    · obtain ⟨s', heq, hmerged⟩ := coalesce_none h hrover hl hr
      rw [coalesceBlocks_none hl hr, hself]
      exact ⟨s', by simpa [mergedBlock, hl] using heq, hmerged⟩
    · obtain ⟨s', heq, hmerged⟩ := coalesce_after h hrover hl hc
      rw [coalesceBlocks_after hl hc]
      refine ⟨s', by simpa [mergedBlock, hl] using heq, keep hmerged fun e he hea => ?_⟩
      have hec : e ≠ c := by
        rintro rfl
        simp [hc] at hea
      simpa [hec] using he
  · have h' : Heap s (l ++ a :: b :: r) := by simpa using h
    have hrover' : AtBlock s (l ++ a :: b :: r) := by simpa using hrover
    rcases Layout.startsAllocated_or r with hr | ⟨c, r, rfl, hc⟩
    · obtain ⟨s', heq, hmerged⟩ := coalesce_before h' hrover' ha hr
      rw [coalesceBlocks_before ha hr]
      refine ⟨s', by simpa [mergedBlock, ha] using heq, keep hmerged fun e he hea => ?_⟩
      have hea' : e ≠ a := by
        rintro rfl
        simp [ha] at hea
      simpa [hea'] using he
    · obtain ⟨s', heq, hmerged⟩ := coalesce_both h' hrover' ha hc
      rw [coalesceBlocks_both ha hc]
      refine ⟨s', by simpa [mergedBlock, ha] using heq, keep hmerged fun e he hea => ?_⟩
      have hea' : e ≠ a := by
        rintro rfl
        simp [ha] at hea
      have hec : e ≠ c := by
        rintro rfl
        simp [hc] at hea
      simpa [hea', hec] using he

/-! ## `extend_heap` -/

theorem extendHeap_refused {words : Nat} (hn : extendSize words < 2 ^ 32)
    (hg : ¬s.Granted (extendSize words)) : extendHeap s words = (s, 0) := by
  unfold extendHeap
  simp only [State.memSbrk_of_refused hn hg]

theorem extendHeap_eq {words : Nat} (h : Heap s bs) (h16 : 16 ≤ extendSize words)
    (hn : extendSize words % 8 = 0) (hg : s.Granted (extendSize words)) :
    extendHeap s words = coalesce ((s.grow (extendSize words)).setMem
      (growTags s.mem s.memBrk (extendSize words))) s.memBrk := by
  generalize hsize : extendSize words = n at *
  have hlt : n < 2 ^ 32 := hg.1.trans (by decide)
  have hlo := h.layout.lo_ge
  have hle := h.layout.tiles.le
  have htags := put_header_footer (p := s.memBrk) (n := n) (k := 0) (s.grow n) hn (by decide) hlt
  have hnext : nextBlkp (retag s.mem s.memBrk (s.memBrk + n) (pack n 0)) s.memBrk =
      s.memBrk + n := nextBlkp_retag _ hn h16 (by decide) hlt
  unfold extendHeap
  simp only [hsize, State.memSbrk_of_granted hg]
  rw [htags, State.grow_mem, State.setMem_mem, hnext]
  rfl

theorem extendHeap_spec (words : Nat) (h : Heap s bs) (hrover : AtBlock s bs)
    (h16 : 16 ≤ extendSize words) (hn : extendSize words % 8 = 0)
    (hg : s.Granted (extendSize words)) :
    ∃ s', extendHeap s words =
        (s', (mergedBlock bs ⟨s.memBrk, extendSize words, false⟩ []).ptr) ∧
      Merged s s' (coalesceBlocks bs ⟨s.memBrk, extendSize words, false⟩ []) bs := by
  have heq := extendHeap_eq h h16 hn hg
  generalize extendSize words = n at *
  have hgrant : s.memBrk + n ≤ s.memStartBrk + maxHeap := hg.2.trans_eq (Nat.add_comm _ _)
  have hmax := h.max
  have hlo := h.layout.lo_ge
  have hle := h.layout.tiles.le
  have hheap : Heap ((s.grow n).setMem (growTags s.mem s.memBrk n))
      (bs ++ ⟨s.memBrk, n, false⟩ :: []) :=
    ⟨h.layout.grow h16 hn (by omega), h.base, hgrant, h.max, h.start⟩
  have hat : AtBlock ((s.grow n).setMem (growTags s.mem s.memBrk n))
      (bs ++ ⟨s.memBrk, n, false⟩ :: []) := by
    rcases hrover with hp | ⟨b, hb, hbr⟩
    · exact .inl hp
    · exact .inr ⟨b, by simp [hb], hbr⟩
  obtain ⟨s', heq', hmerged⟩ := coalesce_spec hheap hat rfl
  refine ⟨s', heq.trans heq', hmerged.heap, hmerged.rover, hmerged.start, fun c hc ha => ?_⟩
  have hout : SamePayload s.mem (growTags s.mem s.memBrk n) c := by
    intro x h₁ h₂
    have := h.layout.tiles.ptr_add_size_le hc
    exact growTags_of_outside s.mem (by omega) h16 (by omega)
  exact hout.trans (hmerged.keeps c (by simp [hc]) ha)

end CsappLabs.Malloc.Implicit
