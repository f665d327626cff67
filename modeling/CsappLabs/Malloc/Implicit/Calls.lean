import CsappLabs.Malloc.Client
import CsappLabs.Malloc.Implicit.Coalesce

/-!
# `mm_malloc`, `mm_free` and `mm_realloc` with next fit

The search walks from the cursor to the epilogue and then from the prologue to
where the cursor was.  It stops at a block or at the old cursor, so that the
cursor is never inside a block.
-/

namespace CsappLabs.Malloc.Implicit

open CsappLabs.Foundation

structure Sound (base : Nat) (s : State) (bs : List Block) : Prop where
  heap : Heap s bs
  rover : AtBlock s bs
  apart : NoAdjacentFree bs
  start : s.memStartBrk = base

def State.clientWrite (s : State) (p : Nat) (v : UInt8) : State :=
  { s with toMemlib := s.toMemlib.clientWrite p v }

def allocator : Allocator State where
  memlib := State.toMemlib
  clientWrite := State.clientWrite
  mmMalloc := mmMalloc
  mmFree := fun s bp => some (mmFree s bp)
  mmRealloc := mmRealloc

variable {s s' : State} {a b c d e : Block} {bs l r xs : List Block}
  {m m' : Mem} {n p q asize base : Nat}

/-! ## The search -/

def Fits (asize : Nat) (b : Block) : Prop := b.alloc = false ∧ asize ≤ b.size

theorem searchFrom_tiles (go : Nat → Prop) [DecidablePred go] (asize fuel : Nat) (h : Tiles p bs q) (htag : ∀ b ∈ bs, Tagged m b)
    (hgo : ∀ b ∈ bs, go b.ptr) :
    (∃ b ∈ bs, Fits asize b ∧
      searchFrom m go asize (fuel + bs.length) p = some (b.ptr, true)) ∨
    (∀ b ∈ bs, ¬Fits asize b) ∧
      searchFrom m go asize (fuel + bs.length) p = searchFrom m go asize fuel q := by
  induction bs generalizing p with
  | nil =>
      obtain rfl : p = q := h
      exact .inr ⟨by simp, rfl⟩
  | cons b bs ih =>
      obtain ⟨rfl, h16, hmod, htail⟩ := h
      have ha := Bool.toNat_lt_two b.alloc
      have hhead : load m (hdrp b.ptr) = pack b.size b.alloc.toNat := (htag b (by simp)).1
      have hsize := getSize_of_load hhead hmod (by omega)
      have halloc := getAlloc_of_load hhead hmod ha
      have hnext : nextBlkp m b.ptr = b.ptr + b.size := by rw [nextBlkp, ← hdrp, hsize]
      have hstep : searchFrom m go asize (fuel + (b :: bs).length) b.ptr =
          if getAlloc m (hdrp b.ptr) = 0 ∧ asize ≤ getSize m (hdrp b.ptr) then
            some (b.ptr, true)
          else searchFrom m go asize (fuel + bs.length) (nextBlkp m b.ptr) := by
        rw [List.length_cons, ← Nat.add_assoc, searchFrom, if_pos (hgo b (by simp))]
      rw [hstep, hsize, halloc, hnext]
      by_cases hfit : Fits asize b
      · refine .inl ⟨b, by simp, hfit, ?_⟩
        rw [if_pos ⟨by simp [hfit.1], hfit.2⟩]
      · have hno : ¬(b.alloc.toNat = 0 ∧ asize ≤ b.size) := by
          rintro ⟨h₁, h₂⟩
          exact hfit ⟨by simpa using h₁, h₂⟩
        rw [if_neg hno]
        rcases ih htail (fun c hc => htag c (by simp [hc])) fun c hc => hgo c (by simp [hc])
          with ⟨c, hc, hfits, heq⟩ | ⟨hnone, heq⟩
        · exact .inl ⟨c, by simp [hc], hfits, heq⟩
        · refine .inr ⟨fun c hc => ?_, heq⟩
          rcases List.mem_cons.mp hc with rfl | hc
          · exact hfit
          · exact hnone c hc

theorem searchFrom_prologue (go : Nat → Prop) [DecidablePred go] (asize fuel : Nat) (h : Layout m p bs q) (hgo : go (p - 8)) :
    searchFrom m go asize (fuel + 1) (p - 8) = searchFrom m go asize fuel p := by
  have hlo := h.lo_ge
  have hhead : load m (hdrp (p - 8)) = pack 8 1 := by
    rw [hdrp, Nat.sub_sub]
    exact h.prologueHeader
  have hsize := getSize_of_load hhead (by decide) (by decide)
  have halloc := getAlloc_of_load hhead (by decide) (by decide)
  have hnext : nextBlkp m (p - 8) = p := by
    rw [nextBlkp, ← hdrp, hsize]
    omega
  rw [searchFrom, if_pos hgo, halloc, if_neg (by simp), hnext]

/-- The part of the heap behind the cursor, which the first loop walks over. -/
theorem searchToEnd (asize : Nat) (h : Heap s bs) (hrover : AtBlock s bs) :
    ∃ l r, bs = l ++ r ∧ (s.rover = s.heapListp ∧ l = [] ∨ Tiles (s.heapListp + 8) l s.rover) ∧
      ((∃ b ∈ r, Fits asize b ∧ searchFrom s.mem (fun bp => getSize s.mem (hdrp bp) > 0) asize
          walkFuel s.rover = some (b.ptr, true)) ∨
        (∀ b ∈ r, ¬Fits asize b) ∧
          searchFrom s.mem (fun bp => getSize s.mem (hdrp bp) > 0) asize walkFuel s.rover =
            some (s.memBrk, false)) := by
  have hlen := h.layout.tiles.length_le
  have hlt := h.layout.hi_lt
  have hlo := h.layout.lo_ge
  have hgo : ∀ b ∈ bs, getSize s.mem (hdrp b.ptr) > 0 := by
    intro b hb
    have h16 := h.layout.tiles.size_ge hb
    rw [h.layout.getSize_hdrp hb]
    omega
  have hend : ∀ fuel, searchFrom s.mem (fun bp => getSize s.mem (hdrp bp) > 0) asize (fuel + 1)
      s.memBrk = some (s.memBrk, false) := by
    intro fuel
    have hepi : getSize s.mem (hdrp s.memBrk) = 0 :=
      getSize_of_load h.layout.epilogue (by decide) (by decide)
    rw [searchFrom, if_neg (by omega)]
  rcases hrover with hp | ⟨b, hb, hbr⟩
  · obtain ⟨fuel, hfuel⟩ : ∃ fuel, walkFuel = fuel + 1 + bs.length + 1 :=
      ⟨walkFuel - bs.length - 2, by unfold walkFuel; omega⟩
    have hpro : getSize s.mem (hdrp (s.heapListp + 8 - 8)) > 0 := by
      have hhead : load s.mem (hdrp (s.heapListp + 8 - 8)) = pack 8 1 := by
        rw [hdrp, Nat.sub_sub]
        exact h.layout.prologueHeader
      rw [getSize_of_load hhead (by decide) (by decide)]
      decide
    have hstep := searchFrom_prologue (fun bp => getSize s.mem (hdrp bp) > 0) asize
      (fuel + 1 + bs.length) h.layout hpro
    rw [Nat.add_sub_cancel] at hstep
    refine ⟨[], bs, rfl, .inl ⟨hp, rfl⟩, ?_⟩
    rw [hp, hfuel, hstep]
    rcases searchFrom_tiles (fun bp => getSize s.mem (hdrp bp) > 0) asize (fuel + 1)
      h.layout.tiles h.layout.tagged hgo with hfit | ⟨hnone, heq⟩
    · exact .inl hfit
    · exact .inr ⟨hnone, heq.trans (hend fuel)⟩
  · obtain ⟨l, r, rfl⟩ := List.append_of_mem hb
    obtain ⟨k, hl, hr⟩ := tiles_append.mp h.layout.tiles
    obtain rfl : b.ptr = k := hr.1
    obtain ⟨fuel, hfuel⟩ : ∃ fuel, walkFuel = fuel + 1 + (b :: r).length := by
      refine ⟨walkFuel - (b :: r).length - 1, ?_⟩
      simp only [List.length_append] at hlen
      unfold walkFuel
      omega
    refine ⟨l, b :: r, rfl, .inr (hbr ▸ hl), ?_⟩
    rw [← hbr, hfuel]
    rcases searchFrom_tiles (fun bp => getSize s.mem (hdrp bp) > 0) asize (fuel + 1) hr
      (fun c hc => h.layout.tagged c (List.mem_append_right l hc))
      (fun c hc => hgo c (List.mem_append_right l hc)) with hfit | ⟨hnone, heq⟩
    · exact .inl hfit
    · exact .inr ⟨hnone, heq.trans (hend fuel)⟩

/-- The second loop, from the prologue to the old cursor. -/
theorem searchToRover (asize : Nat) (h : Heap s (l ++ r))
    (hl : s.rover = s.heapListp ∧ l = [] ∨ Tiles (s.heapListp + 8) l s.rover) :
    (∃ b ∈ l, Fits asize b ∧ searchFrom s.mem (fun bp => bp < s.rover) asize walkFuel
        s.heapListp = some (b.ptr, true)) ∨
      (∀ b ∈ l, ¬Fits asize b) ∧ searchFrom s.mem (fun bp => bp < s.rover) asize walkFuel
        s.heapListp = some (s.rover, false) := by
  rcases hl with ⟨hp, rfl⟩ | hl
  · refine .inr ⟨by simp, ?_⟩
    rw [show walkFuel = 2 ^ 32 - 1 + 1 from rfl, searchFrom, if_neg (by omega), hp]
  · have hlen := h.layout.tiles.length_le
    have hlt := h.layout.hi_lt
    have hle := hl.le
    simp only [List.length_append] at hlen
    obtain ⟨fuel, hfuel⟩ : ∃ fuel, walkFuel = fuel + 1 + l.length + 1 :=
      ⟨walkFuel - l.length - 2, by unfold walkFuel; omega⟩
    have hstep := searchFrom_prologue (fun bp => bp < s.rover) asize
      (fuel + 1 + l.length) h.layout (by omega)
    rw [Nat.add_sub_cancel] at hstep
    rw [hfuel, hstep]
    rcases searchFrom_tiles (fun bp => bp < s.rover) asize (fuel + 1) hl
      (fun c hc => h.layout.tagged c (List.mem_append_left r hc))
      (fun c hc => by
        have := hl.ptr_add_size_le hc
        have := hl.size_ge hc
        show c.ptr < s.rover
        omega) with hfit | ⟨hnone, heq⟩
    · exact .inl hfit
    · refine .inr ⟨hnone, heq.trans ?_⟩
      rw [searchFrom, if_neg (by simp)]

theorem findFit_spec (asize : Nat) (h : Heap s bs) (hrover : AtBlock s bs) :
    (∃ b ∈ bs, Fits asize b ∧ findFit s asize = some (s.setRover b.ptr, b.ptr)) ∨
      (∀ b ∈ bs, ¬Fits asize b) ∧ findFit s asize = some (s, 0) := by
  obtain ⟨l, r, rfl, hl, hfirst⟩ := searchToEnd asize h hrover
  rcases hfirst with ⟨b, hb, hfit, heq⟩ | ⟨hnone, heq⟩
  · refine .inl ⟨b, by simp [hb], hfit, ?_⟩
    unfold findFit
    simp only [heq]
    rfl
  · rcases searchToRover asize h hl with ⟨b, hb, hfit, heq'⟩ | ⟨hnone', heq'⟩
    · refine .inl ⟨b, by simp [hb], hfit, ?_⟩
      unfold findFit
      simp only [heq, heq']
      rfl
    · refine .inr ⟨fun b hb => ?_, ?_⟩
      · rcases List.mem_append.mp hb with hb | hb
        · exact hnone' b hb
        · exact hnone b hb
      · unfold findFit
        simp only [heq, heq']

/-! ## Placing a block -/

def placeTags (m : Mem) (b : Block) (asize : Nat) : Mem :=
  if asize + 16 ≤ b.size then
    splitTags m b.ptr asize (b.size - asize) (pack asize 1) (pack (b.size - asize) 0)
  else retag m b.ptr (b.ptr + b.size) (pack b.size 1)

theorem place_eq (h : Heap s bs) (hb : b ∈ bs) (hle : asize ≤ b.size) (h16 : 16 ≤ asize)
    (hmod : asize % 8 = 0) : place s b.ptr asize = s.setMem (placeTags s.mem b asize) := by
  obtain ⟨hb₁, hb₂, hb₃, hb₄, hb₅⟩ := h.ptr_bounds hb
  have hbsize := h.layout.getSize_hdrp hb
  have hsub := subw_eq hle (show b.size < 2 ^ 32 by omega)
  unfold place placeTags
  by_cases hsplit : asize + 16 ≤ b.size
  · have htags₁ := put_header_footer (p := b.ptr) (k := 1) s hmod (by decide)
      (show asize < 2 ^ 32 by omega)
    have hnext : nextBlkp (retag s.mem b.ptr (b.ptr + asize) (pack asize 1)) b.ptr =
        b.ptr + asize := nextBlkp_retag _ hmod h16 (by decide) (by omega)
    have htags₂ := put_header_footer (p := b.ptr + asize) (n := b.size - asize) (k := 0)
      (s.setMem (retag s.mem b.ptr (b.ptr + asize) (pack asize 1))) (by omega) (by decide)
      (by omega)
    simp only [hbsize, hsub, if_pos (show b.size - asize ≥ 2 * 8 by omega), if_pos hsplit,
      htags₁, State.setMem_mem, hnext]
    rw [htags₂]
    rfl
  · have htags := put_header_footer (p := b.ptr) (n := b.size) (k := 1) s hb₄ (by decide)
      (by omega)
    simp only [hbsize, hsub, if_neg (show ¬b.size - asize ≥ 2 * 8 by omega), if_neg hsplit]
    exact htags

theorem placeTags_layout (h : Heap s (l ++ b :: r)) (h16 : 16 ≤ asize)
    (hmod : asize % 8 = 0) :
    Layout (placeTags s.mem b asize) (s.heapListp + 8)
        (l ++ placed b asize :: (leftover b asize ++ r)) s.memBrk ∧
      ∀ c, c ∈ l ∨ c ∈ r → SamePayload s.mem (placeTags s.mem b asize) c := by
  obtain ⟨hb₁, hb₂, hb₃, hb₄, hb₅⟩ := h.ptr_bounds (b := b) (by simp)
  have hlay : Layout s.mem (s.heapListp + 8) (l ++ [b] ++ r) s.memBrk := by
    simpa using h.layout
  unfold placeTags
  by_cases hsplit : asize + 16 ≤ b.size
  · rw [if_pos hsplit, placed_split hsplit, leftover_split hsplit]
    refine ⟨?_, fun c hc => ?_⟩
    · have := hlay.split true false h16 (show 16 ≤ b.size - asize by omega) hmod
        (by omega)
      simpa [splitBlocks] using this
    · exact splitTags_samePayload _ _ hlay h16 (by omega) (by omega) hc
  · rw [if_neg hsplit, placed_whole hsplit, leftover_whole hsplit]
    have hxs : Tiles b.ptr [b] (b.ptr + b.size) := ⟨rfl, hb₃, hb₄, rfl⟩
    refine ⟨hlay.retag (d := ⟨b.ptr, b.size, true⟩) (by simp) hxs, fun c hc => ?_⟩
    exact retag_samePayload s.mem (pack b.size 1) hlay.tiles hxs (by simp) hlay.lo_ge hc

namespace Sound

theorem heapListp_ne (h : Sound base s bs) : s.heapListp ≠ 0 := by
  have := h.heap.base
  omega

theorem ptr_ne (h : Sound base s bs) (hb : b ∈ bs) : b.ptr ≠ 0 := by
  have := (h.heap.ptr_bounds hb).1
  omega

theorem setRover (h : Sound base s bs) (hb : b ∈ bs) : Sound base (s.setRover b.ptr) bs :=
  ⟨h.heap.setRover _, .inr ⟨b, hb, rfl⟩, h.apart, h.start⟩

theorem place_effect (h : Sound base s bs) (hb : b ∈ bs) (hfit : Fits asize b)
    (h16 : 16 ≤ asize) (hmod : asize % 8 = 0) :
    ∃ s' bs' d, place s b.ptr asize = s' ∧ d.ptr = b.ptr ∧ asize ≤ d.size ∧
      Effect allocator (Sound base) s s' bs bs' none (some d) := by
  have heq := place_eq h.heap hb hfit.2 h16 hmod
  have h16b := h.heap.layout.tiles.size_ge hb
  obtain ⟨l, r, rfl⟩ := List.append_of_mem hb
  obtain ⟨hlay, hpay⟩ := placeTags_layout h.heap h16 hmod
  have hgains := gains_of_free (d := placed b asize) (placed b asize :: leftover b asize)
    h.heap.layout.tiles hfit.1 rfl (Nat.le_refl _) (by simp; omega) fun c hc => mem_placed hc
  have hat : AtBlock (s.setMem (placeTags s.mem b asize))
      (l ++ placed b asize :: (leftover b asize ++ r)) := by
    rcases h.rover with hp | ⟨c, hc, hcr⟩
    · exact .inl hp
    · simp only [List.mem_append, List.mem_cons] at hc
      rcases hc with hc | rfl | hc
      · exact .inr ⟨c, by simp [hc], hcr⟩
      · exact .inr ⟨placed c asize, by simp, hcr⟩
      · exact .inr ⟨c, by simp [hc], hcr⟩
  have hinv : Sound base (s.setMem (placeTags s.mem b asize))
      (l ++ placed b asize :: (leftover b asize ++ r)) :=
    ⟨h.heap.of_layout hlay, hat, noAdjacentFree_placed h.apart.left h.apart.right.tail
      fun _ => h.apart.startsAllocated hfit.1, h.start⟩
  refine ⟨_, _, placed b asize, heq, rfl, placed_size_ge hfit.2,
    Gains.effect (by simpa using hgains) hinv fun c hc ha => ?_⟩
  exact hpay c (mem_sides hfit.1 hc ha)

/-! ## `mm_malloc` -/

theorem extend_effect (h : Sound base s bs) (h16 : 16 ≤ asize) (hmod : asize % 8 = 0)
    (hlt : asize < 2 ^ 32) :
    ¬s.Granted (max asize chunksize) ∧ extendHeap s (max asize chunksize / 4) = (s, 0) ∨
    s.Granted (max asize chunksize) ∧
      ∃ s' bs' b, extendHeap s (max asize chunksize / 4) = (s', b.ptr) ∧
        b ∈ bs' ∧ Fits asize b ∧ Effect allocator (Sound base) s s' bs bs' none none := by
  have hsize := extendSize_chunk hmod hlt
  rw [← chunksize] at hsize
  by_cases hg : s.Granted (max asize chunksize)
  · right
    obtain ⟨s', heq, hmerged⟩ := extendHeap_spec (max asize chunksize / 4) h.heap
      h.rover (by rw [hsize]; omega) (by rw [hsize]; unfold chunksize; omega)
      (by rw [hsize]; exact hg)
    rw [hsize] at heq hmerged
    refine ⟨hg, s', coalesceBlocks bs ⟨s.memBrk, max asize chunksize, false⟩ [],
      mergedBlock bs ⟨s.memBrk, max asize chunksize, false⟩ [], heq,
      by simp [coalesceBlocks], ⟨rfl, ?_⟩, ?_⟩
    · simp only [mergedBlock]
      omega
    · refine SameAllocated.effect (fun c hc => ?_) ?_ hmerged.keeps
      · simp [mem_coalesceBlocks hc]
      · exact ⟨hmerged.heap, hmerged.rover,
          coalesceBlocks_noAdjacentFree h.apart noAdjacentFree_nil,
          hmerged.start.trans h.start⟩
  · exact .inl ⟨hg, extendHeap_refused (by rw [hsize]; unfold chunksize; omega)
      (by rw [hsize]; exact hg)⟩

theorem malloc_effect (h : Sound base s bs) (hn : n + 15 < 2 ^ 32) :
    mmMalloc s n = some (s, 0) ∨
    ∃ s' bs' d, mmMalloc s n = some (s', d.ptr) ∧ n + 8 ≤ d.size ∧
      Effect allocator (Sound base) s s' bs bs' none (some d) := by
  by_cases hn0 : n = 0
  · left
    simp [mmMalloc, h.heapListp_ne, hn0]
  · obtain ⟨h16, hmod, hge, -⟩ := adjustSize_bounds hn
    unfold mmMalloc
    simp only [h.heapListp_ne, hn0, if_false]
    rcases findFit_spec (adjustSize n) h.heap h.rover with ⟨b, hb, hfit, heq⟩ | ⟨-, heq⟩
    · obtain ⟨s', bs', d, hplace, hd, hsize, heff⟩ :=
        (h.setRover hb).place_effect hb hfit h16 hmod
      have hmoved : Effect allocator (Sound base) s (s.setRover b.ptr) bs bs none none :=
        SameAllocated.effect (fun _ _ => Iff.rfl) (h.setRover hb) (KeepsAllocated.refl _ _)
      right
      refine ⟨s', bs', d, ?_, hge.trans hsize, hmoved.after heff⟩
      simp [heq, h.ptr_ne hb, hplace, hd]
    · simp only [heq, ne_eq, not_true, if_false]
      rcases h.extend_effect h16 hmod (adjustSize_lt_word n) with
        ⟨-, heq'⟩ | ⟨-, s₁, bs₁, b, heq', hb, hfit, heff⟩
      · exact .inl (by simp [heq'])
      · obtain ⟨s', bs', d, hplace, hd, hsize, heff'⟩ :=
          heff.inv.place_effect hb hfit h16 hmod
        right
        refine ⟨s', bs', d, ?_, hge.trans hsize, heff.after heff'⟩
        simp [heq', heff.inv.ptr_ne hb, hplace, hd]

/-! ## `mm_free` -/

theorem free_effect (h : Sound base s bs) (hd : d ∈ bs) (ha : d.alloc = true) :
    ∃ s' bs', mmFree s d.ptr = s' ∧
      Effect allocator (Sound base) s s' bs bs' (some d) none := by
  have hd0 := h.ptr_ne hd
  have hp0 := h.heapListp_ne
  have hsize := h.heap.layout.getSize_hdrp hd
  obtain ⟨l, r, rfl⟩ := List.append_of_mem hd
  obtain ⟨hd₁, hd₂, hd₃, hd₄, hd₅⟩ := h.heap.ptr_bounds hd
  have hheap : Heap s (l ++ [d] ++ r) := by simpa using h.heap
  obtain ⟨hheap₁, hpay₁⟩ := hheap.retag (d := ⟨d.ptr, d.size, false⟩) (by simp)
    ⟨rfl, hd₃, hd₄, rfl⟩
  have hat : AtBlock (s.setMem (retag s.mem d.ptr (d.ptr + d.size) (pack d.size 0)))
      (l ++ ⟨d.ptr, d.size, false⟩ :: r) := by
    rcases h.rover with hp | ⟨c, hc, hcr⟩
    · exact .inl hp
    · simp only [List.mem_append, List.mem_cons] at hc
      rcases hc with hc | rfl | hc
      · exact .inr ⟨c, by simp [hc], hcr⟩
      · exact .inr ⟨⟨c.ptr, c.size, false⟩, by simp, hcr⟩
      · exact .inr ⟨c, by simp [hc], hcr⟩
  obtain ⟨s', heq, hmerged⟩ := coalesce_spec hheap₁ hat rfl
  have heq' : coalesce (s.setMem (retag s.mem d.ptr (d.ptr + d.size) (pack d.size 0)))
      d.ptr = (s', (mergedBlock l ⟨d.ptr, d.size, false⟩ r).ptr) := heq
  have htags := put_header_footer (p := d.ptr) (n := d.size) (k := 0) s hd₄ (by decide)
    (by omega)
  refine ⟨s', coalesceBlocks l ⟨d.ptr, d.size, false⟩ r, ?_, ?_⟩
  · unfold mmFree
    simp only [hd0, hp0, if_false, hsize, htags, heq']
  · refine (loses_coalesce h.heap.layout.tiles ha).effect ?_ fun c hc hca hne => ?_
    · exact ⟨hmerged.heap, hmerged.rover,
        coalesceBlocks_noAdjacentFree h.apart.left h.apart.right.tail,
        hmerged.start.trans h.start⟩
    · have hside : c ∈ l ∨ c ∈ r := by
        simp only [List.mem_append, List.mem_cons] at hc
        rcases hc with hc | hc | hc
        · exact .inl hc
        · exact absurd hc hne
        · exact .inr hc
      exact (hpay₁ c hside).trans (hmerged.keeps c (List.mem_append.mpr hside) hca)

/-! ## `mm_realloc` -/

theorem of_payload (h : Sound base s bs) (hd : d ∈ bs) (hm : PayloadOnly d s.mem m') :
    Sound base (s.setMem m') bs :=
  ⟨h.heap.of_layout (hm.layout h.heap.layout hd), h.rover, h.apart, h.start⟩

end Sound

theorem memlib_copy (s : State) (dst src n : Nat) :
    (allocator.memlib (s.setMem (copy s.mem dst src n))).mem =
      copy (allocator.memlib s).mem dst src n := rfl

namespace Sound

theorem realloc_effect (h : Sound base s bs) (hd : d ∈ bs) (ha : d.alloc = true)
    (hn : n + 15 < 2 ^ 32) (hn0 : n ≠ 0) :
    mmRealloc s d.ptr n = some (s, 0) ∨
    ∃ s' bs' e, mmRealloc s d.ptr n = some (s', e.ptr) ∧ n + 8 ≤ e.size ∧
      Effect allocator (Sound base) s s' bs bs' (some d) (some e) ∧
      ∀ k < n, k + 8 < d.size → s'.mem (e.ptr + k) = s.mem (d.ptr + k) := by
  have hd0 := h.ptr_ne hd
  unfold mmRealloc
  simp only [hd0, hn0, if_false]
  rcases h.malloc_effect hn with heq | ⟨s₁, bs₁, e, heq, hsize, heff⟩
  · exact .inl (by simp [heq])
  · right
    have hea : e.alloc = true := heff.new_alloc e rfl
    have hmem : e ∈ bs₁ := (heff.mem e hea).mpr (.inr rfl)
    have hd₁ : d ∈ bs₁ := (heff.mem d ha).mpr (.inl ⟨hd, by simp⟩)
    have he0 := heff.inv.ptr_ne hmem
    have hold := heff.inv.heap.layout.getSize_hdrp hd₁
    have hmin : (if n < d.size then n else d.size) = min n d.size := by
      split <;> omega
    have hroom : min n d.size + 8 ≤ e.size := by omega
    obtain ⟨s', bs', hfree, heff'⟩ :=
      (heff.inv.of_payload hmem (payloadOnly_copy _ d.ptr hroom)).free_effect hd₁ ha
    have hcopy := memlib_copy s₁ e.ptr d.ptr (min n d.size)
    obtain ⟨hmoved, hbytes⟩ := heff.moved heff.inv.heap.layout.tiles hd ha hcopy hroom heff'
    refine ⟨s', bs', e, ?_, hsize, hmoved, fun k hk hkd => hbytes k (by omega) hkd⟩
    simp [heq, he0, hold, hmin, hfree]

end Sound

theorem refines (base : Nat) :
    Refines allocator (Sound base) (fun _ _ => True) base where
  start h := h.start
  tiles {s bs} h := by
    refine ⟨s.heapListp + 8, h.heap.layout.tiles, ?_, ?_⟩
    · have := h.heap.base
      have := h.start
      omega
    · have := h.heap.base
      have := h.start
      omega
  write x v h hd _ h₁ h₂ := ⟨h.of_payload hd (payloadOnly_poke _ v h₁ h₂), rfl⟩
  malloc {s bs n} h hn _ := by
    rcases h.malloc_effect (show n + 15 < 2 ^ 32 by omega) with heq | hout
    · exact .inl ⟨s, heq, Effect.refl h⟩
    · exact .inr hout
  free h hd ha _ := by
    obtain ⟨s', bs', heq, heff⟩ := h.free_effect hd ha
    exact ⟨s', bs', by rw [← heq]; rfl, heff⟩
  realloc_zero {s bs d} h hd ha _ := by
    obtain ⟨s', bs', heq, heff⟩ := h.free_effect hd ha
    refine ⟨s', bs', ?_, heff⟩
    show mmRealloc s d.ptr 0 = _
    simp [mmRealloc, heq]
  realloc {s bs d n} h hd ha hn hn0 _ := by
    rcases h.realloc_effect hd ha (show n + 15 < 2 ^ 32 by omega) hn0 with heq | hout
    · exact .inl ⟨s, heq, Effect.refl h⟩
    · exact .inr hout

end CsappLabs.Malloc.Implicit
