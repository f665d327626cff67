import CsappLabs.Malloc.Client

/-!
# Requests near the word limit

The adjusted size of a request is computed modulo `2 ^ 32`.  For the last sizes
it wraps around to 0 or 8, and any free block fits: such a request is met only
by `NULL`, which needs a heap without a free block that cannot grow.
-/

namespace CsappLabs.Malloc

open CsappLabs.Foundation

structure HasCapacity (m : Memlib) (p n : Nat) : Prop where
  start : m.memStartBrk ≤ p
  inside : p + getSize m.mem (hdrp p) ≤ m.memBrk
  capacity : n + 8 ≤ getSize m.mem (hdrp p)

def BlocksReach (m : Memlib) (bp : Nat) : Prop :=
  ∃ bs, walkBlocks m.mem walkFuel bp = some (bs, m.memBrk)

/-- No block from `bp` on is free, and `mem_sbrk` refuses `CHUNKSIZE` bytes. -/
def Starved (m : Memlib) (bp : Nat) : Prop :=
  (∀ bs, walkBlocks m.mem walkFuel bp = some (bs, m.memBrk) → ∀ b ∈ bs, b.alloc = true) ∧
    ¬m.Granted chunksize

variable {σ : Type} {A : Allocator σ} {heapListp : σ → Nat} {s : σ} {m : Memlib}
  {bs : List Block} {d : Block} {n p lo hi : Nat}

def MallocFits (A : Allocator σ) (heapListp : σ → Nat) (s : σ) (n : Nat) : Prop :=
  ∃ s' p, A.mmMalloc s n = some (s', p) ∧ (p ≠ 0 → HasCapacity (A.memlib s') p n) ∧
    BlocksReach (A.memlib s') (heapListp s')

def ReallocFits (A : Allocator σ) (s : σ) (p n : Nat) : Prop :=
  ∃ s' q, A.mmRealloc s p n = some (s', q) ∧ (q ≠ 0 → HasCapacity (A.memlib s') q n)

/-! ## Capacity -/

theorem getSize_le (m : Mem) (p : Nat) : getSize m p ≤ 2 ^ 32 - 8 := by
  unfold getSize
  exact Nat.and_le_right

namespace HasCapacity

theorem word (h : HasCapacity m p n) : n + 15 < 2 ^ 32 := by
  have hword := getSize_le m.mem (hdrp p)
  have hcap := h.capacity
  omega

theorem heap (h : HasCapacity m p n) (htop : m.memBrk ≤ m.memStartBrk + maxHeap) :
    n + 8 ≤ maxHeap := by
  have hstart := h.start
  have hinside := h.inside
  have hcap := h.capacity
  omega

end HasCapacity

namespace Layout

theorem hasCapacity (h : Layout m.mem lo bs m.memBrk) (hlo : m.memStartBrk ≤ lo) (hd : d ∈ bs)
    (hn : n + 8 ≤ d.size) : HasCapacity m d.ptr n := by
  have hsize := h.getSize_hdrp hd
  have hge := h.tiles.ptr_ge hd
  have hle := h.tiles.ptr_add_size_le hd
  exact ⟨by omega, by omega, by omega⟩

theorem blocksReach (h : Layout m.mem (lo + 8) bs m.memBrk) : BlocksReach m lo :=
  ⟨_, h.walkBlocks_eq⟩

theorem starved_iff (h : Layout m.mem (lo + 8) bs m.memBrk) :
    Starved m lo ↔ (∀ b ∈ bs, b.alloc = true) ∧ ¬m.Granted chunksize := by
  have hwalk := h.walkBlocks_eq
  rw [Nat.add_sub_cancel] at hwalk
  constructor
  · rintro ⟨hfull, hrefused⟩
    exact ⟨fun b hb => hfull _ hwalk b (List.mem_cons_of_mem _ hb), hrefused⟩
  · rintro ⟨hfull, hrefused⟩
    refine ⟨fun bs' hwalk' b hb => ?_, hrefused⟩
    obtain ⟨rfl, -⟩ := Prod.mk.inj (Option.some.inj (hwalk.symm.trans hwalk'))
    cases List.mem_cons.mp hb with
    | inl he => rw [he]
    | inr hb => exact hfull b hb

theorem too_large {m : Mem} (h : Layout m lo bs hi) (hd : d ∈ bs) (asize : Nat)
    (hlarge : hi < lo + asize) :
    ¬((getAlloc m (hdrp (nextBlkp m d.ptr)) = 0 ∨ getSize m (hdrp (nextBlkp m d.ptr)) = 0) ∧
      addw d.size (getSize m (hdrp (nextBlkp m d.ptr))) ≥ asize) := by
  have hge := h.tiles.ptr_ge hd
  have hle := h.tiles.ptr_add_size_le hd
  obtain ⟨l, r, rfl⟩ := List.append_of_mem hd
  cases startsAllocated_or r with
  | inl hr => exact h.no_room hr (by omega)
  | inr hfree =>
      obtain ⟨c, r, rfl, -⟩ := hfree
      have hdc := h.tiles.prev_end
      have hcle := h.tiles.ptr_add_size_le (b := c) (by simp)
      have hcsize := h.getSize_hdrp (b := c) (by simp)
      have hhi := h.hi_lt
      rw [h.nextBlkp_cons, hcsize, addw_eq (by omega)]
      omega

end Layout

/-! ## The last sizes -/

def GetsBlock (A : Allocator σ) (s : σ) (n : Nat) : Prop :=
  ∀ s' p, A.mmMalloc s n = some (s', p) → p ≠ 0

/-- What `mm_malloc` does with requests of all sizes: one whose adjusted size
wraps around gets a block unless the heap is starved. -/
structure MallocLimit (A : Allocator σ) (heapListp : σ → Nat) (s : σ) (n : Nat) : Prop where
  reach : BlocksReach (A.memlib s) (heapListp s)
  fits : n + 15 < 2 ^ 32 → MallocFits A heapListp s n
  null : 2 ^ 32 ≤ n + 15 → Starved (A.memlib s) (heapListp s) → A.mmMalloc s n = some (s, 0)
  block : 2 ^ 32 ≤ n + 15 → ¬Starved (A.memlib s) (heapListp s) → GetsBlock A s n

theorem Layout.mallocLimit
    (h : Layout (A.memlib s).mem (heapListp s + 8) bs (A.memlib s).memBrk)
    (hfits : n + 15 < 2 ^ 32 → MallocFits A heapListp s n)
    (hwrap : 2 ^ 32 ≤ n + 15 →
      ((∀ b ∈ bs, b.alloc = true) ∧ ¬(A.memlib s).Granted chunksize) ∧
        A.mmMalloc s n = some (s, 0) ∨
      ((∃ b ∈ bs, b.alloc = false) ∨ (A.memlib s).Granted chunksize) ∧ GetsBlock A s n) :
    MallocLimit A heapListp s n where
  reach := h.blocksReach
  fits := hfits
  null hn hstarved := by
    obtain ⟨hall, hrefused⟩ := h.starved_iff.mp hstarved
    rcases hwrap hn with ⟨-, hnull⟩ | ⟨⟨b, hb, hfree⟩ | hgrant, -⟩
    · exact hnull
    · rw [hall b hb] at hfree
      cases hfree
    · exact absurd hgrant hrefused
  block hn hstarved := by
    cases hwrap hn with
    | inl hnull => exact absurd (h.starved_iff.mpr hnull.1) hstarved
    | inr hblock => exact hblock.2

namespace MallocLimit

theorem fits_iff (h : MallocLimit A heapListp s n) :
    MallocFits A heapListp s n ↔ n + 15 < 2 ^ 32 ∨ Starved (A.memlib s) (heapListp s) := by
  constructor
  · rintro ⟨s', p, heq, hcap, -⟩
    by_cases hn : n + 15 < 2 ^ 32
    · exact .inl hn
    · right
      by_contra hstarved
      exact hn (hcap (h.block (Nat.le_of_not_lt hn) hstarved s' p heq)).word
  · intro hcond
    by_cases hn : n + 15 < 2 ^ 32
    · exact h.fits hn
    · exact ⟨s, 0, h.null (Nat.le_of_not_lt hn) (hcond.resolve_left hn), fun hp => absurd rfl hp,
        h.reach⟩

end MallocLimit

/-- What `mm_realloc` does with requests of all sizes, when it adjusts the size
before `mm_malloc` does: a size that wraps around here leaves the block as it
is, and one that wraps around in `mm_malloc` moves it. -/
structure ReallocLimit (A : Allocator σ) (heapListp : σ → Nat) (s : σ) (p n : Nat) : Prop where
  ptr : p ≠ 0
  fits : n + 23 < 2 ^ 32 → ReallocFits A s p n
  same : 2 ^ 32 ≤ n + 15 → A.mmRealloc s p n = some (s, p)
  null : 2 ^ 32 ≤ n + 23 → n + 15 < 2 ^ 32 → Starved (A.memlib s) (heapListp s) →
    A.mmRealloc s p n = some (s, 0)
  block : 2 ^ 32 ≤ n + 23 → n + 15 < 2 ^ 32 → ¬Starved (A.memlib s) (heapListp s) →
    ∀ s' q, A.mmRealloc s p n = some (s', q) →
      q ≠ 0 ∧ (A.memlib s').memBrk ≤ (A.memlib s').memStartBrk + maxHeap

namespace ReallocLimit

theorem fits_iff (h : ReallocLimit A heapListp s p n) :
    ReallocFits A s p n ↔
      n + 23 < 2 ^ 32 ∨ n + 15 < 2 ^ 32 ∧ Starved (A.memlib s) (heapListp s) := by
  have hmax : maxHeap = 20 * 2 ^ 20 := rfl
  constructor
  · rintro ⟨s', q, heq, hcap⟩
    by_cases hn : n + 15 < 2 ^ 32
    · by_cases hn' : n + 23 < 2 ^ 32
      · exact .inl hn'
      · right
        refine ⟨hn, ?_⟩
        by_contra hstarved
        obtain ⟨hq, htop⟩ := h.block (Nat.le_of_not_lt hn') hn hstarved s' q heq
        have hfits := (hcap hq).heap htop
        omega
    · obtain ⟨-, rfl⟩ :=
        Prod.mk.inj (Option.some.inj (heq.symm.trans (h.same (Nat.le_of_not_lt hn))))
      exact absurd (hcap h.ptr).word hn
  · intro hcond
    by_cases hn' : n + 23 < 2 ^ 32
    · exact h.fits hn'
    · obtain ⟨hn, hstarved⟩ := hcond.resolve_left hn'
      exact ⟨s, 0, h.null (Nat.le_of_not_lt hn') hn hstarved, fun hq => absurd rfl hq⟩

end ReallocLimit

end CsappLabs.Malloc
