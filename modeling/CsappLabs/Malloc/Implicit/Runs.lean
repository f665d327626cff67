import CsappLabs.Malloc.Implicit.Calls

/-!
# Runs of a client of the implicit-list allocator

A run starts with `mm_init` on a fresh arena and goes on with any valid calls
and stores of the client.
-/

namespace CsappLabs.Malloc.Implicit

open CsappLabs.Foundation

variable {s s₀ s₁ : State} {w : World State} {bs : List Block} {base : Nat}

/-! ## `mm_init` -/

structure Fresh (base : Nat) (s : State) : Prop where
  start : s.memStartBrk = base
  brk : s.memBrk = base
  pos : 0 < base
  max : base + maxHeap < 2 ^ 32

def arena : State where
  mem := fun _ => 0
  memStartBrk := 4096
  memBrk := 4096
  heapListp := 0
  rover := 0

theorem arena_fresh : Fresh 4096 arena where
  start := rfl
  brk := rfl
  pos := by decide
  max := by decide

def initState (s : State) (p : Nat) : State :=
  { s with heapListp := p + 8, rover := p + 8 }.setMem (prologueWords s.mem p)

theorem putPrologue_eq (s : State) (p : Nat) : putPrologue s p = initState s p := rfl

theorem initState_heap (h : Fresh base s) : Heap (initState (s.grow 16) base) [] := by
  have hmax := h.max
  have hpos := h.pos
  have hbrk : s.memBrk + 16 = base + 16 := by rw [h.brk]
  have hheap : maxHeap = 20971520 := rfl
  refine ⟨?_, ?_, ?_, ?_, ?_⟩
  · have hlay := prologueWords_layout s.mem hpos (show base + 16 < 2 ^ 32 by omega)
    simpa [initState, hbrk] using hlay
  · simp [initState, h.start]
  · simp [initState, h.start, h.brk, hheap]
  · simp only [initState, State.setMem_memStartBrk, State.grow_memStartBrk, h.start]
    exact hmax
  · simp only [initState, State.setMem_memStartBrk, State.grow_memStartBrk, h.start]
    exact hpos

theorem mmInit_spec (h : Fresh base s) :
    ∃ s', mmInit s = (s', 0) ∧ Sound base s' [⟨base + 16, 4096, false⟩] := by
  have hheap := initState_heap h
  have hrover : AtBlock (initState (s.grow 16) base) [] := .inl rfl
  have hstart := h.start
  have hbrk := h.brk
  have hmax : maxHeap = 20971520 := rfl
  have hgrant₁ : s.Granted (4 * 4) := Memlib.granted_of_le (by decide) (by omega)
  have hsize : extendSize (chunksize / 4) = 4096 := by decide
  have hinit : mmInit s = ((extendHeap (putPrologue (s.grow (4 * 4)) s.memBrk) (chunksize / 4)).1,
      if (extendHeap (putPrologue (s.grow (4 * 4)) s.memBrk) (chunksize / 4)).2 = 0 then -1
      else 0) := by
    simp only [mmInit, State.memSbrk_of_granted hgrant₁]
  have htbrk : (initState (s.grow 16) base).memBrk = base + 16 := by simp [initState, hbrk]
  have htstart : (initState (s.grow 16) base).memStartBrk = base := hstart
  rw [putPrologue_eq, hbrk] at hinit
  generalize initState (s.grow (4 * 4)) base = t at *
  have hgrant₂ : t.Granted (extendSize (chunksize / 4)) :=
    Memlib.granted_of_le (by rw [hsize]; decide) (by rw [hsize, htbrk, htstart]; omega)
  obtain ⟨s', heq, hmerged⟩ := extendHeap_spec _ hheap hrover (by rw [hsize]; decide)
    (by rw [hsize]) hgrant₂
  rw [hsize, htbrk] at heq hmerged
  refine ⟨s', ?_, hmerged.heap, hmerged.rover, ?_, hmerged.start.trans htstart⟩
  · have hp : (mergedBlock [] ⟨base + 16, 4096, false⟩ []).ptr ≠ 0 := by
      simp [mergedBlock, freeBefore]
    rw [hinit, heq]
    simp [hp]
  · exact noAdjacentFree_insert (l := []) noAdjacentFree_nil noAdjacentFree_nil
      (.inr ⟨by simp [Layout.EndsAllocated], by simp [Layout.StartsAllocated]⟩)

/-! ## Every reachable heap -/

theorem run_consistent (h₀ : Fresh base s₀) (hinit : mmInit s₀ = (s₁, 0))
    (hrun : Reach allocator (fun _ _ => True) ⟨s₁, []⟩ w) :
    ∃ bs, Consistent (Sound base) w bs := by
  obtain ⟨s', heq, hsound⟩ := mmInit_spec h₀
  obtain ⟨rfl, -⟩ : s₁ = s' ∧ True := by simpa [hinit] using heq
  exact (refines base).reach ⟨_, Consistent.empty hsound (by simp)⟩ hrun

structure WellFormed (s : State) (bs : List Block) : Prop where
  walk : walkBlocks s.mem walkFuel s.heapListp =
    some (⟨s.heapListp, 8, true⟩ :: bs, s.memBrk)
  tiles : Tiles (s.heapListp + 8) bs s.memBrk
  epilogue : load s.mem (hdrp s.memBrk) = pack 0 1
  blocks : ∀ b ∈ bs, b.size % 8 = 0 ∧ 16 ≤ b.size ∧
    load s.mem (hdrp b.ptr) = load s.mem (ftrp s.mem b.ptr)
  apart : NoAdjacentFree bs
  rover : s.rover = s.heapListp ∨ ∃ b ∈ bs, b.ptr = s.rover

theorem Sound.wellFormed (h : Sound base s bs) : WellFormed s bs where
  walk := h.heap.layout.walkBlocks_eq
  tiles := h.heap.layout.tiles
  epilogue := h.heap.layout.epilogue
  blocks b hb := by
    refine ⟨h.heap.layout.tiles.size_mod hb, h.heap.layout.tiles.size_ge hb, ?_⟩
    have htag := h.heap.layout.tagged b hb
    rw [h.heap.layout.ftrp_eq hb]
    exact htag.1.trans htag.2.symm
  apart := h.apart
  rover := h.rover

structure LivePayloads (w : World State) : Prop where
  aligned : ∀ r ∈ w.live, r.ptr % 8 = 0
  inside : ∀ r ∈ w.live, w.heap.memHeapLo ≤ r.ptr ∧ r.ptr + r.size - 1 ≤ w.heap.memHeapHi
  distinct : (w.live.map Payload.ptr).Nodup
  apart : ∀ r ∈ w.live, ∀ r' ∈ w.live, r.ptr ≠ r'.ptr →
    r.ptr + r.size ≤ r'.ptr ∨ r'.ptr + r'.size ≤ r.ptr

theorem blocks_wellFormed (h₀ : Fresh base s₀) (hbase : base % 8 = 0)
    (hinit : mmInit s₀ = (s₁, 0)) (hrun : Reach allocator (fun _ _ => True) ⟨s₁, []⟩ w) :
    (∃ bs, WellFormed w.heap bs) ∧ LivePayloads w := by
  obtain ⟨bs, hcons⟩ := run_consistent h₀ hinit hrun
  refine ⟨⟨bs, hcons.inv.wellFormed⟩, fun r hr => ?_, fun r hr => ?_, hcons.distinct,
    fun r hr r' hr' hne => hcons.apart (refines base) hr hr' hne⟩
  · obtain ⟨-, -, hmod⟩ := hcons.inside (refines base) hr
    omega
  · obtain ⟨hlo, hhi, -⟩ := hcons.inside (refines base) hr
    have hstart : w.heap.memStartBrk = base := hcons.inv.start
    have hhi' : r.ptr + r.size + 8 ≤ w.heap.memBrk := hhi
    constructor
    · show w.heap.memStartBrk ≤ r.ptr
      omega
    · show r.ptr + r.size - 1 ≤ w.heap.memBrk - 1
      omega

theorem blocks_wellFormed_arena :
    ∃ w : World State, w.live = [⟨4208, 200⟩, ⟨4112, 8⟩] ∧
      (∃ bs, WellFormed w.heap bs) ∧ LivePayloads w := by
  obtain ⟨s₁, hinit, -⟩ := mmInit_spec arena_fresh
  have hplay : ((World.mk (mmInit arena).1 []).play allocator (fun _ _ => True)
      [.malloc 8, .malloc 30, .malloc 30, .free 4128, .realloc 4168 200]).map World.live =
      some [⟨4208, 200⟩, ⟨4112, 8⟩] := by decide +kernel
  rw [hinit] at hplay
  obtain ⟨w, hw, hlive⟩ := Option.map_eq_some_iff.mp hplay
  exact ⟨w, hlive, blocks_wellFormed arena_fresh (by decide) hinit (Reach.start.of_play hw)⟩

end CsappLabs.Malloc.Implicit
