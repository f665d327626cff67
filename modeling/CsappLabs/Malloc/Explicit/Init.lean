import CsappLabs.Malloc.Explicit.Realloc

/-!
# `mm_init`

The prologue and the epilogue go to the start of the arena, and the list is
empty: the two sentinels point at each other.
-/

namespace CsappLabs.Malloc.Explicit

open CsappLabs.Foundation

variable {s : State} {m : Mem} {n p base : Nat}

/-- An arena before `mm_init`, as `mem_init` or `mem_reset_brk` leaves it. -/
structure Fresh (base : Nat) (s : State) : Prop where
  start : s.memStartBrk = base
  brk : s.memBrk = base
  pos : 0 < base
  max : base + maxHeap < 2 ^ 32
  sentinels : Sentinels s

def arena : State where
  mem := fun _ => 0
  memStartBrk := 4096
  memBrk := 4096
  heapListp := 0
  heapFreep := 1000
  tail := 1008

theorem arena_fresh : Fresh 4096 arena where
  start := rfl
  brk := rfl
  pos := by decide
  max := by decide
  sentinels := ⟨by decide, by decide, by decide, by decide, by decide⟩

def initWords (s : State) (p : Nat) : Mem :=
  store (store (prologueWords s.mem p) (succPtr s.heapFreep) s.tail) s.tail s.heapFreep

theorem putPrologue_eq (s : State) (p : Nat) :
    putPrologue s p = { s with heapListp := p + 8 }.setMem (initWords s p) := rfl

theorem initWords_heap (h : Fresh base s) :
    Heap ({ s.grow 16 with heapListp := base + 8 }.setMem (initWords s base)) []
      (FreeOf []) := by
  have hmax := h.max
  have hpos := h.pos
  have hheap : maxHeap = 20971520 := rfl
  have hs := h.sentinels
  have hhead := hs.head
  have htail := hs.tail
  have hapart := hs.apart
  rw [h.start] at hhead htail
  have hlinks : LinksOnly (fun q => q = s.heapFreep ∨ q = s.tail) (prologueWords s.mem base)
      (initWords s base) :=
    (LinksOnly.storeSuccessor (.inl rfl) _).trans (.storePredecessor (.inr rfl) _)
  have hsucc : getSuccessor (initWords s base) s.heapFreep = s.tail := by
    unfold initWords getSuccessor succPtr
    rw [load_store_of_apart _ _ (by omega), load_store_same, Nat.mod_eq_of_lt hs.tail_lt]
  have hpred : getPredecessor (initWords s base) s.tail = s.heapFreep := by
    unfold initWords getPredecessor
    rw [load_store_same, Nat.mod_eq_of_lt hs.head_lt]
  exact {
    layout := by
      have hlay := (prologueWords_layout s.mem hpos (by omega)).of_links hlinks fun q hq => by
        rcases hq with rfl | rfl
        · omega
        · omega
      have hbrk : s.memBrk + 16 = base + 16 := by rw [h.brk]
      simpa [hbrk] using hlay
    list := by
      refine ⟨[], ⟨hsucc, hpred⟩, List.nodup_nil, fun q => ?_⟩
      simp [NodeOf, FreeOf]
    listed := by simp [FreeOf]
    base := by simp [h.start]
    top := by
      simp only [State.setMem_memBrk, State.setMem_memStartBrk, State.grow_memBrk,
        State.grow_memStartBrk, h.start, h.brk]
      omega
    max := by
      simp only [State.setMem_memStartBrk, State.grow_memStartBrk, h.start]
      exact hmax
    start := by
      simp only [State.setMem_memStartBrk, State.grow_memStartBrk, h.start]
      exact hpos
    sentinels := ⟨hs.head, hs.tail, hs.apart, hs.head_lt, hs.tail_lt⟩ }

theorem mmInit_spec (h : Fresh base s) :
    ∃ s', mmInit s = (s', 0) ∧ Sound base s' [⟨base + 16, 32, false⟩] := by
  have hheap := initWords_heap h
  have hstart := h.start
  have hbrk := h.brk
  have hmax : maxHeap = 20971520 := rfl
  have hgrant₁ : s.Granted (4 * 4) :=
    Memlib.granted_of_le (by decide) (by omega)
  have hsize : extendSize (2 ^ 5 / 4) = 32 := by decide
  have hinit : mmInit s = ((extendHeap (putPrologue (s.grow (4 * 4)) s.memBrk) (2 ^ 5 / 4)).1,
      if (extendHeap (putPrologue (s.grow (4 * 4)) s.memBrk) (2 ^ 5 / 4)).2 = 0 then -1
      else 0) := by
    simp only [mmInit, State.memSbrk_of_granted hgrant₁]
  have hput : putPrologue (s.grow (4 * 4)) s.memBrk =
      { s.grow 16 with heapListp := base + 8 }.setMem (initWords s base) := by
    rw [putPrologue_eq, hbrk]
    rfl
  have htbrk : ({ s.grow 16 with heapListp := base + 8 }.setMem (initWords s base)).memBrk =
      base + 16 := by simp [hbrk]
  have htstart : ({ s.grow 16 with heapListp := base + 8 }.setMem
      (initWords s base)).memStartBrk = base := hstart
  rw [hput] at hinit
  generalize { s.grow 16 with heapListp := base + 8 }.setMem (initWords s base) = t at *
  have hgrant₂ : t.Granted (extendSize (2 ^ 5 / 4)) :=
    Memlib.granted_of_le (by rw [hsize]; decide) (by rw [hsize, htbrk, htstart]; omega)
  obtain ⟨m', heq, hmerged⟩ := extendHeap_spec _ hheap (by rw [hsize]; decide) (by rw [hsize])
    hgrant₂
  rw [hsize, htbrk] at heq hmerged
  refine ⟨(t.grow 32).setMem m', ?_, hmerged.whole, ?_, htstart⟩
  · have hp : (mergedBlock [] ⟨base + 16, 32, false⟩ []).ptr ≠ 0 := by
      simp [mergedBlock, freeBefore]
    rw [hinit, heq]
    simp [hp]
  · exact noAdjacentFree_insert (l := []) noAdjacentFree_nil noAdjacentFree_nil
      (.inr ⟨by simp [Layout.EndsAllocated], by simp [Layout.StartsAllocated]⟩)

end CsappLabs.Malloc.Explicit
