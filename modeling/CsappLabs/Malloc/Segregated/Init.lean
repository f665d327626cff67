import CsappLabs.Malloc.Segregated.Calls

/-!
# `mm_init`

The loop that clears the list heads runs once too often: its last store goes
to the word behind the heads, which is not yet part of the heap.  The word is
handed out by the next `mem_sbrk` and becomes the alignment padding.
-/

namespace CsappLabs.Malloc.Segregated

open CsappLabs.Foundation

variable {s : State} {m : Mem} {n p base : Nat}

structure Fresh (base : Nat) (s : State) : Prop where
  start : s.memStartBrk = base
  brk : s.memBrk = base
  pos : 0 < base
  max : base + maxHeap < 2 ^ 32

def arena : State where
  mem := fun _ => 0
  memStartBrk := 4096
  memBrk := 4096
  strays := []
  heapListp := 0
  segFreeListp := 0

theorem arena_fresh : Fresh 4096 arena where
  start := rfl
  brk := rfl
  pos := by decide
  max := by decide

/-- As long as the loop stores in the list heads it only clears them. -/
theorem setSegEntry_range (s : State) (k : Nat) (hlo : s.memStartBrk ≤ s.segFreeListp)
    (hk : s.segFreeListp + 4 * k ≤ s.memBrk) :
    ∃ m, (List.range k).foldl (fun s i => s.setSegEntry i 0) s = s.setMem m ∧
      ∀ i < k, load m (s.segFreeListp + 4 * i) = 0 := by
  induction k with
  | zero => exact ⟨s.mem, rfl, by simp⟩
  | succ k ih =>
      obtain ⟨m, heq, hzero⟩ := ih (by omega)
      rw [List.range_succ, List.foldl_append, heq]
      refine ⟨store m (s.segFreeListp + 4 * k) 0, ?_, fun i hi => ?_⟩
      · exact State.put_eq ⟨by simp; omega, by simp; omega⟩
      · by_cases hik : i = k
        · rw [hik, load_store_same]
          rfl
        · rw [load_store_of_apart _ _ (by omega), hzero i (by omega)]

def cleared (s : State) (m : Mem) (strays : List Nat) : State :=
  { memStartBrk := s.memStartBrk, memBrk := s.memBrk + 64, strays := strays, mem := m,
    heapListp := s.heapListp, segFreeListp := s.memBrk }

/-- The last round of the loop stores behind the end of the heap. -/
theorem clearEntries_eq (s : State) (h : s.memStartBrk ≤ s.memBrk) :
    ∃ m, clearEntries { s.grow (maxSegEntry * 4) with segFreeListp := s.memBrk } =
        cleared s m ((s.memBrk + 64) :: s.strays) ∧
      ∀ i < 17, load m (s.memBrk + 4 * i) = 0 := by
  obtain ⟨m, heq, hzero⟩ := setSegEntry_range
    { s.grow (maxSegEntry * 4) with segFreeListp := s.memBrk } maxSegEntry h (Nat.le_of_eq (by
      simp [maxSegEntry]))
  refine ⟨store m (s.memBrk + 64) 0, ?_, fun i hi => ?_⟩
  · have hout : ¬({ s.grow (maxSegEntry * 4) with segFreeListp := s.memBrk }.setMem m).InHeap
        (s.memBrk + 4 * maxSegEntry) 4 := fun hin => by
      have hle : s.memBrk + 4 * maxSegEntry + 4 ≤ s.memBrk + maxSegEntry * 4 := hin.2
      omega
    rw [clearEntries, List.range_succ, List.foldl_append, heq]
    exact State.put_stray hout
  · by_cases hik : i = 16
    · rw [hik, load_store_same]
      rfl
    · rw [load_store_of_apart _ _ (by omega)]
      exact hzero i (by unfold maxSegEntry; omega)

theorem freeLists_empty {segp : Nat} (h : ∀ i < 16, load m (segp + 4 * i) = 0) :
    FreeLists m segp (FreeOf []) := by
  intro i hi
  refine ⟨[], 0, ⟨h i hi, rfl⟩, List.nodup_nil, fun p => ?_⟩
  simp [InList, FreeOf]

def initState (s : State) (m : Mem) (strays : List Nat) : State :=
  { memStartBrk := s.memStartBrk, memBrk := s.memBrk + 80, strays := strays,
    mem := prologueWords m (s.memBrk + 64), heapListp := s.memBrk + 72,
    segFreeListp := s.memBrk }

theorem putPrologue_eq (s : State) (m : Mem) (strays : List Nat)
    (h : s.memStartBrk ≤ s.memBrk) :
    putPrologue ((cleared s m strays).grow (4 * 4)) (cleared s m strays).memBrk =
      initState s m strays := by
  have hput : ∀ m' w v, s.memBrk ≤ w → w + 4 ≤ s.memBrk + 80 →
      ({ initState s m strays with heapListp := s.memBrk + 64 }.setMem m').put w v =
        { initState s m strays with heapListp := s.memBrk + 64 }.setMem (store m' w v) :=
    fun m' w v hw hw' => State.put_eq ⟨h.trans hw, hw'⟩
  have h₀ := hput m (s.memBrk + 64) 0 (by omega) (by omega)
  have h₁ := hput (store m (s.memBrk + 64) 0) (s.memBrk + 64 + 4) (pack 8 1)
    (by omega) (by omega)
  have h₂ := hput (store (store m (s.memBrk + 64) 0) (s.memBrk + 64 + 4) (pack 8 1))
    (s.memBrk + 64 + 8) (pack 8 1) (by omega) (by omega)
  have h₃ := hput (store (store (store m (s.memBrk + 64) 0) (s.memBrk + 64 + 4) (pack 8 1))
    (s.memBrk + 64 + 8) (pack 8 1)) (s.memBrk + 64 + 12) (pack 0 1) (by omega) (by omega)
  rw [← h₀] at h₁
  rw [← h₁] at h₂
  rw [← h₂] at h₃
  have hall := congrArg (fun t : State => { t with heapListp := t.heapListp + 2 * 4 }) h₃
  exact hall

theorem initState_heap (h : Fresh base s) (strays : List Nat)
    (hzero : ∀ i < 17, load m (s.memBrk + 4 * i) = 0) :
    Heap (initState s m strays) [] (FreeOf []) := by
  have hstart := h.start
  have hbrk := h.brk
  have hmax := h.max
  have hpos := h.pos
  have hheap : maxHeap = 20971520 := rfl
  refine ⟨prologueWords_layout m (p := s.memBrk + 64) (by omega) (by omega), ?_,
    by simp [FreeOf], ?_, ?_, ?_, ?_, ?_⟩ <;> simp only [initState]
  · refine freeLists_empty fun i hi => ?_
    have hcong : load (prologueWords m (s.memBrk + 64)) (s.memBrk + 4 * i) =
        load m (s.memBrk + 4 * i) :=
      load_congr fun x h₁ h₂ => prologueWords_of_outside (by omega)
    exact hcong.trans (hzero i (by omega))
  · omega
  · omega
  · omega
  · omega
  · omega

theorem mmInit_writes (h : Fresh base s) :
    ∃ m, (∀ i < 17, load m (s.memBrk + 4 * i) = 0) ∧
      mmInit s = (extendHeap (initState s m ((base + 64) :: s.strays)) (2 ^ 5 / 4)).map
        fun r => (r.1, if r.2 = 0 then -1 else 0) := by
  have hstart := h.start
  have hbrk := h.brk
  have hheap : maxHeap = 20971520 := rfl
  obtain ⟨m, hclear, hzero⟩ := clearEntries_eq s (by omega)
  rw [← hbrk]
  generalize (s.memBrk + 64) :: s.strays = strays at hclear ⊢
  refine ⟨m, hzero, ?_⟩
  have hgrant₁ : s.Granted (maxSegEntry * 4) :=
    Memlib.granted_of_le (by decide) (by unfold maxSegEntry; omega)
  have hgrant₂ : (cleared s m strays).Granted (4 * 4) :=
    Memlib.granted_of_le (by decide) (by simp only [cleared]; omega)
  have hinit : mmInit s = initHeap (cleared s m strays) := by
    simp only [mmInit, State.memSbrk_of_granted hgrant₁, hclear]
  have hheap₂ : initHeap (cleared s m strays) = (extendHeap (putPrologue
      ((cleared s m strays).grow (4 * 4)) (cleared s m strays).memBrk) (2 ^ 5 / 4)).map
        fun r => (r.1, if r.2 = 0 then -1 else 0) := by
    generalize cleared s m strays = t at hgrant₂
    simp only [initHeap, State.memSbrk_of_granted hgrant₂]
    cases extendHeap (putPrologue (t.grow (4 * 4)) t.memBrk) (2 ^ 5 / 4) with
    | none => rfl
    | some r => rfl
  rw [hinit, hheap₂, putPrologue_eq s m strays (by omega)]

/-- `mm_init` on a fresh arena succeeds and leaves one free block.  One of its
stores goes to the word behind the list heads, which `mem_sbrk` has not handed
out. -/
theorem mmInit_stores (h : Fresh base s) :
    ∃ s', mmInit s = some (s', 0) ∧ Sound base s' [⟨base + 80, 32, false⟩] ∧
      s'.memBrk = base + 112 ∧ s'.strays = (base + 64) :: s.strays := by
  obtain ⟨m, hzero, hinit⟩ := mmInit_writes h
  generalize (base + 64) :: s.strays = strays at hinit ⊢
  have hheap := initState_heap h strays hzero
  have hstart := h.start
  have hbrk := h.brk
  have hmax : maxHeap = 20971520 := rfl
  have hsize : extendSize (2 ^ 5 / 4) = 32 := by decide
  have hu : (initState s m strays).memBrk = base + 80 := by simp [initState, hbrk]
  have hgrant : (initState s m strays).Granted (extendSize (2 ^ 5 / 4)) :=
    Memlib.granted_of_le (by rw [hsize]; decide) (by rw [hsize, hu]; simp [initState]; omega)
  obtain ⟨m', heq, hmerged, -⟩ := extendHeap_spec hheap (by rw [hsize]; decide) (by rw [hsize])
    hgrant
  rw [hsize, hu] at heq hmerged
  refine ⟨((initState s m strays).grow 32).setMem m', ?_, ⟨hmerged.heap, ?_, hstart⟩, ?_, rfl⟩
  · have hp : (mergedBlock [] ⟨base + 80, 32, false⟩ []).ptr ≠ 0 := by
      simp [mergedBlock, freeBefore]
    rw [hinit, heq]
    simp [hp]
  · exact noAdjacentFree_insert (l := []) noAdjacentFree_nil noAdjacentFree_nil
      (.inr ⟨by simp [Layout.EndsAllocated], by simp [Layout.StartsAllocated]⟩)
  · rw [State.setMem_memBrk, State.grow_memBrk, hu]

theorem mmInit_spec (h : Fresh base s) :
    ∃ s', mmInit s = some (s', 0) ∧ Sound base s' [⟨base + 80, 32, false⟩] := by
  obtain ⟨s', heq, hsound, -⟩ := mmInit_stores h
  exact ⟨s', heq, hsound⟩

end CsappLabs.Malloc.Segregated
