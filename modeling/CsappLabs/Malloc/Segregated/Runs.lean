import CsappLabs.Malloc.Segregated.Init

/-!
# Runs of a client of the segregated allocator

A run starts with `mm_init` on a fresh arena and goes on with any valid calls
and stores of the client.
-/

namespace CsappLabs.Malloc.Segregated

open CsappLabs.Foundation

variable {s₀ s₁ : State} {w : World State} {base : Nat}

theorem run_consistent (h₀ : Fresh base s₀) (hinit : mmInit s₀ = some (s₁, 0))
    (hrun : Reach allocator (fun _ _ => True) ⟨s₁, []⟩ w) :
    ∃ bs, Consistent (Sound base) w bs := by
  obtain ⟨s', heq, hsound⟩ := mmInit_spec h₀
  obtain ⟨rfl, -⟩ : s₁ = s' ∧ True := by simpa [hinit] using heq
  exact (refines base).reach ⟨_, Consistent.empty hsound (by simp)⟩ hrun

structure WellFormed (s : State) (bs : List Block) : Prop where
  walk : walkBlocks s.mem walkFuel s.heapListp =
    some (⟨s.heapListp, 8, true⟩ :: bs, s.memBrk)
  tiles : Tiles (s.heapListp + 8) bs s.memBrk
  epilogue : load s.mem (hdrp s.memBrk) = pack 0 1
  blocks : ∀ b ∈ bs, b.size % 8 = 0 ∧ 16 ≤ b.size ∧
    load s.mem (hdrp b.ptr) = load s.mem (ftrp s.mem b.ptr)
  apart : NoAdjacentFree bs
  lists : ∀ i < 16, ∃ xs last,
    Linked (getSuccessor s.mem) (getPredecessor s.mem) 0 (s.selectSegEntry i) xs last 0 ∧
      xs.Nodup ∧
      ∀ p, p ∈ xs ↔
        ∃ b ∈ bs, b.alloc = false ∧ b.ptr = p ∧ min 15 (Nat.log2 b.size) = i

theorem Sound.wellFormed {s : State} {bs : List Block} (h : Sound base s bs) :
    WellFormed s bs where
  walk := h.heap.layout.walkBlocks_eq
  tiles := h.heap.layout.tiles
  epilogue := h.heap.layout.epilogue
  blocks b hb := by
    refine ⟨h.heap.layout.tiles.size_mod hb, h.heap.layout.tiles.size_ge hb, ?_⟩
    have htag := h.heap.layout.tagged b hb
    rw [h.heap.layout.ftrp_eq hb]
    exact htag.1.trans htag.2.symm
  apart := h.apart
  lists i hi := by
    obtain ⟨xs, last, hlink, hnd, hmem⟩ := h.heap.lists i hi
    refine ⟨xs, last, hlink, hnd, fun p => (hmem p).trans ?_⟩
    constructor
    · rintro ⟨b, ⟨hb, hfree⟩, hp, hidx⟩
      exact ⟨b, hb, hfree, hp, hidx⟩
    · rintro ⟨b, hb, hfree, hp, hidx⟩
      exact ⟨b, ⟨hb, hfree⟩, hp, hidx⟩

/-- Every reachable heap is well formed. -/
theorem heap_wellFormed (h₀ : Fresh base s₀) (hinit : mmInit s₀ = some (s₁, 0))
    (hrun : Reach allocator (fun _ _ => True) ⟨s₁, []⟩ w) : ∃ bs, WellFormed w.heap bs := by
  obtain ⟨bs, hcons⟩ := run_consistent h₀ hinit hrun
  exact ⟨bs, hcons.inv.wellFormed⟩

/-- What is observed at the end of a list of calls that `arena` and the client
get through. -/
theorem arena_reach {β : Type} (ok : State → Call → Prop) [∀ s c, Decidable (ok s c)]
    (f : World State → β) (cs : List Call) (v : β)
    (h : ((mmInit arena).bind fun r => (World.mk r.1 []).play allocator ok cs).map f = some v) :
    ∃ s₁ w, mmInit arena = some (s₁, 0) ∧ Reach allocator ok ⟨s₁, []⟩ w ∧ f w = v := by
  obtain ⟨s₁, heq, -⟩ := mmInit_spec arena_fresh
  rw [heq, Option.bind_some] at h
  obtain ⟨w, hplay, hv⟩ := Option.map_eq_some_iff.mp h
  exact ⟨s₁, w, heq, Reach.start.of_play hplay, hv⟩

theorem arena_run (cs : List Call) (live : List Payload)
    (h : ((mmInit arena).bind fun r => (World.mk r.1 []).play allocator (fun _ _ => True) cs).map World.live =
      some live) :
    ∃ s₁ w, mmInit arena = some (s₁, 0) ∧
      Reach allocator (fun _ _ => True) ⟨s₁, []⟩ w ∧ w.live = live :=
  arena_reach (fun _ _ => True) World.live cs live h

theorem arena_two_blocks :
    ∃ s₁ w, mmInit arena = some (s₁, 0) ∧ Reach allocator (fun _ _ => True) ⟨s₁, []⟩ w ∧
      w.live = [⟨4208, 30⟩, ⟨4176, 8⟩] :=
  arena_run [.malloc 8, .malloc 30] _ (by decide +kernel)

theorem arena_moved_block :
    ∃ s₁ w, mmInit arena = some (s₁, 0) ∧ Reach allocator (fun _ _ => True) ⟨s₁, []⟩ w ∧
      w.live = [⟨7976, 100⟩, ⟨8096, 200⟩] :=
  arena_run [.malloc 8, .malloc 30, .malloc 200, .write 8096 3 7, .realloc 4176 100, .free 4208]
    _ (by decide +kernel)

theorem heap_wellFormed_arena :
    ∃ (s₁ : State) (w : World State), mmInit arena = some (s₁, 0) ∧
      w.live = [⟨7976, 100⟩, ⟨8096, 200⟩] ∧
      ∃ bs, WellFormed w.heap bs := by
  obtain ⟨s₁, w, hinit, hrun, hlive⟩ := arena_moved_block
  exact ⟨s₁, w, hinit, hlive, heap_wellFormed arena_fresh hinit hrun⟩

/-- A returned pointer is aligned, in the heap, and its payload is apart from
every other live one. -/
theorem returned_payload (h₀ : Fresh base s₀) (hbase : base % 8 = 0)
    (hinit : mmInit s₀ = some (s₁, 0))
    (hrun : Reach allocator (fun _ _ => True) ⟨s₁, []⟩ w) :
    (∀ n, w.Valid (.malloc n) → ∃ s' p, mmMalloc w.heap n = some (s', p) ∧
      (p ≠ 0 → Handed s'.toMemlib p n w.live)) ∧
    ∀ q n, w.Valid (.realloc q n) → ∃ s' p, mmRealloc w.heap q n = some (s', p) ∧
      (p ≠ 0 → Handed s'.toMemlib p n (w.others q)) := by
  obtain ⟨bs, hcons⟩ := run_consistent h₀ hinit hrun
  exact ⟨fun n hv => (refines base).malloc_handed hbase hcons hv trivial,
    fun q n hv => (refines base).realloc_handed hbase hcons hv trivial⟩

theorem returned_payload_arena :
    ∃ (s₁ : State) (w : World State) (s' : State) (p : Nat), mmInit arena = some (s₁, 0) ∧
      w.live = [⟨4208, 30⟩, ⟨4176, 8⟩] ∧
      mmRealloc w.heap 4176 100 = some (s', p) ∧
      (p ≠ 0 → Handed s'.toMemlib p 100 (w.others 4176)) := by
  obtain ⟨s₁, w, hinit, hrun, hlive⟩ := arena_two_blocks
  have hv : w.Valid (.realloc 4176 100) :=
    ⟨by decide, ⟨4176, 8⟩, by rw [hlive]; decide, rfl⟩
  obtain ⟨s', p, heq, hp⟩ :=
    (returned_payload arena_fresh (by decide) hinit hrun).2 4176 100 hv
  exact ⟨s₁, w, s', p, hinit, hlive, heq, hp⟩

/-- A call returns, keeps the live payloads it is not passed, and `mm_realloc`
keeps the bytes of the one it is passed. -/
theorem calls_keep_payloads (h₀ : Fresh base s₀) (hinit : mmInit s₀ = some (s₁, 0))
    (hrun : Reach allocator (fun _ _ => True) ⟨s₁, []⟩ w) :
    (∀ c, w.Valid c → ∃ w', w.exec allocator c = some w' ∧
      ∀ r ∈ w.live, c.target ≠ some r.ptr → ∀ k < r.size,
        w'.heap.mem (r.ptr + k) = w.heap.mem (r.ptr + k)) ∧
    ∀ r ∈ w.live, ∀ n < 2 ^ 31, ∀ s' q, mmRealloc w.heap r.ptr n = some (s', q) → q ≠ 0 →
      ∀ k < min n r.size, s'.mem (q + k) = w.heap.mem (r.ptr + k) := by
  obtain ⟨bs, hcons⟩ := run_consistent h₀ hinit hrun
  refine ⟨fun c hv => ?_, fun r hr n hn s' q heq hq k hk => ?_⟩
  · obtain ⟨w', bs', heq, -, hkeep⟩ := (refines base).step hcons hv trivial
    exact ⟨w', heq, hkeep⟩
  · exact (refines base).realloc_bytes hcons hr hn trivial heq hq (by omega) (by omega)

theorem calls_keep_payloads_arena :
    ∃ (s₁ : State) (w w' : World State), mmInit arena = some (s₁, 0) ∧
      w.live = [⟨4208, 30⟩, ⟨4176, 8⟩] ∧
      w.exec allocator (.realloc 4176 100) = some w' ∧
      ∀ k < 30, w'.heap.mem (4208 + k) = w.heap.mem (4208 + k) := by
  obtain ⟨s₁, w, hinit, hrun, hlive⟩ := arena_two_blocks
  have hv : w.Valid (.realloc 4176 100) :=
    ⟨by decide, ⟨4176, 8⟩, by rw [hlive]; decide, rfl⟩
  obtain ⟨w', heq, hkeep⟩ :=
    (calls_keep_payloads arena_fresh hinit hrun).1 (.realloc 4176 100) hv
  exact ⟨s₁, w, w', hinit, hlive, heq,
    hkeep ⟨4208, 30⟩ (by rw [hlive]; decide) (by decide)⟩

end CsappLabs.Malloc.Segregated
