import CsappLabs.Malloc.Explicit.Init

/-!
# Runs of a client of the explicit-list allocator

In a run without a call that `Forgets` a block, the list holds the free blocks
and no call touches a payload it is not passed.  Both fail in runs with such a
call: the lost block keeps its links, and a later `free` next to it writes
through them.
-/

namespace CsappLabs.Malloc.Explicit

open CsappLabs.Foundation

variable {s s₀ s₁ : State} {w : World State} {base : Nat} {ok : State → Call → Prop}

theorem walkList_eq {prev f last : Nat} {xs : List Nat}
    (h : Linked (getSuccessor s.mem) (getPredecessor s.mem) prev f xs last s.tail)
    (htail : s.tail ∉ xs) (fuel : Nat) (hfuel : xs.length < fuel) :
    walkList s fuel f = some xs := by
  induction xs generalizing prev f fuel with
  | nil =>
      obtain ⟨fuel, rfl⟩ := Nat.exists_eq_add_of_lt hfuel
      simp [walkList, h.1]
  | cons x xs ih =>
      obtain ⟨rfl, -, hrest⟩ := h
      simp only [List.mem_cons, not_or] at htail
      cases fuel with
      | zero => simp at hfuel
      | succ fuel =>
          rw [walkList, if_neg (Ne.symm htail.1), ih hrest htail.2 fuel (by simpa using hfuel)]
          rfl

/-- The walk from `heap_freep` reaches `tail`, the link words agree, and the
nodes are the blocks whose header is marked free, each once. -/
def ListComplete (s : State) : Prop :=
  ∃ bs xs, walkBlocks s.mem walkFuel s.heapListp =
      some (⟨s.heapListp, 8, true⟩ :: bs, s.memBrk) ∧
    walkList s walkFuel (getSuccessor s.mem s.heapFreep) = some xs ∧
    Linked (getSuccessor s.mem) (getPredecessor s.mem) s.heapFreep
      (getSuccessor s.mem s.heapFreep) xs (getPredecessor s.mem s.tail) s.tail ∧
    xs.Nodup ∧ ∀ p, p ∈ xs ↔ ∃ b ∈ bs, b.alloc = false ∧ b.ptr = p

theorem Sound.listComplete {bs : List Block} (h : Sound base s bs) : ListComplete s := by
  obtain ⟨xs, hlink, hnd, hmem⟩ := h.heap.list
  have htail : s.tail ∉ xs := fun hx => h.heap.nodes.tail_not_node ((hmem _).mp hx)
  refine ⟨bs, xs, h.heap.layout.walkBlocks_eq,
    walkList_eq hlink htail walkFuel (h.heap.list_length hnd hmem), hlink, hnd,
    fun p => (hmem p).trans ?_⟩
  constructor
  · rintro ⟨b, ⟨hb, hfree⟩, hp⟩
    exact ⟨b, hb, hfree, hp⟩
  · rintro ⟨b, hb, hfree, hp⟩
    exact ⟨b, ⟨hb, hfree⟩, hp⟩

theorem run_consistent (h₀ : Fresh base s₀) (hinit : mmInit s₀ = (s₁, 0))
    (hrun : Reach allocator Keeps ⟨s₁, []⟩ w) : ∃ bs, Consistent (Sound base) w bs := by
  obtain ⟨s', heq, hsound⟩ := mmInit_spec h₀
  obtain ⟨rfl, -⟩ : s₁ = s' ∧ True := by simpa [hinit] using heq
  exact (refines base).reach ⟨_, Consistent.empty hsound (by simp)⟩ hrun

theorem arena_run {β : Type} (ok : State → Call → Prop) [∀ s c, Decidable (ok s c)] (f : World State → β)
    (cs : List Call) (v : β)
    (h : ((World.mk (mmInit arena).1 []).play allocator ok cs).map f = some v) :
    ∃ w, Reach allocator ok ⟨(mmInit arena).1, []⟩ w ∧ f w = v := by
  obtain ⟨w, hplay, hv⟩ := Option.map_eq_some_iff.mp h
  exact ⟨w, Reach.start.of_play hplay, hv⟩

theorem arena_init : mmInit arena = ((mmInit arena).1, 0) := by
  obtain ⟨s', heq, -⟩ := mmInit_spec arena_fresh
  rw [heq]

theorem arena_moved_block :
    ∃ w, Reach allocator Keeps ⟨(mmInit arena).1, []⟩ w ∧
      w.live = [⟨4144, 4072⟩, ⟨4128, 8⟩] :=
  arena_run Keeps World.live [.malloc 8, .malloc 8, .realloc 4112 4072] _ (by decide +kernel)

/-! ## The free list -/

/-- As long as no call forgets a block, the list holds the free blocks. -/
theorem list_complete (h₀ : Fresh base s₀) (hinit : mmInit s₀ = (s₁, 0))
    (hrun : Reach allocator Keeps ⟨s₁, []⟩ w) : ListComplete w.heap := by
  obtain ⟨bs, hcons⟩ := run_consistent h₀ hinit hrun
  exact hcons.inv.listComplete

theorem list_complete_arena :
    ∃ w : World State, w.live = [⟨4144, 4072⟩, ⟨4128, 8⟩] ∧ ListComplete w.heap := by
  obtain ⟨w, hrun, hlive⟩ := arena_moved_block
  exact ⟨w, hlive, list_complete arena_fresh arena_init hrun⟩

/-- The moving `mm_realloc` leaves the free block at 4248 outside the list. -/
theorem list_incomplete :
    ¬∀ w, Reach allocator (fun _ _ => True) ⟨(mmInit arena).1, []⟩ w →
      ListComplete w.heap := by
  intro h
  obtain ⟨w, hrun, hw⟩ := arena_run (fun _ _ => True)
    (fun w => (walkBlocks w.heap.mem walkFuel w.heap.heapListp, w.heap.heapListp,
      w.heap.memBrk, walkList w.heap walkFuel (getSuccessor w.heap.mem w.heap.heapFreep)))
    [.malloc 8, .realloc 4112 100]
    (some ([⟨4104, 8, true⟩, ⟨4112, 16, false⟩, ⟨4128, 120, true⟩, ⟨4248, 3992, false⟩], 8240),
      4104, 8240, some [4112]) (by decide +kernel)
  obtain ⟨bs, xs, hblocks, hlist, -, -, hmem⟩ := h w hrun
  simp only [Prod.mk.injEq] at hw
  obtain ⟨hw₁, hw₂, hw₃, hw₄⟩ := hw
  rw [hw₁, hw₂, hw₃] at hblocks
  rw [hw₄] at hlist
  simp only [Option.some.injEq, Prod.mk.injEq, List.cons.injEq, true_and, and_true] at hblocks hlist
  have h4248 : 4248 ∈ xs := (hmem 4248).mpr ⟨⟨4248, 3992, false⟩, by simp [← hblocks], rfl, rfl⟩
  rw [← hlist] at h4248
  simp at h4248

/-! ## The payloads -/

def PayloadsKept (w : World State) (ok : State → Call → Prop) : Prop :=
  (∀ c, w.Valid c → ok w.heap c → ∃ w', w.exec allocator c = some w' ∧
    ∀ r ∈ w.live, c.target ≠ some r.ptr → ∀ k < r.size,
      w'.heap.mem (r.ptr + k) = w.heap.mem (r.ptr + k)) ∧
  (w.live.map Payload.ptr).Nodup ∧
  ∀ r ∈ w.live, ∀ r' ∈ w.live, r.ptr ≠ r'.ptr →
    r.ptr + r.size ≤ r'.ptr ∨ r'.ptr + r'.size ≤ r.ptr

/-- As long as no call forgets a block, the calls keep the live payloads. -/
theorem payloads_kept (h₀ : Fresh base s₀) (hinit : mmInit s₀ = (s₁, 0))
    (hrun : Reach allocator Keeps ⟨s₁, []⟩ w) : PayloadsKept w Keeps := by
  obtain ⟨bs, hcons⟩ := run_consistent h₀ hinit hrun
  refine ⟨fun c hv hok => ?_, hcons.distinct, fun r hr r' hr' hne => ?_⟩
  · obtain ⟨w', bs', heq, -, hkeep⟩ := (refines base).step hcons hv hok
    exact ⟨w', heq, hkeep⟩
  · exact hcons.apart (refines base) hr hr' hne

theorem payloads_kept_arena :
    ∃ w : World State, w.live = [⟨4144, 4072⟩, ⟨4128, 8⟩] ∧ PayloadsKept w Keeps := by
  obtain ⟨w, hrun, hlive⟩ := arena_moved_block
  exact ⟨w, hlive, payloads_kept arena_fresh arena_init hrun⟩

/-- Freeing the block at 4144 merges it with the lost block behind it, whose
stale links lead into the payload at 4112. -/
theorem payload_overwritten :
    ¬∀ w, Reach allocator (fun _ _ => True) ⟨(mmInit arena).1, []⟩ w →
      PayloadsKept w fun _ _ => True := by
  intro h
  obtain ⟨w, hrun, hw⟩ := arena_run (fun _ _ => True)
    (fun w => (w.live, w.heap.mem 4112,
      (w.exec allocator (.free 4144)).map fun w' => w'.heap.mem 4112))
    [.malloc 8, .malloc 8, .free 4112, .realloc 4128 100, .malloc 20, .write 4112 0 7]
    ([⟨4112, 20⟩, ⟨4144, 100⟩], 7, some 48) (by decide +kernel)
  simp only [Prod.mk.injEq] at hw
  obtain ⟨hlive, hbefore, hafter⟩ := hw
  have hv : w.Valid (.free 4144) := ⟨⟨4144, 100⟩, by rw [hlive]; decide, rfl⟩
  obtain ⟨w', heq, hkeep⟩ := (h w hrun).1 (.free 4144) hv trivial
  have hsame := hkeep ⟨4112, 20⟩ (by rw [hlive]; decide) (by decide) 0 (by decide)
  rw [heq] at hafter
  simp only [Option.map_some, Option.some.injEq] at hafter
  rw [show 4112 + 0 = 4112 from rfl, hafter, hbefore] at hsame
  exact absurd hsame (by decide)

end CsappLabs.Malloc.Explicit
