import CsappLabs.Malloc.Segregated.Runs

/-!
# Stores outside the heap

The loop of `mm_init` that clears the list heads has one round too many.  Its
last store goes to the word behind the heads, which belongs to the heap only
after the next `mem_sbrk`.  No other store of the allocator leaves the heap.
-/

namespace CsappLabs.Malloc.Segregated

variable {s₀ s₁ : State} {w : World State} {base : Nat}

theorem run_grown (h₀ : Fresh base s₀) (hinit : mmInit s₀ = some (s₁, 0))
    (hrun : Reach allocator (fun _ _ => True) ⟨s₁, []⟩ w) : s₁.Grown w.heap := by
  apply (refines base).reach_preserves (run_consistent h₀ hinit .start)
    (Q := fun w => s₁.Grown w.heap) _ hrun (.refl s₁)
  intro w w' bs c hcons hv _ he hgrown
  exact hgrown.trans (exec_grown hcons hv he)

def StoresInHeap (w : World State) : Prop := w.heap.strays = []

/-- In every run the store of `mm_init` behind the list heads leaves the heap,
and no other store does. -/
theorem one_store_outside (h₀ : Fresh base s₀) (hinit : mmInit s₀ = some (s₁, 0))
    (hrun : Reach allocator (fun _ _ => True) ⟨s₁, []⟩ w) :
    ¬StoresInHeap w ∧ w.heap.strays = (base + 64) :: s₀.strays := by
  obtain ⟨s', heq, -, -, hstrays⟩ := mmInit_stores h₀
  obtain rfl : s₁ = s' := congrArg Prod.fst (Option.some.inj (hinit.symm.trans heq))
  have hall : w.heap.strays = (base + 64) :: s₀.strays :=
    (run_grown h₀ hinit hrun).strays.trans hstrays
  refine ⟨fun hnone => ?_, hall⟩
  rw [StoresInHeap, hall] at hnone
  cases hnone

theorem one_store_outside_arena :
    ∃ w : World State, w.live = [⟨7976, 100⟩, ⟨8096, 200⟩] ∧
      ¬StoresInHeap w ∧ w.heap.strays = [4160] := by
  obtain ⟨s₁, w, hinit, hrun, hlive⟩ := arena_moved_block
  exact ⟨w, hlive, one_store_outside arena_fresh hinit hrun⟩

/-- The heap ends at 4159 when `mm_init` stores at 4160. -/
theorem stores_leave_heap :
    ¬∀ s₁ w, mmInit arena = some (s₁, 0) →
      Reach allocator (fun _ _ => True) ⟨s₁, []⟩ w → StoresInHeap w := by
  intro h
  obtain ⟨s₁, hinit, -⟩ := mmInit_spec arena_fresh
  have hstrays : (mmInit arena).map (fun r => r.1.strays) = some [4160] := by decide +kernel
  rw [hinit, Option.map_some] at hstrays
  have hnone : s₁.strays = [] := h s₁ ⟨s₁, []⟩ hinit .start
  rw [hnone] at hstrays
  cases hstrays

end CsappLabs.Malloc.Segregated
