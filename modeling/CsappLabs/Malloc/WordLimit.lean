import CsappLabs.Malloc.Explicit.WordLimit
import CsappLabs.Malloc.Implicit.WordLimit
import CsappLabs.Malloc.Segregated.WordLimit

/-!
# Requests near the word limit

The three allocators serve a request whose adjusted size has wrapped around
with a block that is too small.
-/

namespace CsappLabs.Malloc

variable {n : Nat}

/-- After any run, the sizes for which a call returns `NULL` or a block that is
large enough. -/
theorem requests_near_limit (hn : 1 ≤ n) (hlt : n < 2 ^ 32) :
    (∀ base s₀ s₁ w, Implicit.Fresh base s₀ → Implicit.mmInit s₀ = (s₁, 0) →
      Reach Implicit.allocator (fun _ _ => True) ⟨s₁, []⟩ w →
      (MallocFits Implicit.allocator Implicit.State.heapListp w.heap n ↔
        n + 15 < 2 ^ 32 ∨ Starved w.heap.toMemlib w.heap.heapListp) ∧
      ∀ r ∈ w.live, (ReallocFits Implicit.allocator w.heap r.ptr n ↔
        n + 15 < 2 ^ 32 ∨ Starved w.heap.toMemlib w.heap.heapListp)) ∧
    (∀ base s₀ s₁ w, Explicit.Fresh base s₀ → Explicit.mmInit s₀ = (s₁, 0) →
      Reach Explicit.allocator Explicit.Keeps ⟨s₁, []⟩ w →
      (MallocFits Explicit.allocator Explicit.State.heapListp w.heap n ↔
        n + 15 < 2 ^ 32 ∨ Starved w.heap.toMemlib w.heap.heapListp) ∧
      ∀ r ∈ w.live, (ReallocFits Explicit.allocator w.heap r.ptr n ↔
        n + 23 < 2 ^ 32 ∨
          n + 15 < 2 ^ 32 ∧ Starved w.heap.toMemlib w.heap.heapListp)) ∧
    ∀ base s₀ s₁ w, Segregated.Fresh base s₀ → Segregated.mmInit s₀ = some (s₁, 0) →
      Reach Segregated.allocator (fun _ _ => True) ⟨s₁, []⟩ w →
      (MallocFits Segregated.allocator Segregated.State.heapListp w.heap n ↔
        n + 15 < 2 ^ 32 ∨ Starved w.heap.toMemlib w.heap.heapListp) ∧
      ∀ r ∈ w.live, (ReallocFits Segregated.allocator w.heap r.ptr n ↔
        n + 23 < 2 ^ 32 ∨
          n + 15 < 2 ^ 32 ∧ Starved w.heap.toMemlib w.heap.heapListp) := by
  have hn0 : n ≠ 0 := Nat.ne_of_gt hn
  refine ⟨?_, ?_, ?_⟩
  · intro base s₀ s₁ w h₀ hinit hrun
    obtain ⟨bs, hcons⟩ := Implicit.run_consistent h₀ hinit hrun
    refine ⟨(hcons.inv.mallocLimit hlt).fits_iff, fun r hr => ?_⟩
    obtain ⟨d, hd, ha, hp, -⟩ := hcons.held r hr
    rw [← hp]
    exact hcons.inv.reallocFits_iff hd ha hn0 hlt
  · intro base s₀ s₁ w h₀ hinit hrun
    obtain ⟨bs, hcons⟩ := Explicit.run_consistent h₀ hinit hrun
    refine ⟨(hcons.inv.mallocLimit hlt).fits_iff, fun r hr => ?_⟩
    obtain ⟨d, hd, ha, hp, -⟩ := hcons.held r hr
    rw [← hp]
    exact (hcons.inv.reallocLimit hd ha hn0 hlt).fits_iff
  · intro base s₀ s₁ w h₀ hinit hrun
    obtain ⟨bs, hcons⟩ := Segregated.run_consistent h₀ hinit hrun
    refine ⟨(hcons.inv.mallocLimit hlt).fits_iff, fun r hr => ?_⟩
    obtain ⟨d, hd, ha, hp, -⟩ := hcons.held r hr
    rw [← hp]
    exact (hcons.inv.reallocLimit hd ha hn0 hlt).fits_iff

theorem requests_near_limit_arena :
    (∃ w : World Implicit.State,
      MallocFits Implicit.allocator Implicit.State.heapListp w.heap (2 ^ 32 - 20) ↔
        2 ^ 32 - 20 + 15 < 2 ^ 32 ∨ Starved w.heap.toMemlib w.heap.heapListp) ∧
    (∃ w : World Explicit.State,
      MallocFits Explicit.allocator Explicit.State.heapListp w.heap (2 ^ 32 - 20) ↔
        2 ^ 32 - 20 + 15 < 2 ^ 32 ∨ Starved w.heap.toMemlib w.heap.heapListp) ∧
    ∃ w : World Segregated.State, w.live = [⟨4208, 30⟩, ⟨4176, 8⟩] ∧
      (ReallocFits Segregated.allocator w.heap 4176 (2 ^ 32 - 20) ↔
        2 ^ 32 - 20 + 23 < 2 ^ 32 ∨
          2 ^ 32 - 20 + 15 < 2 ^ 32 ∧ Starved w.heap.toMemlib w.heap.heapListp) := by
  obtain ⟨himplicit, hexplicit, hsegregated⟩ :=
    requests_near_limit (n := 2 ^ 32 - 20) (by decide) (by decide)
  obtain ⟨s₁, hinit₁, -⟩ := Implicit.mmInit_spec Implicit.arena_fresh
  obtain ⟨s₂, hinit₂, -⟩ := Explicit.mmInit_spec Explicit.arena_fresh
  obtain ⟨s₃, w, hinit₃, hrun, hlive⟩ := Segregated.arena_two_blocks
  refine ⟨⟨_, (himplicit _ _ _ _ Implicit.arena_fresh hinit₁ .start).1⟩,
    ⟨_, (hexplicit _ _ _ _ Explicit.arena_fresh hinit₂ .start).1⟩, w, hlive, ?_⟩
  exact (hsegregated _ _ _ _ Segregated.arena_fresh hinit₃ hrun).2 ⟨4176, 8⟩
    (by rw [hlive]; decide)

/-- After `mm_init` the segregated allocator serves a request for `2 ^ 32 - 15`
bytes with a part of its first free block. -/
theorem wrapped_request_served :
    ¬∀ base s₀ s₁ w n, Segregated.Fresh base s₀ → Segregated.mmInit s₀ = some (s₁, 0) →
      Reach Segregated.allocator (fun _ _ => True) ⟨s₁, []⟩ w → 1 ≤ n → n < 2 ^ 32 →
      MallocFits Segregated.allocator Segregated.State.heapListp w.heap n := by
  intro hall
  obtain ⟨s₁, hinit, hsound⟩ := Segregated.mmInit_spec Segregated.arena_fresh
  have hfits := hall 4096 Segregated.arena s₁ ⟨s₁, []⟩ (2 ^ 32 - 15) Segregated.arena_fresh hinit
    .start (by decide) (by decide)
  cases (hsound.mallocLimit (by decide)).fits_iff.mp hfits with
  | inl hsmall => exact absurd hsmall (by decide)
  | inr hstarved =>
      have hfull := (hsound.heap.layout.starved_iff.mp hstarved).1
      exact absurd (hfull ⟨4096 + 80, 32, false⟩ (by simp)) (by decide)

end CsappLabs.Malloc
