import CsappLabs.Malloc.Implicit.Runs

/-!
# Next fit and first fit

The `#else` branch of `find_fit` walks from the prologue to the epilogue.  The
two loops of next fit pass the same blocks, the ones behind the cursor first,
so that both searches find a block or neither does.
-/

namespace CsappLabs.Malloc.Implicit

variable {s s₀ s₁ : State} {w : World State} {bs : List Block} {asize base : Nat}

/-- `find_fit` without `NEXT_FIT`; the result `0` is `NULL`. -/
def findFirstFit (s : State) (asize : Nat) : Option Nat :=
  match searchFrom s.mem (fun bp => getSize s.mem (hdrp bp) > 0) asize walkFuel s.heapListp with
  | none => none
  | some (bp, true) => some bp
  | some (_, false) => some 0

theorem findFirstFit_spec (asize : Nat) (h : Heap s bs) :
    (∃ b ∈ bs, Fits asize b ∧ findFirstFit s asize = some b.ptr) ∨
      (∀ b ∈ bs, ¬Fits asize b) ∧ findFirstFit s asize = some 0 := by
  -- the first loop of next fit, with the cursor at the prologue
  obtain ⟨l, r, rfl, hl, hsearch⟩ :=
    searchToEnd asize (h.setRover s.heapListp) (.inl rfl)
  have hempty : l = [] := by
    cases hl with
    | inl hstart => exact hstart.2
    | inr htiles =>
        have hle : s.heapListp + 8 ≤ s.heapListp := htiles.le
        omega
  subst hempty
  cases hsearch with
  | inl hfound =>
      obtain ⟨b, hb, hfit, heq⟩ := hfound
      have heq' : searchFrom s.mem (fun bp => getSize s.mem (hdrp bp) > 0) asize walkFuel
          s.heapListp = some (b.ptr, true) := heq
      exact .inl ⟨b, hb, hfit, by simp only [findFirstFit, heq']⟩
  | inr hnone =>
      have heq' : searchFrom s.mem (fun bp => getSize s.mem (hdrp bp) > 0) asize walkFuel
          s.heapListp = some (s.memBrk, false) := hnone.2
      exact .inr ⟨hnone.1, by simp only [findFirstFit, heq']⟩

/-- Next fit ends; it fails exactly if first fit does, and otherwise finds a
free block that is large enough. -/
theorem next_fit_agrees (h₀ : Fresh base s₀) (hinit : mmInit s₀ = (s₁, 0))
    (hrun : Reach allocator (fun _ _ => True) ⟨s₁, []⟩ w) (asize : Nat) :
    ∃ bs t p q, WellFormed w.heap bs ∧ findFit w.heap asize = some (t, p) ∧
      findFirstFit w.heap asize = some q ∧ (p = 0 ↔ q = 0) ∧
      (p ≠ 0 → ∃ b ∈ bs, b.ptr = p ∧ b.alloc = false ∧ asize ≤ b.size) := by
  obtain ⟨bs, hcons⟩ := run_consistent h₀ hinit hrun
  have hsound := hcons.inv
  have hnext := findFit_spec asize hsound.heap hsound.rover
  have hfirst := findFirstFit_spec asize hsound.heap
  cases hnext with
  | inl hfound =>
      obtain ⟨b, hb, hfit, heq⟩ := hfound
      cases hfirst with
      | inl hfound' =>
          obtain ⟨c, hc, -, heq'⟩ := hfound'
          refine ⟨bs, _, _, _, hsound.wellFormed, heq, heq', ?_, fun _ => ⟨b, hb, rfl, hfit⟩⟩
          exact iff_of_false (hsound.ptr_ne hb) (hsound.ptr_ne hc)
      | inr hnone => exact absurd hfit (hnone.1 b hb)
  | inr hnone =>
      cases hfirst with
      | inl hfound' =>
          obtain ⟨c, hc, hfit, -⟩ := hfound'
          exact absurd hfit (hnone.1 c hc)
      | inr hnone' =>
          exact ⟨bs, _, _, _, hsound.wellFormed, hnone.2, hnone'.2, Iff.rfl,
            fun hp => absurd rfl hp⟩

theorem next_fit_agrees_arena :
    ∃ w : World State, w.live = [⟨4168, 30⟩, ⟨4128, 30⟩] ∧
      ∃ bs t p q, WellFormed w.heap bs ∧ findFit w.heap 16 = some (t, p) ∧
        findFirstFit w.heap 16 = some q ∧ (p = 0 ↔ q = 0) ∧
        (p ≠ 0 → ∃ b ∈ bs, b.ptr = p ∧ b.alloc = false ∧ 16 ≤ b.size) := by
  obtain ⟨s₁, hinit, -⟩ := mmInit_spec arena_fresh
  have hplay : ((World.mk (mmInit arena).1 []).play allocator (fun _ _ => True)
      [.malloc 8, .malloc 30, .malloc 30, .free 4112]).map World.live =
      some [⟨4168, 30⟩, ⟨4128, 30⟩] := by decide +kernel
  rw [hinit] at hplay
  obtain ⟨w, hw, hlive⟩ := Option.map_eq_some_iff.mp hplay
  exact ⟨w, hlive, next_fit_agrees arena_fresh hinit (Reach.start.of_play hw) 16⟩

end CsappLabs.Malloc.Implicit
