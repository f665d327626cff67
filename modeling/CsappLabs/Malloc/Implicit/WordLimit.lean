import CsappLabs.Malloc.Capacity
import CsappLabs.Malloc.Implicit.Runs

/-!
# Requests near the word limit of the implicit-list allocator

`mm_realloc` passes its size to `mm_malloc`, so both have the same limit.
-/

namespace CsappLabs.Malloc.Implicit

open CsappLabs.Foundation

variable {s s' : State} {bs : List Block} {d : Block} {n p base : Nat}

namespace Sound

theorem hasCapacity (h : Sound base s bs) (hd : d ∈ bs) (hn : n + 8 ≤ d.size) :
    HasCapacity s.toMemlib d.ptr n :=
  h.heap.layout.hasCapacity (by have := h.heap.base; omega) hd hn

theorem mallocFits (h : Sound base s bs) (hn : n + 15 < 2 ^ 32) :
    MallocFits allocator State.heapListp s n := by
  cases h.malloc_effect hn with
  | inl heq => exact ⟨s, 0, heq, fun hp => absurd rfl hp, h.heap.layout.blocksReach⟩
  | inr hout =>
      obtain ⟨s', bs', d, heq, hsize, heff⟩ := hout
      have hd : d ∈ bs' := (heff.mem d (heff.new_alloc d rfl)).mpr (.inr rfl)
      exact ⟨s', d.ptr, heq, fun _ => heff.inv.hasCapacity hd hsize,
        heff.inv.heap.layout.blocksReach⟩

/-- A request whose adjusted size has wrapped around gets any free block, or
one that the heap grows by. -/
theorem mallocLimit (h : Sound base s bs) (hlt : n < 2 ^ 32) :
    MallocLimit allocator State.heapListp s n := by
  refine h.heap.layout.mallocLimit h.mallocFits fun hn => ?_
  have hsmall := adjustSize_wrapped hn hlt
  have hn0 : n ≠ 0 := by omega
  have hmax := max_chunksize (show adjustSize n ≤ 16 by omega)
  cases findFit_spec (adjustSize n) h.heap h.rover with
  | inl hfound =>
      obtain ⟨b, hb, hfit, heq⟩ := hfound
      refine .inr ⟨.inl ⟨b, hb, hfit.1⟩, fun s' p hout => ?_⟩
      have hcall : mmMalloc s n = some (s', p) := hout
      simp only [mmMalloc, h.heapListp_ne, hn0, if_false, heq, ne_eq, h.ptr_ne hb,
        not_false_eq_true, if_true] at hcall
      obtain ⟨-, rfl⟩ := Prod.mk.inj (Option.some.inj hcall)
      exact h.ptr_ne hb
  | inr hnone =>
      obtain ⟨hnofit, heq⟩ := hnone
      cases h.extend_effect (Nat.le_refl 16) (by decide) (by decide) with
      | inl hrefused =>
          refine .inl ⟨⟨fun b hb => ?_, hrefused.1⟩, ?_⟩
          · have h16 := h.heap.layout.tiles.size_ge hb
            by_contra hfree
            exact hnofit b hb ⟨by simpa using hfree, by omega⟩
          · show mmMalloc s n = some (s, 0)
            simp [mmMalloc, h.heapListp_ne, hn0, heq, hmax, hrefused.2]
      | inr hgrown =>
          obtain ⟨hgrant, s₁, bs₁, b, hext, hb, -, heff⟩ := hgrown
          have hb0 := heff.inv.ptr_ne hb
          refine .inr ⟨.inr hgrant, fun s' p hout => ?_⟩
          have hcall : mmMalloc s n = some (s', p) := hout
          simp only [mmMalloc, h.heapListp_ne, hn0, if_false, heq, ne_eq, not_true, hmax, hext,
            hb0] at hcall
          obtain ⟨-, rfl⟩ := Prod.mk.inj (Option.some.inj hcall)
          exact hb0

theorem reallocFits_iff (h : Sound base s bs) (hd : d ∈ bs) (ha : d.alloc = true) (hn0 : n ≠ 0)
    (hlt : n < 2 ^ 32) :
    ReallocFits allocator s d.ptr n ↔ n + 15 < 2 ^ 32 ∨ Starved s.toMemlib s.heapListp := by
  have hlimit := h.mallocLimit hlt
  have hd0 := h.ptr_ne hd
  constructor
  · rintro ⟨s', q, heq, hcap⟩
    by_cases hn : n + 15 < 2 ^ 32
    · exact .inl hn
    · right
      by_contra hstarved
      have hrealloc : mmRealloc s d.ptr n = some (s', q) := heq
      unfold mmRealloc at hrealloc
      simp only [hd0, hn0, if_false] at hrealloc
      cases hm : mmMalloc s n with
      | none =>
          rw [hm] at hrealloc
          cases hrealloc
      | some r =>
          have hr0 := hlimit.block (Nat.le_of_not_lt hn) hstarved r.1 r.2 hm
          rw [hm] at hrealloc
          simp only [hr0, if_false] at hrealloc
          obtain ⟨-, rfl⟩ := Prod.mk.inj (Option.some.inj hrealloc)
          exact hn (hcap hr0).word
  · intro hcond
    by_cases hn : n + 15 < 2 ^ 32
    · cases h.realloc_effect hd ha hn hn0 with
      | inl heq => exact ⟨s, 0, heq, fun hq => absurd rfl hq⟩
      | inr hout =>
          obtain ⟨s', bs', e, heq, hsize, heff, -⟩ := hout
          have he : e ∈ bs' := (heff.mem e (heff.new_alloc e rfl)).mpr (.inr rfl)
          exact ⟨s', e.ptr, heq, fun _ => heff.inv.hasCapacity he hsize⟩
    · have hnull : mmMalloc s n = some (s, 0) :=
        hlimit.null (Nat.le_of_not_lt hn) (hcond.resolve_left hn)
      refine ⟨s, 0, ?_, fun hq => absurd rfl hq⟩
      show mmRealloc s d.ptr n = some (s, 0)
      simp [mmRealloc, hd0, hn0, hnull]

end Sound

end CsappLabs.Malloc.Implicit
