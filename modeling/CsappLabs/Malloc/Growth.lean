import CsappLabs.Malloc.Segregated.WordLimit
import CsappLabs.Malloc.Implicit.WordLimit

/-!
# How far the heap grows

The break moves only when a request finds no block that fits, by the adjusted
size or by `CHUNKSIZE`.  `reserve` covers what one request takes, also when
`mm_realloc` adjusts the size a second time on its way to `mm_malloc`.
-/

namespace CsappLabs.Malloc

open CsappLabs.Foundation

def reserve (n : Nat) : Nat := max (adjustSize (adjustSize n)) chunksize

theorem adjustSize_le_twice {n : Nat} (hn : n + 23 < 2 ^ 32) :
    adjustSize n ≤ adjustSize (adjustSize n) := by
  obtain ⟨-, -, h, -⟩ := adjustSize_bounds (adjustSize_add_lt hn)
  omega

/-- The break after a request that takes at most `k` bytes from `mem_sbrk` and
returns `p`. -/
structure Takes (m m' : Memlib) (k p : Nat) : Prop where
  le : m.memBrk ≤ m'.memBrk
  bound : m'.memBrk ≤ m.memBrk + k
  refused : p = 0 → m.memMaxAddr < m.memBrk + k

namespace Takes

variable {m m' m'' : Memlib} {k k' p : Nat}

theorem mono (h : Takes m m' k p) (hk : k ≤ k') : Takes m m' k' p where
  le := h.le
  bound := h.bound.trans (Nat.add_le_add_left hk _)
  refused hp := (h.refused hp).trans_le (Nat.add_le_add_left hk _)

theorem none (hm : m.memStartBrk ≤ m.memBrk) (h : ¬m.Granted k) : Takes m m k 0 where
  le := Nat.le_refl _
  bound := Nat.le_add_right _ _
  refused _ := by
    have hheap : maxHeap = 20971520 := rfl
    by_contra hle
    have hmax : m.memMaxAddr = maxHeap + m.memStartBrk := rfl
    exact h ⟨by omega, Nat.not_lt.mp hle⟩

theorem of_ne (hp : p ≠ 0) (h₁ : m.memBrk ≤ m'.memBrk) (h₂ : m'.memBrk ≤ m.memBrk + k) :
    Takes m m' k p := ⟨h₁, h₂, fun hz => absurd hz hp⟩

end Takes

structure Grows {σ : Type} (A : Allocator σ) (Inv : σ → List Block → Prop) : Prop where
  top : ∀ {s : σ} {bs : List Block}, Inv s bs → (A.memlib s).memBrk ≤ (A.memlib s).memMaxAddr
  write : ∀ (s : σ) (x : Nat) (v : UInt8),
    (A.memlib (A.clientWrite s x v)).memBrk = (A.memlib s).memBrk
  malloc : ∀ {s s' : σ} {bs : List Block} {n p : Nat}, Inv s bs → n ≠ 0 → n < 2 ^ 31 →
    A.mmMalloc s n = some (s', p) → Takes (A.memlib s) (A.memlib s') (reserve n) p
  realloc : ∀ {s s' : σ} {bs : List Block} {d : Block} {n p : Nat}, Inv s bs → d ∈ bs →
    d.alloc = true → n ≠ 0 → n < 2 ^ 31 → A.mmRealloc s d.ptr n = some (s', p) →
    Takes (A.memlib s) (A.memlib s') (reserve n) p
  free : ∀ {s s' : σ} {bs : List Block} {d : Block}, Inv s bs → d ∈ bs → d.alloc = true →
    A.mmFree s d.ptr = some s' → (A.memlib s').memBrk = (A.memlib s).memBrk

/-! ## The segregated allocator -/

namespace Segregated

variable {s s' : State} {bs : List Block} {d : Block} {n p base words : Nat}

theorem extendHeap_takes (hlt : extendSize words < 2 ^ 32)
    (h : extendHeap s words = some (s', p)) :
    s.memBrk ≤ s'.memBrk ∧ s'.memBrk ≤ s.memBrk + extendSize words := by
  unfold extendHeap at h
  simp only [s.memSbrk_toInt hlt] at h
  by_cases hg : s.Granted (extendSize words)
  · simp only [if_pos hg] at h
    have hstores := coalesce_stores h
    have hbrk : s'.memBrk = s.memBrk + extendSize words := hstores.memBrk_eq
    omega
  · simp only [if_neg hg] at h
    obtain ⟨rfl, -⟩ := Prod.mk.inj (Option.some.inj h)
    omega

namespace Sound

theorem place_brk {b : Block} {asize : Nat} (h : Sound base s bs) (hb : FreeOf bs b)
    (hle : asize ≤ b.size) (h16 : 16 ≤ asize) (hmod : asize % 8 = 0)
    (heq : place s b.ptr asize = some (s', p)) : s'.memBrk = s.memBrk ∧ p ≠ 0 := by
  obtain ⟨m', bs', d, heq', hplaced, -⟩ := place_spec h.heap h.apart hb hle h16 hmod
  obtain ⟨rfl, rfl⟩ := Prod.mk.inj (Option.some.inj (heq.symm.trans heq'))
  have hd : d ∈ bs' := (hplaced.gains.mem d hplaced.gains.alloc).mpr (.inr rfl)
  have hptr := hplaced.merged.heap.layout.tiles.ptr_ge hd
  exact ⟨rfl, by omega⟩

theorem start_le (h : Sound base s bs) : s.memStartBrk ≤ s.memBrk := by
  have hbase := h.heap.base
  have hle := h.heap.layout.tiles.le
  omega

theorem malloc_takes (h : Sound base s bs) (hn0 : n ≠ 0) (hn : n + 15 < 2 ^ 32)
    (heq : mmMalloc s n = some (s', p)) :
    Takes s.toMemlib s'.toMemlib (max (adjustSize n) chunksize) p := by
  obtain ⟨h16, hmod, -, -⟩ := adjustSize_bounds hn
  have hsize := extendSize_chunk hmod (adjustSize_lt_word n)
  obtain ⟨q, hq, hfit⟩ := searchFit_spec (adjustSize n) h.heap maxSegEntry (by decide)
    (adjustSize n)
  rw [h.mmMalloc_eq hn0 hq] at heq
  by_cases hq0 : q = 0
  · rw [if_pos hq0, growAndPlace] at heq
    rcases h.extend_effect h16 hmod (adjustSize_lt_word n) with
      ⟨hg, hext⟩ | ⟨-, t, bs', b, hext, -, hb, hfits, heff, -⟩
    · simp only [hext] at heq
      obtain ⟨rfl, rfl⟩ := Prod.mk.inj (Option.some.inj heq)
      exact Takes.none h.start_le hg
    · simp only [hext, heff.inv.ptr_ne hb.1, if_false] at heq
      obtain ⟨hbrk, hp⟩ := heff.inv.place_brk hb hfits h16 hmod heq
      have hword : max (adjustSize n) chunksize < 2 ^ 32 :=
        max_lt (adjustSize_lt_word n) (by decide)
      rw [chunksize] at hext hword
      have hgrow := extendHeap_takes (hsize.trans_lt hword) hext
      rw [hsize, ← hbrk] at hgrow
      exact Takes.of_ne hp hgrow.1 hgrow.2
  · rw [if_neg hq0] at heq
    obtain ⟨b, hb, rfl, hfits⟩ := hfit.resolve_left hq0
    obtain ⟨hbrk, hp⟩ := h.place_brk hb hfits h16 hmod heq
    exact Takes.of_ne hp hbrk.ge (hbrk.le.trans (Nat.le_add_right _ _))

theorem free_brk (h : Sound base s bs) (heq : mmFree s p = some s') : s'.memBrk = s.memBrk :=
  (mmFree_stores h.heapListp_ne heq).memBrk_eq

theorem copy_free_brk (h : Sound base s bs) {dst src k : Nat}
    (heq : mmFree (s.memcpy dst src k) p = some s') : s'.memBrk = s.memBrk :=
  (mmFree_stores (s := s.memcpy dst src k) h.heapListp_ne heq).memBrk_eq

theorem realloc_takes (h : Sound base s bs) (hd : d ∈ bs) (hn0 : n ≠ 0) (hn : n + 23 < 2 ^ 32)
    (heq : mmRealloc s d.ptr n = some (s', p)) :
    Takes s.toMemlib s'.toMemlib (reserve n) p := by
  have hd0 := h.ptr_ne hd
  unfold mmRealloc at heq
  simp only [hd0, hn0, if_false] at heq
  by_cases hfit : getSize s.mem (hdrp d.ptr) ≥ adjustSize n
  · rw [if_pos hfit] at heq
    obtain ⟨rfl, rfl⟩ := Prod.mk.inj (Option.some.inj heq)
    exact .of_ne hd0 (Nat.le_refl _) (Nat.le_add_right _ _)
  · rw [if_neg hfit] at heq
    split at heq
    · obtain ⟨rfl, rfl⟩ := Prod.mk.inj (Option.some.inj heq)
      have hbrk := (deleteNode_stores s (nextBlkp s.mem d.ptr)).memBrk_eq
      exact .of_ne hd0 hbrk.ge (hbrk.le.trans (Nat.le_add_right _ _))
    · cases hm : mmMalloc s (adjustSize n) with
      | none =>
          simp only [hm] at heq
          cases heq
      | some r =>
          obtain ⟨t, newBlock⟩ := r
          obtain ⟨h16, -, -, -⟩ := adjustSize_bounds (n := n) (by omega)
          have htake := h.malloc_takes (by omega) (adjustSize_add_lt hn) hm
          simp only [hm] at heq
          by_cases hnew : newBlock = 0
          · subst hnew
            rw [if_pos rfl] at heq
            obtain ⟨rfl, rfl⟩ := Prod.mk.inj (Option.some.inj heq)
            exact htake
          · rw [if_neg hnew] at heq
            obtain ⟨u, hfree, hu⟩ := Option.map_eq_some_iff.mp heq
            obtain ⟨rfl, rfl⟩ := Prod.mk.inj hu
            rcases h.malloc_effect (adjustSize_add_lt hn) with hnull | ⟨t', bs', e, hout, -, -, he⟩
            · obtain ⟨-, rfl⟩ := Prod.mk.inj (Option.some.inj (hm.symm.trans hnull))
              exact absurd rfl hnew
            · obtain ⟨rfl, rfl⟩ := Prod.mk.inj (Option.some.inj (hm.symm.trans hout))
              have hbrk := he.inv.copy_free_brk hfree
              exact .of_ne hnew (hbrk ▸ htake.le) (hbrk ▸ htake.bound)

end Sound

theorem grows (base : Nat) : Grows allocator (Sound base) where
  top h := h.heap.top.trans_eq (Nat.add_comm _ _)
  write _ _ _ := rfl
  malloc h hn0 hn heq := by
    refine (h.malloc_takes hn0 (by omega) heq).mono ?_
    exact max_le_max_right _ (adjustSize_le_twice (by omega))
  realloc h hd _ hn0 hn heq := h.realloc_takes hd hn0 (by omega) heq
  free h _ _ heq := h.free_brk heq

end Segregated

/-! ## The implicit-list allocator -/

namespace Implicit

variable {s s' : State} {bs : List Block} {d : Block} {n p asize base words : Nat}

theorem coalesce_brk (s : State) (bp : Nat) : (coalesce s bp).1.memBrk = s.memBrk := by
  have hsettle : ∀ t q, (settleRover t q).memBrk = t.memBrk := by
    intro t q
    unfold settleRover
    split <;> rfl
  unfold coalesce
  simp only
  split
  · rfl
  · split
    · exact hsettle _ _
    · split
      · exact hsettle _ _
      · exact hsettle _ _

theorem place_brk (s : State) (bp asize : Nat) : (place s bp asize).memBrk = s.memBrk := by
  unfold place
  simp only
  split <;> rfl

theorem mmFree_brk (h : s.heapListp ≠ 0) (bp : Nat) : (mmFree s bp).memBrk = s.memBrk := by
  unfold mmFree
  simp only [h, if_false]
  split
  · rfl
  · exact coalesce_brk _ _

theorem extendHeap_brk (hg : s.Granted (extendSize words)) :
    (extendHeap s words).1.memBrk = s.memBrk + extendSize words := by
  unfold extendHeap
  simp only [State.memSbrk_of_granted hg]
  exact coalesce_brk _ _

namespace Sound

theorem start_le (h : Sound base s bs) : s.memStartBrk ≤ s.memBrk := by
  have hbase := h.heap.base
  have hle := h.heap.layout.tiles.le
  omega

theorem malloc_takes (h : Sound base s bs) (hn0 : n ≠ 0) (hn : n + 15 < 2 ^ 32)
    (heq : mmMalloc s n = some (s', p)) :
    Takes s.toMemlib s'.toMemlib (max (adjustSize n) chunksize) p := by
  obtain ⟨h16, hmod, -, -⟩ := adjustSize_bounds hn
  have hsize := extendSize_chunk hmod (adjustSize_lt_word n)
  rw [← chunksize] at hsize
  unfold mmMalloc at heq
  simp only [h.heapListp_ne, hn0, if_false] at heq
  rcases findFit_spec (adjustSize n) h.heap h.rover with ⟨b, hb, -, hfind⟩ | ⟨-, hfind⟩
  · simp only [hfind, h.ptr_ne hb, ne_eq, not_false_eq_true, if_true] at heq
    obtain ⟨rfl, rfl⟩ := Prod.mk.inj (Option.some.inj heq)
    have hbrk := place_brk (s.setRover b.ptr) b.ptr (adjustSize n)
    exact .of_ne (h.ptr_ne hb) hbrk.ge (hbrk.le.trans (Nat.le_add_right _ _))
  · simp only [hfind, ne_eq, not_true, if_false] at heq
    rcases h.extend_effect h16 hmod (adjustSize_lt_word n) with
      ⟨hg, hext⟩ | ⟨hg, t, bs', b, hext, hb, -, heff⟩
    · simp only [hext, if_true] at heq
      obtain ⟨rfl, rfl⟩ := Prod.mk.inj (Option.some.inj heq)
      exact Takes.none h.start_le hg
    · have hgrow := extendHeap_brk (hsize.symm ▸ hg)
      simp only [hext, heff.inv.ptr_ne hb, if_false] at heq
      obtain ⟨rfl, rfl⟩ := Prod.mk.inj (Option.some.inj heq)
      have hbrk := place_brk t b.ptr (adjustSize n)
      rw [hext, hsize] at hgrow
      simp only at hgrow
      exact .of_ne (heff.inv.ptr_ne hb) (by omega) (by omega)

theorem realloc_takes (h : Sound base s bs) (hd : d ∈ bs) (hn0 : n ≠ 0) (hn : n + 15 < 2 ^ 32)
    (heq : mmRealloc s d.ptr n = some (s', p)) :
    Takes s.toMemlib s'.toMemlib (max (adjustSize n) chunksize) p := by
  unfold mmRealloc at heq
  simp only [h.ptr_ne hd, hn0, if_false] at heq
  cases hm : mmMalloc s n with
  | none =>
      simp only [hm] at heq
      cases heq
  | some r =>
      obtain ⟨t, newptr⟩ := r
      have htake := h.malloc_takes hn0 hn hm
      simp only [hm] at heq
      by_cases hnew : newptr = 0
      · subst hnew
        rw [if_pos rfl] at heq
        obtain ⟨rfl, rfl⟩ := Prod.mk.inj (Option.some.inj heq)
        exact htake
      · rw [if_neg hnew] at heq
        obtain ⟨rfl, rfl⟩ := Prod.mk.inj (Option.some.inj heq)
        rcases h.malloc_effect hn with hnull | ⟨t', bs', e, hout, -, he⟩
        · obtain ⟨-, rfl⟩ := Prod.mk.inj (Option.some.inj (hm.symm.trans hnull))
          exact absurd rfl hnew
        · obtain ⟨rfl, rfl⟩ := Prod.mk.inj (Option.some.inj (hm.symm.trans hout))
          refine .of_ne hnew ?_ ?_
          · exact htake.le.trans (mmFree_brk (s := t.memcpy _ _ _) he.inv.heapListp_ne _).ge
          · exact (mmFree_brk (s := t.memcpy _ _ _) he.inv.heapListp_ne _).le.trans htake.bound

end Sound

theorem grows (base : Nat) : Grows allocator (Sound base) where
  top h := h.heap.top.trans_eq (Nat.add_comm _ _)
  write _ _ _ := rfl
  malloc h hn0 hn heq := by
    refine (h.malloc_takes hn0 (by omega) heq).mono ?_
    exact max_le_max_right _ (adjustSize_le_twice (by omega))
  realloc h hd _ hn0 hn heq := by
    refine (h.realloc_takes hd hn0 (by omega) heq).mono ?_
    exact max_le_max_right _ (adjustSize_le_twice (by omega))
  free h _ _ heq := by
    obtain rfl := Option.some.inj heq
    exact mmFree_brk h.heapListp_ne _

end Implicit

end CsappLabs.Malloc
