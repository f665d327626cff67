import CsappLabs.Malloc.Capacity
import CsappLabs.Malloc.Explicit.Runs

/-!
# Requests near the word limit of the explicit-list allocator

`mm_realloc` adjusts its size, and `mm_malloc` adjusts the result once more.
-/

namespace CsappLabs.Malloc.Explicit

open CsappLabs.Foundation

variable {s s' : State} {F : Block → Prop} {bs l r : List Block} {b d : Block}
  {n p base asize : Nat}

/-! ## The search -/

theorem findFitFrom_none {prev f last : Nat} {xs : List Nat}
    (h : Linked (getSuccessor s.mem) (getPredecessor s.mem) prev f xs last s.tail)
    (htail : s.tail ∉ xs) (hpos : ∀ x ∈ xs, x ≠ 0) (fuel : Nat)
    (hnone : findFitFrom s asize fuel f = some 0) :
    ∀ x ∈ xs, getSize s.mem (hdrp x) < asize := by
  induction xs generalizing prev f fuel with
  | nil => simp
  | cons x xs ih =>
      obtain ⟨rfl, -, hrest⟩ := h
      simp only [List.mem_cons, not_or] at htail
      cases fuel with
      | zero => simp [findFitFrom] at hnone
      | succ fuel =>
          rw [findFitFrom, if_neg (Ne.symm htail.1)] at hnone
          by_cases hle : asize ≤ getSize s.mem (hdrp f)
          · rw [if_pos hle] at hnone
            exact absurd (Option.some.inj hnone) (hpos f (by simp))
          · rw [if_neg hle] at hnone
            intro y hy
            cases List.mem_cons.mp hy with
            | inl he => exact he ▸ Nat.lt_of_not_le hle
            | inr hy => exact ih hrest htail.2 (fun x hx => hpos x (by simp [hx])) fuel hnone y hy

theorem findFit_none (h : Heap s bs (FreeOf bs)) (hnone : findFit s asize = some 0) :
    ∀ b, FreeOf bs b → b.size < asize := by
  obtain ⟨xs, hlink, -, hmem⟩ := h.list
  have htail : s.tail ∉ xs := fun hx => h.nodes.tail_not_node ((hmem _).mp hx)
  have hpos : ∀ x ∈ xs, x ≠ 0 := by
    intro x hx
    obtain ⟨b, hb, rfl⟩ := (hmem x).mp hx
    have hge := (h.ptr_bounds hb.1).1
    omega
  intro b hb
  have hlt := findFitFrom_none hlink htail hpos walkFuel hnone b.ptr ((hmem _).mpr ⟨b, hb, rfl⟩)
  rwa [h.layout.getSize_hdrp hb.1] at hlt

/-! ## The break -/

def Stores (s s' : State) : Prop := ∃ m, s' = s.setMem m

theorem Stores.trans {s'' : State} (h : Stores s s') (h' : Stores s' s'') : Stores s s'' := by
  obtain ⟨m, rfl⟩ := h
  obtain ⟨m', rfl⟩ := h'
  exact ⟨m', rfl⟩

theorem Stores.put (s : State) (p v : Nat) : Stores s (s.put p v) := ⟨_, rfl⟩

theorem deleteNode_stores (s : State) (bp : Nat) : Stores s (deleteNode s bp) := ⟨_, rfl⟩

theorem insertNode_stores (s : State) (bp : Nat) : Stores s (insertNode s bp) := ⟨_, rfl⟩

theorem coalesce_stores (s : State) (bp : Nat) : Stores s (coalesce s bp).1 := by
  have hnext : Stores s (mergeNext s bp) :=
    ((deleteNode_stores _ _).trans (.put _ _ _)).trans (.put _ _ _)
  have hprev : Stores s (mergePrev s bp) :=
    ((deleteNode_stores _ _).trans (.put _ _ _)).trans (.put _ _ _)
  have hboth : Stores s (mergeBoth s bp) :=
    (((deleteNode_stores _ _).trans (deleteNode_stores _ _)).trans (.put _ _ _)).trans
      (.put _ _ _)
  unfold coalesce
  simp only []
  split
  · exact insertNode_stores s bp
  · split
    · exact hnext.trans (insertNode_stores _ _)
    · split
      · exact hprev.trans (insertNode_stores _ _)
      · exact hboth.trans (insertNode_stores _ _)

theorem place_stores (s : State) (bp asize : Nat) : Stores s (place s bp asize) := by
  unfold place carve
  simp only []
  split
  · refine Stores.trans ?_ (coalesce_stores _ _)
    exact ((((deleteNode_stores _ _).trans (.put _ _ _)).trans (.put _ _ _)).trans
      (.put _ _ _)).trans (.put _ _ _)
  · exact ((deleteNode_stores _ _).trans (.put _ _ _)).trans (.put _ _ _)

theorem mmFree_stores (hinit : s.heapListp ≠ 0) (bp : Nat) : Stores s (mmFree s bp) := by
  unfold mmFree
  simp only [hinit, if_false]
  split
  · exact ⟨s.mem, rfl⟩
  · exact ((Stores.put _ _ _).trans (.put _ _ _)).trans (coalesce_stores _ _)

theorem finish_stores (hinit : s.heapListp ≠ 0) (bp newbp size oldSize : Nat) :
    Stores s (finish s bp newbp size oldSize) := by
  have hcopied : Stores s ((place s newbp size).memcpy newbp bp (min size oldSize)) :=
    (place_stores s newbp size).trans ⟨_, rfl⟩
  refine hcopied.trans (mmFree_stores ?_ bp)
  obtain ⟨m, heq⟩ := hcopied
  rw [heq]
  exact hinit

/-! ## The calls -/

theorem Heap.hasCapacity (h : Heap s bs F) (hd : d ∈ bs) (hn : n + 8 ≤ d.size) :
    HasCapacity s.toMemlib d.ptr n :=
  h.layout.hasCapacity (by have := h.base; omega) hd hn

def Holds (s : State) (p n : Nat) : Prop :=
  ∃ bs F e, Heap s bs F ∧ e ∈ bs ∧ e.ptr = p ∧ n ≤ e.size

namespace Sound

theorem mallocFits (h : Sound base s bs) (hn : n + 15 < 2 ^ 32) :
    MallocFits allocator State.heapListp s n := by
  cases h.malloc_effect hn with
  | inl heq => exact ⟨s, 0, heq, fun hp => absurd rfl hp, h.heap.layout.blocksReach⟩
  | inr hout =>
      obtain ⟨s', bs', d, heq, hsize, heff⟩ := hout
      have hd : d ∈ bs' := (heff.mem d (heff.new_alloc d rfl)).mpr (.inr rfl)
      exact ⟨s', d.ptr, heq, fun _ => heff.inv.heap.hasCapacity hd hsize,
        heff.inv.heap.layout.blocksReach⟩

theorem malloc_wrapped (h : Sound base s bs) (hn : 2 ^ 32 ≤ n + 15) (hlt : n < 2 ^ 32) :
    ((∀ b ∈ bs, b.alloc = true) ∧ ¬s.Granted chunksize) ∧ mmMalloc s n = some (s, 0) ∨
      ((∃ b ∈ bs, b.alloc = false) ∨ s.Granted chunksize) ∧
        ∃ s₁ bs₁ q, q ≠ 0 ∧ Sound base s₁ bs₁ ∧
          mmMalloc s n = some (place s₁ q (adjustSize n), q) := by
  have hsmall := adjustSize_wrapped hn hlt
  have hn0 : n ≠ 0 := by omega
  have hmax := max_chunksize (show adjustSize n ≤ 16 by omega)
  obtain ⟨q, hq, hfit⟩ := findFit_spec (adjustSize n) h.heap
  by_cases hq0 : q = 0
  · rw [hq0] at hq
    have hnofit := findFit_none h.heap hq
    cases h.extend_effect (Nat.le_refl 16) (by decide) (by decide) with
    | inl hrefused =>
        refine .inl ⟨⟨fun b hb => ?_, hrefused.1⟩, ?_⟩
        · have h16 := h.heap.layout.tiles.size_ge hb
          by_contra hfree
          have hlt := hnofit b ⟨hb, by simpa using hfree⟩
          omega
        · simp [mmMalloc, h.heapListp_ne, hn0, hq, hmax, hrefused.2]
    | inr hgrown =>
        obtain ⟨hgrant, s₁, bs₁, b, hext, hb, -, heff, -⟩ := hgrown
        have hb0 := heff.inv.ptr_ne hb.1
        refine .inr ⟨.inr hgrant, s₁, bs₁, b.ptr, hb0, heff.inv, ?_⟩
        simp [mmMalloc, h.heapListp_ne, hn0, hq, hmax, hext, hb0]
  · obtain ⟨b, hb, rfl, -⟩ := hfit.resolve_left hq0
    refine .inr ⟨.inl ⟨b, hb.1, hb.2⟩, s, bs, b.ptr, hq0, h, ?_⟩
    simp [mmMalloc, h.heapListp_ne, hn0, hq, hq0]

theorem mallocLimit (h : Sound base s bs) (hlt : n < 2 ^ 32) :
    MallocLimit allocator State.heapListp s n := by
  refine h.heap.layout.mallocLimit h.mallocFits fun hn => ?_
  cases h.malloc_wrapped hn hlt with
  | inl hnull => exact .inl hnull
  | inr hblock =>
      obtain ⟨hroom, s₁, bs₁, q, hq, -, heq⟩ := hblock
      refine .inr ⟨hroom, fun s' p hout => ?_⟩
      obtain ⟨-, rfl⟩ := Prod.mk.inj (Option.some.inj (hout.symm.trans heq))
      exact hq

theorem realloc_large (h : Sound base s bs) (hd : d ∈ bs) (hn0 : n ≠ 0)
    (hlarge : maxHeap < adjustSize n) :
    mmRealloc s d.ptr n =
      match mmMalloc s (adjustSize n) with
      | none => none
      | some (t, newbp) =>
          if newbp = 0 then some (t, 0)
          else some (finish t d.ptr newbp (adjustSize n) d.size, newbp) := by
  have htop := h.heap.top
  have hbase := h.heap.base
  obtain ⟨hd₁, hd₂, -, -, -⟩ := h.heap.ptr_bounds hd
  exact h.realloc_moves hd hn0 (by omega)
    (h.heap.layout.too_large hd (adjustSize n) (by omega))

theorem finish_loses (h : Sound base s (l ++ b :: r)) (hb : b.alloc = false)
    (hsplit : asize + 8 + 16 ≤ b.size) (hhead : getPredecessor s.mem b.ptr = s.heapFreep)
    (hd : d ∈ l ++ b :: r) (ha : d.alloc = true) (hbehind : b.ptr + b.size ≠ d.ptr)
    (h16 : 16 ≤ asize) (hmod : asize % 8 = 0) (hgrow : d.size < asize) :
    Holds (finish (place s b.ptr (asize + 8)) d.ptr b.ptr asize d.size) b.ptr asize := by
  have heff := h.place_twice_lost hb hsplit h16 hmod hhead
  generalize ht : place (place s b.ptr (asize + 8)) b.ptr asize = t at heff
  have hlost := heff.inv.of_payload (d := ⟨b.ptr, asize + 8, true⟩) ⟨by simp, rfl⟩ (by simp)
    rfl (payloadOnly_copy _ d.ptr (show d.size + 8 ≤ asize + 8 by omega))
  have htiles := hlost.heap.layout.tiles
  have hfinish : finish (place s b.ptr (asize + 8)) d.ptr b.ptr asize d.size =
      mmFree (t.setMem (copy t.mem b.ptr d.ptr d.size)) d.ptr := by
    rw [finish, ht, show min asize d.size = d.size by omega, State.memcpy_eq]
  have hd' := (heff.mem d ha).mpr (.inl ⟨hd, by simp⟩)
  have hrest : b.ptr + (asize + 8) + (b.size - (asize + 8)) ≠ d.ptr := by omega
  have hfront : d.ptr + d.size ≠ b.ptr + (asize + 8) := by
    -- the new block ends there, and it is larger than `d`
    have h16 := htiles.size_ge hd'
    rcases htiles.eq_or_apart (b := ⟨b.ptr, asize + 8, true⟩) (by simp) hd' with rfl | hab | hab
    · dsimp only at hgrow
      omega
    · dsimp only at hab
      omega
    · dsimp only at hab
      omega
  obtain ⟨l', r', hsplits⟩ := List.append_of_mem hd'
  have hnew : (⟨b.ptr, asize + 8, true⟩ : Block) ∈ l' ++ d :: r' := by
    rw [← hsplits]
    simp
  have hfree : FreeOf (l' ++ d :: r')
      ⟨b.ptr + (asize + 8), b.size - (asize + 8), false⟩ := by
    rw [← hsplits]
    exact ⟨by simp, rfl⟩
  rw [hsplits] at hlost
  obtain ⟨m', F, heq, hheap⟩ := hlost.free_other hfree ha hrest hfront
  rw [hfinish, heq]
  refine ⟨_, F, ⟨b.ptr, asize + 8, true⟩, hheap, ?_, rfl, Nat.le_add_right _ _⟩
  rw [mem_coalesceBlocks rfl]
  rcases List.mem_append.mp hnew with hl | hr
  · exact .inl hl
  · refine .inr ((List.mem_cons.mp hr).resolve_left ?_)
    rintro rfl
    dsimp only at hgrow
    omega

theorem finish_holds (h : Sound base s bs) (hb : FreeOf bs b) (hle : asize + 8 ≤ b.size)
    (hd : d ∈ bs) (ha : d.alloc = true) (h16 : 16 ≤ asize) (hmod : asize % 8 = 0)
    (hgrow : d.size < asize) :
    Holds (finish (place s b.ptr (asize + 8)) d.ptr b.ptr asize d.size) b.ptr asize := by
  by_cases hfirst : asize + 8 + 16 ≤ b.size ∧ getPredecessor s.mem b.ptr = s.heapFreep
  · by_cases hend : b.ptr + b.size = d.ptr
    · obtain ⟨l, r, rfl⟩ := h.next_block hb.1 hd hend
      obtain ⟨s', bs', e, heq, hep, hsize, heff, -⟩ :=
        h.finish_heals hb.2 hfirst.1 hfirst.2 ha h16 hmod hgrow
      rw [heq]
      exact ⟨bs', _, e, heff.inv.heap, (heff.mem e (heff.new_alloc e rfl)).mpr (.inr rfl), hep,
        hsize⟩
    · obtain ⟨l, r, rfl⟩ := List.append_of_mem hb.1
      exact h.finish_loses hb.2 hfirst.1 hfirst.2 hd ha hend h16 hmod hgrow
  · obtain ⟨s', bs', e, heq, hep, hsize, heff, -⟩ := h.finish_effect hb hle
      (fun hsplit hhead => hfirst ⟨hsplit, hhead⟩) hd ha h16 hmod hgrow
    rw [heq]
    exact ⟨bs', _, e, heff.inv.heap, (heff.mem e (heff.new_alloc e rfl)).mpr (.inr rfl), hep,
      hsize⟩

/-- The payload that is moved has room, whether or not the list loses a block. -/
theorem realloc_moved (h : Sound base s bs) (hd : d ∈ bs) (ha : d.alloc = true)
    (hn : n + 23 < 2 ^ 32) (hmoves : Moves s d.ptr n) : ReallocFits allocator s d.ptr n := by
  obtain ⟨hn0, hd0, hgrow, hroom⟩ := hmoves
  obtain ⟨h16, hmod, hge, -⟩ := adjustSize_bounds (n := n) (by omega)
  have hlt := adjustSize_add_lt hn
  have hsize := h.heap.layout.getSize_hdrp hd
  rw [hsize] at hgrow hroom
  have hcall := h.realloc_moves hd hn0 hgrow hroom
  rcases h.malloc_cases (show adjustSize n ≠ 0 by omega) hlt with
    heq | ⟨s₁, bs₁, b, heq, hb, hfits, heff, -⟩
  · rw [heq] at hcall
    exact ⟨s, 0, hcall, fun hq => absurd rfl hq⟩
  · rw [heq, adjustSize_again h16 hmod hlt] at hcall
    rw [adjustSize_again h16 hmod hlt] at hfits
    simp only [heff.inv.ptr_ne hb.1, if_false] at hcall
    have hd₁ : d ∈ bs₁ := (heff.mem d ha).mpr (.inl ⟨hd, by simp⟩)
    have hholds := heff.inv.finish_holds hb hfits hd₁ ha h16 hmod hgrow
    generalize finish (place s₁ b.ptr (adjustSize n + 8)) d.ptr b.ptr (adjustSize n) d.size = s'
      at hcall hholds
    obtain ⟨bs', F, e, hheap, he, hep, hesize⟩ := hholds
    rw [← hep] at hcall
    exact ⟨s', e.ptr, hcall, fun _ => hheap.hasCapacity he (hge.trans hesize)⟩

theorem reallocFits (h : Sound base s bs) (hd : d ∈ bs) (ha : d.alloc = true) (hn0 : n ≠ 0)
    (hn : n + 23 < 2 ^ 32) : ReallocFits allocator s d.ptr n := by
  by_cases hmoves : Moves s d.ptr n
  · exact h.realloc_moved hd ha hn hmoves
  · cases h.realloc_effect hd ha hn hn0 fun hforgets => hmoves hforgets.1 with
    | inl heq => exact ⟨s, 0, heq, fun hq => absurd rfl hq⟩
    | inr hout =>
        obtain ⟨s', bs', e, heq, hsize, heff, -⟩ := hout
        have he : e ∈ bs' := (heff.mem e (heff.new_alloc e rfl)).mpr (.inr rfl)
        exact ⟨s', e.ptr, heq, fun _ => heff.inv.heap.hasCapacity he hsize⟩

theorem reallocLimit (h : Sound base s bs) (hd : d ∈ bs) (ha : d.alloc = true) (hn0 : n ≠ 0)
    (hlt : n < 2 ^ 32) : ReallocLimit allocator State.heapListp s d.ptr n where
  ptr := h.ptr_ne hd
  fits hn := h.reallocFits hd ha hn0 hn
  same hn := by
    have hsmall := adjustSize_wrapped hn hlt
    have hsize := h.heap.layout.getSize_hdrp hd
    have h16 := h.heap.layout.tiles.size_ge hd
    have hfit : d.size ≥ adjustSize n := by omega
    show mmRealloc s d.ptr n = some (s, d.ptr)
    simp [mmRealloc, hn0, h.ptr_ne hd, hsize, hfit]
  null hn hn' hstarved := by
    have hlast := adjustSize_last hn hn'
    have hmoves := h.realloc_large hd hn0 (by rw [hlast]; decide)
    have hlimit := h.mallocLimit (adjustSize_lt_word n)
    have hnull : mmMalloc s (adjustSize n) = some (s, 0) :=
      hlimit.null (show 2 ^ 32 ≤ adjustSize n + 15 by omega) hstarved
    rw [hnull] at hmoves
    exact hmoves
  block hn hn' hstarved s' q hout := by
    have hlast := adjustSize_last hn hn'
    have hmoves := h.realloc_large hd hn0 (by rw [hlast]; decide)
    have hcall : mmRealloc s d.ptr n = some (s', q) := hout
    rcases h.malloc_wrapped (show 2 ^ 32 ≤ adjustSize n + 15 by omega) (adjustSize_lt_word n) with
      ⟨hnone, -⟩ | ⟨-, s₁, bs₁, p, hp, hsound, heq⟩
    · exact absurd (h.heap.layout.starved_iff.mpr hnone) hstarved
    · rw [hmoves, heq] at hcall
      simp only [hp, if_false] at hcall
      obtain ⟨rfl, rfl⟩ := Prod.mk.inj (Option.some.inj hcall)
      obtain ⟨m, hstores⟩ := (place_stores s₁ p (adjustSize (adjustSize n))).trans
        (finish_stores (by
          obtain ⟨m, hplace⟩ := place_stores s₁ p (adjustSize (adjustSize n))
          rw [hplace]
          exact hsound.heapListp_ne) d.ptr p (adjustSize n) d.size)
      refine ⟨hp, ?_⟩
      rw [hstores]
      exact hsound.heap.top

end Sound

end CsappLabs.Malloc.Explicit
