import CsappLabs.Malloc.Explicit.Calls

/-!
# `mm_malloc` and `mm_realloc`

`Forgets` says which calls of `mm_realloc` lose a free block.  All other calls
keep the heap sound.
-/

namespace CsappLabs.Malloc.Explicit

open CsappLabs.Foundation

def Moves (s : State) (bp size : Nat) : Prop :=
  size ≠ 0 ∧ bp ≠ 0 ∧ getSize s.mem (hdrp bp) < adjustSize size ∧
    ¬((getAlloc s.mem (hdrp (nextBlkp s.mem bp)) = 0 ∨
        getSize s.mem (hdrp (nextBlkp s.mem bp)) = 0) ∧
      addw (getSize s.mem (hdrp bp)) (getSize s.mem (hdrp (nextBlkp s.mem bp))) ≥
        adjustSize size)

/-- `mm_malloc` splits the first block of the list for a block of `asize`
bytes, and that block does not end at `bp`.  What `extend_heap` returns is
always the first block. -/
def SplitsFirst (s : State) (asize bp : Nat) : Prop :=
  ∃ fit ∈ findFit s asize,
    if fit ≠ 0 then
      getPredecessor s.mem fit = s.heapFreep ∧ asize + 16 ≤ getSize s.mem (hdrp fit) ∧
        nextBlkp s.mem fit ≠ bp
    else
      s.Granted (max asize chunksize) ∧
        (asize + 16 ≤ chunksize ∨ getAlloc s.mem (s.memBrk - 8) = 0)

/-- The call `mm_realloc(bp, size)` loses the rest of the block it moves to. -/
def Forgets (s : State) (bp size : Nat) : Prop :=
  Moves s bp size ∧ SplitsFirst s (adjustSize (adjustSize size)) bp

instance (s : State) (bp size : Nat) : Decidable (Moves s bp size) :=
  inferInstanceAs (Decidable (_ ∧ _ ∧ _ ∧ ¬((_ ∨ _) ∧ _)))

instance (s : State) (asize bp : Nat) : Decidable (SplitsFirst s asize bp) :=
  inferInstanceAs (Decidable (∃ fit ∈ findFit s asize, ite _ _ _))

instance (s : State) (bp size : Nat) : Decidable (Forgets s bp size) :=
  inferInstanceAs (Decidable (_ ∧ _))

def Keeps (s : State) : Call → Prop
  | .realloc bp size => ¬Forgets s bp size
  | _ => True

instance (s : State) : (c : Call) → Decidable (Keeps s c)
  | .malloc _ => isTrue trivial
  | .free _ => isTrue trivial
  | .realloc bp size => inferInstanceAs (Decidable ¬Forgets s bp size)
  | .write _ _ _ => isTrue trivial

variable {s s' : State} {F : Block → Prop} {a b c d e : Block} {bs l r xs : List Block}
  {m m' : Mem} {n p asize base : Nat}

theorem adjustSize_again (h16 : 16 ≤ asize) (hmod : asize % 8 = 0)
    (hlt : asize + 15 < 2 ^ 32) : adjustSize asize = asize + 8 := by
  rw [adjustSize_eq (by omega), if_neg (by omega)]
  omega

/-! ## `mm_malloc` -/

namespace Sound

theorem endsAllocated (h : Sound base s bs) (ha : getAlloc s.mem (s.memBrk - 8) ≠ 0) :
    Layout.EndsAllocated bs := by
  rcases Layout.endsAllocated_or bs with hends | ⟨l, a, rfl, hfree⟩
  · exact hends
  · have hend := h.heap.layout.tiles.last_end
    have halloc := h.heap.layout.getAlloc_ftrp (b := a) (by simp)
    rw [h.heap.layout.ftrp_eq (by simp), hend, hfree] at halloc
    exact absurd halloc ha

theorem extend_effect (h : Sound base s bs) (h16 : 16 ≤ asize) (hmod : asize % 8 = 0)
    (hlt : asize < 2 ^ 32) :
    ¬s.Granted (max asize chunksize) ∧ extendHeap s (max asize chunksize / 4) = (s, 0) ∨
    s.Granted (max asize chunksize) ∧
      ∃ s' bs' b, extendHeap s (max asize chunksize / 4) = (s', b.ptr) ∧
        FreeOf bs' b ∧ asize ≤ b.size ∧ Effect allocator (Sound base) s s' bs bs' none none ∧
        (getAlloc s.mem (s.memBrk - 8) ≠ 0 → b.size = max asize chunksize) := by
  have hsize := extendSize_chunk hmod hlt
  rw [← chunksize] at hsize
  by_cases hg : s.Granted (max asize chunksize)
  · right
    obtain ⟨m', heq, hmerged⟩ := extendHeap_spec (max asize chunksize / 4) h.heap
      (by rw [hsize]; omega) (by rw [hsize]; unfold chunksize; omega) (by rw [hsize]; exact hg)
    rw [hsize] at heq hmerged
    refine ⟨hg, _, coalesceBlocks bs ⟨s.memBrk, max asize chunksize, false⟩ [],
      mergedBlock bs ⟨s.memBrk, max asize chunksize, false⟩ [], heq,
      ⟨by simp [coalesceBlocks], rfl⟩, ?_, ?_, fun ha => ?_⟩
    · simp only [mergedBlock]
      omega
    · refine SameAllocated.effect (fun c hc => ?_) ?_ hmerged.keeps
      · simp [mem_coalesceBlocks hc]
      · exact ⟨hmerged.whole,
          coalesceBlocks_noAdjacentFree h.apart noAdjacentFree_nil, h.start⟩
    · simp [mergedBlock, h.endsAllocated ha, freeAfter]
  · exact .inl ⟨hg, extendHeap_refused (by rw [hsize]; unfold chunksize; omega)
      (by rw [hsize]; exact hg)⟩

theorem malloc_cases (h : Sound base s bs) (hn0 : n ≠ 0) (hn : n + 15 < 2 ^ 32) :
    mmMalloc s n = some (s, 0) ∨
    ∃ s₁ bs₁ b, mmMalloc s n = some (place s₁ b.ptr (adjustSize n), b.ptr) ∧
      FreeOf bs₁ b ∧ adjustSize n ≤ b.size ∧
      Effect allocator (Sound base) s s₁ bs bs₁ none none ∧
      (findFit s (adjustSize n) = some b.ptr ∧ s₁ = s ∧ bs₁ = bs ∨
        findFit s (adjustSize n) = some 0 ∧ s.Granted (max (adjustSize n) chunksize) ∧
          (getAlloc s.mem (s.memBrk - 8) ≠ 0 → b.size = max (adjustSize n) chunksize)) := by
  obtain ⟨h16, hmod, -, -⟩ := adjustSize_bounds hn
  obtain ⟨q, hq, hfit⟩ := findFit_spec (adjustSize n) h.heap
  unfold mmMalloc
  simp only [h.heapListp_ne, hn0, if_false, hq]
  by_cases hq0 : q = 0
  · simp only [hq0, ne_eq, not_true, if_false]
    rcases h.extend_effect h16 hmod (adjustSize_lt_word n) with
      ⟨-, heq⟩ | ⟨hg, s₁, bs₁, b, heq, hb, hfits, heff, hlast⟩
    · exact .inl (by simp [heq])
    · have hb0 : b.ptr ≠ 0 := heff.inv.ptr_ne hb.1
      exact .inr ⟨s₁, bs₁, b, by simp [heq, hb0], hb, hfits, heff, .inr ⟨trivial, hg, hlast⟩⟩
  · obtain ⟨b, hb, rfl, hfits⟩ := hfit.resolve_left hq0
    exact .inr ⟨s, bs, b, by simp [hq0], hb, hfits, Effect.refl h, .inl ⟨rfl, rfl, rfl⟩⟩

theorem malloc_effect (h : Sound base s bs) (hn : n + 15 < 2 ^ 32) :
    mmMalloc s n = some (s, 0) ∨
    ∃ s' bs' d, mmMalloc s n = some (s', d.ptr) ∧ n + 8 ≤ d.size ∧
      Effect allocator (Sound base) s s' bs bs' none (some d) := by
  by_cases hn0 : n = 0
  · left
    simp [mmMalloc, h.heapListp_ne, hn0]
  · obtain ⟨h16, hmod, hge, -⟩ := adjustSize_bounds hn
    rcases h.malloc_cases hn0 hn with heq | ⟨s₁, bs₁, b, heq, hb, hfits, heff, -⟩
    · exact .inl heq
    · obtain ⟨bs', d, hd, hsize, heff'⟩ := heff.inv.place_effect hb hfits h16 hmod
      exact .inr ⟨_, bs', d, by rw [heq, hd], hge.trans hsize, heff.after heff'⟩

/-! ## `mm_realloc` -/

theorem of_payload (h : Sound base s bs) (hd : d ∈ bs) (ha : d.alloc = true)
    (hm : PayloadOnly d s.mem m') : Sound base (s.setMem m') bs :=
  ⟨h.heap.of_payload hd ha hm, h.apart, h.start⟩

end Sound

theorem Lost.of_payload (h : Lost base e s bs) (he : FreeOf bs e) (hd : d ∈ bs)
    (ha : d.alloc = true) (hm : PayloadOnly d s.mem m') : Lost base e (s.setMem m') bs where
  heap := h.heap.of_payload hd ha hm
  apart := h.apart
  start := h.start
  bypassed := by
    have he16 := h.heap.layout.tiles.size_ge he.1
    have hed : e ≠ d := by
      rintro rfl
      simp [he.2] at ha
    have hkept := hm.samePayload h.heap.layout.tiles hd he.1 hed
    exact bypassed_setMem.mpr (h.bypassed.congr
      (h.heap.sameLinks_payload h.heap.listed hd ha hm) (hkept.successor he16)
      (hkept.predecessor he16))

theorem memlib_copy (s : State) (dst src n : Nat) :
    (allocator.memlib (s.setMem (copy s.mem dst src n))).mem =
      copy (allocator.memlib s).mem dst src n := rfl

/-- The end of `mm_realloc`: the block is placed once more, the old payload is
copied, and the old block is freed. -/
def finish (s : State) (bp newbp size oldSize : Nat) : State :=
  mmFree ((place s newbp size).memcpy newbp bp (min size oldSize)) bp

namespace Sound

theorem finish_effect (h : Sound base s bs) (hb : FreeOf bs b) (hle : asize + 8 ≤ b.size)
    (hfirst : asize + 8 + 16 ≤ b.size → getPredecessor s.mem b.ptr ≠ s.heapFreep)
    (hd : d ∈ bs) (ha : d.alloc = true) (h16 : 16 ≤ asize) (hmod : asize % 8 = 0)
    (hgrow : d.size < asize) :
    ∃ s' bs' e, finish (place s b.ptr (asize + 8)) d.ptr b.ptr asize d.size = s' ∧
      e.ptr = b.ptr ∧ asize ≤ e.size ∧
      Effect allocator (Sound base) s s' bs bs' (some d) (some e) ∧
      ∀ k, k + 8 < d.size → s'.mem (e.ptr + k) = s.mem (d.ptr + k) := by
  have hdm := h.heap.layout.tiles.size_mod hd
  obtain ⟨bs₂, e, hep, hsize, heff⟩ := h.place_twice_effect hb hle h16 hmod hfirst
  generalize ht : place (place s b.ptr (asize + 8)) b.ptr asize = t at heff
  have hea : e.alloc = true := heff.new_alloc e rfl
  have hmem : e ∈ bs₂ := (heff.mem e hea).mpr (.inr rfl)
  have hd₂ : d ∈ bs₂ := (heff.mem d ha).mpr (.inl ⟨hd, by simp⟩)
  have hmin : min asize d.size = d.size := by omega
  have hroom : d.size + 8 ≤ e.size := by omega
  obtain ⟨bs₃, heff₃⟩ :=
    (heff.inv.of_payload hmem hea (payloadOnly_copy _ d.ptr hroom)).free_effect hd₂ ha
  have heq : finish (place s b.ptr (asize + 8)) d.ptr b.ptr asize d.size =
      mmFree (t.setMem (copy t.mem e.ptr d.ptr d.size)) d.ptr := by
    rw [finish, ht, hmin, hep, State.memcpy_eq]
  generalize mmFree (t.setMem (copy t.mem e.ptr d.ptr d.size)) d.ptr = s' at heff₃ heq
  have hcopy := memlib_copy t e.ptr d.ptr d.size
  obtain ⟨hmoved, hbytes⟩ := heff.moved heff.inv.heap.layout.tiles hd ha hcopy hroom heff₃
  exact ⟨s', bs₃, e, heq, hep, hsize, hmoved, fun k hk => hbytes k (by omega) hk⟩

/-- The block that is freed brings the lost rest of the new block back. -/
theorem finish_heals (h : Sound base s (l ++ b :: d :: r)) (hb : b.alloc = false)
    (hsplit : asize + 8 + 16 ≤ b.size) (hhead : getPredecessor s.mem b.ptr = s.heapFreep)
    (ha : d.alloc = true) (h16 : 16 ≤ asize) (hmod : asize % 8 = 0) (hgrow : d.size < asize) :
    ∃ s' bs' e, finish (place s b.ptr (asize + 8)) d.ptr b.ptr asize d.size = s' ∧
      e.ptr = b.ptr ∧ asize ≤ e.size ∧
      Effect allocator (Sound base) s s' (l ++ b :: d :: r) bs' (some d) (some e) ∧
      ∀ k, k + 8 < d.size → s'.mem (e.ptr + k) = s.mem (d.ptr + k) := by
  have hdm := h.heap.layout.tiles.size_mod (b := d) (by simp)
  have heff := h.place_twice_lost hb hsplit h16 hmod hhead
  generalize ht : place (place s b.ptr (asize + 8)) b.ptr asize = t at heff
  have hrest : (⟨b.ptr + (asize + 8), b.size - (asize + 8), false⟩ : Block).alloc = false := rfl
  generalize (⟨b.ptr + (asize + 8), b.size - (asize + 8), false⟩ : Block) = f at heff hrest
  have hmin : min asize d.size = d.size := by omega
  have hroom : d.size + 8 ≤ asize + 8 := by omega
  have hlost := heff.inv.of_payload (d := ⟨b.ptr, asize + 8, true⟩) ⟨by simp, hrest⟩ (by simp)
    rfl (payloadOnly_copy _ d.ptr hroom)
  have hbs : l ++ ⟨b.ptr, asize + 8, true⟩ :: f :: d :: r =
      (l ++ [⟨b.ptr, asize + 8, true⟩]) ++ f :: d :: r := by simp
  rw [hbs] at hlost heff
  obtain ⟨bs₃, heff₃⟩ := hlost.free_effect hrest ha
  have heq : finish (place s b.ptr (asize + 8)) d.ptr b.ptr asize d.size =
      mmFree (t.setMem (copy t.mem b.ptr d.ptr d.size)) d.ptr := by
    rw [finish, ht, hmin, State.memcpy_eq]
  generalize mmFree (t.setMem (copy t.mem b.ptr d.ptr d.size)) d.ptr = s' at heff₃ heq
  have hcopy := memlib_copy t b.ptr d.ptr d.size
  obtain ⟨hmoved, hbytes⟩ :=
    heff.moved heff.inv.heap.layout.tiles (by simp) ha hcopy hroom heff₃
  exact ⟨s', bs₃, ⟨b.ptr, asize + 8, true⟩, heq, rfl, by simp, hmoved,
    fun k hk => hbytes k (by omega) hk⟩

theorem next_block (h : Sound base s bs) (hb : b ∈ bs) (hd : d ∈ bs)
    (hend : b.ptr + b.size = d.ptr) : ∃ l r, bs = l ++ b :: d :: r := by
  obtain ⟨l, r, rfl⟩ := List.append_of_mem hb
  have hd16 := h.heap.layout.tiles.size_ge hd
  have hb16 := h.heap.layout.tiles.size_ge hb
  cases r with
  | nil =>
      have hlast := h.heap.layout.tiles.last_end
      have hle := h.heap.layout.tiles.ptr_add_size_le hd
      omega
  | cons c r =>
      have hc := h.heap.layout.tiles.prev_end
      have hcd : c = d :=
        h.heap.layout.tiles.ptr_injective (by simp) hd (hc.symm.trans hend)
      exact ⟨l, r, by rw [hcd]⟩

theorem move_effect (h : Sound base s bs) (hd : d ∈ bs) (ha : d.alloc = true)
    (h16 : 16 ≤ asize) (hmod : asize % 8 = 0) (hgrow : d.size < asize)
    (hlt : asize + 15 < 2 ^ 32) (hok : ¬SplitsFirst s (asize + 8) d.ptr) :
    let r := match mmMalloc s asize with
      | none => none
      | some (t, newbp) =>
          if newbp = 0 then some (t, 0) else some (finish t d.ptr newbp asize d.size, newbp)
    r = some (s, 0) ∨
    ∃ s' bs' e, r = some (s', e.ptr) ∧ asize ≤ e.size ∧
      Effect allocator (Sound base) s s' bs bs' (some d) (some e) ∧
      ∀ k, k + 8 < d.size → s'.mem (e.ptr + k) = s.mem (d.ptr + k) := by
  have hagain := adjustSize_again h16 hmod hlt
  rcases h.malloc_cases (show asize ≠ 0 by omega) hlt with
    heq | ⟨s₁, bs₁, b, heq, hb, hfits, heff, hfrom⟩
  · exact .inl (by simp [heq])
  · right
    rw [hagain] at heq hfits hfrom
    have hb0 : b.ptr ≠ 0 := heff.inv.ptr_ne hb.1
    simp only [heq, hb0, if_false]
    rcases hfrom with ⟨hfind, rfl, rfl⟩ | ⟨hfind, hg, hlast⟩
    · have hbsize := h.heap.layout.getSize_hdrp hb.1
      have hbnext := h.heap.layout.nextBlkp_eq hb.1
      by_cases hsplit : asize + 8 + 16 ≤ b.size ∧ getPredecessor s₁.mem b.ptr = s₁.heapFreep
      · have hnext : b.ptr + b.size = d.ptr := by
          by_contra hne
          refine hok ⟨b.ptr, hfind, ?_⟩
          rw [if_pos hb0, hbsize, hbnext]
          exact ⟨hsplit.2, hsplit.1, hne⟩
        obtain ⟨l, r, rfl⟩ := h.next_block hb.1 hd hnext
        obtain ⟨s', bs', e, hfin, hep, hsize, heff', hbytes⟩ :=
          h.finish_heals hb.2 hsplit.1 hsplit.2 ha h16 hmod hgrow
        exact ⟨s', bs', e, by rw [hfin, hep], hsize, heff', hbytes⟩
      · obtain ⟨s', bs', e, hfin, hep, hsize, heff', hbytes⟩ :=
          h.finish_effect hb hfits (fun hs hp => hsplit ⟨hs, hp⟩) hd ha h16 hmod hgrow
        exact ⟨s', bs', e, by rw [hfin, hep], hsize, heff', hbytes⟩
    · -- the block that `extend_heap` returns is the first one, so it must not be split
      have hwhole : ¬asize + 8 + 16 ≤ b.size := by
        have hno : ¬(asize + 8 + 16 ≤ chunksize ∨ getAlloc s.mem (s.memBrk - 8) = 0) := by
          intro hsplit
          refine hok ⟨0, hfind, ?_⟩
          rw [if_neg (by simp)]
          exact ⟨hg, hsplit⟩
        simp only [not_or] at hno
        have hbs := hlast hno.2
        omega
      have hd₁ : d ∈ bs₁ := (heff.mem d ha).mpr (.inl ⟨hd, by simp⟩)
      obtain ⟨s', bs', e, hfin, hep, hsize, heff', hbytes⟩ :=
        heff.inv.finish_effect hb hfits (fun hs => absurd hs hwhole) hd₁ ha h16 hmod hgrow
      refine ⟨s', bs', e, by rw [hfin, hep], hsize, heff.after heff', fun k hk => ?_⟩
      exact (hbytes k hk).trans
        (heff.keeps d hd ha (by simp) (d.ptr + k) (by omega) (by omega))

theorem grow_effect (h : Sound base s (l ++ d :: c :: r)) (ha : d.alloc = true)
    (hc : c.alloc = false) :
    ∃ m', (let t := deleteNode s c.ptr
        let t := t.put (hdrp d.ptr) (pack (d.size + c.size) 1)
        t.put (ftrp t.mem d.ptr) (pack (d.size + c.size) 1)) = s.setMem m' ∧
      Effect allocator (Sound base) s (s.setMem m') (l ++ d :: c :: r)
        (l ++ ⟨d.ptr, d.size + c.size, true⟩ :: r) (some d)
        (some ⟨d.ptr, d.size + c.size, true⟩) ∧
      SamePayload s.mem m' d := by
  obtain ⟨hd₁, hd₂, hd₃, hd₄, hd₅⟩ := h.heap.ptr_bounds (b := d) (by simp)
  obtain ⟨hc₁, hc₂, hc₃, hc₄, -⟩ := h.heap.ptr_bounds (b := c) (by simp)
  have hdc := h.heap.layout.tiles.prev_end
  have hnd := h.heap.layout.tiles.nodup
  obtain ⟨m₁, heq₁, hheap₁, hkeep₁⟩ := h.heap.delete (b := c) ⟨by simp, hc⟩
  have hheap₁' : Heap (s.setMem m₁) (l ++ [d, c] ++ r) (FreeIn l r) := by
    have hF : ∀ e, FreeIn l r e ↔ FreeOf (l ++ d :: c :: r) e ∧ e ≠ c := fun e => by
      rw [freeOf_allocated ha, freeIn_delete_after hnd]
    simpa using hheap₁.iff hF
  obtain ⟨hheap₂, hpay₂⟩ := hheap₁'.retag (d := ⟨d.ptr, d.size + c.size, true⟩)
    (fun _ => freeIn_side) (by simp)
    ⟨rfl, hd₃, hd₄, hdc.symm, hc₃, hc₄, by simp [Nat.add_assoc]⟩
  have hpay : ∀ e, e ∈ l ∨ e ∈ r → e.alloc = true →
      SamePayload s.mem (retag m₁ d.ptr (d.ptr + (d.size + c.size))
        (pack (d.size + c.size) 1)) e := fun e hside he =>
    (hkeep₁ e (by rcases hside with h | h <;> simp [h]) he).trans (hpay₂ e hside)
  refine ⟨retag m₁ d.ptr (d.ptr + (d.size + c.size)) (pack (d.size + c.size) 1), ?_, ?_, ?_⟩
  · have htags := put_header_footer (p := d.ptr) (n := d.size + c.size) (k := 1) (s.setMem m₁)
      (by omega) (by decide) (by omega)
    rw [heq₁]
    exact htags
  · refine Effect.joined h.heap.layout.tiles ha hc
      ⟨hheap₂.iff fun e => freeOf_allocated rfl, ?_, h.start⟩ hpay
    exact noAdjacentFree_insert h.apart.left h.apart.right.tail.tail (.inl rfl)
  · refine (hkeep₁ d (by simp) ha).trans fun x hx₁ hx₂ => ?_
    exact retag_of_outside _ _ (by omega) (by omega) (by omega) (by omega)

theorem realloc_moves (h : Sound base s bs) (hd : d ∈ bs) (hn0 : n ≠ 0)
    (hgrow : d.size < adjustSize n)
    (hroom : ¬((getAlloc s.mem (hdrp (nextBlkp s.mem d.ptr)) = 0 ∨
        getSize s.mem (hdrp (nextBlkp s.mem d.ptr)) = 0) ∧
      addw d.size (getSize s.mem (hdrp (nextBlkp s.mem d.ptr))) ≥ adjustSize n)) :
    mmRealloc s d.ptr n =
      match mmMalloc s (adjustSize n) with
      | none => none
      | some (t, newbp) =>
          if newbp = 0 then some (t, 0)
          else some (finish t d.ptr newbp (adjustSize n) d.size, newbp) := by
  have hsize := h.heap.layout.getSize_hdrp hd
  unfold mmRealloc
  rw [if_neg hn0, if_neg (h.ptr_ne hd)]
  simp only [hsize, if_neg (Nat.not_le.mpr hgrow), if_neg hroom]
  rfl

theorem realloc_effect (h : Sound base s bs) (hd : d ∈ bs) (ha : d.alloc = true)
    (hn : n + 23 < 2 ^ 32) (hn0 : n ≠ 0) (hok : ¬Forgets s d.ptr n) :
    mmRealloc s d.ptr n = some (s, 0) ∨
    ∃ s' bs' e, mmRealloc s d.ptr n = some (s', e.ptr) ∧ n + 8 ≤ e.size ∧
      Effect allocator (Sound base) s s' bs bs' (some d) (some e) ∧
      ∀ k < n, k + 8 < d.size → s'.mem (e.ptr + k) = s.mem (d.ptr + k) := by
  obtain ⟨h16, hmod, hge, -⟩ := adjustSize_bounds (n := n) (by omega)
  have hlt := adjustSize_add_lt hn
  have hagain := adjustSize_again h16 hmod hlt
  obtain ⟨hd₁, hd₂, -, -, hd₅⟩ := h.heap.ptr_bounds hd
  have hsize := h.heap.layout.getSize_hdrp hd
  have hd0 := h.ptr_ne hd
  by_cases hfit : d.size ≥ adjustSize n
  · right
    refine ⟨s, bs, d, ?_, by omega, Effect.same h hd ha, fun _ _ _ => rfl⟩
    unfold mmRealloc
    simp [hd0, hn0, hsize, hfit]
  · have hmove : ¬((getAlloc s.mem (hdrp (nextBlkp s.mem d.ptr)) = 0 ∨
          getSize s.mem (hdrp (nextBlkp s.mem d.ptr)) = 0) ∧
        addw d.size (getSize s.mem (hdrp (nextBlkp s.mem d.ptr))) ≥ adjustSize n) →
        mmRealloc s d.ptr n = some (s, 0) ∨
        ∃ s' bs' e, mmRealloc s d.ptr n = some (s', e.ptr) ∧ n + 8 ≤ e.size ∧
          Effect allocator (Sound base) s s' bs bs' (some d) (some e) ∧
          ∀ k < n, k + 8 < d.size → s'.mem (e.ptr + k) = s.mem (d.ptr + k) := by
      intro hroom
      have hsplit : ¬SplitsFirst s (adjustSize n + 8) d.ptr := by
        intro hs
        refine hok ⟨⟨hn0, hd0, by omega, by rw [hsize]; exact hroom⟩, ?_⟩
        rw [hagain]
        exact hs
      have hmoved := h.move_effect hd ha h16 hmod (by omega) hlt hsplit
      rw [h.realloc_moves hd hn0 (Nat.lt_of_not_le hfit) hroom]
      rcases hmoved with hfail | ⟨s', bs', e, hs', hsize', heff, hbytes⟩
      · exact .inl hfail
      · exact .inr ⟨s', bs', e, hs', by omega, heff, fun k _ hk => hbytes k hk⟩
    obtain ⟨l, r, rfl⟩ := List.append_of_mem hd
    rcases Layout.startsAllocated_or r with hr | ⟨c, r, rfl, hc⟩
    · exact hmove (h.heap.layout.no_room hr (by omega))
    · have hnext : nextBlkp s.mem d.ptr = c.ptr := h.heap.layout.nextBlkp_cons
      have hcsize := h.heap.layout.getSize_hdrp (b := c) (by simp)
      have hcalloc := h.heap.layout.getAlloc_hdrp (b := c) (by simp)
      have hdc := h.heap.layout.tiles.prev_end
      obtain ⟨-, hc₂, -, -, -⟩ := h.heap.ptr_bounds (b := c) (by simp)
      have hadd := addw_eq (show d.size + c.size < 2 ^ 32 by omega)
      by_cases hroom : d.size + c.size ≥ adjustSize n
      · obtain ⟨m', heq, heff, hkeep⟩ := h.grow_effect ha hc
        right
        refine ⟨s.setMem m', _, ⟨d.ptr, d.size + c.size, true⟩, ?_, hge.trans hroom, heff,
          fun k _ hk => hkeep _ (by simp) (by simp; omega)⟩
        simp only at heq
        unfold mmRealloc
        simp only [hn0, hd0, if_false, hsize, if_neg hfit, hnext, hcsize, hcalloc, hc,
          Bool.toNat_false, true_or, true_and, hadd, if_pos hroom, heq]
      · refine hmove ?_
        rw [hnext, hcsize, hadd]
        exact fun hboth => hroom hboth.2

end Sound

theorem refines (base : Nat) : Refines allocator (Sound base) Keeps base where
  start h := h.start
  tiles {s bs} h := by
    refine ⟨s.heapListp + 8, h.heap.layout.tiles, ?_, ?_⟩
    · have := h.heap.base
      have := h.start
      omega
    · have := h.heap.base
      have := h.start
      omega
  write x v h hd ha h₁ h₂ := ⟨h.of_payload hd ha (payloadOnly_poke _ v h₁ h₂), rfl⟩
  malloc {s bs n} h hn _ := by
    rcases h.malloc_effect (show n + 15 < 2 ^ 32 by omega) with heq | hout
    · exact .inl ⟨s, heq, Effect.refl h⟩
    · exact .inr hout
  free h hd ha _ := by
    obtain ⟨bs', heff⟩ := h.free_effect hd ha
    exact ⟨_, bs', rfl, heff⟩
  realloc_zero {s bs d} h hd ha _ := by
    obtain ⟨bs', heff⟩ := h.free_effect hd ha
    refine ⟨mmFree s d.ptr, bs', ?_, heff⟩
    show mmRealloc s d.ptr 0 = _
    simp [mmRealloc]
  realloc {s bs d n} h hd ha hn hn0 hok := by
    rcases h.realloc_effect hd ha (show n + 23 < 2 ^ 32 by omega) hn0 hok with heq | hout
    · exact .inl ⟨s, heq, Effect.refl h⟩
    · exact .inr hout

end CsappLabs.Malloc.Explicit
