import CsappLabs.Malloc.Client
import CsappLabs.Malloc.Merging
import CsappLabs.Malloc.Segregated.Place

/-!
# `mm_malloc`, `mm_free` and `mm_realloc`

Each of the three calls keeps `Sound`, the invariant between two calls, and
its effect on the blocks is the one that a client may rely on.
-/

namespace CsappLabs.Malloc.Segregated

open CsappLabs.Foundation

structure Sound (base : Nat) (s : State) (bs : List Block) : Prop where
  heap : Heap s bs (FreeOf bs)
  apart : NoAdjacentFree bs
  start : s.memStartBrk = base

def State.clientWrite (s : State) (p : Nat) (v : UInt8) : State :=
  { s with toMemlib := s.toMemlib.clientWrite p v }

def allocator : Allocator State where
  memlib := State.toMemlib
  clientWrite := State.clientWrite
  mmMalloc := mmMalloc
  mmFree := mmFree
  mmRealloc := mmRealloc

variable {s s' : State} {F : Block → Prop} {a b c d e : Block} {bs l r xs : List Block}
  {m m' : Mem} {n p asize base : Nat}

/-! ## The search -/

theorem walkFit_spec (asize : Nat) {prev f last : Nat} {xs : List Nat}
    (h : Linked (getSuccessor s.mem) (getPredecessor s.mem) prev f xs last 0) (fuel : Nat)
    (hfuel : xs.length < fuel) :
    ∃ q, walkFit s asize fuel f = some q ∧
      (q = 0 ∨ q ∈ xs ∧ asize ≤ getSize s.mem (hdrp q)) := by
  induction xs generalizing prev f fuel with
  | nil =>
      obtain ⟨fuel, rfl⟩ := Nat.exists_eq_add_of_lt hfuel
      refine ⟨0, ?_, .inl rfl⟩
      simp [walkFit, h.1]
  | cons x xs ih =>
      obtain ⟨rfl, -, htail⟩ := h
      cases fuel with
      | zero => simp at hfuel
      | succ fuel =>
          by_cases hx : f ≠ 0 ∧ getSize s.mem (hdrp f) < asize
          · obtain ⟨q, hq, hfit⟩ := ih htail fuel (by simpa using hfuel)
            refine ⟨q, by rw [walkFit, if_pos hx]; exact hq, ?_⟩
            rcases hfit with hq0 | ⟨hmem, hle⟩
            · exact .inl hq0
            · exact .inr ⟨by simp [hmem], hle⟩
          · refine ⟨f, by rw [walkFit, if_neg hx], ?_⟩
            by_cases hf : f = 0
            · exact .inl hf
            · exact .inr ⟨by simp, by omega⟩

theorem walkFit_list (asize : Nat) (h : Heap s bs (FreeOf bs)) {i : Nat} (hi : i < 16) :
    ∃ q, walkFit s asize walkFuel (s.selectSegEntry i) = some q ∧
      (q = 0 ∨ ∃ b, FreeOf bs b ∧ b.ptr = q ∧ asize ≤ b.size) := by
  obtain ⟨xs, l, hlink, hnd, hmem⟩ := h.lists i hi
  have hnode : ∀ x ∈ xs, x ≠ 0 ∧ x < 2 ^ 32 := by
    intro x hx
    have hn := ((hmem x).mp hx).node
    have h₁ := h.nodes.node_ge hn
    have h₂ := h.nodes.node_le hn
    have h₃ := h.nodes.brk_lt
    exact ⟨by omega, by omega⟩
  have hlen : xs.length < walkFuel :=
    length_lt_of_nodup hnd (fun h0 => (hnode 0 h0).1 rfl) (fun x hx => (hnode x hx).2)
      (by decide)
  obtain ⟨q, hq, hfit⟩ := walkFit_spec asize hlink walkFuel hlen
  refine ⟨q, hq, ?_⟩
  rcases hfit with hq0 | ⟨hqx, hle⟩
  · exact .inl hq0
  · obtain ⟨b, hb, rfl, -⟩ := (hmem q).mp hqx
    rw [h.layout.getSize_hdrp hb.1] at hle
    exact .inr ⟨b, hb, rfl, hle⟩

theorem searchFit_spec (asize : Nat) (h : Heap s bs (FreeOf bs)) (k : Nat) (hk : k ≤ 16)
    (searchSize : Nat) :
    ∃ q, searchFit s asize k searchSize = some q ∧
      (q = 0 ∨ ∃ b, FreeOf bs b ∧ b.ptr = q ∧ asize ≤ b.size) := by
  induction k generalizing searchSize with
  | zero => exact ⟨0, rfl, .inl rfl⟩
  | succ k ih =>
      have hih := ih (by omega) (searchSize >>> 1)
      unfold searchFit
      simp only []
      split
      · obtain ⟨q, hq, hfit⟩ := walkFit_list asize h
          (i := maxSegEntry - (k + 1)) (by unfold maxSegEntry; omega)
        rw [hq]
        by_cases hq0 : q = 0
        · simpa [hq0] using hih
        · exact ⟨q, by simp [hq0], hfit⟩
      · exact hih

/-! ## `mm_malloc` -/

namespace Sound

theorem heapListp_ne (h : Sound base s bs) : s.heapListp ≠ 0 := by
  have := h.heap.base
  omega

theorem initIfNeeded_eq (h : Sound base s bs) : initIfNeeded s = some s :=
  if_neg h.heapListp_ne

theorem of_merged (h : Merged s m' bs l) (ha : NoAdjacentFree bs)
    (hs : s.memStartBrk = base) : Sound base (s.setMem m') bs :=
  ⟨h.heap, ha, hs⟩

theorem place_effect (h : Sound base s bs) (hb : FreeOf bs b) (hle : asize ≤ b.size)
    (h16 : 16 ≤ asize) (hmod : asize % 8 = 0) :
    ∃ s' bs' d, place s b.ptr asize = some (s', d.ptr) ∧ s.Grown s' ∧ asize ≤ d.size ∧
      Effect allocator (Sound base) s s' bs bs' none (some d) ∧
      ∀ i < 16, s'.lists i = cutIn b asize i (s.lists i) := by
  obtain ⟨m', bs', d, heq, hplaced, hlists⟩ := place_spec h.heap h.apart hb hle h16 hmod
  exact ⟨s.setMem m', bs', d, heq, .setMem s m', hplaced.size,
    hplaced.gains.effect (of_merged hplaced.merged hplaced.apart h.start) hplaced.merged.keeps,
    hlists⟩

theorem extend_effect (h : Sound base s bs) (h16 : 16 ≤ asize) (hmod : asize % 8 = 0)
    (hlt : asize < 2 ^ 32) :
    ¬s.Granted (max asize chunksize) ∧
      extendHeap s (max asize chunksize / 4) = some (s, 0) ∨
    s.Granted (max asize chunksize) ∧
      ∃ s' bs' b, extendHeap s (max asize chunksize / 4) = some (s', b.ptr) ∧ s.Grown s' ∧
        FreeOf bs' b ∧ asize ≤ b.size ∧ Effect allocator (Sound base) s s' bs bs' none none ∧
        b = mergedBlock bs ⟨s.memBrk, max asize chunksize, false⟩ [] ∧ PutSecond s s' b := by
  have hsize := extendSize_chunk hmod hlt
  rw [← chunksize] at hsize
  by_cases hg : s.Granted (max asize chunksize)
  · right
    obtain ⟨m', heq, hmerged, hput⟩ := extendHeap_spec h.heap (by rw [hsize]; omega)
      (by rw [hsize]; unfold chunksize; omega) (by rw [hsize]; exact hg)
    refine ⟨hg, _, coalesceBlocks bs ⟨s.memBrk, extendSize (max asize chunksize / 4), false⟩ [],
      mergedBlock bs ⟨s.memBrk, extendSize (max asize chunksize / 4), false⟩ [], heq,
      ⟨_, m', rfl⟩, ⟨by simp [coalesceBlocks], rfl⟩, ?_, ?_, by rw [hsize], hput⟩
    · simp only [mergedBlock, hsize]
      omega
    · refine SameAllocated.effect (fun c hc => ?_) ?_ hmerged.keeps
      · simp [mem_coalesceBlocks hc]
      · exact ⟨hmerged.heap,
          coalesceBlocks_noAdjacentFree h.apart noAdjacentFree_nil, h.start⟩
  · exact .inl ⟨hg, extendHeap_refused (by rw [hsize]; unfold chunksize; omega)
      (by rw [hsize]; exact hg)⟩

theorem malloc_effect (h : Sound base s bs) (hn : n + 15 < 2 ^ 32) :
    mmMalloc s n = some (s, 0) ∨
    ∃ s' bs' d, mmMalloc s n = some (s', d.ptr) ∧ s.Grown s' ∧ n + 8 ≤ d.size ∧
      Effect allocator (Sound base) s s' bs bs' none (some d) := by
  by_cases hn0 : n = 0
  · left
    simp [mmMalloc, h.initIfNeeded_eq, hn0]
  · obtain ⟨h16, hmod, hge, -⟩ := adjustSize_bounds hn
    obtain ⟨q, hq, hfit⟩ := searchFit_spec (adjustSize n) h.heap maxSegEntry
      (by decide) (adjustSize n)
    unfold mmMalloc
    simp only [h.initIfNeeded_eq, hn0, if_false, hq]
    by_cases hq0 : q = 0
    · simp only [hq0, ne_eq, not_true, if_false]
      rcases h.extend_effect h16 hmod (adjustSize_lt_word n) with
        ⟨-, heq⟩ | ⟨-, s₁, bs₁, b, heq, hgrown, hb, hfits, heff, -⟩
      · left
        simp [heq]
      · obtain ⟨s', bs', d, heq', hgrown', hsize, heff', -⟩ :=
          place_effect heff.inv hb hfits h16 hmod
        have hb0 : b.ptr ≠ 0 := by
          have := (heff.inv.heap.ptr_bounds hb.1).1
          have := heff.inv.heap.start
          omega
        right
        exact ⟨s', bs', d, by simp [heq, hb0, heq'], hgrown.trans hgrown', hge.trans hsize,
          heff.after heff'⟩
    · obtain ⟨b, hb, rfl, hfits⟩ := hfit.resolve_left hq0
      obtain ⟨s', bs', d, heq, hgrown, hsize, heff, -⟩ := h.place_effect hb hfits h16 hmod
      right
      exact ⟨s', bs', d, by simp [hq0, heq], hgrown, hge.trans hsize, heff⟩

/-! ## `mm_free` -/

theorem free_blocks (h : Sound base s bs) (hd : d ∈ bs) (ha : d.alloc = true) :
    ∃ s', mmFree s d.ptr = some s' ∧ s.Grown s' ∧
      Effect allocator (Sound base) s s' bs (merge (release [d.ptr] bs)) (some d) none ∧
      ∃ l r, bs = l ++ d :: r ∧ PutSecond s s' (mergedBlock l d r) := by
  obtain ⟨l, r, rfl⟩ := List.append_of_mem hd
  obtain ⟨hd₁, hd₂, hd₃, hd₄, hd₅⟩ := h.heap.ptr_bounds hd
  have hsize := h.heap.layout.getSize_hdrp hd
  have hheap : Heap s (l ++ [d] ++ r) (FreeIn l r) := by
    have := h.heap.iff fun c => (freeOf_allocated (l := l) (r := r) (c := c) ha).symm
    simpa using this
  obtain ⟨hheap₁, hpay₁, hlists₁⟩ := hheap.retag (d := ⟨d.ptr, d.size, false⟩)
    (fun _ => freeIn_side) (by simp) ⟨rfl, hd₃, hd₄, rfl⟩
  obtain ⟨m', heq, hmerged, hput⟩ := coalesce_spec hheap₁ rfl
  rw [release_middle h.heap.layout.tiles,
    ← coalesceBlocks_eq_merge h.apart.left h.apart.right.tail rfl]
  refine ⟨s.setMem m', ?_, .setMem s m', ?_, l, r, rfl, hput.of_same hlists₁⟩
  · have htags := put_header_footer (s := s) (p := d.ptr) (n := d.size) (k := 0) s.mem
      (by omega) hd₂ hd₃ hd₄ (by decide) hd₅
    simp only [State.setMem_self] at htags
    have hd0 : d.ptr ≠ 0 := by omega
    unfold mmFree
    simp only [hd0, if_false, h.initIfNeeded_eq, hsize, htags]
    have heq' : coalesce (s.setMem (retag s.mem d.ptr (d.ptr + d.size) (pack d.size 0))) d.ptr =
        some (s.setMem m', (mergedBlock l ⟨d.ptr, d.size, false⟩ r).ptr) := heq
    rw [heq']
    rfl
  · refine (loses_coalesce h.heap.layout.tiles ha).effect ?_ ?_
    · exact ⟨hmerged.heap, coalesceBlocks_noAdjacentFree h.apart.left h.apart.right.tail,
        h.start⟩
    · intro c hc hca hne
      have hside : c ∈ l ∨ c ∈ r := by
        simp only [List.mem_append, List.mem_cons] at hc
        rcases hc with hc | hc | hc
        · exact .inl hc
        · exact absurd hc hne
        · exact .inr hc
      exact (hpay₁ c hside).trans (hmerged.keeps c (List.mem_append.mpr hside) hca)

theorem free_effect (h : Sound base s bs) (hd : d ∈ bs) (ha : d.alloc = true) :
    ∃ s' bs', mmFree s d.ptr = some s' ∧ s.Grown s' ∧
      Effect allocator (Sound base) s s' bs bs' (some d) none := by
  obtain ⟨s', heq, hgrown, heff, -⟩ := h.free_blocks hd ha
  exact ⟨s', _, heq, hgrown, heff⟩

/-! ## `mm_realloc` -/

theorem of_payload (h : Sound base s bs) (hd : d ∈ bs) (ha : d.alloc = true)
    (hm : PayloadOnly d s.mem m') : Sound base (s.setMem m') bs :=
  ⟨(h.heap.of_payload hd ha hm).1, h.apart, h.start⟩

theorem grow_effect (h : Sound base s (l ++ d :: c :: r)) (ha : d.alloc = true)
    (hc : c.alloc = false) :
    ∃ m', (let t := deleteNode s c.ptr
        let t := t.put (hdrp d.ptr) (pack (d.size + c.size) 1)
        t.put (ftrp t.mem d.ptr) (pack (d.size + c.size) 1)) = s.setMem m' ∧
      Effect allocator (Sound base) s (s.setMem m') (l ++ d :: c :: r)
        (l ++ ⟨d.ptr, d.size + c.size, true⟩ :: r) (some d)
        (some ⟨d.ptr, d.size + c.size, true⟩) ∧
      SamePayload s.mem m' d ∧
      ∀ i < 16, (s.setMem m').lists i = (s.lists i).filter (·.ptr ≠ c.ptr) := by
  obtain ⟨hd₁, hd₂, hd₃, hd₄, hd₅⟩ := h.heap.ptr_bounds (b := d) (by simp)
  obtain ⟨hc₁, hc₂, hc₃, hc₄, -⟩ := h.heap.ptr_bounds (b := c) (by simp)
  have hdc := h.heap.layout.tiles.prev_end
  have hnd := h.heap.layout.tiles.nodup
  obtain ⟨m₁, heq₁, hheap₁, hkeep₁, hlists₁⟩ := h.heap.delete (b := c) ⟨by simp, hc⟩
  have hheap₁' : Heap (s.setMem m₁) (l ++ [d, c] ++ r) (FreeIn l r) := by
    have hF : ∀ e, FreeIn l r e ↔ FreeOf (l ++ d :: c :: r) e ∧ e ≠ c := fun e => by
      rw [freeOf_allocated ha, freeIn_delete_after hnd]
    simpa using hheap₁.iff hF
  obtain ⟨hheap₂, hpay₂, hlists₂⟩ := hheap₁'.retag (d := ⟨d.ptr, d.size + c.size, true⟩)
    (fun _ => freeIn_side) (by simp)
    ⟨rfl, hd₃, hd₄, hdc.symm, hc₃, hc₄, by simp [Nat.add_assoc]⟩
  have hpay : ∀ e, e.alloc = true → e ∈ l ∨ e ∈ r →
      SamePayload s.mem (retag m₁ d.ptr (d.ptr + (d.size + c.size))
        (pack (d.size + c.size) 1)) e := fun e he hside =>
    (hkeep₁ e (by rcases hside with h | h <;> simp [h]) he).trans (hpay₂ e hside)
  refine ⟨retag m₁ d.ptr (d.ptr + (d.size + c.size)) (pack (d.size + c.size) 1), ?_, ?_, ?_,
    fun i hi => (hlists₂ i hi).trans (hlists₁ i hi)⟩
  · have htags := put_header_footer (s := s) (p := d.ptr) (n := d.size + c.size) (k := 1) m₁
      (by omega) (by omega) (by omega) (by omega) (by decide) hd₅
    rw [heq₁]
    exact htags
  · refine Effect.joined h.heap.layout.tiles ha hc
      ⟨hheap₂.iff fun e => freeOf_allocated rfl, ?_, h.start⟩ fun e he hea => hpay e hea he
    exact noAdjacentFree_insert h.apart.left h.apart.right.tail.tail (.inl rfl)
  · refine (hkeep₁ d (by simp) ha).trans fun x hx₁ hx₂ => ?_
    exact retag_of_outside _ _ (by omega) (by omega) (by omega) (by omega)

theorem memcpy_sound (h : Sound base s bs) (p : Nat) (he : e ∈ bs) (hea : e.alloc = true)
    (hn : n + 8 ≤ e.size) :
    s.memcpy e.ptr p n = s.setMem (copy s.mem e.ptr p n) ∧
      Sound base (s.setMem (copy s.mem e.ptr p n)) bs ∧
      SameLists s (s.setMem (copy s.mem e.ptr p n)) := by
  obtain ⟨he₁, he₂, -, -, -⟩ := h.heap.ptr_bounds he
  have hin : s.InHeap e.ptr n := ⟨by omega, by omega⟩
  have hcopy := payloadOnly_copy s.mem p hn
  exact ⟨by simp [State.memcpy, Memlib.memcpy, State.setMem, hin], h.of_payload he hea hcopy,
    (h.heap.of_payload he hea hcopy).2⟩

theorem move_effect (h : Sound base s bs) (asize : Nat) (hd : d ∈ bs) (ha : d.alloc = true)
    (hgrow : d.size < asize) (hlt : asize + 15 < 2 ^ 32) :
    let r := match mmMalloc s asize with
      | none => none
      | some (t, newBlock) =>
          if newBlock = 0 then some (t, 0)
          else (mmFree (t.memcpy newBlock d.ptr (min asize d.size)) d.ptr).map
            fun t => (t, newBlock)
    r = some (s, 0) ∨
    ∃ s' bs' e, r = some (s', e.ptr) ∧ s.Grown s' ∧ asize + 8 ≤ e.size ∧
      Effect allocator (Sound base) s s' bs bs' (some d) (some e) ∧
      ∀ k, k + 8 < d.size → s'.mem (e.ptr + k) = s.mem (d.ptr + k) := by
  rcases h.malloc_effect hlt with heq | ⟨s₁, bs₁, e, heq, hgrown, hsize, heff⟩
  · exact .inl (by simp [heq])
  · right
    have hmem : e ∈ bs₁ := (heff.mem e (heff.new_alloc e rfl)).mpr (.inr rfl)
    have hea : e.alloc = true := heff.new_alloc e rfl
    have hd₁ : d ∈ bs₁ := (heff.mem d ha).mpr (.inl ⟨hd, by simp⟩)
    obtain ⟨he₁, he₂, -, -, -⟩ := heff.inv.heap.ptr_bounds hmem
    have hmin : min asize d.size = d.size := by omega
    obtain ⟨hmemcpy, hsound, -⟩ :=
      heff.inv.memcpy_sound d.ptr hmem hea (show d.size + 8 ≤ e.size by omega)
    obtain ⟨s₃, bs₃, heq₃, hgrown₃, heff₃⟩ := hsound.free_effect hd₁ ha
    have he0 : e.ptr ≠ 0 := by omega
    obtain ⟨hmoved, hbytes⟩ :=
      heff.moved heff.inv.heap.layout.tiles hd ha rfl (by omega) heff₃
    exact ⟨s₃, bs₃, e, by simp [heq, he0, hmin, hmemcpy, heq₃],
      (hgrown.trans (.setMem s₁ _)).trans hgrown₃, hsize, hmoved, fun k hk => hbytes k (by omega) hk⟩

theorem realloc_effect (h : Sound base s bs) (hd : d ∈ bs) (ha : d.alloc = true)
    (hn : n + 23 < 2 ^ 32) (hn0 : n ≠ 0) :
    mmRealloc s d.ptr n = some (s, 0) ∨
    ∃ s' bs' e, mmRealloc s d.ptr n = some (s', e.ptr) ∧ s.Grown s' ∧ n + 8 ≤ e.size ∧
      Effect allocator (Sound base) s s' bs bs' (some d) (some e) ∧
      ∀ k < n, k + 8 < d.size → s'.mem (e.ptr + k) = s.mem (d.ptr + k) := by
  obtain ⟨h16, hmod, hge, -⟩ := adjustSize_bounds (n := n) (by omega)
  have hagain := adjustSize_add_lt hn
  obtain ⟨hd₁, hd₂, -, -, hd₅⟩ := h.heap.ptr_bounds hd
  have hsize := h.heap.layout.getSize_hdrp hd
  have hd0 : d.ptr ≠ 0 := by omega
  unfold mmRealloc
  simp only [hd0, hn0, if_false, hsize]
  by_cases hfit : d.size ≥ adjustSize n
  · right
    exact ⟨s, bs, d, by simp [hfit], .refl s, by omega, Effect.same h hd ha, fun _ _ _ => rfl⟩
  · obtain ⟨l, r, rfl⟩ := List.append_of_mem hd
    simp only [if_neg hfit]
    rcases Layout.startsAllocated_or r with hr | ⟨c, r, rfl, hc⟩
    · rw [if_neg (h.heap.layout.no_room hr (by omega))]
      rcases h.move_effect (adjustSize n) hd ha (by omega) (by omega) with
        heq | ⟨s', bs', e, heq, hgrown, hsize', heff, hbytes⟩
      · exact .inl heq
      · exact .inr ⟨s', bs', e, heq, hgrown, by omega, heff, fun k _ hk => hbytes k hk⟩
    · have hnext : nextBlkp s.mem d.ptr = c.ptr := h.heap.layout.nextBlkp_cons
      have hcsize := h.heap.layout.getSize_hdrp (b := c) (by simp)
      have hcalloc := h.heap.layout.getAlloc_hdrp (b := c) (by simp)
      have hdc := h.heap.layout.tiles.prev_end
      obtain ⟨-, hc₂, -, -, -⟩ := h.heap.ptr_bounds (b := c) (by simp)
      simp only [hnext, hcsize, hcalloc, hc, Bool.toNat_false, true_or, true_and,
        addw_eq (show d.size + c.size < 2 ^ 32 by omega)]
      by_cases hroom : d.size + c.size ≥ adjustSize n
      · obtain ⟨m', heq, heff, hkeep, -⟩ := h.grow_effect ha hc
        right
        refine ⟨s.setMem m', _, ⟨d.ptr, d.size + c.size, true⟩, ?_, .setMem s m',
          hge.trans hroom, heff, fun k _ hk => hkeep _ (by simp) (by simp; omega)⟩
        rw [if_pos hroom]
        simp only at heq
        rw [heq]
      · simp only [if_neg hroom]
        rcases h.move_effect (adjustSize n) hd ha (by omega) (by omega) with
          heq | ⟨s', bs', e, heq, hgrown, hsize', heff, hbytes⟩
        · exact .inl heq
        · exact .inr ⟨s', bs', e, heq, hgrown, by omega, heff, fun k _ hk => hbytes k hk⟩

theorem realloc_zero (h : Sound base s bs) (hd : d ∈ bs) (heq : mmFree s d.ptr = some s') :
    mmRealloc s d.ptr 0 = some (s', 0) := by
  have hd0 : d.ptr ≠ 0 := by
    have := (h.heap.ptr_bounds hd).1
    omega
  simp [mmRealloc, hd0, heq]

end Sound

theorem refines (base : Nat) :
    Refines allocator (Sound base) (fun _ _ => True) base where
  start h := h.start
  tiles {s bs} h := by
    refine ⟨s.heapListp + 8, h.heap.layout.tiles, ?_, ?_⟩
    · have := h.heap.base
      have := h.start
      omega
    · have := h.heap.base
      have := h.start
      omega
  write x v h hd ha h₁ h₂ := ⟨h.of_payload hd ha (payloadOnly_poke _ v h₁ h₂), rfl⟩
  malloc {s bs n} h hn _ := by
    rcases h.malloc_effect (show n + 15 < 2 ^ 32 by omega) with
      heq | ⟨s', bs', d, heq, -, hsize, heff⟩
    · exact .inl ⟨s, heq, Effect.refl h⟩
    · exact .inr ⟨s', bs', d, heq, hsize, heff⟩
  free h hd ha _ := by
    obtain ⟨s', bs', heq, -, heff⟩ := h.free_effect hd ha
    exact ⟨s', bs', heq, heff⟩
  realloc_zero h hd ha _ := by
    obtain ⟨s', bs', heq, -, heff⟩ := h.free_effect hd ha
    exact ⟨s', bs', h.realloc_zero hd heq, heff⟩
  realloc {s bs d n} h hd ha hn hn0 _ := by
    rcases h.realloc_effect hd ha (show n + 23 < 2 ^ 32 by omega) hn0 with
      heq | ⟨s', bs', e, heq, -, hout⟩
    · exact .inl ⟨s, heq, Effect.refl h⟩
    · exact .inr ⟨s', bs', e, heq, hout⟩

theorem exec_grown {w w' : World State} {call : Call} (h : Consistent (Sound base) w bs)
    (hv : w.Valid call) (he : w.exec allocator call = some w') : w.heap.Grown w'.heap := by
  have hfree : ∀ {d s'}, d ∈ bs → d.alloc = true → mmFree w.heap d.ptr = some s' →
      w.heap.Grown s' := by
    intro d s' hd ha heq
    obtain ⟨t, bs', heq', hgrown, -⟩ := h.inv.free_effect hd ha
    obtain rfl : s' = t := Option.some.inj (heq.symm.trans heq')
    exact hgrown
  cases call with
  | malloc n =>
      have hn : n < 2 ^ 31 := hv
      obtain ⟨⟨s', p⟩, heq, rfl⟩ := Option.map_eq_some_iff.mp he
      rcases h.inv.malloc_effect (show n + 15 < 2 ^ 32 by omega) with
        heq' | ⟨t, bs', d, heq', hgrown, -⟩
      · obtain ⟨rfl, rfl⟩ := Prod.mk.inj (Option.some.inj (heq.symm.trans heq'))
        exact .refl _
      · obtain ⟨rfl, rfl⟩ := Prod.mk.inj (Option.some.inj (heq.symm.trans heq'))
        exact hgrown
  | free p =>
      obtain ⟨r, hr, rfl⟩ := hv
      obtain ⟨d, hd, ha, hp, -⟩ := h.held r hr
      obtain ⟨s', heq, rfl⟩ := Option.map_eq_some_iff.mp he
      exact hfree hd ha (by rw [hp]; exact heq)
  | realloc p n =>
      obtain ⟨hn, r, hr, rfl⟩ := hv
      obtain ⟨d, hd, ha, hp, -⟩ := h.held r hr
      obtain ⟨⟨s', q⟩, heq, rfl⟩ := Option.map_eq_some_iff.mp he
      have heq₁ : mmRealloc w.heap d.ptr n = some (s', q) := by
        rw [hp]
        exact heq
      by_cases hn0 : n = 0
      · subst hn0
        obtain ⟨t, bs', hfreed, -⟩ := h.inv.free_effect hd ha
        obtain ⟨rfl, -⟩ :=
          Prod.mk.inj (Option.some.inj (heq₁.symm.trans (h.inv.realloc_zero hd hfreed)))
        exact hfree hd ha hfreed
      · rcases h.inv.realloc_effect hd ha (show n + 23 < 2 ^ 32 by omega) hn0 with
          heq' | ⟨t, bs', e, heq', hgrown, -⟩
        · obtain ⟨rfl, -⟩ := Prod.mk.inj (Option.some.inj (heq₁.symm.trans heq'))
          exact .refl _
        · obtain ⟨rfl, -⟩ := Prod.mk.inj (Option.some.inj (heq₁.symm.trans heq'))
          exact hgrown
  | write p k v =>
      obtain rfl := Option.some.inj he
      exact .setMem _ _

end CsappLabs.Malloc.Segregated
