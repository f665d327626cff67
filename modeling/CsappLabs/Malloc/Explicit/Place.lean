import CsappLabs.Malloc.Explicit.Coalesce

/-!
# `place`, once and twice

`place` hands out the front of a free block and puts what is left over into
the list.  A moving `mm_realloc` places the new block a second time, after
`mm_malloc` has placed it.  The second `delete_node` follows the links that the
block had in the list: it changes nothing, unless the block was the first one
and its rest has been put there instead.
-/

namespace CsappLabs.Malloc.Explicit

open CsappLabs.Foundation

variable {s : State} {F : Block → Prop} {b c d e : Block} {bs l r xs : List Block}
  {m m' : Mem} {n p asize : Nat}

/-- What `place` leaves after `delete_node`: the block `b` is handed out, the
list holds all free blocks, and the links of `b` still point past it unless
the rest of `b` has come between. -/
structure Carved (s : State) (m' : Mem) (l : List Block) (b : Block) (r : List Block)
    (asize : Nat) : Prop where
  heap : Heap (s.setMem m') (l ++ placed b asize :: (leftover b asize ++ r))
    (FreeOf (l ++ placed b asize :: (leftover b asize ++ r)))
  keeps : ∀ c, c ∈ l ∨ c ∈ r → c.alloc = true → SamePayload s.mem m' c
  successor : getSuccessor m' b.ptr = getSuccessor s.mem b.ptr
  predecessor : getPredecessor m' b.ptr = getPredecessor s.mem b.ptr
  bypassed : Bypassed s (FreeIn l r) s.mem b.ptr →
    (asize + 16 ≤ b.size → getPredecessor s.mem b.ptr ≠ s.heapFreep) →
    Bypassed s (FreeIn l r) m' b.ptr
  first : Bypassed s (FreeIn l r) s.mem b.ptr → asize + 16 ≤ b.size →
    getPredecessor s.mem b.ptr = s.heapFreep →
    getSuccessor m' (b.ptr + asize) = getSuccessor s.mem b.ptr ∧
      getPredecessor m' (b.ptr + asize) = getPredecessor s.mem b.ptr

theorem node_ne_fresh (hs : Nodes s (fun c => F c ∨ c = d)) (hfresh : ¬F d)
    (hp : LinkNode s F p) : p ≠ d.ptr := by
  rcases hp with ⟨c, hc, rfl⟩ | rfl | rfl
  · exact fun e => hfresh (hs.ptr_injective (.inl hc) (.inr rfl) e ▸ hc)
  · exact fun e => hs.head_not_node ⟨d, .inr rfl, e.symm⟩
  · exact fun e => hs.tail_not_node ⟨d, .inr rfl, e.symm⟩

/-- Links past `p` that start at a node stay when another block comes first. -/
theorem LinkedFirst.bypassed (h : LinkedFirst s (fun c => F c ∨ c = d) m' d.ptr)
    (hs : Nodes s (fun c => F c ∨ c = d)) (hl : FreeList s s.mem F) (hfresh : ¬F d)
    (hby : Bypassed s F s.mem p) (hne : getPredecessor s.mem p ≠ s.heapFreep)
    (hsucc : getSuccessor m' p = getSuccessor s.mem p)
    (hpred : getPredecessor m' p = getPredecessor s.mem p) : Bypassed s F m' p := by
  have hnode : ∀ u, LinkNode s F u → LinkNode s (fun c => F c ∨ c = d) u :=
    fun u hu => hu.mono fun c hc => .inl hc
  refine ⟨by rw [hpred]; exact hby.predecessor, by rw [hsucc]; exact hby.successor, ?_, ?_⟩
  · rw [hpred, hsucc, h.succ _ (hnode _ hby.predecessor),
      if_neg (node_ne_fresh hs hfresh hby.predecessor), if_neg hne]
    exact hby.forth
  · -- the sentinel is in front of the first node, and not in front of this one
    have hne' : getSuccessor s.mem p ≠ getSuccessor s.mem s.heapFreep := by
      intro e
      have hback := hby.back
      rw [e, hl.first.2] at hback
      exact hne hback.symm
    rw [hpred, hsucc, h.pred _ (hnode _ hby.successor), if_neg hne',
      if_neg (node_ne_fresh hs hfresh hby.successor)]
    exact hby.back

/-- Links past `p` that start at the sentinel become those of the new first block. -/
theorem LinkedFirst.takes (h : LinkedFirst s (fun c => F c ∨ c = d) m' d.ptr)
    (hs : Nodes s (fun c => F c ∨ c = d)) (hfresh : ¬F d)
    (hby : Bypassed s F s.mem p) (hhead : getPredecessor s.mem p = s.heapFreep) :
    getSuccessor m' d.ptr = getSuccessor s.mem p ∧
      getPredecessor m' d.ptr = getPredecessor s.mem p := by
  have hself : LinkNode s (fun c => F c ∨ c = d) d.ptr := .inl ⟨d, .inr rfl, rfl⟩
  have hforth := hby.forth
  rw [hhead] at hforth
  constructor
  · rw [h.succ _ hself, if_pos rfl, hforth]
  · rw [h.pred _ hself, hforth, if_neg (Ne.symm (node_ne_fresh hs hfresh hby.successor)),
      if_pos rfl, hhead]

theorem Heap.sameLinks_inside (h : Heap s (l ++ [b] ++ r) F) (hF : ∀ c, F c → c ∈ l ∨ c ∈ r)
    (hpay : ∀ c, c ∈ l ∨ c ∈ r → SamePayload s.mem m' c)
    (hout : ∀ x, x < b.ptr - 4 ∨ b.ptr + b.size - 4 ≤ x → m' x = s.mem x) :
    SameLinks s F s.mem m' := by
  obtain ⟨h₁, h₂, h₃, -, -⟩ := h.ptr_bounds (b := b) (by simp)
  have hbase := h.base
  exact h.sameLinks (fun c hc => (h.listed c hc).1) (fun c hc => hpay c (hF c hc))
    fun x hx => hout x (by omega)

theorem Heap.sameLinks_retag (t : Nat) (h : Heap s (l ++ [b] ++ r) F)
    (hF : ∀ c, F c → c ∈ l ∨ c ∈ r) :
    SameLinks s F s.mem (Malloc.retag s.mem b.ptr (b.ptr + b.size) t) := by
  obtain ⟨h₁, h₂, h₃, h₄, -⟩ := h.ptr_bounds (b := b) (by simp)
  refine h.sameLinks_inside hF (fun c hc => ?_) fun x hx => ?_
  · exact retag_samePayload s.mem t h.layout.tiles (⟨rfl, h₃, h₄, rfl⟩ : Tiles b.ptr [b] _)
      (by simp) h.layout.lo_ge hc
  · exact retag_of_outside _ _ (by omega) (by omega) (by omega) (by omega)

theorem carve_retag (s : State) (hle : asize ≤ n) (hrest : ¬asize + 16 ≤ n)
    (hlt : n < 2 ^ 32) (hmod : n % 8 = 0) :
    carve s p asize n = s.setMem (retag s.mem p (p + n) (pack n 1)) := by
  have htags := put_header_footer (p := p) (k := 1) s hmod (by decide) hlt
  unfold carve
  rw [subw_eq hle hlt, if_neg (by omega)]
  exact htags

theorem carve_whole (h : Heap s (l ++ [b] ++ r) (FreeIn l r)) (hle : asize ≤ b.size)
    (hrest : ¬asize + 16 ≤ b.size) :
    ∃ m', carve s b.ptr asize b.size = s.setMem m' ∧ Carved s m' l b r asize := by
  obtain ⟨hb₁, hb₂, hb₃, hb₄, hb₅⟩ := h.ptr_bounds (b := b) (by simp)
  obtain ⟨hheap, hpay⟩ := h.retag (d := ⟨b.ptr, b.size, true⟩)
    (fun _ => freeIn_side) (by simp) ⟨rfl, hb₃, hb₄, rfl⟩
  have hout : ∀ x, b.ptr ≤ x → x < b.ptr + b.size - 8 →
      retag s.mem b.ptr (b.ptr + b.size) (pack b.size 1) x = s.mem x :=
    fun x h₁ h₂ => retag_of_outside _ _ (by omega) (by omega) (.inr h₁) (.inl h₂)
  have hlinks := h.sameLinks_retag (pack b.size 1) fun _ => freeIn_side
  have hsucc : getSuccessor (retag s.mem b.ptr (b.ptr + b.size) (pack b.size 1)) b.ptr =
      getSuccessor s.mem b.ptr :=
    load_congr fun x h₁ h₂ => by
      unfold succPtr at h₁ h₂
      exact hout x (by omega) (by omega)
  have hpred : getPredecessor (retag s.mem b.ptr (b.ptr + b.size) (pack b.size 1)) b.ptr =
      getPredecessor s.mem b.ptr :=
    load_congr fun x h₁ h₂ => hout x (by omega) (by omega)
  refine ⟨_, carve_retag s hle hrest (by omega) hb₄, ?_⟩
  refine ⟨?_, fun c hc _ => hpay c hc, hsucc, hpred, fun hby _ => ?_, fun _ hsplit => ?_⟩
  · rw [placed_whole hrest, leftover_whole hrest]
    exact hheap.iff fun c => freeOf_allocated rfl
  · exact hby.congr hlinks hsucc hpred
  · exact absurd hsplit hrest

theorem carve_writes (s : State) (hle : asize + 16 ≤ n) (hlt : n < 2 ^ 32)
    (h16 : 16 ≤ asize) (hmod : asize % 8 = 0) (hmod' : n % 8 = 0) :
    carve s p asize n = (coalesce (s.setMem
      (splitTags s.mem p asize (n - asize) (pack asize 1) (pack (n - asize) 0)))
      (p + asize)).1 := by
  have htags₁ := put_header_footer (p := p) (k := 1) s hmod (by decide)
    (show asize < 2 ^ 32 by omega)
  have hnext : nextBlkp (retag s.mem p (p + asize) (pack asize 1)) p = p + asize :=
    nextBlkp_retag _ hmod h16 (by decide) (by omega)
  have htags₂ := put_header_footer (p := p + asize) (n := n - asize) (k := 0)
    (s.setMem (retag s.mem p (p + asize) (pack asize 1))) (by omega) (by decide) (by omega)
  have hend : p + asize + (n - asize) = p + n := by omega
  unfold carve
  rw [subw_eq (by omega) hlt, if_pos (by omega)]
  simp only [htags₁, State.setMem_mem, hnext]
  rw [htags₂]
  rfl

theorem carve_tags (h : Heap s (l ++ [b] ++ r) (FreeIn l r)) (hle : asize + 16 ≤ b.size)
    (h16 : 16 ≤ asize) (hmod : asize % 8 = 0) :
    ∃ m', carve s b.ptr asize b.size = (coalesce (s.setMem m') (b.ptr + asize)).1 ∧
      Heap (s.setMem m') ((l ++ [⟨b.ptr, asize, true⟩]) ++
        ⟨b.ptr + asize, b.size - asize, false⟩ :: r) (FreeIn l r) ∧
      (∀ c, c ∈ l ∨ c ∈ r → SamePayload s.mem m' c) ∧
      SameLinks s (FreeIn l r) s.mem m' ∧
      getSuccessor m' b.ptr = getSuccessor s.mem b.ptr ∧
      getPredecessor m' b.ptr = getPredecessor s.mem b.ptr := by
  obtain ⟨hb₁, hb₂, hb₃, hb₄, hb₅⟩ := h.ptr_bounds (b := b) (by simp)
  have hwrites := carve_writes (p := b.ptr) s hle (by omega) h16 hmod hb₄
  generalize hn : b.size - asize = k at *
  obtain ⟨hheap, hpay⟩ := h.split asize k true false (fun _ => freeIn_side) h16
    (by omega) hmod (by omega)
  have hout : ∀ x, x < b.ptr - 4 ∨ b.ptr + b.size - 4 ≤ x ∨
      (b.ptr ≤ x ∧ x < b.ptr + asize - 8) →
      splitTags s.mem b.ptr asize k (pack asize 1) (pack k 0) x = s.mem x := by
    intro x hx
    unfold splitTags
    rw [retag_of_outside _ _ (by omega) (by omega) (by omega) (by omega),
      retag_of_outside _ _ (by omega) (by omega) (by omega) (by omega)]
  refine ⟨splitTags s.mem b.ptr asize k (pack asize 1) (pack k 0), hwrites,
    by simpa [splitBlocks] using hheap, hpay, ?_, ?_, ?_⟩
  · exact h.sameLinks_inside (fun _ => freeIn_side) hpay fun x hx => hout x (by omega)
  · refine load_congr fun x h₁ h₂ => ?_
    unfold succPtr at h₁ h₂
    exact hout x (by omega)
  · exact load_congr fun x h₁ h₂ => hout x (by omega)

theorem carve_split (h : Heap s (l ++ [b] ++ r) (FreeIn l r)) (hr : Layout.StartsAllocated r)
    (hle : asize + 16 ≤ b.size) (h16 : 16 ≤ asize) (hmod : asize % 8 = 0) :
    ∃ m', carve s b.ptr asize b.size = s.setMem m' ∧ Carved s m' l b r asize := by
  obtain ⟨m₁, hwrites, hheap, hpay, hlinks, hsucc₁, hpred₁⟩ := carve_tags h hle h16 hmod
  have hside : ListedIn (fun _ => True) (l ++ [⟨b.ptr, asize, true⟩]) r = FreeIn l r := by
    rw [listedIn_true]
    exact funext fun c => propext (freeIn_allocated_before rfl)
  rw [← hside] at hheap
  have hinsert := coalesce_insert hheap (by simp [Layout.EndsAllocated]) hr
  obtain ⟨m₂, heq, hmerged, hfirst⟩ := insertNode_merged hheap rfl trivial
  have hfresh : ¬ListedIn (fun _ => True) (l ++ [⟨b.ptr, asize, true⟩]) r
      ⟨b.ptr + asize, b.size - asize, false⟩ :=
    fun hc => not_freeIn_self hheap.layout.tiles.nodup hc.1
  have hnodes := hheap.nodes_of (G := fun c =>
    ListedIn (fun _ => True) (l ++ [⟨b.ptr, asize, true⟩]) r c ∨
      c = ⟨b.ptr + asize, b.size - asize, false⟩)
    fun c hc => ((listedIn_insert rfl trivial).mpr hc).1.1
  rw [hside] at hfirst hfresh hnodes hheap
  have hkept : SamePayload m₁ m₂ ⟨b.ptr, asize, true⟩ := hmerged.keeps _ (by simp) rfl
  have hsucc₂ : getSuccessor m₂ b.ptr = getSuccessor m₁ b.ptr := hkept.successor h16
  have hpred₂ : getPredecessor m₂ b.ptr = getPredecessor m₁ b.ptr := hkept.predecessor h16
  refine ⟨m₂, ?_, ?_, ?_, hsucc₂.trans hsucc₁, hpred₂.trans hpred₁, fun hby hne => ?_,
    fun hby _ hhead => ?_⟩
  · rw [hwrites, hinsert, heq]
    rfl
  · rw [placed_split hle, leftover_split hle]
    simpa using hmerged.whole
  · intro c hc ha
    exact (hpay c hc).trans (hmerged.keeps c (by rcases hc with hc | hc <;> simp [hc]) ha)
  · have hby₁ : Bypassed (s.setMem m₁) (FreeIn l r) m₁ b.ptr :=
      bypassed_setMem.mpr (hby.congr hlinks hsucc₁ hpred₁)
    have hne₁ : getPredecessor m₁ b.ptr ≠ s.heapFreep := by
      rw [hpred₁]
      exact hne hle
    exact bypassed_setMem.mp
      (hfirst.bypassed hnodes hheap.list hfresh hby₁ hne₁ hsucc₂ hpred₂)
  · have hby₁ : Bypassed (s.setMem m₁) (FreeIn l r) m₁ b.ptr :=
      bypassed_setMem.mpr (hby.congr hlinks hsucc₁ hpred₁)
    obtain ⟨h₁, h₂⟩ := hfirst.takes hnodes hfresh hby₁ (hpred₁.trans hhead)
    exact ⟨h₁.trans hsucc₁, h₂.trans hpred₁⟩

theorem carve_spec (h : Heap s (l ++ [b] ++ r) (FreeIn l r))
    (hr : asize + 16 ≤ b.size → Layout.StartsAllocated r) (hle : asize ≤ b.size)
    (h16 : 16 ≤ asize) (hmod : asize % 8 = 0) :
    ∃ m', carve s b.ptr asize b.size = s.setMem m' ∧ Carved s m' l b r asize := by
  by_cases hrest : asize + 16 ≤ b.size
  · exact carve_split h (hr hrest) hrest h16 hmod
  · exact carve_whole h hle hrest

/-! ## The first and the second time -/

theorem place_eq (asize : Nat) (h : Heap s (l ++ b :: r) F) :
    place s b.ptr asize = carve (deleteNode s b.ptr) b.ptr asize b.size := by
  unfold place
  rw [h.layout.getSize_hdrp (by simp)]

theorem place_spec (h : Heap s (l ++ b :: r) (FreeOf (l ++ b :: r)))
    (hapart : NoAdjacentFree (l ++ b :: r)) (hb : b.alloc = false) (hle : asize ≤ b.size)
    (h16 : 16 ≤ asize) (hmod : asize % 8 = 0) :
    ∃ m₁ m', place s b.ptr asize = s.setMem m' ∧
      Carved (s.setMem m₁) m' l b r asize ∧
      KeepsAllocated s.mem m₁ (l ++ b :: r) ∧
      Bypassed s (FreeIn l r) m₁ b.ptr ∧
      getPredecessor m₁ b.ptr = getPredecessor s.mem b.ptr := by
  have hbF : FreeOf (l ++ b :: r) b := ⟨by simp, hb⟩
  obtain ⟨m₁, heq₁, honly, hl, hby, -, hpred⟩ := deleteNode_spec h.nodes h.list hbF
  have hside : (fun c => FreeOf (l ++ b :: r) c ∧ c ≠ b) = FreeIn l r :=
    funext fun c => propext (freeIn_delete_self h.layout.tiles.nodup).symm
  obtain ⟨hheap₁, hkeep₁⟩ := h.of_links h.listed honly hl fun c hc => h.listed c hc.1
  rw [hside] at hheap₁ hby
  have hheap₁' : Heap (s.setMem m₁) (l ++ [b] ++ r) (FreeIn l r) := by simpa using hheap₁
  obtain ⟨m', heq, hcarved⟩ :=
    carve_spec hheap₁' (fun _ => hapart.startsAllocated hb) hle h16 hmod
  exact ⟨m₁, m', by rw [place_eq asize h, heq₁, heq]; rfl, hcarved, hkeep₁, hby, hpred⟩

theorem place_again (h : Heap s (l ++ d :: r) (FreeOf (l ++ d :: r))) (ha : d.alloc = true)
    (hby : Bypassed s (FreeIn l r) s.mem d.ptr)
    (hr : asize + 16 ≤ d.size → Layout.StartsAllocated r) (hle : asize ≤ d.size)
    (h16 : 16 ≤ asize) (hmod : asize % 8 = 0) :
    ∃ m', place s d.ptr asize = s.setMem m' ∧ Carved s m' l d r asize := by
  have hheap : Heap s (l ++ [d] ++ r) (FreeIn l r) := by
    have := h.iff fun c => (freeOf_allocated (l := l) (r := r) (c := c) ha).symm
    simpa using this
  obtain ⟨m', heq, hcarved⟩ := carve_spec hheap hr hle h16 hmod
  exact ⟨m', by rw [place_eq asize h, deleteNode_idle hby, heq], hcarved⟩

end CsappLabs.Malloc.Explicit
