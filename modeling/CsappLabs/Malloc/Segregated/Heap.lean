import CsappLabs.Malloc.Coalescing
import CsappLabs.Malloc.TagWrites
import CsappLabs.Malloc.Segregated.FreeLists

/-!
# The heap between two routines

`Heap s bs F` joins the tagged layout with the free lists: the blocks are
`bs`, and the lists hold those of the set `F`.  Between two calls `F` is the
set of all free blocks; inside a routine a block that is being freed or placed
is missing from it.
-/

namespace CsappLabs.Malloc.Segregated

open CsappLabs.Foundation

structure Heap (s : State) (bs : List Block) (F : Block → Prop) : Prop where
  layout : Layout s.mem (s.heapListp + 8) bs s.memBrk
  lists : FreeLists s.mem s.segFreeListp F
  listed : ∀ b, F b → b ∈ bs ∧ b.alloc = false
  seg : s.segFreeListp = s.memStartBrk
  base : s.heapListp = s.memStartBrk + 72
  top : s.memBrk ≤ s.memStartBrk + maxHeap
  max : s.memStartBrk + maxHeap < 2 ^ 32
  start : 0 < s.memStartBrk

variable {s : State} {F F' : Block → Prop} {a b c d : Block} {bs l r xs : List Block}
  {m m' : Mem} {i p v n : Nat}

theorem ListIs.congr {w : Nat} {xs : List Nat} (h : ListIs m w (InList F i) xs)
    (hpay : ∀ c, F c → 16 ≤ c.size ∧ SamePayload m m' c) : ListIs m' w (InList F i) xs := by
  obtain ⟨k, hlink, hnd, hmem⟩ := h
  refine ⟨k, hlink.congr (fun u hu => ?_) fun u hu => ?_, hnd, hmem⟩
  · obtain ⟨c, hc, rfl, -⟩ := (hmem u).mp hu
    exact (hpay c hc).2.successor (hpay c hc).1
  · obtain ⟨c, hc, rfl, -⟩ := (hmem u).mp hu
    exact (hpay c hc).2.predecessor (hpay c hc).1

theorem FreeLists.congr {segp : Nat} (h : FreeLists m segp F)
    (hpay : ∀ c, F c → 16 ≤ c.size ∧ SamePayload m m' c)
    (hheads : ∀ i < 16, load m' (segp + 4 * i) = load m (segp + 4 * i)) :
    FreeLists m' segp F := by
  intro i hi
  obtain ⟨xs, hxs⟩ := h i hi
  rw [hheads i hi]
  exact ⟨xs, ListIs.congr hxs hpay⟩

theorem FreeLists.iff {segp : Nat} (h : FreeLists m segp F) (hF : ∀ c, F' c ↔ F c) :
    FreeLists m segp F' := by
  have : F' = F := funext fun c => propext (hF c)
  rw [this]
  exact h

def State.lists (s : State) (i : Nat) : List Block :=
  (s.nodes i).map fun p => ⟨p, getSize s.mem (hdrp p), false⟩

def SameLists (s s' : State) : Prop := ∀ i < 16, s'.lists i = s.lists i

def secondIn (b : Block) (i : Nat) (xs : List Block) : List Block :=
  if i = listIndex b.size then insertSecond b xs else xs

theorem mem_secondIn (h : c ∈ secondIn b i xs) : c = b ∨ c ∈ xs := by
  unfold secondIn at h
  by_cases hi : i = listIndex b.size
  · rwa [if_pos hi, mem_insertSecond] at h
  · rw [if_neg hi] at h
    exact .inr h

theorem map_secondIn (b : Block) (i : Nat) (xs : List Block) :
    (secondIn b i xs).map Block.ptr =
      if i = listIndex b.size then insertSecond b.ptr (xs.map Block.ptr)
      else xs.map Block.ptr := by
  unfold secondIn
  rw [apply_ite (List.map Block.ptr), map_insertSecond]

theorem map_ptr_lists (s : State) (i : Nat) : (s.lists i).map Block.ptr = s.nodes i := by
  simp [State.lists, Function.comp_def]

namespace Heap

theorem iff (h : Heap s bs F) (hF : ∀ c, F' c ↔ F c) : Heap s bs F' := by
  have : F' = F := funext fun c => propext (hF c)
  rw [this]
  exact h

theorem nodes_of (h : Heap s bs F) {G : Block → Prop} (hG : ∀ c, G c → c ∈ bs) :
    Nodes s G := by
  have hb := h.base
  have hs := h.seg
  have ht := h.top
  have hm := h.max
  have hmax : maxHeap = 20971520 := rfl
  have hle := h.layout.tiles.le
  refine ⟨?_, ?_, ?_, ?_, ?_, ?_, by omega⟩
  · intro c e hc he
    have hc16 := h.layout.tiles.size_ge (hG c hc)
    have he16 := h.layout.tiles.size_ge (hG e he)
    rcases h.layout.tiles.eq_or_apart (hG c hc) (hG e he) with hce | hce | hce
    · exact .inl hce
    · exact .inr (.inl (by omega))
    · exact .inr (.inr (by omega))
  · intro c hc
    have := h.layout.tiles.ptr_ge (hG c hc)
    omega
  · intro c hc
    have h₁ := h.layout.tiles.ptr_add_size_le (hG c hc)
    have h₂ := h.layout.tiles.size_ge (hG c hc)
    omega
  · exact fun c hc => h.layout.tiles.size_ge (hG c hc)
  · intro c hc
    have h₁ := h.layout.tiles.ptr_add_size_le (hG c hc)
    have h₂ := h.layout.tiles.ptr_ge (hG c hc)
    omega
  · exact ⟨by omega, by omega⟩

theorem nodes (h : Heap s bs F) : Nodes s F := h.nodes_of fun c hc => (h.listed c hc).1

theorem block_eq (h : Heap s bs F) (hc : F c) :
    (⟨c.ptr, getSize s.mem (hdrp c.ptr), false⟩ : Block) = c := by
  rw [h.layout.getSize_hdrp (h.listed c hc).1, ← (h.listed c hc).2]

theorem mem_lists (h : Heap s bs F) (hi : i < 16) :
    c ∈ s.lists i ↔ F c ∧ listIndex c.size = i := by
  obtain ⟨-, -, -, hmem⟩ := h.nodes.listIs_nodes h.lists hi
  simp only [State.lists, List.mem_map]
  constructor
  · rintro ⟨q, hq, rfl⟩
    obtain ⟨e, he, rfl, hidx⟩ := (hmem q).mp hq
    rw [h.block_eq he]
    exact ⟨he, hidx⟩
  · rintro ⟨hc, hidx⟩
    exact ⟨c.ptr, (hmem _).mpr ⟨c, hc, rfl, hidx⟩, h.block_eq hc⟩

theorem lists_eq (h : Heap s bs F) (hxs : ∀ c ∈ xs, F c)
    (hlist : ListIs s.mem (s.selectSegEntry i) (InList F i) (xs.map Block.ptr)) :
    s.lists i = xs := by
  have hnodes : s.nodes i = xs.map Block.ptr := h.nodes.nodesFrom_of_list hlist
  rw [State.lists, hnodes, List.map_map]
  exact (List.map_congr_left fun c hc => h.block_eq (hxs c hc)).trans (List.map_id' xs)

theorem sameLists {s' : State} {bs' : List Block} (h : Heap s bs F) (h' : Heap s' bs' F)
    (hpay : ∀ c, F c → SamePayload s.mem s'.mem c)
    (hheads : ∀ i < 16, s'.selectSegEntry i = s.selectSegEntry i) : SameLists s s' := by
  intro i hi
  refine h'.lists_eq (fun c hc => ((h.mem_lists hi).mp hc).1) ?_
  rw [map_ptr_lists, hheads i hi]
  exact (h.nodes.listIs_nodes h.lists hi).congr fun c hc => ⟨h.nodes.size_ge c hc, hpay c hc⟩

theorem freeOrOutside (h : Heap s bs F) {G : Block → Prop}
    (hG : ∀ c, G c → c ∈ bs ∧ c.alloc = false) :
    FreeOrOutside (s.heapListp + 8) s.memBrk bs (LinkNode s G) := by
  rintro p (⟨c, hc, rfl⟩ | ⟨k, hk, rfl⟩)
  · exact .inr (.inr ⟨c, (hG c hc).1, (hG c hc).2, rfl⟩)
  · have hb := h.base
    have hs := h.seg
    exact .inl (by omega)

theorem put_eq (_h : Heap s bs F) (m : Mem) (v : Nat) (h₁ : s.memStartBrk ≤ p)
    (h₂ : p + 4 ≤ s.memBrk) : (s.setMem m).put p v = s.setMem (store m p v) :=
  State.put_eq ⟨h₁, h₂⟩

theorem of_links (h : Heap s bs F) {G : Block → Prop}
    (hG : ∀ c, G c → c ∈ bs ∧ c.alloc = false) (hm : LinksOnly (LinkNode s G) s.mem m')
    (hl : FreeLists m' s.segFreeListp F') (hF : ∀ c, F' c → c ∈ bs ∧ c.alloc = false) :
    Heap (s.setMem m') bs F' ∧ KeepsAllocated s.mem m' bs :=
  ⟨{ layout := h.layout.of_links hm (h.freeOrOutside hG).nodes
     lists := hl
     listed := hF
     seg := h.seg
     base := h.base
     top := h.top
     max := h.max
     start := h.start },
   fun _ hc ha => hm.samePayload h.layout.tiles (h.freeOrOutside hG) hc ha⟩

theorem delete (h : Heap s bs F) (hb : F b) :
    ∃ m', deleteNode s b.ptr = s.setMem m' ∧
      Heap (s.setMem m') bs (fun c => F c ∧ c ≠ b) ∧ KeepsAllocated s.mem m' bs ∧
      ∀ i < 16, (s.setMem m').lists i = (s.lists i).filter (·.ptr ≠ b.ptr) := by
  obtain ⟨m', heq, honly, hl⟩ := deleteNode_spec h.nodes h.lists hb
    (h.layout.getSize_hdrp (h.listed b hb).1)
  obtain ⟨hheap, hkeep⟩ := h.of_links h.listed honly (fun i hi => ⟨_, hl i hi⟩)
    fun c hc => h.listed c hc.1
  refine ⟨m', heq, hheap, hkeep, fun i hi => hheap.lists_eq (fun c hc => ?_) ?_⟩
  · obtain ⟨hc, hne⟩ := List.mem_filter.mp hc
    refine ⟨((h.mem_lists hi).mp hc).1, ?_⟩
    rintro rfl
    simp at hne
  · have hnodes := hl i hi
    rw [← map_ptr_lists, List.filter_map] at hnodes
    exact hnodes

theorem insert (h : Heap s bs F) (hb : b ∈ bs) (hfree : b.alloc = false) (hfresh : ¬F b) :
    ∃ m', insertNode s b.ptr b.size = some (s.setMem m') ∧
      Heap (s.setMem m') bs (fun c => F c ∨ c = b) ∧ KeepsAllocated s.mem m' bs ∧
      ∀ i < 16, (s.setMem m').lists i = secondIn b i (s.lists i) := by
  have hG : ∀ c, F c ∨ c = b → c ∈ bs ∧ c.alloc = false := by
    rintro c (hc | rfl)
    · exact h.listed c hc
    · exact ⟨hb, hfree⟩
  obtain ⟨m', heq, honly, hl⟩ := insertNode_spec (h.nodes_of fun c hc => (hG c hc).1)
    hfresh h.lists fun c hc => h.layout.getSize_hdrp (h.listed c hc).1
  obtain ⟨hheap, hkeep⟩ := h.of_links hG honly (fun i hi => ⟨_, hl i hi⟩) hG
  refine ⟨m', heq, hheap, hkeep, fun i hi => hheap.lists_eq (fun c hc => ?_) ?_⟩
  · cases mem_secondIn hc with
    | inl hc => exact .inr hc
    | inr hc => exact .inl ((h.mem_lists hi).mp hc).1
  · have hnodes := hl i hi
    rw [← map_ptr_lists] at hnodes
    rw [map_secondIn]
    exact hnodes

theorem clearLinks (h : Heap s bs F) (hb : b ∈ bs) (hfree : b.alloc = false)
    (hfresh : ¬F b) :
    ∃ m', (s.setPredecessor b.ptr 0).setSuccessor b.ptr 0 = s.setMem m' ∧
      m' = store (store s.mem b.ptr 0) (succPtr b.ptr) 0 ∧
      Heap (s.setMem m') bs F ∧ KeepsAllocated s.mem m' bs ∧ SameLists s (s.setMem m') := by
  have hns : Nodes s (fun c => c = b) := h.nodes_of fun c hc => hc ▸ hb
  have hbn : NodeOf (fun c => c = b) b.ptr := ⟨b, rfl, rfl⟩
  have honly : LinksOnly (LinkNode s (fun c => c = b)) s.mem
      (store (store s.mem b.ptr 0) (succPtr b.ptr) 0) :=
    (LinksOnly.storePredecessor (.inl hbn) _).trans (.storeSuccessor (.inl hbn) _)
  have hpay : ∀ c, F c → SamePayload s.mem
      (store (store s.mem b.ptr 0) (succPtr b.ptr) 0) c := by
    intro c hc x h₁ h₂
    have hb16 := h.layout.tiles.size_ge hb
    unfold succPtr
    rcases h.layout.tiles.eq_or_apart hb (h.listed c hc).1 with rfl | hbc | hbc
    · exact absurd hc hfresh
    · rw [store_of_outside _ _ (by omega), store_of_outside _ _ (by omega)]
    · rw [store_of_outside _ _ (by omega), store_of_outside _ _ (by omega)]
  have hgb := hns.node_ge hbn
  have hheads : ∀ i < 16, load (store (store s.mem b.ptr 0) (succPtr b.ptr) 0)
      (s.segFreeListp + 4 * i) = load s.mem (s.segFreeListp + 4 * i) := by
    intro i hi
    rw [load_setSuccessor _ (by omega), load_setPredecessor _ (by omega)]
  obtain ⟨hheap, hkeep⟩ := h.of_links (G := fun c => c = b) (by rintro c rfl; exact ⟨hb, hfree⟩)
    honly (h.lists.congr (fun c hc => ⟨h.nodes.size_ge c hc, hpay c hc⟩) hheads) h.listed
  refine ⟨_, ?_, rfl, hheap, hkeep, h.sameLists hheap hpay hheads⟩
  have h₁ : s.setPredecessor b.ptr 0 = s.setMem (store s.mem b.ptr 0) :=
    hns.setPredecessor_eq hbn s.mem
  rw [h₁]
  exact hns.setSuccessor_eq hbn _

theorem of_writes {bs' : List Block} (h : Heap s bs F) (hF : ∀ c, F c → c ∈ bs')
    (hlay : Layout m' (s.heapListp + 8) bs' s.memBrk)
    (hpay : ∀ c, F c → SamePayload s.mem m' c)
    (hlow : ∀ x, x < s.heapListp + 4 → m' x = s.mem x) :
    Heap (s.setMem m') bs' F ∧ SameLists s (s.setMem m') := by
  have hheads : ∀ i < 16, load m' (s.segFreeListp + 4 * i) =
      load s.mem (s.segFreeListp + 4 * i) := by
    have hb := h.base
    have hs := h.seg
    exact fun i hi => load_congr fun x h₁ h₂ => hlow x (by omega)
  have hheap : Heap (s.setMem m') bs' F :=
    { layout := hlay
      lists := h.lists.congr (fun c hc => ⟨h.nodes.size_ge c hc, hpay c hc⟩) hheads
      listed := fun c hc => ⟨hF c hc, (h.listed c hc).2⟩
      seg := h.seg
      base := h.base
      top := h.top
      max := h.max
      start := h.start }
  exact ⟨hheap, h.sameLists hheap hpay hheads⟩

theorem of_payload (h : Heap s bs F) (hd : d ∈ bs) (ha : d.alloc = true)
    (hm : PayloadOnly d s.mem m') :
    Heap (s.setMem m') bs F ∧ SameLists s (s.setMem m') := by
  have hge := h.layout.tiles.ptr_ge hd
  refine h.of_writes (fun c hc => (h.listed c hc).1) (hm.layout h.layout hd) (fun c hc => ?_)
    fun x hx => hm x (by omega)
  refine hm.samePayload h.layout.tiles hd (h.listed c hc).1 ?_
  rintro rfl
  simp [(h.listed c hc).2] at ha

theorem retag (h : Heap s (l ++ xs ++ r) F) (hF : ∀ c, F c → c ∈ l ∨ c ∈ r)
    (hne : xs ≠ []) (hxs : Tiles d.ptr xs (d.ptr + d.size)) :
    Heap (s.setMem (Malloc.retag s.mem d.ptr (d.ptr + d.size) d.tag)) (l ++ d :: r) F ∧
      (∀ c, c ∈ l ∨ c ∈ r →
        SamePayload s.mem (Malloc.retag s.mem d.ptr (d.ptr + d.size) d.tag) c) ∧
      SameLists s (s.setMem (Malloc.retag s.mem d.ptr (d.ptr + d.size) d.tag)) := by
  have hlay := h.layout.retag hne hxs
  have hpay : ∀ c, c ∈ l ∨ c ∈ r →
      SamePayload s.mem (Malloc.retag s.mem d.ptr (d.ptr + d.size) d.tag) c :=
    fun c hc => retag_samePayload s.mem d.tag h.layout.tiles hxs hne h.layout.lo_ge hc
  have hd : d ∈ l ++ d :: r := by simp
  have hge := hlay.tiles.ptr_ge hd
  have h16 := hlay.tiles.size_ge hd
  have hlow : ∀ x, x < s.heapListp + 4 →
      Malloc.retag s.mem d.ptr (d.ptr + d.size) d.tag x = s.mem x :=
    fun x hx => retag_of_outside _ _ (by omega) (by omega) (by omega) (by omega)
  obtain ⟨hheap, hlists⟩ := h.of_writes (fun c hc => by rcases hF c hc with hc | hc <;> simp [hc])
    hlay (fun c hc => hpay c (hF c hc)) hlow
  exact ⟨hheap, hpay, hlists⟩

theorem split (n₁ n₂ : Nat) (a₁ a₂ : Bool) (h : Heap s (l ++ [b] ++ r) F)
    (hF : ∀ c, F c → c ∈ l ∨ c ∈ r) (h₁ : 16 ≤ n₁) (h₂ : 16 ≤ n₂) (hm : n₁ % 8 = 0)
    (hsum : n₁ + n₂ = b.size) :
    Heap (s.setMem (splitTags s.mem b.ptr n₁ n₂ (pack n₁ a₁.toNat) (pack n₂ a₂.toNat)))
      (l ++ splitBlocks b.ptr n₁ n₂ a₁ a₂ ++ r) F ∧
      (∀ c, c ∈ l ∨ c ∈ r → SamePayload s.mem
        (splitTags s.mem b.ptr n₁ n₂ (pack n₁ a₁.toNat) (pack n₂ a₂.toNat)) c) ∧
      SameLists s
        (s.setMem (splitTags s.mem b.ptr n₁ n₂ (pack n₁ a₁.toNat) (pack n₂ a₂.toNat))) := by
  have hge := h.layout.tiles.ptr_ge (b := b) (by simp)
  have hpay := fun c (hc : c ∈ l ∨ c ∈ r) => splitTags_samePayload
    (pack n₁ a₁.toNat) (pack n₂ a₂.toNat) h.layout h₁ h₂ hsum hc
  obtain ⟨hheap, hlists⟩ := h.of_writes (fun c hc => by rcases hF c hc with hc | hc <;> simp [hc])
    (h.layout.split a₁ a₂ h₁ h₂ hm hsum) (fun c hc => hpay c (hF c hc))
    fun x hx => splitTags_of_outside _ _ _ (by omega) h₁ h₂ (by omega)
  exact ⟨hheap, hpay, hlists⟩

end Heap

end CsappLabs.Malloc.Segregated
