import CsappLabs.Malloc.Coalescing
import CsappLabs.Malloc.TagWrites
import CsappLabs.Malloc.Explicit.FreeList

/-!
# The heap between two routines

`Heap s bs F` joins the tagged layout with the free list: the blocks are `bs`,
and the list holds those of the set `F`.  The two sentinels are static words
of the program and lie outside the arena.
-/

namespace CsappLabs.Malloc.Explicit

open CsappLabs.Foundation

/-- `head_addr` and `tail_addr` are two separate objects outside the arena. -/
structure Sentinels (s : State) : Prop where
  head : s.heapFreep + 8 ≤ s.memStartBrk ∨ s.memStartBrk + maxHeap ≤ s.heapFreep
  tail : s.tail + 8 ≤ s.memStartBrk ∨ s.memStartBrk + maxHeap ≤ s.tail
  apart : s.heapFreep + 8 ≤ s.tail ∨ s.tail + 8 ≤ s.heapFreep
  head_lt : s.heapFreep < 2 ^ 32
  tail_lt : s.tail < 2 ^ 32

structure Heap (s : State) (bs : List Block) (F : Block → Prop) : Prop where
  layout : Layout s.mem (s.heapListp + 8) bs s.memBrk
  list : FreeList s s.mem F
  listed : ∀ b, F b → b ∈ bs ∧ b.alloc = false
  base : s.heapListp = s.memStartBrk + 8
  top : s.memBrk ≤ s.memStartBrk + maxHeap
  max : s.memStartBrk + maxHeap < 2 ^ 32
  start : 0 < s.memStartBrk
  sentinels : Sentinels s

variable {s : State} {F F' : Block → Prop} {a b c d : Block} {bs l r xs : List Block}
  {m m' : Mem} {n p v : Nat}

theorem Sentinels.setMem (h : Sentinels s) (m : Mem) : Sentinels (s.setMem m) :=
  ⟨h.head, h.tail, h.apart, h.head_lt, h.tail_lt⟩

theorem Sentinels.grow (h : Sentinels s) (n : Nat) : Sentinels (s.grow n) :=
  ⟨h.head, h.tail, h.apart, h.head_lt, h.tail_lt⟩

theorem sameLinks_of_payloads (hpay : ∀ c, F c → 16 ≤ c.size ∧ SamePayload m m' c)
    (hhead : ∀ x, s.heapFreep ≤ x → x < s.heapFreep + 8 → m' x = m x)
    (htail : ∀ x, s.tail ≤ x → x < s.tail + 8 → m' x = m x) : SameLinks s F m m' := by
  have hword : ∀ p, (∀ x, p ≤ x → x < p + 8 → m' x = m x) →
      getSuccessor m' p = getSuccessor m p ∧ getPredecessor m' p = getPredecessor m p := by
    intro p hp
    constructor
    · refine load_congr fun x h₁ h₂ => ?_
      unfold succPtr at h₁ h₂
      exact hp x (by omega) (by omega)
    · exact load_congr fun x h₁ h₂ => hp x h₁ (by omega)
  rintro p (⟨c, hc, rfl⟩ | rfl | rfl)
  · exact ⟨(hpay c hc).2.successor (hpay c hc).1, (hpay c hc).2.predecessor (hpay c hc).1⟩
  · exact hword _ hhead
  · exact hword _ htail

namespace Heap

theorem iff (h : Heap s bs F) (hF : ∀ c, F' c ↔ F c) : Heap s bs F' := by
  have : F' = F := funext fun c => propext (hF c)
  rw [this]
  exact h

theorem ptr_bounds (h : Heap s bs F) (hb : b ∈ bs) :
    s.memStartBrk + 16 ≤ b.ptr ∧ b.ptr + b.size ≤ s.memBrk ∧ 16 ≤ b.size ∧
      b.size % 8 = 0 ∧ s.memBrk < 2 ^ 32 := by
  have hge := h.layout.tiles.ptr_ge hb
  have hbase := h.base
  exact ⟨by omega, h.layout.tiles.ptr_add_size_le hb, h.layout.tiles.size_ge hb,
    h.layout.tiles.size_mod hb, h.layout.hi_lt⟩

theorem nodes_of (h : Heap s bs F) {G : Block → Prop} (hG : ∀ c, G c → c ∈ bs) :
    Nodes s G := by
  have ht := h.top
  have hsent := h.sentinels
  refine ⟨?_, ?_, ?_, ?_, hsent.apart, hsent.head_lt, hsent.tail_lt⟩
  · intro c e hc he
    have hc16 := h.layout.tiles.size_ge (hG c hc)
    have he16 := h.layout.tiles.size_ge (hG e he)
    rcases h.layout.tiles.eq_or_apart (hG c hc) (hG e he) with hce | hce | hce
    · exact .inl hce
    · exact .inr (.inl (by omega))
    · exact .inr (.inr (by omega))
  · intro c hc
    obtain ⟨-, h₂, -, -, h₅⟩ := h.ptr_bounds (hG c hc)
    omega
  · intro c hc
    obtain ⟨h₁, h₂, h₃, -, -⟩ := h.ptr_bounds (hG c hc)
    have := hsent.head
    omega
  · intro c hc
    obtain ⟨h₁, h₂, h₃, -, -⟩ := h.ptr_bounds (hG c hc)
    have := hsent.tail
    omega

theorem nodes (h : Heap s bs F) : Nodes s F := h.nodes_of fun c hc => (h.listed c hc).1

theorem freeOrOutside (h : Heap s bs F) {G : Block → Prop}
    (hG : ∀ c, G c → c ∈ bs ∧ c.alloc = false) :
    FreeOrOutside (s.heapListp + 8) s.memBrk bs (LinkNode s G) := by
  have hb := h.base
  have ht := h.top
  have hhead := h.sentinels.head
  have htail := h.sentinels.tail
  rintro p (⟨c, hc, rfl⟩ | rfl | rfl)
  · exact .inr (.inr ⟨c, (hG c hc).1, (hG c hc).2, rfl⟩)
  · rcases hhead with hhead | hhead
    · exact .inl (by omega)
    · exact .inr (.inl (by omega))
  · rcases htail with htail | htail
    · exact .inl (by omega)
    · exact .inr (.inl (by omega))

theorem of_links (h : Heap s bs F) {G : Block → Prop}
    (hG : ∀ c, G c → c ∈ bs ∧ c.alloc = false) (hm : LinksOnly (LinkNode s G) s.mem m')
    (hl : FreeList s m' F') (hF : ∀ c, F' c → c ∈ bs ∧ c.alloc = false) :
    Heap (s.setMem m') bs F' ∧ KeepsAllocated s.mem m' bs :=
  ⟨{ layout := h.layout.of_links hm (h.freeOrOutside hG).nodes
     list := hl
     listed := hF
     base := h.base
     top := h.top
     max := h.max
     start := h.start
     sentinels := h.sentinels.setMem m' },
   fun _ hc ha => hm.samePayload h.layout.tiles (h.freeOrOutside hG) hc ha⟩

theorem delete (h : Heap s bs F) (hb : F b) :
    ∃ m', deleteNode s b.ptr = s.setMem m' ∧
      Heap (s.setMem m') bs (fun c => F c ∧ c ≠ b) ∧ KeepsAllocated s.mem m' bs := by
  obtain ⟨m', heq, honly, hl, -⟩ := deleteNode_spec h.nodes h.list hb
  exact ⟨m', heq, h.of_links h.listed honly hl fun c hc => h.listed c hc.1⟩

theorem sameLinks (h : Heap s bs F) {G : Block → Prop} (hG : ∀ c, G c → c ∈ bs)
    (hpay : ∀ c, G c → SamePayload s.mem m' c)
    (hout : ∀ x, x < s.heapListp + 4 ∨ s.memBrk ≤ x → m' x = s.mem x) :
    SameLinks s G s.mem m' := by
  have hb := h.base
  have ht := h.top
  have hhead := h.sentinels.head
  have htail := h.sentinels.tail
  exact sameLinks_of_payloads (fun c hc => ⟨h.layout.tiles.size_ge (hG c hc), hpay c hc⟩)
    (fun x h₁ h₂ => hout x (by omega)) fun x h₁ h₂ => hout x (by omega)

theorem of_tags {ys : List Block} (h : Heap s (l ++ xs ++ r) F)
    (hF : ∀ c, F c → c ∈ l ∨ c ∈ r)
    (hlay : Layout m' (s.heapListp + 8) (l ++ ys ++ r) s.memBrk)
    (hpay : ∀ c, c ∈ l ∨ c ∈ r → SamePayload s.mem m' c)
    (hout : ∀ x, x < s.heapListp + 4 ∨ s.memBrk ≤ x → m' x = s.mem x) :
    Heap (s.setMem m') (l ++ ys ++ r) F where
  layout := hlay
  list := h.list.congr
    (h.sameLinks (fun c hc => (h.listed c hc).1) (fun c hc => hpay c (hF c hc)) hout)
  listed c hc := by
    refine ⟨?_, (h.listed c hc).2⟩
    rcases hF c hc with hc | hc <;> simp [hc]
  base := h.base
  top := h.top
  max := h.max
  start := h.start
  sentinels := h.sentinels.setMem _

theorem sameLinks_payload (h : Heap s bs F) {G : Block → Prop}
    (hG : ∀ c, G c → c ∈ bs ∧ c.alloc = false) (hd : d ∈ bs) (ha : d.alloc = true)
    (hm : PayloadOnly d s.mem m') : SameLinks s G s.mem m' := by
  obtain ⟨h₁, h₂, h₃, -, -⟩ := h.ptr_bounds hd
  have hb := h.base
  refine h.sameLinks (fun c hc => (hG c hc).1) (fun c hc => ?_) fun x hx => hm x (by omega)
  refine hm.samePayload h.layout.tiles hd (hG c hc).1 ?_
  rintro rfl
  simp [(hG c hc).2] at ha

theorem of_payload (h : Heap s bs F) (hd : d ∈ bs) (ha : d.alloc = true)
    (hm : PayloadOnly d s.mem m') : Heap (s.setMem m') bs F where
  layout := hm.layout h.layout hd
  list := h.list.congr (h.sameLinks_payload h.listed hd ha hm)
  listed := h.listed
  base := h.base
  top := h.top
  max := h.max
  start := h.start
  sentinels := h.sentinels.setMem _

theorem retag (h : Heap s (l ++ xs ++ r) F) (hF : ∀ c, F c → c ∈ l ∨ c ∈ r)
    (hne : xs ≠ []) (hxs : Tiles d.ptr xs (d.ptr + d.size)) :
    Heap (s.setMem (Malloc.retag s.mem d.ptr (d.ptr + d.size) d.tag)) (l ++ d :: r) F ∧
      ∀ c, c ∈ l ∨ c ∈ r →
        SamePayload s.mem (Malloc.retag s.mem d.ptr (d.ptr + d.size) d.tag) c := by
  have hlay := h.layout.retag hne hxs
  have hpay : ∀ c, c ∈ l ∨ c ∈ r →
      SamePayload s.mem (Malloc.retag s.mem d.ptr (d.ptr + d.size) d.tag) c :=
    fun c hc => retag_samePayload s.mem d.tag h.layout.tiles hxs hne h.layout.lo_ge hc
  have hd : d ∈ l ++ d :: r := by simp
  have hge := hlay.tiles.ptr_ge hd
  have h16 := hlay.tiles.size_ge hd
  have hle := hlay.tiles.ptr_add_size_le hd
  have hout : ∀ x, x < s.heapListp + 4 ∨ s.memBrk ≤ x →
      Malloc.retag s.mem d.ptr (d.ptr + d.size) d.tag x = s.mem x :=
    fun x hx => retag_of_outside _ _ (by omega) (by omega) (by omega) (by omega)
  have hlay' : Layout (Malloc.retag s.mem d.ptr (d.ptr + d.size) d.tag)
      (s.heapListp + 8) (l ++ [d] ++ r) s.memBrk := by simpa using hlay
  exact ⟨by simpa using h.of_tags hF hlay' hpay hout, hpay⟩

theorem split (n₁ n₂ : Nat) (a₁ a₂ : Bool) (h : Heap s (l ++ [b] ++ r) F)
    (hF : ∀ c, F c → c ∈ l ∨ c ∈ r) (h₁ : 16 ≤ n₁) (h₂ : 16 ≤ n₂) (hm : n₁ % 8 = 0)
    (hsum : n₁ + n₂ = b.size) :
    Heap (s.setMem (splitTags s.mem b.ptr n₁ n₂ (pack n₁ a₁.toNat) (pack n₂ a₂.toNat)))
      (l ++ splitBlocks b.ptr n₁ n₂ a₁ a₂ ++ r) F ∧
      ∀ c, c ∈ l ∨ c ∈ r → SamePayload s.mem
        (splitTags s.mem b.ptr n₁ n₂ (pack n₁ a₁.toNat) (pack n₂ a₂.toNat)) c := by
  have hge := h.layout.tiles.ptr_ge (b := b) (by simp)
  have hle := h.layout.tiles.ptr_add_size_le (b := b) (by simp)
  have hpay := fun c (hc : c ∈ l ∨ c ∈ r) => splitTags_samePayload
    (pack n₁ a₁.toNat) (pack n₂ a₂.toNat) h.layout h₁ h₂ hsum hc
  refine ⟨h.of_tags hF (h.layout.split a₁ a₂ h₁ h₂ hm hsum) hpay fun x hx => ?_, hpay⟩
  exact splitTags_of_outside _ _ _ (by omega) h₁ h₂ (by omega)

theorem grow (h : Heap s bs F) (h16 : 16 ≤ n) (hn : n % 8 = 0)
    (hgrant : s.memBrk + n ≤ s.memStartBrk + maxHeap) :
    Heap ((s.grow n).setMem (growTags s.mem s.memBrk n))
        (bs ++ [⟨s.memBrk, n, false⟩]) F ∧
      ∀ c ∈ bs, SamePayload s.mem (growTags s.mem s.memBrk n) c := by
  have hmax := h.max
  have hlo := h.layout.lo_ge
  have hle := h.layout.tiles.le
  have hout : ∀ x, x < s.memBrk - 4 ∨ s.memBrk + n ≤ x →
      growTags s.mem s.memBrk n x = s.mem x :=
    fun x hx => growTags_of_outside s.mem (by omega) h16 hx
  have hpay : ∀ c ∈ bs, SamePayload s.mem (growTags s.mem s.memBrk n) c := by
    intro c hc x h₁ h₂
    have := h.layout.tiles.ptr_add_size_le hc
    exact hout x (by omega)
  refine ⟨?_, hpay⟩
  exact {
    layout := h.layout.grow h16 hn (by omega)
    list := by
      have hb := h.base
      have hhead := h.sentinels.head
      have htail := h.sentinels.tail
      refine h.list.congr (sameLinks_of_payloads
        (fun c hc => ⟨h.layout.tiles.size_ge (h.listed c hc).1, hpay c (h.listed c hc).1⟩)
        (fun x h₁ h₂ => hout x (by omega)) fun x h₁ h₂ => hout x (by omega))
    listed := fun c hc => ⟨by simp [(h.listed c hc).1], (h.listed c hc).2⟩
    base := h.base
    top := hgrant
    max := h.max
    start := h.start
    sentinels := (h.sentinels.grow n).setMem _ }

end Heap

end CsappLabs.Malloc.Explicit
