import CsappLabs.Malloc.Client
import CsappLabs.Malloc.Explicit.Place

/-!
# Placing and freeing in a sound heap

`Sound` is the invariant between two calls.  When `mm_realloc` places a block
for the second time, the heap is sound again, or it has `Lost` the rest of the
block: the second `delete_node` takes out what the first `place` has put at the
front of the list.  The rest comes back when the block that is moved lies right
behind it, since freeing that block merges the two.
-/

namespace CsappLabs.Malloc.Explicit

open CsappLabs.Foundation

/-- The invariant between two calls, for an arena that starts at `base`. -/
structure Sound (base : Nat) (s : State) (bs : List Block) : Prop where
  heap : Heap s bs (FreeOf bs)
  apart : NoAdjacentFree bs
  start : s.memStartBrk = base

/-- The free block `e` is not in the list, and its links point past it. -/
structure Lost (base : Nat) (e : Block) (s : State) (bs : List Block) : Prop where
  heap : Heap s bs (fun c => FreeOf bs c ∧ c ≠ e)
  apart : NoAdjacentFree bs
  start : s.memStartBrk = base
  bypassed : Bypassed s (fun c => FreeOf bs c ∧ c ≠ e) s.mem e.ptr

def State.clientWrite (s : State) (p : Nat) (v : UInt8) : State :=
  { s with toMemlib := s.toMemlib.clientWrite p v }

def allocator : Allocator State where
  memlib := State.toMemlib
  clientWrite := State.clientWrite
  mmMalloc := mmMalloc
  mmFree := fun s bp => some (mmFree s bp)
  mmRealloc := mmRealloc

variable {s s' : State} {F : Block → Prop} {a b c d e : Block} {bs l r xs : List Block}
  {m m' : Mem} {n p asize base : Nat}

/-! ## The search -/

theorem findFitFrom_spec (asize : Nat) {prev f last : Nat} {xs : List Nat}
    (h : Linked (getSuccessor s.mem) (getPredecessor s.mem) prev f xs last s.tail)
    (htail : s.tail ∉ xs) (fuel : Nat) (hfuel : xs.length < fuel) :
    ∃ q, findFitFrom s asize fuel f = some q ∧
      (q = 0 ∨ q ∈ xs ∧ asize ≤ getSize s.mem (hdrp q)) := by
  induction xs generalizing prev f fuel with
  | nil =>
      obtain ⟨fuel, rfl⟩ := Nat.exists_eq_add_of_lt hfuel
      refine ⟨0, ?_, .inl rfl⟩
      simp [findFitFrom, h.1]
  | cons x xs ih =>
      obtain ⟨rfl, -, hrest⟩ := h
      simp only [List.mem_cons, not_or] at htail
      cases fuel with
      | zero => simp at hfuel
      | succ fuel =>
          rw [findFitFrom, if_neg (Ne.symm htail.1)]
          by_cases hx : asize ≤ getSize s.mem (hdrp f)
          · exact ⟨f, if_pos hx, .inr ⟨by simp, hx⟩⟩
          · obtain ⟨q, hq, hfit⟩ := ih hrest htail.2 fuel (by simpa using hfuel)
            refine ⟨q, by rw [if_neg hx]; exact hq, ?_⟩
            rcases hfit with hq0 | ⟨hmem, hle⟩
            · exact .inl hq0
            · exact .inr ⟨by simp [hmem], hle⟩

theorem Heap.list_length (h : Heap s bs F) {xs : List Nat} (hnd : xs.Nodup)
    (hmem : ∀ p, p ∈ xs ↔ NodeOf F p) : xs.length < walkFuel := by
  have hnode : ∀ x ∈ xs, x ≠ 0 ∧ x < 2 ^ 32 := by
    intro x hx
    obtain ⟨b, hb, rfl⟩ := (hmem x).mp hx
    obtain ⟨h₁, h₂, h₃, h₄, h₅⟩ := h.ptr_bounds (h.listed b hb).1
    exact ⟨by omega, by omega⟩
  exact length_lt_of_nodup hnd (fun h0 => (hnode 0 h0).1 rfl) (fun x hx => (hnode x hx).2)
    (by decide)

theorem findFit_spec (asize : Nat) (h : Heap s bs (FreeOf bs)) :
    ∃ q, findFit s asize = some q ∧
      (q = 0 ∨ ∃ b, FreeOf bs b ∧ b.ptr = q ∧ asize ≤ b.size) := by
  obtain ⟨xs, hlink, hnd, hmem⟩ := h.list
  have htail : s.tail ∉ xs := fun hx => h.nodes.tail_not_node ((hmem _).mp hx)
  obtain ⟨q, hq, hfit⟩ :=
    findFitFrom_spec asize hlink htail walkFuel (h.list_length hnd hmem)
  refine ⟨q, hq, ?_⟩
  rcases hfit with hq0 | ⟨hqx, hle⟩
  · exact .inl hq0
  · obtain ⟨b, hb, rfl⟩ := (hmem q).mp hqx
    rw [h.layout.getSize_hdrp hb.1] at hle
    exact .inr ⟨b, hb, rfl, hle⟩

/-! ## Placing a block -/

namespace Sound

theorem heapListp_ne (h : Sound base s bs) : s.heapListp ≠ 0 := by
  have := h.heap.base
  omega

theorem ptr_ne (h : Sound base s bs) (hb : b ∈ bs) : b.ptr ≠ 0 := by
  have := (h.heap.ptr_bounds hb).1
  omega

theorem place_effect (h : Sound base s bs) (hb : FreeOf bs b) (hle : asize ≤ b.size)
    (h16 : 16 ≤ asize) (hmod : asize % 8 = 0) :
    ∃ bs' d, d.ptr = b.ptr ∧ asize ≤ d.size ∧
      Effect allocator (Sound base) s (place s b.ptr asize) bs bs' none (some d) := by
  obtain ⟨hmem, hfree⟩ := hb
  obtain ⟨l, r, rfl⟩ := List.append_of_mem hmem
  obtain ⟨m₁, m', heq, hcarved, hkeep, -⟩ := place_spec h.heap h.apart hfree hle h16 hmod
  have hgains := gains_of_free (d := placed b asize) (placed b asize :: leftover b asize)
    h.heap.layout.tiles hfree rfl (Nat.le_refl _)
    (by have := (h.heap.ptr_bounds hmem).2.2.1; simp; omega) fun c hc => mem_placed hc
  have hinv : Sound base (s.setMem m') (l ++ placed b asize :: (leftover b asize ++ r)) :=
    ⟨hcarved.heap, noAdjacentFree_placed h.apart.left h.apart.right.tail
      fun _ => h.apart.startsAllocated hfree, h.start⟩
  refine ⟨l ++ placed b asize :: (leftover b asize ++ r), placed b asize, rfl,
    placed_size_ge hle, ?_⟩
  rw [heq]
  refine Gains.effect (by simpa using hgains) hinv fun c hc ha => ?_
  exact (hkeep c hc ha).trans (hcarved.keeps c (mem_sides hfree hc ha) ha)

/-- `place` twice, when the second time the list has forgotten the block. -/
theorem place_twice_effect (h : Sound base s bs) (hb : FreeOf bs b)
    (hle : asize + 8 ≤ b.size) (h16 : 16 ≤ asize) (hmod : asize % 8 = 0)
    (hfirst : asize + 8 + 16 ≤ b.size → getPredecessor s.mem b.ptr ≠ s.heapFreep) :
    ∃ bs' d, d.ptr = b.ptr ∧ asize ≤ d.size ∧
      Effect allocator (Sound base) s (place (place s b.ptr (asize + 8)) b.ptr asize) bs bs'
        none (some d) := by
  obtain ⟨hmem, hfree⟩ := hb
  obtain ⟨l, r, rfl⟩ := List.append_of_mem hmem
  have hstarts := h.apart.startsAllocated hfree
  obtain ⟨m₁, m₂, heq₁, hcarved₁, hkeep₁, hby₁, hpred₁⟩ :=
    place_spec h.heap h.apart hfree hle (by omega) (by omega)
  have hby₂ : Bypassed s (FreeIn l r) m₂ b.ptr :=
    bypassed_setMem.mp (hcarved₁.bypassed (bypassed_setMem.mpr hby₁) fun hsplit => by
      rw [State.setMem_mem, hpred₁]
      exact hfirst hsplit)
  have hwhole : asize + 16 ≤ (placed b (asize + 8)).size → leftover b (asize + 8) = [] := by
    intro hsplit
    refine leftover_whole fun hrest => ?_
    rw [placed_split hrest] at hsplit
    simp only at hsplit
    omega
  have hstarts₂ : asize + 16 ≤ (placed b (asize + 8)).size →
      Layout.StartsAllocated (leftover b (asize + 8) ++ r) := by
    intro hsplit
    rw [hwhole hsplit]
    exact hstarts
  have hby₃ : Bypassed (s.setMem m₂) (FreeIn l (leftover b (asize + 8) ++ r)) m₂ b.ptr :=
    bypassed_setMem.mpr (hby₂.mono fun c hc =>
      ⟨hc.1.imp_right fun hr => List.mem_append_right _ hr, hc.2⟩)
  obtain ⟨m₃, heq₂, hcarved₂⟩ := place_again hcarved₁.heap rfl hby₃ hstarts₂
    (by have := placed_size_ge hle; omega) h16 hmod
  have hmem₂ : ∀ c, c.alloc = true →
      (c ∈ placed (placed b (asize + 8)) asize ::
        (leftover (placed b (asize + 8)) asize ++ leftover b (asize + 8)) ↔
        c = placed (placed b (asize + 8)) asize) := by
    intro c hc
    rw [← List.cons_append, List.mem_append, mem_placed hc]
    constructor
    · rintro (hc' | hc')
      · exact hc'
      · rw [leftover_free c hc'] at hc
        cases hc
    · exact .inl
  have hgains := gains_of_free (d := placed (placed b (asize + 8)) asize) _
    h.heap.layout.tiles hfree rfl (Nat.le_refl _)
    (by have := (h.heap.ptr_bounds hmem).2.2.1; simp; omega) hmem₂
  have happ₁ : NoAdjacentFree (l ++ placed b (asize + 8) :: (leftover b (asize + 8) ++ r)) :=
    noAdjacentFree_placed h.apart.left h.apart.right.tail fun _ => hstarts
  have hinv : Sound base (s.setMem m₃) (l ++ placed (placed b (asize + 8)) asize ::
      (leftover (placed b (asize + 8)) asize ++ (leftover b (asize + 8) ++ r))) :=
    ⟨hcarved₂.heap, noAdjacentFree_placed happ₁.left happ₁.right.tail hstarts₂, h.start⟩
  refine ⟨l ++ placed (placed b (asize + 8)) asize ::
      (leftover (placed b (asize + 8)) asize ++ (leftover b (asize + 8) ++ r)),
    placed (placed b (asize + 8)) asize, rfl,
    placed_size_ge (by have := placed_size_ge hle; omega), ?_⟩
  have heq : place (place s b.ptr (asize + 8)) b.ptr asize = s.setMem m₃ := by
    rw [heq₁]
    exact heq₂
  rw [heq]
  refine Gains.effect (by simpa using hgains) hinv fun c hc ha => ?_
  have hside := mem_sides hfree hc ha
  exact ((hkeep₁ c hc ha).trans (hcarved₁.keeps c hside ha)).trans
    (hcarved₂.keeps c (hside.imp_right fun hr => List.mem_append_right _ hr) ha)

end Sound

theorem Lost.retag {bs : List Block} (h : Lost base e s bs) (hbs : bs = l ++ d :: r)
    (hd : d.alloc = true) (he : e ∈ r) :
    Lost base e (s.setMem (Malloc.retag s.mem d.ptr (d.ptr + d.size) d.tag)) bs ∧
      ∀ c, c ∈ l ∨ c ∈ r →
        SamePayload s.mem (Malloc.retag s.mem d.ptr (d.ptr + d.size) d.tag) c := by
  subst hbs
  obtain ⟨hd₁, hd₂, hd₃, hd₄, hd₅⟩ := h.heap.ptr_bounds (b := d) (by simp)
  have hF : ∀ c, FreeOf (l ++ d :: r) c ∧ c ≠ e → c ∈ l ∨ c ∈ r :=
    fun c hc => ((freeOf_allocated hd).mp hc.1).1
  have hheap : Heap s (l ++ [d] ++ r) (fun c => FreeOf (l ++ d :: r) c ∧ c ≠ e) := by
    simpa using h.heap
  obtain ⟨hheap', hpay⟩ := hheap.retag hF (by simp) ⟨rfl, hd₃, hd₄, rfl⟩
  have he16 := h.heap.layout.tiles.size_ge (b := e) (by simp [he])
  have hkept := hpay e (.inr he)
  exact ⟨⟨hheap', h.apart, h.start, bypassed_setMem.mpr
    (h.bypassed.congr (hheap.sameLinks_retag d.tag hF) (hkept.successor he16)
      (hkept.predecessor he16))⟩, hpay⟩

namespace Sound

/-- `place` twice, when the rest of the block has come between the block and
its neighbours in the list. -/
theorem place_twice_lost (h : Sound base s (l ++ b :: r)) (hb : b.alloc = false)
    (hsplit : asize + 8 + 16 ≤ b.size) (h16 : 16 ≤ asize) (hmod : asize % 8 = 0)
    (hhead : getPredecessor s.mem b.ptr = s.heapFreep) :
    Effect allocator (Lost base ⟨b.ptr + (asize + 8), b.size - (asize + 8), false⟩) s
      (place (place s b.ptr (asize + 8)) b.ptr asize) (l ++ b :: r)
      (l ++ ⟨b.ptr, asize + 8, true⟩ ::
        ⟨b.ptr + (asize + 8), b.size - (asize + 8), false⟩ :: r)
      none (some ⟨b.ptr, asize + 8, true⟩) := by
  obtain ⟨hb₁, hb₂, hb₃, hb₄, hb₅⟩ := h.heap.ptr_bounds (b := b) (by simp)
  have hstarts := h.apart.startsAllocated hb
  obtain ⟨m₁, m₂, heq₁, hcarved, hkeep₁, hby₁, hpred₁⟩ :=
    place_spec h.heap h.apart hb (show asize + 8 ≤ b.size by omega) (by omega) (by omega)
  obtain ⟨hsuccR, hpredR⟩ := hcarved.first (bypassed_setMem.mpr hby₁) hsplit
    (hpred₁.trans hhead)
  have happ : NoAdjacentFree (l ++ placed b (asize + 8) :: (leftover b (asize + 8) ++ r)) :=
    noAdjacentFree_placed h.apart.left h.apart.right.tail fun _ => hstarts
  have hheap₂ := hcarved.heap
  rw [State.setMem_setMem] at hheap₂
  rw [placed_split hsplit, leftover_split hsplit] at hheap₂ happ
  simp only [List.singleton_append] at hheap₂ happ
  have hpredd := hcarved.predecessor
  have hsuccd := hcarved.successor
  have hkeepd := hcarved.keeps
  generalize hd : (⟨b.ptr, asize + 8, true⟩ : Block) = d at *
  generalize he : (⟨b.ptr + (asize + 8), b.size - (asize + 8), false⟩ : Block) = e at *
  have hdp : d.ptr = b.ptr := by rw [← hd]
  have hds : d.size = asize + 8 := by rw [← hd]
  have hda : d.alloc = true := by rw [← hd]
  have hep : e.ptr = b.ptr + (asize + 8) := by rw [← he]
  have hef : FreeOf (l ++ d :: e :: r) e := ⟨by simp, by rw [← he]⟩
  have hheadNode : ∀ G, LinkNode s G s.heapFreep := fun G => .inr (.inl rfl)
  have hspb : Spaced s.heapFreep b.ptr :=
    h.heap.nodes.spaced (hheadNode _) (.inl ⟨b, ⟨by simp, hb⟩, rfl⟩)
  have hspe : Spaced s.heapFreep e.ptr := hheap₂.nodes.spaced (hheadNode _) (.inl ⟨e, hef, rfl⟩)
  have hpredd' : getPredecessor m₂ b.ptr = s.heapFreep := (hpredd.trans hpred₁).trans hhead
  have hpredR' : getPredecessor m₂ e.ptr = s.heapFreep := by
    rw [hep]
    exact (hpredR.trans hpred₁).trans hhead
  have hsuccR' : getSuccessor m₂ b.ptr = getSuccessor m₂ e.ptr := by
    rw [hep]
    exact hsuccd.trans hsuccR.symm
  have hdel : deleteNode (s.setMem m₂) b.ptr = deleteNode (s.setMem m₂) e.ptr :=
    deleteNode_sameLinks (hpredd'.trans hpredR'.symm) hsuccR'
      (by rw [State.setMem_mem, hpredd']; exact hspb)
      (by rw [State.setMem_mem, hpredR']; exact hspe)
  obtain ⟨m₃, heq₃, honly, hlist, hby₃, -⟩ := deleteNode_spec hheap₂.nodes hheap₂.list hef
  obtain ⟨hheap₃, hkeep₃⟩ :=
    hheap₂.of_links hheap₂.listed honly hlist fun c hc => hheap₂.listed c hc.1
  have hlost : Lost base e (s.setMem m₃) (l ++ d :: e :: r) :=
    ⟨hheap₃, happ, h.start, bypassed_setMem.mpr (bypassed_setMem.mp hby₃)⟩
  obtain ⟨hlost₄, hpay₄⟩ := hlost.retag rfl hda (by simp)
  have heq : place (place s b.ptr (asize + 8)) b.ptr asize =
      s.setMem (retag m₃ d.ptr (d.ptr + d.size) d.tag) := by
    have hcarve := carve_retag (p := b.ptr) (s.setMem m₃)
      (show asize ≤ asize + 8 by omega) (by omega) (by omega) (by omega)
    have hplace := place_eq asize hheap₂
    rw [hdp, hds] at hplace
    rw [heq₁]
    refine hplace.trans ?_
    rw [hdel, heq₃]
    refine hcarve.trans ?_
    rw [← hd]
    rfl
  rw [heq]
  have hgains := gains_of_free (d := d) [d, e] h.heap.layout.tiles hb hda
    (Nat.le_of_eq hdp.symm) (by omega) fun c hc => by
      have hce : c ≠ e := by
        rintro rfl
        rw [hef.2] at hc
        cases hc
      simp [hce]
  refine Gains.effect (by simpa using hgains) hlost₄ fun c hc ha => ?_
  have hside := mem_sides hb hc ha
  have hside' : c ∈ l ∨ c ∈ e :: r := hside.imp_right fun hr => List.mem_cons_of_mem e hr
  refine (((hkeep₁ c hc ha).trans (hkeepd c hside ha)).trans (hkeep₃ c ?_ ha)).trans
    (hpay₄ c hside')
  rcases hside with hc | hc <;> simp [hc]

end Sound

/-! ## `mm_free` -/

theorem mmFree_eq (h : Heap s bs F) (hd : d ∈ bs) :
    mmFree s d.ptr = (coalesce (s.setMem
      (retag s.mem d.ptr (d.ptr + d.size) (pack d.size 0))) d.ptr).1 := by
  obtain ⟨hd₁, hd₂, hd₃, hd₄, hd₅⟩ := h.ptr_bounds hd
  have hbase := h.base
  have hd0 : d.ptr ≠ 0 := by omega
  have hp0 : s.heapListp ≠ 0 := by omega
  have htags := put_header_footer (p := d.ptr) (n := d.size) (k := 0) s hd₄ (by decide)
    (by omega)
  unfold mmFree
  simp only [hd0, hp0, if_false, h.layout.getSize_hdrp hd, htags]

theorem free_merged (ht : Tiles n (l ++ d :: r) p) (hapart : NoAdjacentFree (l ++ d :: r))
    (ha : d.alloc = true) (hstart : s.memStartBrk = base)
    (hmerged : Merged (s.setMem m) m' (fun _ => True) (coalesceBlocks l c r) (l ++ r))
    (hpay : ∀ e, e ∈ l ∨ e ∈ r → SamePayload s.mem m e) :
    Effect allocator (Sound base) s (s.setMem m') (l ++ d :: r) (coalesceBlocks l c r)
      (some d) none := by
  refine (loses_coalesce ht ha).effect ?_ fun e he hea hne => ?_
  · exact ⟨hmerged.whole, coalesceBlocks_noAdjacentFree hapart.left hapart.right.tail, hstart⟩
  · have hside : e ∈ l ∨ e ∈ r := by
      simp only [List.mem_append, List.mem_cons] at he
      rcases he with he | he | he
      · exact .inl he
      · exact absurd he hne
      · exact .inr he
    exact (hpay e hside).trans (hmerged.keeps e (List.mem_append.mpr hside) hea)

theorem Sound.free_effect (h : Sound base s bs) (hd : d ∈ bs) (ha : d.alloc = true) :
    ∃ bs', Effect allocator (Sound base) s (mmFree s d.ptr) bs bs' (some d) none := by
  have heq := mmFree_eq h.heap hd
  obtain ⟨l, r, rfl⟩ := List.append_of_mem hd
  obtain ⟨hd₁, hd₂, hd₃, hd₄, hd₅⟩ := h.heap.ptr_bounds hd
  have hheap : Heap s (l ++ [d] ++ r) (FreeIn l r) := by
    have := h.heap.iff fun c => (freeOf_allocated (l := l) (r := r) (c := c) ha).symm
    simpa using this
  obtain ⟨hheap₁, hpay₁⟩ := hheap.retag (d := ⟨d.ptr, d.size, false⟩)
    (fun _ => freeIn_side) (by simp) ⟨rfl, hd₃, hd₄, rfl⟩
  obtain ⟨m', hcoalesce, hmerged⟩ := coalesce_spec hheap₁ rfl
  have hmem : (coalesce (s.setMem (retag s.mem d.ptr (d.ptr + d.size) (pack d.size 0)))
      d.ptr).1 = s.setMem m' := congrArg Prod.fst hcoalesce
  refine ⟨coalesceBlocks l ⟨d.ptr, d.size, false⟩ r, ?_⟩
  rw [heq, hmem]
  exact free_merged h.heap.layout.tiles h.apart ha h.start hmerged hpay₁

/-- Freeing the block behind the lost one brings it back: `coalesce` deletes it
from the list, which changes nothing, and inserts the merged block. -/
theorem Lost.free_effect (h : Lost base e s (l ++ e :: d :: r)) (he : e.alloc = false)
    (ha : d.alloc = true) :
    ∃ bs', Effect allocator (Sound base) s (mmFree s d.ptr) (l ++ e :: d :: r) bs'
      (some d) none := by
  have heq := mmFree_eq h.heap (d := d) (by simp)
  obtain ⟨hd₁, hd₂, hd₃, hd₄, hd₅⟩ := h.heap.ptr_bounds (b := d) (by simp)
  have hbs : l ++ e :: d :: r = (l ++ [e]) ++ d :: r := by simp
  have hF : ∀ c, FreeOf (l ++ e :: d :: r) c ∧ c ≠ e → c ∈ l ++ [e] ∨ c ∈ r := by
    intro c hc
    rw [hbs, freeOf_allocated ha] at hc
    exact hc.1.1
  have hheap : Heap s ((l ++ [e]) ++ [d] ++ r)
      (fun c => FreeOf (l ++ e :: d :: r) c ∧ c ≠ e) := by
    simpa using h.heap
  obtain ⟨hheap₁, hpay₁⟩ := hheap.retag (d := ⟨d.ptr, d.size, false⟩) hF (by simp)
    ⟨rfl, hd₃, hd₄, rfl⟩
  have he16 := h.heap.layout.tiles.size_ge (b := e) (by simp)
  have hkept := hpay₁ e (.inl (by simp))
  have hby := h.bypassed.congr (hheap.sameLinks_retag (pack d.size 0) hF)
    (hkept.successor he16) (hkept.predecessor he16)
  have hheap₂ : Heap (s.setMem (Malloc.retag s.mem d.ptr (d.ptr + d.size) (pack d.size 0)))
      (l ++ e :: ⟨d.ptr, d.size, false⟩ :: r)
      (fun c => FreeOf (l ++ e :: d :: r) c ∧ c ≠ e) := by
    rw [List.append_assoc] at hheap₁
    exact hheap₁
  have hunlinks : Unlinks (s.setMem (Malloc.retag s.mem d.ptr (d.ptr + d.size) (pack d.size 0))) e
      (l ++ e :: ⟨d.ptr, d.size, false⟩ :: r) (ListedIn (fun _ => True) l r) := by
    refine ⟨_, deleteNode_idle (bypassed_setMem.mpr hby), hheap₂.iff fun c => ?_,
      KeepsAllocated.refl _ _⟩
    rw [listedIn_true, hbs, freeOf_allocated ha]
    exact freeIn_delete_before h.heap.layout.tiles.nodup
  obtain ⟨m', hcoalesce, hmerged⟩ := coalesce_spec_before hheap₂ hunlinks he
    (fun _ _ => trivial) trivial
  have hmem : (coalesce (s.setMem (Malloc.retag s.mem d.ptr (d.ptr + d.size) (pack d.size 0)))
      d.ptr).1 = s.setMem m' := congrArg Prod.fst hcoalesce
  refine ⟨coalesceBlocks (l ++ [e]) ⟨d.ptr, d.size, false⟩ r, ?_⟩
  rw [heq, hmem, hbs]
  rw [hbs] at h
  exact free_merged h.heap.layout.tiles h.apart ha h.start hmerged hpay₁

/-- Freeing a block that is no neighbour of the lost one merges it as if the
lost block were not there. -/
theorem Lost.free_other (h : Lost base e s (l ++ d :: r)) (he : FreeOf (l ++ d :: r) e)
    (ha : d.alloc = true) (hbehind : e.ptr + e.size ≠ d.ptr) (hfront : d.ptr + d.size ≠ e.ptr) :
    ∃ m' F, mmFree s d.ptr = s.setMem m' ∧
      Heap (s.setMem m') (coalesceBlocks l ⟨d.ptr, d.size, false⟩ r) F := by
  have heq := mmFree_eq h.heap (d := d) (by simp)
  obtain ⟨hd₁, hd₂, hd₃, hd₄, hd₅⟩ := h.heap.ptr_bounds (b := d) (by simp)
  have htiles := h.heap.layout.tiles
  have hheap : Heap s (l ++ [d] ++ r) (ListedIn (· ≠ e) l r) := by
    rw [List.append_assoc]
    exact h.heap.iff fun c => and_congr_left' (freeOf_allocated ha).symm
  obtain ⟨hheap₁, -⟩ := hheap.retag (d := ⟨d.ptr, d.size, false⟩)
    (fun _ => listedIn_side) (by simp) ⟨rfl, hd₃, hd₄, rfl⟩
  have hprev : ∀ a ∈ freeBefore l, a ≠ e := by
    rintro a hal rfl
    rcases Layout.endsAllocated_or l with hl | ⟨l, a', rfl, ha'⟩
    · simp [hl] at hal
    · obtain rfl : a' = a := by simpa [ha'] using hal
      rw [List.append_assoc] at htiles
      exact hbehind htiles.prev_end
  have hnext : ∀ c ∈ freeAfter r, c ≠ e := by
    rintro c hcr rfl
    rcases Layout.startsAllocated_or r with hr | ⟨c', r, rfl, hc'⟩
    · simp [hr] at hcr
    · obtain rfl : c' = c := by simpa [hc'] using hcr
      exact hfront htiles.prev_end
  have hmerged : mergedBlock l ⟨d.ptr, d.size, false⟩ r ≠ e := by
    intro hme
    obtain ⟨hle, hge⟩ := mergedBlock_covers hheap₁.layout.tiles
    rw [hme] at hle hge
    dsimp only at hle hge
    rcases htiles.eq_or_apart (b := d) (by simp) he.1 with rfl | hapart | hapart
    · rw [he.2] at ha
      cases ha
    · omega
    · omega
  obtain ⟨m', hcoalesce, hheap₂, -⟩ := coalesce_listed hheap₁ rfl hprev hnext hmerged
  exact ⟨m', _, heq.trans (congrArg Prod.fst hcoalesce), hheap₂⟩

end CsappLabs.Malloc.Explicit
