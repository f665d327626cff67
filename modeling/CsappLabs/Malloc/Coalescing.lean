import CsappLabs.Malloc.Stores

/-!
# Coalescing on block lists

`coalesceBlocks l b r` is what `coalesce` means: the free block `b` between
the blocks `l` and `r` is merged with a free neighbour on either side.
-/

namespace CsappLabs.Malloc

open Layout

def freeBefore (l : List Block) : Option Block := l.getLast?.filter (!·.alloc)

def freeAfter (r : List Block) : Option Block := r.head?.filter (!·.alloc)

def beforeMerged (l : List Block) : List Block :=
  if (freeBefore l).isSome then l.dropLast else l

def afterMerged (r : List Block) : List Block :=
  if (freeAfter r).isSome then r.tail else r

def mergedBlock (l : List Block) (b : Block) (r : List Block) : Block where
  ptr := (freeBefore l).elim b.ptr Block.ptr
  size := (freeBefore l).elim 0 Block.size + b.size + (freeAfter r).elim 0 Block.size
  alloc := false

def coalesceBlocks (l : List Block) (b : Block) (r : List Block) : List Block :=
  beforeMerged l ++ mergedBlock l b r :: afterMerged r

def NoAdjacentFree (bs : List Block) : Prop :=
  bs.IsChain fun a b => a.alloc = true ∨ b.alloc = true

variable {l r bs : List Block} {a b c d : Block} {asize : Nat}

@[simp] theorem freeBefore_of_ends (h : EndsAllocated l) : freeBefore l = none := by
  unfold freeBefore
  cases hl : l.getLast? with
  | none => rfl
  | some a => simp [h a hl]

@[simp] theorem freeBefore_concat (ha : a.alloc = false) :
    freeBefore (l ++ [a]) = some a := by
  simp [freeBefore, ha]

@[simp] theorem freeAfter_of_starts (h : StartsAllocated r) : freeAfter r = none := by
  unfold freeAfter
  cases hr : r.head? with
  | none => rfl
  | some c => simp [h c hr]

@[simp] theorem freeAfter_cons (hc : c.alloc = false) : freeAfter (c :: r) = some c := by
  simp [freeAfter, hc]

@[simp] theorem mergedBlock_alloc : (mergedBlock l b r).alloc = false := rfl

/-! ## The four cases -/

theorem coalesceBlocks_none (hl : EndsAllocated l) (hr : StartsAllocated r) :
    coalesceBlocks l b r = l ++ ⟨b.ptr, b.size, false⟩ :: r := by
  simp [coalesceBlocks, beforeMerged, afterMerged, mergedBlock, hl, hr]

theorem coalesceBlocks_after (hl : EndsAllocated l) (hc : c.alloc = false) :
    coalesceBlocks l b (c :: r) = l ++ ⟨b.ptr, b.size + c.size, false⟩ :: r := by
  simp [coalesceBlocks, beforeMerged, afterMerged, mergedBlock, hl, hc]

theorem coalesceBlocks_before (ha : a.alloc = false) (hr : StartsAllocated r) :
    coalesceBlocks (l ++ [a]) b r = l ++ ⟨a.ptr, a.size + b.size, false⟩ :: r := by
  simp [coalesceBlocks, beforeMerged, afterMerged, mergedBlock, ha, hr]

theorem coalesceBlocks_both (ha : a.alloc = false) (hc : c.alloc = false) :
    coalesceBlocks (l ++ [a]) b (c :: r) =
      l ++ ⟨a.ptr, a.size + b.size + c.size, false⟩ :: r := by
  simp [coalesceBlocks, beforeMerged, afterMerged, mergedBlock, ha, hc]

theorem mergedBlock_covers {p q : Nat} (h : Tiles p (l ++ b :: r) q) :
    (mergedBlock l b r).ptr ≤ b.ptr ∧
      b.ptr + b.size ≤ (mergedBlock l b r).ptr + (mergedBlock l b r).size := by
  rcases endsAllocated_or l with hl | ⟨l, a, rfl, ha⟩
  · simp [mergedBlock, hl]
  · rw [List.append_assoc] at h
    have hab := h.prev_end
    simp only [mergedBlock, freeBefore_concat ha, Option.elim_some]
    omega

/-! ## Neighbours -/

@[simp] theorem noAdjacentFree_nil : NoAdjacentFree [] := List.isChain_nil

theorem noAdjacentFree_append {xs ys : List Block} :
    NoAdjacentFree (xs ++ ys) ↔
      NoAdjacentFree xs ∧ NoAdjacentFree ys ∧
        ∀ x ∈ xs.getLast?, ∀ y ∈ ys.head?, x.alloc = true ∨ y.alloc = true :=
  List.isChain_append

theorem noAdjacentFree_cons :
    NoAdjacentFree (b :: r) ↔
      NoAdjacentFree r ∧ ∀ c ∈ r.head?, b.alloc = true ∨ c.alloc = true := by
  rw [NoAdjacentFree, List.isChain_cons]
  exact And.comm

theorem NoAdjacentFree.left (h : NoAdjacentFree (l ++ r)) : NoAdjacentFree l :=
  (noAdjacentFree_append.mp h).1

theorem NoAdjacentFree.right (h : NoAdjacentFree (l ++ r)) : NoAdjacentFree r :=
  (noAdjacentFree_append.mp h).2.1

theorem NoAdjacentFree.tail (h : NoAdjacentFree (b :: r)) : NoAdjacentFree r :=
  (noAdjacentFree_cons.mp h).1

theorem NoAdjacentFree.endsAllocated (h : NoAdjacentFree (l ++ b :: r))
    (hb : b.alloc = false) : EndsAllocated l := by
  intro a ha
  have hab := (noAdjacentFree_append.mp h).2.2 a ha b rfl
  simpa [hb] using hab

theorem NoAdjacentFree.startsAllocated (h : NoAdjacentFree (l ++ b :: r))
    (hb : b.alloc = false) : StartsAllocated r := by
  intro c hc
  have hbc := (noAdjacentFree_cons.mp h.right).2 c hc
  simpa [hb] using hbc

/-- A block between two lists without adjacent free blocks: it is allocated,
or both of its neighbours are. -/
theorem noAdjacentFree_insert (hl : NoAdjacentFree l) (hr : NoAdjacentFree r)
    (hd : d.alloc = true ∨ EndsAllocated l ∧ StartsAllocated r) :
    NoAdjacentFree (l ++ d :: r) := by
  refine noAdjacentFree_append.mpr ⟨hl, noAdjacentFree_cons.mpr ⟨hr, ?_⟩, ?_⟩
  · intro c hc
    rcases hd with hd | ⟨-, hr⟩
    · exact .inl hd
    · exact .inr (hr c hc)
  · intro a ha y hy
    obtain rfl : d = y := by simpa using hy
    rcases hd with hd | ⟨hl, -⟩
    · exact .inr hd
    · exact .inl (hl a ha)

theorem coalesceBlocks_noAdjacentFree (hl : NoAdjacentFree l) (hr : NoAdjacentFree r) :
    NoAdjacentFree (coalesceBlocks l b r) := by
  rcases endsAllocated_or l with hle | ⟨l, a, rfl, ha⟩ <;>
    rcases startsAllocated_or r with hrs | ⟨c, r, rfl, hc⟩
  · rw [coalesceBlocks_none hle hrs]
    exact noAdjacentFree_insert hl hr (.inr ⟨hle, hrs⟩)
  · rw [coalesceBlocks_after hle hc]
    exact noAdjacentFree_insert hl hr.tail
      (.inr ⟨hle, (NoAdjacentFree.startsAllocated (l := []) hr hc)⟩)
  · rw [coalesceBlocks_before ha hrs]
    exact noAdjacentFree_insert hl.left hr (.inr ⟨hl.endsAllocated ha, hrs⟩)
  · rw [coalesceBlocks_both ha hc]
    exact noAdjacentFree_insert hl.left hr.tail
      (.inr ⟨hl.endsAllocated ha, NoAdjacentFree.startsAllocated (l := []) hr hc⟩)

theorem mem_coalesceBlocks (hd : d.alloc = true) :
    d ∈ coalesceBlocks l b r ↔ d ∈ l ∨ d ∈ r := by
  have hne : ∀ {p n : Nat}, d ≠ ⟨p, n, false⟩ := by
    rintro p n rfl
    simp at hd
  have hfree : ∀ {e : Block}, e.alloc = false → d ≠ e := by
    rintro e he rfl
    simp [hd] at he
  rcases endsAllocated_or l with hle | ⟨l, a, rfl, ha⟩ <;>
    rcases startsAllocated_or r with hrs | ⟨c, r, rfl, hc⟩
  · simp [coalesceBlocks_none hle hrs, hne]
  · simp [coalesceBlocks_after hle hc, hne, hfree hc]
  · simp [coalesceBlocks_before ha hrs, hne, hfree ha]
  · simp [coalesceBlocks_both ha hc, hne, hfree ha, hfree hc]

/-! ## Placing -/

def placed (b : Block) (asize : Nat) : Block where
  ptr := b.ptr
  size := if asize + 16 ≤ b.size then asize else b.size
  alloc := true

def leftover (b : Block) (asize : Nat) : List Block :=
  if asize + 16 ≤ b.size then [⟨b.ptr + asize, b.size - asize, false⟩] else []

@[simp] theorem placed_alloc : (placed b asize).alloc = true := rfl
@[simp] theorem placed_ptr : (placed b asize).ptr = b.ptr := rfl

theorem placed_split (h : asize + 16 ≤ b.size) : placed b asize = ⟨b.ptr, asize, true⟩ := by
  simp [placed, h]

theorem placed_whole (h : ¬asize + 16 ≤ b.size) : placed b asize = ⟨b.ptr, b.size, true⟩ := by
  simp [placed, h]

theorem leftover_split (h : asize + 16 ≤ b.size) :
    leftover b asize = [⟨b.ptr + asize, b.size - asize, false⟩] := by
  simp [leftover, h]

theorem leftover_whole (h : ¬asize + 16 ≤ b.size) : leftover b asize = [] := by
  simp [leftover, h]

theorem placed_size_ge (h : asize ≤ b.size) : asize ≤ (placed b asize).size := by
  unfold placed
  split
  · exact Nat.le_refl asize
  · exact h

theorem leftover_free : ∀ c ∈ leftover b asize, c.alloc = false := by
  intro c hc
  by_cases h : asize + 16 ≤ b.size
  · rw [leftover_split h, List.mem_singleton] at hc
    rw [hc]
  · simp [leftover_whole h] at hc

theorem mem_placed (hc : c.alloc = true) :
    c ∈ placed b asize :: leftover b asize ↔ c = placed b asize := by
  constructor
  · intro hmem
    rcases List.mem_cons.mp hmem with h | h
    · exact h
    · rw [leftover_free c h] at hc
      cases hc
  · rintro rfl
    simp

theorem noAdjacentFree_placed (hl : NoAdjacentFree l) (hr : NoAdjacentFree r)
    (hstart : asize + 16 ≤ b.size → Layout.StartsAllocated r) :
    NoAdjacentFree (l ++ placed b asize :: (leftover b asize ++ r)) := by
  refine noAdjacentFree_insert hl ?_ (.inl rfl)
  by_cases hsplit : asize + 16 ≤ b.size
  · rw [leftover_split hsplit]
    exact noAdjacentFree_insert (l := []) noAdjacentFree_nil hr
      (.inr ⟨by simp [Layout.EndsAllocated], hstart hsplit⟩)
  · rw [leftover_whole hsplit]
    exact hr

/-! ## Sets of free blocks -/

def FreeIn (l r : List Block) (c : Block) : Prop := (c ∈ l ∨ c ∈ r) ∧ c.alloc = false

def FreeOf (bs : List Block) (c : Block) : Prop := c ∈ bs ∧ c.alloc = false

theorem freeIn_side (h : FreeIn l r c) : c ∈ l ∨ c ∈ r := h.1

theorem freeOf_insert (hd : d.alloc = false) :
    FreeOf (l ++ d :: r) c ↔ FreeIn l r c ∨ c = d := by
  simp only [FreeOf, FreeIn, List.mem_append, List.mem_cons]
  constructor
  · rintro ⟨hc | rfl | hc, hf⟩
    · exact .inl ⟨.inl hc, hf⟩
    · exact .inr rfl
    · exact .inl ⟨.inr hc, hf⟩
  · rintro (⟨hc | hc, hf⟩ | rfl)
    · exact ⟨.inl hc, hf⟩
    · exact ⟨.inr (.inr hc), hf⟩
    · exact ⟨.inr (.inl rfl), hd⟩

theorem freeIn_allocated (hd : d.alloc = true) : FreeIn l (d :: r) c ↔ FreeIn l r c := by
  simp only [FreeIn, List.mem_cons]
  constructor
  · rintro ⟨hc | rfl | hc, hf⟩
    · exact ⟨.inl hc, hf⟩
    · simp [hd] at hf
    · exact ⟨.inr hc, hf⟩
  · rintro ⟨hc | hc, hf⟩
    · exact ⟨.inl hc, hf⟩
    · exact ⟨.inr (.inr hc), hf⟩

theorem freeOf_allocated (hd : d.alloc = true) :
    FreeOf (l ++ d :: r) c ↔ FreeIn l r c := by
  rw [FreeOf, List.mem_append]
  exact freeIn_allocated hd

theorem freeIn_allocated_before (hd : d.alloc = true) :
    FreeIn (l ++ [d]) r c ↔ FreeIn l r c := by
  simp only [FreeIn, List.mem_append, List.mem_singleton]
  constructor
  · rintro ⟨(hc | rfl) | hc, hf⟩
    · exact ⟨.inl hc, hf⟩
    · simp [hd] at hf
    · exact ⟨.inr hc, hf⟩
  · rintro ⟨hc | hc, hf⟩
    · exact ⟨.inl (.inl hc), hf⟩
    · exact ⟨.inr hc, hf⟩

theorem freeIn_delete_self (h : (l ++ b :: r).Nodup) :
    FreeIn l r c ↔ FreeOf (l ++ b :: r) c ∧ c ≠ b := by
  simp only [FreeIn, FreeOf, List.mem_append, List.mem_cons]
  obtain ⟨-, hr, hdisj⟩ := List.nodup_append.mp h
  have hbr : b ∉ r := (List.nodup_cons.mp hr).1
  have hbl : b ∉ l := fun hb => hdisj b hb b (by simp) rfl
  constructor
  · rintro ⟨hc | hc, hf⟩
    · exact ⟨⟨.inl hc, hf⟩, fun e => hbl (e ▸ hc)⟩
    · exact ⟨⟨.inr (.inr hc), hf⟩, fun e => hbr (e ▸ hc)⟩
  · rintro ⟨⟨hc | hc | hc, hf⟩, hne⟩
    · exact ⟨.inl hc, hf⟩
    · exact absurd hc hne
    · exact ⟨.inr hc, hf⟩

theorem freeIn_delete_after (h : (l ++ b :: c :: r).Nodup) {e : Block} :
    FreeIn l r e ↔ FreeIn l (c :: r) e ∧ e ≠ c := by
  simp only [FreeIn, List.mem_cons]
  obtain ⟨-, hr, hdisj⟩ := List.nodup_append.mp h
  have hcr : c ∉ r := (List.nodup_cons.mp (List.nodup_cons.mp hr).2).1
  have hcl : c ∉ l := fun hc => hdisj c hc c (by simp) rfl
  constructor
  · rintro ⟨he | he, hf⟩
    · exact ⟨⟨.inl he, hf⟩, fun e' => hcl (e' ▸ he)⟩
    · exact ⟨⟨.inr (.inr he), hf⟩, fun e' => hcr (e' ▸ he)⟩
  · rintro ⟨⟨he | he | he, hf⟩, hne⟩
    · exact ⟨.inl he, hf⟩
    · exact absurd he hne
    · exact ⟨.inr he, hf⟩

theorem freeIn_delete_before (h : (l ++ a :: b :: r).Nodup) {e : Block} :
    FreeIn l r e ↔ FreeIn (l ++ [a]) r e ∧ e ≠ a := by
  simp only [FreeIn, List.mem_append, List.mem_singleton]
  obtain ⟨-, hr, hdisj⟩ := List.nodup_append.mp h
  have har : a ∉ r := fun ha => (List.nodup_cons.mp hr).1 (by simp [ha])
  have hal : a ∉ l := fun ha => hdisj a ha a (by simp) rfl
  constructor
  · rintro ⟨he | he, hf⟩
    · exact ⟨⟨.inl (.inl he), hf⟩, fun e' => hal (e' ▸ he)⟩
    · exact ⟨⟨.inr he, hf⟩, fun e' => har (e' ▸ he)⟩
  · rintro ⟨⟨(he | he) | he, hf⟩, hne⟩
    · exact ⟨.inl he, hf⟩
    · exact absurd he hne
    · exact ⟨.inr he, hf⟩

theorem mem_sides (hb : b.alloc = false) (hc : c ∈ l ++ b :: r) (ha : c.alloc = true) :
    c ∈ l ∨ c ∈ r := by
  simp only [List.mem_append, List.mem_cons] at hc
  rcases hc with hc | rfl | hc
  · exact .inl hc
  · simp [hb] at ha
  · exact .inr hc

theorem not_freeIn_inside {p q : Nat} (h : Tiles p (l ++ b :: r) q) (hd : b.ptr ≤ d.ptr)
    (hlt : d.ptr < b.ptr + b.size) (h16 : 0 < d.size) : ¬FreeIn l r d := by
  rintro ⟨hmem | hmem, -⟩
  · have := h.left_end hmem
    omega
  · have := h.right_start hmem
    omega

theorem Layout.no_room {m : Foundation.Mem} {lo hi : Nat}
    (h : Layout m lo (l ++ d :: r) hi) (hr : StartsAllocated r) (hlt : d.size < asize) :
    ¬((getAlloc m (hdrp (nextBlkp m d.ptr)) = 0 ∨
        getSize m (hdrp (nextBlkp m d.ptr)) = 0) ∧
      addw d.size (getSize m (hdrp (nextBlkp m d.ptr))) ≥ asize) := by
  have hd := h.size_lt (b := d) (by simp)
  rw [h.nextAlloc_of_starts hr]
  cases r with
  | nil =>
      have hend := h.tiles.last_end
      have hnext := h.nextBlkp_eq (b := d) (by simp)
      have hepi : getSize m (hdrp (nextBlkp m d.ptr)) = 0 := by
        rw [hnext, hend]
        exact getSize_of_load h.epilogue (by decide) (by decide)
      rw [hepi, addw_eq (by omega)]
      omega
  | cons c r =>
      have hc := h.tiles.size_ge (b := c) (by simp)
      rw [h.nextBlkp_cons, h.getSize_hdrp (by simp)]
      omega

/-! ## Changes of the allocated blocks -/

/-- `d` is a new allocated block, and the other allocated blocks are the same. -/
structure Gains (bs bs' : List Block) (d : Block) : Prop where
  alloc : d.alloc = true
  fresh : d ∉ bs
  mem : ∀ c, c.alloc = true → (c ∈ bs' ↔ c ∈ bs ∨ c = d)

/-- The allocated block `d` is gone, and the other ones are the same. -/
structure Loses (bs bs' : List Block) (d : Block) : Prop where
  alloc : d.alloc = true
  held : d ∈ bs
  mem : ∀ c, c.alloc = true → (c ∈ bs' ↔ c ∈ bs ∧ c ≠ d)

def SameAllocated (bs bs' : List Block) : Prop :=
  ∀ c, c.alloc = true → (c ∈ bs' ↔ c ∈ bs)

theorem gains_of_free {l r : List Block} (ys : List Block) {p q : Nat} (ht : Tiles p (l ++ b :: r) q)
    (hb : b.alloc = false) (hd : d.alloc = true) (hge : b.ptr ≤ d.ptr)
    (hle : d.ptr < b.ptr + b.size) (hys : ∀ c, c.alloc = true → (c ∈ ys ↔ c = d)) :
    Gains (l ++ b :: r) (l ++ ys ++ r) d where
  alloc := hd
  fresh hmem := by
    have h16 := ht.size_ge hmem
    rcases ht.eq_or_apart (b := b) (by simp) hmem with rfl | h | h
    · simp [hb] at hd
    · omega
    · omega
  mem c hc := by
    have hcb : c ≠ b := by
      rintro rfl
      simp [hb] at hc
    simp only [List.mem_append, List.mem_cons, hys c hc, hcb, false_or]
    tauto

theorem loses_coalesce {p q : Nat} {b' : Block} (ht : Tiles p (l ++ b :: r) q)
    (hb : b.alloc = true) : Loses (l ++ b :: r) (coalesceBlocks l b' r) b where
  alloc := hb
  held := by simp
  mem c hc := by
    obtain ⟨-, hnd, hdisj⟩ := List.nodup_append.mp ht.nodup
    obtain ⟨hbr, -⟩ := List.nodup_cons.mp hnd
    rw [mem_coalesceBlocks hc]
    simp only [List.mem_append, List.mem_cons]
    constructor
    · rintro (hcl | hcr)
      · exact ⟨.inl hcl, fun e => hdisj c hcl b (by simp) e⟩
      · exact ⟨.inr (.inr hcr), fun e => hbr (e ▸ hcr)⟩
    · rintro ⟨hcl | hcb | hcr, hne⟩
      · exact .inl hcl
      · exact absurd hcb hne
      · exact .inr hcr

end CsappLabs.Malloc
