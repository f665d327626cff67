import CsappLabs.Malloc.Memlib
import Mathlib.Data.List.Chain

/-!
# Tilings of the heap by tagged blocks

The abstract heap of the three allocators is a list of blocks in address
order.  `Tiles` says that the blocks fill an interval without gaps, `Layout`
that a memory carries their boundary tags between a prologue and an epilogue.
A block is named by its payload pointer, as in the source, so that it occupies
the bytes from `ptr - 4` to `ptr + size - 4`.
-/

namespace CsappLabs.Malloc

open CsappLabs.Foundation

structure Block where
  ptr : Nat
  size : Nat
  alloc : Bool
  deriving DecidableEq, Repr

def Block.tag (b : Block) : Nat := pack b.size b.alloc.toNat

/-- Consecutive blocks whose payload pointers run from `p` up to `q`. -/
def Tiles : Nat → List Block → Nat → Prop
  | p, [], q => p = q
  | p, b :: bs, q =>
      b.ptr = p ∧ 16 ≤ b.size ∧ b.size % 8 = 0 ∧ Tiles (p + b.size) bs q

@[simp] theorem tiles_nil {p q : Nat} : Tiles p [] q ↔ p = q := Iff.rfl

@[simp] theorem tiles_cons {p q : Nat} {b : Block} {bs : List Block} :
    Tiles p (b :: bs) q ↔
      b.ptr = p ∧ 16 ≤ b.size ∧ b.size % 8 = 0 ∧ Tiles (p + b.size) bs q := Iff.rfl

theorem tiles_append {p q : Nat} {xs ys : List Block} :
    Tiles p (xs ++ ys) q ↔ ∃ m, Tiles p xs m ∧ Tiles m ys q := by
  induction xs generalizing p with
  | nil => simp
  | cons b xs ih =>
      simp only [List.cons_append, tiles_cons, ih]
      constructor
      · rintro ⟨hp, hs, hm, m, h₁, h₂⟩
        exact ⟨m, ⟨hp, hs, hm, h₁⟩, h₂⟩
      · rintro ⟨m, ⟨hp, hs, hm, h₁⟩, h₂⟩
        exact ⟨hp, hs, hm, m, h₁, h₂⟩

namespace Tiles

variable {p q p' q' : Nat} {b c : Block} {bs xs l r : List Block}

theorem le (h : Tiles p bs q) : p ≤ q := by
  induction bs generalizing p with
  | nil => exact Nat.le_of_eq h
  | cons b bs ih => exact (Nat.le_add_right p b.size).trans (ih h.2.2.2)

theorem size_ge (h : Tiles p bs q) (hb : b ∈ bs) : 16 ≤ b.size := by
  induction bs generalizing p with
  | nil => simp at hb
  | cons c bs ih =>
      rcases List.mem_cons.mp hb with rfl | hb
      · exact h.2.1
      · exact ih h.2.2.2 hb

theorem size_mod (h : Tiles p bs q) (hb : b ∈ bs) : b.size % 8 = 0 := by
  induction bs generalizing p with
  | nil => simp at hb
  | cons c bs ih =>
      rcases List.mem_cons.mp hb with rfl | hb
      · exact h.2.2.1
      · exact ih h.2.2.2 hb

theorem ptr_ge (h : Tiles p bs q) (hb : b ∈ bs) : p ≤ b.ptr := by
  induction bs generalizing p with
  | nil => simp at hb
  | cons c bs ih =>
      rcases List.mem_cons.mp hb with rfl | hb
      · exact Nat.le_of_eq h.1.symm
      · exact (Nat.le_add_right p c.size).trans (ih h.2.2.2 hb)

theorem ptr_add_size_le (h : Tiles p bs q) (hb : b ∈ bs) : b.ptr + b.size ≤ q := by
  induction bs generalizing p with
  | nil => simp at hb
  | cons c bs ih =>
      rcases List.mem_cons.mp hb with rfl | hb
      · exact h.1 ▸ h.2.2.2.le
      · exact ih h.2.2.2 hb

theorem ptr_mod (h : Tiles p bs q) (hb : b ∈ bs) : b.ptr % 8 = p % 8 := by
  induction bs generalizing p with
  | nil => simp at hb
  | cons c bs ih =>
      rcases List.mem_cons.mp hb with rfl | hb
      · rw [h.1]
      · have hc := h.2.2.1
        have hbs := ih h.2.2.2 hb
        omega

theorem eq_or_apart (h : Tiles p bs q) (hb : b ∈ bs) (hc : c ∈ bs) :
    b = c ∨ b.ptr + b.size ≤ c.ptr ∨ c.ptr + c.size ≤ b.ptr := by
  induction bs generalizing p with
  | nil => simp at hb
  | cons d bs ih =>
      obtain ⟨hp, -, -, htail⟩ := h
      rcases List.mem_cons.mp hb with hbd | hb' <;>
        rcases List.mem_cons.mp hc with hcd | hc'
      · exact .inl (hbd.trans hcd.symm)
      · subst hbd
        exact .inr (.inl (hp ▸ htail.ptr_ge hc'))
      · subst hcd
        exact .inr (.inr (hp ▸ htail.ptr_ge hb'))
      · exact ih htail hb' hc'

theorem ptr_injective (h : Tiles p bs q) (hb : b ∈ bs) (hc : c ∈ bs)
    (e : b.ptr = c.ptr) : b = c := by
  have hb16 := h.size_ge hb
  have hc16 := h.size_ge hc
  rcases h.eq_or_apart hb hc with hbc | hbc | hbc
  · exact hbc
  · omega
  · omega

theorem nodup (h : Tiles p bs q) : bs.Nodup := by
  induction bs generalizing p with
  | nil => exact List.nodup_nil
  | cons b bs ih =>
      refine List.nodup_cons.mpr ⟨fun hb => ?_, ih h.2.2.2⟩
      have hge := h.2.2.2.ptr_ge hb
      have hp := h.1
      have h16 := h.2.1
      omega

theorem ends_mod (h : Tiles p bs q) : q % 8 = p % 8 := by
  induction bs generalizing p with
  | nil => rw [show p = q from h]
  | cons b bs ih =>
      have htail := ih h.2.2.2
      have hb := h.2.2.1
      omega

theorem ends_unique (h : Tiles p xs q) (h' : Tiles p' xs q') (hne : xs ≠ []) :
    p = p' ∧ q = q' := by
  induction xs generalizing p p' with
  | nil => exact absurd rfl hne
  | cons b xs ih =>
      have hp : p = p' := h.1.symm.trans h'.1
      subst hp
      refine ⟨rfl, ?_⟩
      have ht := h.2.2.2
      have ht' := h'.2.2.2
      cases xs with
      | nil => exact ht.symm.trans ht'
      | cons c xs => exact (ih ht ht' (by simp)).2

theorem prev_end (h : Tiles p (l ++ c :: b :: r) q) : c.ptr + c.size = b.ptr := by
  obtain ⟨m, -, hm⟩ := tiles_append.mp h
  obtain ⟨hc, -, -, hb, -⟩ := hm
  omega

theorem last_end (h : Tiles p (l ++ [b]) q) : b.ptr + b.size = q := by
  obtain ⟨m, -, hb, -, -, hq⟩ := tiles_append.mp h
  rw [hb]
  exact hq

theorem left_end (h : Tiles p (l ++ b :: r) q) (hc : c ∈ l) :
    c.ptr + c.size ≤ b.ptr := by
  obtain ⟨m, hl, hb, -⟩ := tiles_append.mp h
  rw [hb]
  exact hl.ptr_add_size_le hc

theorem right_start (h : Tiles p (l ++ b :: r) q) (hc : c ∈ r) :
    b.ptr + b.size ≤ c.ptr := by
  obtain ⟨m, -, hb, -, -, hr⟩ := tiles_append.mp h
  rw [hb]
  exact hr.ptr_ge hc

end Tiles

/-! ## Boundary tags -/

def Tagged (m : Mem) (b : Block) : Prop :=
  load m (b.ptr - 4) = b.tag ∧ load m (b.ptr + b.size - 8) = b.tag

structure Layout (m : Mem) (lo : Nat) (bs : List Block) (hi : Nat) : Prop where
  tiles : Tiles lo bs hi
  tagged : ∀ b ∈ bs, Tagged m b
  prologueHeader : load m (lo - 12) = pack 8 1
  prologueFooter : load m (lo - 8) = pack 8 1
  epilogue : load m (hi - 4) = pack 0 1
  lo_ge : 16 ≤ lo
  hi_lt : hi < 2 ^ 32

theorem pack_eq {size alloc : Nat} (hs : size % 8 = 0) (ha : alloc < 8) :
    pack size alloc = size + alloc := or_low hs ha

theorem getSize_of_load {m : Mem} {p size alloc : Nat}
    (h : load m p = pack size alloc) (hs : size % 8 = 0) (ha : alloc < 8) :
    getSize m p = size := by
  have hlt := load_lt m p
  rw [getSize, and_not_seven hlt, h, pack_eq hs ha]
  omega

theorem getAlloc_of_load {m : Mem} {p size alloc : Nat}
    (h : load m p = pack size alloc) (hs : size % 8 = 0) (ha : alloc < 2) :
    getAlloc m p = alloc := by
  rw [getAlloc, h, pack_eq hs (by omega), Nat.and_one_is_mod]
  omega

theorem load_store_pack (m : Mem) {p size alloc : Nat}
    (hs : size % 8 = 0) (ha : alloc < 2) (hlt : size < 2 ^ 32) :
    load (store m p (pack size alloc)) p = pack size alloc := by
  rw [load_store_same, pack_eq hs (by omega), Nat.mod_eq_of_lt (by omega)]

theorem Bool.toNat_lt_two (a : Bool) : a.toNat < 2 := by
  cases a <;> decide

namespace Layout

variable {m m' : Mem} {lo hi p q : Nat} {a b c : Block} {bs l r xs ys : List Block}

theorem size_lt (h : Layout m lo bs hi) (hb : b ∈ bs) : b.size < 2 ^ 32 := by
  have h₁ := h.tiles.ptr_add_size_le hb
  have h₂ := h.hi_lt
  omega

theorem ptr_ge (h : Layout m lo bs hi) (hb : b ∈ bs) : 16 ≤ b.ptr :=
  h.lo_ge.trans (h.tiles.ptr_ge hb)

theorem getSize_hdrp (h : Layout m lo bs hi) (hb : b ∈ bs) :
    getSize m (hdrp b.ptr) = b.size :=
  getSize_of_load (h.tagged b hb).1 (h.tiles.size_mod hb)
    ((Bool.toNat_lt_two _).trans (by decide))

theorem getAlloc_hdrp (h : Layout m lo bs hi) (hb : b ∈ bs) :
    getAlloc m (hdrp b.ptr) = b.alloc.toNat :=
  getAlloc_of_load (h.tagged b hb).1 (h.tiles.size_mod hb) (Bool.toNat_lt_two _)

theorem ftrp_eq (h : Layout m lo bs hi) (hb : b ∈ bs) :
    ftrp m b.ptr = b.ptr + b.size - 8 := by
  rw [ftrp, h.getSize_hdrp hb]

theorem getSize_ftrp (h : Layout m lo bs hi) (hb : b ∈ bs) :
    getSize m (ftrp m b.ptr) = b.size := by
  rw [h.ftrp_eq hb]
  exact getSize_of_load (h.tagged b hb).2 (h.tiles.size_mod hb)
    ((Bool.toNat_lt_two _).trans (by decide))

theorem getAlloc_ftrp (h : Layout m lo bs hi) (hb : b ∈ bs) :
    getAlloc m (ftrp m b.ptr) = b.alloc.toNat := by
  rw [h.ftrp_eq hb]
  exact getAlloc_of_load (h.tagged b hb).2 (h.tiles.size_mod hb) (Bool.toNat_lt_two _)

theorem nextBlkp_eq (h : Layout m lo bs hi) (hb : b ∈ bs) :
    nextBlkp m b.ptr = b.ptr + b.size := by
  rw [nextBlkp, ← hdrp, h.getSize_hdrp hb]

theorem nextBlkp_cons (h : Layout m lo (l ++ b :: c :: r) hi) :
    nextBlkp m b.ptr = c.ptr := by
  rw [h.nextBlkp_eq (by simp), h.tiles.prev_end]

theorem prevBlkp_end (h : Layout m lo (l ++ a :: r) hi) :
    prevBlkp m (a.ptr + a.size) = a.ptr := by
  have ha : a ∈ l ++ a :: r := by simp
  have hsize : getSize m (a.ptr + a.size - 8) = a.size :=
    getSize_of_load (h.tagged a ha).2 (h.tiles.size_mod ha)
      ((Bool.toNat_lt_two _).trans (by decide))
  rw [prevBlkp, hsize]
  omega

theorem prevBlkp_concat (h : Layout m lo (l ++ a :: b :: r) hi) :
    prevBlkp m b.ptr = a.ptr := by
  rw [← h.tiles.prev_end]
  exact h.prevBlkp_end

/-! ### What the neighbours' tags say -/

def EndsAllocated (l : List Block) : Prop := ∀ a ∈ l.getLast?, a.alloc = true

def StartsAllocated (r : List Block) : Prop := ∀ c ∈ r.head?, c.alloc = true

theorem endsAllocated_or (l : List Block) :
    EndsAllocated l ∨ ∃ l' a, l = l' ++ [a] ∧ a.alloc = false := by
  rcases List.eq_nil_or_concat l with rfl | ⟨l', a, rfl⟩
  · exact .inl (by simp [EndsAllocated])
  · cases ha : a.alloc with
    | true => exact .inl (by simp [EndsAllocated, ha])
    | false => exact .inr ⟨l', a, by simp, ha⟩

theorem startsAllocated_or (r : List Block) :
    StartsAllocated r ∨ ∃ c r', r = c :: r' ∧ c.alloc = false := by
  cases r with
  | nil => exact .inl (by simp [StartsAllocated])
  | cons c r' =>
      cases hc : c.alloc with
      | true => exact .inl (by simp [StartsAllocated, hc])
      | false => exact .inr ⟨c, r', rfl, hc⟩

theorem prevAlloc_at {p : Nat} (h : Layout m lo (l ++ r) hi) (ht : Tiles lo l p)
    (hl : EndsAllocated l) : getAlloc m (ftrp m (prevBlkp m p)) = 1 := by
  rcases List.eq_nil_or_concat l with rfl | ⟨l', a, rfl⟩
  · -- the block in front is the prologue, whose header and footer are adjacent words
    have hp : lo = p := ht
    have h16 := h.lo_ge
    have hfoot : getSize m (p - 8) = 8 :=
      getSize_of_load (by rw [← hp]; exact h.prologueFooter) (by decide) (by decide)
    have hprev : prevBlkp m p = lo - 8 := by rw [prevBlkp, hfoot, hp]
    have hhead : getSize m (hdrp (lo - 8)) = 8 :=
      getSize_of_load (p := lo - 8 - 4) (by rw [Nat.sub_sub]; exact h.prologueHeader)
        (by decide) (by decide)
    rw [hprev, ftrp, hhead, Nat.add_sub_cancel]
    exact getAlloc_of_load h.prologueFooter (by decide) (by decide)
  · simp only [List.concat_eq_append] at h hl ht
    have h' : Layout m lo (l' ++ a :: r) hi := by simpa using h
    rw [← ht.last_end, h'.prevBlkp_end, h'.getAlloc_ftrp (by simp), hl a (by simp)]
    rfl

theorem prevAlloc_of_ends (h : Layout m lo (l ++ b :: r) hi) (hl : EndsAllocated l) :
    getAlloc m (ftrp m (prevBlkp m b.ptr)) = 1 := by
  obtain ⟨p, ht, hb, -⟩ := tiles_append.mp h.tiles
  rw [hb]
  exact h.prevAlloc_at ht hl

theorem prevAlloc_of_free (h : Layout m lo (l ++ a :: b :: r) hi)
    (ha : a.alloc = false) : getAlloc m (ftrp m (prevBlkp m b.ptr)) = 0 := by
  rw [h.prevBlkp_concat, h.getAlloc_ftrp (by simp), ha]
  rfl

theorem nextAlloc_of_starts (h : Layout m lo (l ++ b :: r) hi) (hr : StartsAllocated r) :
    getAlloc m (hdrp (nextBlkp m b.ptr)) = 1 := by
  cases r with
  | nil =>
      rw [h.nextBlkp_eq (by simp), h.tiles.last_end]
      exact getAlloc_of_load h.epilogue (by decide) (by decide)
  | cons c r =>
      rw [h.nextBlkp_cons, h.getAlloc_hdrp (by simp), hr c (by simp)]
      rfl

theorem nextAlloc_of_free (h : Layout m lo (l ++ b :: c :: r) hi)
    (hc : c.alloc = false) : getAlloc m (hdrp (nextBlkp m b.ptr)) = 0 := by
  rw [h.nextBlkp_cons, h.getAlloc_hdrp (by simp), hc]
  rfl

end Layout

/-! ## The walk over the blocks -/

/-- The loop of `mm_checkheap` that starts at `bp`: the blocks it meets and the
pointer it stops at. -/
def walkBlocks (m : Mem) : Nat → Nat → Option (List Block × Nat)
  | 0, _ => none
  | fuel + 1, bp =>
      if getSize m (hdrp bp) > 0 then
        (walkBlocks m fuel (nextBlkp m bp)).map fun r =>
          (⟨bp, getSize m (hdrp bp), getAlloc m (hdrp bp) = 1⟩ :: r.1, r.2)
      else some ([], bp)

theorem Tiles.length_le {p q : Nat} {bs : List Block} (h : Tiles p bs q) :
    p + 16 * bs.length ≤ q := by
  induction bs generalizing p with
  | nil => exact Nat.le_of_eq h
  | cons b bs ih =>
      have htail := ih h.2.2.2
      have h16 := h.2.1
      simp only [List.length_cons]
      omega

theorem walkBlocks_tiles {m : Mem} {p q n : Nat} {bs : List Block} (h : Tiles p bs q)
    (htag : ∀ b ∈ bs, Tagged m b) (hepi : load m (q - 4) = pack 0 1)
    (hn : bs.length < n) : walkBlocks m n p = some (bs, q) := by
  induction bs generalizing p n with
  | nil =>
      obtain ⟨n, rfl⟩ := Nat.exists_eq_add_of_lt hn
      obtain rfl : p = q := h
      have hend : getSize m (hdrp p) = 0 := getSize_of_load hepi (by decide) (by decide)
      simp [walkBlocks, hend]
  | cons b bs ih =>
      obtain ⟨rfl, h16, hmod, htail⟩ := h
      cases n with
      | zero => simp at hn
      | succ n =>
          have ha := Bool.toNat_lt_two b.alloc
          have hhead : load m (hdrp b.ptr) = pack b.size b.alloc.toNat :=
            (htag b (by simp)).1
          have hsize := getSize_of_load hhead hmod (by omega)
          have halloc := getAlloc_of_load hhead hmod ha
          have hnext : nextBlkp m b.ptr = b.ptr + b.size := by rw [nextBlkp, ← hdrp, hsize]
          have hrest := ih htail (fun c hc => htag c (by simp [hc])) (by simpa using hn)
          rw [walkBlocks, hsize, if_pos (by omega), hnext, hrest, halloc]
          cases hb : b.alloc <;> simp [← hb]

theorem Layout.walkBlocks_eq {m : Mem} {lo hi : Nat} {bs : List Block}
    (h : Layout m lo bs hi) :
    walkBlocks m walkFuel (lo - 8) = some (⟨lo - 8, 8, true⟩ :: bs, hi) := by
  have hlo := h.lo_ge
  have hlen := h.tiles.length_le
  have hlt := h.hi_lt
  have hhead : load m (hdrp (lo - 8)) = pack 8 1 := by
    rw [hdrp, Nat.sub_sub]
    exact h.prologueHeader
  have hsize : getSize m (hdrp (lo - 8)) = 8 := getSize_of_load hhead (by decide) (by decide)
  have halloc : getAlloc m (hdrp (lo - 8)) = 1 :=
    getAlloc_of_load hhead (by decide) (by decide)
  have hnext : nextBlkp m (lo - 8) = lo := by
    rw [nextBlkp, ← hdrp, hsize]
    omega
  have hrest := walkBlocks_tiles (n := 2 ^ 32 - 1) h.tiles h.tagged h.epilogue (by omega)
  rw [show walkFuel = 2 ^ 32 - 1 + 1 from rfl, walkBlocks, hsize, if_pos (by decide), hnext,
    hrest, halloc]
  rfl

end CsappLabs.Malloc
