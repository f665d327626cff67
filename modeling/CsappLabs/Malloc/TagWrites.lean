import CsappLabs.Malloc.Stores

/-!
# Sequences of tag writes

The routines write a header, read a size back to find the footer, and write
it.  The lemmas here say which memory such a sequence leaves, although some of
the tags that it reads are by then stale.
-/

namespace CsappLabs.Malloc

open CsappLabs.Foundation

variable {m m' : Mem} {lo hi p q n v w : Nat} {a b c d : Block} {bs l r xs ys : List Block}

/-! ## Reading tags past a store -/

theorem getSize_store (v : Nat) (h : p + 4 ≤ w ∨ w + 4 ≤ p) :
    getSize (store m w v) p = getSize m p := by
  unfold getSize
  rw [load_store_of_apart _ _ h]

theorem prevBlkp_store (v : Nat) (h : p - 8 + 4 ≤ w ∨ w + 4 ≤ p - 8) :
    prevBlkp (store m w v) p = prevBlkp m p := by
  unfold prevBlkp
  rw [getSize_store v h]

theorem nextBlkp_store (v : Nat) (h : p - 4 + 4 ≤ w ∨ w + 4 ≤ p - 4) :
    nextBlkp (store m w v) p = nextBlkp m p := by
  unfold nextBlkp
  rw [getSize_store v h]

theorem ftrp_store (v : Nat) (h : p - 4 + 4 ≤ w ∨ w + 4 ≤ p - 4) :
    ftrp (store m w v) p = ftrp m p := by
  unfold ftrp hdrp
  rw [getSize_store v h]

/-! ## Header, then footer -/

theorem getSize_header (m : Mem) {k : Nat} (hn : n % 8 = 0) (hk : k < 2) (hlt : n < 2 ^ 32) :
    getSize (store m (hdrp p) (pack n k)) (hdrp p) = n :=
  getSize_of_load (load_store_pack m hn hk hlt) hn (by omega)

theorem nextBlkp_header (m : Mem) {k : Nat} (hn : n % 8 = 0) (hk : k < 2) (hlt : n < 2 ^ 32) :
    nextBlkp (store m (hdrp p) (pack n k)) p = p + n := by
  rw [nextBlkp, ← hdrp, getSize_header m hn hk hlt]

theorem retag_header_first (m : Mem) {k : Nat} (hn : n % 8 = 0) (hk : k < 2)
    (hlt : n < 2 ^ 32) :
    store (store m (hdrp p) (pack n k))
        (ftrp (store m (hdrp p) (pack n k)) p) (pack n k) =
      retag m p (p + n) (pack n k) := by
  rw [ftrp, getSize_header m hn hk hlt]
  rfl

theorem nextBlkp_retag (m : Mem) {k : Nat} (hn : n % 8 = 0) (h16 : 16 ≤ n) (hk : k < 2)
    (hlt : n < 2 ^ 32) :
    nextBlkp (retag m p (p + n) (pack n k)) p = p + n := by
  unfold retag
  rw [nextBlkp_store _ (by omega)]
  exact nextBlkp_header m hn hk hlt

/-! ## The writes of `coalesce` -/

/-- The block in front is free: the footer is written first, and the pointer
to the block in front is read from a stale footer each time. -/
theorem coalesce_before_writes (h : Layout m lo (l ++ a :: b :: r) hi) (t : Nat) :
    prevBlkp (store m (ftrp m b.ptr) t) b.ptr = a.ptr ∧
      store (store m (ftrp m b.ptr) t) (hdrp a.ptr) t =
        retag m a.ptr (b.ptr + b.size) t ∧
      prevBlkp (retag m a.ptr (b.ptr + b.size) t) b.ptr = a.ptr := by
  have hend := h.tiles.prev_end
  have ha16 := h.tiles.size_ge (b := a) (by simp)
  have hb16 := h.tiles.size_ge (b := b) (by simp)
  have hprev := h.prevBlkp_concat
  rw [h.ftrp_eq (b := b) (by simp)]
  refine ⟨?_, retag_eq_footer_first m t (by omega), ?_⟩
  · rw [prevBlkp_store t (by omega), hprev]
  · unfold retag
    rw [prevBlkp_store t (by omega), prevBlkp_store t (by omega), hprev]

theorem coalesce_both_writes (h : Layout m lo (l ++ a :: b :: c :: r) hi) (t : Nat) :
    ftrp (store m (hdrp a.ptr) t) (nextBlkp (store m (hdrp a.ptr) t) b.ptr) =
        c.ptr + c.size - 8 ∧
      prevBlkp (retag m a.ptr (c.ptr + c.size) t) b.ptr = a.ptr := by
  have hab := h.tiles.prev_end
  have h' : Layout m lo ((l ++ [a]) ++ b :: c :: r) hi := by simpa using h
  have hbc := h'.tiles.prev_end
  have ha16 := h.tiles.size_ge (b := a) (by simp)
  have hb16 := h.tiles.size_ge (b := b) (by simp)
  have hc16 := h.tiles.size_ge (b := c) (by simp)
  constructor
  · unfold hdrp
    rw [nextBlkp_store t (by omega), h'.nextBlkp_cons, ftrp_store t (by omega)]
    exact h.ftrp_eq (by simp)
  · unfold retag
    rw [prevBlkp_store t (by omega), prevBlkp_store t (by omega), h.prevBlkp_concat]

/-! ## Splitting a block -/

def splitTags (m : Mem) (p n₁ n₂ t₁ t₂ : Nat) : Mem :=
  retag (retag m p (p + n₁) t₁) (p + n₁) (p + n₁ + n₂) t₂

theorem splitTags_of_outside (m : Mem) {n₁ n₂ x : Nat} (t₁ t₂ : Nat) (hp : 4 ≤ p)
    (h₁ : 16 ≤ n₁) (h₂ : 16 ≤ n₂) (h : x < p - 4 ∨ p + n₁ + n₂ - 4 ≤ x) :
    splitTags m p n₁ n₂ t₁ t₂ x = m x := by
  unfold splitTags
  rw [retag_of_outside _ _ (by omega) (by omega) (by omega) (by omega),
    retag_of_outside _ _ (by omega) (by omega) (by omega) (by omega)]

def splitBlocks (p n₁ n₂ : Nat) (a₁ a₂ : Bool) : List Block :=
  [⟨p, n₁, a₁⟩, ⟨p + n₁, n₂, a₂⟩]

theorem splitTags_tagged (m : Mem) {n₁ n₂ : Nat} (a₁ a₂ : Bool) (hp : 4 ≤ p)
    (h₁ : 16 ≤ n₁) (h₂ : 16 ≤ n₂) (hm₁ : n₁ % 8 = 0) (hm₂ : n₂ % 8 = 0)
    (hlt : n₁ + n₂ < 2 ^ 32) :
    ∀ y ∈ splitBlocks p n₁ n₂ a₁ a₂,
      Tagged (splitTags m p n₁ n₂ (pack n₁ a₁.toNat) (pack n₂ a₂.toNat)) y := by
  intro y hy
  simp only [splitBlocks, List.mem_cons, List.not_mem_nil, or_false] at hy
  rcases hy with rfl | rfl
  · -- the tags of the first block are outside the second block's writes
    have htag := retag_tagged m (d := ⟨p, n₁, a₁⟩) h₁ hm₁ (by simp; omega)
    refine ⟨Eq.trans ?_ htag.1, Eq.trans ?_ htag.2⟩ <;>
      refine load_congr fun x hx₁ hx₂ => ?_ <;>
      simp only at hx₁ hx₂ <;>
      exact retag_of_outside _ _ (by omega) (by omega) (by omega) (by omega)
  · exact retag_tagged _ (d := ⟨p + n₁, n₂, a₂⟩) h₂ hm₂ (by simp; omega)

theorem Layout.split {n₁ n₂ : Nat} (a₁ a₂ : Bool) (h : Layout m lo (l ++ [b] ++ r) hi)
    (h₁ : 16 ≤ n₁) (h₂ : 16 ≤ n₂) (hm : n₁ % 8 = 0) (hsum : n₁ + n₂ = b.size) :
    Layout (splitTags m b.ptr n₁ n₂ (pack n₁ a₁.toNat) (pack n₂ a₂.toNat)) lo
      (l ++ splitBlocks b.ptr n₁ n₂ a₁ a₂ ++ r) hi := by
  have hb : b ∈ l ++ [b] ++ r := by simp
  have hbm := h.tiles.size_mod hb
  have hblt := h.size_lt hb
  have hbp := h.ptr_ge hb
  have hm₂ : n₂ % 8 = 0 := by omega
  have hxs : Tiles b.ptr [b] (b.ptr + b.size) := ⟨rfl, h.tiles.size_ge hb, hbm, rfl⟩
  have hys : Tiles b.ptr (splitBlocks b.ptr n₁ n₂ a₁ a₂) (b.ptr + b.size) :=
    ⟨rfl, h₁, hm, rfl, h₂, hm₂, by simp; omega⟩
  refine h.replace (by simp) hxs hys ?_ ?_
  · exact splitTags_tagged m a₁ a₂ (by omega) h₁ h₂ hm hm₂ (by omega)
  · intro x hx
    exact splitTags_of_outside m _ _ (by omega) h₁ h₂ (by omega)

theorem splitTags_samePayload {n₁ n₂ : Nat} (t₁ t₂ : Nat)
    (h : Layout m lo (l ++ [b] ++ r) hi) (h₁ : 16 ≤ n₁) (h₂ : 16 ≤ n₂)
    (hsum : n₁ + n₂ = b.size) (hc : c ∈ l ∨ c ∈ r) :
    SamePayload m (splitTags m b.ptr n₁ n₂ t₁ t₂) c := by
  have hbp := h.ptr_ge (b := b) (by simp)
  have ht : Tiles lo (l ++ b :: r) hi := by simpa using h.tiles
  intro x hx₁ hx₂
  have hx : x < b.ptr - 4 ∨ b.ptr + b.size - 4 ≤ x := by
    rcases hc with hc | hc
    · have := ht.left_end hc
      omega
    · have := ht.right_start hc
      omega
  exact splitTags_of_outside m _ _ (by omega) h₁ h₂ (by omega)

/-- Clearing the links of a block between its header and its footer is the
same as clearing them afterwards. -/
theorem retag_links_between (m : Mem) {t : Nat} (hpq : p + 16 ≤ q) (hp : 4 ≤ p) :
    store (store (store (store m (p - 4) t) p 0) (succPtr p) 0) (q - 8) t =
      store (store (retag m p q t) p 0) (succPtr p) 0 := by
  unfold retag succPtr
  rw [store_comm _ 0 t (a := p + 4) (by omega), store_comm _ 0 t (a := p) (by omega)]

theorem retag_store_comm (m : Mem) {t w : Nat} (v : Nat) (h : w + 4 ≤ p - 4)
    (hpq : p + 8 ≤ q) :
    retag (store m w v) p q t = store (retag m p q t) w v := by
  unfold retag
  rw [store_comm m v t (b := p - 4) (by omega), store_comm _ v t (b := q - 8) (by omega)]

/-! ## Growing the heap -/

/-- Tag a free block of `n` bytes in place of the old epilogue and write the
new one. -/
def growTags (m : Mem) (p n : Nat) : Mem :=
  store (retag m p (p + n) (pack n 0)) (p + n - 4) (pack 0 1)

theorem growTags_of_outside (m : Mem) {x : Nat} (hp : 4 ≤ p) (hn : 16 ≤ n)
    (hx : x < p - 4 ∨ p + n ≤ x) :
    growTags m p n x = m x := by
  unfold growTags
  rw [store_of_outside _ _ (by omega)]
  exact retag_of_outside m _ hp (by omega) (by omega) (by omega)

theorem Layout.grow (h : Layout m lo bs hi) (hs : 16 ≤ n) (hn : n % 8 = 0)
    (hlt : hi + n < 2 ^ 32) :
    Layout (growTags m hi n) lo (bs ++ [⟨hi, n, false⟩]) (hi + n) := by
  have hlo := h.lo_ge
  have hle := h.tiles.le
  refine h.extend rfl hs hn rfl hlt ?_ ?_ ?_
  · have htag := retag_tagged m (d := ⟨hi, n, false⟩) hs hn (by simp; omega)
    simp only [Tagged] at htag ⊢
    unfold growTags
    rw [load_store_of_apart _ _ (by omega), load_store_of_apart _ _ (by omega)]
    exact htag
  · exact load_store_pack _ (by decide) (by decide) (by decide)
  · exact fun x hx => growTags_of_outside m (by omega) hs (.inl hx)

/-! ## The empty heap -/

/-- The four words that `mm_init` stores at the start of a heap. -/
def prologueWords (m : Mem) (p : Nat) : Mem :=
  store (store (store (store m p 0) (p + 4) (pack 8 1)) (p + 8) (pack 8 1)) (p + 12)
    (pack 0 1)

theorem prologueWords_of_outside {x : Nat} (h : x < p ∨ p + 16 ≤ x) :
    prologueWords m p x = m x := by
  unfold prologueWords
  rw [store_of_outside _ _ (by omega), store_of_outside _ _ (by omega),
    store_of_outside _ _ (by omega), store_of_outside _ _ (by omega)]

theorem prologueWords_layout (m : Mem) (hp : 0 < p) (hlt : p + 16 < 2 ^ 32) :
    Layout (prologueWords m p) (p + 16) [] (p + 16) where
  tiles := rfl
  tagged := by simp
  prologueHeader := by
    unfold prologueWords
    rw [load_store_of_apart _ _ (by omega), load_store_of_apart _ _ (by omega),
      show p + 16 - 12 = p + 4 by omega, load_store_same]
    decide
  prologueFooter := by
    unfold prologueWords
    rw [load_store_of_apart _ _ (by omega), show p + 16 - 8 = p + 8 by omega, load_store_same]
    decide
  epilogue := by
    unfold prologueWords
    rw [show p + 16 - 4 = p + 12 by omega, load_store_same]
    decide
  lo_ge := by omega
  hi_lt := hlt

end CsappLabs.Malloc
