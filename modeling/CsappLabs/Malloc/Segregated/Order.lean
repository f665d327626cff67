import CsappLabs.Malloc.Segregated.Refusal

/-!
# The order of the free lists

The class loop of `insert_node` shifts its size argument, and the search for a
place compares with what is left of it.  So the search stops at the first node
and the new node goes behind it, whatever its size is.  A list stays sorted as
long as that is the right place; `InOrder` says of which calls this is true.
-/

namespace CsappLabs.Malloc.Segregated

open CsappLabs.Foundation

variable {s s' s₁ : State} {w w' : World State} {F : Block → Prop} {bs l r xs : List Block}
  {b c d : Block} {m : Mem} {n i k p q lo hi asize base : Nat}

def SizeLe (b c : Block) : Prop := b.size ≤ c.size

instance : DecidableRel SizeLe := fun b c => inferInstanceAs (Decidable (b.size ≤ c.size))

instance : IsTrans Block SizeLe := ⟨fun _ _ _ h h' => Nat.le_trans h h'⟩

def SizeOrdered (s : State) : Prop := ∀ i < 16, (s.lists i).Pairwise SizeLe

/-! ## The calls that keep the order -/

def joinBefore (m : Mem) (bp n : Nat) : Block :=
  if getAlloc m (ftrp m (prevBlkp m bp)) = 0 then
    ⟨prevBlkp m bp, getSize m (hdrp (prevBlkp m bp)) + n, false⟩
  else ⟨bp, n, false⟩

def freedBlock (s : State) (bp : Nat) : Block :=
  joinBefore s.mem bp (getSize s.mem (hdrp bp) +
    if getAlloc s.mem (hdrp (nextBlkp s.mem bp)) = 0 then
      getSize s.mem (hdrp (nextBlkp s.mem bp))
    else 0)

def firstFit (s : State) (asize : Nat) : Option Block :=
  (List.range 16).findSome? fun i => (s.lists i).find? fun b => asize ≤ b.size

def cutBlock (s : State) (asize : Nat) : Option Block :=
  match firstFit s asize with
  | some b => some b
  | none =>
      if s.Granted (max asize chunksize) then
        some (joinBefore s.mem s.memBrk (max asize chunksize))
      else none

/-- The second place of its list is right for `b`, when the blocks inside of
`gone` have left the list. -/
def HasPlace (s : State) (gone b : Block) : Prop :=
  SecondFits SizeLe b (outside gone (s.lists (listIndex b.size)))

def FreeInOrder (s : State) (bp : Nat) : Prop :=
  HasPlace s (freedBlock s bp) (freedBlock s bp)

def MallocInOrder (s : State) (size : Nat) : Prop :=
  size ≠ 0 → ∀ b ∈ cutBlock s (adjustSize size),
    b.size - adjustSize size ≤ 16 ∨ HasPlace s b (restBlock b (adjustSize size))

/-- A moving `mm_realloc` calls `mm_malloc` and then `mm_free`. -/
def MoveInOrder (s : State) (bp size : Nat) : Prop :=
  MallocInOrder s (adjustSize size) ∧
    ∀ r ∈ mmMalloc s (adjustSize size), r.2 ≠ 0 → FreeInOrder r.1 bp

/-- The second place is right for every block that the call puts into a list. -/
def InOrder (s : State) : Call → Prop
  | .malloc size => MallocInOrder s size
  | .free bp => FreeInOrder s bp
  | .realloc bp size =>
      (size = 0 → FreeInOrder s bp) ∧ (size ≠ 0 → Moves s bp size → MoveInOrder s bp size)
  | .write _ _ _ => True

instance (s : State) (gone b : Block) : Decidable (HasPlace s gone b) :=
  inferInstanceAs (Decidable (SecondFits _ _ _))

instance (s : State) (bp : Nat) : Decidable (FreeInOrder s bp) :=
  inferInstanceAs (Decidable (HasPlace _ _ _))

instance (s : State) (size : Nat) : Decidable (MallocInOrder s size) :=
  inferInstanceAs (Decidable (_ → ∀ b ∈ cutBlock s (adjustSize size), _ ∨ HasPlace _ _ _))

instance (s : State) (bp size : Nat) : Decidable (MoveInOrder s bp size) :=
  inferInstanceAs (Decidable (MallocInOrder _ _ ∧
    ∀ r ∈ mmMalloc s (adjustSize size), r.2 ≠ 0 → FreeInOrder r.1 bp))

instance (s : State) : (c : Call) → Decidable (InOrder s c)
  | .malloc size => inferInstanceAs (Decidable (MallocInOrder s size))
  | .free bp => inferInstanceAs (Decidable (FreeInOrder s bp))
  | .realloc _ _ => inferInstanceAs (Decidable ((_ → FreeInOrder _ _) ∧
      (_ → Moves _ _ _ → MoveInOrder _ _ _)))
  | .write _ _ _ => isTrue trivial

/-! ## What the tags say about the merged block -/

theorem joinBefore_eq (h : Layout m lo (l ++ r) hi) (ht : Tiles lo l p) (n : Nat) :
    joinBefore m p n = mergedBlock l ⟨p, n, false⟩ [] := by
  unfold joinBefore
  rcases Layout.endsAllocated_or l with hl | ⟨l', a, rfl, ha⟩
  · rw [if_neg (by rw [h.prevAlloc_at ht hl]; decide)]
    simp [mergedBlock, hl, freeAfter]
  · have h' : Layout m lo (l' ++ a :: r) hi := by simpa using h
    have hprev : prevBlkp m p = a.ptr := by
      rw [← ht.last_end]
      exact h'.prevBlkp_end
    have halloc := h'.getAlloc_ftrp (b := a) (by simp)
    have hsize := h'.getSize_hdrp (b := a) (by simp)
    rw [hprev, if_pos (by rw [halloc, ha]; rfl), hsize]
    simp [mergedBlock, ha, freeAfter]

theorem freedBlock_eq (h : Layout s.mem lo (l ++ d :: r) hi) :
    freedBlock s d.ptr = mergedBlock l d r := by
  obtain ⟨p, ht, hp, -⟩ := tiles_append.mp h.tiles
  have hsize := h.getSize_hdrp (b := d) (by simp)
  have hnext : (if getAlloc s.mem (hdrp (nextBlkp s.mem d.ptr)) = 0 then
      getSize s.mem (hdrp (nextBlkp s.mem d.ptr)) else 0) = (freeAfter r).elim 0 Block.size := by
    rcases Layout.startsAllocated_or r with hr | ⟨c, r, rfl, hc⟩
    · rw [if_neg (by rw [h.nextAlloc_of_starts hr]; decide), freeAfter_of_starts hr]
      rfl
    · have h' : Layout s.mem lo ((l ++ [d]) ++ c :: r) hi := by simpa using h
      rw [if_pos (h.nextAlloc_of_free hc), h.nextBlkp_cons, h'.getSize_hdrp (by simp),
        freeAfter_cons hc]
      rfl
  rw [freedBlock, hsize, hnext, joinBefore_eq h (hp ▸ ht)]
  simp [mergedBlock, freeAfter, Nat.add_assoc]

/-! ## The search -/

theorem walkFit_find {prev f last : Nat} {xs : List Nat}
    (h : Linked (getSuccessor s.mem) (getPredecessor s.mem) prev f xs last 0) (h0 : 0 ∉ xs)
    (fuel : Nat) (hwalk : walkFit s asize fuel f = some q) :
    xs.find? (fun p => asize ≤ getSize s.mem (hdrp p)) = if q = 0 then none else some q := by
  induction xs generalizing prev f fuel with
  | nil =>
      obtain ⟨rfl, -⟩ := h
      cases fuel with
      | zero => simp [walkFit] at hwalk
      | succ fuel =>
          obtain rfl : 0 = q := by simpa [walkFit] using hwalk
          rfl
  | cons x xs ih =>
      obtain ⟨rfl, -, htail⟩ := h
      simp only [List.mem_cons, not_or] at h0
      cases fuel with
      | zero => simp [walkFit] at hwalk
      | succ fuel =>
          by_cases hlt : getSize s.mem (hdrp f) < asize
          · rw [walkFit, if_pos ⟨Ne.symm h0.1, hlt⟩] at hwalk
            rw [List.find?_cons_of_neg (by simpa using hlt)]
            exact ih htail h0.2 fuel hwalk
          · rw [walkFit, if_neg fun hc => hlt hc.2] at hwalk
            obtain rfl := Option.some.inj hwalk
            rw [List.find?_cons_of_pos (by simpa using hlt), if_neg (Ne.symm h0.1)]

theorem Heap.find_of_walk (h : Heap s bs F) (hi : i < 16)
    (hwalk : walkFit s asize walkFuel (s.selectSegEntry i) = some q) :
    (s.lists i).find? (fun c => asize ≤ c.size) =
      if q = 0 then none else some ⟨q, getSize s.mem (hdrp q), false⟩ := by
  obtain ⟨l, hlink, -, hmem⟩ := h.nodes.listIs_nodes h.lists hi
  have h0 : 0 ∉ s.nodes i := fun h0 => h.nodes.node_pos ((hmem 0).mp h0).node rfl
  rw [State.lists, List.find?_map, Function.comp_def, walkFit_find hlink h0 walkFuel hwalk]
  by_cases hq : q = 0
  · rw [if_pos hq, if_pos hq]
    rfl
  · rw [if_neg hq, if_neg hq]
    rfl

theorem searchFit_first (h : Heap s bs (FreeOf bs)) (hk : k ≤ 16)
    (hsearch : searchFit s asize k (asize >>> (16 - k)) = some q) :
    ((List.range' (16 - k) k).findSome? fun i =>
      (s.lists i).find? fun b => asize ≤ b.size).elim 0 Block.ptr = q := by
  induction k with
  | zero => exact Option.some.inj hsearch
  | succ k ih =>
      have hi : 16 - (k + 1) < 16 := by omega
      have hnext : 16 - (k + 1) + 1 = 16 - k := by omega
      have hshift : asize >>> (16 - (k + 1)) >>> 1 = asize >>> (16 - k) := by
        rw [← Nat.shiftRight_add, hnext]
      have hentry : maxSegEntry - (k + 1) = 16 - (k + 1) := rfl
      unfold searchFit at hsearch
      simp only [hentry, hshift] at hsearch
      rw [List.range'_succ, List.findSome?_cons, hnext]
      by_cases hlist : (16 - (k + 1) = maxSegEntry - 1 ∨ asize >>> (16 - (k + 1)) ≤ 1) ∧
          s.selectSegEntry (16 - (k + 1)) ≠ 0
      · rw [if_pos hlist] at hsearch
        obtain ⟨p, hwalk, -⟩ := walkFit_list asize h hi
        have hfind := h.find_of_walk hi hwalk
        rw [hwalk] at hsearch
        by_cases hp : p = 0
        · rw [if_pos hp] at hfind
          simp only [hp, ne_eq, not_true, if_false] at hsearch
          rw [hfind]
          exact ih (by omega) hsearch
        · rw [if_neg hp] at hfind
          simp only [ne_eq, hp, not_false_eq_true, if_true] at hsearch
          rw [hfind]
          exact Option.some.inj hsearch
      · rw [if_neg hlist] at hsearch
        have hnone : (s.lists (16 - (k + 1))).find? (fun b => asize ≤ b.size) = none := by
          refine List.find?_eq_none.mpr fun b hb hle => hlist ?_
          obtain ⟨hfree, hidx⟩ := (h.mem_lists hi).mp hb
          have hclass := class_searched (b := b) (by simpa using hle)
          rw [hidx] at hclass
          refine ⟨hclass, fun hempty => ?_⟩
          have hlt : b.size < asize := noFit_of_empty h hi hempty b hfree hidx
          have hge : asize ≤ b.size := by simpa using hle
          omega
        rw [hnone]
        exact ih (by omega) hsearch

theorem firstFit_eq (h : Heap s bs (FreeOf bs))
    (hsearch : searchFit s asize maxSegEntry asize = some q) :
    (firstFit s asize).elim 0 Block.ptr = q := by
  rw [firstFit, List.range_eq_range']
  exact searchFit_first h (Nat.le_refl 16) hsearch

theorem firstFit_listed (h : Heap s bs F) (hb : firstFit s asize = some b) : F b := by
  obtain ⟨i, hi, hfind⟩ := List.exists_of_findSome?_eq_some hb
  exact ((h.mem_lists (List.mem_range.mp hi)).mp (List.mem_of_find?_eq_some hfind)).1

/-! ## Insertion and removal -/

theorem SizeOrdered.outside (h : SizeOrdered s) (d : Block) (hi : i < 16) :
    (outside d (s.lists i)).Pairwise SizeLe := (h i hi).filter _

theorem SizeOrdered.of_same (h : SizeOrdered s) (hl : SameLists s s') : SizeOrdered s' := by
  intro i hi
  rw [hl i hi]
  exact h i hi

theorem secondIn_ordered (h : SizeOrdered s) (gone b : Block) :
    (∀ i < 16, (secondIn b i (outside gone (s.lists i))).Pairwise SizeLe) ↔
      HasPlace s gone b := by
  constructor
  · intro hall
    have hb := hall (listIndex b.size) (listIndex_lt _)
    rw [secondIn, if_pos rfl] at hb
    exact (pairwise_insertSecond.mp hb).2
  · intro hplace i hi
    unfold secondIn
    by_cases hib : i = listIndex b.size
    · rw [if_pos hib, hib]
      exact pairwise_insertSecond.mpr ⟨h.outside gone (listIndex_lt _), hplace⟩
    · rw [if_neg hib]
      exact h.outside gone hi

theorem PutSecond.ordered_iff (h : PutSecond s s' d) (ho : SizeOrdered s) :
    SizeOrdered s' ↔ HasPlace s d d := by
  rw [← secondIn_ordered ho d d]
  exact forall₂_congr fun i hi => by rw [h i hi]

theorem cutIn_ordered (h : SizeOrdered s) (b : Block) (asize : Nat) :
    (∀ i < 16, (cutIn b asize i (s.lists i)).Pairwise SizeLe) ↔
      b.size - asize ≤ 16 ∨ HasPlace s b (restBlock b asize) := by
  unfold cutIn
  by_cases hrest : b.size - asize ≤ 16
  · simp only [hrest, if_true, true_or, iff_true]
    exact fun i hi => h.outside b hi
  · simp only [hrest, if_false, false_or]
    exact secondIn_ordered h b (restBlock b asize)

theorem cutIn_secondIn (hb : 0 < b.size) :
    cutIn b asize i (secondIn b i (outside b xs)) = cutIn b asize i xs := by
  have hself : outside b (secondIn b i (outside b xs)) = outside b xs := by
    unfold secondIn
    by_cases hib : i = listIndex b.size
    · rw [if_pos hib]
      unfold outside
      rw [filter_insertSecond (by simp; omega), List.filter_filter]
      simp
    · rw [if_neg hib]
      simp [outside]
  unfold cutIn
  rw [hself]

/-! ## The calls -/

namespace Sound

theorem malloc_lists (h : Sound base s bs) (hn : n + 15 < 2 ^ 32) (hn0 : n ≠ 0)
    (heq : mmMalloc s n = some (s', p)) :
    cutBlock s (adjustSize n) = none ∧ s' = s ∨
      ∃ b, cutBlock s (adjustSize n) = some b ∧
        ∀ i < 16, s'.lists i = cutIn b (adjustSize n) i (s.lists i) := by
  obtain ⟨h16, hmod, -, -⟩ := adjustSize_bounds hn
  obtain ⟨q, hq, hfit⟩ := searchFit_complete (adjustSize n) h.heap
  have hptr := firstFit_eq h.heap hq
  rw [h.mmMalloc_eq hn0 hq] at heq
  cases hfit with
  | inl hnone =>
      obtain ⟨rfl, -⟩ := hnone
      have hfirst : firstFit s (adjustSize n) = none := by
        cases hc : firstFit s (adjustSize n) with
        | none => rfl
        | some c =>
            rw [hc] at hptr
            exact absurd hptr (h.ptr_ne (firstFit_listed h.heap hc).1)
      rw [if_pos rfl, growAndPlace] at heq
      cases h.extend_effect h16 hmod (adjustSize_lt_word n) with
      | inl hrefused =>
          obtain ⟨hg, hext⟩ := hrefused
          rw [hext] at heq
          refine .inl ⟨by simp [cutBlock, hfirst, hg], ?_⟩
          exact (congrArg Prod.fst (Option.some.inj heq)).symm
      | inr hgrown =>
          obtain ⟨hg, t, bs₁, b, hext, -, hb, hfits, heff, hmerged, hput⟩ := hgrown
          obtain ⟨t', bs', d, hplace, -, -, -, hlists⟩ := heff.inv.place_effect hb hfits h16 hmod
          simp only [hext, heff.inv.ptr_ne hb.1, if_false, hplace] at heq
          obtain rfl := congrArg Prod.fst (Option.some.inj heq)
          have hblock : joinBefore s.mem s.memBrk (max (adjustSize n) chunksize) = b := by
            rw [hmerged]
            exact joinBefore_eq (r := []) (by simpa using h.heap.layout) h.heap.layout.tiles _
          refine .inr ⟨b, by simp [cutBlock, hfirst, hg, hblock], fun i hi => ?_⟩
          rw [hlists i hi, hput i hi, cutIn_secondIn (by omega)]
  | inr hfound =>
      obtain ⟨b, hb, rfl, hle⟩ := hfound
      have hb0 := h.ptr_ne hb.1
      obtain ⟨t, bs', d, hplace, -, -, -, hlists⟩ := h.place_effect hb hle h16 hmod
      rw [if_neg hb0, hplace] at heq
      obtain rfl := congrArg Prod.fst (Option.some.inj heq)
      have hfirst : firstFit s (adjustSize n) = some b := by
        cases hc : firstFit s (adjustSize n) with
        | none =>
            rw [hc] at hptr
            exact absurd hptr.symm hb0
        | some c =>
            rw [hc] at hptr
            rw [h.heap.nodes.ptr_injective (firstFit_listed h.heap hc) hb hptr]
      exact .inr ⟨b, by simp [cutBlock, hfirst], hlists⟩

theorem malloc_ordered (h : Sound base s bs) (ho : SizeOrdered s) (hn : n + 15 < 2 ^ 32)
    (heq : mmMalloc s n = some (s', p)) : SizeOrdered s' ↔ MallocInOrder s n := by
  by_cases hn0 : n = 0
  · subst hn0
    simp only [mmMalloc, h.initIfNeeded_eq, if_true] at heq
    obtain rfl := congrArg Prod.fst (Option.some.inj heq)
    exact iff_of_true ho fun hne => absurd rfl hne
  · cases h.malloc_lists hn hn0 heq with
    | inl hnone =>
        obtain ⟨hcut, rfl⟩ := hnone
        exact iff_of_true ho fun _ b hb => by simp [hcut] at hb
    | inr hsome =>
        obtain ⟨b, hcut, hlists⟩ := hsome
        have hordered : SizeOrdered s' ↔
            ∀ i < 16, (cutIn b (adjustSize n) i (s.lists i)).Pairwise SizeLe :=
          forall₂_congr fun i hi => by rw [hlists i hi]
        rw [hordered, cutIn_ordered ho, MallocInOrder, hcut]
        simp [hn0]

theorem free_ordered (h : Sound base s bs) (ho : SizeOrdered s) (hd : d ∈ bs)
    (ha : d.alloc = true) (heq : mmFree s d.ptr = some s') :
    SizeOrdered s' ↔ FreeInOrder s d.ptr := by
  obtain ⟨t, ht, -, -, l, r, rfl, hput⟩ := h.free_blocks hd ha
  obtain rfl : s' = t := Option.some.inj (heq.symm.trans ht)
  rw [hput.ordered_iff ho, FreeInOrder, freedBlock_eq h.heap.layout]

theorem move_ordered (h : Sound base s bs) (ho : SizeOrdered s) (hd : d ∈ bs)
    (ha : d.alloc = true) (hn : n + 23 < 2 ^ 32) (hn0 : n ≠ 0) (hmoves : Moves s d.ptr n)
    (hok : MoveInOrder s d.ptr n) (heq : mmRealloc s d.ptr n = some (s', p)) :
    SizeOrdered s' := by
  have hagain := adjustSize_add_lt hn
  have hlt := hmoves.1
  rw [h.heap.layout.getSize_hdrp hd] at hlt
  rw [h.mmRealloc_moves hd hn0 hmoves] at heq
  rcases h.malloc_effect (n := adjustSize n) (by omega) with
    hnull | ⟨t, bs₁, e, hmalloc, -, hsize, heff⟩
  · rw [hnull] at heq
    obtain rfl := congrArg Prod.fst (Option.some.inj heq)
    exact ho
  · have hea : e.alloc = true := heff.new_alloc e rfl
    have he : e ∈ bs₁ := (heff.mem e hea).mpr (.inr rfl)
    have hd₁ : d ∈ bs₁ := (heff.mem d ha).mpr (.inl ⟨hd, by simp⟩)
    have he0 := heff.inv.ptr_ne he
    obtain ⟨hmemcpy, hsound, hsame⟩ :=
      heff.inv.memcpy_sound d.ptr he hea (show d.size + 8 ≤ e.size by omega)
    obtain ⟨u, hfree, -, -, l, r, rfl, hput⟩ := hsound.free_blocks hd₁ ha
    have hmin : min (adjustSize n) d.size = d.size := by omega
    simp only [hmalloc, he0, if_false, hmin, hmemcpy, hfree, Option.map_some] at heq
    obtain rfl := congrArg Prod.fst (Option.some.inj heq)
    have hot : SizeOrdered t := (h.malloc_ordered ho (by omega) hmalloc).mpr hok.1
    have hplace : FreeInOrder t d.ptr := hok.2 (t, e.ptr) hmalloc he0
    rw [FreeInOrder, freedBlock_eq heff.inv.heap.layout] at hplace
    exact ((hput.of_same hsame).ordered_iff hot).mpr hplace

theorem realloc_ordered (h : Sound base s bs) (ho : SizeOrdered s) (hd : d ∈ bs)
    (ha : d.alloc = true) (hn : n + 23 < 2 ^ 32) (hn0 : n ≠ 0)
    (hok : Moves s d.ptr n → MoveInOrder s d.ptr n)
    (heq : mmRealloc s d.ptr n = some (s', p)) : SizeOrdered s' := by
  by_cases hmoves : Moves s d.ptr n
  · exact h.move_ordered ho hd ha hn hn0 hmoves (hok hmoves) heq
  · have hsize := h.heap.layout.getSize_hdrp hd
    unfold mmRealloc at heq
    rw [if_neg (h.ptr_ne hd), if_neg hn0] at heq
    simp only [hsize] at heq
    by_cases hfit : d.size ≥ adjustSize n
    · rw [if_pos hfit] at heq
      obtain rfl := congrArg Prod.fst (Option.some.inj heq)
      exact ho
    · rw [if_neg hfit] at heq
      have hroom : (getAlloc s.mem (hdrp (nextBlkp s.mem d.ptr)) = 0 ∨
            getSize s.mem (hdrp (nextBlkp s.mem d.ptr)) = 0) ∧
          addw d.size (getSize s.mem (hdrp (nextBlkp s.mem d.ptr))) ≥ adjustSize n := by
        by_contra hno
        rw [← hsize] at hno
        exact hmoves ⟨by omega, hno⟩
      rw [if_pos hroom] at heq
      obtain ⟨l, r, rfl⟩ := List.append_of_mem hd
      rcases Layout.startsAllocated_or r with hr | ⟨c, r, rfl, hc⟩
      · exact absurd hroom (h.heap.layout.no_room hr (by omega))
      · -- the free block behind leaves its list
        obtain ⟨m', hgrow, -, -, hlists⟩ := h.grow_effect ha hc
        have hend := h.heap.layout.tiles.prev_end
        have htop := h.heap.layout.tiles.ptr_add_size_le (b := c) (by simp)
        have hlt := h.heap.layout.hi_lt
        rw [h.heap.layout.nextBlkp_cons, h.heap.layout.getSize_hdrp (b := c) (by simp),
          addw_eq (by omega), hgrow] at heq
        obtain rfl := congrArg Prod.fst (Option.some.inj heq)
        intro i hi
        rw [hlists i hi]
        exact (ho i hi).filter _

end Sound

end CsappLabs.Malloc.Segregated
