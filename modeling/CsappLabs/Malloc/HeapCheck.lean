import CsappLabs.Malloc.Blocks
import CsappLabs.Malloc.Links

/-!
# The heap checkers

The three allocators have one checker in three copies.  `checkheap` follows
the free lists, then the blocks from the prologue on, and prints a line for
each defect; with `verbose` it prints each block too, and checks the heap once
more in front of each of them.  The copies differ in their free lists, which
are a parameter here: what the checks of the lists print.

`none` is a walk without an end, or one that leaves the address space.
-/

namespace CsappLabs.Malloc

open CsappLabs.Foundation

/-- A call of `printf`, with the values that it formats. -/
inductive Message where
  | calledFrom (lineno : Nat)
  | heapAt (p : Nat)
  | allocatedInList (bp : Nat)
  | misaligned (bp : Nat)
  | mismatched
  | badPrologue
  | badEpilogue
  | block (bp hsize halloc fsize falloc : Nat)
  | eol (bp : Nat)
  deriving DecidableEq, Repr

/-! ## The checks -/

def checkblock (m : Mem) (bp : Nat) : List Message :=
  (if bp % 8 ≠ 0 then [.misaligned bp] else []) ++
    if load m (hdrp bp) ≠ load m (ftrp m bp) then [.mismatched] else []

def checkList (m : Mem) (stop : Nat) : Nat → Nat → Option (List Message)
  | 0, _ => none
  | fuel + 1, bp =>
      if bp = stop then some []
      else (checkList m stop fuel (getSuccessor m bp)).map fun out =>
        (if getAlloc m (hdrp bp) ≠ 0 then [.allocatedInList bp] else []) ++
          checkblock m bp ++ out

/-- The loop over the blocks: what it prints, and the block that it stops at.
`print` is the call of `printblock`. -/
def checkBlocks (m : Mem) (print : Nat → Option (List Message)) :
    Nat → Nat → Option (List Message × Nat)
  | 0, _ => none
  | fuel + 1, bp =>
      if getSize m (hdrp bp) > 0 then
        if 2 ^ 32 ≤ nextBlkp m bp then none
        else do
          let out ← print bp
          let (rest, last) ← checkBlocks m print fuel (nextBlkp m bp)
          some (out ++ checkblock m bp ++ rest, last)
      else some ([], bp)

def checkPrologue (m : Mem) (heapListp : Nat) : List Message :=
  (if getSize m (hdrp heapListp) ≠ 8 ∨ getAlloc m (hdrp heapListp) = 0 then [.badPrologue]
    else []) ++ checkblock m heapListp

def checkEpilogue (m : Mem) (bp : Nat) : List Message :=
  if getSize m (hdrp bp) ≠ 0 ∨ getAlloc m (hdrp bp) = 0 then [.badEpilogue] else []

def checkTags (m : Mem) (heapListp : Nat) (print : Nat → Option (List Message)) :
    Option (List Message) := do
  let (out, last) ← checkBlocks m print walkFuel heapListp
  let eol ← print last
  some (checkPrologue m heapListp ++ out ++ eol ++ checkEpilogue m last)

def checkQuietly (lists : Option (List Message)) (m : Mem) (heapListp : Nat) :
    Option (List Message) := do
  let out ← lists
  let tags ← checkTags m heapListp fun _ => some []
  some (out ++ tags)

def printblock (lists : Option (List Message)) (m : Mem) (heapListp bp : Nat) :
    Option (List Message) :=
  (checkQuietly lists m heapListp).map fun out =>
    let hsize := getSize m (hdrp bp)
    let halloc := getAlloc m (hdrp bp)
    let fsize := getSize m (ftrp m bp)
    let falloc := getAlloc m (ftrp m bp)
    out ++ [if hsize = 0 then .eol bp else .block bp hsize halloc fsize falloc]

def checkheap (lists : Option (List Message)) (m : Mem) (heapListp : Nat) (verbose : Bool)
    (lineno : Nat) : Option (List Message) :=
  if verbose then do
    let out ← lists
    let tags ← checkTags m heapListp (printblock lists m heapListp)
    some (out ++ [.calledFrom lineno, .heapAt heapListp] ++ tags)
  else checkQuietly lists m heapListp

/-! ## What a silent checker has seen -/

def Matched (m : Mem) (bp : Nat) : Prop :=
  bp % 8 = 0 ∧ load m (hdrp bp) = load m (ftrp m bp)

def Follows (m : Mem) (stop : Nat) : Nat → List Nat → Prop
  | p, [] => p = stop
  | p, x :: xs => x = p ∧ p ≠ stop ∧ Follows m stop (getSuccessor m p) xs

def Steps (m : Mem) : Nat → List Block → Nat → Prop
  | p, [], q => p = q
  | p, b :: bs, q =>
      b = ⟨p, getSize m (hdrp p), getAlloc m (hdrp p) = 1⟩ ∧ 0 < b.size ∧ Matched m p ∧
        Steps m (p + b.size) bs q

variable {m : Mem} {stop p q bp fuel heapListp : Nat} {xs ys : List Nat} {bs : List Block}

theorem checkblock_nil : checkblock m bp = [] ↔ Matched m bp := by
  unfold checkblock Matched
  by_cases h₁ : bp % 8 = 0
  · by_cases h₂ : load m (hdrp bp) = load m (ftrp m bp)
    · simp [h₁, h₂]
    · simp [h₁, h₂]
  · simp [h₁]

theorem Follows.unique (h : Follows m stop p xs) (h' : Follows m stop p ys) : xs = ys := by
  induction xs generalizing p ys with
  | nil =>
      cases ys with
      | nil => rfl
      | cons y ys => exact absurd h h'.2.1
  | cons x xs ih =>
      cases ys with
      | nil => exact absurd h' h.2.1
      | cons y ys => rw [h.1, h'.1, ih h.2.2 h'.2.2]

theorem Follows.suffix {l : List Nat} {x : Nat} (h : Follows m stop p (l ++ x :: xs)) :
    Follows m stop x (x :: xs) := by
  induction l generalizing p with
  | nil =>
      obtain ⟨rfl, hne, htail⟩ := h
      exact ⟨rfl, hne, htail⟩
  | cons y l ih => exact ih h.2.2

theorem Follows.nodup (h : Follows m stop p xs) : xs.Nodup := by
  induction xs generalizing p with
  | nil => exact List.nodup_nil
  | cons x xs ih =>
      obtain ⟨rfl, hne, htail⟩ := h
      refine List.nodup_cons.mpr ⟨fun hx => ?_, ih htail⟩
      -- a node that is met twice would start two lists of different lengths
      obtain ⟨l, r, rfl⟩ := List.append_of_mem hx
      have hsame : x :: (l ++ x :: r) = x :: r :=
        Follows.unique ⟨rfl, hne, htail⟩ htail.suffix
      have hlen := congrArg List.length hsame
      simp only [List.length_cons, List.length_append] at hlen
      omega

theorem Follows.mem (h : Follows m stop p xs) : stop ∉ xs ∧ ∀ x ∈ xs, x = p ∨ x < 2 ^ 32 := by
  induction xs generalizing p with
  | nil => simp
  | cons x xs ih =>
      obtain ⟨rfl, hne, htail⟩ := h
      obtain ⟨hstop, hlt⟩ := ih htail
      refine ⟨List.not_mem_cons_of_ne_of_not_mem (Ne.symm hne) hstop,
        List.forall_mem_cons.mpr ⟨.inl rfl, fun y hy => .inr ?_⟩⟩
      rcases hlt y hy with rfl | hy
      · exact load_lt _ _
      · exact hy

theorem Follows.length_lt (h : Follows m stop p xs) (hp : p < 2 ^ 32) (hstop : stop < 2 ^ 32) :
    xs.length < walkFuel := by
  obtain ⟨hmem, hlt⟩ := h.mem
  have hnd : (stop :: xs).Nodup := List.nodup_cons.mpr ⟨hmem, h.nodup⟩
  have hsub : stop :: xs ⊆ List.range walkFuel := by
    intro x hx
    rw [List.mem_range]
    rcases List.mem_cons.mp hx with rfl | hx
    · exact hstop
    · rcases hlt x hx with rfl | hx
      · exact hp
      · exact hx
  have hle := (List.subperm_of_subset hnd hsub).length_le
  rwa [List.length_range] at hle

theorem checkList_nil :
    checkList m stop fuel p = some [] ↔ ∃ xs, Follows m stop p xs ∧ xs.length < fuel ∧
      ∀ x ∈ xs, getAlloc m (hdrp x) = 0 ∧ Matched m x := by
  induction fuel generalizing p with
  | zero => simp [checkList]
  | succ fuel ih =>
      rw [checkList]
      by_cases hp : p = stop
      · rw [if_pos hp]
        exact ⟨fun _ => ⟨[], hp, by simp, by simp⟩, fun _ => rfl⟩
      · rw [if_neg hp, Option.map_eq_some_iff]
        constructor
        · rintro ⟨out, hrest, hout⟩
          obtain ⟨hfirst, rfl⟩ := List.append_eq_nil_iff.mp hout
          obtain ⟨halloc, hblock⟩ := List.append_eq_nil_iff.mp hfirst
          obtain ⟨xs, hfollow, hlen, hall⟩ := ih.mp hrest
          refine ⟨p :: xs, ⟨rfl, hp, hfollow⟩, by simpa using hlen,
            List.forall_mem_cons.mpr ⟨⟨?_, checkblock_nil.mp hblock⟩, hall⟩⟩
          by_contra hne
          rw [if_pos hne] at halloc
          cases halloc
        · rintro ⟨xs, hfollow, hlen, hall⟩
          cases xs with
          | nil => exact absurd hfollow hp
          | cons x xs =>
              obtain ⟨rfl, -, htail⟩ := hfollow
              obtain ⟨⟨halloc, hblock⟩, hrest⟩ := List.forall_mem_cons.mp hall
              refine ⟨[], ih.mpr ⟨xs, htail, by simpa using hlen, hrest⟩, ?_⟩
              rw [checkblock_nil.mpr hblock, if_neg (not_not.mpr halloc)]
              rfl

theorem Steps.le (h : Steps m p bs q) : p + 8 * bs.length ≤ q := by
  induction bs generalizing p with
  | nil => exact Nat.le_of_eq h
  | cons b bs ih =>
      obtain ⟨rfl, hpos, -, htail⟩ := h
      have hle := ih htail
      have h8 : getSize m (hdrp p) % 8 = 0 := by
        rw [getSize, and_not_seven (load_lt m _)]
        omega
      rw [List.length_cons]
      simp only at hpos hle
      omega

theorem checkBlocks_steps (line : Nat → List Message) (h : Steps m p bs q)
    (hend : getSize m (hdrp q) = 0) (hq : q < 2 ^ 32) (hfuel : bs.length < fuel) :
    checkBlocks m (fun bp => some (line bp)) fuel p =
      some (bs.flatMap fun b => line b.ptr, q) := by
  induction bs generalizing p fuel with
  | nil =>
      obtain ⟨fuel, rfl⟩ := Nat.exists_eq_succ_of_ne_zero (Nat.ne_of_gt hfuel)
      obtain rfl : p = q := h
      rw [checkBlocks, if_neg (by omega)]
      rfl
  | cons b bs ih =>
      obtain ⟨fuel, rfl⟩ := Nat.exists_eq_succ_of_ne_zero (Nat.ne_of_gt (Nat.zero_lt_of_lt hfuel))
      obtain ⟨rfl, hpos, hmatch, htail⟩ := h
      have hle := htail.le
      have hnext : nextBlkp m p = p + getSize m (hdrp p) := rfl
      have hrest := ih htail (by simpa using hfuel)
      rw [checkBlocks, if_pos hpos, if_neg (by rw [hnext]; simp only at hle; omega), hnext, hrest,
        checkblock_nil.mpr hmatch]
      simp

theorem checkBlocks_silent (h : checkBlocks m (fun _ => some []) fuel p = some ([], q))
    (hp : p < 2 ^ 32) :
    ∃ bs, Steps m p bs q ∧ getSize m (hdrp q) = 0 ∧ q < 2 ^ 32 := by
  induction fuel generalizing p with
  | zero => cases h
  | succ fuel ih =>
      rw [checkBlocks] at h
      by_cases hpos : getSize m (hdrp p) > 0
      · rw [if_pos hpos] at h
        by_cases hout : 2 ^ 32 ≤ nextBlkp m p
        · rw [if_pos hout] at h
          cases h
        · rw [if_neg hout] at h
          cases hrest : checkBlocks m (fun _ => some []) fuel (nextBlkp m p) with
          | none =>
              rw [hrest] at h
              cases h
          | some r =>
              rw [hrest] at h
              obtain ⟨rest, last⟩ := r
              obtain ⟨hnil, rfl⟩ := Prod.mk.inj (Option.some.inj h)
              obtain ⟨hblock, rfl⟩ := List.append_eq_nil_iff.mp hnil
              obtain ⟨bs, hsteps, hend, hq⟩ := ih hrest (by omega)
              exact ⟨_ :: bs, ⟨rfl, hpos, checkblock_nil.mp hblock, hsteps⟩, hend, hq⟩
      · rw [if_neg hpos] at h
        obtain ⟨-, rfl⟩ := Prod.mk.inj (Option.some.inj h)
        exact ⟨[], rfl, by omega, hp⟩

/-! ## The checker as a whole -/

structure Passes (m : Mem) (heapListp : Nat) (bs : List Block) (q : Nat) : Prop where
  prologue : getSize m (hdrp heapListp) = 8 ∧ getAlloc m (hdrp heapListp) ≠ 0
  steps : Steps m heapListp bs q
  epilogue : getSize m (hdrp q) = 0 ∧ getAlloc m (hdrp q) ≠ 0
  bound : q < 2 ^ 32

theorem Passes.matched (h : Passes m heapListp bs q) : Matched m heapListp := by
  cases bs with
  | nil =>
      have hpro := h.prologue.1
      rw [show heapListp = q from h.steps, h.epilogue.1] at hpro
      cases hpro
  | cons b bs => exact h.steps.2.2.1

theorem Passes.checkTags_eq (h : Passes m heapListp bs q) (line : Nat → List Message) :
    checkTags m heapListp (fun bp => some (line bp)) =
      some ((bs.flatMap fun b => line b.ptr) ++ line q) := by
  have hle := h.steps.le
  have hbound := h.bound
  have hfuel : bs.length < walkFuel := by
    unfold walkFuel
    omega
  have hpro : checkPrologue m heapListp = [] := by
    rw [checkPrologue, checkblock_nil.mpr h.matched, if_neg (by simp [h.prologue])]
    rfl
  have hepi : checkEpilogue m q = [] := by rw [checkEpilogue, if_neg (by simp [h.epilogue])]
  have hblocks := checkBlocks_steps line h.steps h.epilogue.1 hbound hfuel
  simp only [checkTags, hblocks, hpro, hepi, bind, Option.bind, List.nil_append, List.append_nil]

/-- The checker is silent exactly on a heap whose lists and blocks have no
defect. -/
theorem checkQuietly_nil {lists : Option (List Message)} (hp : heapListp < 2 ^ 32) :
    checkQuietly lists m heapListp = some [] ↔
      lists = some [] ∧ ∃ bs q, Passes m heapListp bs q := by
  constructor
  · intro h
    obtain ⟨out, hlists, h⟩ := Option.bind_eq_some_iff.mp h
    obtain ⟨tags, htags, h⟩ := Option.bind_eq_some_iff.mp h
    obtain ⟨rfl, rfl⟩ := List.append_eq_nil_iff.mp (Option.some.inj h)
    obtain ⟨⟨out, last⟩, hblocks, htags⟩ := Option.bind_eq_some_iff.mp htags
    obtain ⟨hrest, hepi⟩ := List.append_eq_nil_iff.mp (Option.some.inj htags)
    obtain ⟨hrest, -⟩ := List.append_eq_nil_iff.mp hrest
    obtain ⟨hpro, rfl⟩ := List.append_eq_nil_iff.mp hrest
    obtain ⟨bs, hsteps, hend, hq⟩ := checkBlocks_silent hblocks hp
    obtain ⟨hpro, -⟩ := List.append_eq_nil_iff.mp hpro
    refine ⟨hlists, bs, last, ⟨?_, hsteps, ⟨hend, ?_⟩, hq⟩⟩
    · by_contra hne
      rw [if_pos (by omega)] at hpro
      cases hpro
    · intro hzero
      rw [checkEpilogue, if_pos (.inr hzero)] at hepi
      cases hepi
  · rintro ⟨rfl, bs, q, hpass⟩
    have htags := hpass.checkTags_eq fun _ => []
    simp only [checkQuietly, htags, bind, Option.bind]
    simp

def blockLine (b : Block) : Message :=
  .block b.ptr b.size b.alloc.toNat b.size b.alloc.toNat

theorem Steps.line {b : Block} (h : Steps m p bs q) (hb : b ∈ bs) :
    b.size ≠ 0 ∧ getSize m (hdrp b.ptr) = b.size ∧ getAlloc m (hdrp b.ptr) = b.alloc.toNat ∧
      getSize m (ftrp m b.ptr) = b.size ∧ getAlloc m (ftrp m b.ptr) = b.alloc.toNat := by
  induction bs generalizing p with
  | nil => cases hb
  | cons c bs ih =>
      obtain ⟨hc, hpos, ⟨-, hmatch⟩, htail⟩ := h
      rcases List.mem_cons.mp hb with rfl | hb
      · have halloc : getAlloc m (hdrp p) = (decide (getAlloc m (hdrp p) = 1)).toNat := by
          have hlt : getAlloc m (hdrp p) < 2 := by
            rw [getAlloc, Nat.and_one_is_mod]
            omega
          by_cases h1 : getAlloc m (hdrp p) = 1
          · simp [h1]
          · simp only [h1, decide_false, Bool.toNat_false]
            omega
        have hptr : b.ptr = p := by rw [hc]
        have hsize : getSize m (hdrp p) = b.size := by rw [hc]
        have ha : getAlloc m (hdrp p) = b.alloc.toNat := by
          rw [hc]
          exact halloc
        rw [hptr]
        refine ⟨by omega, hsize, ha, ?_, ?_⟩
        · rw [getSize, ← hmatch]
          exact hsize
        · rw [getAlloc, ← hmatch]
          exact ha
      · exact ih htail hb

theorem Passes.checkheap_verbose {lists : Option (List Message)} (h : Passes m heapListp bs q)
    (hlists : lists = some []) (hp : heapListp < 2 ^ 32) (lineno : Nat) :
    checkheap lists m heapListp true lineno =
      some ([.calledFrom lineno, .heapAt heapListp] ++ bs.map blockLine ++ [.eol q]) := by
  subst hlists
  have hquiet := (checkQuietly_nil hp).mpr ⟨rfl, bs, q, h⟩
  have hprint : printblock (some []) m heapListp = fun bp => some
      [if getSize m (hdrp bp) = 0 then .eol bp
        else .block bp (getSize m (hdrp bp)) (getAlloc m (hdrp bp))
          (getSize m (ftrp m bp)) (getAlloc m (ftrp m bp))] := by
    funext bp
    rw [printblock, hquiet]
    rfl
  have hlines : (bs.flatMap fun b =>
      [if getSize m (hdrp b.ptr) = 0 then .eol b.ptr
        else .block b.ptr (getSize m (hdrp b.ptr)) (getAlloc m (hdrp b.ptr))
          (getSize m (ftrp m b.ptr)) (getAlloc m (ftrp m b.ptr))]) = bs.map blockLine := by
    rw [← List.map_eq_flatMap]
    apply List.map_congr_left
    intro b hb
    obtain ⟨hne, hsize, halloc, hfsize, hfalloc⟩ := h.steps.line hb
    rw [hsize, halloc, hfsize, hfalloc, if_neg hne]
    rfl
  rw [checkheap, if_pos rfl]
  simp only [hprint, h.checkTags_eq, hlines, h.epilogue.1, bind, Option.bind, if_true]
  simp

/-! ## Heaps that the allocators keep -/

theorem Tiles.steps (h : Tiles p bs q) (htag : ∀ b ∈ bs, Tagged m b) (hmod : p % 8 = 0) :
    Steps m p bs q := by
  induction bs generalizing p with
  | nil => exact h
  | cons b bs ih =>
      obtain ⟨rfl, h16, h8, htail⟩ := h
      obtain ⟨⟨hhead, hfoot⟩, hrest⟩ := List.forall_mem_cons.mp htag
      have halt := Bool.toNat_lt_two b.alloc
      have hsize : getSize m (hdrp b.ptr) = b.size := getSize_of_load hhead h8 (by omega)
      have halloc : getAlloc m (hdrp b.ptr) = b.alloc.toNat := getAlloc_of_load hhead h8 halt
      have hfoot' : load m (ftrp m b.ptr) = b.tag := by rw [ftrp, hsize, hfoot]
      have hblock : b = ⟨b.ptr, getSize m (hdrp b.ptr), getAlloc m (hdrp b.ptr) = 1⟩ := by
        rw [hsize, halloc]
        obtain ⟨ptr, size, alloc⟩ := b
        cases alloc <;> rfl
      exact ⟨hblock, by omega, ⟨hmod, hhead.trans hfoot'.symm⟩, ih htail hrest (by omega)⟩

theorem Layout.passes {lo hi : Nat} (h : Layout m lo bs hi) (hmod : lo % 8 = 0) :
    Passes m (lo - 8) (⟨lo - 8, 8, true⟩ :: bs) hi := by
  have hlo := h.lo_ge
  have hhead : load m (hdrp (lo - 8)) = pack 8 1 := by
    rw [hdrp, Nat.sub_sub]
    exact h.prologueHeader
  have hsize : getSize m (hdrp (lo - 8)) = 8 := getSize_of_load hhead (by decide) (by decide)
  have halloc : getAlloc m (hdrp (lo - 8)) = 1 := getAlloc_of_load hhead (by decide) (by decide)
  have hfoot : load m (ftrp m (lo - 8)) = pack 8 1 := by
    rw [ftrp, hsize, Nat.add_sub_cancel]
    exact h.prologueFooter
  have hend : getSize m (hdrp hi) = 0 := getSize_of_load h.epilogue (by decide) (by decide)
  have hendAlloc : getAlloc m (hdrp hi) = 1 :=
    getAlloc_of_load h.epilogue (by decide) (by decide)
  have hstart : lo - 8 + 8 = lo := by omega
  refine ⟨⟨hsize, by omega⟩, ⟨?_, by simp, ⟨by omega, hhead.trans hfoot.symm⟩, ?_⟩,
    ⟨hend, by omega⟩, h.hi_lt⟩
  · simp only [hsize, halloc, decide_true]
  · rw [hstart]
    exact h.tiles.steps h.tagged hmod

end CsappLabs.Malloc
