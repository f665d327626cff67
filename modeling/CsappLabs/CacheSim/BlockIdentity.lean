import CsappLabs.CacheSim.Runs

/-!
# Which blocks share a line

`load_in_cache` takes the tag as an `int`, so only its low 32 bits are stored.
Two blocks are kept apart by the set index and these bits.
-/

namespace CsappLabs.CacheSim

variable {g : Geometry} {sim sim₁ sim₂ : Sim} {c c' : Counters} {lines lines' : List CacheLine}
  {tag : BitVec 64} {E N i j : Nat} {p : List Record} {x y : BitVec 64}

def Sim.line (sim : Sim) (i j : Nat) : Option CacheLine :=
  sim.cache[i]?.bind fun lines => lines[j]?

def Changes (sim sim' : Sim) (i j : Nat) : Prop := sim.line i j ≠ sim'.line i j

def HitOn (g : Geometry) (sim : Sim) (addr : BitVec 64) (i j : Nat) : Prop :=
  ∃ sim', access g sim addr = some sim' ∧ sim'.counters.hit = sim.counters.hit + 1 ∧
    Changes sim sim' i j

/-! ## Addresses -/

theorem storedTag_eq_iff :
    storedTag g x = storedTag g y ↔
      (tagBit g x).toNat % 2 ^ 32 = (tagBit g y).toNat % 2 ^ 32 := by
  constructor
  · intro h
    have hint := congrArg BitVec.toInt h
    rw [storedTag, storedTag, BitVec.toInt_signExtend_of_le (by decide),
      BitVec.toInt_signExtend_of_le (by decide)] at hint
    have hnat := congrArg BitVec.toNat (BitVec.eq_of_toInt_eq hint)
    rwa [BitVec.toNat_setWidth, BitVec.toNat_setWidth] at hnat
  · intro h
    have hword : (tagBit g x).setWidth 32 = (tagBit g y).setWidth 32 := by
      apply BitVec.eq_of_toNat_eq
      rw [BitVec.toNat_setWidth, BitVec.toNat_setWidth, h]
    rw [storedTag, storedTag, hword]

def block (g : Geometry) (addr : BitVec 64) : Nat := (addr >>> g.b).toNat

theorem setIndex_block (hg : g.Valid) (addr : BitVec 64) :
    setIndex g addr = block g addr % 2 ^ g.s := by
  rw [setIndex_eq hg, block, BitVec.toNat_ushiftRight, Nat.shiftRight_eq_div_pow]

theorem tagBit_block (g : Geometry) (addr : BitVec 64) :
    (tagBit g addr).toNat = block g addr / 2 ^ g.s := by
  rw [tagBit, block, BitVec.toNat_ushiftRight, Nat.shiftRight_eq_div_pow]

/-- The set and the stored tag are the number of the block modulo
`2 ^ (s + 32)`. -/
theorem place_eq_iff (hg : g.Valid) :
    setIndex g x = setIndex g y ∧ storedTag g x = storedTag g y ↔
      block g x % 2 ^ (g.s + 32) = block g y % 2 ^ (g.s + 32) := by
  have hpos : 0 < 2 ^ g.s := Nat.two_pow_pos g.s
  rw [storedTag_eq_iff, setIndex_block hg, setIndex_block hg, tagBit_block, tagBit_block,
    Nat.pow_add, Nat.mod_mul, Nat.mod_mul]
  constructor
  · rintro ⟨hset, htag⟩
    rw [hset, htag]
  · intro h
    have hx := Nat.mod_lt (block g x) hpos
    have hy := Nat.mod_lt (block g y) hpos
    have hset := congrArg (· % 2 ^ g.s) h
    simp only [Nat.add_mul_mod_self_left, Nat.mod_mod] at hset
    refine ⟨hset, ?_⟩
    rw [hset] at h
    exact Nat.eq_of_mul_eq_mul_left hpos (Nat.add_left_cancel h)

/-! ## The line of an access -/

theorem Accessed.place (h : Accessed N tag c lines c' lines') :
    ∃ as line new bs, lines = as ++ line :: bs ∧ lines' = as ++ new :: bs ∧ line ≠ new ∧
      Has tag new ∧
      (c'.hit = c.hit + 1 ∧ Has tag line ∨ c'.hit = c.hit ∧ tag ∉ validTags lines) := by
  cases h with
  | hit as line bs has =>
      refine ⟨as, line, _, bs, rfl, rfl, fun he => ?_, has, .inl ⟨rfl, has⟩⟩
      exact absurd (congrArg CacheLine.time he).symm (Nat.succ_ne_self _)
  | fill as line bs recent miss oldest empty bound =>
      refine ⟨as, line, _, bs, rfl, rfl, fun he => ?_, ⟨rfl, rfl⟩, .inr ⟨rfl, miss⟩⟩
      exact absurd (congrArg CacheLine.valid he) empty
  | evict as line bs recent miss oldest full bound =>
      refine ⟨as, line, _, bs, rfl, rfl, fun he => ?_, ⟨rfl, rfl⟩, .inr ⟨rfl, miss⟩⟩
      exact miss (mem_validTags.mpr ⟨line, by simp, he ▸ ⟨rfl, rfl⟩⟩)

theorem SetOk.unique {as as' bs bs' : List CacheLine} {l l' : CacheLine} (h : SetOk E N lines)
    (heq : lines = as ++ l :: bs) (heq' : lines = as' ++ l' :: bs') (hl : Has tag l)
    (hl' : Has tag l') : as.length = as'.length := by
  have hfront : ∀ as l bs, lines = as ++ l :: bs → Has tag l → tag ∉ validTags as := by
    rintro as l bs rfl hl ha
    have hnd := h.tags
    rw [validTags_valid hl.2, hl.1] at hnd
    exact (List.nodup_cons.mp (List.nodup_middle.mp hnd)).1 (List.mem_append_left _ ha)
  have hnot := hfront as l bs heq hl
  have hnot' := hfront as' l' bs' heq' hl'
  rw [heq] at heq'
  cases List.append_eq_append_iff.mp heq' with
  | inl hle =>
      obtain ⟨cs, rfl, hcs⟩ := hle
      cases cs with
      | nil => simp
      | cons d cs =>
          obtain ⟨rfl, -⟩ := List.cons.inj hcs
          exact absurd (mem_validTags.mpr ⟨l, by simp, hl⟩) hnot'
  | inr hge =>
      obtain ⟨cs, rfl, hcs⟩ := hge
      cases cs with
      | nil => simp
      | cons d cs =>
          obtain ⟨rfl, -⟩ := List.cons.inj hcs
          exact absurd (mem_validTags.mpr ⟨l', by simp, hl'⟩) hnot

structure Replaces (g : Geometry) (sim : Sim) (addr : BitVec 64) (sim' : Sim)
    (as : List CacheLine) (line new : CacheLine) (bs : List CacheLine) : Prop where
  get : sim.cache[setIndex g addr]? = some (as ++ line :: bs)
  set : sim'.cache = sim.cache.set (setIndex g addr) (as ++ new :: bs)
  differs : line ≠ new
  has : Has (storedTag g addr) new
  hit : sim'.counters.hit = sim.counters.hit + 1 ∧ Has (storedTag g addr) line ∨
    sim'.counters.hit = sim.counters.hit ∧ storedTag g addr ∉ validTags (as ++ line :: bs)

theorem access_spec (hg : g.Valid) (h : SimOk g sim)
    (hN : sim.counters.hit + sim.counters.miss < uint64Max) (addr : BitVec 64) :
    ∃ sim' as line new bs, access g sim addr = some sim' ∧ SimOk g sim' ∧
      Replaces g sim addr sim' as line new bs ∧
      sim'.counters.hit + sim'.counters.miss = sim.counters.hit + sim.counters.miss + 1 := by
  obtain ⟨c, lines, lines', hget, hacc, heq, hok⟩ := access_accessed hg h hN addr
  have htotal := hacc.total
  obtain ⟨as, line, new, bs, rfl, rfl, hne, hhas, hhit⟩ := hacc.place
  exact ⟨_, as, line, new, bs, heq, hok, ⟨hget, rfl, hne, hhas, hhit⟩, htotal⟩

namespace Replaces

variable {as as' bs bs' : List CacheLine} {line line' new new' : CacheLine}

theorem get_after (h : Replaces g sim x sim₁ as line new bs) :
    sim₁.cache[setIndex g x]? = some (as ++ new :: bs) := by
  obtain ⟨hlt, -⟩ := List.getElem?_eq_some_iff.mp h.get
  rw [h.set, List.getElem?_set_self hlt]

theorem changes_iff (h : Replaces g sim x sim₁ as line new bs) :
    Changes sim sim₁ i j ↔ setIndex g x = i ∧ as.length = j := by
  by_cases hi : setIndex g x = i
  · subst hi
    simp only [Changes, Sim.line, h.get, h.get_after, Option.bind_some, true_and]
    by_cases hj : as.length = j
    · subst hj
      simp only [get_middle, ne_eq, Option.some.injEq, h.differs, not_false_eq_true]
    · have hsame : (as ++ line :: bs)[j]? = (as ++ new :: bs)[j]? := by
        rw [← set_middle as line new bs, List.getElem?_set_ne hj]
      simp only [hsame, ne_eq, not_true_eq_false, hj]
  · simp only [Changes, Sim.line, h.set, List.getElem?_set_ne hi, ne_eq, not_true_eq_false, hi,
      false_and]

/-- The next access is a hit on the same line when it has the set and the
stored tag. -/
theorem hit_iff (h : Replaces g sim x sim₁ as line new bs) (hok : SimOk g sim₁)
    (h' : Replaces g sim₁ y sim₂ as' line' new' bs') :
    sim₂.counters.hit = sim₁.counters.hit + 1 ∧ setIndex g y = setIndex g x ∧
        as'.length = as.length ↔
      setIndex g x = setIndex g y ∧ storedTag g x = storedTag g y := by
  constructor
  · rintro ⟨hhit, hset, hlen⟩
    have hlines := h.get_after.symm.trans (hset ▸ h'.get)
    obtain ⟨-, hline⟩ := List.append_inj (Option.some.inj hlines) hlen.symm
    obtain ⟨rfl, -⟩ := List.cons.inj hline
    cases h'.hit with
    | inl hh => exact ⟨hset.symm, h.has.1.symm.trans hh.2.1⟩
    | inr hm => exact absurd (hhit.symm.trans hm.1) (Nat.succ_ne_self _)
  · rintro ⟨hset, htag⟩
    have hnew := h.has
    rw [htag] at hnew
    have hlines : as ++ new :: bs = as' ++ line' :: bs' :=
      Option.some.inj (h.get_after.symm.trans (hset ▸ h'.get))
    have hlinesOk := hok.lines _ (List.mem_of_getElem? h.get_after)
    cases h'.hit with
    | inl hh => exact ⟨hh.1, hset.symm, hlinesOk.unique hlines rfl hh.2 hnew⟩
    | inr hm =>
        rw [← hlines] at hm
        exact absurd (mem_validTags.mpr ⟨new, by simp, hnew⟩) hm.2

end Replaces

/-! ## Two accesses -/

/-- The numbers of the blocks differ, but not in their low `s + 32` bits. -/
def Collide (g : Geometry) (x y : BitVec 64) : Prop :=
  block g x ≠ block g y ∧ block g x % 2 ^ (g.s + 32) = block g y % 2 ^ (g.s + 32)

/-- After an access to `x` an access to `y` is a hit on its line exactly when
the addresses are in one block, unless the blocks collide. -/
theorem hit_iff_same_block (hg : g.Valid) (hshort : Short g p) (hs : simulate g p = some sim)
    (hx : access g sim x = some sim₁) (hj : Changes sim sim₁ i j) :
    (HitOn g sim₁ y i j ↔ x >>> g.b = y >>> g.b) ↔ ¬Collide g x y := by
  obtain ⟨sim', hs', h⟩ := simulate_ok hg hshort p (List.prefix_refl p)
  obtain rfl : sim' = sim := Option.some.inj (hs'.symm.trans hs)
  obtain ⟨hhit, hmiss, -⟩ := hshort p sim' (List.prefix_refl p) hs
  have hmax : uint64Max = 2 ^ 64 - 1 := rfl
  obtain ⟨sim'', as, line, new, bs, heq, h₁, hrep, htotal⟩ := access_spec hg h (by omega) x
  obtain rfl : sim'' = sim₁ := Option.some.inj (heq.symm.trans hx)
  obtain ⟨sim₂, as', line', new', bs', heq', -, hrep', -⟩ := access_spec hg h₁ (by omega) y
  obtain ⟨rfl, rfl⟩ := hrep.changes_iff.mp hj
  have hon : HitOn g sim'' y (setIndex g x) as.length ↔
      block g x % 2 ^ (g.s + 32) = block g y % 2 ^ (g.s + 32) := by
    rw [← place_eq_iff hg, ← hrep.hit_iff h₁ hrep', ← hrep'.changes_iff]
    constructor
    · rintro ⟨sim₃, heq₃, hthird⟩
      obtain rfl : sim₂ = sim₃ := Option.some.inj (heq'.symm.trans heq₃)
      exact hthird
    · exact fun hthird => ⟨sim₂, heq', hthird⟩
  have hblock : x >>> g.b = y >>> g.b ↔ block g x = block g y := BitVec.toNat_inj.symm
  rw [hon, hblock, Collide]
  constructor
  · rintro hiff ⟨hne, hlow⟩
    exact hne (hiff.mp hlow)
  · intro hnot
    refine ⟨fun hlow => ?_, fun hsame => by rw [hsame]⟩
    by_contra hne
    exact hnot ⟨hne, hlow⟩

theorem hit_iff_same_block_load :
    ∃ sim sim₁, simulate ⟨1, 1, 4⟩ [⟨'M', 0⟩] = some sim ∧ access ⟨1, 1, 4⟩ sim 16 = some sim₁ ∧
      ((HitOn ⟨1, 1, 4⟩ sim₁ 24 1 0 ↔ (16 : BitVec 64) >>> 4 = 24 >>> 4) ↔
        ¬Collide ⟨1, 1, 4⟩ 16 24) := by
  have hg : Geometry.Valid ⟨1, 1, 4⟩ := ⟨by decide, by decide, by decide, by decide⟩
  have hshort : Short ⟨1, 1, 4⟩ [⟨'M', 0⟩] := short_of_accesses hg (by decide)
  have hs : simulate ⟨1, 1, 4⟩ [⟨'M', 0⟩] =
      some ⟨[[⟨0, 2, true⟩], [⟨0, 0, false⟩]], ⟨1, 1, 0⟩⟩ := by decide
  have hx : access ⟨1, 1, 4⟩ ⟨[[⟨0, 2, true⟩], [⟨0, 0, false⟩]], ⟨1, 1, 0⟩⟩ 16 =
      some ⟨[[⟨0, 2, true⟩], [⟨0, 1, true⟩]], ⟨1, 2, 0⟩⟩ := by decide
  exact ⟨_, _, hs, hx, hit_iff_same_block hg hshort hs hx (by unfold Changes; decide)⟩

/-- The block of the address `2 ^ 32` is taken for the block 0. -/
theorem blocks_share_line :
    ¬∀ g p sim sim₁ x y i j, g.Valid → Short g p → simulate g p = some sim →
      access g sim x = some sim₁ → Changes sim sim₁ i j →
      (HitOn g sim₁ y i j ↔ x >>> g.b = y >>> g.b) := by
  intro hall
  have hg : Geometry.Valid ⟨0, 1, 0⟩ := ⟨by decide, by decide, by decide, by decide⟩
  have hshort : Short ⟨0, 1, 0⟩ [] := short_of_accesses hg (by decide)
  have hx : access ⟨0, 1, 0⟩ ⟨[[⟨0, 0, false⟩]], ⟨0, 0, 0⟩⟩ 0 =
      some ⟨[[⟨0, 1, true⟩]], ⟨0, 1, 0⟩⟩ := by decide
  have hhit : HitOn ⟨0, 1, 0⟩ ⟨[[⟨0, 1, true⟩]], ⟨0, 1, 0⟩⟩ (2 ^ 32) 0 0 :=
    ⟨⟨[[⟨0, 2, true⟩]], ⟨1, 1, 0⟩⟩, by decide, rfl, by unfold Changes; decide⟩
  have hsame := (hall ⟨0, 1, 0⟩ [] _ _ 0 (2 ^ 32) 0 0 hg hshort rfl hx
    (by unfold Changes; decide)).mp hhit
  exact absurd hsame (by decide)

theorem not_collide (hbits : 32 ≤ g.s + g.b) : ¬Collide g x y := by
  have hlt : ∀ addr, block g addr < 2 ^ (g.s + 32) := by
    intro addr
    rw [block, BitVec.toNat_ushiftRight, Nat.shiftRight_eq_div_pow,
      Nat.div_lt_iff_lt_mul (Nat.two_pow_pos _), ← Nat.pow_add]
    exact Nat.lt_of_lt_of_le addr.isLt (Nat.pow_le_pow_right (by decide) (by omega))
  rintro ⟨hne, hlow⟩
  rw [Nat.mod_eq_of_lt (hlt x), Nat.mod_eq_of_lt (hlt y)] at hlow
  exact hne hlow

end CsappLabs.CacheSim
