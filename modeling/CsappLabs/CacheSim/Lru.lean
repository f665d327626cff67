import CsappLabs.CacheSim.Reference

/-!
# Agreement with the reference

The simulator and the reference agree after each record of a trace exactly when
no record evicts from a set whose lines are out of order.
-/

namespace CsappLabs.CacheSim

open CsappLabs.Foundation

variable {g : Geometry} {sim sim' : Sim} {r : Record} {lines lines' : List CacheLine}
  {p trace : List Record}

structure Agrees (g : Geometry) (p : List Record) (sim : Sim) : Prop where
  counters : sim.counters = (reference g p).counters
  contents : ∀ (i : Nat) lines, sim.cache[i]? = some lines →
    ∀ t, (∃ l ∈ lines, l.valid ∧ l.tag.toNat = t) ↔ t ∈ (reference g p).sets i

/-- If the record misses in a full set, the line of this set whose tag was
accessed longest ago has the least time, and the lowest index among those. -/
def InOrder (g : Geometry) (p : List Record) (r : Record) : Prop :=
  ∀ sim lines, simulate g p = some sim → sim.cache[setIndex g r.addr]? = some lines →
    accesses r ≠ 0 → storedTag g r.addr ∉ validTags lines → (∀ l ∈ lines, l.valid) →
    OldestFirst (used g (setIndex g r.addr) p) lines

theorem storedTag_eq {addr : BitVec 64} (h : refTag g addr < 2 ^ 31) :
    (storedTag g addr).toNat = refTag g addr := by
  have htag : ((tagBit g addr).setWidth 32).toNat = refTag g addr := by
    rw [BitVec.toNat_setWidth, tagBit_eq]
    exact Nat.mod_eq_of_lt (Nat.lt_trans h (by decide))
  rw [storedTag, signExtend_toNat (htag ▸ h), htag]

theorem SetOk.perm_iff {E N : Nat} {us : List Nat} (h : SetOk E N lines) :
    (tagsOf lines).Perm ((recency us).take E) ↔
      ∀ t, (∃ l ∈ lines, l.valid ∧ l.tag.toNat = t) ↔ t ∈ (recency us).take E := by
  rw [List.perm_ext_iff_of_nodup h.nodup_tagsOf ((nodup_recency us).sublist (List.take_sublist _ _))]
  simp only [mem_tagsOf]

theorem reference_concat (g : Geometry) (p : List Record) (r : Record) :
    reference g (p ++ [r]) = refRecord g (reference g p) r := by
  simp [reference]

/-- After a record the two agree again exactly when it finds its set in order. -/
theorem Agrees.reads_iff (ha : Agrees g p sim) (hg : g.Valid) (h : SimOk g sim)
    (hs : simulate g p = some sim) (hreads : Reads g sim r sim' lines lines')
    (htag : refTag g r.addr < 2 ^ 31) :
    Agrees g (p ++ [r]) sim' ↔ InOrder g p r := by
  have hidx : setIndex g r.addr = refIndex g r.addr := setIndex_eq hg r.addr
  have hset := h.lines lines (List.mem_of_getElem? hreads.get)
  have hset' := hreads.accesses.setOk hset
  have href := reference_sets hg.pos p
  have hperm : (tagsOf lines).Perm ((recency (used g (setIndex g r.addr) p)).take g.E) := by
    rw [hset.perm_iff, ← href]
    exact ha.contents _ _ hreads.get
  obtain ⟨hc, hiff⟩ := hreads.accesses.refAccesses hg.pos hset hperm
  rw [storedTag_eq htag, ha.counters, ← href] at hc
  rw [storedTag_eq htag, ← href, ha.counters] at hiff
  have horder : InOrder g p r ↔ (accesses r ≠ 0 → storedTag g r.addr ∉ validTags lines →
      (∀ l ∈ lines, l.valid) → OldestFirst (used g (setIndex g r.addr) p) lines) := by
    constructor
    · exact fun ho => ho sim lines hs hreads.get
    · intro ho sim₁ lines₁ hs₁ hget₁
      obtain rfl : sim = sim₁ := Option.some.inj (hs.symm.trans hs₁)
      obtain rfl : lines = lines₁ := Option.some.inj (hreads.get.symm.trans hget₁)
      exact ho
  have hsets : ∀ j, (reference g (p ++ [r])).sets j = if j = setIndex g r.addr then
      (refAccesses g.E (refTag g r.addr) (accesses r) (reference g p).counters
        ((reference g p).sets (setIndex g r.addr))).2 else (reference g p).sets j := by
    intro j
    rw [reference_concat, hidx]
    rfl
  have hcounters : sim'.counters = (reference g (p ++ [r])).counters := by
    rw [hc, reference_concat, hidx]
    rfl
  have hself := hsets (setIndex g r.addr)
  rw [if_pos rfl] at hself
  rw [horder, ← hiff, ← hself, reference_sets hg.pos, hset'.perm_iff, ← reference_sets hg.pos]
  obtain ⟨hlt, -⟩ := List.getElem?_eq_some_iff.mp hreads.get
  constructor
  · intro ha'
    apply ha'.contents
    rw [hreads.set, List.getElem?_set_self hlt]
  · intro hsame
    refine ⟨hcounters, fun i l hi => ?_⟩
    rw [hreads.set] at hi
    by_cases hi' : setIndex g r.addr = i
    · subst hi'
      rw [List.getElem?_set_self hlt] at hi
      exact Option.some.inj hi ▸ hsame
    · rw [List.getElem?_set_ne hi'] at hi
      rw [hsets, if_neg (Ne.symm hi')]
      exact ha.contents i l hi

theorem agrees_init (g : Geometry) : Agrees g [] ⟨cacheInit (sets g) g.E, ⟨0, 0, 0⟩⟩ where
  counters := rfl
  contents i lines hi t := by
    have hmem := List.mem_of_getElem? hi
    rw [cacheInit] at hmem
    rw [List.eq_of_mem_replicate hmem]
    constructor
    · rintro ⟨l, hl, hvalid, -⟩
      rw [List.eq_of_mem_replicate hl] at hvalid
      cases hvalid
    · intro ht
      cases ht

def AgreesAfter (g : Geometry) (p : List Record) : Prop :=
  ∃ sim, simulate g p = some sim ∧ Agrees g p sim

theorem AgreesAfter.concat_iff (ha : AgreesAfter g p) (hg : g.Valid) (hshort : Short g trace)
    (hp : p ++ [r] <+: trace) (htag : refTag g r.addr < 2 ^ 31) :
    AgreesAfter g (p ++ [r]) ↔ InOrder g p r := by
  obtain ⟨sim, hs, ha⟩ := ha
  have hprefix : p <+: trace := (List.prefix_append p [r]).trans hp
  obtain ⟨sim₁, hs₁, h⟩ := simulate_ok hg hshort p hprefix
  obtain rfl : sim₁ = sim := Option.some.inj (hs₁.symm.trans hs)
  obtain ⟨sim', lines, lines', heq, hreads, -⟩ := hshort.reads hg hprefix hs h r
  rw [← ha.reads_iff hg h hs hreads htag]
  constructor
  · rintro ⟨sim₂, hs₂, ha'⟩
    obtain rfl : sim' = sim₂ := Option.some.inj (heq.symm.trans hs₂)
    exact ha'
  · exact fun ha' => ⟨sim', heq, ha'⟩

/-- The simulator agrees with the reference after each record exactly when no
record evicts from a set that is out of order. -/
theorem agrees_iff_inOrder (hg : g.Valid) (hshort : Short g trace)
    (htags : ∀ r ∈ trace, refTag g r.addr < 2 ^ 31) :
    (∀ p, p <+: trace → AgreesAfter g p) ↔ ∀ p r, p ++ [r] <+: trace → InOrder g p r := by
  have htag : ∀ p r, p ++ [r] <+: trace → refTag g r.addr < 2 ^ 31 :=
    fun p r hp => htags r (hp.subset (by simp))
  constructor
  · intro hall p r hp
    have ha := hall p ((List.prefix_append p [r]).trans hp)
    exact (ha.concat_iff hg hshort hp (htag p r hp)).mp (hall _ hp)
  · intro hall p
    induction p using List.reverseRecOn with
    | nil => exact fun _ => ⟨_, rfl, agrees_init g⟩
    | append_singleton p r ih =>
        intro hp
        have ha := ih ((List.prefix_append p [r]).trans hp)
        exact (ha.concat_iff hg hshort hp (htag p r hp)).mpr (hall p r hp)

theorem agrees_iff_inOrder_evict :
    (simulate ⟨0, 2, 4⟩ [⟨'L', 0⟩, ⟨'M', 16⟩, ⟨'L', 32⟩]).map Sim.counters = some ⟨1, 3, 1⟩ ∧
      ((∀ p, p <+: [⟨'L', 0⟩, ⟨'M', 16⟩, ⟨'L', 32⟩] → AgreesAfter ⟨0, 2, 4⟩ p) ↔
        ∀ p r, p ++ [r] <+: [⟨'L', 0⟩, ⟨'M', 16⟩, ⟨'L', 32⟩] → InOrder ⟨0, 2, 4⟩ p r) :=
  ⟨by decide, agrees_iff_inOrder ⟨by decide, by decide, by decide, by decide⟩
    (short_of_accesses ⟨by decide, by decide, by decide, by decide⟩ (by decide)) (by decide)⟩

/-- The blocks 0 and 1 are loaded, 0 again, then 2: the simulator evicts the
block 0, whose last access is the most recent one. -/
theorem hit_line_evicted :
    ¬∀ g trace, g.Valid → Short g trace → (∀ r ∈ trace, refTag g r.addr < 2 ^ 31) →
      ∃ sim, simulate g trace = some sim ∧ sim.counters = (reference g trace).counters := by
  intro hall
  have hg : Geometry.Valid ⟨0, 2, 0⟩ := ⟨by decide, by decide, by decide, by decide⟩
  obtain ⟨sim, hs, hc⟩ := hall ⟨0, 2, 0⟩ [⟨'L', 0⟩, ⟨'L', 1⟩, ⟨'L', 0⟩, ⟨'L', 2⟩, ⟨'L', 0⟩] hg
    (short_of_accesses hg (by decide)) (by decide)
  have hcode : (simulate ⟨0, 2, 0⟩ [⟨'L', 0⟩, ⟨'L', 1⟩, ⟨'L', 0⟩, ⟨'L', 2⟩, ⟨'L', 0⟩]).map
      Sim.counters = some ⟨1, 4, 2⟩ := by decide
  have href : (reference ⟨0, 2, 0⟩ [⟨'L', 0⟩, ⟨'L', 1⟩, ⟨'L', 0⟩, ⟨'L', 2⟩, ⟨'L', 0⟩]).counters =
      ⟨2, 3, 1⟩ := by decide
  rw [hs, Option.map_some, hc, href] at hcode
  exact absurd hcode (by decide)

theorem inOrder_of_direct (hg : g.Valid) (hshort : Short g trace) (hE : g.E = 1)
    (hp : p ++ [r] <+: trace) : InOrder g p r := by
  intro sim lines hs hget _ _ _ as line bs heq _
  obtain ⟨sim₁, hs₁, h⟩ :=
    simulate_ok hg hshort p ((List.prefix_append p [r]).trans hp)
  obtain rfl : sim₁ = sim := Option.some.inj (hs₁.symm.trans hs)
  have hlen := (h.lines lines (List.mem_of_getElem? hget)).length
  rw [heq, List.length_append, List.length_cons, hE] at hlen
  obtain rfl : as = [] := List.length_eq_zero_iff.mp (by omega)
  obtain rfl : bs = [] := List.length_eq_zero_iff.mp (by omega)
  exact ⟨by simp, by simp⟩

end CsappLabs.CacheSim
