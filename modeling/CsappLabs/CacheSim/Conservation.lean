import CsappLabs.CacheSim.Runs
import Mathlib.Algebra.Group.Nat.Defs
import Mathlib.Algebra.Group.Prod

/-!
# Conservation laws of the counters

After each record of a trace the counters account for every access, and the
valid lines of a set for the misses and evictions that are charged to it.
-/

namespace CsappLabs.CacheSim

variable {g : Geometry} {sim sim' : Sim} {r : Record} {lines lines' : List CacheLine}
  {i : Nat} {p trace : List Record}

/-- The misses and evictions by which the record raises the counters. -/
def charge (sim sim' : Sim) : Nat × Nat :=
  (sim'.counters.miss - sim.counters.miss, sim'.counters.evictions - sim.counters.evictions)

def charged (g : Geometry) (i : Nat) (sim : Sim) : List Record → Nat × Nat
  | [] => (0, 0)
  | r :: p =>
      match readRecord g sim r with
      | none => (0, 0)
      | some sim' =>
          if setIndex g r.addr = i then charge sim sim' + charged g i sim' p
          else charged g i sim' p

theorem charged_concat {sim₁ sim₂ : Sim} (h₁ : readTrace g sim p = some sim₁)
    (h₂ : readRecord g sim₁ r = some sim₂) :
    charged g i sim (p ++ [r]) =
      charged g i sim p + if setIndex g r.addr = i then charge sim₁ sim₂ else (0, 0) := by
  induction p generalizing sim with
  | nil =>
      obtain rfl : sim = sim₁ := Option.some.inj h₁
      simp only [List.nil_append, charged, h₂]
      split
      · exact add_comm _ _
      · rfl
  | cons r' p ih =>
      cases hr : readRecord g sim r' with
      | none =>
          simp only [readTrace, hr, bind, Option.bind] at h₁
          cases h₁
      | some sim' =>
          simp only [readTrace, hr, bind, Option.bind] at h₁
          simp only [List.cons_append, charged, hr, ih h₁]
          by_cases hi : setIndex g r'.addr = i
          · simp only [if_pos hi, add_assoc]
          · simp only [if_neg hi]

structure Conserved (g : Geometry) (p : List Record) (sim : Sim) : Prop where
  total : sim.counters.hit + sim.counters.miss =
    (p.map Record.flag).count 'L' + (p.map Record.flag).count 'S' +
      2 * (p.map Record.flag).count 'M'
  room : ∀ (i : Nat) lines, sim.cache[i]? = some lines → (validTags lines).length ≤ g.E
  charged : ∀ (i : Nat) lines, sim.cache[i]? = some lines →
    (validTags lines).length + (charged g i ⟨cacheInit (sets g) g.E, ⟨0, 0, 0⟩⟩ p).2 =
      (charged g i ⟨cacheInit (sets g) g.E, ⟨0, 0, 0⟩⟩ p).1
  valid : ∀ lines ∈ sim.cache, ∀ l ∈ lines, l.valid = true ↔ l.time ≠ 0
  tags : ∀ lines ∈ sim.cache, (validTags lines).Nodup

def RecordLaws (g : Geometry) (sim : Sim) (r : Record) : Prop :=
  ∃ lines c₁ lines₁, sim.cache[setIndex g r.addr]? = some lines ∧
    load g r.addr sim.counters lines = some (c₁, lines₁) ∧
    (c₁.evictions ≠ sim.counters.evictions → (validTags lines).length = g.E) ∧
    (r.flag = 'M' →
      ∃ lines₂, load g r.addr c₁ lines₁ = some ({ c₁ with hit := c₁.hit + 1 }, lines₂))

theorem SetOk.room {E N : Nat} (h : SetOk E N lines) : (validTags lines).length ≤ E := by
  rw [← h.length, validTags, List.length_map]
  exact List.length_filter_le _ _

theorem recordLaws (hg : g.Valid) (h : SimOk g sim)
    (hN : sim.counters.hit + sim.counters.miss + 1 < uint64Max) (r : Record) :
    RecordLaws g sim r := by
  obtain ⟨lines, hget⟩ : ∃ lines, sim.cache[setIndex g r.addr]? = some lines := by
    have hlt := setIndex_lt hg r.addr
    rw [← h.sets] at hlt
    exact ⟨_, List.getElem?_eq_getElem hlt⟩
  have hlines := h.lines lines (List.mem_of_getElem? hget)
  obtain ⟨c₁, lines₁, heq₁, hacc₁⟩ :=
    load_spec hg r.addr sim.counters hlines (Nat.lt_of_succ_lt hN)
  obtain ⟨c₂, lines₂, heq₂, hacc₂⟩ := load_spec hg r.addr c₁ (hacc₁.setOk hlines) hN
  refine ⟨lines, c₁, lines₁, hget, heq₁, fun he => ?_, fun _ => ⟨lines₂, ?_⟩⟩
  · have hfull := hacc₁.full_of_eviction he
    rw [← hlines.length, validTags, List.length_map, List.filter_eq_self.mpr hfull]
  · rw [heq₂, (hacc₂.hit_of_stored hacc₁.stored).1]

theorem accesses_count (p : List Record) (r : Record) :
    ((p ++ [r]).map Record.flag).count 'L' + ((p ++ [r]).map Record.flag).count 'S' +
        2 * ((p ++ [r]).map Record.flag).count 'M' =
      (p.map Record.flag).count 'L' + (p.map Record.flag).count 'S' +
        2 * (p.map Record.flag).count 'M' + accesses r := by
  rw [List.map_append, List.count_append, List.count_append, List.count_append, List.map_singleton,
    List.count_singleton, List.count_singleton, List.count_singleton, accesses]
  simp only [beq_iff_eq]
  by_cases hL : r.flag = 'L'
  · simp [hL]
    omega
  · by_cases hS : r.flag = 'S'
    · simp [hS]
      omega
    · by_cases hM : r.flag = 'M'
      · simp [hM]
        omega
      · simp [hL, hS, hM]

theorem conserved_init (hg : g.Valid) :
    Conserved g [] ⟨cacheInit (sets g) g.E, ⟨0, 0, 0⟩⟩ where
  total := rfl
  room i lines hi := ((simOk_init hg).lines lines (List.mem_of_getElem? hi)).room
  charged i lines hi := by
    have hmem := List.mem_of_getElem? hi
    rw [cacheInit] at hmem
    rw [List.eq_of_mem_replicate hmem]
    simp [validTags, CacheSim.charged]
  valid lines hl := ((simOk_init hg).lines lines hl).valid
  tags lines hl := ((simOk_init hg).lines lines hl).tags

theorem Conserved.reads (hc : Conserved g p sim) (h : SimOk g sim) (hs : simulate g p = some sim)
    (hs' : simulate g (p ++ [r]) = some sim') (hreads : Reads g sim r sim' lines lines') :
    Conserved g (p ++ [r]) sim' where
  total := by rw [hreads.accesses.total, hc.total, accesses_count]
  room i l hi := ((hreads.simOk h).lines l (List.mem_of_getElem? hi)).room
  charged i l hi := by
    have hr : readRecord g sim r = some sim' := (simulate_concat hs r).symm.trans hs'
    rw [charged_concat hs hr]
    rw [hreads.set] at hi
    by_cases hidx : setIndex g r.addr = i
    · subst hidx
      obtain ⟨hlt, -⟩ := List.getElem?_eq_some_iff.mp hreads.get
      rw [List.getElem?_set_self hlt] at hi
      obtain rfl : lines' = l := Option.some.inj hi
      have hold := hc.charged _ _ hreads.get
      have hnew := hreads.accesses.charge
      obtain ⟨-, hmiss, hev⟩ := hreads.accesses.mono
      simp only [if_pos, Prod.fst_add, Prod.snd_add, charge]
      omega
    · rw [List.getElem?_set_ne hidx] at hi
      simp only [if_neg hidx, Prod.fst_add, Prod.snd_add, Nat.add_zero]
      exact hc.charged i l hi
  valid l hl := ((hreads.simOk h).lines l hl).valid
  tags l hl := ((hreads.simOk h).lines l hl).tags

/-- The laws hold after each record of a trace, and of the accesses of the
next one. -/
theorem conservation_laws (hg : g.Valid) (hshort : Short g trace) :
    ∀ p, p <+: trace → ∃ sim, simulate g p = some sim ∧ Conserved g p sim ∧
      ∀ r, RecordLaws g sim r := by
  intro p
  have hrun : p <+: trace → ∃ sim, simulate g p = some sim ∧ Conserved g p sim := by
    induction p using List.reverseRecOn with
    | nil => exact fun _ => ⟨_, rfl, conserved_init hg⟩
    | append_singleton p r ih =>
        intro hp
        have hprefix : p <+: trace := (List.prefix_append p [r]).trans hp
        obtain ⟨sim, hs, hc⟩ := ih hprefix
        obtain ⟨sim₁, hs₁, h⟩ := simulate_ok hg hshort p hprefix
        obtain rfl : sim₁ = sim := Option.some.inj (hs₁.symm.trans hs)
        obtain ⟨sim', lines, lines', heq, hreads, -⟩ := hshort.reads hg hprefix hs h r
        exact ⟨sim', heq, hc.reads h hs heq hreads⟩
  intro hp
  obtain ⟨sim, hs, hc⟩ := hrun hp
  obtain ⟨sim₁, hs₁, h⟩ := simulate_ok hg hshort p hp
  obtain rfl : sim₁ = sim := Option.some.inj (hs₁.symm.trans hs)
  obtain ⟨hhit, hmiss, -⟩ := hshort p sim₁ hp hs
  have hN : sim₁.counters.hit + sim₁.counters.miss + 1 < uint64Max := by
    have hmax : uint64Max = 2 ^ 64 - 1 := rfl
    omega
  exact ⟨sim₁, hs, hc, recordLaws hg h hN⟩

theorem conservation_laws_modify :
    ∃ sim, simulate ⟨0, 1, 4⟩ [⟨'L', 0⟩, ⟨'M', 16⟩] = some sim ∧
      Conserved ⟨0, 1, 4⟩ [⟨'L', 0⟩, ⟨'M', 16⟩] sim ∧ ∀ r, RecordLaws ⟨0, 1, 4⟩ sim r :=
  conservation_laws ⟨by decide, by decide, by decide, by decide⟩
    (short_of_accesses ⟨by decide, by decide, by decide, by decide⟩ (by decide)) _
    (List.prefix_refl _)

end CsappLabs.CacheSim
