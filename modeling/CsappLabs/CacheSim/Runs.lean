import CsappLabs.CacheSim.Lines
import Mathlib.Data.List.Infix
import Mathlib.Data.List.Induction

/-!
# Reading a trace

A record accesses one set, once or twice.  What holds of the accesses is
carried along the trace, and the conservation laws of the counters follow.
-/

namespace CsappLabs.CacheSim

variable {g : Geometry} {sim sim' : Sim} {r : Record} {c c' c₁ : Counters}
  {lines lines' lines₁ : List CacheLine} {tag : BitVec 64} {n N i : Nat} {p trace : List Record}

structure Geometry.Valid (g : Geometry) : Prop where
  s : g.s ≤ 30
  bits : g.s + g.b < 64
  pos : 1 ≤ g.E
  int : g.E < 2 ^ 31

/-! ## Addresses -/

/-- The tag as it is stored: the `int` that `load_in_cache` takes, widened. -/
def storedTag (g : Geometry) (addr : BitVec 64) : BitVec 64 :=
  ((tagBit g addr).setWidth 32).signExtend 64

theorem toNat_shiftLeft_one {s : Nat} (hs : s ≤ 30) : (1#32 <<< s).toNat = 2 ^ s := by
  have hpow : 2 ^ s ≤ 2 ^ 30 := Nat.pow_le_pow_right (by omega) hs
  rw [BitVec.toNat_shiftLeft, Nat.shiftLeft_eq]
  simp only [BitVec.toNat_ofNat]
  rw [Nat.mod_eq_of_lt] <;> omega

theorem sets_eq (hg : g.Valid) : sets g = 2 ^ g.s := by
  have hpow : 2 ^ g.s ≤ 2 ^ 30 := Nat.pow_le_pow_right (by omega) hg.s
  have hone := toNat_shiftLeft_one hg.s
  rw [sets, signExtend_toNat (by omega), hone]

theorem setIndex_eq (hg : g.Valid) (addr : BitVec 64) :
    setIndex g addr = addr.toNat / 2 ^ g.b % 2 ^ g.s := by
  have hpow : 2 ^ g.s ≤ 2 ^ 30 := Nat.pow_le_pow_right (by omega) hg.s
  have hpos : 0 < 2 ^ g.s := Nat.two_pow_pos g.s
  have hone := toNat_shiftLeft_one hg.s
  have hmask : ((1#32 <<< g.s) - 1#32).toNat = 2 ^ g.s - 1 := by
    rw [BitVec.toNat_sub_of_le (by rw [BitVec.le_def, hone]; exact hpos), hone]
    rfl
  rw [setIndex, BitVec.toNat_and, signExtend_toNat (by omega), hmask, Nat.and_two_pow_sub_one_eq_mod,
    BitVec.toNat_ushiftRight, Nat.shiftRight_eq_div_pow]

theorem setIndex_lt (hg : g.Valid) (addr : BitVec 64) : setIndex g addr < 2 ^ g.s := by
  rw [setIndex_eq hg]
  exact Nat.mod_lt _ (Nat.two_pow_pos _)

theorem tagBit_eq (g : Geometry) (addr : BitVec 64) :
    (tagBit g addr).toNat = addr.toNat / 2 ^ (g.s + g.b) := by
  rw [tagBit, BitVec.toNat_ushiftRight, BitVec.toNat_ushiftRight, Nat.shiftRight_eq_div_pow,
    Nat.shiftRight_eq_div_pow, Nat.div_div_eq_div_mul, ← Nat.pow_add, Nat.add_comm g.b]

/-! ## One record -/

def accesses (r : Record) : Nat :=
  if r.flag = 'L' ∨ r.flag = 'S' then 1 else if r.flag = 'M' then 2 else 0

inductive Accesses (tag : BitVec 64) :
    Nat → Nat → Counters → List CacheLine → Counters → List CacheLine → Prop
  | nil (N : Nat) (c : Counters) (lines : List CacheLine) : Accesses tag 0 N c lines c lines
  | cons {n N : Nat} {c c₁ c' : Counters} {lines lines₁ lines' : List CacheLine}
      (first : Accessed N tag c lines c₁ lines₁)
      (rest : Accesses tag n (N + 1) c₁ lines₁ c' lines') :
      Accesses tag (n + 1) N c lines c' lines'

structure SimOk (g : Geometry) (sim : Sim) : Prop where
  sets : sim.cache.length = 2 ^ g.s
  lines : ∀ lines ∈ sim.cache, SetOk g.E (sim.counters.hit + sim.counters.miss) lines

theorem load_spec (hg : g.Valid) (addr : BitVec 64) (c : Counters) (h : SetOk g.E N lines)
    (hN : N < uint64Max) :
    ∃ c' lines', load g addr c lines = some (c', lines') ∧
      Accessed N (storedTag g addr) c lines c' lines' :=
  loadInCache_spec c h hg.pos hg.int hN _

theorem not_instruction_of_access {r : Record} (h : r.flag = 'L' ∨ r.flag = 'S') :
    r.flag ≠ 'I' := by
  intro he
  rw [he] at h
  revert h
  decide

theorem not_instruction_of_modify {r : Record} (h : r.flag = 'M') : r.flag ≠ 'I' := by
  rw [h]
  decide

def access (g : Geometry) (sim : Sim) (addr : BitVec 64) : Option Sim := do
  let searchLine ← sim.cache[setIndex g addr]?
  let (c, searchLine) ← load g addr sim.counters searchLine
  some ⟨sim.cache.set (setIndex g addr) searchLine, c⟩

theorem readRecord_access {r : Record} (h : r.flag = 'L' ∨ r.flag = 'S') :
    readRecord g sim r = access g sim r.addr := by
  have hI := not_instruction_of_access h
  simp only [readRecord, access, if_neg hI, if_pos h]

theorem readRecord_modify {r : Record} (h : r.flag = 'M') :
    readRecord g sim r = (access g sim r.addr).bind fun sim' => access g sim' r.addr := by
  have hI := not_instruction_of_modify h
  have hls : ¬(r.flag = 'L' ∨ r.flag = 'S') := by
    rw [h]
    decide
  simp only [readRecord, access, if_neg hI, if_neg hls, if_pos h, bind]
  cases hget : sim.cache[setIndex g r.addr]? with
  | none => rfl
  | some lines =>
      obtain ⟨hlt, -⟩ := List.getElem?_eq_some_iff.mp hget
      simp only [Option.bind_some]
      cases load g r.addr sim.counters lines with
      | none => rfl
      | some res =>
          simp only [Option.bind_some, List.getElem?_set_self hlt]
          cases load g r.addr res.1 res.2 with
          | none => rfl
          | some res' => simp only [Option.bind_some, List.set_set]

theorem SetOk.mono {E M : Nat} (h : SetOk E N lines) (hle : N ≤ M) : SetOk E M lines :=
  ⟨h.length, h.valid, fun l hl => Nat.le_trans (h.times l hl) hle, h.tags⟩

theorem SimOk.get (hg : g.Valid) (h : SimOk g sim) (addr : BitVec 64) :
    ∃ lines, sim.cache[setIndex g addr]? = some lines := by
  have hlt := setIndex_lt hg addr
  rw [← h.sets] at hlt
  exact ⟨_, List.getElem?_eq_getElem hlt⟩

theorem access_accessed (hg : g.Valid) (h : SimOk g sim)
    (hN : sim.counters.hit + sim.counters.miss < uint64Max) (addr : BitVec 64) :
    ∃ c lines lines', sim.cache[setIndex g addr]? = some lines ∧
      Accessed (sim.counters.hit + sim.counters.miss) (storedTag g addr) sim.counters lines c
        lines' ∧
      access g sim addr = some ⟨sim.cache.set (setIndex g addr) lines', c⟩ ∧
      SimOk g ⟨sim.cache.set (setIndex g addr) lines', c⟩ := by
  obtain ⟨lines, hget⟩ := h.get hg addr
  have hlines := h.lines lines (List.mem_of_getElem? hget)
  obtain ⟨c, lines', heq, hacc⟩ := load_spec hg addr sim.counters hlines hN
  refine ⟨c, lines, lines', hget, hacc, ?_, by rw [List.length_set, h.sets], fun l hl => ?_⟩
  · simp only [access, hget, heq, bind, Option.bind_some]
  · rw [hacc.total]
    cases List.mem_or_eq_of_mem_set hl with
    | inl hold => exact (h.lines l hold).mono (Nat.le_succ _)
    | inr hnew => exact hnew ▸ hacc.setOk hlines

structure Reads (g : Geometry) (sim : Sim) (r : Record) (sim' : Sim)
    (lines lines' : List CacheLine) : Prop where
  get : sim.cache[setIndex g r.addr]? = some lines
  set : sim'.cache = sim.cache.set (setIndex g r.addr) lines'
  accesses : Accesses (storedTag g r.addr) (accesses r) (sim.counters.hit + sim.counters.miss)
    sim.counters lines sim'.counters lines'

theorem readRecord_spec (hg : g.Valid) (h : SimOk g sim)
    (hN : sim.counters.hit + sim.counters.miss + 1 < uint64Max) (r : Record) :
    ∃ sim' lines lines', readRecord g sim r = some sim' ∧ Reads g sim r sim' lines lines' := by
  obtain ⟨c₁, lines, lines₁, hget, hacc₁, heq₁, hok⟩ :=
    access_accessed hg h (Nat.lt_of_succ_lt hN) r.addr
  by_cases hls : r.flag = 'L' ∨ r.flag = 'S'
  · refine ⟨_, lines, lines₁, (readRecord_access hls).trans heq₁, hget, rfl, ?_⟩
    rw [accesses, if_pos hls]
    exact .cons hacc₁ (.nil _ _ _)
  · by_cases hm : r.flag = 'M'
    · have hmore : c₁.hit + c₁.miss < uint64Max := hacc₁.total ▸ hN
      obtain ⟨c₂, lines', lines₂, hget', hacc₂, heq₂, -⟩ := access_accessed hg hok hmore r.addr
      obtain ⟨hlt, -⟩ := List.getElem?_eq_some_iff.mp hget
      obtain rfl : lines₁ = lines' :=
        Option.some.inj ((List.getElem?_set_self hlt).symm.trans hget')
      rw [List.set_set] at heq₂
      refine ⟨⟨sim.cache.set (setIndex g r.addr) lines₂, c₂⟩, lines, lines₂, ?_, hget, rfl, ?_⟩
      · rw [readRecord_modify hm, heq₁, Option.bind_some, heq₂]
      · rw [accesses, if_neg hls, if_pos hm]
        exact .cons hacc₁ (.cons (hacc₁.total ▸ hacc₂) (.nil _ _ _))
    · have hset : sim.cache.set (setIndex g r.addr) lines = sim.cache := by
        obtain ⟨hlt, heq⟩ := List.getElem?_eq_some_iff.mp hget
        rw [← heq, List.set_getElem_self]
      refine ⟨sim, lines, lines, ?_, hget, hset.symm, ?_⟩
      · simp only [readRecord, hget, if_neg hls, if_neg hm, bind, Option.bind, ite_self]
      · rw [accesses, if_neg hls, if_neg hm]
        exact .nil _ _ _

namespace Accesses

theorem total (h : Accesses tag n N c lines c' lines') :
    c'.hit + c'.miss = c.hit + c.miss + n := by
  induction h with
  | nil => rfl
  | cons first rest ih =>
      rw [ih, first.total]
      omega

theorem mono (h : Accesses tag n N c lines c' lines') :
    c.hit ≤ c'.hit ∧ c.miss ≤ c'.miss ∧ c.evictions ≤ c'.evictions := by
  induction h with
  | nil => exact ⟨Nat.le_refl _, Nat.le_refl _, Nat.le_refl _⟩
  | cons first rest ih =>
      obtain ⟨hh, hm, he⟩ := first.mono
      exact ⟨Nat.le_trans hh ih.1, Nat.le_trans hm ih.2.1, Nat.le_trans he ih.2.2⟩

theorem charge (h : Accesses tag n N c lines c' lines') :
    (validTags lines').length + c'.evictions + c.miss =
      (validTags lines).length + c.evictions + c'.miss := by
  induction h with
  | nil => rfl
  | cons first rest ih =>
      have hfirst := first.charge
      omega

theorem setOk {E : Nat} (h : Accesses tag n N c lines c' lines') (hs : SetOk E N lines) :
    SetOk E (N + n) lines' := by
  induction h with
  | nil => exact hs
  | cons first rest ih =>
      have hrest := ih (first.setOk hs)
      rwa [Nat.add_right_comm] at hrest

end Accesses

theorem Reads.simOk (h : Reads g sim r sim' lines lines') (hsim : SimOk g sim) :
    SimOk g sim' where
  sets := by
    rw [h.set, List.length_set]
    exact hsim.sets
  lines l hl := by
    rw [h.set] at hl
    rw [h.accesses.total]
    cases List.mem_or_eq_of_mem_set hl with
    | inl hold => exact (hsim.lines l hold).mono (Nat.le_add_right _ _)
    | inr heq => exact heq ▸ h.accesses.setOk (hsim.lines _ (List.mem_of_getElem? h.get))

theorem simOk_init (hg : g.Valid) : SimOk g ⟨cacheInit (sets g) g.E, ⟨0, 0, 0⟩⟩ where
  sets := by rw [cacheInit, List.length_replicate, sets_eq hg]
  lines l hl := by
    rw [cacheInit] at hl
    rw [List.eq_of_mem_replicate hl]
    refine ⟨List.length_replicate, fun l hl => ?_, fun l hl => ?_, ?_⟩
    · rw [List.eq_of_mem_replicate hl]
      simp
    · rw [List.eq_of_mem_replicate hl]
      exact Nat.le_refl 0
    · simp [validTags]

/-! ## Runs -/

theorem readTrace_append (g : Geometry) (sim : Sim) (p q : List Record) :
    readTrace g sim (p ++ q) = (readTrace g sim p).bind fun sim' => readTrace g sim' q := by
  induction p generalizing sim with
  | nil => rfl
  | cons r p ih =>
      simp only [List.cons_append, readTrace, bind]
      cases readRecord g sim r with
      | none => rfl
      | some sim₁ => exact ih sim₁

theorem simulate_concat (h : simulate g p = some sim) (r : Record) :
    simulate g (p ++ [r]) = readRecord g sim r := by
  rw [simulate, readTrace_append]
  rw [simulate] at h
  rw [h]
  simp only [Option.bind_some, readTrace, bind]
  cases readRecord g sim r <;> rfl

def Short (g : Geometry) (trace : List Record) : Prop :=
  ∀ p sim, p <+: trace → simulate g p = some sim →
    sim.counters.hit < 2 ^ 31 ∧ sim.counters.miss < 2 ^ 31 ∧ sim.counters.evictions < 2 ^ 31

theorem Short.reads (hg : g.Valid) (hshort : Short g trace) (hp : p <+: trace)
    (hs : simulate g p = some sim) (h : SimOk g sim) (r : Record) :
    ∃ sim' lines lines', simulate g (p ++ [r]) = some sim' ∧
      Reads g sim r sim' lines lines' ∧ SimOk g sim' := by
  obtain ⟨hhit, hmiss, -⟩ := hshort p sim hp hs
  have hN : sim.counters.hit + sim.counters.miss + 1 < uint64Max := by
    have hmax : uint64Max = 2 ^ 64 - 1 := rfl
    omega
  obtain ⟨sim', lines, lines', heq, hreads⟩ := readRecord_spec hg h hN r
  exact ⟨sim', lines, lines', (simulate_concat hs r).trans heq, hreads, hreads.simOk h⟩

theorem Accesses.evictions_le (h : Accesses tag n N c lines c' lines')
    (hle : c.evictions ≤ c.miss) : c'.evictions ≤ c'.miss := by
  induction h with
  | nil => exact hle
  | cons first rest ih => exact ih (first.evictions_le hle)

theorem short_of_accesses (hg : g.Valid) (hlt : (trace.map accesses).sum < 2 ^ 31) :
    Short g trace := by
  have hrun : ∀ p, p <+: trace → ∃ sim, simulate g p = some sim ∧ SimOk g sim ∧
      sim.counters.hit + sim.counters.miss = (p.map accesses).sum ∧
      sim.counters.evictions ≤ sim.counters.miss ∧ (p.map accesses).sum < 2 ^ 31 := by
    intro p
    induction p using List.reverseRecOn with
    | nil => exact fun _ => ⟨_, rfl, simOk_init hg, rfl, Nat.le_refl 0, by decide⟩
    | append_singleton p r ih =>
        intro hp
        obtain ⟨sim, hs, h, htotal, hle, hsum⟩ := ih ((List.prefix_append p [r]).trans hp)
        have hN : sim.counters.hit + sim.counters.miss + 1 < uint64Max := by
          have hmax : uint64Max = 2 ^ 64 - 1 := rfl
          omega
        obtain ⟨sim', lines, lines', heq, hreads⟩ := readRecord_spec hg h hN r
        refine ⟨sim', (simulate_concat hs r).trans heq, hreads.simOk h, ?_,
          hreads.accesses.evictions_le hle, ?_⟩
        · rw [hreads.accesses.total, htotal, List.map_append, List.sum_append, List.map_singleton,
            List.sum_singleton]
        · obtain ⟨q, rfl⟩ := hp
          rw [List.map_append, List.sum_append] at hlt
          omega
  intro p sim hp hs
  obtain ⟨sim', hs', -, htotal, hle, hsum⟩ := hrun p hp
  obtain rfl : sim' = sim := Option.some.inj (hs'.symm.trans hs)
  omega

theorem simulate_ok (hg : g.Valid) (hshort : Short g trace) :
    ∀ p, p <+: trace → ∃ sim, simulate g p = some sim ∧ SimOk g sim := by
  intro p
  induction p using List.reverseRecOn with
  | nil => exact fun _ => ⟨_, rfl, simOk_init hg⟩
  | append_singleton p r ih =>
      intro hp
      have hprefix : p <+: trace := (List.prefix_append p [r]).trans hp
      obtain ⟨sim, hs, h⟩ := ih hprefix
      obtain ⟨sim', -, -, heq, -, h'⟩ := hshort.reads hg hprefix hs h r
      exact ⟨sim', heq, h'⟩

end CsappLabs.CacheSim
