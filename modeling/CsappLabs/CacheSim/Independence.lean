import CsappLabs.CacheSim.Runs
import Mathlib.Algebra.BigOperators.Group.Finset.Piecewise

/-!
# Independence of the sets

A record reads and writes one set, and only adds to the counters.  A run is
therefore the sum of one run for each set, and records of different sets
commute.
-/

namespace CsappLabs.CacheSim

variable {g : Geometry} {sim sim' : Sim} {r x y : Record} {c d : Counters}
  {lines : List CacheLine} {i : Nat} {p q trace : List Record}

/-! ## Adding to the counters -/

instance : Add Counters where
  add c d := ⟨c.hit + d.hit, c.miss + d.miss, c.evictions + d.evictions⟩

instance : Zero Counters where
  zero := ⟨0, 0, 0⟩

theorem Counters.add_def (c d : Counters) :
    c + d = ⟨c.hit + d.hit, c.miss + d.miss, c.evictions + d.evictions⟩ := rfl

theorem Counters.zero_def : (0 : Counters) = ⟨0, 0, 0⟩ := rfl

instance : AddCommMonoid Counters where
  add_assoc _ _ _ := by simp only [Counters.add_def, Nat.add_assoc]
  zero_add _ := by simp only [Counters.add_def, Counters.zero_def, Nat.zero_add]
  add_zero _ := by simp only [Counters.add_def, Counters.zero_def, Nat.add_zero]
  add_comm _ _ := by simp only [Counters.add_def, Nat.add_comm]
  nsmul := nsmulRec

def raise (d : Counters) (res : Counters × List CacheLine) : Counters × List CacheLine :=
  (d + res.1, res.2)

theorem loadInCache_add (d c : Counters) (lines : List CacheLine) (E tag : BitVec 32) :
    loadInCache (d + c) lines E tag = (loadInCache c lines E tag).map (raise d) := by
  simp only [loadInCache, bind]
  cases findHit lines (tag.signExtend 64) (E.signExtend 64).toNat 0 with
  | none => rfl
  | some found =>
      cases found with
      | some i =>
          simp only [Option.bind_some]
          cases lines[i]? <;> rfl
      | none =>
          simp only [Option.bind_some]
          cases scan lines (E.signExtend 64).toNat 0 ⟨uint64Max, uint64Max, 0⟩ with
          | none => rfl
          | some v =>
              simp only [Option.bind_some]
              cases lines[v.oldestBlock]? with
              | none => rfl
              | some line =>
                  simp only [Option.bind_some]
                  cases line.valid <;> rfl

theorem load_add (g : Geometry) (addr : BitVec 64) (d c : Counters) (lines : List CacheLine) :
    load g addr (d + c) lines = (load g addr c lines).map (raise d) :=
  loadInCache_add d c lines _ _

def readSet (g : Geometry) (r : Record) (lines : List CacheLine) :
    Option (Counters × List CacheLine) :=
  if r.flag = 'L' ∨ r.flag = 'S' then load g r.addr 0 lines
  else if r.flag = 'M' then
    (load g r.addr 0 lines).bind fun res => load g r.addr res.1 res.2
  else some (0, lines)

def Sim.store (sim : Sim) (i : Nat) (res : Counters × List CacheLine) : Sim :=
  ⟨sim.cache.set i res.2, sim.counters + res.1⟩

theorem store_self (h : sim.cache[i]? = some lines) : sim.store i (0, lines) = sim := by
  obtain ⟨hlt, heq⟩ := List.getElem?_eq_some_iff.mp h
  simp only [Sim.store, ← heq, List.set_getElem_self, add_zero]

theorem readRecord_eq (h : sim.cache[setIndex g r.addr]? = some lines) :
    readRecord g sim r = (readSet g r lines).map (sim.store (setIndex g r.addr)) := by
  have hload : load g r.addr sim.counters lines =
      (load g r.addr 0 lines).map (raise sim.counters) := by
    rw [← load_add, add_zero]
  by_cases hls : r.flag = 'L' ∨ r.flag = 'S'
  · have hI := not_instruction_of_access hls
    simp only [readRecord, readSet, if_neg hI, if_pos hls, h, hload, bind, Option.bind_some]
    cases load g r.addr 0 lines <;> rfl
  · by_cases hm : r.flag = 'M'
    · have hI := not_instruction_of_modify hm
      simp only [readRecord, readSet, if_neg hI, if_neg hls, if_pos hm, h, hload, bind,
        Option.bind_some]
      cases load g r.addr 0 lines with
      | none => rfl
      | some res =>
          simp only [Option.map_some, Option.bind_some, raise, load_add]
          cases load g r.addr res.1 res.2 <;> rfl
    · simp only [readRecord, readSet, if_neg hls, if_neg hm, h, bind, Option.bind_some, ite_self,
        Option.map_some, store_self h]

/-! ## Records of different sets -/

theorem readRecord_length (h : readRecord g sim r = some sim') :
    sim'.cache.length = sim.cache.length := by
  cases hget : sim.cache[setIndex g r.addr]? with
  | none =>
      by_cases hI : r.flag = 'I'
      · simp only [readRecord, if_pos hI] at h
        rw [Option.some.inj h]
      · simp only [readRecord, if_neg hI, hget, bind, Option.bind_none] at h
        cases h
  | some lines =>
      rw [readRecord_eq hget] at h
      obtain ⟨res, -, rfl⟩ := Option.map_eq_some_iff.mp h
      exact List.length_set

theorem readTrace_length (h : readTrace g sim p = some sim') :
    sim'.cache.length = sim.cache.length := by
  induction p generalizing sim with
  | nil => rw [Option.some.inj h]
  | cons r p ih =>
      obtain ⟨sim₁, hr, hp⟩ := Option.bind_eq_some_iff.mp h
      rw [ih hp, readRecord_length hr]

theorem store_comm {i j : Nat} (hij : i ≠ j) (sim : Sim) (a b : Counters × List CacheLine) :
    (sim.store i a).store j b = (sim.store j b).store i a := by
  simp only [Sim.store, List.set_comm _ _ hij, add_assoc, add_comm a.1]

theorem readRecord_comm (hx : setIndex g x.addr < sim.cache.length)
    (hy : setIndex g y.addr < sim.cache.length) (hne : setIndex g x.addr ≠ setIndex g y.addr) :
    (readRecord g sim x).bind (fun sim' => readRecord g sim' y) =
      (readRecord g sim y).bind (fun sim' => readRecord g sim' x) := by
  have hgetx := List.getElem?_eq_getElem hx
  have hgety := List.getElem?_eq_getElem hy
  have hkeepx : ∀ a, (sim.store (setIndex g y.addr) a).cache[setIndex g x.addr]? =
      some sim.cache[setIndex g x.addr] := fun a => by
    rw [Sim.store, List.getElem?_set_ne (Ne.symm hne), hgetx]
  have hkeepy : ∀ a, (sim.store (setIndex g x.addr) a).cache[setIndex g y.addr]? =
      some sim.cache[setIndex g y.addr] := fun a => by
    rw [Sim.store, List.getElem?_set_ne hne, hgety]
  rw [readRecord_eq hgetx, readRecord_eq hgety]
  cases hrx : readSet g x sim.cache[setIndex g x.addr] with
  | none =>
      cases readSet g y sim.cache[setIndex g y.addr] with
      | none => rfl
      | some b =>
          simp only [Option.map_none, Option.bind_none, Option.map_some, Option.bind_some,
            readRecord_eq (hkeepx b), hrx]
  | some a =>
      simp only [Option.map_some, Option.bind_some, readRecord_eq (hkeepy a)]
      cases readSet g y sim.cache[setIndex g y.addr] with
      | none => rfl
      | some b =>
          simp only [Option.map_some, Option.bind_some, readRecord_eq (hkeepx b), hrx,
            store_comm hne]

theorem simulate_swap (hg : g.Valid) (hne : setIndex g x.addr ≠ setIndex g y.addr) :
    simulate g (p ++ x :: y :: q) = simulate g (p ++ y :: x :: q) := by
  simp only [simulate, readTrace_append]
  cases hp : readTrace g ⟨cacheInit (sets g) g.E, ⟨0, 0, 0⟩⟩ p with
  | none => rfl
  | some sim =>
      have hlen : sim.cache.length = 2 ^ g.s := by
        rw [readTrace_length hp, (simOk_init hg).sets]
      have hcomm := readRecord_comm (hlen.symm ▸ setIndex_lt hg x.addr)
        (hlen.symm ▸ setIndex_lt hg y.addr) hne
      simp only [Option.bind_some, readTrace, bind]
      rw [← Option.bind_assoc, hcomm, Option.bind_assoc]

/-! ## One run for each set -/

def onSet (g : Geometry) (i : Nat) (trace : List Record) : List Record :=
  trace.filter fun r => setIndex g r.addr = i

theorem onSet_concat (g : Geometry) (i : Nat) (p : List Record) (r : Record) :
    onSet g i (p ++ [r]) = if setIndex g r.addr = i then onSet g i p ++ [r] else onSet g i p := by
  by_cases hi : setIndex g r.addr = i <;> simp [onSet, hi]

/-- `part i` is the result for the records of the set `i` alone. -/
structure Parts (g : Geometry) (p : List Record) (sim : Sim) (part : Nat → Sim) : Prop where
  alone : ∀ i, simulate g (onSet g i p) = some (part i)
  lines : ∀ i, (part i).cache[i]? = sim.cache[i]?
  totals : sim.counters = ∑ i ∈ Finset.range (2 ^ g.s), (part i).counters

theorem parts_init (g : Geometry) :
    Parts g [] ⟨cacheInit (sets g) g.E, ⟨0, 0, 0⟩⟩
      fun _ => ⟨cacheInit (sets g) g.E, ⟨0, 0, 0⟩⟩ where
  alone _ := rfl
  lines _ := rfl
  totals := by
    rw [← Counters.zero_def, Finset.sum_const_zero]

theorem Parts.reads {part : Nat → Sim} (h : Parts g p sim part) (hg : g.Valid)
    (hget : sim.cache[setIndex g r.addr]? = some lines) (hr : readRecord g sim r = some sim') :
    ∃ part', Parts g (p ++ [r]) sim' part' := by
  rw [readRecord_eq hget] at hr
  obtain ⟨res, hres, rfl⟩ := Option.map_eq_some_iff.mp hr
  have hpart : (part (setIndex g r.addr)).cache[setIndex g r.addr]? = some lines :=
    (h.lines _).trans hget
  refine ⟨fun i => if setIndex g r.addr = i then (part i).store i res else part i, ?_, ?_, ?_⟩
  · intro i
    rw [onSet_concat]
    by_cases hi : setIndex g r.addr = i
    · subst hi
      rw [if_pos rfl, if_pos rfl, simulate_concat (h.alone _), readRecord_eq hpart, hres,
        Option.map_some]
    · rw [if_neg hi, if_neg hi]
      exact h.alone i
  · intro i
    by_cases hi : setIndex g r.addr = i
    · subst hi
      obtain ⟨hlt, -⟩ := List.getElem?_eq_some_iff.mp hget
      obtain ⟨hlt', -⟩ := List.getElem?_eq_some_iff.mp hpart
      simp only [if_pos, Sim.store, List.getElem?_set_self hlt, List.getElem?_set_self hlt']
    · simp only [if_neg hi, Sim.store, List.getElem?_set_ne hi]
      exact h.lines i
  · have hsplit : ∀ i, (if setIndex g r.addr = i then (part i).store i res else part i).counters =
        (part i).counters + if setIndex g r.addr = i then res.1 else 0 := by
      intro i
      split
      · rfl
      · exact (add_zero _).symm
    have hmem := Finset.mem_range.mpr (setIndex_lt hg r.addr)
    simp only [hsplit]
    rw [Finset.sum_add_distrib, Finset.sum_ite_eq, if_pos hmem, ← h.totals]
    rfl

theorem simulate_parts (hg : g.Valid) (hshort : Short g trace) :
    ∀ p, p <+: trace → ∃ sim part, simulate g p = some sim ∧ Parts g p sim part := by
  intro p
  induction p using List.reverseRecOn with
  | nil => exact fun _ => ⟨_, _, rfl, parts_init g⟩
  | append_singleton p r ih =>
      intro hp
      have hprefix : p <+: trace := (List.prefix_append p [r]).trans hp
      obtain ⟨sim, part, hs, hparts⟩ := ih hprefix
      obtain ⟨sim₁, hs₁, h⟩ := simulate_ok hg hshort p hprefix
      obtain rfl : sim₁ = sim := Option.some.inj (hs₁.symm.trans hs)
      obtain ⟨sim', lines, lines', heq, hreads, -⟩ := hshort.reads hg hprefix hs h r
      obtain ⟨part', hparts'⟩ :=
        hparts.reads hg hreads.get ((simulate_concat hs r).symm.trans heq)
      exact ⟨sim', part', heq, hparts'⟩

/-- The totals are the sums of the totals of each set alone, and exchanging
neighbouring records of different sets changes nothing. -/
theorem sets_independent (hg : g.Valid) (hshort : Short g trace) :
    (∃ sim part, simulate g trace = some sim ∧ Parts g trace sim part) ∧
      ∀ p x y q, trace = p ++ x :: y :: q → setIndex g x.addr ≠ setIndex g y.addr →
        simulate g (p ++ y :: x :: q) = simulate g trace := by
  refine ⟨simulate_parts hg hshort trace (List.prefix_refl trace), ?_⟩
  rintro p x y q rfl hne
  exact (simulate_swap hg hne).symm

theorem sets_independent_modify :
    (∃ sim part, simulate ⟨1, 1, 4⟩ [⟨'L', 0⟩, ⟨'M', 16⟩] = some sim ∧
        Parts ⟨1, 1, 4⟩ [⟨'L', 0⟩, ⟨'M', 16⟩] sim part) ∧
      simulate ⟨1, 1, 4⟩ [⟨'M', 16⟩, ⟨'L', 0⟩] = simulate ⟨1, 1, 4⟩ [⟨'L', 0⟩, ⟨'M', 16⟩] := by
  have hg : Geometry.Valid ⟨1, 1, 4⟩ := ⟨by decide, by decide, by decide, by decide⟩
  have hshort : Short ⟨1, 1, 4⟩ [⟨'L', 0⟩, ⟨'M', 16⟩] := short_of_accesses hg (by decide)
  obtain ⟨hparts, hswap⟩ := sets_independent hg hshort
  exact ⟨hparts, hswap [] _ _ [] rfl (by decide)⟩

end CsappLabs.CacheSim
