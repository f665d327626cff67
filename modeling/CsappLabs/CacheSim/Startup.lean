import CsappLabs.CacheSim.Runs
import CsappLabs.Foundation.CString

/-!
# The options

`phase_command` widens the `int`s of `atoi` to `uint64_t` before it compares
them with 0, so it accepts every argument.  What remains of the check is what
`calloc` refuses.
-/

namespace CsappLabs.CacheSim

open CsappLabs.Foundation

variable {g : Geometry} {sim sim' : Sim} {granted : Nat → Bool} {o : Options}

structure Options where
  s : Option (List UInt8)
  E : Option (List UInt8)
  b : Option (List UInt8)

/-- One case of `phase_command`; `none` is `exit`. -/
def parseOption : Option (List UInt8) → Option (BitVec 64)
  | none => some 0
  | some optarg =>
      let v := BitVec.ofInt 64 (atoi optarg)
      if v < 0 then none else some v

def phaseCommand (o : Options) : Option Geometry := do
  let s ← parseOption o.s
  let E ← parseOption o.E
  let b ← parseOption o.b
  some ⟨s.toNat, E.toNat, b.toNat⟩

/-- `calloc(n, size)` refuses a product that overflows, and what the system
does not grant. -/
def calloc (granted : Bool) (n size : Nat) : Bool := n * size < 2 ^ 64 && granted

def cacheInitOk (granted : Nat → Bool) (sets E : Nat) : Bool :=
  calloc (granted 0) sets 8 && (List.range sets).all fun i => calloc (granted (i + 1)) E 24

inductive Start where
  | exits
  | fault
  | reads (g : Geometry)

/-- `main` up to `read_trace`.  The shift `1<<s` of an `int` comes before
`cache_init`. -/
def start (granted : Nat → Bool) (o : Options) : Start :=
  match phaseCommand o with
  | none => .exits
  | some g =>
      if g.s < 32 then
        if cacheInitOk granted (sets g) g.E then .reads g else .exits
      else .fault

/-- `readRecord`, with a fault when a shift is out of range. -/
def readChecked (g : Geometry) (sim : Sim) (r : Record) : Option Sim :=
  if r.flag = 'I' then some sim
  else if g.s < 32 ∧ g.b < 64 then readRecord g sim r
  else none

def Counters.InRange (c : Counters) : Prop := c.hit < 2 ^ 31 ∧ c.miss < 2 ^ 31 ∧ c.evictions < 2 ^ 31

instance (c : Counters) : Decidable c.InRange :=
  inferInstanceAs (Decidable (_ ∧ _))

/-- `read_trace`, to the end of the trace or to the first overflow of a
counter.  `none` is a fault. -/
def readChecks (g : Geometry) (sim : Sim) : List Record → Option Sim
  | [] => some sim
  | r :: trace => do
      let sim' ← readChecked g sim r
      if sim'.counters.InRange then readChecks g sim' trace else some sim'

/-- The program exits before it reads the trace, or reads every trace without
a shift or an index out of range. -/
def Validated (granted : Nat → Bool) (o : Options) : Prop :=
  match start granted o with
  | .exits => True
  | .fault => False
  | .reads g => ∀ trace, readChecks g ⟨cacheInit (sets g) g.E, ⟨0, 0, 0⟩⟩ trace ≠ none

def intOption : Option (List UInt8) → Int
  | none => 0
  | some optarg => atoi optarg

/-- `-s` is from 0 to 31, and `-s` is 31, `-E` is negative, the system refuses
one of the allocations, or `-E` is positive and `-b` from 0 to 63. -/
def InOptions (granted : Nat → Bool) (o : Options) : Prop :=
  0 ≤ intOption o.s ∧ intOption o.s < 32 ∧
    (intOption o.s = 31 ∨ intOption o.E < 0 ∨
      (∃ k, k ≤ 2 ^ (intOption o.s).toNat ∧ granted k = false) ∨
      1 ≤ intOption o.E ∧ 0 ≤ intOption o.b ∧ intOption o.b < 64)

/-! ## The checks of the options -/

def widen (z : Int) : Nat := (z % 2 ^ 64).toNat

theorem intOption_range (a : Option (List UInt8)) :
    -2 ^ 31 ≤ intOption a ∧ intOption a < 2 ^ 31 := by
  cases a with
  | none => decide
  | some optarg => exact atoi_range optarg

theorem parseOption_eq (a : Option (List UInt8)) :
    (parseOption a).map BitVec.toNat = some (widen (intOption a)) := by
  cases a with
  | none => rfl
  | some optarg =>
      have hnot : ¬BitVec.ofInt 64 (atoi optarg) < 0 := BitVec.not_lt_zero
      have hvalue : parseOption (some optarg) = some (BitVec.ofInt 64 (atoi optarg)) := by
        rw [parseOption]
        exact if_neg hnot
      rw [hvalue, Option.map_some, BitVec.toNat_ofInt]
      rfl

theorem phaseCommand_eq (o : Options) :
    phaseCommand o =
      some ⟨widen (intOption o.s), widen (intOption o.E), widen (intOption o.b)⟩ := by
  obtain ⟨s, hs, hs'⟩ := Option.map_eq_some_iff.mp (parseOption_eq o.s)
  obtain ⟨E, hE, hE'⟩ := Option.map_eq_some_iff.mp (parseOption_eq o.E)
  obtain ⟨b, hb, hb'⟩ := Option.map_eq_some_iff.mp (parseOption_eq o.b)
  simp only [phaseCommand, hs, hE, hb, bind, Option.bind_some, hs', hE', hb']

/-! ## The trace -/

def Geometry.flat (g : Geometry) : Geometry := ⟨g.s, g.E, 0⟩

def Record.flat (g : Geometry) (r : Record) : Record := ⟨r.flag, r.addr >>> g.b⟩

theorem readRecord_flat (g : Geometry) (sim : Sim) (r : Record) :
    readRecord g sim r = readRecord g.flat sim (r.flat g) := by
  have hset : setIndex g.flat (r.addr >>> g.b) = setIndex g r.addr := by
    simp only [setIndex, Geometry.flat, BitVec.ushiftRight_zero]
  have hload : load g.flat (r.addr >>> g.b) = load g r.addr := by
    funext c lines
    simp only [load, tagBit, Geometry.flat, BitVec.ushiftRight_zero]
  simp only [readRecord, Record.flat, hset, hload]

theorem readChecks_ok (hg : g.flat.Valid) (hb : g.b < 64) (h : SimOk g.flat sim)
    (hrange : sim.counters.InRange) (trace : List Record) : readChecks g sim trace ≠ none := by
  induction trace generalizing sim with
  | nil => exact Option.some_ne_none sim
  | cons r trace ih =>
      obtain ⟨hhit, hmiss, -⟩ := hrange
      have hmax : uint64Max = 2 ^ 64 - 1 := rfl
      obtain ⟨sim', lines, lines', heq, hreads⟩ := readRecord_spec hg h (by omega) (r.flat g)
      have hs : g.s < 32 := Nat.lt_of_le_of_lt hg.s (by decide)
      have hchecked : ∃ sim₁, readChecked g sim r = some sim₁ ∧ SimOk g.flat sim₁ := by
        by_cases hI : r.flag = 'I'
        · exact ⟨sim, if_pos hI, h⟩
        · exact ⟨sim', by rw [readChecked, if_neg hI, if_pos ⟨hs, hb⟩, readRecord_flat, heq],
            hreads.simOk h⟩
      obtain ⟨sim₁, hread, h₁⟩ := hchecked
      simp only [readChecks, hread, bind, Option.bind_some]
      by_cases hrange₁ : sim₁.counters.InRange
      · rw [if_pos hrange₁]
        exact ih h₁ hrange₁
      · rw [if_neg hrange₁]
        exact Option.some_ne_none sim₁

theorem readRecord_empty (hE : g.E = 0) (addr : BitVec 64) :
    readRecord g ⟨cacheInit (sets g) g.E, ⟨0, 0, 0⟩⟩ ⟨'L', addr⟩ = none := by
  have hload : ∀ c, load g addr c [] = none := by
    intro c
    simp only [load, loadInCache, hE]
    rfl
  cases hget : (cacheInit (sets g) g.E)[setIndex g addr]? with
  | none => simp [readRecord, hget]
  | some lines =>
      have hlines : lines = [] := by
        have hmem := List.eq_of_mem_replicate (List.mem_of_getElem? hget)
        rwa [hE] at hmem
      simp [readRecord, hget, hlines, hload]

theorem readChecks_fault (hfault : g.E = 0 ∨ 64 ≤ g.b) :
    readChecks g ⟨cacheInit (sets g) g.E, ⟨0, 0, 0⟩⟩ [⟨'L', 0⟩] = none := by
  have hread : readChecked g ⟨cacheInit (sets g) g.E, ⟨0, 0, 0⟩⟩ ⟨'L', 0⟩ = none := by
    rw [readChecked, if_neg (by decide)]
    by_cases hshift : g.s < 32 ∧ g.b < 64
    · rw [if_pos hshift]
      exact readRecord_empty (hfault.resolve_right (Nat.not_le_of_lt hshift.2)) 0
    · rw [if_neg hshift]
  simp only [readChecks, hread, bind, Option.bind_none]

/-! ## The allocations -/

theorem sets_pow {s : Nat} (hs : s ≤ 30) (E b : Nat) : sets ⟨s, E, b⟩ = 2 ^ s :=
  sets_eq (g := ⟨s, 1, 0⟩) ⟨hs, Nat.lt_of_le_of_lt hs (by decide), Nat.le_refl 1, Nat.one_lt_two_pow (by decide)⟩

theorem cacheInitOk_iff (sets E : Nat) :
    cacheInitOk granted sets E = true ↔ sets * 8 < 2 ^ 64 ∧ (sets ≠ 0 → E * 24 < 2 ^ 64) ∧
      ∀ k, k ≤ sets → granted k = true := by
  simp only [cacheInitOk, calloc, Bool.and_eq_true, decide_eq_true_eq, List.all_eq_true,
    List.mem_range]
  constructor
  · rintro ⟨⟨hsize, hzero⟩, hall⟩
    refine ⟨hsize, fun hne => (hall 0 (Nat.pos_of_ne_zero hne)).1, fun k hk => ?_⟩
    cases k with
    | zero => exact hzero
    | succ k => exact (hall k hk).2
  · rintro ⟨hsize, hlines, hall⟩
    exact ⟨⟨hsize, hall 0 (Nat.zero_le _)⟩,
      fun i hi => ⟨hlines (Nat.ne_of_gt (Nat.lt_of_le_of_lt (Nat.zero_le i) hi)), hall (i + 1) hi⟩⟩

/-! ## The program -/

/-- A run that gets to the trace reads it safely exactly when there is a line
in each set and `-b` is in range. -/
theorem readChecks_iff {s E b : Nat} (hs : s ≤ 30) (hE : E < 2 ^ 31) :
    (∀ trace, readChecks ⟨s, E, b⟩ ⟨cacheInit (sets ⟨s, E, b⟩) E, ⟨0, 0, 0⟩⟩ trace ≠ none) ↔
      1 ≤ E ∧ b < 64 := by
  constructor
  · intro hall
    by_contra hnot
    exact hall _ (readChecks_fault (g := ⟨s, E, b⟩) (by simp only; omega))
  · rintro ⟨hpos, hb⟩ trace
    have hg : (Geometry.flat ⟨s, E, b⟩).Valid :=
      ⟨hs, Nat.lt_of_le_of_lt hs (by decide), hpos, hE⟩
    have hzero : Counters.InRange ⟨0, 0, 0⟩ := by decide
    exact readChecks_ok hg hb (simOk_init hg) hzero trace

theorem widen_lt {z : Int} (hz : -2 ^ 31 ≤ z ∧ z < 2 ^ 31) {n : Nat} (hn : n < 2 ^ 31) :
    widen z < n ↔ 0 ≤ z ∧ z < n := by
  unfold widen
  omega

theorem allocations_iff (granted : Nat → Bool) {s E : Int} (b : Int) (hs : 0 ≤ s ∧ s < 32)
    (hE : -2 ^ 31 ≤ E ∧ E < 2 ^ 31) :
    cacheInitOk granted (sets ⟨widen s, widen E, widen b⟩) (widen E) = true ↔
      s ≠ 31 ∧ 0 ≤ E ∧ ∀ k, k ≤ 2 ^ s.toNat → granted k = true := by
  have hwiden : widen s = s.toNat := by
    unfold widen
    omega
  rw [cacheInitOk_iff, hwiden]
  by_cases h31 : s = 31
  · have hsets : ¬((1#32 <<< 31).signExtend 64).toNat * 8 < 2 ^ 64 := by decide
    subst h31
    exact ⟨fun h => absurd h.1 hsets, fun h => absurd rfl h.1⟩
  · have hle : s.toNat ≤ 30 := by omega
    have hpow : 2 ^ s.toNat ≤ 2 ^ 30 := Nat.pow_le_pow_right (by decide) hle
    have hpos : 0 < 2 ^ s.toNat := Nat.two_pow_pos _
    have hlines : widen E * 24 < 2 ^ 64 ↔ 0 ≤ E := by
      unfold widen
      omega
    rw [sets_pow hle, hlines]
    constructor
    · rintro ⟨-, hnonneg, hall⟩
      exact ⟨h31, hnonneg (Nat.ne_of_gt hpos), hall⟩
    · rintro ⟨-, hnonneg, hall⟩
      exact ⟨by omega, fun _ => hnonneg, hall⟩

/-- The options for which the program exits or reads every trace safely. -/
theorem validated_iff (granted : Nat → Bool) (o : Options) :
    Validated granted o ↔ InOptions granted o := by
  have hE := intOption_range o.E
  have hshift := widen_lt (intOption_range o.s) (by decide : 32 < 2 ^ 31)
  have hb := widen_lt (intOption_range o.b) (by decide : 64 < 2 ^ 31)
  simp only [Validated, start, phaseCommand_eq]
  by_cases hs : widen (intOption o.s) < 32
  · have hrange := hshift.mp hs
    have halloc := allocations_iff granted (intOption o.b) hrange hE
    rw [if_pos hs]
    by_cases hok : cacheInitOk granted
        (sets ⟨widen (intOption o.s), widen (intOption o.E), widen (intOption o.b)⟩)
        (widen (intOption o.E)) = true
    · obtain ⟨h31, hnonneg, hall⟩ := halloc.mp hok
      have hpos : 1 ≤ widen (intOption o.E) ↔ 1 ≤ intOption o.E := by
        unfold widen
        omega
      rw [if_pos hok]
      simp only []
      rw [readChecks_iff (by unfold widen; omega) (by unfold widen; omega), hpos, hb]
      constructor
      · exact fun h => ⟨hrange.1, hrange.2, .inr (.inr (.inr h))⟩
      · rintro ⟨-, -, h | h | ⟨k, hk, hrefused⟩ | h⟩
        · exact absurd h h31
        · omega
        · rw [hall k hk] at hrefused
          cases hrefused
        · exact h
    · rw [if_neg hok]
      refine ⟨fun _ => ⟨hrange.1, hrange.2, ?_⟩, fun _ => trivial⟩
      by_contra hnot
      simp only [not_or, not_exists, not_and, Bool.not_eq_false] at hnot
      exact hok (halloc.mpr ⟨hnot.1, Int.not_lt.mp hnot.2.1, hnot.2.2.1⟩)
  · rw [if_neg hs]
    exact ⟨fun h => h.elim, fun h => hs (hshift.mpr ⟨h.1, h.2.1⟩)⟩

/-- Without options there is no line in the only set, and the first access
stores behind it. -/
theorem options_not_validated : ¬∀ granted o, Validated granted o := by
  intro hall
  have h : ∀ trace, readChecks ⟨0, 0, 0⟩ ⟨cacheInit (sets ⟨0, 0, 0⟩) 0, ⟨0, 0, 0⟩⟩ trace ≠ none :=
    hall (fun _ => true) ⟨none, none, none⟩
  exact h [⟨'L', 0⟩] (by decide)

/-- `-s -1` and `-b 64` are accepted too. -/
example : phaseCommand ⟨some [45, 49], some [49], some [54, 52]⟩ = some ⟨2 ^ 64 - 1, 1, 64⟩ := by
  rfl

end CsappLabs.CacheSim
