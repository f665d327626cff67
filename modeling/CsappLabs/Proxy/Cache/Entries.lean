import CsappLabs.Proxy.Cache.Chain
import Mathlib.Data.Fintype.Card
import Mathlib.Data.Fintype.EquivFin

/-!
# The entries of the cache

`Cached s xs` is the invariant of the two structures: the chain `xs` and the
non-null slots of `cachemap` hold the same nodes, each of them once, with a key
and a value.  Distinct keys and non-zero timestamps are not part of it, since
they fail in runs that the invariant survives.
-/

namespace CsappLabs.Proxy.Cache

open CsappLabs.Foundation

variable {s s' s'' : State} {p q : Ptr} {i j : Pos} {n : CacheNode} {k : Key} {v : CString}
  {xs ys us vs : List Ptr} {map : Pos → Ptr}

namespace State

def keyOf (s : State) (p : Ptr) : Option Key := (s.nodes p).bind CacheNode.key

def valueOf (s : State) (p : Ptr) : Option CString := (s.nodes p).bind CacheNode.value

def stampOf (s : State) (p : Ptr) : UInt64 := ((s.nodes p).getD {}).timestamp

end State

/-! ## The array -/

/-- The non-null slots of the array hold the nodes `xs`, each of them once. -/
structure Slotted (map : Pos → Ptr) (xs : List Ptr) : Prop where
  mem : ∀ i, map i ≠ 0 → map i ∈ xs
  slot : ∀ p ∈ xs, ∃ i, map i = p
  inj : ∀ i j, map i ≠ 0 → map i = map j → i = j

namespace Slotted

theorem perm (h : Slotted map xs) (hp : xs.Perm ys) : Slotted map ys where
  mem i hi := hp.mem_iff.mp (h.mem i hi)
  slot p hpy := h.slot p (hp.mem_iff.mpr hpy)
  inj := h.inj

theorem exists_free (h : Slotted map xs) (hlen : xs.length < maxCacheCapacity) :
    ∃ i, map i = 0 := by
  by_contra hfull
  simp only [not_exists] at hfull
  have hinj : Function.Injective map := fun i j hij => h.inj i j (hfull i) hij
  have hsub : (List.finRange maxCacheCapacity).map map ⊆ xs := by
    intro p hp
    obtain ⟨i, -, rfl⟩ := List.mem_map.mp hp
    exact h.mem i (hfull i)
  have hnd : ((List.finRange maxCacheCapacity).map map).Nodup :=
    (List.nodup_finRange _).map hinj
  have hle := (List.subperm_of_subset hnd hsub).length_le
  simp only [List.length_map, List.length_finRange] at hle
  omega

theorem set (h : Slotted map xs) (hi : map i = 0) (hp : p ≠ 0) (h0 : 0 ∉ xs) (hpx : p ∉ xs) :
    Slotted (Function.update map i p) (p :: xs) where
  mem j hj := by
    by_cases hji : j = i
    · simp [hji]
    · rw [Function.update_of_ne hji] at hj ⊢
      exact List.mem_cons_of_mem _ (h.mem j hj)
  slot q hq := by
    rcases List.mem_cons.mp hq with rfl | hq
    · exact ⟨i, by simp⟩
    · obtain ⟨j, rfl⟩ := h.slot q hq
      have hji : j ≠ i := by
        rintro rfl
        exact h0 (hi ▸ hq)
      exact ⟨j, Function.update_of_ne hji _ _⟩
  inj j l hj hjl := by
    by_cases hji : j = i
    · by_cases hli : l = i
      · rw [hji, hli]
      · rw [hji, Function.update_self, Function.update_of_ne hli] at hjl
        exact absurd (hjl ▸ h.mem l (hjl ▸ hp)) hpx
    · by_cases hli : l = i
      · rw [hli, Function.update_self, Function.update_of_ne hji] at hjl
        rw [Function.update_of_ne hji] at hj
        exact absurd (hjl ▸ h.mem j hj) hpx
      · rw [Function.update_of_ne hji, Function.update_of_ne hli] at hjl
        rw [Function.update_of_ne hji] at hj
        exact h.inj j l hj hjl

theorem clear (h : Slotted map (us ++ p :: vs)) (hi : map i = p) (hp : p ≠ 0)
    (hnd : (us ++ p :: vs).Nodup) :
    Slotted (Function.update map i 0) (us ++ vs) where
  mem j hj := by
    have hji : j ≠ i := by
      rintro rfl
      simp at hj
    rw [Function.update_of_ne hji] at hj ⊢
    have hjp : map j ≠ p := fun e => hji (h.inj j i hj (e.trans hi.symm))
    have hmem := h.mem j hj
    simp only [List.mem_append, List.mem_cons] at hmem ⊢
    tauto
  slot q hq := by
    have hqp : q ≠ p := by
      rintro rfl
      exact (List.nodup_cons.mp (List.nodup_middle.mp hnd)).1 hq
    obtain ⟨j, rfl⟩ := h.slot q (by
      simp only [List.mem_append, List.mem_cons] at hq ⊢
      tauto)
    have hji : j ≠ i := by
      rintro rfl
      exact hqp hi
    exact ⟨j, Function.update_of_ne hji _ _⟩
  inj j l hj hjl := by
    have hji : j ≠ i := by
      rintro rfl
      simp at hj
    rw [Function.update_of_ne hji] at hj hjl
    by_cases hli : l = i
    · rw [hli, Function.update_self] at hjl
      exact absurd hjl hj
    · rw [Function.update_of_ne hli] at hjl
      exact h.inj j l hj hjl

end Slotted

theorem getFreeCachePos_some (h : ∃ i, s.cachemap i = 0) :
    ∃ i, getFreeCachePos s = some i ∧ s.cachemap i = 0 := by
  obtain ⟨j, hj⟩ := h
  have hsome : (getFreeCachePos s).isSome := by
    rw [getFreeCachePos, List.find?_isSome]
    exact ⟨j, List.mem_finRange j, by simp [hj]⟩
  obtain ⟨i, hi⟩ := Option.isSome_iff_exists.mp hsome
  exact ⟨i, hi, by simpa using List.find?_some hi⟩

/-! ## The invariant -/

structure Cached (s : State) (xs : List Ptr) : Prop where
  chain : Chain s xs
  slotted : Slotted s.cachemap xs
  entry : ∀ p ∈ xs, ∃ k v, s.keyOf p = some k ∧ s.valueOf p = some v ∧ Storable v
  count : s.currentCapacity = xs.length
  total : s.totalCapacity = maxCacheCapacity
  room : xs.length ≤ maxCacheCapacity
  below : ∀ p, (s.nodes p).isSome → 0 < p ∧ p < s.brk

theorem Cached.ne_zero (h : Cached s xs) (hp : p ∈ xs) : p ≠ 0 := by
  exact Nat.ne_of_gt (h.below p (h.chain.nodes_some p hp)).1

theorem Cached.zero_notMem (h : Cached s xs) : 0 ∉ xs := fun h0 => h.ne_zero h0 rfl

theorem Cached.brk_notMem (h : Cached s xs) : s.brk ∉ xs := by
  intro hp
  exact Nat.lt_irrefl _ (h.below s.brk (h.chain.nodes_some _ hp)).2

theorem Cached.full (h : Cached s xs) (hfull : maxCacheCapacity ≤ xs.length) :
    xs.length = maxCacheCapacity ∧ ∃ ys t, xs = ys ++ [t] := by
  refine ⟨Nat.le_antisymm h.room hfull, (List.eq_nil_or_concat' xs).resolve_left ?_⟩
  rintro rfl
  exact absurd hfull (by decide)

theorem Cached.slot_mem (h : Cached s xs) (hi : s.cachemap i ≠ 0) :
    ∃ n, s.nodes (s.cachemap i) = some n :=
  h.chain.some_of (.inl (h.slotted.mem i hi))

/-! ## Lookup -/

def Hit (s : State) (k : Key) (i : Pos) : Prop :=
  s.cachemap i ≠ 0 ∧ s.keyOf (s.cachemap i) = some k ∧ s.stampOf (s.cachemap i) ≠ 0

theorem findPos_spec (halloc : ∀ i, s.cachemap i ≠ 0 → ∃ n, s.nodes (s.cachemap i) = some n)
    (k : Key) (is : List Pos) :
    (findPos s k is = .ok none ∧ ∀ i ∈ is, ¬Hit s k i) ∨
      ∃ i ∈ is, findPos s k is = .ok (some i) ∧ Hit s k i := by
  induction is with
  | nil => exact .inl ⟨rfl, by simp⟩
  | cons i is ih =>
      -- when the loop continues behind a slot that does not match
      have hskip : findPos s k (i :: is) = findPos s k is → ¬Hit s k i →
          (findPos s k (i :: is) = .ok none ∧ ∀ j ∈ i :: is, ¬Hit s k j) ∨
            ∃ j ∈ i :: is, findPos s k (i :: is) = .ok (some j) ∧ Hit s k j := by
        intro heq hmiss
        rw [heq]
        rcases ih with ⟨hnone, hall⟩ | ⟨j, hj, hsome, hhit⟩
        · exact .inl ⟨hnone, by simpa using ⟨hmiss, hall⟩⟩
        · exact .inr ⟨j, by simp [hj], hsome, hhit⟩
      by_cases h0 : s.cachemap i = 0
      · exact hskip (by simp [findPos, h0]) fun hhit => hhit.1 h0
      · obtain ⟨n, hn⟩ := halloc i h0
        obtain ⟨value, key, prev, next, timestamp⟩ := n
        cases key with
        | none =>
            refine hskip (by simp [findPos, h0, State.deref, hn, bind, Except.bind]) ?_
            rintro ⟨-, hkey, -⟩
            simp [State.keyOf, hn] at hkey
        | some k' =>
            by_cases ht : timestamp = 0
            · refine hskip (by simp [findPos, h0, State.deref, hn, bind, Except.bind, ht]) ?_
              rintro ⟨-, -, hstamp⟩
              exact hstamp (by simp [State.stampOf, hn, ht])
            · by_cases hk : k = k'
              · refine .inr ⟨i, by simp, ?_, h0, ?_, ?_⟩
                · simp [findPos, h0, State.deref, hn, bind, Except.bind, ht, hk]
                · simp [State.keyOf, hn, hk]
                · simpa [State.stampOf, hn] using ht
              · have hne : ¬(k.host = k'.host ∧ k.path = k'.path ∧ k.port = k'.port) := by
                  rintro ⟨h₁, h₂, h₃⟩
                  obtain ⟨host, port, path⟩ := k
                  obtain ⟨host', port', path'⟩ := k'
                  exact hk (by simp_all)
                refine hskip
                  (by simp [findPos, h0, State.deref, hn, bind, Except.bind, ht, hne]) ?_
                rintro ⟨-, hkey, -⟩
                simp only [State.keyOf, hn, Option.bind_some, Option.some.injEq] at hkey
                exact hk hkey.symm

theorem lookup_spec (h : Cached s xs) (k : Key) :
    (lookup s k = .ok none ∧ ∀ i, ¬Hit s k i) ∨
      ∃ i, lookup s k = .ok (some i) ∧ Hit s k i := by
  rcases findPos_spec (fun i hi => h.slot_mem hi) k (List.finRange maxCacheCapacity) with
    ⟨hnone, hall⟩ | ⟨i, -, hsome, hhit⟩
  · exact .inl ⟨hnone, fun i => hall i (List.mem_finRange i)⟩
  · exact .inr ⟨i, hsome, hhit⟩

/-- When all timestamps are non-zero, a search without success means that the
key is not in the list. -/
theorem Cached.not_key_of_miss (h : Cached s xs) (hst : ∀ p ∈ xs, s.stampOf p ≠ 0)
    (hl : lookup s k = .ok none) : ∀ p ∈ xs, s.keyOf p ≠ some k := by
  intro p hp hk
  rcases lookup_spec h k with ⟨-, hmiss⟩ | ⟨i, hsome, -⟩
  · obtain ⟨i, rfl⟩ := h.slotted.slot p hp
    exact hmiss i ⟨h.ne_zero hp, hk, hst _ hp⟩
  · rw [hl] at hsome
    cases hsome

theorem hit_of_lookup (h : Cached s xs) (hl : lookup s k = .ok (some i)) : Hit s k i := by
  rcases lookup_spec h k with ⟨hnone, -⟩ | ⟨j, hsome, hhit⟩
  · rw [hnone] at hl
    cases hl
  · rw [hsome] at hl
    obtain rfl : j = i := by simpa using hl
    exact hhit

end CsappLabs.Proxy.Cache
