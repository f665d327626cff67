import CsappLabs.Foundation.Recency
import CsappLabs.Proxy.Cache.Entries

/-!
# What the sections of the cache do

Each lock-protected section keeps the invariant.  All but the one that inserts
a node keep the nodes with their keys and values too, which `Kept` says.
-/

namespace CsappLabs.Proxy.Cache

open CsappLabs.Foundation

variable {s s' s'' : State} {p q : Ptr} {i j : Pos} {n : CacheNode} {k : Key} {v : CString}
  {xs ys us vs : List Ptr} {ops : LockOps}

/-- The nodes, keys, values and slots are the same; links, timestamps and locks
may differ. -/
structure Kept (s s' : State) : Prop where
  rest : s' = { s with nodes := s'.nodes, locks := s'.locks, ticks := s'.ticks }
  isSome : ∀ p, (s'.nodes p).isSome = (s.nodes p).isSome
  keyOf : ∀ p, s'.keyOf p = s.keyOf p
  valueOf : ∀ p, s'.valueOf p = s.valueOf p
  stamp : (∀ t, s.clock t ≠ 0) → ∀ p, s.stampOf p ≠ 0 → s'.stampOf p ≠ 0

namespace Kept

theorem refl (s : State) : Kept s s := ⟨rfl, fun _ => rfl, fun _ => rfl, fun _ => rfl, fun _ _ => id⟩

theorem cachemap_eq (h : Kept s s') : s'.cachemap = s.cachemap := by rw [h.rest]

theorem clock_eq (h : Kept s s') : s'.clock = s.clock := by rw [h.rest]

theorem brk_eq (h : Kept s s') : s'.brk = s.brk := by rw [h.rest]

theorem current_eq (h : Kept s s') : s'.currentCapacity = s.currentCapacity := by rw [h.rest]

theorem total_eq (h : Kept s s') : s'.totalCapacity = s.totalCapacity := by rw [h.rest]

theorem trans (h : Kept s s') (h' : Kept s' s'') : Kept s s'' where
  rest := by rw [h'.rest, h.rest]
  isSome p := (h'.isSome p).trans (h.isSome p)
  keyOf p := (h'.keyOf p).trans (h.keyOf p)
  valueOf p := (h'.valueOf p).trans (h.valueOf p)
  stamp hclock p hp := h'.stamp (by rw [h.clock_eq]; exact hclock) p (h.stamp hclock p hp)

theorem of_locks (l : Locks) : Kept s { s with locks := l } :=
  ⟨rfl, fun _ => rfl, fun _ => rfl, fun _ => rfl, fun _ _ => id⟩

theorem of_relinked (h : Relinked s s') : Kept s s' where
  rest := by
    have hrest := h.rest
    rw [hrest]
  isSome := h.isSome
  keyOf p := by
    cases hn : s.nodes p with
    | none =>
        have hsome := h.isSome p
        simp only [hn, Option.isSome_none, Option.isSome_eq_false_iff, Option.isNone_iff_eq_none]
          at hsome
        simp [State.keyOf, hn, hsome]
    | some n =>
        obtain ⟨m, hm, -, hkey, -⟩ := h.node hn
        simp [State.keyOf, hn, hm, hkey]
  valueOf p := by
    cases hn : s.nodes p with
    | none =>
        have hsome := h.isSome p
        simp only [hn, Option.isSome_none, Option.isSome_eq_false_iff, Option.isNone_iff_eq_none]
          at hsome
        simp [State.valueOf, hn, hsome]
    | some n =>
        obtain ⟨m, hm, hvalue, -, -⟩ := h.node hn
        simp [State.valueOf, hn, hm, hvalue]
  stamp _ p hp := by
    cases hn : s.nodes p with
    | none => simp [State.stampOf, hn] at hp
    | some n =>
        obtain ⟨m, hm, -, -, hstamp⟩ := h.node hn
        simpa [State.stampOf, hn, hm, hstamp] using hp

theorem cached (h : Kept s s') (hc : Cached s xs) (hperm : xs.Perm ys) (hchain : Chain s' ys) :
    Cached s' ys where
  chain := hchain
  slotted := by
    rw [h.cachemap_eq]
    exact hc.slotted.perm hperm
  entry p hp := by
    rw [h.keyOf, h.valueOf]
    exact hc.entry p (hperm.mem_iff.mpr hp)
  count := by rw [h.current_eq, hc.count, hperm.length_eq]
  total := by rw [h.total_eq, hc.total]
  room := by rw [← hperm.length_eq]; exact hc.room
  below p hp := by
    rw [h.brk_eq]
    exact hc.below p (by rwa [← h.isSome p])

end Kept

theorem Cached.setLocks (h : Cached s xs) (l : Locks) : Cached { s with locks := l } xs :=
  (Kept.of_locks l).cached h (.refl xs) (h.chain.congr rfl rfl rfl)

/-! ## Sections that keep the nodes -/

theorem stamp_spec (h : Cached s xs) (hi : s.cachemap i ≠ 0) :
    ∃ s', stamp s i = .ok s' ∧ s'.locks = s.locks ∧ Kept s s' ∧ Cached s' xs := by
  obtain ⟨n, hn⟩ := h.slot_mem hi
  have hkept : Kept s (s.tick.put (s.cachemap i) { n with timestamp := s.now }) := by
    constructor
    · rfl
    · intro p
      by_cases hp : p = s.cachemap i <;> simp [hp, hn, State.tick]
    · intro p
      by_cases hp : p = s.cachemap i <;> simp [State.keyOf, hp, hn, State.tick]
    · intro p
      by_cases hp : p = s.cachemap i <;> simp [State.valueOf, hp, hn, State.tick]
    · intro hclock p hp
      by_cases hpi : p = s.cachemap i
      · simpa [State.stampOf, hpi, State.now] using hclock s.ticks
      · simpa [State.stampOf, hpi, State.tick] using hp
  have hn' : s.tick.nodes (s.cachemap i) = some n := hn
  refine ⟨_, State.write_of hn' _, rfl, hkept, hkept.cached h (.refl xs) ?_⟩
  have htick : Chain s.tick xs := h.chain.congr rfl rfl rfl
  exact htick.put hn' rfl rfl

theorem recheck_spec (h : Cached s xs) (i : Pos) :
    ∃ b, recheck s i = .ok b ∧ (b = true → s.cachemap i ≠ 0) := by
  by_cases hi : s.cachemap i = 0
  · exact ⟨false, by simp [recheck, hi], by simp⟩
  · obtain ⟨n, hn⟩ := h.slot_mem hi
    exact ⟨decide (n.timestamp ≠ 0), by simp [recheck, hi, State.deref_of hn, Except.map],
      fun _ => hi⟩

theorem moveToHead_cached (h : Cached s xs) (hp : p ∈ xs) :
    ∃ s', moveToHead s p = .ok s' ∧ s'.locks = s.locks ∧ Kept s s' ∧ Cached s' (touch p xs) := by
  obtain ⟨us, vs, rfl⟩ := List.append_of_mem hp
  obtain ⟨s', heq, hrel, hchain⟩ := moveToHead_spec h.chain
  have hus : p ∉ us := fun hu =>
    (List.nodup_append.mp h.chain.nodup).2.2 p hu p List.mem_cons_self rfl
  refine ⟨s', heq, by rw [hrel.rest], .of_relinked hrel, ?_⟩
  rw [touch_middle hus]
  exact (Kept.of_relinked hrel).cached h List.perm_middle hchain

/-- The nodes of the list have a value already. -/
theorem refresh_eq (h : Cached s xs) (hp : p ∈ xs) (v : CString) :
    refresh s p v = moveToHead s p := by
  obtain ⟨n, hn⟩ := h.chain.some_of (.inl hp)
  obtain ⟨k, w, -, hw, -⟩ := h.entry p hp
  have hvalue : n.value = some w := by simpa [State.valueOf, hn] using hw
  simp [refresh, State.deref_of hn, hvalue, bind, Except.bind]

theorem sync_of {op : Locks → Except Stop Locks} {l : Locks} (h : op s.locks = .ok l) :
    s.sync op = .ok { s with locks := l } := by
  simp [State.sync, h, Except.map]

theorem getCachePos_of_miss (hops : ops.Balanced) (hidle : s.locks.Idle)
    (hpos : lookup s k = .ok none) :
    ∃ l, getCachePos ops s (some k) = .ok (none, { s with locks := l }) ∧ l.Idle := by
  obtain ⟨l₁, l₂, hlock, hunlock, hidle₂⟩ := hops.reader s.locks hidle
  have e₁ : s.sync ops.lockReader = .ok { s with locks := l₁ } := sync_of hlock
  have e₂ : lookup { s with locks := l₁ } k = .ok none := hpos
  have e₃ : State.sync { s with locks := l₁ } ops.unlockReader = .ok { s with locks := l₂ } :=
    sync_of hunlock
  refine ⟨l₂, ?_, hidle₂⟩
  simp only [getCachePos, e₁, e₂, e₃, bind, Except.bind]

theorem getCachePos_spec (hops : ops.Balanced) (h : Cached s xs) (hidle : s.locks.Idle)
    (k : Key) :
    ∃ pos s', getCachePos ops s (some k) = .ok (pos, s') ∧ lookup s k = .ok pos ∧
      s'.locks.Idle ∧ Kept s s' ∧ Cached s' xs := by
  obtain ⟨l₁, l₂, hlock, hunlock, hidle₂⟩ := hops.reader s.locks hidle
  have e₁ : s.sync ops.lockReader = .ok { s with locks := l₁ } := sync_of hlock
  have e₂ : State.sync { s with locks := l₁ } ops.unlockReader = .ok { s with locks := l₂ } :=
    sync_of hunlock
  have hsame : lookup { s with locks := l₁ } k = lookup s k := rfl
  have h₂ : Cached { s with locks := l₂ } xs := h.setLocks l₂
  have k₂ : Kept s { s with locks := l₂ } := .of_locks l₂
  rcases lookup_spec h k with ⟨hnone, -⟩ | ⟨i, hsome, hhit⟩
  · refine ⟨none, _, ?_, hnone, hidle₂, k₂, h₂⟩
    simp only [getCachePos, e₁, hsame, hnone, e₂, bind, Except.bind]
  · obtain ⟨b, hb, hslot⟩ := recheck_spec h₂ i
    cases b with
    | false =>
        refine ⟨some i, _, ?_, hsome, hidle₂, k₂, h₂⟩
        simp only [getCachePos, e₁, hsame, hsome, e₂, hb, bind, Except.bind]
        rfl
    | true =>
        obtain ⟨l₃, l₄, hlock', hunlock', hidle₄⟩ := hops.writer l₂ hidle₂
        have e₃ : State.sync { s with locks := l₂ } ops.lockWriter =
            .ok { s with locks := l₃ } := sync_of hlock'
        obtain ⟨s₃, e₄, hl₃, hk₃, hc₃⟩ := stamp_spec (h.setLocks l₃) hhit.1
        have e₅ : s₃.sync ops.unlockWriter = .ok { s₃ with locks := l₄ } :=
          sync_of (by rw [hl₃]; exact hunlock')
        refine ⟨some i, { s₃ with locks := l₄ }, ?_, hsome, hidle₄,
          ((Kept.of_locks l₃).trans hk₃).trans (.of_locks l₄), hc₃.setLocks l₄⟩
        simp only [getCachePos, e₁, hsame, hsome, e₂, hb, e₃, e₄, e₅, bind, Except.bind]
        rfl

theorem fetch_spec (hops : ops.Balanced) (hidle : s.locks.Idle) (i : Pos) :
    ∃ l, fetch ops s i = .ok (s.cachemap i, { s with locks := l }) ∧ l.Idle := by
  obtain ⟨l₁, l₂, hlock, hunlock, hidle₂⟩ := hops.reader s.locks hidle
  have e₁ : s.sync ops.lockReader = .ok { s with locks := l₁ } := sync_of hlock
  have e₂ : State.sync { s with locks := l₁ } ops.unlockReader = .ok { s with locks := l₂ } :=
    sync_of hunlock
  refine ⟨l₂, ?_, hidle₂⟩
  simp only [fetch, e₁, e₂, bind, Except.bind]

end CsappLabs.Proxy.Cache
