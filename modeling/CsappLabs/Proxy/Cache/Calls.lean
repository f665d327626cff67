import CsappLabs.Proxy.Cache.Insertion

/-!
# The calls of one thread

`read_cache` and `insert_cache`, run with nothing in between, in terms of what
the search for the key finds.
-/

namespace CsappLabs.Proxy.Cache

open CsappLabs.Foundation

variable {s s' s₁ : State} {p t : Ptr} {i : Pos} {k : Key} {v : CString}
  {xs ys : List Ptr} {ops : LockOps}

theorem Kept.inserted (h : Kept s s₁) (hins : Inserted s₁ k v ys s') : Inserted s k v ys s' := by
  have hclock : (∀ t, s.clock t ≠ 0) → ∀ t, s₁.clock t ≠ 0 := by
    rw [h.clock_eq]
    exact id
  constructor
  · exact h.brk_eq ▸ hins.cached
  · exact h.brk_eq ▸ hins.brk
  · exact hins.clock.trans h.clock_eq
  · exact h.brk_eq ▸ hins.key
  · exact h.brk_eq ▸ hins.value
  · exact fun hc => h.brk_eq ▸ hins.stamp (hclock hc)
  · exact fun p hp => (hins.keyOf p hp).trans (h.keyOf p)
  · exact fun p hp => (hins.valueOf p hp).trans (h.valueOf p)
  · exact fun hc p hp hst => hins.stampOf (hclock hc) p hp (h.stamp hc p hst)
  · intro i hi
    rw [← h.cachemap_eq] at hi ⊢
    exact hins.slot i hi
  · intro p hp hnone
    refine hins.unallocated p (h.brk_eq ▸ hp) ?_
    have hsame := h.isSome p
    rw [hnone] at hsame
    simpa using hsame

theorem Inserted.setLocks (h : Inserted s k v ys s') (l : Locks) :
    Inserted s k v ys { s' with locks := l } :=
  ⟨h.cached.setLocks l, h.brk, h.clock, h.key, h.value, h.stamp, h.keyOf, h.valueOf, h.stampOf,
    h.slot, h.unallocated⟩

structure Sections (ops : LockOps) (s : State) (k : Key) (i : Pos) (xs : List Ptr)
    (s₁ s₂ s₃ s₄ s' : State) : Prop where
  search : getCachePos ops s (some k) = .ok (some i, s₁)
  fetch : fetch ops s₁ i = .ok (s.cachemap i, s₂)
  lock : s₂.sync ops.lockWriter = .ok s₃
  locked : Cached s₃ xs
  mem : s.cachemap i ∈ xs
  move : moveToHead s₃ (s.cachemap i) = .ok s₄
  unlock : s₄.sync ops.unlockWriter = .ok s'
  idle : s'.locks.Idle
  kept : Kept s s'
  moved : Cached s' (touch (s.cachemap i) xs)

theorem sections_of_hit (hops : ops.Balanced) (h : Cached s xs) (hidle : s.locks.Idle)
    (hpos : lookup s k = .ok (some i)) :
    ∃ s₁ s₂ s₃ s₄ s', Sections ops s k i xs s₁ s₂ s₃ s₄ s' := by
  obtain ⟨pos, s₁, e₁, hpos₁, hidle₁, k₁, h₁⟩ := getCachePos_spec hops h hidle k
  obtain rfl : pos = some i := by
    rw [hpos] at hpos₁
    exact (Except.ok.inj hpos₁).symm
  have hi : s₁.cachemap i = s.cachemap i := congrFun k₁.cachemap_eq i
  have hp : s.cachemap i ∈ xs := h.slotted.mem i (hit_of_lookup h hpos).1
  obtain ⟨l₂, e₂, hidle₂⟩ := fetch_spec hops hidle₁ i
  rw [hi] at e₂
  obtain ⟨l₃, l₄, hlock, hunlock, hidle₄⟩ := hops.writer l₂ hidle₂
  obtain ⟨s₄, e₄, hl₄, k₄, h₄⟩ := moveToHead_cached (h₁.setLocks l₃) hp
  have hunlock' : ops.unlockWriter s₄.locks = .ok l₄ := by
    rw [hl₄]
    exact hunlock
  exact ⟨s₁, { s₁ with locks := l₂ }, { s₁ with locks := l₃ }, s₄, { s₄ with locks := l₄ },
    e₁, e₂, sync_of hlock, h₁.setLocks l₃, hp, e₄, sync_of hunlock', hidle₄,
    ((k₁.trans (.of_locks l₃)).trans k₄).trans (.of_locks l₄), h₄.setLocks l₄⟩

theorem readCache_spec (hops : ops.Balanced) (h : Cached s xs) (hidle : s.locks.Idle) (k : Key) :
    (lookup s k = .ok none ∧ ∃ s', readCache ops s k = .ok (none, s') ∧ s'.locks.Idle ∧
      Kept s s' ∧ Cached s' xs) ∨
    ∃ i s', lookup s k = .ok (some i) ∧
      readCache ops s k = .ok (s.valueOf (s.cachemap i), s') ∧ s'.locks.Idle ∧
      Kept s s' ∧ Cached s' (touch (s.cachemap i) xs) := by
  obtain ⟨pos, s₁, e₁, hpos, hidle₁, k₁, h₁⟩ := getCachePos_spec hops h hidle k
  cases pos with
  | none =>
      refine .inl ⟨hpos, s₁, ?_, hidle₁, k₁, h₁⟩
      simp only [readCache, lRUCacheGet, e₁, bind, Except.bind]
  | some i =>
      obtain ⟨s₁, s₂, s₃, s₄, s', hs⟩ := sections_of_hit hops h hidle hpos
      obtain ⟨n, hn⟩ := hs.moved.chain.some_of (.inl (mem_touch.mpr (.inl rfl)))
      have hvalue : n.value = s.valueOf (s.cachemap i) := by
        rw [← hs.kept.valueOf]
        simp [State.valueOf, hn]
      refine .inr ⟨i, s', hpos, ?_, hs.idle, hs.kept, hs.moved⟩
      simp only [readCache, lRUCacheGet, hs.search, hs.fetch, hs.lock, hs.move, hs.unlock,
        State.deref_of hn, hvalue, bind, Except.bind]

/-! ## `insert_cache` -/

theorem insertCache_null : insertCache ops s k.host k.port k.path none = .ok s := rfl

theorem insertCache_oversized (hv : ¬Storable v) :
    insertCache ops s k.host k.port k.path (some v) = .ok s := by
  have hlt : v.strlen + 1 > maxObjectSize := Nat.lt_of_not_le hv
  simp only [insertCache, lRUCachePut, if_pos hlt]

/-- The value that is passed for a key that is found is dropped. -/
theorem insertCache_of_hit (hops : ops.Balanced) (h : Cached s xs) (hidle : s.locks.Idle)
    (hv : Storable v) (hpos : lookup s k = .ok (some i)) :
    ∃ s', insertCache ops s k.host k.port k.path (some v) = .ok s' ∧ s'.locks.Idle ∧
      Kept s s' ∧ Cached s' (touch (s.cachemap i) xs) := by
  have hsize : ¬v.strlen + 1 > maxObjectSize := Nat.not_lt.mpr hv
  obtain ⟨s₁, s₂, s₃, s₄, s', hs⟩ := sections_of_hit hops h hidle hpos
  have hrefresh : refresh s₃ (s.cachemap i) v = .ok s₄ :=
    (refresh_eq hs.locked hs.mem v).trans hs.move
  have hkey : makeTheKey k.host k.port k.path = k := rfl
  refine ⟨s', ?_, hs.idle, hs.kept, hs.moved⟩
  simp only [insertCache, lRUCachePut, hkey, if_neg hsize, hs.search, hs.fetch, hs.lock, hrefresh,
    hs.unlock, bind, Except.bind]

theorem insertCache_of_room (hops : ops.Balanced) (h : Cached s xs) (hidle : s.locks.Idle)
    (hv : Storable v) (hpos : lookup s k = .ok none) (hroom : xs.length < maxCacheCapacity) :
    ∃ s', insertCache ops s k.host k.port k.path (some v) = .ok s' ∧ s'.locks.Idle ∧
      Inserted s k v xs s' := by
  have hsize : ¬v.strlen + 1 > maxObjectSize := Nat.not_lt.mpr hv
  obtain ⟨l₁, e₁, hidle₁⟩ := getCachePos_of_miss hops hidle hpos
  obtain ⟨l₂, l₃, hlock, hunlock, hidle₃⟩ := hops.writer l₁ hidle₁
  have e₂ : State.sync { s with locks := l₁ } ops.lockWriter = .ok { s with locks := l₂ } :=
    sync_of hlock
  obtain ⟨s₃, i, hnode, hfree, hl₃, hins⟩ :=
    insertNode_of_room ops (h.setLocks l₂) hroom hv
  have e₃ := insertEntry_of_node hnode hfree
  have e₄ : (s₃.setSlot i s.brk).sync ops.unlockWriter =
      .ok { s₃.setSlot i s.brk with locks := l₃ } := by
    refine sync_of ?_
    show ops.unlockWriter s₃.locks = _
    rw [hl₃]
    exact hunlock
  refine ⟨_, ?_, hidle₃, ((Kept.of_locks l₂).inserted hins).setLocks l₃⟩
  have hkey : makeTheKey k.host k.port k.path = k := rfl
  simp only [insertCache, lRUCachePut, hkey, if_neg hsize, e₁, e₂, e₃, e₄, bind, Except.bind]

theorem insertCache_of_full (h : Cached s (ys ++ [t])) (hidle : s.locks.Idle)
    (hv : Storable v) (hpos : lookup s k = .ok none)
    (hfull : (ys ++ [t]).length = maxCacheCapacity) (hown : EvictsOwn s t) :
    ∃ s', insertCache noLocks s k.host k.port k.path (some v) = .ok s' ∧ s'.locks.Idle ∧
      Inserted s k v ys s' := by
  have hsize : ¬v.strlen + 1 > maxObjectSize := Nat.not_lt.mpr hv
  obtain ⟨l₁, e₁, hidle₁⟩ := getCachePos_of_miss noLocks_balanced hidle hpos
  obtain ⟨s₃, i, hnode, hfree, hidle₃, -, hins⟩ :=
    insertNode_of_full (h.setLocks l₁) hidle₁ hfull hown hv
  have e₃ := insertEntry_of_node hnode hfree
  refine ⟨s₃.setSlot i s.brk, ?_, hidle₃, (Kept.of_locks l₁).inserted hins⟩
  have hkey : makeTheKey k.host k.port k.path = k := rfl
  have hsync : ∀ s₀ : State, s₀.sync Except.ok = .ok s₀ := fun _ => rfl
  simp only [insertCache, lRUCachePut, hkey, if_neg hsize, e₁, bind, Except.bind]
  simp only [noLocks, hsync]
  exact congrArg (Except.bind · _) e₃

end CsappLabs.Proxy.Cache
