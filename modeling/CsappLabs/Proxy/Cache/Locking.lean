import CsappLabs.Proxy.Cache.Calls

/-!
# Self-deadlock of the cache

`DeleteFromTail` runs inside the writer section of `lRUCachePut` and looks the
evicted key up under the reader lock.  A thread that evicts therefore waits for
itself.  A sequence of calls completes exactly when none of them evicts.
-/

namespace CsappLabs.Proxy.Cache

open CsappLabs.Foundation

variable {s s' : State} {k : Key} {v : CString} {c : Call} {cs : List Call} {xs : List Ptr}
  {clock : Nat → UInt64}

theorem cached_init (clock : Nat → UInt64) : Cached (initLRUCache clock) [] where
  chain := by
    constructor <;> simp [initLRUCache, lRUCacheCreate, State.initCacheNode, State.put,
      State.next, State.prev]
  slotted := ⟨fun i hi => absurd rfl hi, by simp, fun i j hi => absurd rfl hi⟩
  entry := by simp
  count := rfl
  total := rfl
  room := by simp
  below p hp := by
    by_cases h2 : p = 2
    · subst h2
      exact ⟨by decide, (by decide : 2 < 3)⟩
    · by_cases h1 : p = 1
      · subst h1
        exact ⟨by decide, (by decide : 1 < 3)⟩
      · simp [initLRUCache, lRUCacheCreate, State.initCacheNode, State.put, h1, h2] at hp

theorem init_idle (clock : Nat → UInt64) : (initLRUCache clock).locks.Idle := initWrLocks_idle

/-- The call stores no new key into a full cache. -/
def HasRoom (s : State) : Call → Prop
  | .insert k (some v) =>
      Storable v → s.currentCapacity < s.totalCapacity ∨ ∃ i, lookup s k = .ok (some i)
  | _ => True

theorem call_of_room (h : Cached s xs) (hidle : s.locks.Idle) (hroom : HasRoom s c) :
    ∃ s' xs', call semaphores s c = .ok s' ∧ s'.locks.Idle ∧ Cached s' xs' := by
  cases c with
  | read k =>
      rcases readCache_spec semaphores_balanced h hidle k with
        ⟨-, s', heq, hidle', -, h'⟩ | ⟨i, s', -, heq, hidle', -, h'⟩
      · exact ⟨s', xs, by simp [call, heq, Except.map], hidle', h'⟩
      · exact ⟨s', _, by simp [call, heq, Except.map], hidle', h'⟩
  | insert k value =>
      cases value with
      | none => exact ⟨s, xs, insertCache_null, hidle, h⟩
      | some v =>
          by_cases hv : Storable v
          · rcases lookup_spec h k with ⟨hnone, -⟩ | ⟨i, hsome, -⟩
            · have hlen : xs.length < maxCacheCapacity := by
                rcases hroom hv with hlt | ⟨i, hsome⟩
                · rwa [h.count, h.total] at hlt
                · rw [hnone] at hsome
                  cases hsome
              obtain ⟨s', heq, hidle', hins⟩ :=
                insertCache_of_room semaphores_balanced h hidle hv hnone hlen
              exact ⟨s', _, heq, hidle', hins.cached⟩
            · obtain ⟨s', heq, hidle', -, h'⟩ :=
                insertCache_of_hit semaphores_balanced h hidle hv hsome
              exact ⟨s', _, heq, hidle', h'⟩
          · exact ⟨s, xs, insertCache_oversized hv, hidle, h⟩

/-- `DeleteFromTail` waits for the writer section that it runs in. -/
theorem deleteFromTail_blocks (h : Cached s xs) (hne : xs ≠ [])
    (hblock : lockReader s.locks = .error .blocked) :
    deleteFromTail semaphores s = .error .blocked := by
  obtain ⟨ys, t, rfl⟩ := List.eq_nil_or_concat' xs |>.resolve_left hne
  obtain ⟨tl, htl⟩ := h.chain.some_of (p := s.tail) (.inr (.inr rfl))
  obtain ⟨n, hn⟩ := h.chain.some_of (p := t) (.inl (by simp))
  have hprev : tl.prev = t := (State.prev_of htl).symm.trans (h.chain.last hn).1
  obtain ⟨k, v, hkey, -⟩ := h.entry t (by simp)
  have hnkey : n.key = some k := by simpa [State.keyOf, hn] using hkey
  have hsync : s.sync semaphores.lockReader = .error .blocked := by
    show Except.map _ (lockReader s.locks) = _
    rw [hblock]
    rfl
  simp only [deleteFromTail, State.deref_of htl, hprev, State.deref_of hn, hnkey, getCachePos,
    hsync, bind, Except.bind]

theorem call_of_no_room (h : Cached s xs) (hidle : s.locks.Idle) (hroom : ¬HasRoom s c) :
    call semaphores s c = .error .blocked := by
  cases c with
  | read k => exact absurd trivial hroom
  | insert k value =>
      cases value with
      | none => exact absurd trivial hroom
      | some v =>
          simp only [HasRoom, not_forall, not_or, not_lt, not_exists] at hroom
          obtain ⟨hv, hcap, hmiss⟩ := hroom
          have hsize : ¬v.strlen + 1 > maxObjectSize := Nat.not_lt.mpr hv
          have hpos : lookup s k = .ok none := by
            rcases lookup_spec h k with ⟨hnone, -⟩ | ⟨i, hsome, -⟩
            · exact hnone
            · exact absurd hsome (hmiss i)
          obtain ⟨l₁, e₁, hidle₁⟩ := getCachePos_of_miss semaphores_balanced hidle hpos
          obtain ⟨l₂, -, hlock, -, -⟩ := semaphores_balanced.writer l₁ hidle₁
          have e₂ : State.sync { s with locks := l₁ } semaphores.lockWriter =
              .ok { s with locks := l₂ } := sync_of hlock
          have hxs : xs ≠ [] := by
            rintro rfl
            rw [h.count, h.total] at hcap
            exact absurd hcap (by decide)
          have e₃ : deleteFromTail semaphores (created { s with locks := l₂ } k v) =
              .error .blocked :=
            deleteFromTail_blocks (h.setLocks l₂).created hxs (lockReader_in_writer hidle₁ hlock)
          have hge : (created { s with locks := l₂ } k v).currentCapacity ≥
              (created { s with locks := l₂ } k v).totalCapacity := hcap
          have hkey : makeTheKey k.host k.port k.path = k := rfl
          simp only [call, insertCache, lRUCachePut, hkey, if_neg hsize, e₁, e₂, insertEntry,
            insertNode, createNode_eq, if_pos hge, e₃, bind, Except.bind]

def Completes (s : State) : List Call → Prop
  | [] => True
  | c :: cs => ∃ s', call semaphores s c = .ok s' ∧ s'.locks.Idle ∧ Completes s' cs

def AlwaysRoom (s : State) : List Call → Prop
  | [] => True
  | c :: cs => HasRoom s c ∧ ∀ s', call semaphores s c = .ok s' → AlwaysRoom s' cs

theorem completes_iff_of_cached (h : Cached s xs) (hidle : s.locks.Idle) :
    Completes s cs ↔ AlwaysRoom s cs := by
  induction cs generalizing s xs with
  | nil => simp [Completes, AlwaysRoom]
  | cons c cs ih =>
      constructor
      · rintro ⟨s', heq, -, hrest⟩
        have hroom : HasRoom s c := by
          by_contra hno
          rw [call_of_no_room h hidle hno] at heq
          cases heq
        obtain ⟨s₁, xs₁, heq₁, hidle₁, h₁⟩ := call_of_room h hidle hroom
        refine ⟨hroom, fun s₂ heq₂ => ?_⟩
        obtain rfl : s' = s₂ := by rw [heq] at heq₂; exact Except.ok.inj heq₂
        obtain rfl : s' = s₁ := by rw [heq] at heq₁; exact Except.ok.inj heq₁
        exact (ih h₁ hidle₁).mp hrest
      · rintro ⟨hroom, hrest⟩
        obtain ⟨s₁, xs₁, heq₁, hidle₁, h₁⟩ := call_of_room h hidle hroom
        exact ⟨s₁, heq₁, hidle₁, (ih h₁ hidle₁).mpr (hrest s₁ heq₁)⟩

/-- The calls of one thread complete exactly when each of them finds room. -/
theorem completes_iff (clock : Nat → UInt64) (cs : List Call) :
    Completes (initLRUCache clock) cs ↔ AlwaysRoom (initLRUCache clock) cs :=
  completes_iff_of_cached (cached_init clock) (init_idle clock)

theorem Completes.calls_ok (h : Completes s cs) : ∃ s', calls semaphores s cs = .ok s' := by
  induction cs generalizing s with
  | nil => exact ⟨s, rfl⟩
  | cons c cs ih =>
      obtain ⟨s₁, heq, -, hrest⟩ := h
      obtain ⟨s', hs'⟩ := ih hrest
      exact ⟨s', by simp only [calls, heq, bind, Except.bind, hs']⟩

def page (n : Fin 26) : Key where
  host := ⟨[104], by decide⟩
  port := ⟨[56, 48], by decide⟩
  path := ⟨[47, 97 + UInt8.ofNat n], by revert n; decide⟩

def elevenPages : List Call :=
  [0, 1, 2, 3, 4, 5, 6, 7, 8, 9, 10].map fun n => .insert (page n) (some ⟨[120], by decide⟩)

/-- The insertion of an eleventh page never returns. -/
theorem eleventh_page_blocks :
    ¬∀ clock cs, Completes (initLRUCache clock) cs := by
  intro hall
  obtain ⟨s', heq⟩ := (hall (fun _ => 1) elevenPages).calls_ok
  have hnone : (calls semaphores (initLRUCache fun _ => 1) elevenPages).toOption.isNone = true := by
    decide +kernel
  rw [heq] at hnone
  cases hnone

end CsappLabs.Proxy.Cache
