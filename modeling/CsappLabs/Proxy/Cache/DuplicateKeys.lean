import CsappLabs.Proxy.Cache.Threads

/-!
# Two nodes for one key

`lRUCachePut` finds a key absent in one section and inserts it in another.  Two
threads that miss the same key both insert it.  As long as no thread inserts a
key that another one is about to insert, the keys stay distinct.
-/

namespace CsappLabs.Proxy.Cache

open CsappLabs.Foundation

variable {n : Nat} {s s' : Shared n} {cache cache' : State} {xs xs' ys : List Ptr}
  {stage : Stage} {p a l : Ptr} {t : Fin n} {k : Key} {v : CString} {clock : Nat → UInt64}

def walk (cache : State) : Nat → Ptr → Option (List Ptr)
  | 0, _ => none
  | fuel + 1, p =>
      if p = cache.tail then some [] else (walk cache fuel (cache.next p)).map (p :: ·)

def listNodes (cache : State) : Option (List Ptr) :=
  walk cache (maxCacheCapacity + 1) (cache.next cache.head)

def DistinctKeys (cache : State) : Prop :=
  ∃ xs, listNodes cache = some xs ∧ (xs.map cache.keyOf).Nodup

theorem walk_eq (h : Linked cache.next cache.prev a p xs l cache.tail) (htail : cache.tail ∉ xs)
    (fuel : Nat) (hfuel : xs.length < fuel) : walk cache fuel p = some xs := by
  induction xs generalizing a p fuel with
  | nil =>
      cases fuel with
      | zero => simp at hfuel
      | succ fuel => simp [walk, h.1]
  | cons x xs ih =>
      obtain ⟨rfl, -, hrest⟩ := h
      simp only [List.mem_cons, not_or] at htail
      cases fuel with
      | zero => simp at hfuel
      | succ fuel =>
          rw [walk, if_neg (Ne.symm htail.1), ih hrest htail.2 fuel (by simpa using hfuel)]
          rfl

theorem Cached.listNodes_eq (h : Cached cache xs) : listNodes cache = some xs :=
  walk_eq h.chain.linked h.chain.tail_notMem _ (Nat.lt_succ_of_le h.room)

def Stage.storing : Stage → Option Key
  | .store k _ => some k
  | _ => none

/-- A thread inserts a key that no other thread is about to insert. -/
def Alone (s : Shared n) : Act n → Prop
  | .invoke _ _ => True
  | .advance t => ∀ t', t' ≠ t → (s.threads t).storing = none ∨
      (s.threads t').storing ≠ (s.threads t).storing

instance (s : Shared n) : (a : Act n) → Decidable (Alone s a)
  | .invoke _ _ => .isTrue trivial
  | .advance _ => inferInstanceAs (Decidable (∀ _, _ → _ ∨ _))

def Known (cache : State) (xs : List Ptr) : Stage → Prop
  | .search (.put _ v) => Storable v
  | .move _ p | .reply _ p => p ∈ xs ∨ cache.nodes p = none ∧ p < cache.brk
  | .store k v => Storable v ∧ ∀ p ∈ xs, cache.keyOf p ≠ some k
  | _ => True

theorem Known.frame (h : Known cache xs stage)
    (hnode : ∀ p, p ∈ xs ∨ cache.nodes p = none ∧ p < cache.brk →
      p ∈ xs' ∨ cache'.nodes p = none ∧ p < cache'.brk)
    (hkeys : ∀ k, stage.storing = some k → (∀ p ∈ xs, cache.keyOf p ≠ some k) →
      ∀ p ∈ xs', cache'.keyOf p ≠ some k) :
    Known cache' xs' stage := by
  cases stage with
  | idle => trivial
  | search task =>
      cases task with
      | get k => trivial
      | put k v => exact h
  | recheck task i => trivial
  | stamp task i => trivial
  | fetch task i => trivial
  | move task p => exact hnode p h
  | reply k p => exact hnode p h
  | store k v => exact ⟨h.1, hkeys k rfl h.2⟩

structure Separate (s : Shared n) (xs : List Ptr) : Prop where
  cached : Cached s.cache xs
  idle : s.cache.locks.Idle
  clock : ∀ t, s.cache.clock t ≠ 0
  stamped : ∀ p ∈ xs, s.cache.stampOf p ≠ 0
  distinct : (xs.map s.cache.keyOf).Nodup
  known : ∀ t, Known s.cache xs (s.threads t)

namespace Separate

theorem distinctKeys (h : Separate s xs) : DistinctKeys s.cache :=
  ⟨xs, h.cached.listNodes_eq, h.distinct⟩

theorem goto (h : Separate s xs) (stage : Stage) (hstage : Known s.cache xs stage) :
    Separate (s.goto t stage) xs where
  cached := h.cached
  idle := h.idle
  clock := h.clock
  stamped := h.stamped
  distinct := h.distinct
  known t' := by
    by_cases ht : t' = t
    · simpa [Shared.goto, ht] using hstage
    · simpa [Shared.goto, ht] using h.known t'

theorem kept (h : Separate s xs) (hkept : Kept s.cache cache')
    (hl : cache'.locks = s.cache.locks) (hc : Cached cache' xs') (hperm : xs.Perm xs') :
    Separate { s with cache := cache' } xs' where
  cached := hc
  idle := by rw [show cache'.locks = _ from hl]; exact h.idle
  clock := by rw [show cache'.clock = _ from hkept.clock_eq]; exact h.clock
  stamped p hp := hkept.stamp h.clock p (h.stamped p (hperm.mem_iff.mpr hp))
  distinct := by
    show (xs'.map cache'.keyOf).Nodup
    rw [funext hkept.keyOf]
    exact (hperm.map _).nodup_iff.mp h.distinct
  known t := by
    refine (h.known t).frame (fun p hp => ?_) fun k _ hk p hp => ?_
    · cases hp with
      | inl hp => exact .inl (hperm.mem_iff.mp hp)
      | inr hp =>
          have hsame := hkept.isSome p
          rw [hp.1] at hsame
          exact .inr ⟨by simpa using hsame, hkept.brk_eq ▸ hp.2⟩
    · rw [show State.keyOf cache' p = _ from hkept.keyOf p]
      exact hk p (hperm.mem_iff.mpr hp)

theorem inserted (h : Separate s xs) (hsub : List.Sublist ys xs)
    (hins : Inserted s.cache k v ys cache') (hidle : cache'.locks.Idle)
    (hgone : ∀ p ∈ xs, p ∈ ys ∨ cache'.nodes p = none)
    (hk : ∀ p ∈ xs, s.cache.keyOf p ≠ some k)
    (hstore : ∀ t, (s.threads t).storing ≠ some k) :
    Separate { s with cache := cache' } (s.cache.brk :: ys) where
  cached := hins.cached
  idle := hidle
  clock := by rw [show cache'.clock = _ from hins.clock]; exact h.clock
  stamped p hp := by
    rcases List.mem_cons.mp hp with rfl | hp
    · exact hins.stamp h.clock
    · exact hins.stampOf h.clock p hp (h.stamped p (hsub.subset hp))
  distinct := by
    have hmap : ys.map cache'.keyOf = ys.map s.cache.keyOf := List.map_congr_left hins.keyOf
    show ((s.cache.brk :: ys).map cache'.keyOf).Nodup
    rw [List.map_cons, hins.key, hmap, List.nodup_cons]
    refine ⟨fun hmem => ?_, h.distinct.sublist (hsub.map _)⟩
    obtain ⟨p, hp, hpk⟩ := List.mem_map.mp hmem
    exact hk p (hsub.subset hp) hpk
  known t := by
    refine (h.known t).frame (fun p hp => ?_) fun k' hk' hkeys p hp => ?_
    · show p ∈ s.cache.brk :: ys ∨ cache'.nodes p = none ∧ p < cache'.brk
      rw [hins.brk]
      cases hp with
      | inl hp =>
          have hlt := (h.cached.below p (h.cached.chain.nodes_some p hp)).2
          cases hgone p hp with
          | inl hpy => exact .inl (List.mem_cons_of_mem _ hpy)
          | inr hnone => exact .inr ⟨hnone, Nat.lt_succ_of_lt hlt⟩
      | inr hp =>
          exact .inr ⟨hins.unallocated p (Nat.ne_of_lt hp.2) hp.1, Nat.lt_succ_of_lt hp.2⟩
    · show cache'.keyOf p ≠ some k'
      rcases List.mem_cons.mp hp with rfl | hp
      · rw [hins.key]
        exact fun e => hstore t (hk'.trans e.symm)
      · rw [hins.keyOf p hp]
        exact hkeys p (hsub.subset hp)

theorem store (h : Separate s xs) (hv : Storable v) (hk : ∀ p ∈ xs, s.cache.keyOf p ≠ some k)
    (hstore : ∀ t, (s.threads t).storing ≠ some k) :
    ∃ cache' xs', insertEntry noLocks s.cache k v = .ok cache' ∧
      Separate { s with cache := cache' } xs' := by
  rcases Nat.lt_or_ge xs.length maxCacheCapacity with hroom | hfull
  · obtain ⟨s₁, i, hnode, hfree, hl, hins⟩ :=
      insertNode_of_room noLocks (k := k) h.cached hroom hv
    refine ⟨_, _, insertEntry_of_node hnode hfree,
      h.inserted (List.Sublist.refl _) hins ?_ (fun p hp => .inl hp) hk hstore⟩
    show s₁.locks.Idle
    rw [hl]
    exact h.idle
  · obtain ⟨hlen, ys, q, rfl⟩ := h.cached.full hfull
    have hown : EvictsOwn s.cache q := h.cached.evictsOwn h.stamped h.distinct (by simp)
    obtain ⟨s₁, i, hnode, hfree, hidle, hgone, hins⟩ :=
      insertNode_of_full (k := k) h.cached h.idle hlen hown hv
    refine ⟨_, _, insertEntry_of_node hnode hfree,
      h.inserted (List.sublist_append_left _ _) hins hidle (fun p hp => ?_) hk hstore⟩
    rcases List.mem_append.mp hp with hp | hp
    · exact .inl hp
    · obtain rfl : p = q := List.mem_singleton.mp hp
      exact .inr hgone

theorem crash (h : Separate s xs) (task : Task) : Separate (s.crash task) xs :=
  ⟨h.cached, h.idle, h.clock, h.stamped, h.distinct, h.known⟩

theorem answer (h : Separate s xs) (value : Option CString) : Separate (s.answer t k value) xs :=
  have hgoto := h.goto (t := t) .idle trivial
  ⟨hgoto.cached, hgoto.idle, hgoto.clock, hgoto.stamped, hgoto.distinct, hgoto.known⟩

theorem invoke (h : Separate s xs) (c : Call) : Separate (s.invoke t c) xs := by
  cases c with
  | read k => exact h.goto _ trivial
  | insert k value =>
      cases value with
      | none => exact h
      | some v =>
          have hpassed : Separate { s with passed := (k, v) :: s.passed } xs :=
            ⟨h.cached, h.idle, h.clock, h.stamped, h.distinct, h.known⟩
          by_cases hsize : v.strlen + 1 > maxObjectSize
          · simpa only [Shared.invoke, if_pos hsize] using hpassed
          · simp only [Shared.invoke, if_neg hsize]
            exact hpassed.goto _ (Nat.not_lt.mp hsize)

theorem slot_known (h : Separate s xs) (i : Pos) :
    s.cache.cachemap i ∈ xs ∨
      s.cache.nodes (s.cache.cachemap i) = none ∧ s.cache.cachemap i < s.cache.brk := by
  by_cases hi : s.cache.cachemap i = 0
  · right
    rw [hi]
    have hhead := h.cached.below _ h.cached.chain.head_some
    refine ⟨Option.not_isSome_iff_eq_none.mp fun h0 => ?_, Nat.lt_trans hhead.1 hhead.2⟩
    exact Nat.lt_irrefl 0 (h.cached.below 0 h0).1
  · exact .inl (h.cached.slotted.mem i hi)

theorem advance (h : Separate s xs)
    (hok : ∀ t', t' ≠ t → (s.threads t).storing = none ∨
      (s.threads t').storing ≠ (s.threads t).storing)
    (hstep : s.advance t (s.threads t) = some s') : ∃ xs', Separate s' xs' := by
  have hknown := h.known t
  generalize s.threads t = stage at hok hstep hknown
  cases stage with
  | idle => cases hstep
  | search task =>
      simp only [Shared.advance] at hstep
      rcases lookup_spec h.cached task.key with ⟨hnone, -⟩ | ⟨i, hsome, -⟩
      · rw [hnone] at hstep
        cases task with
        | get k =>
            cases hstep
            exact ⟨xs, h.answer none⟩
        | put k v =>
            cases hstep
            exact ⟨xs, h.goto (.store k v)
              ⟨hknown, h.cached.not_key_of_miss h.stamped hnone⟩⟩
      · rw [hsome] at hstep
        cases hstep
        exact ⟨xs, h.goto _ trivial⟩
  | recheck task i =>
      simp only [Shared.advance] at hstep
      obtain ⟨b, hb, -⟩ := recheck_spec h.cached i
      rw [hb] at hstep
      cases b with
      | true => cases hstep; exact ⟨xs, h.goto _ trivial⟩
      | false => cases hstep; exact ⟨xs, h.goto _ trivial⟩
  | stamp task i =>
      simp only [Shared.advance] at hstep
      by_cases hi : s.cache.cachemap i = 0
      · have hnone : s.cache.nodes 0 = none := Option.not_isSome_iff_eq_none.mp fun h0 =>
          Nat.lt_irrefl 0 (h.cached.below 0 h0).1
        have heq : stamp s.cache i = .error .fault := by
          simp [stamp, State.write, State.tick, hi, hnone]
        rw [heq] at hstep
        cases hstep
        exact ⟨xs, h.crash task⟩
      · obtain ⟨cache', heq, hl, hkept, hc⟩ := stamp_spec h.cached hi
        rw [heq] at hstep
        cases hstep
        exact ⟨xs, (h.goto (.fetch task i) trivial).kept hkept hl hc (.refl xs)⟩
  | fetch task i =>
      cases hstep
      exact ⟨xs, h.goto _ (h.slot_known i)⟩
  | move task p =>
      cases hknown with
      | inl hp =>
          obtain ⟨cache', heq, hl, hkept, hc⟩ := moveToHead_cached h.cached hp
          cases task with
          | get k =>
              simp only [Shared.advance, heq] at hstep
              cases hstep
              exact ⟨_, (h.goto (.reply k p) (.inl hp)).kept hkept hl hc (touch_perm hp)⟩
          | put k v =>
              simp only [Shared.advance, refresh_eq h.cached hp, heq] at hstep
              cases hstep
              exact ⟨_, (h.goto .idle trivial).kept hkept hl hc (touch_perm hp)⟩
      | inr hp =>
          -- the node was freed while the thread held its address
          have hderef : s.cache.deref p = .error .fault := by simp [State.deref, hp.1]
          cases task with
          | get k =>
              simp only [Shared.advance, moveToHead, hderef, bind, Except.bind] at hstep
              cases hstep
              exact ⟨xs, h.crash _⟩
          | put k v =>
              simp only [Shared.advance, refresh, hderef, bind, Except.bind] at hstep
              cases hstep
              exact ⟨xs, h.crash _⟩
  | reply k p =>
      simp only [Shared.advance] at hstep
      cases hd : s.cache.deref p with
      | error e =>
          rw [hd] at hstep
          cases hstep
          exact ⟨xs, h.crash _⟩
      | ok node =>
          rw [hd] at hstep
          cases hstep
          exact ⟨xs, h.answer _⟩
  | store k v =>
      have hgoto : Separate (s.goto t .idle) xs := h.goto .idle trivial
      obtain ⟨cache', xs', heq, hsep⟩ := hgoto.store hknown.1 hknown.2 fun t' => by
        by_cases ht : t' = t
        · simp [Shared.goto, ht, Stage.storing]
        · have hne : (s.threads t').storing ≠ some k :=
            (hok t' ht).resolve_left (by simp [Stage.storing])
          simpa [Shared.goto, ht] using hne
      have heq' : insertEntry noLocks s.cache k v = .ok cache' := heq
      simp only [Shared.advance, heq'] at hstep
      cases hstep
      exact ⟨xs', hsep⟩

theorem step (h : Separate s xs) {a : Act n} (hok : Alone s a) (hstep : s.step a = some s') :
    ∃ xs', Separate s' xs' := by
  cases a with
  | invoke t c =>
      rw [← Shared.invoke_of_step hstep]
      exact ⟨xs, h.invoke c⟩
  | advance t => exact h.advance hok (Shared.advance_of_step hstep)

theorem start (n : Nat) (hclock : ∀ t, clock t ≠ 0) : Separate (Shared.start n clock) [] where
  cached := cached_init clock
  idle := init_idle clock
  clock := hclock
  stamped := by simp
  distinct := List.nodup_nil
  known _ := trivial

end Separate

/-- In a run of any number of threads that inserts each key alone, the keys in
the list stay distinct. -/
theorem keys_distinct (hclock : ∀ t, clock t ≠ 0)
    (hrun : Run Shared.step Alone (Shared.start n clock) s) : DistinctKeys s.cache := by
  obtain ⟨xs, h⟩ := hrun.invariant (fun s => ∃ xs, Separate s xs)
    ⟨[], .start n hclock⟩ fun _ _ _ ⟨_, h⟩ hok hstep => h.step hok hstep
  exact h.distinctKeys

theorem keys_distinct_two :
    ∃ s : Shared 2, listNodes s.cache = some [4, 3] ∧ DistinctKeys s.cache := by
  obtain ⟨s, hrun, hlist⟩ := Shared.run_of_replay 2 (fun _ => 1) Alone
    (storePage 0 (page 0) ⟨[120], by decide⟩ ++ storePage 1 (page 1) ⟨[121], by decide⟩)
    (fun s => listNodes s.cache) (some [4, 3]) (by decide +kernel)
  exact ⟨s, hlist, keys_distinct (fun _ => by decide) hrun⟩

/-- Both threads miss the page before either inserts it. -/
theorem page_inserted_twice :
    ¬∀ n clock (s : Shared n), Run Shared.step (fun _ _ => True) (Shared.start n clock) s →
      DistinctKeys s.cache := by
  intro hall
  obtain ⟨s, hrun, hobs⟩ := Shared.run_of_replay 2 (fun _ => 1) (fun _ _ => True)
    [.invoke 0 (.insert (page 0) (some ⟨[120], by decide⟩)),
      .invoke 1 (.insert (page 0) (some ⟨[121], by decide⟩)),
      .advance 0, .advance 1, .advance 0, .advance 1]
    (fun s => (listNodes s.cache, s.cache.keyOf 3, s.cache.keyOf 4))
    (some [4, 3], some (page 0), some (page 0)) (by decide +kernel)
  obtain ⟨xs, hlist, hnd⟩ := hall 2 (fun _ => 1) s hrun
  simp only [Prod.mk.injEq] at hobs
  obtain ⟨hwalk, h₃, h₄⟩ := hobs
  obtain rfl : [4, 3] = xs := by
    rw [hwalk] at hlist
    exact Option.some.inj hlist
  simp [h₃, h₄] at hnd

end CsappLabs.Proxy.Cache
