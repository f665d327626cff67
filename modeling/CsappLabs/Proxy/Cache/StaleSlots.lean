import CsappLabs.Proxy.Cache.Threads

/-!
# Answers under another key

A thread looks a key up, reads the slot and moves the node in separate
sections.  When another thread evicts the node in between, the slot holds
another page by the time it is read, or the node is freed by the time it is
used.  In runs in which no such eviction takes place every answer belongs to
the key that was asked for.
-/

namespace CsappLabs.Proxy.Cache

open CsappLabs.Foundation

variable {n : Nat} {s s' : Shared n} {cache cache' : State} {xs xs' ys : List Ptr}
  {passed passed' : List (Key × CString)} {stage : Stage} {p : Ptr} {t : Fin n} {task : Task}
  {k : Key} {v : CString} {clock : Nat → UInt64}

def Stage.node (cache : State) : Stage → Option Ptr
  | .recheck _ i | .stamp _ i | .fetch _ i => some (cache.cachemap i)
  | .move _ p | .reply _ p => some p
  | _ => none

def lastNode (cache : State) : Ptr := cache.prev cache.tail

instance (cache : State) (p : Ptr) : Decidable (EvictsOwn cache p) :=
  match hk : cache.keyOf p with
  | none => .isFalse fun h => by
      obtain ⟨k, i, hkey, -⟩ := h
      rw [hk] at hkey
      cases hkey
  | some k =>
      match hl : lookup cache k with
      | .ok (some i) =>
          if hi : cache.cachemap i = p then .isTrue ⟨k, i, hk, hl, hi⟩
          else .isFalse fun h => by
            obtain ⟨k', j, hkey, hlook, hj⟩ := h
            obtain rfl : k = k' := by rw [hk] at hkey; exact Option.some.inj hkey
            obtain rfl : i = j := by rw [hl] at hlook; simpa using hlook
            exact hi hj
      | .ok none => .isFalse fun h => by
          obtain ⟨k', j, hkey, hlook, -⟩ := h
          obtain rfl : k = k' := by rw [hk] at hkey; exact Option.some.inj hkey
          rw [hl] at hlook
          cases hlook
      | .error e => .isFalse fun h => by
          obtain ⟨k', j, hkey, hlook, -⟩ := h
          obtain rfl : k = k' := by rw [hk] at hkey; exact Option.some.inj hkey
          rw [hl] at hlook
          cases hlook

/-- An eviction clears the slot of the node it evicts, and no thread has found
this node. -/
def UndisturbedAt (s : Shared n) : Stage → Prop
  | .store _ _ =>
      s.cache.currentCapacity < s.cache.totalCapacity ∨
        EvictsOwn s.cache (lastNode s.cache) ∧
          ∀ t, (s.threads t).node s.cache ≠ some (lastNode s.cache)
  | _ => True

def Undisturbed (s : Shared n) : Act n → Prop
  | .invoke _ _ => True
  | .advance t => UndisturbedAt s (s.threads t)

instance (s : Shared n) : (stage : Stage) → Decidable (UndisturbedAt s stage)
  | .store _ _ => inferInstanceAs (Decidable (_ ∨ _ ∧ _))
  | .idle | .search _ | .recheck _ _ | .stamp _ _ | .fetch _ _ | .move _ _ | .reply _ _ =>
      .isTrue trivial

instance (s : Shared n) : (a : Act n) → Decidable (Undisturbed s a)
  | .invoke _ _ => .isTrue trivial
  | .advance t => inferInstanceAs (Decidable (UndisturbedAt s (s.threads t)))

/-- `read_cache` uses no null or freed node, and it answers with a value that
was inserted under the same key. -/
def AnswersOwn (s : Shared n) : Prop :=
  (∀ k, s.crashed ≠ some (.get k)) ∧ ∀ k v, (k, some v) ∈ s.answers → (k, v) ∈ s.passed

def Holds (cache : State) (xs : List Ptr) (passed : List (Key × CString)) : Stage → Prop
  | .idle => True
  | .search (.get _) => True
  | .search (.put k v) => Storable v ∧ (k, v) ∈ passed
  | .recheck task i | .stamp task i | .fetch task i =>
      cache.cachemap i ∈ xs ∧ cache.keyOf (cache.cachemap i) = some task.key
  | .move task p => p ∈ xs ∧ cache.keyOf p = some task.key
  | .reply k p => p ∈ xs ∧ cache.keyOf p = some k
  | .store k v => Storable v ∧ (k, v) ∈ passed

/-- A section leaves a thread alone that has found none of the nodes it
removes. -/
theorem Holds.frame (h : Holds cache xs passed stage) (hpassed : passed ⊆ passed')
    (hnode : ∀ p, stage.node cache = some p → p ∈ xs → p ∈ xs' ∧ cache'.keyOf p = cache.keyOf p ∧
      ∀ i, cache.cachemap i = p → cache'.cachemap i = p) :
    Holds cache' xs' passed' stage := by
  cases stage with
  | idle => trivial
  | search task =>
      cases task with
      | get k => trivial
      | put k v => exact ⟨h.1, hpassed h.2⟩
  | recheck task i =>
      obtain ⟨hmem, hkey, hslot⟩ := hnode _ rfl h.1
      rw [Holds, hslot i rfl]
      exact ⟨hmem, hkey.trans h.2⟩
  | stamp task i =>
      obtain ⟨hmem, hkey, hslot⟩ := hnode _ rfl h.1
      rw [Holds, hslot i rfl]
      exact ⟨hmem, hkey.trans h.2⟩
  | fetch task i =>
      obtain ⟨hmem, hkey, hslot⟩ := hnode _ rfl h.1
      rw [Holds, hslot i rfl]
      exact ⟨hmem, hkey.trans h.2⟩
  | move task p =>
      obtain ⟨hmem, hkey, -⟩ := hnode p rfl h.1
      exact ⟨hmem, hkey.trans h.2⟩
  | reply k p =>
      obtain ⟨hmem, hkey, -⟩ := hnode p rfl h.1
      exact ⟨hmem, hkey.trans h.2⟩
  | store k v => exact ⟨h.1, hpassed h.2⟩

structure Orderly (s : Shared n) (xs : List Ptr) : Prop where
  cached : Cached s.cache xs
  idle : s.cache.locks.Idle
  running : s.crashed = none
  holds : ∀ t, Holds s.cache xs s.passed (s.threads t)
  entries : ∀ p ∈ xs, ∀ k v, s.cache.keyOf p = some k → s.cache.valueOf p = some v →
    (k, v) ∈ s.passed
  answers : ∀ k v, (k, some v) ∈ s.answers → (k, v) ∈ s.passed

namespace Orderly

theorem answersOwn (h : Orderly s xs) : AnswersOwn s :=
  ⟨fun k hk => by simp [h.running] at hk, h.answers⟩

theorem goto (h : Orderly s xs) (stage : Stage) (hstage : Holds s.cache xs s.passed stage) :
    Orderly (s.goto t stage) xs where
  cached := h.cached
  idle := h.idle
  running := h.running
  holds t' := by
    by_cases ht : t' = t
    · simpa [Shared.goto, ht] using hstage
    · simpa [Shared.goto, ht] using h.holds t'
  entries := h.entries
  answers := h.answers

theorem kept (h : Orderly s xs) (hkept : Kept s.cache cache') (hl : cache'.locks = s.cache.locks)
    (hc : Cached cache' xs') (hxs : ∀ p, p ∈ xs' ↔ p ∈ xs) :
    Orderly { s with cache := cache' } xs' where
  cached := hc
  idle := by rw [show cache'.locks = _ from hl]; exact h.idle
  running := h.running
  holds t' := (h.holds t').frame (List.Subset.refl _) fun p _ hp =>
    ⟨(hxs p).mpr hp, hkept.keyOf p, fun i hi => by rw [hkept.cachemap_eq, hi]⟩
  entries p hp k v hk hv := by
    refine h.entries p ((hxs p).mp hp) k v ?_ ?_
    · rw [← hkept.keyOf]; exact hk
    · rw [← hkept.valueOf]; exact hv
  answers := h.answers

theorem answer (h : Orderly s xs) {value : Option CString}
    (hv : ∀ v, value = some v → (k, v) ∈ s.passed) : Orderly (s.answer t k value) xs := by
  have hgoto : Orderly (s.goto t .idle) xs := h.goto _ trivial
  refine ⟨hgoto.cached, hgoto.idle, hgoto.running, hgoto.holds, hgoto.entries, ?_⟩
  intro k' v' hmem
  rcases List.mem_cons.mp hmem with heq | hmem
  · obtain ⟨rfl, hv'⟩ := Prod.mk.inj heq
    exact hv v' hv'.symm
  · exact h.answers k' v' hmem

theorem invoke (h : Orderly s xs) (c : Call) : Orderly (s.invoke t c) xs := by
  cases c with
  | read k => exact h.goto _ trivial
  | insert k value =>
      cases value with
      | none => exact h
      | some v =>
          have hpassed : Orderly { s with passed := (k, v) :: s.passed } xs :=
            ⟨h.cached, h.idle, h.running,
              fun t' => (h.holds t').frame (List.subset_cons_self _ _)
                fun p _ hp => ⟨hp, rfl, fun _ => id⟩,
              fun p hp k' v' hk hv => List.mem_cons_of_mem _ (h.entries p hp k' v' hk hv),
              fun k' v' hmem => List.mem_cons_of_mem _ (h.answers k' v' hmem)⟩
          by_cases hsize : v.strlen + 1 > maxObjectSize
          · simpa only [Shared.invoke, if_pos hsize] using hpassed
          · simp only [Shared.invoke, if_neg hsize]
            exact hpassed.goto _ ⟨Nat.not_lt.mp hsize, List.mem_cons_self⟩

theorem inserted (h : Orderly s xs) (hys : ys ⊆ xs) (hins : Inserted s.cache k v ys cache')
    (hidle : cache'.locks.Idle) (hkv : (k, v) ∈ s.passed)
    (hstay : ∀ t p, (s.threads t).node s.cache = some p → p ∈ xs → p ∈ ys) :
    Orderly { s with cache := cache' } (s.cache.brk :: ys) where
  cached := hins.cached
  idle := hidle
  running := h.running
  holds t := (h.holds t).frame (List.Subset.refl _) fun p hnode hp => by
    have hpy : p ∈ ys := hstay t p hnode hp
    refine ⟨List.mem_cons_of_mem _ hpy, hins.keyOf p hpy, fun i hi => ?_⟩
    rw [hins.slot i (hi ▸ hpy), hi]
  entries p hp k' v' hk hv := by
    show (k', v') ∈ s.passed
    rcases List.mem_cons.mp hp with rfl | hp
    · rw [show State.keyOf _ _ = _ from hins.key] at hk
      rw [show State.valueOf _ _ = _ from hins.value] at hv
      rw [← Option.some.inj hk, ← Option.some.inj hv]
      exact hkv
    · exact h.entries p (hys hp) k' v' ((hins.keyOf p hp).symm.trans hk)
        ((hins.valueOf p hp).symm.trans hv)
  answers := h.answers

theorem store (h : Orderly s xs) (hv : Storable v) (hkv : (k, v) ∈ s.passed)
    (hok : UndisturbedAt s (.store k v)) :
    ∃ cache' xs', insertEntry noLocks s.cache k v = .ok cache' ∧
      Orderly { s with cache := cache' } xs' := by
  rcases Nat.lt_or_ge xs.length maxCacheCapacity with hroom | hfull
  · obtain ⟨s₁, i, hnode, hfree, hl, hins⟩ :=
      insertNode_of_room noLocks (k := k) h.cached hroom hv
    refine ⟨_, _, insertEntry_of_node hnode hfree,
      h.inserted (List.Subset.refl _) hins ?_ hkv fun _ _ _ hp => hp⟩
    show s₁.locks.Idle
    rw [hl]
    exact h.idle
  · obtain ⟨hlen, ys, q, rfl⟩ := h.cached.full hfull
    obtain ⟨m, hm⟩ := h.cached.chain.some_of (p := q) (.inl (by simp))
    have hlast : lastNode s.cache = q := (h.cached.chain.last hm).1
    have hcap : ¬s.cache.currentCapacity < s.cache.totalCapacity := by
      rw [h.cached.count, h.cached.total]
      exact Nat.not_lt.mpr hfull
    obtain ⟨hown, hfound⟩ := Or.resolve_left hok hcap
    rw [hlast] at hown hfound
    obtain ⟨s₁, i, hnode, hfree, hidle, -, hins⟩ :=
      insertNode_of_full (k := k) h.cached h.idle hlen hown hv
    refine ⟨_, _, insertEntry_of_node hnode hfree,
      h.inserted (List.subset_append_left _ _) hins hidle hkv fun t p hnode hp => ?_⟩
    have hpq : p ≠ q := fun e => hfound t (e ▸ hnode)
    simpa [hpq] using hp

/-- No section of an undisturbed run crashes, and each keeps the invariant. -/
theorem advance (h : Orderly s xs) (hok : UndisturbedAt s (s.threads t))
    (hstep : s.advance t (s.threads t) = some s') : ∃ xs', Orderly s' xs' := by
  have hholds := h.holds t
  generalize s.threads t = stage at hok hstep hholds
  cases stage with
  | idle => cases hstep
  | search task =>
      simp only [Shared.advance] at hstep
      rcases lookup_spec h.cached task.key with ⟨hnone, -⟩ | ⟨i, hsome, hhit⟩
      · rw [hnone] at hstep
        cases task with
        | get k =>
            cases hstep
            exact ⟨xs, h.answer (by simp)⟩
        | put k v =>
            cases hstep
            exact ⟨xs, h.goto _ hholds⟩
      · rw [hsome] at hstep
        cases hstep
        exact ⟨xs, h.goto _ ⟨h.cached.slotted.mem i hhit.1, hhit.2.1⟩⟩
  | recheck task i =>
      simp only [Shared.advance] at hstep
      obtain ⟨b, hb, -⟩ := recheck_spec h.cached i
      rw [hb] at hstep
      cases b with
      | true => cases hstep; exact ⟨xs, h.goto _ hholds⟩
      | false => cases hstep; exact ⟨xs, h.goto _ hholds⟩
  | stamp task i =>
      simp only [Shared.advance] at hstep
      obtain ⟨cache', heq, hl, hkept, hc⟩ := stamp_spec h.cached (h.cached.ne_zero hholds.1)
      rw [heq] at hstep
      cases hstep
      exact ⟨xs, (h.goto (.fetch task i) hholds).kept hkept hl hc fun _ => Iff.rfl⟩
  | fetch task i =>
      cases hstep
      exact ⟨xs, h.goto _ hholds⟩
  | move task p =>
      obtain ⟨cache', heq, hl, hkept, hc⟩ := moveToHead_cached h.cached hholds.1
      have hxs : ∀ q, q ∈ touch p xs ↔ q ∈ xs := fun q => (touch_perm hholds.1).mem_iff.symm
      cases task with
      | get k =>
          simp only [Shared.advance, heq] at hstep
          cases hstep
          exact ⟨_, (h.goto (.reply k p) hholds).kept hkept hl hc hxs⟩
      | put k v =>
          simp only [Shared.advance, refresh_eq h.cached hholds.1, heq] at hstep
          cases hstep
          exact ⟨_, (h.goto .idle trivial).kept hkept hl hc hxs⟩
  | reply k p =>
      obtain ⟨m, hm⟩ := h.cached.chain.some_of (.inl hholds.1)
      simp only [Shared.advance, State.deref_of hm] at hstep
      cases hstep
      refine ⟨xs, h.answer fun v hv => h.entries p hholds.1 k v hholds.2 ?_⟩
      simpa [State.valueOf, hm] using hv
  | store k v =>
      obtain ⟨cache', xs', heq, horder⟩ := h.store hholds.1 hholds.2 hok
      simp only [Shared.advance, heq] at hstep
      cases hstep
      exact ⟨xs', horder.goto .idle trivial⟩

theorem step (h : Orderly s xs) {a : Act n} (hok : Undisturbed s a)
    (hstep : s.step a = some s') : ∃ xs', Orderly s' xs' := by
  cases a with
  | invoke t c =>
      rw [← Shared.invoke_of_step hstep]
      exact ⟨xs, h.invoke c⟩
  | advance t => exact h.advance hok (Shared.advance_of_step hstep)

theorem start (n : Nat) (clock : Nat → UInt64) : Orderly (Shared.start n clock) [] where
  cached := cached_init clock
  idle := init_idle clock
  running := rfl
  holds _ := trivial
  entries := by simp
  answers := by simp [Shared.start]

end Orderly

/-- In an undisturbed run of any number of threads, answers are never mixed up. -/
theorem answers_own (hrun : Run Shared.step Undisturbed (Shared.start n clock) s) :
    AnswersOwn s := by
  obtain ⟨xs, h⟩ := hrun.invariant (fun s => ∃ xs, Orderly s xs)
    ⟨[], .start n clock⟩ fun _ _ _ ⟨_, h⟩ hok hstep => h.step hok hstep
  exact h.answersOwn

theorem answers_own_hit :
    ∃ s : Shared 2, s.answers = [(page 0, some ⟨[120], by decide⟩)] ∧ AnswersOwn s := by
  obtain ⟨s, hrun, hans⟩ := Shared.run_of_replay 2 (fun _ => 1) Undisturbed
    (storePage 0 (page 0) ⟨[120], by decide⟩ ++
      .invoke 1 (.read (page 0)) :: List.replicate 6 (.advance 1))
    Shared.answers [(page 0, some ⟨[120], by decide⟩)] (by decide +kernel)
  exact ⟨s, hans, answers_own hrun⟩

/-- The slot of `/a` is looked up, taken over by `/k`, and then read. -/
theorem answer_of_another_page :
    ¬∀ n clock (s : Shared n), Run Shared.step (fun _ _ => True) (Shared.start n clock) s →
      AnswersOwn s := by
  intro hall
  obtain ⟨s, hrun, hobs⟩ := Shared.run_of_replay 2 (fun _ => 1) (fun _ _ => True)
    ([0, 1, 2, 3, 4, 5, 6, 7, 8, 9].flatMap
        (fun m => storePage 0 (page m) ⟨[120], by decide⟩) ++
      [.invoke 1 (.read (page 0)), .advance 1] ++ storePage 0 (page 10) ⟨[121], by decide⟩ ++
      List.replicate 5 (.advance 1))
    (fun s => (s.answers, s.passed.contains (page 0, ⟨[121], by decide⟩)))
    ([(page 0, some ⟨[121], by decide⟩)], false) (by decide +kernel)
  obtain ⟨hans, hnot⟩ := Prod.mk.inj hobs
  have hmem := (hall 2 (fun _ => 1) s hrun).2 (page 0) ⟨[121], by decide⟩ (by simp [hans])
  rw [List.contains_iff_mem.mpr hmem] at hnot
  cases hnot

end CsappLabs.Proxy.Cache
