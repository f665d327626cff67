import CsappLabs.Proxy.Cache.Sections

/-!
# The section that inserts a node

A new node is filled in outside the list, a full cache gives up its last node,
and the new one goes to the front and into the slot that is free.
-/

namespace CsappLabs.Proxy.Cache

open CsappLabs.Foundation

variable {s s' s₁ : State} {p q t : Ptr} {i j : Pos} {n : CacheNode} {k kt : Key} {v : CString}
  {xs ys : List Ptr} {ops : LockOps}

def created (s : State) (k : Key) (v : CString) : State :=
  { s.tick.put s.brk { key := some k, timestamp := s.now, value := some v } with
    brk := s.brk + 1 }

theorem createNode_eq (s : State) (k : Key) (v : CString) :
    createNode s k v = .ok (s.brk, created s k v) := by
  simp [createNode, State.initCacheNode, State.write, State.put, State.tick, State.now, created,
    bind, Except.bind]

theorem created_nodes_of_ne (h : q ≠ s.brk) : (created s k v).nodes q = s.nodes q := by
  simp [created, h, State.tick]

theorem created_nodes_self :
    (created s k v).nodes s.brk = some { key := some k, timestamp := s.now, value := some v } := by
  simp [created]

theorem Chain.created (h : Chain s xs) (hx : s.brk ∉ xs) (hhead : s.brk ≠ s.head)
    (htail : s.brk ≠ s.tail) : Chain (created s k v) xs := by
  have hnodes : ∀ q, q ≠ s.brk → (Cache.created s k v).nodes q = s.nodes q :=
    fun q hq => created_nodes_of_ne hq
  have hnext : ∀ q, q ≠ s.brk → (Cache.created s k v).next q = s.next q := by
    intro q hq
    simp only [State.next, hnodes q hq]
  have hprev : ∀ q, q ≠ s.brk → (Cache.created s k v).prev q = s.prev q := by
    intro q hq
    simp only [State.prev, hnodes q hq]
  have hne : ∀ u ∈ xs, u ≠ s.brk := fun u hu e => hx (e ▸ hu)
  constructor
  · show Linked _ _ s.head ((Cache.created s k v).next s.head) xs
      ((Cache.created s k v).prev s.tail) s.tail
    rw [hnext _ hhead.symm, hprev _ htail.symm]
    exact h.linked.congr (fun u hu => hnext u (hne u hu)) fun u hu => hprev u (hne u hu)
  · exact h.nodup
  · exact h.head_notMem
  · exact h.tail_notMem
  · exact h.ends
  · show ((Cache.created s k v).nodes s.head).isSome
    rw [hnodes _ hhead.symm]
    exact h.head_some
  · show ((Cache.created s k v).nodes s.tail).isSome
    rw [hnodes _ htail.symm]
    exact h.tail_some
  · intro u hu
    rw [hnodes u (hne u hu)]
    exact h.nodes_some u hu

theorem Cached.created (h : Cached s xs) : Cached (created s k v) xs where
  chain := by
    refine h.chain.created h.brk_notMem ?_ ?_
    · intro e
      exact Nat.lt_irrefl _ (e ▸ (h.below _ h.chain.head_some).2 : s.brk < s.brk)
    · intro e
      exact Nat.lt_irrefl _ (e ▸ (h.below _ h.chain.tail_some).2 : s.brk < s.brk)
  slotted := h.slotted
  entry p hp := by
    have hne : p ≠ s.brk := fun e => h.brk_notMem (e ▸ hp)
    simp only [State.keyOf, State.valueOf, created_nodes_of_ne hne]
    exact h.entry p hp
  count := h.count
  total := h.total
  room := h.room
  below p hp := by
    show 0 < p ∧ p < s.brk + 1
    by_cases hpb : p = s.brk
    · have hpos := (h.below _ h.chain.head_some).1
      have hlt := (h.below _ h.chain.head_some).2
      subst hpb
      exact ⟨Nat.lt_trans hpos hlt, Nat.lt_succ_self _⟩
    · rw [created_nodes_of_ne hpb] at hp
      exact ⟨(h.below p hp).1, Nat.lt_succ_of_lt (h.below p hp).2⟩

theorem Chain.free (h : Chain s xs) (hp : p ∉ xs) (hhead : p ≠ s.head) (htail : p ≠ s.tail) :
    Chain { s with nodes := Function.update s.nodes p none } xs := by
  have hnext : ∀ q, q ≠ p →
      State.next { s with nodes := Function.update s.nodes p none } q = s.next q := by
    intro q hq
    simp [State.next, hq]
  have hprev : ∀ q, q ≠ p →
      State.prev { s with nodes := Function.update s.nodes p none } q = s.prev q := by
    intro q hq
    simp [State.prev, hq]
  have hne : ∀ u ∈ xs, u ≠ p := fun u hu e => hp (e ▸ hu)
  constructor
  · show Linked _ _ s.head (State.next _ s.head) xs (State.prev _ s.tail) s.tail
    rw [hnext _ hhead.symm, hprev _ htail.symm]
    exact h.linked.congr (fun u hu => hnext u (hne u hu)) fun u hu => hprev u (hne u hu)
  · exact h.nodup
  · exact h.head_notMem
  · exact h.tail_notMem
  · exact h.ends
  · simpa [hhead.symm] using h.head_some
  · simpa [htail.symm] using h.tail_some
  · intro u hu
    simpa [hne u hu] using h.nodes_some u hu

/-! ## Eviction -/

/-- The node `t` is gone from the list, from its slot and from memory. -/
structure Evicted (s : State) (t : Ptr) (ys : List Ptr) (s' : State) : Prop where
  rest : s' = { s with nodes := s'.nodes, cachemap := s'.cachemap, locks := s'.locks,
                       ticks := s'.ticks }
  chain : Chain s' ys
  slotted : Slotted s'.cachemap ys
  idle : s'.locks.Idle
  slot : ∀ i, s.cachemap i ≠ t → s'.cachemap i = s.cachemap i
  gone : s'.nodes t = none
  isSome : ∀ p, p ≠ t → (s'.nodes p).isSome = (s.nodes p).isSome
  keyOf : ∀ p, p ≠ t → s'.keyOf p = s.keyOf p
  valueOf : ∀ p, p ≠ t → s'.valueOf p = s.valueOf p
  stamp : (∀ t, s.clock t ≠ 0) → ∀ p, p ≠ t → s.stampOf p ≠ 0 → s'.stampOf p ≠ 0

theorem Kept.of_stamp (hn : s.nodes p = some n) {ts : UInt64} (hts : ts ≠ 0) :
    Kept s (s.put p { n with timestamp := ts }) where
  rest := rfl
  isSome q := by by_cases hq : q = p <;> simp [hq, hn]
  keyOf q := by by_cases hq : q = p <;> simp [State.keyOf, hq, hn]
  valueOf q := by by_cases hq : q = p <;> simp [State.valueOf, hq, hn]
  stamp _ q hq := by
    by_cases hqp : q = p
    · simpa [State.stampOf, hqp] using hts
    · simpa [State.stampOf, hqp] using hq

/-- `DeleteFromTail` evicts the last node, when the search for its key ends at
the slot that holds it. -/
theorem deleteFromTail_spec (h : Cached s (ys ++ [t])) (hidle : s.locks.Idle)
    (hkey : s.keyOf t = some kt) (hown : lookup s kt = .ok (some i)) (hi : s.cachemap i = t) :
    ∃ s', deleteFromTail noLocks s = .ok s' ∧ Evicted s t ys s' := by
  obtain ⟨tl, htl⟩ := h.chain.some_of (p := s.tail) (.inr (.inr rfl))
  obtain ⟨n, hn⟩ := h.chain.some_of (p := t) (.inl (by simp))
  have htlprev : tl.prev = t :=
    (State.prev_of htl).symm.trans (h.chain.last hn).1
  have hnkey : n.key = some kt := by simpa [State.keyOf, hn] using hkey
  obtain ⟨pos, s₁, e₁, hpos, hidle₁, hk₁, hc₁⟩ := getCachePos_spec noLocks_balanced h hidle kt
  obtain rfl : pos = some i := by
    rw [hown] at hpos
    exact (Except.ok.inj hpos).symm
  -- the timestamp of the node
  obtain ⟨n₁, hn₁⟩ := hc₁.chain.some_of (p := t) (.inl (by simp))
  let m : CacheNode := { n₁ with timestamp := -1 }
  have e₂ : s₁.write t (fun n => { n with timestamp := -1 }) = .ok (s₁.put t m) :=
    State.write_of hn₁ _
  have hk₂ : Kept s₁ (s₁.put t m) := .of_stamp hn₁ (by decide)
  have hc₂ : Chain (s₁.put t m) (ys ++ [t]) := hc₁.chain.put hn₁ rfl rfl
  have hm : (s₁.put t m).nodes t = some m := by simp
  -- the links around it
  obtain ⟨s₃, s₄, e₃, -, htail₃, e₄, hm₄, hrel, hc₄⟩ := bypass_spec hc₂ hm
  have hmnext : m.next = (s₁.put t m).tail := (hc₂.last hm).2
  rw [List.append_nil] at hc₄
  have hk : Kept s s₄ := (hk₁.trans hk₂).trans (.of_relinked hrel)
  have hty : t ∉ ys := by
    have hnd := h.chain.nodup
    exact fun ht => (List.nodup_append.mp hnd).2.2 t ht t (by simp) rfl
  have ht0 : t ≠ 0 := h.ne_zero (by simp)
  let s' : State :=
    { s₄.setSlot i 0 with nodes := Function.update s₄.nodes t none }
  have hnodes : ∀ p, p ≠ t → s'.nodes p = s₄.nodes p := fun p hp => by simp [s', hp]
  refine ⟨s', ?_, ?_⟩
  · rw [hmnext] at e₃ e₄
    have e₅ : (s₄.setSlot i 0).free t = .ok s' := by
      simp [State.free, State.setSlot, hm₄, s']
    simp only [deleteFromTail, State.deref_of htl, htlprev, State.deref_of hn, hnkey, e₁, e₂,
      State.deref_of hm, e₃, htail₃, e₄, e₅, bind, Except.bind]
  · have hhead : t ≠ s₄.head := by
      intro e
      exact hc₂.head_notMem (by rw [← hrel.head_eq, ← e]; simp)
    have htail : t ≠ s₄.tail := by
      intro e
      exact hc₂.tail_notMem (by rw [← hrel.tail_eq, ← e]; simp)
    have hchain : Chain s' ys :=
      (hc₄.free hty hhead htail).congr rfl rfl rfl
    have hrest := hk.rest
    have hmap : s₄.cachemap = s.cachemap := hk.cachemap_eq
    constructor
    · simp only [s', State.setSlot]
      rw [hrest]
    · exact hchain
    · have hclear := h.slotted.clear hi ht0 h.chain.nodup
      rw [List.append_nil] at hclear
      show Slotted (Function.update s₄.cachemap i 0) ys
      rw [hmap]
      exact hclear
    · show s₄.locks.Idle
      rw [hrel.rest]
      exact hidle₁
    · intro j hj
      have hji : j ≠ i := by
        rintro rfl
        exact hj hi
      show Function.update s₄.cachemap i 0 j = s.cachemap j
      rw [Function.update_of_ne hji, hmap]
    · simp [s']
    · intro p hp
      rw [hnodes p hp, hk.isSome]
    · intro p hp
      rw [← hk.keyOf]
      simp only [State.keyOf, hnodes p hp]
    · intro p hp
      rw [← hk.valueOf]
      simp only [State.valueOf, hnodes p hp]
    · intro hclock p hp hstamp
      have hst := hk.stamp hclock p hstamp
      simpa only [State.stampOf, hnodes p hp] using hst

/-! ## Insertion -/

/-- The new node `s.brk` stands ready, and there is room for it behind `head`
and in the array. -/
structure Ready (s : State) (k : Key) (v : CString) (ys : List Ptr) (s₁ : State) : Prop where
  chain : Chain s₁ ys
  slotted : Slotted s₁.cachemap ys
  head : s₁.head = s.head
  tail : s₁.tail = s.tail
  room : ys.length < maxCacheCapacity
  count : s₁.currentCapacity = ys.length + 1
  total : s₁.totalCapacity = maxCacheCapacity
  brk : s₁.brk = s.brk + 1
  clock : s₁.clock = s.clock
  below : ∀ p, (s₁.nodes p).isSome → 0 < p ∧ p < s.brk + 1
  key : s₁.keyOf s.brk = some k
  value : s₁.valueOf s.brk = some v
  stamp : (∀ t, s.clock t ≠ 0) → s₁.stampOf s.brk ≠ 0
  keyOf : ∀ p ∈ ys, s₁.keyOf p = s.keyOf p
  valueOf : ∀ p ∈ ys, s₁.valueOf p = s.valueOf p
  stampOf : (∀ t, s.clock t ≠ 0) → ∀ p ∈ ys, s.stampOf p ≠ 0 → s₁.stampOf p ≠ 0
  slot : ∀ i, s.cachemap i ∈ ys → s₁.cachemap i = s.cachemap i
  unallocated : ∀ p, p ≠ s.brk → s.nodes p = none → s₁.nodes p = none

structure Inserted (s : State) (k : Key) (v : CString) (ys : List Ptr) (s' : State) : Prop where
  cached : Cached s' (s.brk :: ys)
  brk : s'.brk = s.brk + 1
  clock : s'.clock = s.clock
  key : s'.keyOf s.brk = some k
  value : s'.valueOf s.brk = some v
  stamp : (∀ t, s.clock t ≠ 0) → s'.stampOf s.brk ≠ 0
  keyOf : ∀ p ∈ ys, s'.keyOf p = s.keyOf p
  valueOf : ∀ p ∈ ys, s'.valueOf p = s.valueOf p
  stampOf : (∀ t, s.clock t ≠ 0) → ∀ p ∈ ys, s.stampOf p ≠ 0 → s'.stampOf p ≠ 0
  slot : ∀ i, s.cachemap i ∈ ys → s'.cachemap i = s.cachemap i
  unallocated : ∀ p, p ≠ s.brk → s.nodes p = none → s'.nodes p = none

theorem Ready.inserted (h : Ready s k v ys s₁) (hc : Cached s xs) (hys : ys ⊆ xs)
    (hv : Storable v) :
    ∃ s₂ i, createAfterHead s₁ s.brk = .ok s₂ ∧ getFreeCachePos s₂ = some i ∧
      Relinked s₁ s₂ ∧ Inserted s k v ys (s₂.setSlot i s.brk) := by
  have hbrk : s.brk ∉ ys := fun hb => hc.brk_notMem (hys hb)
  have hb0 : s.brk ≠ 0 := by
    intro e
    have hlt := (hc.below _ hc.chain.head_some).2
    exact Nat.not_lt_zero _ (e ▸ hlt)
  have hsome : (s₁.nodes s.brk).isSome := by
    cases hn : s₁.nodes s.brk with
    | none => simpa [State.keyOf, hn] using h.key
    | some n => rfl
  have hends : ∀ e, (s.nodes e).isSome → s.brk ≠ e := by
    rintro e he rfl
    exact Nat.lt_irrefl _ (hc.below _ he).2
  have hhead : s.brk ≠ s₁.head := by
    rw [h.head]
    exact hends _ hc.chain.head_some
  have htail : s.brk ≠ s₁.tail := by
    rw [h.tail]
    exact hends _ hc.chain.tail_some
  obtain ⟨s₂, heq, hrel, hchain⟩ := createAfterHead_spec h.chain hbrk hhead htail hsome
  have hkept : Kept s₁ s₂ := .of_relinked hrel
  obtain ⟨i, hfree, hi⟩ := getFreeCachePos_some (s := s₂) (by
    rw [hrel.cachemap_eq]
    exact h.slotted.exists_free h.room)
  have hi₁ : s₁.cachemap i = 0 := by rw [← hrel.cachemap_eq, hi]
  have h0 : 0 ∉ ys := fun h0 => hc.zero_notMem (hys h0)
  have hslot : (s₂.setSlot i s.brk).cachemap = Function.update s₁.cachemap i s.brk := by
    show Function.update s₂.cachemap i s.brk = _
    rw [hrel.cachemap_eq]
  have hne : ∀ p ∈ ys, p ≠ s.brk := fun p hp e => hbrk (e ▸ hp)
  refine ⟨s₂, i, heq, hfree, hrel, ?_⟩
  constructor
  · constructor
    · exact hchain.congr rfl rfl rfl
    · rw [hslot]
      exact h.slotted.set hi₁ hb0 h0 hbrk
    · intro p hp
      show ∃ k v, s₂.keyOf p = some k ∧ s₂.valueOf p = some v ∧ Storable v
      rw [hkept.keyOf, hkept.valueOf]
      rcases List.mem_cons.mp hp with rfl | hp
      · exact ⟨k, v, h.key, h.value, hv⟩
      · rw [h.keyOf p hp, h.valueOf p hp]
        exact hc.entry p (hys hp)
    · show s₂.currentCapacity = _
      rw [hkept.current_eq, h.count, List.length_cons]
    · exact hkept.total_eq.trans h.total
    · exact h.room
    · intro p hp
      show 0 < p ∧ p < s₂.brk
      rw [hkept.brk_eq, h.brk]
      exact h.below p (by rw [← hrel.isSome]; exact hp)
  · exact hkept.brk_eq.trans h.brk
  · exact hkept.clock_eq.trans h.clock
  · exact (hkept.keyOf _).trans h.key
  · exact (hkept.valueOf _).trans h.value
  · exact fun hclock => hkept.stamp (h.clock ▸ hclock) _ (h.stamp hclock)
  · exact fun p hp => (hkept.keyOf p).trans (h.keyOf p hp)
  · exact fun p hp => (hkept.valueOf p).trans (h.valueOf p hp)
  · exact fun hclock p hp hst =>
      hkept.stamp (h.clock ▸ hclock) p (h.stampOf hclock p hp hst)
  · intro j hj
    have hji : j ≠ i := by
      rintro rfl
      rw [← h.slot j hj, hi₁] at hj
      exact h0 hj
    rw [hslot, Function.update_of_ne hji, h.slot j hj]
  · intro p hp hnone
    have hsame := hrel.isSome p
    rw [h.unallocated p hp hnone] at hsame
    show s₂.nodes p = none
    simpa using hsame

theorem created_keyOf (h : p ≠ s.brk) : (created s k v).keyOf p = s.keyOf p := by
  simp only [State.keyOf, created_nodes_of_ne h]

theorem created_valueOf (h : p ≠ s.brk) : (created s k v).valueOf p = s.valueOf p := by
  simp only [State.valueOf, created_nodes_of_ne h]

theorem created_stampOf (h : p ≠ s.brk) : (created s k v).stampOf p = s.stampOf p := by
  simp only [State.stampOf, created_nodes_of_ne h]

theorem ready_of_room (h : Cached s xs) (hroom : xs.length < maxCacheCapacity) :
    Ready s k v xs { created s k v with currentCapacity := s.currentCapacity + 1 } := by
  have hc : Cached (created s k v) xs := h.created
  have hne : ∀ p ∈ xs, p ≠ s.brk := fun p hp e => h.brk_notMem (e ▸ hp)
  constructor
  · exact hc.chain.congr rfl rfl rfl
  · exact h.slotted
  · rfl
  · rfl
  · exact hroom
  · show s.currentCapacity + 1 = _
    rw [h.count]
  · exact h.total
  · rfl
  · rfl
  · exact hc.below
  · show (created s k v).keyOf s.brk = _
    simp [State.keyOf, created_nodes_self]
  · show (created s k v).valueOf s.brk = _
    simp [State.valueOf, created_nodes_self]
  · intro hclock
    show (created s k v).stampOf s.brk ≠ 0
    simpa [State.stampOf, created_nodes_self, State.now] using hclock s.ticks
  · exact fun p hp => created_keyOf (hne p hp)
  · exact fun p hp => created_valueOf (hne p hp)
  · intro _ p hp hst
    show (created s k v).stampOf p ≠ 0
    rwa [created_stampOf (hne p hp)]
  · exact fun _ _ => rfl
  · intro p hp hnone
    show (created s k v).nodes p = none
    rw [created_nodes_of_ne hp, hnone]

theorem findPos_congr (hmap : s₁.cachemap = s.cachemap)
    (hnodes : ∀ i, s.cachemap i ≠ 0 → s₁.nodes (s.cachemap i) = s.nodes (s.cachemap i))
    (k : Key) (is : List Pos) : findPos s₁ k is = findPos s k is := by
  induction is with
  | nil => rfl
  | cons i is ih =>
      by_cases hi : s.cachemap i = 0
      · simp [findPos, hmap, hi, ih]
      · simp [findPos, hmap, hi, State.deref, hnodes i hi, ih]

theorem lookup_created (h : Cached s xs) (k' : Key) :
    lookup (created s k v) k' = lookup s k' := by
  have hnodes : ∀ i, s.cachemap i ≠ 0 →
      (created s k v).nodes (s.cachemap i) = s.nodes (s.cachemap i) := fun i hi =>
    created_nodes_of_ne fun e => h.brk_notMem (e ▸ h.slotted.mem i hi)
  have hmap : (created s k v).cachemap = s.cachemap := rfl
  exact findPos_congr hmap hnodes k' _

def EvictsOwn (s : State) (t : Ptr) : Prop :=
  ∃ kt i, s.keyOf t = some kt ∧ lookup s kt = .ok (some i) ∧ s.cachemap i = t

theorem Cached.evictsOwn (h : Cached s xs) (hst : ∀ p ∈ xs, s.stampOf p ≠ 0)
    (hnd : (xs.map s.keyOf).Nodup) (ht : t ∈ xs) : EvictsOwn s t := by
  obtain ⟨kt, v, hkey, -⟩ := h.entry t ht
  rcases lookup_spec h kt with ⟨hnone, -⟩ | ⟨i, hsome, h0, hi, -⟩
  · exact absurd hkey (h.not_key_of_miss hst hnone t ht)
  · exact ⟨kt, i, hkey, hsome,
      List.inj_on_of_nodup_map hnd (h.slotted.mem i h0) ht (hi.trans hkey.symm)⟩

theorem ready_of_full (h : Cached s (ys ++ [t])) (hidle : s.locks.Idle)
    (hfull : (ys ++ [t]).length = maxCacheCapacity) (hown : EvictsOwn s t) :
    ∃ s₁, deleteFromTail noLocks (created s k v) = .ok s₁ ∧ Ready s k v ys s₁ ∧
      s₁.nodes t = none ∧ s₁.locks.Idle := by
  obtain ⟨kt, i, hkey, hlook, hi⟩ := hown
  have hc : Cached (created s k v) (ys ++ [t]) := h.created
  have hne : ∀ p ∈ ys ++ [t], p ≠ s.brk := fun p hp e => h.brk_notMem (e ▸ hp)
  have htb : t ≠ s.brk := hne t (by simp)
  have hty : ∀ p ∈ ys, p ≠ t := by
    rintro p hp rfl
    exact (List.nodup_append.mp h.chain.nodup).2.2 p hp p (by simp) rfl
  obtain ⟨s₁, heq, hev⟩ := deleteFromTail_spec hc hidle
    ((created_keyOf htb).trans hkey) ((lookup_created h kt).trans hlook) hi
  refine ⟨s₁, heq, ?_, hev.gone, hev.idle⟩
  have hlen : ys.length + 1 = maxCacheCapacity := by simpa using hfull
  have hhead : s₁.head = s.head := by rw [hev.rest]; rfl
  have htail : s₁.tail = s.tail := by rw [hev.rest]; rfl
  constructor
  · exact hev.chain
  · exact hev.slotted
  · exact hhead
  · exact htail
  · exact Nat.lt_of_succ_le hlen.le
  · rw [hev.rest]
    show s.currentCapacity = _
    rw [h.count, hfull, hlen]
  · rw [hev.rest]
    exact h.total
  · rw [hev.rest]
    rfl
  · rw [hev.rest]
    rfl
  · intro p hp
    by_cases hpt : p = t
    · rw [hpt, hev.gone] at hp
      cases hp
    · exact hc.below p (by rw [← hev.isSome p hpt]; exact hp)
  · rw [hev.keyOf _ htb.symm]
    simp [State.keyOf, created_nodes_self]
  · rw [hev.valueOf _ htb.symm]
    simp [State.valueOf, created_nodes_self]
  · intro hclock
    refine hev.stamp hclock _ htb.symm ?_
    simpa [State.stampOf, created_nodes_self, State.now] using hclock s.ticks
  · intro p hp
    rw [hev.keyOf p (hty p hp), created_keyOf (hne p (by simp [hp]))]
  · intro p hp
    rw [hev.valueOf p (hty p hp), created_valueOf (hne p (by simp [hp]))]
  · intro hclock p hp hst
    refine hev.stamp hclock p (hty p hp) ?_
    rwa [created_stampOf (hne p (by simp [hp]))]
  · intro j hj
    exact hev.slot j (hty _ hj)
  · intro p hp hnone
    by_cases hpt : p = t
    · rw [hpt, hev.gone]
    · have hsame := hev.isSome p hpt
      rw [created_nodes_of_ne hp, hnone] at hsame
      simpa using hsame

theorem insertNode_of_room (ops : LockOps) (h : Cached s xs) (hroom : xs.length < maxCacheCapacity)
    (hv : Storable v) :
    ∃ s₁ i, insertNode ops s k v = .ok (s.brk, s₁) ∧ getFreeCachePos s₁ = some i ∧
      s₁.locks = s.locks ∧ Inserted s k v xs (s₁.setSlot i s.brk) := by
  have hready : Ready s k v xs { created s k v with currentCapacity := s.currentCapacity + 1 } :=
    ready_of_room h hroom
  obtain ⟨s₁, i, heq, hfree, hrel, hins⟩ := hready.inserted h (List.Subset.refl _) hv
  have hcap : ¬(created s k v).currentCapacity ≥ (created s k v).totalCapacity := by
    show ¬s.currentCapacity ≥ s.totalCapacity
    rw [h.count, h.total]
    exact Nat.not_le.mpr hroom
  refine ⟨s₁, i, ?_, hfree, by rw [hrel.rest]; rfl, hins⟩
  simp only [insertNode, createNode_eq, if_neg hcap, bind, Except.bind]
  simp only [show (created s k v).currentCapacity = s.currentCapacity from rfl, heq]

theorem insertNode_of_full (h : Cached s (ys ++ [t])) (hidle : s.locks.Idle)
    (hfull : (ys ++ [t]).length = maxCacheCapacity) (hown : EvictsOwn s t) (hv : Storable v) :
    ∃ s₁ i, insertNode noLocks s k v = .ok (s.brk, s₁) ∧ getFreeCachePos s₁ = some i ∧
      s₁.locks.Idle ∧ s₁.nodes t = none ∧ Inserted s k v ys (s₁.setSlot i s.brk) := by
  obtain ⟨s₀, hdel, hready, hgone, hidle₀⟩ := ready_of_full (k := k) (v := v) h hidle hfull hown
  obtain ⟨s₁, i, heq, hfree, hrel, hins⟩ :=
    hready.inserted h (List.subset_append_left _ _) hv
  have hcap : (created s k v).currentCapacity ≥ (created s k v).totalCapacity := by
    show s.currentCapacity ≥ s.totalCapacity
    rw [h.count, h.total]
    exact hfull.ge
  have hgone₁ : s₁.nodes t = none := by
    have hsame := hrel.isSome t
    rw [hgone] at hsame
    simpa using hsame
  refine ⟨s₁, i, ?_, hfree, by rw [hrel.rest]; exact hidle₀, hgone₁, hins⟩
  simp only [insertNode, createNode_eq, if_pos hcap, hdel, heq, bind, Except.bind]

theorem insertEntry_of_node {s₁ : State} (hnode : insertNode ops s k v = .ok (p, s₁))
    (hfree : getFreeCachePos s₁ = some i) : insertEntry ops s k v = .ok (s₁.setSlot i p) := by
  simp only [insertEntry, hnode, hfree, bind, Except.bind]

end CsappLabs.Proxy.Cache
