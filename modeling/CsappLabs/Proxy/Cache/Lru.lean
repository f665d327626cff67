import CsappLabs.Proxy.Cache.Locking
import Mathlib.Algebra.Order.BigOperators.Group.List
import Mathlib.Algebra.Order.Ring.Nat

/-!
# The cache as a bounded map

One thread uses a cache that is not locked, and the clock never reads zero.
The keys of the list are then the ten most recently used ones, in this order.
The values are those of the map as long as no key is stored again with another
value: the branch for a key that is found drops the value it is passed.
-/

namespace CsappLabs.Proxy.Cache

open CsappLabs.Foundation

variable {s s' : State} {p t : Ptr} {i : Pos} {k : Key} {v : CString} {c : Call} {cs : List Call}
  {xs ys : List Ptr} {u : Usage Key CString} {clock : Nat → UInt64}

def use (u : Usage Key CString) : Call → Usage Key CString
  | .insert k (some v) => if Storable v then u.store k v else u
  | .insert _ none => u
  | .read k => u.read maxCacheCapacity k

def usage (cs : List Call) : Usage Key CString := cs.foldl use .empty

def recent (u : Usage Key CString) : List Key := (recency u.uses).take maxCacheCapacity

structure Tracks (s : State) (xs : List Ptr) (u : Usage Key CString) : Prop where
  cached : Cached s xs
  idle : s.locks.Idle
  clock : ∀ t, s.clock t ≠ 0
  stamped : ∀ p ∈ xs, s.stampOf p ≠ 0
  keys : xs.map s.keyOf = (recent u).map some
  latest : ∀ k ∈ u.uses, (u.latest k).isSome

namespace Tracks

theorem mem_keys (h : Tracks s xs u) (hp : p ∈ xs) (hk : s.keyOf p = some k) : k ∈ recent u := by
  have hmem : some k ∈ xs.map s.keyOf := hk ▸ List.mem_map_of_mem hp
  rw [h.keys] at hmem
  simpa using hmem

theorem exists_node (h : Tracks s xs u) (hk : k ∈ recent u) : ∃ p ∈ xs, s.keyOf p = some k := by
  have hmem : some k ∈ (recent u).map some := List.mem_map_of_mem hk
  rw [← h.keys] at hmem
  exact List.mem_map.mp hmem

theorem nodup_keys (h : Tracks s xs u) : (xs.map s.keyOf).Nodup := by
  rw [h.keys]
  exact ((nodup_recency u.uses).sublist (List.take_sublist _ _)).map (Option.some_injective _)

theorem key_inj (h : Tracks s xs u) (hp : p ∈ xs) (ht : t ∈ xs) (he : s.keyOf p = s.keyOf t) :
    p = t := List.inj_on_of_nodup_map h.nodup_keys hp ht he

theorem length_eq (h : Tracks s xs u) : xs.length = (recent u).length := by
  have hlen := congrArg List.length h.keys
  simpa using hlen

theorem lookup_cases (h : Tracks s xs u) (k : Key) :
    (lookup s k = .ok none ∧ k ∉ recent u) ∨
      ∃ i, lookup s k = .ok (some i) ∧ k ∈ recent u ∧ s.cachemap i ∈ xs ∧
        s.keyOf (s.cachemap i) = some k := by
  rcases lookup_spec h.cached k with ⟨hnone, -⟩ | ⟨i, hsome, h0, hkey, -⟩
  · refine .inl ⟨hnone, fun hk => ?_⟩
    obtain ⟨p, hp, hpk⟩ := h.exists_node hk
    exact h.cached.not_key_of_miss h.stamped hnone p hp hpk
  · have hmem := h.cached.slotted.mem i h0
    exact .inr ⟨i, hsome, h.mem_keys hmem hkey, hmem, hkey⟩

theorem evictsOwn (h : Tracks s xs u) (ht : t ∈ xs) : EvictsOwn s t :=
  h.cached.evictsOwn h.stamped h.nodup_keys ht

theorem touched (h : Tracks s xs u) (hp : p ∈ xs) (hkey : s.keyOf p = some k) (hkept : Kept s s')
    (hidle : s'.locks.Idle) (hc : Cached s' (touch p xs))
    (latest : Key → Option CString) (hlatest : ∀ k' ∈ k :: u.uses, (latest k').isSome) :
    Tracks s' (touch p xs) ⟨k :: u.uses, latest⟩ where
  cached := hc
  idle := hidle
  clock := by rw [hkept.clock_eq]; exact h.clock
  stamped q hq := by
    refine hkept.stamp h.clock q (h.stamped q ?_)
    rcases mem_touch.mp hq with rfl | hq
    · exact hp
    · exact hq
  keys := by
    have hfun : s'.keyOf = s.keyOf := funext hkept.keyOf
    rw [hfun, map_touch fun q hq => h.key_inj hq hp, h.keys, hkey,
      ← map_touch fun q _ => Option.some_inj.mp]
    show _ = ((touch k (recency u.uses)).take maxCacheCapacity).map some
    rw [take_touch_of_mem (h.mem_keys hp hkey)]
    rfl
  latest := hlatest

theorem kept (h : Tracks s xs u) (hkept : Kept s s') (hidle : s'.locks.Idle)
    (hc : Cached s' xs) : Tracks s' xs u where
  cached := hc
  idle := hidle
  clock := by rw [hkept.clock_eq]; exact h.clock
  stamped q hq := hkept.stamp h.clock q (h.stamped q hq)
  keys := by
    have hfun : s'.keyOf = s.keyOf := funext hkept.keyOf
    rw [hfun, h.keys]
  latest := h.latest

theorem inserted (h : Tracks s xs u) (hk : k ∉ recent u) (hys : ys ⊆ xs)
    (hkeys : ys.map s.keyOf = ((recency u.uses).take 9).map some)
    (hins : Inserted s k v ys s') (hidle : s'.locks.Idle) :
    Tracks s' (s.brk :: ys) (u.store k v) where
  cached := hins.cached
  idle := hidle
  clock := by rw [hins.clock]; exact h.clock
  stamped q hq := by
    rcases List.mem_cons.mp hq with rfl | hq
    · exact hins.stamp h.clock
    · exact hins.stampOf h.clock q hq (h.stamped q (hys hq))
  keys := by
    show _ = ((touch k (recency u.uses)).take (9 + 1)).map some
    rw [take_touch_of_notMem hk, List.map_cons, List.map_cons, hins.key, ← hkeys]
    exact congrArg _ (List.map_congr_left hins.keyOf)
  latest k' hk' := by
    show (if k' = k then some v else u.latest k').isSome
    split
    · rfl
    · next hne => exact h.latest k' ((List.mem_cons.mp hk').resolve_left hne)

theorem insert_new (h : Tracks s xs u) (hv : Storable v) (hpos : lookup s k = .ok none) :
    ∃ s' ys, insertCache noLocks s k.host k.port k.path (some v) = .ok s' ∧ s'.locks.Idle ∧
      ys ⊆ xs ∧ ys.map s.keyOf = ((recency u.uses).take 9).map some ∧ Inserted s k v ys s' := by
  have hlen : xs.length = min 10 (recency u.uses).length := by
    rw [h.length_eq, recent, List.length_take]
  rcases Nat.lt_or_ge xs.length maxCacheCapacity with hroom | hfull
  · obtain ⟨s', heq, hidle, hins⟩ :=
      insertCache_of_room noLocks_balanced h.cached h.idle hv hpos hroom
    refine ⟨s', xs, heq, hidle, List.Subset.refl _, ?_, hins⟩
    have hshort : (recency u.uses).length ≤ 9 := by
      have hroom' : xs.length < 10 := hroom
      omega
    rw [h.keys, recent, List.take_of_length_le hshort,
      List.take_of_length_le (hshort.trans (by decide))]
  · obtain ⟨heq10, ys, t, rfl⟩ := h.cached.full hfull
    obtain ⟨s', heq, hidle, hins⟩ :=
      insertCache_of_full h.cached h.idle hv hpos heq10 (h.evictsOwn (by simp))
    refine ⟨s', ys, heq, hidle, List.subset_append_left _ _, ?_, hins⟩
    have hlast : (recent u).dropLast = (recency u.uses).take 9 := by
      rw [List.dropLast_eq_take, ← h.length_eq, heq10, recent, List.take_take]
      rfl
    have hkeys := congrArg List.dropLast h.keys
    rwa [← List.map_dropLast, List.dropLast_concat, ← List.map_dropLast, hlast] at hkeys

end Tracks

def Values (s : State) (xs : List Ptr) (u : Usage Key CString) : Prop :=
  ∀ p ∈ xs, ∀ k, s.keyOf p = some k → s.valueOf p = u.latest k

/-- The call stores no recent key with another value. -/
def Unchanged (u : Usage Key CString) : Call → Prop
  | .insert k (some v) => Storable v → k ∈ recent u → u.latest k = some v
  | _ => True

def usedBy (s : State) : Call → Option Key
  | .insert k (some v) => if Storable v then some k else none
  | .insert _ none => none
  | .read k =>
      match readCache noLocks s k with
      | .ok (some _, _) => some k
      | _ => none

def FromCall (s s' : State) (xs : List Ptr) (u : Usage Key CString) (c : Call) (p : Ptr) : Prop :=
  p ∈ xs ∧ s'.keyOf p = s.keyOf p ∧ s'.valueOf p = s.valueOf p ∨
    ∃ k v, c = .insert k (some v) ∧ Storable v ∧ k ∉ recent u ∧
      s'.keyOf p = some k ∧ s'.valueOf p = some v

theorem fromCall_of_kept (hkept : Kept s s') (c : Call) (hp : p ∈ xs) :
    FromCall s s' xs u c p :=
  .inl ⟨hp, hkept.keyOf p, hkept.valueOf p⟩

theorem mem_of_mem_touch (hp : p ∈ touch t xs) (ht : t ∈ xs) : p ∈ xs := by
  rcases mem_touch.mp hp with rfl | hp
  · exact ht
  · exact hp

theorem call_tracks (h : Tracks s xs u) (c : Call) :
    ∃ s' xs', call noLocks s c = .ok s' ∧ Tracks s' xs' (use u c) ∧
      (use u c).uses = (usedBy s c).toList ++ u.uses ∧ ∀ p ∈ xs', FromCall s s' xs u c p := by
  cases c with
  | read k =>
      rcases readCache_spec noLocks_balanced h.cached h.idle k with
        ⟨hpos, s', heq, hidle, hkept, hc⟩ | ⟨i, s', hpos, heq, hidle, hkept, hc⟩
      · have hk : k ∉ recent u := by
          rcases h.lookup_cases k with ⟨-, hk⟩ | ⟨i, hsome, -⟩
          · exact hk
          · rw [hpos] at hsome
            cases hsome
        have huse : use u (.read k) = u := by
          have hans : u.answer maxCacheCapacity k = none := if_neg hk
          simp [use, Usage.read, hans]
        rw [huse]
        exact ⟨s', xs, by simp [call, heq, Except.map], h.kept hkept hidle hc,
          by simp [usedBy, heq], fun p hp => fromCall_of_kept hkept _ hp⟩
      · rcases h.lookup_cases k with ⟨hnone, -⟩ | ⟨j, hsome, hk, hmem, hkey⟩
        · rw [hpos] at hnone
          cases hnone
        · obtain rfl : i = j := by rw [hpos] at hsome; simpa using hsome
          have huses : k ∈ u.uses := mem_recency.mp (List.mem_of_mem_take hk)
          obtain ⟨w, hw⟩ := Option.isSome_iff_exists.mp (h.latest k huses)
          have huse : use u (.read k) = ⟨k :: u.uses, u.latest⟩ := by
            have hans : u.answer maxCacheCapacity k = some w := (if_pos hk).trans hw
            simp [use, Usage.read, hans]
          obtain ⟨-, w', -, hw', -⟩ := h.cached.entry _ hmem
          rw [huse]
          refine ⟨s', _, by simp [call, heq, Except.map],
            h.touched hmem hkey hkept hidle hc u.latest fun k' hk' => ?_,
            by simp [usedBy, heq, hw'],
            fun p hp => fromCall_of_kept hkept _ (mem_of_mem_touch hp hmem)⟩
          rcases List.mem_cons.mp hk' with rfl | hk'
          · exact h.latest k' huses
          · exact h.latest k' hk'
  | insert k value =>
      cases value with
      | none => exact ⟨s, xs, insertCache_null, h, rfl, fun p hp => fromCall_of_kept (.refl s) _ hp⟩
      | some v =>
          by_cases hv : Storable v
          · have huse : use u (.insert k (some v)) = u.store k v := if_pos hv
            have hused : usedBy s (.insert k (some v)) = some k := if_pos hv
            rw [huse, hused]
            rcases h.lookup_cases k with ⟨hpos, hk⟩ | ⟨i, hpos, hk, hmem, hkey⟩
            · obtain ⟨s', ys, heq, hidle, hys, hkeys, hins⟩ := h.insert_new hv hpos
              refine ⟨s', _, heq, h.inserted hk hys hkeys hins hidle, rfl, fun p hp => ?_⟩
              rcases List.mem_cons.mp hp with rfl | hp
              · exact .inr ⟨k, v, rfl, hv, hk, hins.key, hins.value⟩
              · exact .inl ⟨hys hp, hins.keyOf p hp, hins.valueOf p hp⟩
            · obtain ⟨s', heq, hidle, hkept, hc⟩ :=
                insertCache_of_hit noLocks_balanced h.cached h.idle hv hpos
              refine ⟨s', _, heq, h.touched hmem hkey hkept hidle hc _ fun k' hk' => ?_, rfl,
                fun p hp => fromCall_of_kept hkept _ (mem_of_mem_touch hp hmem)⟩
              show (if k' = k then some v else u.latest k').isSome
              split
              · rfl
              · next hne => exact h.latest k' ((List.mem_cons.mp hk').resolve_left hne)
          · have huse : use u (.insert k (some v)) = u := if_neg hv
            rw [huse]
            exact ⟨s, xs, insertCache_oversized hv, h, by simp [usedBy, hv],
              fun p hp => fromCall_of_kept (.refl s) _ hp⟩

theorem latest_use (u : Usage Key CString) (c : Call) (k : Key) :
    (use u c).latest k = u.latest k ∨ ∃ v, c = .insert k (some v) ∧ Storable v := by
  cases c with
  | read k' =>
      left
      simp only [use, Usage.read]
      split <;> rfl
  | insert k' value =>
      cases value with
      | none => exact .inl rfl
      | some v =>
          by_cases hv : Storable v
          · by_cases hk : k = k'
            · exact .inr ⟨v, by rw [hk], hv⟩
            · exact .inl (by simp [use, hv, Usage.store, hk])
          · exact .inl (by simp [use, hv])

theorem latest_insert (u : Usage Key CString) (k : Key) (hv : Storable v) :
    (use u (.insert k (some v))).latest k = some v := by
  simp [use, hv, Usage.store]

theorem values_iff_unchanged (h : Tracks s xs u) (hval : Values s xs u) {xs' : List Ptr}
    (h' : Tracks s' xs' (use u c)) (hfrom : ∀ p ∈ xs', FromCall s s' xs u c p) :
    Values s' xs' (use u c) ↔ Unchanged u c := by
  constructor
  · intro hval'
    cases c with
    | read k => trivial
    | insert k value =>
        cases value with
        | none => trivial
        | some v =>
            intro hv hk
            have hmem : k ∈ recent (use u (.insert k (some v))) := by
              have huse : use u (.insert k (some v)) = u.store k v := if_pos hv
              rw [huse]
              show k ∈ (touch k (recency u.uses)).take (9 + 1)
              simp [touch]
            obtain ⟨p, hp, hpk⟩ := h'.exists_node hmem
            have hnew := hval' p hp k hpk
            rw [latest_insert u k hv] at hnew
            rcases hfrom p hp with ⟨hpx, hkey, hvalue⟩ | ⟨k', v', he, -, hk', -⟩
            · rw [← hval p hpx k (hkey.symm.trans hpk), ← hvalue, hnew]
            · cases he
              exact absurd hk hk'
  · intro hun p hp k hk
    rcases hfrom p hp with ⟨hpx, hkey, hvalue⟩ | ⟨k', v', rfl, hv', hk', hkey, hvalue⟩
    · have hold := hval p hpx k (hkey.symm.trans hk)
      rw [hvalue, hold]
      rcases latest_use u c k with hsame | ⟨v, rfl, hv⟩
      · exact hsame.symm
      · rw [latest_insert u k hv]
        exact hun hv (h.mem_keys hpx (hkey.symm.trans hk))
    · obtain rfl : k' = k := by
        rw [hkey] at hk
        exact Option.some.inj hk
      rw [hvalue, latest_insert u k' hv']

/-! ## Runs -/

theorem tracks_init (hclock : ∀ t, clock t ≠ 0) :
    Tracks (initLRUCache clock) [] (.empty : Usage Key CString) where
  cached := cached_init clock
  idle := init_idle clock
  clock := hclock
  stamped := by simp
  keys := rfl
  latest := by simp [Usage.empty]

theorem calls_append (ops : LockOps) (s : State) (cs : List Call) (c : Call) :
    calls ops s (cs ++ [c]) = (calls ops s cs).bind fun s' => call ops s' c := by
  induction cs generalizing s with
  | nil =>
      simp only [List.nil_append, calls, bind, Except.bind]
      cases call ops s c <;> rfl
  | cons c' cs ih =>
      simp only [List.cons_append, calls, bind, Except.bind]
      cases call ops s c' with
      | error e => rfl
      | ok s₁ => exact ih s₁

theorem usage_append (cs : List Call) (c : Call) : usage (cs ++ [c]) = use (usage cs) c := by
  simp [usage]

theorem calls_track (hclock : ∀ t, clock t ≠ 0) (cs : List Call) :
    ∃ s xs, calls noLocks (initLRUCache clock) cs = .ok s ∧ Tracks s xs (usage cs) := by
  induction cs using List.reverseRecOn with
  | nil => exact ⟨_, [], rfl, tracks_init hclock⟩
  | append_singleton cs c ih =>
      obtain ⟨s, xs, heq, h⟩ := ih
      obtain ⟨s', xs', heq', h', -, -⟩ := call_tracks h c
      refine ⟨s', xs', ?_, usage_append cs c ▸ h'⟩
      rw [calls_append, heq]
      exact heq'

/-- After the calls, `read_cache` answers what the map does. -/
def Agrees (clock : Nat → UInt64) (cs : List Call) : Prop :=
  ∀ k, ∃ s s', calls noLocks (initLRUCache clock) cs = .ok s ∧
    readCache noLocks s k = .ok ((usage cs).answer maxCacheCapacity k, s')

theorem Tracks.agrees_iff (h : Tracks s xs (usage cs))
    (hs : calls noLocks (initLRUCache clock) cs = .ok s) :
    Agrees clock cs ↔ Values s xs (usage cs) := by
  constructor
  · intro hag p hp k hk
    obtain ⟨s₁, s', heq, hread⟩ := hag k
    obtain rfl : s = s₁ := by rw [hs] at heq; exact Except.ok.inj heq
    have hmem : k ∈ recent (usage cs) := h.mem_keys hp hk
    have hans : (usage cs).answer maxCacheCapacity k = (usage cs).latest k := if_pos hmem
    rcases readCache_spec noLocks_balanced h.cached h.idle k with
      ⟨hpos, -⟩ | ⟨i, s₂, hpos, heq', -⟩
    · rcases h.lookup_cases k with ⟨-, hnot⟩ | ⟨i, hsome, -⟩
      · exact absurd hmem hnot
      · rw [hpos] at hsome
        cases hsome
    · have hhit := hit_of_lookup h.cached hpos
      have hpi : s.cachemap i = p :=
        h.key_inj (h.cached.slotted.mem i hhit.1) hp (hhit.2.1.trans hk.symm)
      rw [heq', hpi, hans] at hread
      exact (Prod.mk.inj (Except.ok.inj hread)).1
  · intro hval k
    rcases readCache_spec noLocks_balanced h.cached h.idle k with
      ⟨hpos, s', heq, -⟩ | ⟨i, s', hpos, heq, -⟩
    · rcases h.lookup_cases k with ⟨-, hnot⟩ | ⟨i, hsome, -⟩
      · refine ⟨s, s', hs, ?_⟩
        have hans : (usage cs).answer maxCacheCapacity k = none := if_neg hnot
        rw [heq, hans]
      · rw [hpos] at hsome
        cases hsome
    · have hhit := hit_of_lookup h.cached hpos
      have hmem := h.cached.slotted.mem i hhit.1
      refine ⟨s, s', hs, ?_⟩
      have hans : (usage cs).answer maxCacheCapacity k = (usage cs).latest k :=
        if_pos (h.mem_keys hmem hhit.2.1)
      rw [heq, hans, hval _ hmem k hhit.2.1]


/-- The cache answers like the map after each of the calls exactly when no call
stores another value under a recent key. -/
theorem agrees_iff_unchanged (hclock : ∀ t, clock t ≠ 0) (cs : List Call) :
    (∀ ps, ps <+: cs → Agrees clock ps) ↔
      ∀ ps c, ps ++ [c] <+: cs → Unchanged (usage ps) c := by
  induction cs using List.reverseRecOn with
  | nil =>
      constructor
      · intro _ ps c hps
        simp at hps
      · intro _ ps hps
        obtain rfl := List.prefix_nil.mp hps
        exact ((tracks_init hclock).agrees_iff rfl).mpr (by simp [Values])
  | append_singleton cs c ih =>
      obtain ⟨s, xs, hs, h⟩ := calls_track hclock cs
      obtain ⟨s', xs', heq, h', -, hfrom⟩ := call_tracks h c
      have hs' : calls noLocks (initLRUCache clock) (cs ++ [c]) = .ok s' := by
        rw [calls_append, hs]
        exact heq
      have hlast : Agrees clock cs → (Agrees clock (cs ++ [c]) ↔ Unchanged (usage cs) c) := by
        intro hag
        have hiff := values_iff_unchanged h ((h.agrees_iff hs).mp hag) h' hfrom
        rw [← usage_append] at h' hiff
        exact (h'.agrees_iff hs').trans hiff
      constructor
      · intro hall ps d hps
        have hcs : ∀ ps, ps <+: cs → Agrees clock ps :=
          fun ps hps => hall ps (hps.trans (List.prefix_append _ _))
        rcases List.prefix_concat_iff.mp hps with hfull | hps
        · obtain ⟨rfl, hd⟩ := List.append_inj' hfull rfl
          obtain rfl : d = c := by simpa using hd
          exact (hlast (hcs ps (List.prefix_refl _))).mp (hall _ (List.prefix_refl _))
        · exact ih.mp hcs ps d hps
      · intro hall ps hps
        have hcs : ∀ ps, ps <+: cs → Agrees clock ps :=
          ih.mpr fun ps d hps => hall ps d (hps.trans (List.prefix_append _ _))
        rcases List.prefix_concat_iff.mp hps with rfl | hps
        · exact (hlast (hcs cs (List.prefix_refl _))).mpr (hall cs c (List.prefix_refl _))
        · exact hcs ps hps

theorem agrees_iff_unchanged_evict :
    (usage elevenPages).answer maxCacheCapacity (page 0) = none ∧
      ((∀ ps, ps <+: elevenPages ++ [.read (page 0), .read (page 1)] →
        Agrees (fun _ => 1) ps) ↔
      ∀ ps c, ps ++ [c] <+: elevenPages ++ [.read (page 0), .read (page 1)] →
        Unchanged (usage ps) c) :=
  ⟨by decide, agrees_iff_unchanged (fun _ => by decide) _⟩

/-- The second of two values stored under one key is never read. -/
theorem second_value_dropped :
    ¬∀ clock, (∀ t, clock t ≠ 0) → ∀ cs, Agrees clock cs := by
  intro hall
  obtain ⟨s, s', hs, hread⟩ := hall (fun _ => 1) (fun _ => by decide)
    [.insert (page 0) (some ⟨[120], by decide⟩), .insert (page 0) (some ⟨[121], by decide⟩)]
    (page 0)
  have hcode : ((calls noLocks (initLRUCache fun _ => 1)
      [.insert (page 0) (some ⟨[120], by decide⟩), .insert (page 0) (some ⟨[121], by decide⟩)]).bind
      fun s => readCache noLocks s (page 0)).toOption.map Prod.fst =
        some (some ⟨[120], by decide⟩) := by decide +kernel
  have hmap : (usage [.insert (page 0) (some ⟨[120], by decide⟩),
      .insert (page 0) (some ⟨[121], by decide⟩)]).answer maxCacheCapacity (page 0) =
        some ⟨[121], by decide⟩ := by decide +kernel
  rw [hmap] at hread
  rw [hs] at hcode
  simp only [Except.bind, hread, Except.toOption, Option.map_some, Option.some.injEq,
    CString.mk.injEq] at hcode
  exact absurd hcode (by decide)

/-! ## The two structures -/

def history (s : State) (us : List Key) : List Call → List Key
  | [] => us
  | c :: cs =>
      match call noLocks s c with
      | .ok s' => history s' ((usedBy s c).toList ++ us) cs
      | .error _ => us

theorem Tracks.history_eq (h : Tracks s xs u) (cs : List Call) :
    history s u.uses cs = (cs.foldl use u).uses := by
  induction cs generalizing s xs u with
  | nil => rfl
  | cons c cs ih =>
      obtain ⟨s', xs', heq, h', huses, -⟩ := call_tracks h c
      simp only [history, heq, ← huses, List.foldl_cons]
      exact ih h'

def valueSize (s : State) (p : Ptr) : Nat :=
  match s.valueOf p with
  | some v => v.strlen + 1
  | none => 0

/-- The list and the array hold the same nodes, one for each key, and the list
orders them by last use. -/
structure Represents (s : State) (xs : List Ptr) (us : List Key) : Prop where
  linked : Linked s.next s.prev s.head (s.next s.head) xs (s.prev s.tail) s.tail
  acyclic : (s.head :: xs ++ [s.tail]).Nodup
  slots : ∀ p, p ∈ xs ↔ p ≠ 0 ∧ ∃ i, s.cachemap i = p
  once : ∀ i j, s.cachemap i ≠ 0 → s.cachemap i = s.cachemap j → i = j
  keyed : ∀ p ∈ xs, (s.keyOf p).isSome
  distinct : (xs.map s.keyOf).Nodup
  count : s.currentCapacity = xs.length ∧ xs.length ≤ maxCacheCapacity
  order : xs.Pairwise fun p q =>
    ∀ k l, s.keyOf p = some k → s.keyOf q = some l → lastUse us l < lastUse us k
  last : ∀ p ∈ xs, ∀ k l, s.keyOf p = some k → s.keyOf (s.prev s.tail) = some l →
    lastUse us l ≤ lastUse us k
  free : ∀ k v, Storable v → lookup s k = .ok none →
    ∃ p s₁ i, insertNode noLocks s k v = .ok (p, s₁) ∧ getFreeCachePos s₁ = some i
  size : (xs.map (valueSize s)).sum ≤ maxCacheSize

theorem Tracks.order (h : Tracks s xs u) :
    xs.Pairwise fun p q =>
      ∀ k l, s.keyOf p = some k → s.keyOf q = some l → lastUse u.uses l < lastUse u.uses k := by
  have hpair : (xs.map s.keyOf).Pairwise fun a b =>
      ∀ k l, a = some k → b = some l → lastUse u.uses l < lastUse u.uses k := by
    rw [h.keys, List.pairwise_map]
    refine ((pairwise_recency u.uses).sublist (List.take_sublist _ _)).imp ?_
    intro k l hkl k' l' hk hl
    obtain rfl := Option.some.inj hk
    obtain rfl := Option.some.inj hl
    exact hkl
  exact List.pairwise_map.mp hpair

theorem Tracks.free (h : Tracks s xs u) (hv : Storable v) :
    ∃ p s₁ i, insertNode noLocks s k v = .ok (p, s₁) ∧ getFreeCachePos s₁ = some i := by
  rcases Nat.lt_or_ge xs.length maxCacheCapacity with hroom | hfull
  · obtain ⟨s₁, i, hnode, hfree, -⟩ := insertNode_of_room noLocks h.cached hroom hv
    exact ⟨_, s₁, i, hnode, hfree⟩
  · obtain ⟨hlen, ys, t, rfl⟩ := h.cached.full hfull
    obtain ⟨s₁, i, hnode, hfree, -⟩ :=
      insertNode_of_full (k := k) h.cached h.idle hlen (h.evictsOwn (by simp)) hv
    exact ⟨_, s₁, i, hnode, hfree⟩

theorem Cached.size_le (h : Cached s xs) : (xs.map (valueSize s)).sum ≤ maxCacheSize := by
  have hle : ∀ n ∈ xs.map (valueSize s), n ≤ maxObjectSize := by
    intro n hn
    obtain ⟨p, hp, rfl⟩ := List.mem_map.mp hn
    obtain ⟨k, v, -, hvalue, hv⟩ := h.entry p hp
    have hsize : v.strlen + 1 ≤ maxObjectSize := hv
    simpa [valueSize, hvalue] using hsize
  calc (xs.map (valueSize s)).sum
      ≤ (xs.map (valueSize s)).length • maxObjectSize := List.sum_le_card_nsmul _ _ hle
    _ ≤ 10 * maxObjectSize := by
        rw [List.length_map, nsmul_eq_mul, Nat.cast_id]
        exact Nat.mul_le_mul_right _ h.room
    _ ≤ maxCacheSize := by decide

theorem Tracks.represents (h : Tracks s xs u) : Represents s xs u.uses where
  linked := h.cached.chain.linked
  acyclic := by
    have hc := h.cached.chain
    rw [List.cons_append, List.nodup_cons, List.nodup_append]
    refine ⟨?_, hc.nodup, by simp, ?_⟩
    · simpa using ⟨hc.head_notMem, hc.ends⟩
    · rintro p hp q hq rfl
      exact hc.tail_notMem (List.mem_singleton.mp hq ▸ hp)
  slots p := by
    constructor
    · exact fun hp => ⟨h.cached.ne_zero hp, h.cached.slotted.slot p hp⟩
    · rintro ⟨hp, i, rfl⟩
      exact h.cached.slotted.mem i hp
  once := h.cached.slotted.inj
  keyed p hp := by
    obtain ⟨k, v, hk, -⟩ := h.cached.entry p hp
    simp [hk]
  distinct := h.nodup_keys
  count := ⟨h.cached.count, h.cached.room⟩
  order := h.order
  last p hp k l hk hl := by
    obtain ⟨ys, t, rfl⟩ := (List.eq_nil_or_concat' xs).resolve_left (List.ne_nil_of_mem hp)
    obtain ⟨n, hn⟩ := h.cached.chain.some_of (p := t) (.inl (by simp))
    rw [(h.cached.chain.last hn).1] at hl
    rcases List.mem_append.mp hp with hp | hp
    · exact Nat.le_of_lt
        ((List.pairwise_append.mp h.order).2.2 p hp t (by simp) k l hk hl)
    · obtain rfl : p = t := List.mem_singleton.mp hp
      rw [hk] at hl
      rw [Option.some.inj hl]
  free k v hv _ := h.free hv
  size := h.cached.size_le

/-- The invariant of the list and the array, after any sequence of calls. -/
theorem calls_represent (hclock : ∀ t, clock t ≠ 0) (cs : List Call) :
    ∃ s xs, calls noLocks (initLRUCache clock) cs = .ok s ∧
      Represents s xs (history (initLRUCache clock) [] cs) := by
  obtain ⟨s, xs, hs, h⟩ := calls_track hclock cs
  have huses : history (initLRUCache clock) [] cs = (usage cs).uses :=
    (tracks_init hclock).history_eq cs
  exact ⟨s, xs, hs, huses ▸ h.represents⟩

theorem calls_represent_evict :
    ∃ s xs, calls noLocks (initLRUCache fun _ => 1)
        (elevenPages ++ [.insert (page 11) none, .read (page 1)]) = .ok s ∧
      Represents s xs (history (initLRUCache fun _ => 1) []
        (elevenPages ++ [.insert (page 11) none, .read (page 1)])) :=
  calls_represent (fun _ => by decide) _

end CsappLabs.Proxy.Cache
