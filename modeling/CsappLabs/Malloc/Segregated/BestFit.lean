import CsappLabs.Malloc.Segregated.Order

/-!
# Best fit

As long as the lists are sorted, the first block of a list that is large enough
is a smallest one.  They are not sorted in every run.
-/

namespace CsappLabs.Malloc.Segregated

open CsappLabs.Foundation

variable {s s' s₀ s₁ : State} {w w' : World State} {F : Block → Prop} {bs : List Block}
  {b c : Block} {n i k q asize base : Nat}

/-! ## The search in a sorted list -/

def BestIn (s : State) (asize i : Nat) (b : Block) : Prop :=
  b ∈ s.lists i ∧ asize ≤ b.size ∧ ∀ c ∈ s.lists i, asize ≤ c.size → b.size ≤ c.size

theorem Heap.walkFit_best (h : Heap s bs F) (ho : SizeOrdered s) (hi : i < 16)
    (hwalk : walkFit s asize walkFuel (s.selectSegEntry i) = some q) (hq : q ≠ 0) :
    ∃ b, b.ptr = q ∧ BestIn s asize i b := by
  have hblocks := h.find_of_walk hi hwalk
  rw [if_neg hq] at hblocks
  refine ⟨_, rfl, List.mem_of_find?_eq_some hblocks, by simpa using List.find?_some hblocks,
    fun c hc hle => ?_⟩
  cases find?_least (ho i hi) hblocks hc (by simpa using hle) with
  | inl heq => exact Nat.le_of_eq (congrArg Block.size heq)
  | inr hle => exact hle

theorem searchFit_walk {size : Nat} (hk : k ≤ 16) (h : searchFit s asize k size = some q)
    (hq : q ≠ 0) : ∃ i < 16, walkFit s asize walkFuel (s.selectSegEntry i) = some q := by
  induction k generalizing size with
  | zero => exact absurd (Option.some.inj h).symm hq
  | succ k ih =>
      unfold searchFit at h
      simp only at h
      by_cases hlist : (maxSegEntry - (k + 1) = maxSegEntry - 1 ∨ size ≤ 1) ∧
          s.selectSegEntry (maxSegEntry - (k + 1)) ≠ 0
      · rw [if_pos hlist] at h
        cases hwalk : walkFit s asize walkFuel (s.selectSegEntry (maxSegEntry - (k + 1))) with
        | none => simp [hwalk] at h
        | some p =>
            rw [hwalk] at h
            by_cases hp : p = 0
            · simp only [hp, ne_eq, not_true, if_false] at h
              exact ih (by omega) h
            · simp only [ne_eq, hp, not_false_eq_true, if_true] at h
              obtain rfl := Option.some.inj h
              exact ⟨maxSegEntry - (k + 1), by unfold maxSegEntry; omega, hwalk⟩
      · rw [if_neg hlist] at h
        exact ih (by omega) h

/-! ## Runs -/

/-- The lists are sorted, and what `mm_malloc` takes from a list is a smallest
block of that list that is large enough. -/
structure ListsOrdered (s : State) : Prop where
  linked : ∀ i < 16, ∃ last, Linked (getSuccessor s.mem) (getPredecessor s.mem) 0
    (s.selectSegEntry i) ((s.lists i).map Block.ptr) last 0
  sorted : SizeOrdered s
  best : ∀ n ≠ 0, ∀ q ≠ 0, searchFit s (adjustSize n) maxSegEntry (adjustSize n) = some q →
    mmMalloc s n = place s q (adjustSize n) ∧
      ∃ i < 16, ∃ b, b.ptr = q ∧ BestIn s (adjustSize n) i b

theorem Sound.listsOrdered (h : Sound base s bs) (ho : SizeOrdered s) : ListsOrdered s where
  linked i hi := by
    obtain ⟨last, hlink, -⟩ := h.heap.nodes.listIs_nodes h.heap.lists hi
    rw [map_ptr_lists]
    exact ⟨last, hlink⟩
  sorted := ho
  best n hn q hq hsearch := by
    obtain ⟨i, hi, hwalk⟩ := searchFit_walk (Nat.le_refl 16) hsearch hq
    refine ⟨?_, i, hi, h.heap.walkFit_best ho hi hwalk hq⟩
    rw [h.mmMalloc_eq hn hsearch, if_neg hq]

theorem mmInit_ordered (h₀ : Fresh base s₀) (hinit : mmInit s₀ = some (s₁, 0)) :
    SizeOrdered s₁ := by
  obtain ⟨s', heq, hsound⟩ := mmInit_spec h₀
  obtain rfl : s₁ = s' := congrArg Prod.fst (Option.some.inj (hinit.symm.trans heq))
  intro i hi
  have hone : ∀ c ∈ s₁.lists i, c = ⟨base + 80, 32, false⟩ := fun c hc =>
    List.mem_singleton.mp ((hsound.heap.mem_lists hi).mp hc).1.1
  refine List.Pairwise.imp_of_mem (R := fun _ _ => True) ?_ (List.pairwise_of_forall fun _ _ => trivial)
  intro b c hb hc _
  rw [hone b hb, hone c hc]
  exact Nat.le_refl 32

theorem exec_ordered {call : Call} (h : Consistent (Sound base) w bs) (hv : w.Valid call)
    (hok : InOrder w.heap call) (he : w.exec allocator call = some w')
    (ho : SizeOrdered w.heap) : SizeOrdered w'.heap := by
  cases call with
  | malloc n =>
      have hn : n < 2 ^ 31 := hv
      obtain ⟨⟨s', p⟩, heq, rfl⟩ := Option.map_eq_some_iff.mp he
      exact (h.inv.malloc_ordered ho (by omega) heq).mpr hok
  | free p =>
      obtain ⟨r, hr, rfl⟩ := hv
      obtain ⟨d, hd, ha, hp, -⟩ := h.held r hr
      obtain ⟨s', heq, rfl⟩ := Option.map_eq_some_iff.mp he
      rw [← hp] at heq hok
      exact (h.inv.free_ordered ho hd ha heq).mpr hok
  | realloc p n =>
      obtain ⟨hn, r, hr, rfl⟩ := hv
      obtain ⟨d, hd, ha, hp, -⟩ := h.held r hr
      obtain ⟨⟨s', q⟩, heq, rfl⟩ := Option.map_eq_some_iff.mp he
      rw [← hp] at heq hok
      by_cases hn0 : n = 0
      · subst hn0
        obtain ⟨t, bs', hfree, -⟩ := h.inv.free_effect hd ha
        have hzero : some (s', q) = some (t, 0) := heq.symm.trans (h.inv.realloc_zero hd hfree)
        obtain rfl := congrArg Prod.fst (Option.some.inj hzero)
        exact (h.inv.free_ordered ho hd ha hfree).mpr (hok.1 rfl)
      · exact h.inv.realloc_ordered ho hd ha (by omega) hn0 (hok.2 hn0) heq
  | write p k v =>
      obtain ⟨r, hr, rfl, hk⟩ := hv
      obtain ⟨d, hd, ha, hp, hs⟩ := h.held r hr
      obtain rfl := Option.some.inj he
      have hpoke := payloadOnly_poke w.heap.mem v (d := d) (x := r.ptr + k) (by omega) (by omega)
      exact ho.of_same (h.inv.heap.of_payload hd ha hpoke).2

/-- In a run whose calls put every block where the second place is right, the
lists are sorted and `mm_malloc` takes a best fit; a call of `mm_malloc` or
`mm_free` then keeps the lists sorted exactly if it is such a call. -/
theorem lists_ordered (h₀ : Fresh base s₀) (hinit : mmInit s₀ = some (s₁, 0))
    (hrun : Reach allocator InOrder ⟨s₁, []⟩ w) :
    ListsOrdered w.heap ∧
      (∀ n < 2 ^ 31, ∀ s' p, mmMalloc w.heap n = some (s', p) →
        (SizeOrdered s' ↔ InOrder w.heap (.malloc n))) ∧
      ∀ r ∈ w.live, ∀ s', mmFree w.heap r.ptr = some s' →
        (SizeOrdered s' ↔ InOrder w.heap (.free r.ptr)) := by
  have hrefines : Refines allocator (Sound base) InOrder base :=
    (refines base).restrict fun _ _ _ => trivial
  obtain ⟨t, heq, hsound⟩ := mmInit_spec h₀
  obtain rfl : s₁ = t := congrArg Prod.fst (Option.some.inj (hinit.symm.trans heq))
  have hstart : ∃ bs, Consistent (Sound base) ⟨s₁, []⟩ bs :=
    ⟨_, Consistent.empty hsound (by simp)⟩
  obtain ⟨bs, hcons⟩ := hrefines.reach hstart hrun
  have ho : SizeOrdered w.heap :=
    hrefines.reach_preserves hstart (fun _ _ _ _ h hv hok he => exec_ordered h hv hok he) hrun
      (mmInit_ordered h₀ hinit)
  refine ⟨hcons.inv.listsOrdered ho, fun n hn s' p hout => ?_, fun r hr s' hout => ?_⟩
  · exact hcons.inv.malloc_ordered ho (by omega) hout
  · obtain ⟨d, hd, ha, hp, -⟩ := hcons.held r hr
    rw [← hp] at hout ⊢
    exact hcons.inv.free_ordered ho hd ha hout

theorem lists_ordered_arena :
    ∃ w : World State, w.live = [⟨4288, 8⟩, ⟨4232, 8⟩] ∧
      (w.heap.lists 5).map Block.size = [40, 56] ∧ ListsOrdered w.heap := by
  obtain ⟨s₁, w, hinit, hrun, hw⟩ := arena_reach InOrder
    (fun w => (w.live, (w.heap.lists 5).map Block.size))
    [.malloc 48, .malloc 8, .malloc 32, .malloc 8, .free 4248, .free 4176]
    ([⟨4288, 8⟩, ⟨4232, 8⟩], [40, 56]) (by decide +kernel)
  obtain ⟨hlive, hsizes⟩ := Prod.mk.inj hw
  exact ⟨w, hlive, hsizes, (lists_ordered arena_fresh hinit hrun).1⟩

/-- The larger of two blocks is freed first; the smaller one goes behind it. -/
theorem smaller_block_behind :
    ¬∀ base s₀ s₁ w, Fresh base s₀ → mmInit s₀ = some (s₁, 0) →
      Reach allocator (fun _ _ => True) ⟨s₁, []⟩ w → ListsOrdered w.heap := by
  intro hall
  obtain ⟨s₁, w, hinit, hrun, hw⟩ := arena_reach (fun _ _ => True)
    (fun w => decide ((w.heap.lists 5).Pairwise SizeLe))
    [.malloc 48, .malloc 8, .malloc 32, .malloc 8, .free 4176, .free 4248] false
    (by decide +kernel)
  have hsorted := (hall 4096 arena s₁ w arena_fresh hinit hrun).sorted 5 (by decide)
  exact of_decide_eq_false hw hsorted

end CsappLabs.Malloc.Segregated
