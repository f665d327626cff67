import CsappLabs.Foundation.Linked
import CsappLabs.Proxy.Cache.Model

/-!
# The list between the sentinels

`Chain s xs` says that `xs` are the nodes from `head` to `tail`.  The three
list operations of the cache change links only, and what each does to the
chain follows from the rules for doubly linked segments.
-/

namespace CsappLabs.Proxy.Cache

open CsappLabs.Foundation

variable {s s' s'' : State} {p q x : Ptr} {n : CacheNode} {xs us vs : List Ptr}

namespace State

theorem deref_of (h : s.nodes p = some n) : s.deref p = .ok n := by simp [deref, h]

theorem write_of (h : s.nodes p = some n) (f : CacheNode → CacheNode) :
    s.write p f = .ok (s.put p (f n)) := by simp [write, h]

theorem next_of (h : s.nodes p = some n) : s.next p = n.next := by simp [next, h]

theorem prev_of (h : s.nodes p = some n) : s.prev p = n.prev := by simp [prev, h]

@[simp] theorem put_nodes (s : State) (p : Ptr) (n : CacheNode) :
    (s.put p n).nodes = Function.update s.nodes p (some n) := rfl

@[simp] theorem put_head (s : State) (p : Ptr) (n : CacheNode) :
    (s.put p n).head = s.head := rfl

@[simp] theorem put_tail (s : State) (p : Ptr) (n : CacheNode) :
    (s.put p n).tail = s.tail := rfl

@[simp] theorem put_cachemap (s : State) (p : Ptr) (n : CacheNode) :
    (s.put p n).cachemap = s.cachemap := rfl

theorem next_put (s : State) (p : Ptr) (n : CacheNode) (x : Ptr) :
    (s.put p n).next x = if x = p then n.next else s.next x := by
  by_cases hx : x = p <;> simp [next, hx]

theorem prev_put (s : State) (p : Ptr) (n : CacheNode) (x : Ptr) :
    (s.put p n).prev x = if x = p then n.prev else s.prev x := by
  by_cases hx : x = p <;> simp [prev, hx]

end State

/-! ## Changes of the links -/

def CacheNode.entry (n : CacheNode) : CacheNode := { n with prev := 0, next := 0 }

structure Relinked (s s' : State) : Prop where
  rest : s' = { s with nodes := s'.nodes }
  nodes : ∀ p, (s'.nodes p).map CacheNode.entry = (s.nodes p).map CacheNode.entry

namespace Relinked

theorem refl (s : State) : Relinked s s := ⟨rfl, fun _ => rfl⟩

theorem trans (h : Relinked s s') (h' : Relinked s' s'') : Relinked s s'' where
  rest := by
    rw [h'.rest, h.rest]
  nodes p := (h'.nodes p).trans (h.nodes p)

theorem put {m : CacheNode} (h : s.nodes p = some n) (hm : m.entry = n.entry) :
    Relinked s (s.put p m) where
  rest := rfl
  nodes x := by
    by_cases hx : x = p
    · simp [hx, h, hm]
    · simp [hx]

theorem isSome (h : Relinked s s') (p : Ptr) : (s'.nodes p).isSome = (s.nodes p).isSome := by
  have he := congrArg Option.isSome (h.nodes p)
  simpa using he

theorem head_eq (h : Relinked s s') : s'.head = s.head := by rw [h.rest]

theorem tail_eq (h : Relinked s s') : s'.tail = s.tail := by rw [h.rest]

theorem cachemap_eq (h : Relinked s s') : s'.cachemap = s.cachemap := by rw [h.rest]

theorem node (h : Relinked s s') (hn : s.nodes p = some n) :
    ∃ m, s'.nodes p = some m ∧ m.value = n.value ∧ m.key = n.key ∧
      m.timestamp = n.timestamp := by
  have he := h.nodes p
  rw [hn] at he
  obtain ⟨m, hm, hentry⟩ := Option.map_eq_some_iff.mp he
  obtain ⟨value, key, prev, next, timestamp⟩ := m
  obtain ⟨hv, hk, -, -, ht⟩ := CacheNode.mk.inj hentry
  exact ⟨_, hm, hv, hk, ht⟩

end Relinked

/-! ## The chain -/

structure Chain (s : State) (xs : List Ptr) : Prop where
  linked : Linked s.next s.prev s.head (s.next s.head) xs (s.prev s.tail) s.tail
  nodup : xs.Nodup
  head_notMem : s.head ∉ xs
  tail_notMem : s.tail ∉ xs
  ends : s.head ≠ s.tail
  head_some : (s.nodes s.head).isSome
  tail_some : (s.nodes s.tail).isSome
  nodes_some : ∀ p ∈ xs, (s.nodes p).isSome

namespace Chain

theorem some_of (h : Chain s xs) (hp : p ∈ xs ∨ p = s.head ∨ p = s.tail) :
    ∃ n, s.nodes p = some n := by
  apply Option.isSome_iff_exists.mp
  rcases hp with hp | rfl | rfl
  · exact h.nodes_some p hp
  · exact h.head_some
  · exact h.tail_some

theorem congr (h : Chain s xs) (hnodes : s'.nodes = s.nodes) (hhead : s'.head = s.head)
    (htail : s'.tail = s.tail) : Chain s' xs := by
  have hnext : s'.next = s.next := by funext x; simp only [State.next, hnodes]
  have hprev : s'.prev = s.prev := by funext x; simp only [State.prev, hnodes]
  constructor
  · rw [hnext, hprev, hhead, htail]
    exact h.linked
  · exact h.nodup
  · rw [hhead]; exact h.head_notMem
  · rw [htail]; exact h.tail_notMem
  · rw [hhead, htail]; exact h.ends
  · rw [hnodes, hhead]; exact h.head_some
  · rw [hnodes, htail]; exact h.tail_some
  · rw [hnodes]; exact h.nodes_some

theorem put (h : Chain s xs) (hn : s.nodes p = some n) {m : CacheNode}
    (hnext : m.next = n.next) (hprev : m.prev = n.prev) : Chain (s.put p m) xs := by
  have hsome : ∀ x, (s.nodes x).isSome → ((s.put p m).nodes x).isSome := by
    intro x hx
    by_cases hxp : x = p <;> simp [hxp, hx]
  have hnext' : (s.put p m).next = s.next := by
    funext x
    rw [State.next_put]
    split
    · next hx => rw [hx, State.next_of hn, hnext]
    · rfl
  have hprev' : (s.put p m).prev = s.prev := by
    funext x
    rw [State.prev_put]
    split
    · next hx => rw [hx, State.prev_of hn, hprev]
    · rfl
  constructor
  · rw [hnext', hprev']
    exact h.linked
  · exact h.nodup
  · exact h.head_notMem
  · exact h.tail_notMem
  · exact h.ends
  · exact hsome _ h.head_some
  · exact hsome _ h.tail_some
  · exact fun x hx => hsome x (h.nodes_some x hx)

end Chain

theorem createAfterHead_spec (h : Chain s xs) (hp : p ∉ xs) (hhead : p ≠ s.head)
    (htail : p ≠ s.tail) (hsome : (s.nodes p).isSome) :
    ∃ s', createAfterHead s p = .ok s' ∧ Relinked s s' ∧ Chain s' (p :: xs) := by
  obtain ⟨n, hn⟩ := Option.isSome_iff_exists.mp hsome
  obtain ⟨hd, hhd⟩ := h.some_of (.inr (.inl rfl))
  have hfirst : s.next s.head ∈ xs ∨ s.next s.head = s.tail := h.linked.first_mem
  obtain ⟨fst, hfst⟩ := h.some_of (p := s.next s.head) (hfirst.imp_right .inr)
  have hfp : s.next s.head ≠ p := by
    rcases hfirst with hf | hf
    · exact fun e => hp (e ▸ hf)
    · exact fun e => htail (e ▸ hf)
  have hfh : s.next s.head ≠ s.head := by
    rcases hfirst with hf | hf
    · exact fun e => h.head_notMem (e ▸ hf)
    · exact fun e => h.ends (hf ▸ e.symm)
  have hhdnext : hd.next = s.next s.head := (State.next_of hhd).symm
  let s₁ := s.put p { n with next := s.next s.head }
  let s₂ := s₁.put p { n with next := s.next s.head, prev := s.head }
  let s₃ := s₂.put (s.next s.head) { fst with prev := p }
  let s₄ := s₃.put s.head { hd with next := p }
  have n₁ : s₁.nodes p = some { n with next := s.next s.head } := by simp [s₁]
  have f₂ : s₂.nodes (s.next s.head) = some fst := by simp [s₁, s₂, hfst, hfp]
  have h₂ : s₂.nodes s.head = some hd := by simp [s₁, s₂, hhd, hhead.symm]
  have h₃ : s₃.nodes s.head = some hd := by simp [s₃, h₂, hfh.symm]
  have heq : createAfterHead s p = .ok s₄ := by
    have e₀ : s.deref s.head = .ok hd := State.deref_of hhd
    have e₁ : s.write p (fun n => { n with next := hd.next }) = .ok s₁ := by
      rw [State.write_of hn, hhdnext]
    have e₂ : s₁.write p (fun n => { n with prev := s₁.head }) = .ok s₂ := State.write_of n₁ _
    have e₃ : s₂.deref s₂.head = .ok hd := State.deref_of h₂
    have e₄ : s₂.write hd.next (fun n => { n with prev := p }) = .ok s₃ := by
      rw [hhdnext]
      exact State.write_of f₂ _
    have e₅ : s₃.write s₃.head (fun n => { n with next := p }) = .ok s₄ := State.write_of h₃ _
    simp only [createAfterHead, e₀, e₁, e₂, e₃, e₄, e₅, bind, Except.bind]
  have hrel : Relinked s s₄ := by
    have r₁ : Relinked s s₁ := .put hn rfl
    have r₂ : Relinked s₁ s₂ := .put n₁ rfl
    have r₃ : Relinked s₂ s₃ := .put f₂ rfl
    have r₄ : Relinked s₃ s₄ := .put h₃ rfl
    exact ((r₁.trans r₂).trans r₃).trans r₄
  have hnext : ∀ x, s₄.next x =
      if x = s.head then p else if x = p then s.next s.head else s.next x := by
    intro x
    simp only [s₄, s₃, s₂, s₁, State.next_put]
    by_cases hxh : x = s.head
    · simp [hxh]
    · by_cases hxf : x = s.next s.head
      · simp [hxf, hfp, hfh, State.next_of hfst]
      · by_cases hxp : x = p <;> simp [hxh, hxf, hxp, hhead, hfp.symm]
  have hprev : ∀ x, s₄.prev x =
      if x = s.next s.head then p else if x = p then s.head else s.prev x := by
    intro x
    simp only [s₄, s₃, s₂, s₁, State.prev_put]
    by_cases hxh : x = s.head
    · simp [hxh, hfh.symm, hhead.symm, State.prev_of hhd]
    · by_cases hxf : x = s.next s.head
      · simp [hxf, hfh]
      · by_cases hxp : x = p <;> simp [hxh, hxf, hxp, hfp.symm, hhead]
  refine ⟨s₄, heq, hrel, ?_⟩
  constructor
  · show Linked s₄.next s₄.prev s.head (s₄.next s.head) (p :: xs) (s₄.prev s.tail) s.tail
    refine h.linked.push h.nodup h.head_notMem h.tail_notMem (by simp [hnext])
      (by simp [hnext, hhead]) (by simp [hprev, hfp.symm]) ?_ ?_ ?_
    · intro u hu
      have hu₁ : u ≠ s.head := fun e => h.head_notMem (e ▸ hu)
      have hu₂ : u ≠ p := fun e => hp (e ▸ hu)
      simp [hnext, hu₁, hu₂]
    · intro u hu
      have hu₂ : u ≠ p := fun e => hp (e ▸ hu)
      simp [hprev, hu₂]
    · rw [hprev]
      simp [htail.symm, eq_comm]
  · exact List.nodup_cons.mpr ⟨hp, h.nodup⟩
  · simpa [hhead.symm] using ⟨fun e => hhead e.symm, h.head_notMem⟩
  · simpa using ⟨fun e => htail e.symm, h.tail_notMem⟩
  · exact h.ends
  · rw [hrel.head_eq, hrel.isSome]; exact h.head_some
  · rw [hrel.tail_eq, hrel.isSome]; exact h.tail_some
  · intro x hx
    rw [hrel.isSome]
    rcases List.mem_cons.mp hx with rfl | hx
    · exact hsome
    · exact h.nodes_some x hx

theorem bypass_spec (h : Chain s (us ++ p :: vs)) (hn : s.nodes p = some n) :
    ∃ s₁ s₂, s.write n.prev (fun m => { m with next := n.next }) = .ok s₁ ∧
      s₁.nodes p = some n ∧ s₁.tail = s.tail ∧
      s₁.write n.next (fun m => { m with prev := n.prev }) = .ok s₂ ∧
      s₂.nodes p = some n ∧ Relinked s s₂ ∧ Chain s₂ (us ++ vs) := by
  obtain ⟨hleft, hright⟩ := h.linked.middle
  have hnd := h.nodup
  have hpus : p ∉ us ∧ p ∉ vs := by
    have hnd' := List.nodup_middle.mp hnd
    simpa using (List.nodup_cons.mp hnd').1
  have hhead := h.head_notMem
  have htail := h.tail_notMem
  simp only [List.mem_append, List.mem_cons, not_or] at hhead htail
  have hprev : s.prev p = n.prev := State.prev_of hn
  have hnext : s.next p = n.next := State.next_of hn
  rw [hprev] at hleft
  rw [hnext] at hright
  have hleft_mem : n.prev ∈ us ∨ n.prev = s.head := hleft.last_mem
  have hright_mem : n.next ∈ vs ∨ n.next = s.tail := hright.first_mem
  obtain ⟨l, hl⟩ := h.some_of (p := n.prev) (by
    rcases hleft_mem with hm | hm
    · exact .inl (by simp [hm])
    · exact .inr (.inl hm))
  obtain ⟨r, hr⟩ := h.some_of (p := n.next) (by
    rcases hright_mem with hm | hm
    · exact .inl (by simp [hm])
    · exact .inr (.inr hm))
  have hlp : n.prev ≠ p := by
    rcases hleft_mem with hm | hm
    · exact fun e => hpus.1 (e ▸ hm)
    · exact fun e => hhead.2.1 (hm ▸ e)
  have hrp : n.next ≠ p := by
    rcases hright_mem with hm | hm
    · exact fun e => hpus.2 (e ▸ hm)
    · exact fun e => htail.2.1 (hm ▸ e)
  have hlr : n.prev ≠ n.next := by
    intro e
    rcases hleft_mem with hm | hm
    · rcases hright_mem with hm' | hm'
      · exact (List.nodup_append.mp hnd).2.2 _ hm _ (List.mem_cons_of_mem _ hm') e
      · exact htail.1 (hm' ▸ e ▸ hm)
    · rcases hright_mem with hm' | hm'
      · exact hhead.2.2 (hm ▸ e ▸ hm')
      · exact h.ends (hm.symm.trans (e.trans hm'))
  let s₁ := s.put n.prev { l with next := n.next }
  let s₂ := s₁.put n.next { r with prev := n.prev }
  have p₁ : s₁.nodes p = some n := by simp [s₁, hn, hlp.symm]
  have p₂ : s₂.nodes p = some n := by simp [s₂, p₁, hrp.symm]
  have r₁ : s₁.nodes n.next = some r := by simp [s₁, hr, hlr.symm]
  have hrel₁ : Relinked s s₁ := .put hl rfl
  have hrel : Relinked s s₂ := hrel₁.trans (.put r₁ rfl)
  have hnext₂ : ∀ x, s₂.next x = if x = n.prev then n.next else s.next x := by
    intro x
    simp only [s₂, s₁, State.next_put]
    by_cases hx : x = n.next
    · simp [hx, hlr.symm, State.next_of hr]
    · simp [hx]
  have hprev₂ : ∀ x, s₂.prev x = if x = n.next then n.prev else s.prev x := by
    intro x
    simp only [s₂, s₁, State.prev_put]
    by_cases hx : x = n.prev
    · simp [hx, hlr, State.prev_of hl]
    · simp [hx]
  refine ⟨s₁, s₂, State.write_of hl _, p₁, rfl, State.write_of r₁ _, p₂, hrel, ?_⟩
  constructor
  · show Linked s₂.next s₂.prev s.head (s₂.next s.head) (us ++ vs) (s₂.prev s.tail) s.tail
    refine h.linked.remove hnd h.head_notMem h.tail_notMem ?_ ?_ ?_ ?_
    · intro u _
      rw [hnext₂, hprev, hnext]
    · intro u _
      rw [hprev₂, hprev, hnext]
    · rw [hnext₂, hprev, hnext]
      simp only [eq_comm]
    · rw [hprev₂, hprev, hnext]
      simp only [eq_comm]
  · exact hnd.sublist (by simp)
  · simpa using ⟨hhead.1, hhead.2.2⟩
  · simpa using ⟨htail.1, htail.2.2⟩
  · exact h.ends
  · rw [hrel.head_eq, hrel.isSome]; exact h.head_some
  · rw [hrel.tail_eq, hrel.isSome]; exact h.tail_some
  · intro x hx
    rw [hrel.isSome]
    exact h.nodes_some x (by
      rcases List.mem_append.mp hx with hx | hx <;> simp [hx])

theorem moveToHead_spec (h : Chain s (us ++ p :: vs)) :
    ∃ s', moveToHead s p = .ok s' ∧ Relinked s s' ∧ Chain s' (p :: (us ++ vs)) := by
  obtain ⟨n, hn⟩ := h.some_of (p := p) (.inl (by simp))
  obtain ⟨s₁, s₂, e₁, p₁, -, e₂, p₂, hrel, hchain⟩ := bypass_spec h hn
  have hp : p ∉ us ++ vs := (List.nodup_cons.mp (List.nodup_middle.mp h.nodup)).1
  have hhead : p ≠ s₂.head := by
    rw [hrel.head_eq]
    exact fun e => h.head_notMem (by simp [← e])
  have htail : p ≠ s₂.tail := by
    rw [hrel.tail_eq]
    exact fun e => h.tail_notMem (by simp [← e])
  obtain ⟨s', e₃, hrel', hchain'⟩ :=
    createAfterHead_spec hchain hp hhead htail (by simp [p₂])
  refine ⟨s', ?_, hrel.trans hrel', hchain'⟩
  rw [← e₃]
  simp only [moveToHead, createAfterHead, State.deref_of hn, State.deref_of p₁, e₁, e₂, bind,
    Except.bind]

theorem Chain.last (h : Chain s (us ++ [p])) (hn : s.nodes p = some n) :
    s.prev s.tail = p ∧ n.next = s.tail := by
  obtain ⟨-, hright⟩ := h.linked.middle
  obtain ⟨hnext, hlast⟩ := hright
  exact ⟨hlast, (State.next_of hn).symm.trans hnext⟩

end CsappLabs.Proxy.Cache
