import CsappLabs.Malloc.Explicit.Model
import CsappLabs.Malloc.Links

/-!
# The free list between two sentinels

`FreeList` says that the list from `head_addr` to `tail_addr` holds exactly
the blocks of a set `F`.  `delete_node` takes a block out of `F` and
`insert_node` puts one in front.  Deleting a node that its neighbours have
already forgotten changes nothing, which is what happens when `mm_realloc`
places a block a second time.
-/

namespace CsappLabs.Malloc.Explicit

open CsappLabs.Foundation

namespace State

def setMem (s : State) (m : Mem) : State :=
  { s with toMemlib := { s.toMemlib with mem := m } }

def grow (s : State) (n : Nat) : State :=
  { s with toMemlib := { s.toMemlib with memBrk := s.memBrk + n } }

variable {s : State} {m m' : Mem} {n p v : Nat}

@[simp] theorem setMem_mem : (s.setMem m).mem = m := rfl
@[simp] theorem setMem_memBrk : (s.setMem m).memBrk = s.memBrk := rfl
@[simp] theorem setMem_memStartBrk : (s.setMem m).memStartBrk = s.memStartBrk := rfl
@[simp] theorem setMem_heapListp : (s.setMem m).heapListp = s.heapListp := rfl
@[simp] theorem setMem_heapFreep : (s.setMem m).heapFreep = s.heapFreep := rfl
@[simp] theorem setMem_tail : (s.setMem m).tail = s.tail := rfl
@[simp] theorem setMem_setMem : (s.setMem m).setMem m' = s.setMem m' := rfl
@[simp] theorem setMem_self : s.setMem s.mem = s := rfl
@[simp] theorem put_eq : s.put p v = s.setMem (store s.mem p v) := rfl
@[simp] theorem setPredecessor_eq : s.setPredecessor p v = s.setMem (store s.mem p v) := rfl
@[simp] theorem setSuccessor_eq :
    s.setSuccessor p v = s.setMem (store s.mem (succPtr p) v) := rfl
@[simp] theorem memcpy_eq {dst src : Nat} :
    s.memcpy dst src n = s.setMem (copy s.mem dst src n) := rfl
@[simp] theorem grow_mem : (s.grow n).mem = s.mem := rfl
@[simp] theorem grow_memBrk : (s.grow n).memBrk = s.memBrk + n := rfl
@[simp] theorem grow_memStartBrk : (s.grow n).memStartBrk = s.memStartBrk := rfl

theorem memSbrk_of_granted (h : s.Granted n) :
    s.memSbrk (toInt n) = some (s.grow n, s.memBrk) := by
  have hn : n < 2 ^ 32 := h.1.trans (by decide)
  unfold memSbrk
  rw [s.toMemlib.memSbrk_toInt hn, if_pos h]
  rfl

theorem memSbrk_of_refused (hn : n < 2 ^ 32) (h : ¬s.Granted n) :
    s.memSbrk (toInt n) = none := by
  unfold memSbrk
  rw [s.toMemlib.memSbrk_toInt hn, if_neg h]
  rfl

end State

/-! ## Nodes -/

/-- The link words of the blocks of `F` and of the two sentinels do not
overlap. -/
structure Nodes (s : State) (F : Block → Prop) : Prop where
  apart : ∀ b c, F b → F c → b = c ∨ b.ptr + 8 ≤ c.ptr ∨ c.ptr + 8 ≤ b.ptr
  lt : ∀ b, F b → b.ptr < 2 ^ 32
  head_apart : ∀ b, F b → b.ptr + 8 ≤ s.heapFreep ∨ s.heapFreep + 8 ≤ b.ptr
  tail_apart : ∀ b, F b → b.ptr + 8 ≤ s.tail ∨ s.tail + 8 ≤ b.ptr
  sentinels : s.heapFreep + 8 ≤ s.tail ∨ s.tail + 8 ≤ s.heapFreep
  head_lt : s.heapFreep < 2 ^ 32
  tail_lt : s.tail < 2 ^ 32

def LinkNode (s : State) (F : Block → Prop) (p : Nat) : Prop :=
  NodeOf F p ∨ p = s.heapFreep ∨ p = s.tail

def FreeList (s : State) (m : Mem) (F : Block → Prop) : Prop :=
  ∃ xs, Linked (getSuccessor m) (getPredecessor m) s.heapFreep
      (getSuccessor m s.heapFreep) xs (getPredecessor m s.tail) s.tail ∧
    xs.Nodup ∧ ∀ p, p ∈ xs ↔ NodeOf F p

def SameLinks (s : State) (F : Block → Prop) (m m' : Mem) : Prop :=
  ∀ p, LinkNode s F p →
    getSuccessor m' p = getSuccessor m p ∧ getPredecessor m' p = getPredecessor m p

/-- The neighbours that `p` names are linked to each other, past `p`. -/
structure Bypassed (s : State) (F : Block → Prop) (m : Mem) (p : Nat) : Prop where
  predecessor : LinkNode s F (getPredecessor m p)
  successor : LinkNode s F (getSuccessor m p)
  forth : getSuccessor m (getPredecessor m p) = getSuccessor m p
  back : getPredecessor m (getSuccessor m p) = getPredecessor m p

variable {s : State} {F : Block → Prop} {b c : Block} {m m' : Mem} {p q u v : Nat}

theorem FreeList.congr (h : FreeList s m F) (hm : SameLinks s F m m') : FreeList s m' F := by
  obtain ⟨xs, hlink, hnd, hmem⟩ := h
  refine ⟨xs, ?_, hnd, hmem⟩
  rw [(hm _ (.inr (.inl rfl))).1, (hm _ (.inr (.inr rfl))).2]
  exact hlink.congr (fun u hu => (hm u (.inl ((hmem u).mp hu))).1)
    fun u hu => (hm u (.inl ((hmem u).mp hu))).2

theorem Bypassed.congr (h : Bypassed s F m p) (hm : SameLinks s F m m')
    (hs : getSuccessor m' p = getSuccessor m p)
    (hp : getPredecessor m' p = getPredecessor m p) : Bypassed s F m' p where
  predecessor := by rw [hp]; exact h.predecessor
  successor := by rw [hs]; exact h.successor
  forth := by rw [hp, hs, (hm _ h.predecessor).1]; exact h.forth
  back := by rw [hp, hs, (hm _ h.successor).2]; exact h.back

theorem bypassed_setMem : Bypassed (s.setMem m') F m p ↔ Bypassed s F m p :=
  ⟨fun h => ⟨h.predecessor, h.successor, h.forth, h.back⟩,
    fun h => ⟨h.predecessor, h.successor, h.forth, h.back⟩⟩

namespace Nodes

theorem spaced (hs : Nodes s F) (hp : LinkNode s F p) (hu : LinkNode s F u) :
    Spaced p u := by
  have hsent := hs.sentinels
  rcases hp with ⟨b, hb, rfl⟩ | rfl | rfl
  · have hbh := hs.head_apart b hb
    have hbt := hs.tail_apart b hb
    rcases hu with ⟨c, hc, rfl⟩ | rfl | rfl
    · rcases hs.apart b c hb hc with rfl | h | h
      · exact .inl rfl
      · exact .inr (.inl h)
      · exact .inr (.inr h)
    · exact .inr (by omega)
    · exact .inr (by omega)
  · rcases hu with ⟨c, hc, rfl⟩ | rfl | rfl
    · have hch := hs.head_apart c hc
      exact .inr (by omega)
    · exact .inl rfl
    · exact .inr (by omega)
  · rcases hu with ⟨c, hc, rfl⟩ | rfl | rfl
    · have hct := hs.tail_apart c hc
      exact .inr (by omega)
    · exact .inr (by omega)
    · exact .inl rfl

theorem node_lt (hs : Nodes s F) (hp : LinkNode s F p) : p < 2 ^ 32 := by
  rcases hp with ⟨b, hb, rfl⟩ | rfl | rfl
  · exact hs.lt b hb
  · exact hs.head_lt
  · exact hs.tail_lt

theorem head_not_node (hs : Nodes s F) : ¬NodeOf F s.heapFreep := by
  rintro ⟨b, hb, h⟩
  have := hs.head_apart b hb
  omega

theorem tail_not_node (hs : Nodes s F) : ¬NodeOf F s.tail := by
  rintro ⟨b, hb, h⟩
  have := hs.tail_apart b hb
  omega

theorem ptr_injective (hs : Nodes s F) (hb : F b) (hc : F c) (h : b.ptr = c.ptr) :
    b = c := by
  rcases hs.apart b c hb hc with rfl | h' | h'
  · rfl
  · omega
  · omega

theorem mono {F' : Block → Prop} (hs : Nodes s F) (h : ∀ b, F' b → F b) : Nodes s F' where
  apart b c hb hc := hs.apart b c (h b hb) (h c hc)
  lt b hb := hs.lt b (h b hb)
  head_apart b hb := hs.head_apart b (h b hb)
  tail_apart b hb := hs.tail_apart b (h b hb)
  sentinels := hs.sentinels
  head_lt := hs.head_lt
  tail_lt := hs.tail_lt

theorem nodeOf_remove (hs : Nodes s F) (hb : F b) :
    NodeOf (fun c => F c ∧ c ≠ b) p ↔ NodeOf F p ∧ p ≠ b.ptr := by
  constructor
  · rintro ⟨c, ⟨hc, hne⟩, rfl⟩
    exact ⟨⟨c, hc, rfl⟩, fun e => hne (hs.ptr_injective hc hb e)⟩
  · rintro ⟨⟨c, hc, rfl⟩, hne⟩
    exact ⟨c, ⟨hc, fun e => hne (by rw [e])⟩, rfl⟩

end Nodes

theorem nodeOf_insert : NodeOf (fun c => F c ∨ c = b) p ↔ p = b.ptr ∨ NodeOf F p := by
  constructor
  · rintro ⟨c, hc | rfl, rfl⟩
    · exact .inr ⟨c, hc, rfl⟩
    · exact .inl rfl
  · rintro (rfl | ⟨c, hc, rfl⟩)
    · exact ⟨b, .inr rfl, rfl⟩
    · exact ⟨c, .inl hc, rfl⟩

/-! ## Unlinking -/

theorem LinkNode.mono {F' : Block → Prop} (h : LinkNode s F p) (hF : ∀ c, F c → F' c) :
    LinkNode s F' p := by
  rcases h with ⟨c, hc, rfl⟩ | h
  · exact .inl ⟨c, hF c hc, rfl⟩
  · exact .inr h

theorem Bypassed.mono {F' : Block → Prop} (h : Bypassed s F m p) (hF : ∀ c, F c → F' c) :
    Bypassed s F' m p :=
  ⟨h.predecessor.mono hF, h.successor.mono hF, h.forth, h.back⟩

theorem deleteNode_eq (h : Spaced (getPredecessor s.mem p) p) :
    deleteNode s p = s.setMem (store
      (store s.mem (succPtr (getPredecessor s.mem p)) (getSuccessor s.mem p))
      (getSuccessor s.mem p) (getPredecessor s.mem p)) := by
  have hsucc := getSuccessor_setSuccessor (m := s.mem) (v := getSuccessor s.mem p) h
    (load_lt _ _)
  have hpred := getPredecessor_setSuccessor (m := s.mem) (getSuccessor s.mem p) h
  rw [ite_self] at hsucc
  simp [deleteNode, hsucc, hpred]

theorem deleteNode_sameLinks (hpred : getPredecessor s.mem p = getPredecessor s.mem q)
    (hsucc : getSuccessor s.mem p = getSuccessor s.mem q)
    (hp : Spaced (getPredecessor s.mem p) p) (hq : Spaced (getPredecessor s.mem q) q) :
    deleteNode s p = deleteNode s q := by
  rw [deleteNode_eq hp, deleteNode_eq hq, hpred, hsucc]

theorem deleteNode_effect (hs : Nodes s F) (hb : LinkNode s F b.ptr)
    (hp : LinkNode s F (getPredecessor s.mem b.ptr))
    (hn : LinkNode s F (getSuccessor s.mem b.ptr)) :
    ∃ m', deleteNode s b.ptr = s.setMem m' ∧ LinksOnly (LinkNode s F) s.mem m' ∧
      (∀ u, LinkNode s F u → getSuccessor m' u =
        if u = getPredecessor s.mem b.ptr then getSuccessor s.mem b.ptr
        else getSuccessor s.mem u) ∧
      ∀ u, LinkNode s F u → getPredecessor m' u =
        if u = getSuccessor s.mem b.ptr then getPredecessor s.mem b.ptr
        else getPredecessor s.mem u := by
  have hplt := hs.node_lt hp
  have hnlt := hs.node_lt hn
  refine ⟨_, deleteNode_eq (hs.spaced hp hb), ?_, fun u hu => ?_, fun u hu => ?_⟩
  · exact (LinksOnly.storeSuccessor hp _).trans (.storePredecessor hn _)
  · rw [getSuccessor_setPredecessor _ (hs.spaced hn hu),
      getSuccessor_setSuccessor (hs.spaced hp hu) hnlt]
  · rw [getPredecessor_setPredecessor (hs.spaced hn hu) hplt,
      getPredecessor_setSuccessor _ (hs.spaced hp hu)]

theorem listed_links (hs : Nodes s F) (hl : FreeList s m F) (hb : F b) :
    LinkNode s (fun c => F c ∧ c ≠ b) (getPredecessor m b.ptr) ∧
      LinkNode s (fun c => F c ∧ c ≠ b) (getSuccessor m b.ptr) := by
  obtain ⟨xs, hlink, hnd, hmem⟩ := hl
  obtain ⟨us, vs, rfl⟩ := List.append_of_mem ((hmem b.ptr).mpr ⟨b, hb, rfl⟩)
  obtain ⟨hus, hvs⟩ := hlink.middle
  obtain ⟨-, hvnd, hdisj⟩ := List.nodup_append.mp hnd
  obtain ⟨hbv, -⟩ := List.nodup_cons.mp hvnd
  constructor
  · rcases hus.last_mem with h | h
    · have hne : getPredecessor m b.ptr ≠ b.ptr := hdisj _ h _ (by simp)
      exact .inl ((hs.nodeOf_remove hb).mpr ⟨(hmem _).mp (by simp [h]), hne⟩)
    · exact .inr (.inl h)
  · rcases hvs.first_mem with h | h
    · have hne : getSuccessor m b.ptr ≠ b.ptr := fun e => hbv (e ▸ h)
      exact .inl ((hs.nodeOf_remove hb).mpr ⟨(hmem _).mp (by simp [h]), hne⟩)
    · exact .inr (.inr h)

theorem deleteNode_spec (hs : Nodes s F) (hl : FreeList s s.mem F) (hb : F b) :
    ∃ m', deleteNode s b.ptr = s.setMem m' ∧ LinksOnly (LinkNode s F) s.mem m' ∧
      FreeList s m' (fun c => F c ∧ c ≠ b) ∧
      Bypassed s (fun c => F c ∧ c ≠ b) m' b.ptr ∧
      getSuccessor m' b.ptr = getSuccessor s.mem b.ptr ∧
      getPredecessor m' b.ptr = getPredecessor s.mem b.ptr := by
  obtain ⟨hp, hn⟩ := listed_links hs hl hb
  have hp' : LinkNode s F (getPredecessor s.mem b.ptr) := hp.mono fun c hc => hc.1
  have hn' : LinkNode s F (getSuccessor s.mem b.ptr) := hn.mono fun c hc => hc.1
  obtain ⟨xs, hlink, hnd, hmem⟩ := hl
  have hbx : b.ptr ∈ xs := (hmem _).mpr ⟨b, hb, rfl⟩
  obtain ⟨us, vs, rfl⟩ := List.append_of_mem hbx
  have hbnode : LinkNode s F b.ptr := .inl ⟨b, hb, rfl⟩
  obtain ⟨m', heq, honly, hsucc, hpred⟩ := deleteNode_effect hs hbnode hp' hn'
  have hnode : ∀ x ∈ us ++ vs, LinkNode s F x := fun x hx =>
    .inl ((hmem x).mp (by
      rcases List.mem_append.mp hx with h | h <;> simp [h]))
  have hbs : getSuccessor m' b.ptr = getSuccessor s.mem b.ptr := by
    rw [hsucc _ hbnode, ite_self]
  have hbp : getPredecessor m' b.ptr = getPredecessor s.mem b.ptr := by
    rw [hpred _ hbnode, ite_self]
  refine ⟨m', heq, honly, ⟨us ++ vs, ?_, ?_, fun x => ?_⟩, ⟨?_, ?_, ?_, ?_⟩, hbs, hbp⟩
  · refine hlink.remove hnd (fun h => hs.head_not_node ((hmem _).mp h))
      (fun h => hs.tail_not_node ((hmem _).mp h)) (fun x hx => hsucc x (hnode x hx))
      (fun x hx => hpred x (hnode x hx)) ?_ ?_
    · rw [hsucc _ (.inr (.inl rfl))]
      simp only [eq_comm]
    · rw [hpred _ (.inr (.inr rfl))]
      simp only [eq_comm]
  · exact hnd.sublist (by simp)
  · rw [hs.nodeOf_remove hb, ← hmem]
    obtain ⟨-, hvs, hdisj⟩ := List.nodup_append.mp hnd
    obtain ⟨hbv, -⟩ := List.nodup_cons.mp hvs
    simp only [List.mem_append, List.mem_cons]
    constructor
    · rintro (hx | hx)
      · exact ⟨.inl hx, fun e => hdisj x hx b.ptr (by simp) e⟩
      · exact ⟨.inr (.inr hx), fun e => hbv (e ▸ hx)⟩
    · rintro ⟨hx | hx | hx, hne⟩
      · exact .inl hx
      · exact absurd hx hne
      · exact .inr hx
  · rw [hbp]
    exact hp
  · rw [hbs]
    exact hn
  · rw [hbp, hbs, hsucc _ hp', if_pos rfl]
  · rw [hbp, hbs, hpred _ hn', if_pos rfl]

/-- A node that its neighbours have forgotten can be deleted again. -/
theorem deleteNode_idle (h : Bypassed s F s.mem p) : deleteNode s p = s := by
  have h₁ : store s.mem (succPtr (getPredecessor s.mem p)) (getSuccessor s.mem p) = s.mem := by
    rw [← h.forth]
    exact store_load _ _
  have h₂ : store s.mem (getSuccessor s.mem p) (getPredecessor s.mem p) = s.mem := by
    rw [← h.back]
    exact store_load _ _
  simp [deleteNode, h₁, h₂]

/-! ## Linking in front -/

theorem insertNode_effect (hs : Nodes s (fun c => F c ∨ c = b))
    (hfirst : getPredecessor s.mem (getSuccessor s.mem s.heapFreep) = s.heapFreep)
    (hc : LinkNode s (fun c => F c ∨ c = b) (getSuccessor s.mem s.heapFreep)) :
    ∃ m', insertNode s b.ptr = s.setMem m' ∧
      LinksOnly (LinkNode s (fun c => F c ∨ c = b)) s.mem m' ∧
      (∀ u, LinkNode s (fun c => F c ∨ c = b) u → getSuccessor m' u =
        if u = b.ptr then getSuccessor s.mem s.heapFreep
        else if u = s.heapFreep then b.ptr else getSuccessor s.mem u) ∧
      ∀ u, LinkNode s (fun c => F c ∨ c = b) u → getPredecessor m' u =
        if u = getSuccessor s.mem s.heapFreep then b.ptr
        else if u = b.ptr then s.heapFreep else getPredecessor s.mem u := by
  have hb : LinkNode s (fun c => F c ∨ c = b) b.ptr := .inl ⟨b, .inr rfl, rfl⟩
  have hh : LinkNode s (fun c => F c ∨ c = b) s.heapFreep := .inr (.inl rfl)
  have hblt := hs.node_lt hb
  have hhlt := hs.node_lt hh
  have hclt := hs.node_lt hc
  generalize hcur : getSuccessor s.mem s.heapFreep = cur at *
  have hpred : getPredecessor (store s.mem (succPtr s.heapFreep) b.ptr) cur = s.heapFreep := by
    rw [getPredecessor_setSuccessor _ (hs.spaced hh hc), hfirst]
  refine ⟨store (store (store (store s.mem (succPtr s.heapFreep) b.ptr) b.ptr s.heapFreep)
    cur b.ptr) (succPtr b.ptr) cur, ?_, ?_, fun u hu => ?_, fun u hu => ?_⟩
  · simp [insertNode, hcur, hfirst, hpred]
  · exact (((LinksOnly.storeSuccessor hh _).trans (.storePredecessor hb _)).trans
      (.storePredecessor hc _)).trans (.storeSuccessor hb _)
  · rw [getSuccessor_setSuccessor (hs.spaced hb hu) hclt,
      getSuccessor_setPredecessor _ (hs.spaced hc hu),
      getSuccessor_setPredecessor _ (hs.spaced hb hu),
      getSuccessor_setSuccessor (hs.spaced hh hu) hblt]
  · rw [getPredecessor_setSuccessor _ (hs.spaced hb hu),
      getPredecessor_setPredecessor (hs.spaced hc hu) hblt,
      getPredecessor_setPredecessor (hs.spaced hb hu) hhlt,
      getPredecessor_setSuccessor _ (hs.spaced hh hu)]

theorem FreeList.first (hl : FreeList s m F) :
    LinkNode s F (getSuccessor m s.heapFreep) ∧
      getPredecessor m (getSuccessor m s.heapFreep) = s.heapFreep := by
  obtain ⟨xs, hlink, -, hmem⟩ := hl
  cases xs with
  | nil =>
      obtain ⟨hf, hl⟩ := hlink
      rw [hf]
      exact ⟨.inr (.inr rfl), hl⟩
  | cons x xs =>
      obtain ⟨hf, hp, -⟩ := hlink
      rw [hf]
      exact ⟨.inl ((hmem x).mp (by simp)), hp⟩

theorem insertNode_spec (hs : Nodes s (fun c => F c ∨ c = b)) (hfresh : ¬F b)
    (hl : FreeList s s.mem F) :
    ∃ m', insertNode s b.ptr = s.setMem m' ∧
      LinksOnly (LinkNode s (fun c => F c ∨ c = b)) s.mem m' ∧
      FreeList s m' (fun c => F c ∨ c = b) ∧
      (∀ u, LinkNode s (fun c => F c ∨ c = b) u → getSuccessor m' u =
        if u = b.ptr then getSuccessor s.mem s.heapFreep
        else if u = s.heapFreep then b.ptr else getSuccessor s.mem u) ∧
      ∀ u, LinkNode s (fun c => F c ∨ c = b) u → getPredecessor m' u =
        if u = getSuccessor s.mem s.heapFreep then b.ptr
        else if u = b.ptr then s.heapFreep else getPredecessor s.mem u := by
  obtain ⟨hfnode, hfirst⟩ := hl.first
  obtain ⟨m', heq, honly, hsucc, hpred⟩ :=
    insertNode_effect hs hfirst (hfnode.mono fun c hc => .inl hc)
  obtain ⟨xs, hlink, hnd, hmem⟩ := hl
  have hbnode : LinkNode s (fun c => F c ∨ c = b) b.ptr := .inl ⟨b, .inr rfl, rfl⟩
  have hbx : b.ptr ∉ xs := by
    intro hx
    obtain ⟨c, hc, hcb⟩ := (hmem _).mp hx
    exact hfresh (hs.ptr_injective (.inl hc) (.inr rfl) hcb ▸ hc)
  have hbh : b.ptr ≠ s.heapFreep := fun e => hs.head_not_node ⟨b, .inr rfl, e⟩
  have hbt : b.ptr ≠ s.tail := fun e => hs.tail_not_node ⟨b, .inr rfl, e⟩
  have hnode : ∀ x ∈ xs, LinkNode s (fun c => F c ∨ c = b) x := fun x hx => by
    obtain ⟨c, hc, hcx⟩ := (hmem x).mp hx
    exact .inl ⟨c, .inl hc, hcx⟩
  have hhx : s.heapFreep ∉ xs := fun hx =>
    hs.head_not_node (by
      obtain ⟨c, hc, hcx⟩ := (hmem _).mp hx
      exact ⟨c, .inl hc, hcx⟩)
  have htx : s.tail ∉ xs := fun hx =>
    hs.tail_not_node (by
      obtain ⟨c, hc, hcx⟩ := (hmem _).mp hx
      exact ⟨c, .inl hc, hcx⟩)
  have hfb : getSuccessor s.mem s.heapFreep ≠ b.ptr := by
    rcases hlink.first_mem with h | h
    · exact fun e => hbx (e ▸ h)
    · exact fun e => hbt (e.symm.trans h)
  refine ⟨m', heq, honly, ⟨b.ptr :: xs, ?_, ?_, fun x => ?_⟩, hsucc, hpred⟩
  · refine hlink.push hnd hhx htx ?_ ?_ ?_ (fun x hx => ?_) (fun x hx => ?_) ?_
    · rw [hsucc _ (.inr (.inl rfl)), if_neg (Ne.symm hbh), if_pos rfl]
    · rw [hsucc _ hbnode, if_pos rfl]
    · rw [hpred _ hbnode, if_neg (Ne.symm hfb), if_pos rfl]
    · have hxb : x ≠ b.ptr := fun e => hbx (e ▸ hx)
      have hxh : x ≠ s.heapFreep := fun e => hhx (e ▸ hx)
      rw [hsucc x (hnode x hx), if_neg hxb, if_neg hxh]
    · have hxb : x ≠ b.ptr := fun e => hbx (e ▸ hx)
      rw [hpred x (hnode x hx), if_neg hxb]
    · rw [hpred _ (.inr (.inr rfl)), if_neg (Ne.symm hbt)]
      simp only [eq_comm]
  · exact List.nodup_cons.mpr ⟨hbx, hnd⟩
  · rw [nodeOf_insert, ← hmem, List.mem_cons]

end CsappLabs.Malloc.Explicit
