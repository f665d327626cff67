import CsappLabs.Foundation.SecondPlace
import CsappLabs.Malloc.Links
import CsappLabs.Malloc.Segregated.Model
import Mathlib.Data.Nat.Log

/-!
# The sixteen free lists

`FreeLists` says that the lists hold exactly the blocks of a set `F`, each
block in the list that its size selects.  `delete_node` takes a block out of
`F` and `insert_node` puts one in; both store in link words and list heads
only.
-/

namespace CsappLabs.Malloc.Segregated

open CsappLabs.Foundation

namespace State

def setMem (s : State) (m : Mem) : State :=
  { s with toMemlib := { s.toMemlib with mem := m } }

variable {s : State} {m m' : Mem} {p v : Nat}

@[simp] theorem setMem_mem : (s.setMem m).mem = m := rfl
@[simp] theorem setMem_memBrk : (s.setMem m).memBrk = s.memBrk := rfl
@[simp] theorem setMem_memStartBrk : (s.setMem m).memStartBrk = s.memStartBrk := rfl
@[simp] theorem setMem_strays : (s.setMem m).strays = s.strays := rfl
@[simp] theorem setMem_heapListp : (s.setMem m).heapListp = s.heapListp := rfl
@[simp] theorem setMem_segFreeListp : (s.setMem m).segFreeListp = s.segFreeListp := rfl
@[simp] theorem setMem_setMem : (s.setMem m).setMem m' = s.setMem m' := rfl
@[simp] theorem setMem_self : s.setMem s.mem = s := rfl

theorem put_eq (h : s.InHeap p 4) : s.put p v = s.setMem (store s.mem p v) := by
  simp [put, Memlib.put, setMem, h]

theorem put_stray (h : ¬s.InHeap p 4) :
    s.put p v = { s.setMem (store s.mem p v) with strays := p :: s.strays } := by
  simp [put, Memlib.put, setMem, h]

end State

/-! ## Selecting a list -/

def listIndex (n : Nat) : Nat := min 15 (Nat.log2 n)

theorem listIndex_lt (n : Nat) : listIndex n < 16 := by
  unfold listIndex
  omega

theorem selectList_eq (k n : Nat) (hk : k ≤ 15) (hn : 0 < n) :
    selectList k n = (n >>> min k (Nat.log2 n), 15 - k + min k (Nat.log2 n)) := by
  induction k generalizing n with
  | zero => simp [selectList, maxSegEntry]
  | succ k ih =>
      by_cases h : n > 1
      · have hhalf : n >>> 1 = n / 2 := Nat.shiftRight_one n
        have hlog : Nat.log2 n = Nat.log2 (n / 2) + 1 := by
          rw [Nat.log2_def, if_pos (by omega)]
        simp only [selectList, if_pos h]
        rw [hhalf, ih (n / 2) (by omega) (by omega), hlog, Nat.succ_min_succ,
          Nat.shiftRight_succ_inside]
        congr 1
        omega
      · obtain rfl : n = 1 := by omega
        have hlog : Nat.log2 1 = 0 := by decide
        simp [selectList, maxSegEntry, hlog]

theorem selectList_index {n : Nat} (hn : 0 < n) :
    (selectList (maxSegEntry - 1) n).2 = listIndex n := by
  rw [selectList_eq _ _ (by decide) hn]
  simp [listIndex, maxSegEntry]

/-! ## Nodes and list heads -/

/-- `F` is a set of blocks whose link words lie in the heap above the list
heads, no two of them overlapping. -/
structure Nodes (s : State) (F : Block → Prop) : Prop where
  apart : ∀ b c, F b → F c → b = c ∨ b.ptr + 8 ≤ c.ptr ∨ c.ptr + 8 ≤ b.ptr
  above : ∀ b, F b → s.segFreeListp + 64 ≤ b.ptr
  below : ∀ b, F b → b.ptr + 8 ≤ s.memBrk
  size_ge : ∀ b, F b → 16 ≤ b.size
  size_lt : ∀ b, F b → b.size < 2 ^ 30
  heads : s.memStartBrk ≤ s.segFreeListp ∧ s.segFreeListp + 64 ≤ s.memBrk
  brk_lt : s.memBrk < 2 ^ 32

def LinkNode (s : State) (F : Block → Prop) (p : Nat) : Prop :=
  NodeOf F p ∨ ∃ k < 8, p = s.segFreeListp + 8 * k

def nodesFrom (m : Mem) : Nat → Nat → List Nat
  | 0, _ => []
  | fuel + 1, p => if p = 0 then [] else p :: nodesFrom m fuel (getSuccessor m p)

def State.nodes (s : State) (i : Nat) : List Nat :=
  nodesFrom s.mem walkFuel (s.selectSegEntry i)

def ListIs (m : Mem) (w : Nat) (P : Nat → Prop) (xs : List Nat) : Prop :=
  ∃ l, Linked (getSuccessor m) (getPredecessor m) 0 w xs l 0 ∧ xs.Nodup ∧ ∀ p, p ∈ xs ↔ P p

def ListHolds (m : Mem) (w : Nat) (P : Nat → Prop) : Prop :=
  ∃ xs l, Linked (getSuccessor m) (getPredecessor m) 0 w xs l 0 ∧ xs.Nodup ∧
    ∀ p, p ∈ xs ↔ P p

def InList (F : Block → Prop) (i p : Nat) : Prop :=
  ∃ b, F b ∧ b.ptr = p ∧ listIndex b.size = i

def FreeLists (m : Mem) (segp : Nat) (F : Block → Prop) : Prop :=
  ∀ i < 16, ListHolds m (load m (segp + 4 * i)) (InList F i)

variable {s : State} {F : Block → Prop} {b c : Block} {m m' : Mem} {i p u v w : Nat}

theorem nodesFrom_eq {prev f last : Nat} {xs : List Nat}
    (h : Linked (getSuccessor m) (getPredecessor m) prev f xs last 0) (h0 : 0 ∉ xs)
    (fuel : Nat) (hfuel : xs.length < fuel) : nodesFrom m fuel f = xs := by
  induction xs generalizing prev f fuel with
  | nil =>
      obtain ⟨fuel, rfl⟩ := Nat.exists_eq_add_of_lt hfuel
      simp [nodesFrom, h.1]
  | cons x xs ih =>
      obtain ⟨rfl, -, htail⟩ := h
      simp only [List.mem_cons, not_or] at h0
      cases fuel with
      | zero => simp at hfuel
      | succ fuel =>
          rw [nodesFrom, if_neg (Ne.symm h0.1), ih htail h0.2 fuel (by simpa using hfuel)]

theorem InList.node (h : InList F i p) : NodeOf F p := by
  obtain ⟨b, hb, hp, -⟩ := h
  exact ⟨b, hb, hp⟩

namespace Nodes

theorem spaced (hs : Nodes s F) (hp : NodeOf F p) (hu : NodeOf F u) : Spaced p u := by
  obtain ⟨b, hb, rfl⟩ := hp
  obtain ⟨c, hc, rfl⟩ := hu
  rcases hs.apart b c hb hc with rfl | h | h
  · exact .inl rfl
  · exact .inr (.inl h)
  · exact .inr (.inr h)

theorem node_ge (hs : Nodes s F) (hp : NodeOf F p) : s.segFreeListp + 64 ≤ p := by
  obtain ⟨b, hb, rfl⟩ := hp
  exact hs.above b hb

theorem node_le (hs : Nodes s F) (hp : NodeOf F p) : p + 8 ≤ s.memBrk := by
  obtain ⟨b, hb, rfl⟩ := hp
  exact hs.below b hb

theorem node_pos (hs : Nodes s F) (hp : NodeOf F p) : p ≠ 0 := by
  have := hs.node_ge hp
  omega

theorem node_lt (hs : Nodes s F) (hp : NodeOf F p) : p < 2 ^ 32 := by
  have htop := hs.node_le hp
  have hbrk := hs.brk_lt
  omega

theorem ptr_injective (hs : Nodes s F) (hb : F b) (hc : F c) (h : b.ptr = c.ptr) :
    b = c := by
  rcases hs.apart b c hb hc with rfl | h' | h'
  · rfl
  · omega
  · omega

theorem index_unique (hs : Nodes s F) {j : Nat} (hi : InList F i p) (hj : InList F j p) :
    i = j := by
  obtain ⟨b, hb, rfl, rfl⟩ := hi
  obtain ⟨c, hc, hcb, rfl⟩ := hj
  rw [hs.ptr_injective hb hc hcb.symm]

theorem mono {F' : Block → Prop} (hs : Nodes s F) (h : ∀ b, F' b → F b) : Nodes s F' where
  apart b c hb hc := hs.apart b c (h b hb) (h c hc)
  above b hb := hs.above b (h b hb)
  below b hb := hs.below b (h b hb)
  size_ge b hb := hs.size_ge b (h b hb)
  size_lt b hb := hs.size_lt b (h b hb)
  heads := hs.heads
  brk_lt := hs.brk_lt

theorem setMem (hs : Nodes s F) (m : Mem) : Nodes (s.setMem m) F :=
  ⟨hs.apart, hs.above, hs.below, hs.size_ge, hs.size_lt, hs.heads, hs.brk_lt⟩

theorem setPredecessor_eq (hs : Nodes s F) (hp : NodeOf F p) (m : Mem) :
    (s.setMem m).setPredecessor p v = s.setMem (store m p v) := by
  have h₁ := hs.node_ge hp
  have h₂ := hs.node_le hp
  have h₃ := hs.heads
  exact State.put_eq ⟨by simp; omega, by simp; omega⟩

theorem setSuccessor_eq (hs : Nodes s F) (hp : NodeOf F p) (m : Mem) :
    (s.setMem m).setSuccessor p v = s.setMem (store m (succPtr p) v) := by
  have h₁ := hs.node_ge hp
  have h₂ := hs.node_le hp
  have h₃ := hs.heads
  exact State.put_eq ⟨by simp [succPtr]; omega, by simp [succPtr]; omega⟩

theorem setSegEntry_eq (hs : Nodes s F) (hi : i < 16) (m : Mem) :
    (s.setMem m).setSegEntry i v =
      s.setMem (store m (s.segFreeListp + 4 * i) v) := by
  have h₃ := hs.heads
  exact State.put_eq ⟨by simp; omega, by simp; omega⟩

theorem nodesFrom_of_list (hs : Nodes s F) {xs : List Nat}
    (h : ListIs m w (InList F i) xs) : nodesFrom m walkFuel w = xs := by
  obtain ⟨l, hlink, hnd, hmem⟩ := h
  have h0 : 0 ∉ xs := fun h0 => hs.node_pos ((hmem 0).mp h0).node rfl
  have hlt : ∀ x ∈ xs, x < 2 ^ 32 := fun x hx => hs.node_lt ((hmem x).mp hx).node
  exact nodesFrom_eq hlink h0 walkFuel (length_lt_of_nodup hnd h0 hlt (by decide))

theorem listIs_nodes (hs : Nodes s F) (hl : FreeLists s.mem s.segFreeListp F) (hi : i < 16) :
    ListIs s.mem (s.selectSegEntry i) (InList F i) (s.nodes i) := by
  obtain ⟨xs, hxs⟩ := hl i hi
  have hnodes : s.nodes i = xs := hs.nodesFrom_of_list hxs
  rw [hnodes]
  exact hxs

theorem zero_not_mem (hs : Nodes s F) {xs : List Nat} (hmem : ∀ p, p ∈ xs ↔ InList F i p) :
    0 ∉ xs :=
  fun h0 => hs.node_pos ((hmem 0).mp h0).node rfl

theorem ne_of_other (hs : Nodes s F) {xs : List Nat} {j : Nat} (hij : i ≠ j)
    (hmem : ∀ p, p ∈ xs ↔ InList F i p) (hq : p = 0 ∨ InList F j p) (hu : u ∈ xs) : u ≠ p := by
  rintro rfl
  rcases hq with rfl | hq
  · exact hs.zero_not_mem hmem hu
  · exact hij (hs.index_unique ((hmem u).mp hu) hq)

theorem linkNode_head (i : Nat) (hi : i < 16) :
    ∃ p, LinkNode s F p ∧ p ≤ s.segFreeListp + 4 * i ∧ s.segFreeListp + 4 * i + 4 ≤ p + 8 :=
  ⟨s.segFreeListp + 8 * (i / 2), .inr ⟨i / 2, by omega, rfl⟩, by omega, by omega⟩

theorem linksOnly_head (_hs : Nodes s F) (v : Nat) (hi : i < 16) :
    LinksOnly (LinkNode s F) m (store m (s.segFreeListp + 4 * i) v) := by
  obtain ⟨p, hp, h₁, h₂⟩ := linkNode_head (s := s) (F := F) i hi
  intro x hx
  have := hx p hp
  exact store_of_outside m v (by omega)

theorem load_head_store (_hs : Nodes s F) (v : Nat) {j : Nat} (hv : v < 2 ^ 32) :
    load (store m (s.segFreeListp + 4 * i) v) (s.segFreeListp + 4 * j) =
      if j = i then v else load m (s.segFreeListp + 4 * j) := by
  by_cases h : j = i
  · rw [if_pos h, h, load_store_same, Nat.mod_eq_of_lt hv]
  · rw [if_neg h, load_store_of_apart _ _ (by omega)]

end Nodes

/-! ## Unlinking -/

/-- The links and the list heads after `delete_node` of the block `b`, which is
between `pre` and `nxt`. -/
structure Unlinked (s : State) (F : Block → Prop) (b : Block) (pre nxt : Nat) (m' : Mem) :
    Prop where
  only : LinksOnly (LinkNode s F) s.mem m'
  succ : ∀ u, NodeOf F u → getSuccessor m' u = if u = pre then nxt else getSuccessor s.mem u
  pred : ∀ u, NodeOf F u →
    getPredecessor m' u = if u = nxt then pre else getPredecessor s.mem u
  head : ∀ i < 16, load m' (s.segFreeListp + 4 * i) =
    if i = listIndex b.size ∧ pre = 0 then nxt else load s.mem (s.segFreeListp + 4 * i)

theorem unlinked_only (hs : Nodes s F) (b : Block) :
    Unlinked s F b 0 0 (store s.mem (s.segFreeListp + 4 * listIndex b.size) 0) := by
  have hi16 := listIndex_lt b.size
  refine ⟨hs.linksOnly_head _ hi16, fun u hu => ?_, fun u hu => ?_, fun i hi => ?_⟩
  · have hge := hs.node_ge hu
    rw [getSuccessor_storeApart _ (by omega), if_neg (hs.node_pos hu)]
  · have hge := hs.node_ge hu
    rw [getPredecessor_storeApart _ (by omega), if_neg (hs.node_pos hu)]
  · simp only [hs.load_head_store _ (Nat.two_pow_pos 32), and_true]

theorem unlinked_first {nxt : Nat} (hs : Nodes s F) (b : Block) (hn : NodeOf F nxt) :
    Unlinked s F b 0 nxt
      (store (store s.mem (s.segFreeListp + 4 * listIndex b.size) nxt) nxt 0) := by
  have hi16 := listIndex_lt b.size
  have hge := hs.node_ge hn
  have hlt := hs.node_lt hn
  refine ⟨(hs.linksOnly_head _ hi16).trans (.storePredecessor (.inl hn) _), fun u hu => ?_,
    fun u hu => ?_, fun i hi => ?_⟩
  · have hgu := hs.node_ge hu
    rw [getSuccessor_setPredecessor _ (hs.spaced hn hu), getSuccessor_storeApart _ (by omega),
      if_neg (hs.node_pos hu)]
  · have hgu := hs.node_ge hu
    rw [getPredecessor_setPredecessor (hs.spaced hn hu) (by omega),
      getPredecessor_storeApart _ (by omega)]
  · rw [load_setPredecessor _ (by omega), hs.load_head_store _ hlt]
    simp only [and_true]

theorem unlinked_last {pre : Nat} (hs : Nodes s F) (b : Block) (hp : NodeOf F pre) :
    Unlinked s F b pre 0 (store s.mem (succPtr pre) 0) := by
  have hge := hs.node_ge hp
  refine ⟨.storeSuccessor (.inl hp) _, fun u hu => ?_, fun u hu => ?_, fun i hi => ?_⟩
  · rw [getSuccessor_setSuccessor (hs.spaced hp hu) (by omega)]
  · rw [getPredecessor_setSuccessor _ (hs.spaced hp hu), if_neg (hs.node_pos hu)]
  · rw [load_setSuccessor _ (by omega), if_neg fun h => hs.node_pos hp h.2]

theorem unlinked_middle {pre nxt : Nat} (hs : Nodes s F) (b : Block) (hp : NodeOf F pre)
    (hn : NodeOf F nxt) :
    Unlinked s F b pre nxt (store (store s.mem (succPtr pre) nxt) nxt pre) := by
  have hgp := hs.node_ge hp
  have hgn := hs.node_ge hn
  refine ⟨(LinksOnly.storeSuccessor (.inl hp) _).trans (.storePredecessor (.inl hn) _),
    fun u hu => ?_, fun u hu => ?_, fun i hi => ?_⟩
  · rw [getSuccessor_setPredecessor _ (hs.spaced hn hu),
      getSuccessor_setSuccessor (hs.spaced hp hu) (hs.node_lt hn)]
  · rw [getPredecessor_setPredecessor (hs.spaced hn hu) (hs.node_lt hp),
      getPredecessor_setSuccessor _ (hs.spaced hp hu)]
  · rw [load_setPredecessor _ (by omega), load_setSuccessor _ (by omega),
      if_neg fun h => hs.node_pos hp h.2]

theorem deleteNode_effect (hs : Nodes s F) (hb : F b)
    (hsize : getSize s.mem (hdrp b.ptr) = b.size)
    (hp : getPredecessor s.mem b.ptr = 0 ∨ NodeOf F (getPredecessor s.mem b.ptr))
    (hn : getSuccessor s.mem b.ptr = 0 ∨ NodeOf F (getSuccessor s.mem b.ptr)) :
    ∃ m', deleteNode s b.ptr = s.setMem m' ∧
      Unlinked s F b (getPredecessor s.mem b.ptr) (getSuccessor s.mem b.ptr) m' := by
  have hidx := selectList_index (n := b.size) (by have := hs.size_ge b hb; omega)
  have hbn : NodeOf F b.ptr := ⟨b, hb, rfl⟩
  have hgb := hs.node_ge hbn
  have hi16 := listIndex_lt b.size
  generalize hpe : getPredecessor s.mem b.ptr = pre at *
  generalize hne : getSuccessor s.mem b.ptr = nxt at *
  have hhead : s.setSegEntry (listIndex b.size) nxt =
      s.setMem (store s.mem (s.segFreeListp + 4 * listIndex b.size) nxt) :=
    hs.setSegEntry_eq hi16 s.mem
  unfold deleteNode
  simp only [hsize, hidx, hpe, hne]
  rcases hp with rfl | hpn
  · rcases hn with rfl | hnn
    · exact ⟨_, by simpa using hhead, unlinked_only hs b⟩
    · have hnxt : getSuccessor (store s.mem (s.segFreeListp + 4 * listIndex b.size) nxt)
          b.ptr = nxt := by
        rw [getSuccessor_storeApart _ (by omega), hne]
      exact ⟨_, by simp [hs.node_pos hnn, hhead, hnxt, hs.setPredecessor_eq hnn],
        unlinked_first hs b hnn⟩
  · have hlink : ∀ v, s.setSuccessor pre v = s.setMem (store s.mem (succPtr pre) v) :=
      fun v => hs.setSuccessor_eq hpn s.mem
    rcases hn with rfl | hnn
    · exact ⟨_, by simp [hs.node_pos hpn, hlink], unlinked_last hs b hpn⟩
    · have hnxt : getSuccessor (store s.mem (succPtr pre) nxt) b.ptr = nxt := by
        rw [getSuccessor_setSuccessor (hs.spaced hpn hbn) (hs.node_lt hnn), hne, ite_self]
      have hpre : getPredecessor (store s.mem (succPtr pre) nxt) b.ptr = pre := by
        rw [getPredecessor_setSuccessor _ (hs.spaced hpn hbn), hpe]
      exact ⟨_, by simp [hs.node_pos hpn, hs.node_pos hnn, hlink, hnxt, hpre,
          hs.setPredecessor_eq hnn],
        unlinked_middle hs b hpn hnn⟩

theorem inList_remove (hs : Nodes s F) (hb : F b) {q : Nat} :
    InList (fun c => F c ∧ c ≠ b) i q ↔ InList F i q ∧ q ≠ b.ptr := by
  constructor
  · rintro ⟨c, ⟨hc, hne⟩, rfl, hi⟩
    exact ⟨⟨c, hc, rfl, hi⟩, fun e => hne (hs.ptr_injective hc hb e)⟩
  · rintro ⟨⟨c, hc, rfl, hi⟩, hne⟩
    exact ⟨c, ⟨hc, fun e => hne (by rw [e])⟩, rfl, hi⟩

theorem Unlinked.own {us vs : List Nat}
    (h : Unlinked s F b (getPredecessor s.mem b.ptr) (getSuccessor s.mem b.ptr) m')
    (hs : Nodes s F) (hb : F b)
    (hlist : ListIs s.mem (s.selectSegEntry (listIndex b.size)) (InList F (listIndex b.size))
      (us ++ b.ptr :: vs)) :
    ListIs m' (load m' (s.segFreeListp + 4 * listIndex b.size))
      (InList (fun c => F c ∧ c ≠ b) (listIndex b.size))
      ((us ++ b.ptr :: vs).filter (· ≠ b.ptr)) := by
  obtain ⟨l, hlink, hnd, hmem⟩ := hlist
  have h0 := hs.zero_not_mem hmem
  have hnd' := List.nodup_middle.mp hnd
  simp only [List.nodup_cons, List.mem_append, not_or] at hnd'
  have hrest : (us ++ b.ptr :: vs).filter (· ≠ b.ptr) = us ++ vs := by
    have hus : us.filter (· ≠ b.ptr) = us :=
      List.filter_eq_self.mpr fun q hq => by
        simpa using fun e : q = b.ptr => hnd'.1.1 (e ▸ hq)
    have hvs : vs.filter (· ≠ b.ptr) = vs :=
      List.filter_eq_self.mpr fun q hq => by
        simpa using fun e : q = b.ptr => hnd'.1.2 (e ▸ hq)
    rw [List.filter_append, List.filter_cons_of_neg (by simp), hus, hvs]
  have hnode : ∀ u ∈ us ++ vs, NodeOf F u := fun u hu =>
    ((hmem u).mp (by simp at hu ⊢; tauto)).node
  rw [hrest]
  refine ⟨if getSuccessor s.mem b.ptr = 0 then getPredecessor s.mem b.ptr else l, ?_, ?_, ?_⟩
  · refine hlink.remove hnd h0 h0 (fun u hu => h.succ u (hnode u hu))
      (fun u hu => h.pred u (hnode u hu)) ?_ rfl
    simp only [h.head _ (listIndex_lt b.size), true_and]
    rfl
  · exact hnd.sublist (by simp)
  · intro q
    rw [inList_remove hs hb, ← hmem q]
    simp only [List.mem_append, List.mem_cons]
    constructor
    · rintro (hq | hq)
      · exact ⟨.inl hq, fun e => hnd'.1.1 (e ▸ hq)⟩
      · exact ⟨.inr (.inr hq), fun e => hnd'.1.2 (e ▸ hq)⟩
    · rintro ⟨hq | hq | hq, hne⟩
      · exact .inl hq
      · exact absurd hq hne
      · exact .inr hq

theorem Unlinked.other {pre nxt : Nat} {xs : List Nat} (h : Unlinked s F b pre nxt m')
    (hs : Nodes s F) (hb : F b) (hi : i < 16) (hib : i ≠ listIndex b.size)
    (hp : pre = 0 ∨ InList F (listIndex b.size) pre)
    (hn : nxt = 0 ∨ InList F (listIndex b.size) nxt)
    (hlist : ListIs s.mem (s.selectSegEntry i) (InList F i) xs) :
    ListIs m' (load m' (s.segFreeListp + 4 * i)) (InList (fun c => F c ∧ c ≠ b) i)
      (xs.filter (· ≠ b.ptr)) := by
  obtain ⟨k, hlink, hnd, hmem⟩ := hlist
  have hrest : xs.filter (· ≠ b.ptr) = xs :=
    List.filter_eq_self.mpr fun q hq => by
      simpa using hs.ne_of_other hib hmem (.inr ⟨b, hb, rfl, rfl⟩) hq
  have hw : load m' (s.segFreeListp + 4 * i) = s.selectSegEntry i := by
    rw [h.head i hi, if_neg fun e => hib e.1]
    rfl
  rw [hrest, hw]
  refine ⟨k, hlink.congr (fun u hu => ?_) fun u hu => ?_, hnd, fun q => ?_⟩
  · rw [h.succ u ((hmem u).mp hu).node, if_neg (hs.ne_of_other hib hmem hp hu)]
  · rw [h.pred u ((hmem u).mp hu).node, if_neg (hs.ne_of_other hib hmem hn hu)]
  · rw [inList_remove hs hb, hmem q]
    refine ⟨fun hq => ⟨hq, ?_⟩, And.left⟩
    rintro rfl
    exact hib (hs.index_unique hq ⟨b, hb, rfl, rfl⟩)

theorem deleteNode_spec (hs : Nodes s F) (hl : FreeLists s.mem s.segFreeListp F)
    (hb : F b) (hsize : getSize s.mem (hdrp b.ptr) = b.size) :
    ∃ m', deleteNode s b.ptr = s.setMem m' ∧ LinksOnly (LinkNode s F) s.mem m' ∧
      ∀ i < 16, ListIs m' (load m' (s.segFreeListp + 4 * i))
        (InList (fun c => F c ∧ c ≠ b) i) ((s.nodes i).filter (· ≠ b.ptr)) := by
  have hown := hs.listIs_nodes hl (listIndex_lt b.size)
  obtain ⟨l, hlink, -, hmem⟩ := id hown
  obtain ⟨us, vs, hxs⟩ := List.append_of_mem ((hmem _).mpr ⟨b, hb, rfl, rfl⟩)
  rw [hxs] at hlink hmem hown
  obtain ⟨hus, hvs⟩ := hlink.middle
  have hp : getPredecessor s.mem b.ptr = 0 ∨
      InList F (listIndex b.size) (getPredecessor s.mem b.ptr) := by
    rcases hus.last_mem with h | h
    · exact .inr ((hmem _).mp (by simp [h]))
    · exact .inl h
  have hn : getSuccessor s.mem b.ptr = 0 ∨
      InList F (listIndex b.size) (getSuccessor s.mem b.ptr) := by
    rcases hvs.first_mem with h | h
    · exact .inr ((hmem _).mp (by simp [h]))
    · exact .inl h
  obtain ⟨m', heq, hunlinked⟩ := deleteNode_effect hs hb hsize (hp.imp_right InList.node)
    (hn.imp_right InList.node)
  refine ⟨m', heq, hunlinked.only, fun i hi => ?_⟩
  by_cases hib : i = listIndex b.size
  · rw [hib, hxs]
    exact hunlinked.own hs hb hown
  · exact hunlinked.other hs hb hi hib hp hn (hs.listIs_nodes hl hi)

/-! ## Linking -/

/-- The search for a place stops at once: a block of the list is never smaller
than what the class loop has left of `size`. -/
theorem size_ge_shifted {n k : Nat} (hn : n < 2 ^ 30) (hk : 16 ≤ k)
    (h : listIndex k = listIndex n) : ¬k < n >>> listIndex n := by
  have hn0 : n = 0 ∨ n ≠ 0 := by omega
  rcases hn0 with rfl | hn0
  · simp
  rw [Nat.shiftRight_eq_div_pow]
  by_cases hlog : Nat.log2 n ≤ 15
  · have hidx : listIndex n = Nat.log2 n := Nat.min_eq_right hlog
    have hlt : n < 2 ^ (Nat.log2 n + 1) := (Nat.log2_lt hn0).mp (by omega)
    have hone : n / 2 ^ Nat.log2 n < 2 := by
      rw [Nat.div_lt_iff_lt_mul (Nat.two_pow_pos _)]
      rw [pow_succ] at hlt
      omega
    rw [hidx]
    omega
  · have hidx : listIndex n = 15 := Nat.min_eq_left (by omega)
    have hk15 : 15 ≤ Nat.log2 k := by
      rw [hidx] at h
      unfold listIndex at h
      omega
    have hkge : 2 ^ 15 ≤ k := (Nat.le_log2 (by omega)).mp hk15
    rw [hidx]
    omega

theorem selectList_size {n : Nat} (hn : 0 < n) :
    selectList (maxSegEntry - 1) n = (n >>> listIndex n, listIndex n) := by
  rw [selectList_eq _ _ (by decide) hn]
  simp [listIndex, maxSegEntry]

/-- The links and the list heads after `insert_node` of the block `b` behind the
first node `h` of its list, in front of `nxt`. -/
structure LinkedBehind (s : State) (F : Block → Prop) (b : Block) (h nxt : Nat) (m' : Mem) :
    Prop where
  only : LinksOnly (LinkNode s (fun c => F c ∨ c = b)) s.mem m'
  succ : ∀ u, NodeOf (fun c => F c ∨ c = b) u → getSuccessor m' u =
    if u = b.ptr then nxt else if u = h then b.ptr else getSuccessor s.mem u
  pred : ∀ u, NodeOf (fun c => F c ∨ c = b) u → getPredecessor m' u =
    if u = b.ptr then h else if u = nxt then b.ptr else getPredecessor s.mem u
  head : ∀ i < 16, load m' (s.segFreeListp + 4 * i) =
    if i = listIndex b.size ∧ h = 0 then b.ptr else load s.mem (s.segFreeListp + 4 * i)

theorem node_inserted (F : Block → Prop) (b : Block) : NodeOf (fun c => F c ∨ c = b) b.ptr :=
  ⟨b, .inr rfl, rfl⟩

theorem linkedBehind_nothing (hs : Nodes s (fun c => F c ∨ c = b)) :
    LinkedBehind s F b 0 0 (store (store (store s.mem b.ptr 0) (succPtr b.ptr) 0)
      (s.segFreeListp + 4 * listIndex b.size) b.ptr) := by
  have hb := node_inserted F b
  have hgb := hs.node_ge hb
  have hi16 := listIndex_lt b.size
  refine ⟨((LinksOnly.storePredecessor (.inl hb) _).trans
      (.storeSuccessor (.inl hb) _)).trans (hs.linksOnly_head _ hi16),
    fun u hu => ?_, fun u hu => ?_, fun i hi => ?_⟩
  · have hgu := hs.node_ge hu
    rw [getSuccessor_storeApart _ (by omega),
      getSuccessor_setSuccessor (hs.spaced hb hu) (by omega),
      getSuccessor_setPredecessor _ (hs.spaced hb hu), if_neg (hs.node_pos hu)]
  · have hgu := hs.node_ge hu
    rw [getPredecessor_storeApart _ (by omega), getPredecessor_setSuccessor _ (hs.spaced hb hu),
      getPredecessor_setPredecessor (hs.spaced hb hu) (by omega), if_neg (hs.node_pos hu)]
  · rw [hs.load_head_store _ (hs.node_lt hb), load_setSuccessor _ (by omega),
      load_setPredecessor _ (by omega)]
    simp only [and_true]

theorem linkedBehind_only {h : Nat} (hs : Nodes s (fun c => F c ∨ c = b))
    (hh : NodeOf (fun c => F c ∨ c = b) h) :
    LinkedBehind s F b h 0
      (store (store (store s.mem b.ptr h) (succPtr h) b.ptr) (succPtr b.ptr) 0) := by
  have hb := node_inserted F b
  have hgb := hs.node_ge hb
  have hgh := hs.node_ge hh
  refine ⟨((LinksOnly.storePredecessor (.inl hb) _).trans
      (.storeSuccessor (.inl hh) _)).trans (.storeSuccessor (.inl hb) _),
    fun u hu => ?_, fun u hu => ?_, fun i hi => ?_⟩
  · rw [getSuccessor_setSuccessor (hs.spaced hb hu) (by omega),
      getSuccessor_setSuccessor (hs.spaced hh hu) (hs.node_lt hb),
      getSuccessor_setPredecessor _ (hs.spaced hb hu)]
  · rw [getPredecessor_setSuccessor _ (hs.spaced hb hu),
      getPredecessor_setSuccessor _ (hs.spaced hh hu),
      getPredecessor_setPredecessor (hs.spaced hb hu) (hs.node_lt hh), if_neg (hs.node_pos hu)]
  · rw [load_setSuccessor _ (by omega), load_setSuccessor _ (by omega),
      load_setPredecessor _ (by omega), if_neg fun e => hs.node_pos hh e.2]

theorem linkedBehind_first {h nxt : Nat} (hs : Nodes s (fun c => F c ∨ c = b))
    (hh : NodeOf (fun c => F c ∨ c = b) h) (hn : NodeOf (fun c => F c ∨ c = b) nxt)
    (hnb : nxt ≠ b.ptr) :
    LinkedBehind s F b h nxt (store (store (store (store s.mem b.ptr h) (succPtr h) b.ptr)
      (succPtr b.ptr) nxt) nxt b.ptr) := by
  have hb := node_inserted F b
  have hgb := hs.node_ge hb
  have hgh := hs.node_ge hh
  have hgn := hs.node_ge hn
  refine ⟨(((LinksOnly.storePredecessor (.inl hb) _).trans
      (.storeSuccessor (.inl hh) _)).trans (.storeSuccessor (.inl hb) _)).trans
      (.storePredecessor (.inl hn) _),
    fun u hu => ?_, fun u hu => ?_, fun i hi => ?_⟩
  · rw [getSuccessor_setPredecessor _ (hs.spaced hn hu),
      getSuccessor_setSuccessor (hs.spaced hb hu) (hs.node_lt hn),
      getSuccessor_setSuccessor (hs.spaced hh hu) (hs.node_lt hb),
      getSuccessor_setPredecessor _ (hs.spaced hb hu)]
  · rw [getPredecessor_setPredecessor (hs.spaced hn hu) (hs.node_lt hb),
      getPredecessor_setSuccessor _ (hs.spaced hb hu),
      getPredecessor_setSuccessor _ (hs.spaced hh hu),
      getPredecessor_setPredecessor (hs.spaced hb hu) (hs.node_lt hh)]
    by_cases hun : u = nxt
    · rw [if_pos hun, if_neg (by rw [hun]; exact hnb), if_pos hun]
    · rw [if_neg hun, if_neg hun]
  · rw [load_setPredecessor _ (by omega), load_setSuccessor _ (by omega),
      load_setSuccessor _ (by omega), load_setPredecessor _ (by omega),
      if_neg fun e => hs.node_pos hh e.2]

theorem Nodes.old_node (hs : Nodes s (fun c => F c ∨ c = b)) (hfresh : ¬F b)
    (hp : NodeOf F p) : NodeOf (fun c => F c ∨ c = b) p ∧ p ≠ b.ptr := by
  obtain ⟨c, hc, rfl⟩ := hp
  refine ⟨⟨c, .inl hc, rfl⟩, fun e => hfresh ?_⟩
  rw [← hs.ptr_injective (.inl hc) (.inr rfl) e]
  exact hc

theorem insertNode_effect {h nxt : Nat} (hs : Nodes s (fun c => F c ∨ c = b))
    (hfresh : ¬F b) (hhe : s.selectSegEntry (listIndex b.size) = h)
    (hne : (if h ≠ 0 then getSuccessor s.mem h else 0) = nxt)
    (hh : h = 0 ∨ NodeOf F h) (hn : nxt = 0 ∨ NodeOf F nxt)
    (hplace : h ≠ 0 → ¬getSize s.mem (hdrp h) < b.size >>> listIndex b.size) :
    ∃ m', insertNode s b.ptr b.size = some (s.setMem m') ∧ LinkedBehind s F b h nxt m' := by
  have hb := node_inserted F b
  have hi16 := listIndex_lt b.size
  have hsel := selectList_size (n := b.size) (by have := hs.size_ge b (.inr rfl); omega)
  have hfind : findPlace s (b.size >>> listIndex b.size) walkFuel h nxt = some (h, nxt) :=
    if_neg fun hc : h ≠ 0 ∧ getSize s.mem (hdrp h) < b.size >>> listIndex b.size =>
      hplace hc.1 hc.2
  have hpred : ∀ v, s.setPredecessor b.ptr v = s.setMem (store s.mem b.ptr v) :=
    fun v => hs.setPredecessor_eq hb s.mem
  unfold insertNode
  simp only [hsel, hhe, hne, hfind]
  rcases hh with rfl | hhF
  · obtain rfl : nxt = 0 := by simpa using hne.symm
    exact ⟨_, by simp [hpred, hs.setSuccessor_eq hb, hs.setSegEntry_eq hi16],
      linkedBehind_nothing hs⟩
  · obtain ⟨hhn, -⟩ := hs.old_node hfresh hhF
    have hh0 := hs.node_pos hhn
    rcases hn with rfl | hnF
    · exact ⟨_, by simp [hh0, hpred, hs.setSuccessor_eq hb, hs.setSuccessor_eq hhn],
        linkedBehind_only hs hhn⟩
    · obtain ⟨hnn, hnb⟩ := hs.old_node hfresh hnF
      exact ⟨_, by simp [hh0, hs.node_pos hnn, hpred, hs.setSuccessor_eq hb,
          hs.setSuccessor_eq hhn, hs.setPredecessor_eq hnn],
        linkedBehind_first hs hhn hnn hnb⟩

theorem inList_insert {q : Nat} :
    InList (fun c => F c ∨ c = b) i q ↔
      InList F i q ∨ q = b.ptr ∧ i = listIndex b.size := by
  constructor
  · rintro ⟨c, hc | rfl, rfl, hi⟩
    · exact .inl ⟨c, hc, rfl, hi⟩
    · exact .inr ⟨rfl, hi.symm⟩
  · rintro (⟨c, hc, rfl, hi⟩ | ⟨rfl, rfl⟩)
    · exact ⟨c, .inl hc, rfl, hi⟩
    · exact ⟨b, .inr rfl, rfl, rfl⟩

theorem not_mem_fresh (hs : Nodes s (fun c => F c ∨ c = b)) (hfresh : ¬F b) {xs : List Nat}
    (hmem : ∀ p, p ∈ xs ↔ InList F i p) : b.ptr ∉ xs :=
  fun hx => (hs.old_node hfresh ((hmem _).mp hx).node).2 rfl

namespace LinkedBehind

theorem own_nil (h : LinkedBehind s F b 0 0 m')
    (hmem : ∀ p, p ∈ ([] : List Nat) ↔ InList F (listIndex b.size) p) :
    ListIs m' (load m' (s.segFreeListp + 4 * listIndex b.size))
      (InList (fun c => F c ∨ c = b) (listIndex b.size)) [b.ptr] := by
  have hb := node_inserted F b
  refine ⟨b.ptr, ?_, List.nodup_singleton _, fun q => ?_⟩
  · rw [h.head _ (listIndex_lt b.size), if_pos ⟨rfl, rfl⟩]
    refine ⟨rfl, ?_, ?_, rfl⟩
    · rw [h.pred _ hb, if_pos rfl]
    · rw [h.succ _ hb, if_pos rfl]
  · rw [inList_insert, ← hmem q]
    simp

theorem own_cons {x : Nat} {xs : List Nat}
    (h : LinkedBehind s F b x (getSuccessor s.mem x) m')
    (hs : Nodes s (fun c => F c ∨ c = b)) (hfresh : ¬F b)
    (hlist : ListIs s.mem (s.selectSegEntry (listIndex b.size)) (InList F (listIndex b.size))
      (x :: xs)) :
    ListIs m' (load m' (s.segFreeListp + 4 * listIndex b.size))
      (InList (fun c => F c ∨ c = b) (listIndex b.size)) (x :: b.ptr :: xs) := by
  obtain ⟨l, ⟨hx, hp0, htail⟩, hnd, hmem⟩ := hlist
  obtain ⟨hxs, hndx⟩ := List.nodup_cons.mp hnd
  have hb := node_inserted F b
  have hfresh' := not_mem_fresh hs hfresh hmem
  simp only [List.mem_cons, not_or] at hfresh'
  have hnode : ∀ u ∈ x :: xs, NodeOf (fun c => F c ∨ c = b) u ∧ u ≠ b.ptr :=
    fun u hu => hs.old_node hfresh ((hmem u).mp hu).node
  have hx0 := hs.node_pos (hnode x (by simp)).1
  have h0 : 0 ∉ xs := fun e => hs.node_pos (hnode 0 (by simp [e])).1 rfl
  have hxn : x ≠ getSuccessor s.mem x := by
    intro e
    rcases htail.first_mem with hf | hf
    · exact hxs (e ▸ hf)
    · exact hx0 (e.trans hf)
  refine ⟨if getSuccessor s.mem x = 0 then b.ptr else l, ⟨?_, ?_, ?_⟩, ?_, fun q => ?_⟩
  · rw [h.head _ (listIndex_lt b.size), if_neg fun e => hx0 e.2, ← hx]
    rfl
  · rw [h.pred x (hnode x (by simp)).1, if_neg (hnode x (by simp)).2, if_neg hxn, hp0]
  · refine htail.push hndx hxs h0 ?_ ?_ ?_ (fun u hu => ?_) (fun u hu => ?_) rfl
    · rw [h.succ x (hnode x (by simp)).1, if_neg (hnode x (by simp)).2, if_pos rfl]
    · rw [h.succ _ hb, if_pos rfl]
    · rw [h.pred _ hb, if_pos rfl]
    · rw [h.succ u (hnode u (by simp [hu])).1, if_neg (hnode u (by simp [hu])).2,
        if_neg fun e : u = x => hxs (e ▸ hu)]
    · rw [h.pred u (hnode u (by simp [hu])).1, if_neg (hnode u (by simp [hu])).2]
  · refine List.nodup_cons.mpr ⟨?_, List.nodup_cons.mpr ⟨hfresh'.2, hndx⟩⟩
    simp only [List.mem_cons, not_or]
    exact ⟨fun e => hfresh'.1 e.symm, hxs⟩
  · rw [inList_insert, ← hmem q]
    simp only [List.mem_cons, and_true]
    tauto

theorem other {f nxt : Nat} {xs : List Nat} (h : LinkedBehind s F b f nxt m')
    (hs : Nodes s (fun c => F c ∨ c = b)) (hfresh : ¬F b) (hi : i < 16)
    (hib : i ≠ listIndex b.size) (hf : f = 0 ∨ InList F (listIndex b.size) f)
    (hn : nxt = 0 ∨ InList F (listIndex b.size) nxt)
    (hlist : ListIs s.mem (s.selectSegEntry i) (InList F i) xs) :
    ListIs m' (load m' (s.segFreeListp + 4 * i)) (InList (fun c => F c ∨ c = b) i) xs := by
  obtain ⟨k, hlink, hnd, hmem⟩ := hlist
  have hsF : Nodes s F := hs.mono fun c hc => .inl hc
  have hnode : ∀ u ∈ xs, NodeOf (fun c => F c ∨ c = b) u ∧ u ≠ b.ptr :=
    fun u hu => hs.old_node hfresh ((hmem u).mp hu).node
  have hw : load m' (s.segFreeListp + 4 * i) = s.selectSegEntry i := by
    rw [h.head i hi, if_neg fun e => hib e.1]
    rfl
  rw [hw]
  refine ⟨k, hlink.congr (fun u hu => ?_) fun u hu => ?_, hnd, fun q => ?_⟩
  · rw [h.succ u (hnode u hu).1, if_neg (hnode u hu).2,
      if_neg (hsF.ne_of_other hib hmem hf hu)]
  · rw [h.pred u (hnode u hu).1, if_neg (hnode u hu).2,
      if_neg (hsF.ne_of_other hib hmem hn hu)]
  · rw [inList_insert, hmem q]
    simp [hib]

end LinkedBehind

theorem Nodes.first_two (hs : Nodes s F) {xs : List Nat} {f : Nat}
    (hlist : ListIs s.mem f (InList F i) xs) :
    (f = 0 ∨ InList F i f) ∧
      ((if f ≠ 0 then getSuccessor s.mem f else 0) = 0 ∨
        InList F i (if f ≠ 0 then getSuccessor s.mem f else 0)) := by
  obtain ⟨l, hlink, -, hmem⟩ := hlist
  cases xs with
  | nil => simp [hlink.1]
  | cons x xs =>
      obtain ⟨rfl, -, htail⟩ := hlink
      have hf := (hmem f).mp (by simp)
      rw [if_pos (hs.node_pos hf.node)]
      refine ⟨.inr hf, ?_⟩
      rcases htail.first_mem with hx | hx
      · exact .inr ((hmem _).mp (by simp [hx]))
      · exact .inl hx

theorem insertNode_spec (hs : Nodes s (fun c => F c ∨ c = b)) (hfresh : ¬F b)
    (hl : FreeLists s.mem s.segFreeListp F)
    (hsizes : ∀ c, F c → getSize s.mem (hdrp c.ptr) = c.size) :
    ∃ m', insertNode s b.ptr b.size = some (s.setMem m') ∧
      LinksOnly (LinkNode s (fun c => F c ∨ c = b)) s.mem m' ∧
      ∀ i < 16, ListIs m' (load m' (s.segFreeListp + 4 * i))
        (InList (fun c => F c ∨ c = b) i)
        (if i = listIndex b.size then insertSecond b.ptr (s.nodes i) else s.nodes i) := by
  have hsF : Nodes s F := hs.mono fun c hc => .inl hc
  have hown := hsF.listIs_nodes hl (listIndex_lt b.size)
  obtain ⟨hf, hn⟩ := hsF.first_two hown
  have hplace : s.selectSegEntry (listIndex b.size) ≠ 0 →
      ¬getSize s.mem (hdrp (s.selectSegEntry (listIndex b.size))) <
        b.size >>> listIndex b.size := by
    intro hne
    obtain ⟨c, hc, hcp, hci⟩ := hf.resolve_left hne
    rw [← hcp, hsizes c hc]
    exact size_ge_shifted (hs.size_lt b (.inr rfl)) (hsF.size_ge c hc) hci
  obtain ⟨m', heq, hbehind⟩ := insertNode_effect hs hfresh rfl rfl
    (hf.imp_right InList.node) (hn.imp_right InList.node) hplace
  refine ⟨m', heq, hbehind.only, fun i hi => ?_⟩
  by_cases hib : i = listIndex b.size
  · subst hib
    rw [if_pos rfl]
    generalize hxs : s.nodes (listIndex b.size) = xs at hown
    obtain ⟨l, hlink, -, hmem⟩ := id hown
    cases xs with
    | nil =>
        rw [hlink.1] at hbehind
        exact hbehind.own_nil hmem
    | cons x xs =>
        obtain ⟨hx, -, -⟩ := hlink
        have hx0 := hsF.node_pos ((hmem x).mp (by simp)).node
        rw [hx, if_pos hx0] at hbehind
        exact hbehind.own_cons hs hfresh hown
  · rw [if_neg hib]
    exact hbehind.other hs hfresh hi hib hf hn (hsF.listIs_nodes hl hi)

end CsappLabs.Malloc.Segregated
