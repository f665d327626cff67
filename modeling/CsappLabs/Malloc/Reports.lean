import CsappLabs.Malloc.HeapCheck
import CsappLabs.Malloc.Segregated.Runs
import CsappLabs.Malloc.Implicit.Runs
import CsappLabs.Malloc.Explicit.Runs

/-!
# What the heap checkers report

On every heap that a client can reach the checker returns, finds no defect,
and with `verbose` prints the blocks of the heap.  For the explicit list this
needs that no call forgets a block; but the checker does not see a forgotten
block either.
-/

namespace CsappLabs.Malloc

open CsappLabs.Foundation

variable {base : Nat} {bs : List Block}

/-- The checker is silent, and the verbose one prints the prologue, the blocks
`bs` and the end of the heap. -/
def Reports (checkheap : Bool → Nat → Option (List Message)) (heapListp hi : Nat)
    (bs : List Block) : Prop :=
  ∀ lineno, checkheap false lineno = some [] ∧
    checkheap true lineno = some ([.calledFrom lineno, .heapAt heapListp] ++
      (⟨heapListp, 8, true⟩ :: bs).map blockLine ++ [.eol hi])

theorem Layout.reports {m : Mem} {lo hi : Nat} {lists : Option (List Message)}
    (h : Layout m lo bs hi) (hmod : lo % 8 = 0) (hlists : lists = some []) :
    Reports (checkheap lists m (lo - 8)) (lo - 8) hi bs := by
  intro lineno
  have hpass := h.passes hmod
  have hle := h.tiles.le
  have hlt := h.hi_lt
  refine ⟨?_, hpass.checkheap_verbose hlists (by omega) lineno⟩
  rw [checkheap, if_neg (by simp)]
  exact (checkQuietly_nil (by omega)).mpr ⟨hlists, _, _, hpass⟩

theorem Layout.checkList_nil {m : Mem} {lo hi stop prev f last : Nat} {xs : List Nat}
    (h : Layout m lo bs hi) (hmod : lo % 8 = 0)
    (hlink : Linked (getSuccessor m) (getPredecessor m) prev f xs last stop)
    (hstop : stop ∉ xs) (hlen : xs.length < walkFuel)
    (hfree : ∀ x ∈ xs, ∃ b ∈ bs, b.alloc = false ∧ b.ptr = x) :
    checkList m stop walkFuel f = some [] := by
  have hfollow : Follows m stop f xs := by
    clear hlen hfree
    induction xs generalizing prev f with
    | nil => exact hlink.1
    | cons x xs ih =>
        obtain ⟨rfl, -, htail⟩ := hlink
        rw [List.mem_cons, not_or] at hstop
        exact ⟨rfl, Ne.symm hstop.1, ih htail hstop.2⟩
  refine Malloc.checkList_nil.mpr ⟨xs, hfollow, hlen, fun x hx => ?_⟩
  obtain ⟨b, hb, hfree, rfl⟩ := hfree x hx
  have htag := h.tagged b hb
  have hptr := h.tiles.ptr_mod hb
  refine ⟨?_, by omega, ?_⟩
  · rw [h.getAlloc_hdrp hb, hfree]
    rfl
  · rw [h.ftrp_eq hb]
    exact htag.1.trans htag.2.symm

namespace Segregated

variable {s s₀ s₁ : State} {w : World State}

def checkListsFrom (s : State) : Nat → Option (List Message)
  | 0 => some []
  | k + 1 => do
      let out ← checkList s.mem 0 walkFuel (s.selectSegEntry (maxSegEntry - (k + 1)))
      let rest ← checkListsFrom s k
      some (out ++ rest)

def checkLists (s : State) : Option (List Message) := checkListsFrom s maxSegEntry

def checkheap (s : State) : Bool → Nat → Option (List Message) :=
  Malloc.checkheap (checkLists s) s.mem s.heapListp

theorem checkListsFrom_nil {k : Nat} :
    checkListsFrom s k = some [] ↔ ∀ j < k,
      checkList s.mem 0 walkFuel (s.selectSegEntry (maxSegEntry - (j + 1))) = some [] := by
  induction k with
  | zero => simp [checkListsFrom]
  | succ k ih =>
      rw [checkListsFrom]
      constructor
      · intro h j hj
        obtain ⟨out, hout, h⟩ := Option.bind_eq_some_iff.mp h
        obtain ⟨rest, hrest, h⟩ := Option.bind_eq_some_iff.mp h
        obtain ⟨rfl, rfl⟩ := List.append_eq_nil_iff.mp (Option.some.inj h)
        rcases Nat.lt_succ_iff_lt_or_eq.mp hj with hj | rfl
        · exact ih.mp hrest j hj
        · exact hout
      · intro h
        rw [h k (Nat.lt_succ_self k), ih.mpr fun j hj => h j (Nat.lt_succ_of_lt hj)]
        rfl

theorem checkLists_nil :
    checkLists s = some [] ↔
      ∀ i < maxSegEntry, checkList s.mem 0 walkFuel (s.selectSegEntry i) = some [] := by
  rw [checkLists, checkListsFrom_nil]
  constructor
  · intro h i hi
    have hone := h (maxSegEntry - (i + 1)) (by omega)
    rwa [show maxSegEntry - (maxSegEntry - (i + 1) + 1) = i by omega] at hone
  · exact fun h j hj => h _ (by omega)

theorem Sound.reports (h : Sound base s bs) (hbase : base % 8 = 0) :
    Reports (checkheap s) s.heapListp s.memBrk bs := by
  have hmod : (s.heapListp + 8) % 8 = 0 := by
    have hlistp := h.heap.base
    have hstart := h.start
    omega
  refine h.heap.layout.reports hmod (checkLists_nil.mpr fun i hi => ?_)
  obtain ⟨xs, last, hlink, hnd, hmem⟩ := h.heap.lists i hi
  have hnode : ∀ x ∈ xs, ∃ b ∈ bs, b.alloc = false ∧ b.ptr = x := by
    intro x hx
    obtain ⟨b, ⟨hb, hfree⟩, hp, -⟩ := (hmem x).mp hx
    exact ⟨b, hb, hfree, hp⟩
  have h0 : 0 ∉ xs := by
    intro hx
    obtain ⟨b, hb, -, hp⟩ := hnode 0 hx
    have hge := h.heap.layout.ptr_ge hb
    omega
  have hlt : ∀ x ∈ xs, x < 2 ^ 32 := by
    intro x hx
    obtain ⟨b, hb, -, rfl⟩ := hnode x hx
    have hle := h.heap.layout.tiles.ptr_add_size_le hb
    have hhi := h.heap.layout.hi_lt
    omega
  exact h.heap.layout.checkList_nil hmod hlink h0
    (length_lt_of_nodup hnd h0 hlt (by decide)) hnode

end Segregated

namespace Implicit

variable {s s₀ s₁ : State} {w : World State}

def checkheap (s : State) : Bool → Nat → Option (List Message) :=
  Malloc.checkheap (some []) s.mem s.heapListp

theorem Sound.reports (h : Sound base s bs) (hbase : base % 8 = 0) :
    Reports (checkheap s) s.heapListp s.memBrk bs := by
  have hmod : (s.heapListp + 8) % 8 = 0 := by
    have hlistp := h.heap.base
    have hstart := h.start
    omega
  exact h.heap.layout.reports hmod rfl

end Implicit

namespace Explicit

variable {s s₀ s₁ : State} {w : World State}

def checkheap (s : State) : Bool → Nat → Option (List Message) :=
  Malloc.checkheap (checkList s.mem s.tail walkFuel (getSuccessor s.mem s.heapFreep)) s.mem
    s.heapListp

theorem Heap.reports {F : Block → Prop} (h : Heap s bs F) (hbase : s.memStartBrk % 8 = 0) :
    Reports (checkheap s) s.heapListp s.memBrk bs := by
  have hmod : (s.heapListp + 8) % 8 = 0 := by
    have hlistp := h.base
    omega
  obtain ⟨xs, hlink, hnd, hmem⟩ := h.list
  have htail : s.tail ∉ xs := fun hx => h.nodes.tail_not_node ((hmem _).mp hx)
  refine h.layout.reports hmod (h.layout.checkList_nil hmod hlink htail
    (h.list_length hnd hmem) fun x hx => ?_)
  obtain ⟨b, hb, rfl⟩ := (hmem x).mp hx
  exact ⟨b, (h.listed b hb).1, (h.listed b hb).2, rfl⟩

/-- A free block that is in no list is not missed. -/
theorem Lost.reports {e : Block} (h : Lost base e s bs) (hbase : base % 8 = 0) :
    Reports (checkheap s) s.heapListp s.memBrk bs :=
  h.heap.reports (h.start ▸ hbase)

end Explicit

end CsappLabs.Malloc
