import CsappLabs.Foundation.Intervals
import CsappLabs.Malloc.Driver.Acceptance

/-!
# Space utilization

`eval_mm_util` adds up the requested sizes as it goes and remembers the highest
total.  That total is what the live payloads of the heap take at some moment,
and they do not overlap: the utilization of an allocator that refines is below
one.
-/

namespace CsappLabs.Malloc.Driver

open CsappLabs.Foundation

variable {σ : Type} {A : Allocator σ} {Inv : σ → List Block → Prop} {numIds base i room n : Nat}
  {u u' : UtilState σ} {s : σ} {l l' : Ledger} {bs : List Block} {op : Traceop}
  {ops : List Traceop} {blocks sizes : Nat → Nat}

namespace Ledger

def bytes (l : Ledger) : Nat := (l.map Prod.snd).sum

def levels (numIds : Nat) (l : Ledger) : List Traceop → List Nat
  | [] => [l.bytes]
  | op :: ops =>
      l.bytes ::
        match l.use numIds op with
        | none => []
        | some l' => levels numIds l' ops

def peak (numIds : Nat) (l : Ledger) (ops : List Traceop) : Nat :=
  (levels numIds l ops).foldr max 0

@[simp] theorem bytes_cons (i n : Nat) (l : Ledger) : bytes ((i, n) :: l) = n + l.bytes := by
  simp [bytes]

theorem bytes_le_peak (numIds : Nat) (l : Ledger) (ops : List Traceop) :
    l.bytes ≤ l.peak numIds ops := by
  cases ops with
  | nil => simp [peak, levels]
  | cons op ops => simp [peak, levels]

theorem foldr_max_mem {ns : List Nat} (h : ns ≠ []) : ns.foldr max 0 ∈ ns := by
  induction ns with
  | nil => exact absurd rfl h
  | cons n ns ih =>
      by_cases hns : ns = []
      · simp [hns]
      · rw [List.foldr_cons]
        rcases max_choice n (ns.foldr max 0) with hmax | hmax
        · rw [hmax]
          exact List.mem_cons_self
        · rw [hmax]
          exact List.mem_cons_of_mem n (ih hns)

theorem peak_mem (numIds : Nat) (l : Ledger) (ops : List Traceop) :
    l.peak numIds ops ∈ l.levels numIds ops := by
  apply foldr_max_mem
  cases ops with
  | nil => simp [levels]
  | cons op ops => simp [levels]

theorem bytes_without (hids : l.ids.Nodup) (h : (i, n) ∈ l) :
    (l.without i).bytes + n = l.bytes := by
  induction l with
  | nil => simp at h
  | cons e l ih =>
      obtain ⟨j, m⟩ := e
      obtain ⟨hj, hl⟩ := List.nodup_cons.mp hids
      by_cases hji : j = i
      · subst hji
        have hself : without l j = l := by
          apply List.filter_eq_self.mpr
          intro e he
          have hne : e.1 ≠ j := by
            intro hej
            exact hj (List.mem_map.mpr ⟨e, he, hej⟩)
          simpa using hne
        have hcons : without ((j, m) :: l) j = l := by
          rw [without, List.filter_cons_of_neg (by simp)]
          exact hself
        have hnm : n = m := by
          rcases List.mem_cons.mp h with heq | hmem
          · exact (Prod.mk.inj heq).2
          · exact absurd (mem_ids hmem) hj
        rw [hcons, bytes_cons, hnm, Nat.add_comm]
      · have hmem : (i, n) ∈ l := by
          rcases List.mem_cons.mp h with heq | hmem
          · exact absurd (Prod.mk.inj heq).1.symm hji
          · exact hmem
        have hcons : without ((j, m) :: l) i = (j, m) :: without l i := by
          rw [without, List.filter_cons_of_pos (by simpa using hji)]
          rfl
        rw [hcons, bytes_cons, bytes_cons, Nat.add_assoc, ih hl hmem]

end Ledger

theorem Books.bytes_le (hA : Refines A Inv (fun _ _ => True) base)
    (h : Books Inv numIds s blocks sizes l bs) : l.bytes + 16 ≤ (A.memlib s).memBrk - base := by
  obtain ⟨lo, ht, hlo, -⟩ := hA.tiles h.world.inv
  have hle : lo ≤ (A.memlib s).memBrk := ht.le
  have hdistinct := List.pairwise_map.mp h.world.distinct
  have hapart : (l.payloads blocks).Pairwise fun r r' =>
      r.ptr + r.size ≤ r'.ptr ∨ r'.ptr + r'.size ≤ r.ptr :=
    hdistinct.imp_of_mem fun hr hr' hne => h.world.apart hA hr hr' hne
  have hinside : ∀ r ∈ l.payloads blocks,
      base + 16 ≤ r.ptr ∧ r.ptr + r.size ≤ (A.memlib s).memBrk := by
    intro r hr
    obtain ⟨h₁, h₂, -⟩ := h.world.inside hA hr
    exact ⟨h₁, (Nat.le_add_right _ 8).trans h₂⟩
  have hsum := sum_length_le hinside hapart
  have hbytes : (l.payloads blocks).map Payload.size = l.map Prod.snd := by
    simp [Ledger.payloads, Function.comp_def]
  rw [hbytes, ← Ledger.bytes] at hsum
  omega

/-! ## One request -/

structure Counts (Inv : σ → List Block → Prop) (numIds : Nat) (u : UtilState σ) (l : Ledger)
    (bs : List Block) : Prop where
  books : Books Inv numIds u.heap u.blocks u.blockSizes l bs
  total : u.totalSize = l.bytes
  max : u.totalSize ≤ u.maxTotalSize

def Counted (A : Allocator σ) (Inv : σ → List Block → Prop) (numIds : Nat) (u : UtilState σ)
    (op : Traceop) (l' : Ledger) : Prop :=
  (∃ u' bs', utilOp A numIds u op = some (.ok u') ∧ Counts Inv numIds u' l' bs' ∧
    u'.maxTotalSize = max u.maxTotalSize l'.bytes ∧
    (A.memlib u.heap).memBrk ≤ (A.memlib u'.heap).memBrk ∧
    (A.memlib u'.heap).memBrk ≤ (A.memlib u.heap).memBrk + op.reserve) ∨
  ∃ e, utilOp A numIds u op = some (.error e) ∧
    (A.memlib u.heap).memMaxAddr < (A.memlib u.heap).memBrk + op.reserve

theorem toInt_of_lt (hn : n < 2 ^ 31) : toInt n = n := if_pos hn

theorem record_counts {p : Nat} {change : Int}
    (h : Books Inv numIds s (Function.update u.blocks op.index p)
      (Function.update u.blockSizes op.index op.size) l' bs)
    (htotal : u.totalSize + change = l'.bytes) :
    Counts Inv numIds (u.record s op p change) l' bs ∧
      (u.record s op p change).maxTotalSize = max u.maxTotalSize l'.bytes := by
  have hmax : (u.record s op p change).maxTotalSize = max u.maxTotalSize l'.bytes := by
    simp only [UtilState.record, htotal]
    split <;> omega
  exact ⟨⟨h, htotal, by rw [hmax]; exact htotal.le.trans (le_max_right _ _)⟩, hmax⟩

namespace Counts

theorem count_alloc (hA : Refines A Inv (fun _ _ => True) base) (hG : Grows A Inv)
    (h : Counts Inv numIds u l bs) (htype : op.type = .alloc)
    (huse : l.use numIds op = some l') : Counted A Inv numIds u op l' := by
  simp only [Ledger.use, htype, Option.ite_none_right_eq_some] at huse
  obtain ⟨⟨hlt, hnew, hpos, hn⟩, hl'⟩ := huse
  obtain rfl := Option.some.inj hl'
  simp only [Counted, utilOp, htype, Traceop.reserve]
  rcases h.books.malloc hA hlt hnew hpos hn with ⟨s', heq⟩ | ⟨s', bs', b, heq, hb, -, hbooks⟩
  · have htake := hG.malloc h.books.world.inv (by omega) hn heq
    exact .inr ⟨.mallocFailed, by simp [heq], htake.refused rfl⟩
  · left
    have htake := hG.malloc h.books.world.inv (by omega) hn heq
    have htotal : u.totalSize + toInt op.size = Ledger.bytes ((op.index, op.size) :: l) := by
      rw [h.total, toInt_of_lt hn, Ledger.bytes_cons]
      omega
    obtain ⟨hcounts, hmax⟩ := record_counts hbooks htotal
    exact ⟨_, bs', by simp only [heq, if_neg hb, if_pos hlt], hcounts, hmax, htake.le,
      htake.bound⟩

theorem count_realloc (hA : Refines A Inv (fun _ _ => True) base) (hG : Grows A Inv)
    (h : Counts Inv numIds u l bs) (htype : op.type = .realloc)
    (huse : l.use numIds op = some l') : Counted A Inv numIds u op l' := by
  simp only [Ledger.use, htype, Option.ite_none_right_eq_some] at huse
  obtain ⟨⟨hi, hpos, hn⟩, hl'⟩ := huse
  obtain rfl := Option.some.inj hl'
  obtain ⟨hentry, -, hmax, hlt⟩ := h.books.entry hi
  obtain ⟨c, hc, ha, hp, -⟩ := h.books.block hi
  simp only [Counted, utilOp, htype, Traceop.reserve, if_pos hlt]
  rcases h.books.realloc hA hi hpos hn with
    ⟨s', heq⟩ | ⟨s', bs', c', b, heq, hb, -, -, -, hbooks⟩
  · have htake := hG.realloc h.books.world.inv hc ha (by omega) hn (hp ▸ heq)
    exact .inr ⟨.reallocFailed, by simp [heq], htake.refused rfl⟩
  · left
    have htake := hG.realloc h.books.world.inv hc ha (by omega) hn (hp ▸ heq)
    have hold := Ledger.bytes_without h.books.ids hentry
    have htotal : u.totalSize + (toInt op.size - toInt (u.blockSizes op.index)) =
        Ledger.bytes ((op.index, op.size) :: l.without op.index) := by
      rw [h.total, toInt_of_lt hn, toInt_of_lt hmax, Ledger.bytes_cons]
      omega
    obtain ⟨hcounts, hmax⟩ := record_counts hbooks htotal
    exact ⟨_, bs', by simp only [heq, if_neg hb], hcounts, hmax, htake.le, htake.bound⟩

theorem count_free (hA : Refines A Inv (fun _ _ => True) base) (hG : Grows A Inv)
    (h : Counts Inv numIds u l bs) (htype : op.type = .free)
    (huse : l.use numIds op = some l') : Counted A Inv numIds u op l' := by
  simp only [Ledger.use, htype, Option.ite_none_right_eq_some] at huse
  obtain ⟨hi, hl'⟩ := huse
  obtain rfl := Option.some.inj hl'
  obtain ⟨hentry, -, hmax, hlt⟩ := h.books.entry hi
  obtain ⟨c, hc, ha, hp, -⟩ := h.books.block hi
  obtain ⟨s', bs', c', heq, -, -, hbooks⟩ := h.books.free hA hi
  have hbrk := hG.free h.books.world.inv hc ha (hp ▸ heq)
  simp only at hbrk
  have hold := Ledger.bytes_without h.books.ids hentry
  have htotal : u.totalSize - toInt (u.blockSizes op.index) = (l.without op.index).bytes := by
    rw [h.total, toInt_of_lt hmax]
    omega
  have hmost := h.max
  have hnow := h.total
  left
  refine ⟨{ u with heap := s', totalSize := u.totalSize - toInt (u.blockSizes op.index) }, bs',
    ?_, ⟨hbooks, htotal, ?_⟩, ?_, hbrk.ge, ?_⟩
  · simp only [utilOp, htype, if_pos hlt, heq, Option.map_some]
  · simp only
    omega
  · simp only
    omega
  · simp only [Traceop.reserve, htype]
    omega

theorem count (hA : Refines A Inv (fun _ _ => True) base) (hG : Grows A Inv)
    (h : Counts Inv numIds u l bs) (huse : l.use numIds op = some l') :
    Counted A Inv numIds u op l' := by
  cases htype : op.type with
  | alloc => exact h.count_alloc hA hG htype huse
  | realloc => exact h.count_realloc hA hG htype huse
  | free => exact h.count_free hA hG htype huse

end Counts

/-! ## A whole trace -/

theorem utilOps_spec (hA : Refines A Inv (fun _ _ => True) base) (hG : Grows A Inv)
    (h : Counts Inv numIds u l bs) (huse : l.useAll numIds ops = some l') :
    (∃ u' bs', utilOps A numIds u ops = some (.ok u') ∧ Counts Inv numIds u' l' bs' ∧
      u'.maxTotalSize = max u.maxTotalSize (l.peak numIds ops) ∧
      (A.memlib u.heap).memBrk ≤ (A.memlib u'.heap).memBrk ∧
      ∀ n ∈ l.levels numIds ops, n + 16 ≤ (A.memlib u'.heap).memBrk - base) ∨
    ∃ e, utilOps A numIds u ops = some (.error e) ∧
      base + maxHeap < (A.memlib u.heap).memBrk + reserves ops := by
  have hbytes := h.books.bytes_le hA
  have htotal := h.total
  have hmax := h.max
  induction ops generalizing u l bs with
  | nil =>
      obtain rfl : l = l' := Option.some.inj huse
      left
      refine ⟨u, bs, rfl, h, ?_, Nat.le_refl _, by simpa [Ledger.levels] using hbytes⟩
      simp only [Ledger.peak, Ledger.levels, List.foldr_cons, List.foldr_nil]
      omega
  | cons op ops ih =>
      obtain ⟨l₁, hop, hrest⟩ := Ledger.useAll_cons huse
      have hsum : reserves (op :: ops) = op.reserve + reserves ops := by simp [reserves]
      have hlevels : l.levels numIds (op :: ops) = l.bytes :: l₁.levels numIds ops := by
        simp only [Ledger.levels, hop]
      rcases h.count hA hG hop with
        ⟨u₁, bs₁, heval, hcounts, hpeak, hbrk, hbound⟩ | ⟨e, heval, hpass⟩
      · have hstep : utilOps A numIds u (op :: ops) = utilOps A numIds u₁ ops := by
          simp only [utilOps, heval]
        rcases ih hcounts hrest (hcounts.books.bytes_le hA) hcounts.total hcounts.max with
          ⟨u', bs', hok, hcounts', hpeak', hle, hall⟩ | ⟨e, herr, hpass⟩
        · left
          have hfirst := Ledger.bytes_le_peak numIds l₁ ops
          refine ⟨u', bs', hstep.trans hok, hcounts', ?_, hbrk.trans hle, ?_⟩
          · simp only [Ledger.peak, hlevels, List.foldr_cons] at hpeak' hfirst ⊢
            omega
          · rw [hlevels]
            exact List.forall_mem_cons.mpr ⟨by omega, hall⟩
        · exact .inr ⟨e, hstep.trans herr, by omega⟩
      · right
        have hstart : (A.memlib u.heap).memStartBrk = base := hA.start h.books.world.inv
        refine ⟨e, by simp [utilOps, heval], ?_⟩
        rw [Memlib.memMaxAddr, hstart] at hpass
        omega

/-- The result is the high water mark over the size of a heap that has room for
it, or the trace asks for more than the heap can take. -/
def Measured (P : Package σ) (room numIds : Nat) (blocks sizes : Nat → Nat) (s : σ)
    (ops : List Traceop) : Prop :=
  (∃ heapsize, evalMmUtil P numIds blocks sizes s ops =
      some (.ok ((Ledger.peak numIds [] ops : Nat), heapsize)) ∧
    Ledger.peak numIds [] ops + 16 ≤ heapsize ∧ heapsize ≤ maxHeap) ∨
  ∃ e, evalMmUtil P numIds blocks sizes s ops = some (.error e) ∧
    maxHeap < room + reserves ops


theorem measured {P : Package σ} (hA : Refines P.toAllocator Inv (fun _ _ => True) base)
    (hG : Grows P.toAllocator Inv) (hP : Starts P Inv base room)
    (hs : (P.memlib s).memStartBrk = base) (huse : Ledger.useAll numIds [] ops = some l) :
    Measured P room numIds blocks sizes s ops := by
  obtain ⟨s₁, bs, hinit, hinv, hfree, hbrk⟩ := hP.init s hs
  have hstart : Counts Inv numIds ⟨s₁, blocks, sizes, 0, 0⟩ [] bs :=
    ⟨Books.nil hinv hfree, rfl, Int.le_refl _⟩
  have heval : ∀ r, utilOps P.toAllocator numIds ⟨s₁, blocks, sizes, 0, 0⟩ ops = some r →
      evalMmUtil P numIds blocks sizes s ops = some (r.map fun u =>
        (u.maxTotalSize, (P.memlib u.heap).memHeapsize)) := by
    intro r hr
    cases r with
    | error e => simp [evalMmUtil, hinit, hr, Except.map]
    | ok u => simp [evalMmUtil, hinit, hr, Except.map]
  rcases utilOps_spec hA hG hstart huse with
    ⟨u, bs', hok, hcounts, hmax, -, hall⟩ | ⟨e, herr, hpass⟩
  · left
    have hbase : (P.memlib u.heap).memStartBrk = base := hA.start hcounts.books.world.inv
    have htop : (P.memlib u.heap).memBrk ≤ (P.memlib u.heap).memMaxAddr :=
      hG.top hcounts.books.world.inv
    rw [Memlib.memMaxAddr, hbase] at htop
    refine ⟨(P.memlib u.heap).memBrk - base, ?_, hall _ (Ledger.peak_mem numIds [] ops), by omega⟩
    rw [heval _ hok]
    simp only [Except.map, hmax, Memlib.memHeapsize, hbase]
    simp
  · refine .inr ⟨e, heval _ herr, ?_⟩
    simp only at hpass
    omega

variable {s : Segregated.State} {t : Implicit.State}

/-- On both allocators the result is the high water mark of the trace over a
larger size of the heap. -/
theorem mdriver_util (h : ArenaBase base) (hs : s.memStartBrk = base)
    (ht : t.memStartBrk = base) (huse : (Ledger.useAll numIds [] ops).isSome) :
    Measured segregated 112 numIds blocks sizes s ops ∧
      Measured implicit 4112 numIds blocks sizes t ops := by
  obtain ⟨l, hl⟩ := Option.isSome_iff_exists.mp huse
  exact ⟨measured (Segregated.refines base) (Segregated.grows base) (segregated_starts h) hs hl,
    measured (Implicit.refines base) (Implicit.grows base) (implicit_starts h) ht hl⟩

theorem mdriver_util_sample :
    Measured segregated 112 2 (fun _ => 0) (fun _ => 0) Segregated.arena sampleTrace ∧
      Measured implicit 4112 2 (fun _ => 0) (fun _ => 0) Implicit.arena sampleTrace :=
  mdriver_util arenaBase_4096 rfl rfl (by decide)

end CsappLabs.Malloc.Driver
