import CsappLabs.Malloc.Client
import CsappLabs.Malloc.HeapCheck

/-!
# The driver of the malloc lab (`mdriver.c`)

The driver replays a trace on a malloc package.  `eval_mm_valid` keeps a list
of the ranges of the live payloads and checks each new payload against it,
`eval_mm_util` compares the most bytes that were ever live with the size of the
heap.  `none` is a run without a result: a call that does not return, a failed
assertion, an index outside the arrays of the trace.

The calls of the C library's `malloc` for the records of the driver itself do
not fail here.
-/

namespace CsappLabs.Malloc.Driver

open CsappLabs.Foundation

structure Package (σ : Type) extends Allocator σ where
  memResetBrk : σ → σ
  mmInit : σ → Option (σ × Int)

structure Range where
  lo : Nat
  hi : Nat
  deriving DecidableEq, Repr

inductive OpType where
  | alloc
  | free
  | realloc
  deriving DecidableEq, Repr

/-- `traceop_t`.  The driver reads both numbers with `%u` into an `int`; they
are kept as words. -/
structure Traceop where
  type : OpType
  index : Nat
  size : Nat
  deriving DecidableEq, Repr

/-- A call of `malloc_error`, with the values that its message formats. -/
inductive MallocError where
  | initFailed
  | mallocFailed
  | reallocFailed
  | notAligned (lo : Nat)
  | outsideHeap (lo hi heapLo heapHi : Nat)
  | overlaps (lo hi lo' hi' : Nat)
  | notPreserved
  deriving DecidableEq, Repr

/-! ## The range list -/

def Range.Overlaps (p : Range) (lo hi : Nat) : Prop :=
  (lo ≥ p.lo ∧ lo ≤ p.hi) ∨ (hi ≥ p.lo ∧ hi ≤ p.hi)

instance (p : Range) (lo hi : Nat) : Decidable (p.Overlaps lo hi) :=
  inferInstanceAs (Decidable ((_ ∧ _) ∨ (_ ∧ _)))

def addRange (m : Memlib) (ranges : List Range) (lo size : Nat) :
    Option (Except MallocError (List Range)) :=
  let hi := lo + size - 1
  if toInt size ≤ 0 then none
  else if lo % 8 ≠ 0 then some (.error (.notAligned lo))
  else if lo < m.memHeapLo ∨ lo > m.memHeapHi ∨ hi < m.memHeapLo ∨ hi > m.memHeapHi then
    some (.error (.outsideHeap lo hi m.memHeapLo m.memHeapHi))
  else
    match ranges.find? fun p => p.Overlaps lo hi with
    | some p => some (.error (.overlaps lo hi p.lo p.hi))
    | none => some (.ok (⟨lo, hi⟩ :: ranges))

def removeRange (ranges : List Range) (lo : Nat) : List Range :=
  ranges.eraseP fun p => p.lo = lo

/-! ## `eval_mm_valid` -/

structure State (σ : Type) where
  heap : σ
  ranges : List Range
  blocks : Nat → Nat
  blockSizes : Nat → Nat

variable {σ : Type}

def memset (A : Allocator σ) (s : σ) (p : Nat) (c : UInt8) (n : Nat) : σ :=
  (List.range n).foldl (fun s k => A.clientWrite s (p + k) c) s

def lowByte (index : Nat) : Nat := index % 2 ^ 8

def charValue (b : UInt8) : Int := if b.toNat < 2 ^ 7 then b.toNat else (b.toNat : Int) - 2 ^ 8

/-- The loop that looks for the data of the old block in the new one. -/
def preserved (m : Mem) (newp index : Nat) (oldsize : Int) : Bool :=
  (List.range oldsize.toNat).all fun j => charValue (m (newp + j)) = lowByte index

/-- The end of the cases `ALLOC` and `REALLOC`. -/
def remember (A : Allocator σ) (d : State σ) (s : σ) (ranges : List Range) (op : Traceop)
    (p : Nat) : State σ where
  heap := memset A s p (UInt8.ofNat (lowByte op.index)) op.size
  ranges := ranges
  blocks := Function.update d.blocks op.index p
  blockSizes := Function.update d.blockSizes op.index op.size

def evalAlloc (A : Allocator σ) (numIds : Nat) (d : State σ) (op : Traceop) :
    Option (Except MallocError (State σ)) :=
  match A.mmMalloc d.heap op.size with
  | none => none
  | some (s, p) =>
      if p = 0 then some (.error .mallocFailed)
      else
        match addRange (A.memlib s) d.ranges p op.size with
        | none => none
        | some (.error e) => some (.error e)
        | some (.ok ranges) =>
            if op.index < numIds then some (.ok (remember A d s ranges op p)) else none

def evalRealloc (A : Allocator σ) (numIds : Nat) (d : State σ) (op : Traceop) :
    Option (Except MallocError (State σ)) :=
  if op.index < numIds then
    match A.mmRealloc d.heap (d.blocks op.index) op.size with
    | none => none
    | some (s, newp) =>
        if newp = 0 then some (.error .reallocFailed)
        else
          let ranges := removeRange d.ranges (d.blocks op.index)
          match addRange (A.memlib s) ranges newp op.size with
          | none => none
          | some (.error e) => some (.error e)
          | some (.ok ranges) =>
              let oldsize := toInt (d.blockSizes op.index)
              let oldsize := if toInt op.size < oldsize then toInt op.size else oldsize
              if preserved (A.memlib s).mem newp op.index oldsize then
                some (.ok (remember A d s ranges op newp))
              else some (.error .notPreserved)
  else none

def evalFree (A : Allocator σ) (numIds : Nat) (d : State σ) (op : Traceop) :
    Option (Except MallocError (State σ)) :=
  if op.index < numIds then
    let ranges := removeRange d.ranges (d.blocks op.index)
    (A.mmFree d.heap (d.blocks op.index)).map fun s => .ok { d with heap := s, ranges := ranges }
  else none

def evalOp (A : Allocator σ) (numIds : Nat) (d : State σ) (op : Traceop) :
    Option (Except MallocError (State σ)) :=
  match op.type with
  | .alloc => evalAlloc A numIds d op
  | .realloc => evalRealloc A numIds d op
  | .free => evalFree A numIds d op

/-- The loop over the requests from number `i` on.  An error comes with the
number of its request. -/
def evalOps (A : Allocator σ) (numIds : Nat) :
    Nat → State σ → List Traceop → Option (Except (Nat × MallocError) (State σ))
  | _, d, [] => some (.ok d)
  | i, d, op :: ops =>
      match evalOp A numIds d op with
      | none => none
      | some (.error e) => some (.error (i, e))
      | some (.ok d) => evalOps A numIds (i + 1) d ops

/-- `blocks` and `sizes` are what the arrays hold that `read_trace` allocates. -/
def evalMmValid (P : Package σ) (numIds : Nat) (blocks sizes : Nat → Nat) (s : σ)
    (ops : List Traceop) : Option (Except (Nat × MallocError) (State σ)) :=
  match P.mmInit (P.memResetBrk s) with
  | none => none
  | some (s, r) =>
      if r < 0 then some (.error (0, .initFailed))
      else evalOps P.toAllocator numIds 0 ⟨s, [], blocks, sizes⟩ ops

/-! ## What a request that is carried out has done -/

section Steps

variable {A : Allocator σ} {numIds i : Nat} {d d' : State σ} {op : Traceop} {m : Memlib}
  {ranges ranges' : List Range} {lo size : Nat}

theorem addRange_ok (h : addRange m ranges lo size = some (.ok ranges')) :
    0 < toInt size ∧ lo % 8 = 0 ∧
      (m.memHeapLo ≤ lo ∧ lo ≤ m.memHeapHi ∧ m.memHeapLo ≤ lo + size - 1 ∧
        lo + size - 1 ≤ m.memHeapHi) ∧
      (∀ q ∈ ranges, ¬q.Overlaps lo (lo + size - 1)) ∧
      ranges' = ⟨lo, lo + size - 1⟩ :: ranges := by
  unfold addRange at h
  simp only at h
  by_cases hpos : toInt size ≤ 0
  · simp [if_pos hpos] at h
  · rw [if_neg hpos] at h
    by_cases halign : lo % 8 ≠ 0
    · simp [if_pos halign] at h
    · rw [if_neg halign] at h
      split at h
      · simp at h
      · next hin =>
          cases hfind : ranges.find? fun p => p.Overlaps lo (lo + size - 1) with
          | some q =>
              rw [hfind] at h
              simp at h
          | none =>
              rw [hfind] at h
              refine ⟨by omega, by omega, by omega, fun q hq => ?_, ?_⟩
              · simpa using List.find?_eq_none.mp hfind q hq
              · exact (Except.ok.inj (Option.some.inj h)).symm

theorem evalAlloc_ok (h : evalAlloc A numIds d op = some (.ok d')) :
    ∃ s p ranges, A.mmMalloc d.heap op.size = some (s, p) ∧ p ≠ 0 ∧
      addRange (A.memlib s) d.ranges p op.size = some (.ok ranges) ∧ op.index < numIds ∧
      d' = remember A d s ranges op p := by
  unfold evalAlloc at h
  cases hm : A.mmMalloc d.heap op.size with
  | none => simp [hm] at h
  | some r =>
      obtain ⟨s, p⟩ := r
      by_cases hp : p = 0
      · simp [hm, hp] at h
      · cases ha : addRange (A.memlib s) d.ranges p op.size with
        | none => simp [hm, hp, ha] at h
        | some r =>
            cases r with
            | error e => simp [hm, hp, ha] at h
            | ok ranges =>
                by_cases hi : op.index < numIds
                · simp only [hm, hp, ha, hi, if_true, if_false, Option.some.injEq,
                    Except.ok.injEq] at h
                  exact ⟨s, p, ranges, rfl, hp, ha, hi, h.symm⟩
                · simp [hm, hp, ha, hi] at h

theorem evalRealloc_ok (h : evalRealloc A numIds d op = some (.ok d')) :
    ∃ s newp ranges, A.mmRealloc d.heap (d.blocks op.index) op.size = some (s, newp) ∧
      newp ≠ 0 ∧
      addRange (A.memlib s) (removeRange d.ranges (d.blocks op.index)) newp op.size =
        some (.ok ranges) ∧
      preserved (A.memlib s).mem newp op.index
        (if toInt op.size < toInt (d.blockSizes op.index) then toInt op.size
          else toInt (d.blockSizes op.index)) = true ∧
      op.index < numIds ∧ d' = remember A d s ranges op newp := by
  unfold evalRealloc at h
  by_cases hi : op.index < numIds
  · rw [if_pos hi] at h
    cases hm : A.mmRealloc d.heap (d.blocks op.index) op.size with
    | none => simp [hm] at h
    | some r =>
        obtain ⟨s, newp⟩ := r
        by_cases hp : newp = 0
        · simp [hm, hp] at h
        · cases ha : addRange (A.memlib s) (removeRange d.ranges (d.blocks op.index)) newp
              op.size with
          | none => simp [hm, hp, ha] at h
          | some r =>
              cases r with
              | error e => simp [hm, hp, ha] at h
              | ok ranges =>
                  simp only [hm, hp, ha, if_false] at h
                  generalize hk : (if toInt op.size < toInt (d.blockSizes op.index) then
                    toInt op.size else toInt (d.blockSizes op.index)) = k at h ⊢
                  by_cases hpres : preserved (A.memlib s).mem newp op.index k = true
                  · rw [if_pos hpres] at h
                    obtain rfl := Except.ok.inj (Option.some.inj h)
                    exact ⟨s, newp, ranges, rfl, hp, ha, hpres, hi, rfl⟩
                  · simp [if_neg hpres] at h
  · simp [if_neg hi] at h

theorem evalFree_ok (h : evalFree A numIds d op = some (.ok d')) :
    ∃ s, A.mmFree d.heap (d.blocks op.index) = some s ∧ op.index < numIds ∧
      d' = { d with heap := s, ranges := removeRange d.ranges (d.blocks op.index) } := by
  unfold evalFree at h
  by_cases hi : op.index < numIds
  · rw [if_pos hi] at h
    obtain ⟨s, hs, hd⟩ := Option.map_eq_some_iff.mp h
    exact ⟨s, hs, hi, (Except.ok.inj hd).symm⟩
  · simp [if_neg hi] at h

end Steps

/-! ## `eval_mm_util` -/

/-- The calls of `app_error` in `eval_mm_util`. -/
inductive AppError where
  | initFailed
  | mallocFailed
  | reallocFailed
  deriving DecidableEq, Repr

structure UtilState (σ : Type) where
  heap : σ
  blocks : Nat → Nat
  blockSizes : Nat → Nat
  totalSize : Int
  maxTotalSize : Int

namespace UtilState

/-- The end of the cases `ALLOC` and `REALLOC`: the block is remembered, and
`change` is added to the total. -/
def record (u : UtilState σ) (s : σ) (op : Traceop) (p : Nat) (change : Int) : UtilState σ where
  heap := s
  blocks := Function.update u.blocks op.index p
  blockSizes := Function.update u.blockSizes op.index op.size
  totalSize := u.totalSize + change
  maxTotalSize :=
    if u.totalSize + change > u.maxTotalSize then u.totalSize + change else u.maxTotalSize

end UtilState

def utilOp (A : Allocator σ) (numIds : Nat) (u : UtilState σ) (op : Traceop) :
    Option (Except AppError (UtilState σ)) :=
  match op.type with
  | .alloc =>
      match A.mmMalloc u.heap op.size with
      | none => none
      | some (s, p) =>
          if p = 0 then some (.error .mallocFailed)
          else if op.index < numIds then some (.ok (u.record s op p (toInt op.size)))
          else none
  | .realloc =>
      if op.index < numIds then
        match A.mmRealloc u.heap (u.blocks op.index) op.size with
        | none => none
        | some (s, newp) =>
            if newp = 0 then some (.error .reallocFailed)
            else
              some (.ok (u.record s op newp (toInt op.size - toInt (u.blockSizes op.index))))
      else none
  | .free =>
      if op.index < numIds then
        (A.mmFree u.heap (u.blocks op.index)).map fun s =>
          .ok { u with heap := s, totalSize := u.totalSize - toInt (u.blockSizes op.index) }
      else none

def utilOps (A : Allocator σ) (numIds : Nat) :
    UtilState σ → List Traceop → Option (Except AppError (UtilState σ))
  | u, [] => some (.ok u)
  | u, op :: ops =>
      match utilOp A numIds u op with
      | none => none
      | some (.error e) => some (.error e)
      | some (.ok u) => utilOps A numIds u ops

/-- The numerator and the denominator of the utilization: `max_total_size` and
`mem_heapsize()`. -/
def evalMmUtil (P : Package σ) (numIds : Nat) (blocks sizes : Nat → Nat) (s : σ)
    (ops : List Traceop) : Option (Except AppError (Int × Nat)) :=
  match P.mmInit (P.memResetBrk s) with
  | none => none
  | some (s, r) =>
      if r < 0 then some (.error .initFailed)
      else
        match utilOps P.toAllocator numIds ⟨s, blocks, sizes, 0, 0⟩ ops with
        | none => none
        | some (.error e) => some (.error e)
        | some (.ok u) => some (.ok (u.maxTotalSize, (P.memlib u.heap).memHeapsize))

end CsappLabs.Malloc.Driver
