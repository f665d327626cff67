import CsappLabs.Malloc.Driver.Verdict
import CsappLabs.Malloc.Growth
import CsappLabs.Malloc.Segregated.Runs
import CsappLabs.Malloc.Implicit.Runs

/-!
# Traces that are accepted

A call returns `NULL` only where the heap would pass its end.  A trace that
asks for less than the heap can take is therefore judged by its ids alone: it
is rejected at the first misjudged request, and accepted when there is none.
-/

namespace CsappLabs.Malloc.Driver

open CsappLabs.Foundation

variable {σ : Type} {A : Allocator σ} {Inv : σ → List Block → Prop} {numIds base i room : Nat}
  {d d' : State σ} {s : σ} {l l' : Ledger} {bs : List Block} {op : Traceop}
  {ops : List Traceop} {blocks sizes : Nat → Nat} {e : MallocError}

def Traceop.reserve (op : Traceop) : Nat :=
  match op.type with
  | .free => 0
  | .alloc => Malloc.reserve op.size
  | .realloc => Malloc.reserve op.size

def reserves (ops : List Traceop) : Nat := (ops.map Traceop.reserve).sum

/-! ## The break -/

theorem memset_brk (hG : Grows A Inv) (s : σ) (p : Nat) (c : UInt8) (n : Nat) :
    (A.memlib (memset A s p c n)).memBrk = (A.memlib s).memBrk := by
  induction n with
  | zero => rfl
  | succ n ih => rw [memset_succ, hG.write, ih]

theorem remember_brk (hG : Grows A Inv) (ranges : List Range) (p : Nat) :
    (A.memlib (remember A d s ranges op p).heap).memBrk = (A.memlib s).memBrk :=
  memset_brk hG _ _ _ _

namespace Tracks

theorem brk_step (hG : Grows A Inv) (h : Tracks A Inv numIds d l bs)
    (huse : l.use numIds op = some l') (heval : evalOp A numIds d op = some (.ok d')) :
    (A.memlib d.heap).memBrk ≤ (A.memlib d'.heap).memBrk ∧
      (A.memlib d'.heap).memBrk ≤ (A.memlib d.heap).memBrk + op.reserve := by
  cases htype : op.type with
  | alloc =>
      simp only [Ledger.use, evalOp, htype, Option.ite_none_right_eq_some] at huse heval
      obtain ⟨⟨-, -, hpos, hmax⟩, -⟩ := huse
      obtain ⟨s, p, ranges, hm, -, -, -, rfl⟩ := evalAlloc_ok heval
      have htake := hG.malloc h.books.world.inv (by omega) hmax hm
      rw [remember_brk hG]
      simpa only [Traceop.reserve, htype] using ⟨htake.le, htake.bound⟩
  | realloc =>
      simp only [Ledger.use, evalOp, htype, Option.ite_none_right_eq_some] at huse heval
      obtain ⟨⟨hi, hpos, hmax⟩, -⟩ := huse
      obtain ⟨b, hb, ha, hp, -⟩ := h.books.block hi
      obtain ⟨s, newp, ranges, hm, -, -, -, -, rfl⟩ := evalRealloc_ok heval
      have htake := hG.realloc h.books.world.inv hb ha (by omega) hmax (hp ▸ hm)
      rw [remember_brk hG]
      simpa only [Traceop.reserve, htype] using ⟨htake.le, htake.bound⟩
  | free =>
      simp only [Ledger.use, evalOp, htype, Option.ite_none_right_eq_some] at huse heval
      obtain ⟨hi, -⟩ := huse
      obtain ⟨b, hb, ha, hp, -⟩ := h.books.block hi
      obtain ⟨s, hm, -, rfl⟩ := evalFree_ok heval
      have hbrk := hG.free h.books.world.inv hb ha (hp ▸ hm)
      simp only at hbrk
      simp only [Traceop.reserve, htype, hbrk]
      omega

end Tracks

/-! ## The verdict as a function of the trace -/

def segregated : Package Segregated.State where
  toAllocator := Segregated.allocator
  memResetBrk s := { s with toMemlib := s.toMemlib.memResetBrk }
  mmInit := Segregated.mmInit

def implicit : Package Implicit.State where
  toAllocator := Implicit.allocator
  memResetBrk s := { s with toMemlib := s.toMemlib.memResetBrk }
  mmInit s := some (Implicit.mmInit s)

/-- An address at which `mem_init` can get its arena from the C library. -/
structure ArenaBase (base : Nat) : Prop where
  pos : 0 < base
  aligned : base % 8 = 0
  max : base + maxHeap < 2 ^ 32

theorem segregated_starts (h : ArenaBase base) :
    Starts segregated (Segregated.Sound base) base 112 where
  init s hs := by
    have hfresh : Segregated.Fresh base (segregated.memResetBrk s) := ⟨hs, hs, h.pos, h.max⟩
    obtain ⟨s', heq, hsound⟩ := Segregated.mmInit_spec hfresh
    have hend := Tiles.last_end (l := []) hsound.heap.layout.tiles
    exact ⟨s', _, heq, hsound, by simp, hend.ge⟩

theorem implicit_starts (h : ArenaBase base) :
    Starts implicit (Implicit.Sound base) base 4112 where
  init s hs := by
    have hfresh : Implicit.Fresh base (implicit.memResetBrk s) := ⟨hs, hs, h.pos, h.max⟩
    obtain ⟨s', heq, hsound⟩ := Implicit.mmInit_spec hfresh
    have hend := Tiles.last_end (l := []) hsound.heap.layout.tiles
    refine ⟨s', _, congrArg some heq, hsound, by simp, ?_⟩
    have hbrk : base + 16 + 4096 = s'.memBrk := hend
    show s'.memBrk ≤ base + 4112
    omega

variable {s : Segregated.State} {t : Implicit.State}

/-- On both allocators the driver carries out every trace up to a call that
returns `NULL` or a misjudged reallocation. -/
theorem mdriver_verdict (h : ArenaBase base) (hs : s.memStartBrk = base)
    (ht : t.memStartBrk = base) (huse : (Ledger.useAll numIds [] ops).isSome) :
    Verdict segregated numIds blocks sizes s ops ∧
      Verdict implicit numIds blocks sizes t ops := by
  obtain ⟨l, hl⟩ := Option.isSome_iff_exists.mp huse
  exact ⟨verdict (Segregated.refines base) h.aligned (segregated_starts h) hs hl,
    verdict (Implicit.refines base) h.aligned (implicit_starts h) ht hl⟩

def sampleTrace : List Traceop :=
  [⟨.alloc, 0, 100⟩, ⟨.alloc, 1, 24⟩, ⟨.realloc, 0, 300⟩, ⟨.free, 1, 0⟩, ⟨.free, 0, 0⟩]

theorem arenaBase_4096 : ArenaBase 4096 := ⟨by decide, by decide, by decide⟩

theorem mdriver_verdict_sample :
    Verdict segregated 2 (fun _ => 0) (fun _ => 0) Segregated.arena sampleTrace ∧
      Verdict implicit 2 (fun _ => 0) (fun _ => 0) Implicit.arena sampleTrace :=
  mdriver_verdict arenaBase_4096 rfl rfl (by decide)

end CsappLabs.Malloc.Driver
