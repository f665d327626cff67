import CsappLabs.Foundation.Intervals
import CsappLabs.Malloc.Driver.Ledger

/-!
# What an accepted trace says about an allocator

Here nothing is assumed of the allocator.  The range list of `eval_mm_valid`
is the list of the live payloads as long as the trace is accepted.  The test
for overlaps looks only for the ends of the new payload in the older ones, so
that a payload around an older one passes.
-/

namespace CsappLabs.Malloc.Driver

open CsappLabs.Foundation

variable {σ : Type} {A : Allocator σ} {numIds i p : Nat} {d d' : State σ} {l l' : Ledger}
  {op : Traceop} {ops : List Traceop} {ranges ranges' : List Range} {r r' : Range} {m : Memlib}

namespace Range

def Apart (r r' : Range) : Prop := r.hi < r'.lo ∨ r'.hi < r.lo

def Encloses (r r' : Range) : Prop := r.lo < r'.lo ∧ r'.hi < r.hi

end Range

/-- A range list, youngest first, as `add_range` lets it grow. -/
structure Passed (ranges : List Range) : Prop where
  ordered : ∀ r ∈ ranges, r.lo ≤ r.hi ∧ r.lo % 8 = 0
  apart : ranges.Pairwise fun young old => young.Apart old ∨ young.Encloses old

namespace Passed

theorem nil : Passed [] := ⟨by simp, List.Pairwise.nil⟩

theorem sublist (h : Passed ranges) (hsub : ranges'.Sublist ranges) : Passed ranges' where
  ordered r hr := h.ordered r (hsub.subset hr)
  apart := h.apart.sublist hsub

theorem add {lo size : Nat} (h : Passed ranges)
    (hadd : addRange m ranges lo size = some (.ok ranges')) :
    Passed ranges' ∧ ranges' = ⟨lo, lo + size - 1⟩ :: ranges := by
  obtain ⟨hpos, halign, -, hclear, rfl⟩ := addRange_ok hadd
  have hsize : 0 < size := by
    by_contra hzero
    obtain rfl : size = 0 := by omega
    exact absurd hpos (by decide)
  have hends : lo ≤ lo + size - 1 := by omega
  refine ⟨⟨?_, ?_⟩, rfl⟩
  · intro r hr
    rcases List.mem_cons.mp hr with rfl | hr
    · exact ⟨hends, halign⟩
    · exact h.ordered r hr
  · refine List.pairwise_cons.mpr ⟨fun r hr => ?_, h.apart⟩
    exact (ends_outside_iff hends).mp (hclear r hr)

theorem starts_nodup (h : Passed ranges) : (ranges.map Range.lo).Nodup := by
  apply List.pairwise_map.mpr
  apply h.apart.imp_of_mem
  intro r r' hr hr' hrr hlo
  have h₁ := h.ordered r hr
  have h₂ := h.ordered r' hr'
  simp only [Range.Apart, Range.Encloses] at hrr
  omega

end Passed

structure Listed (numIds : Nat) (d : State σ) (l : Ledger) : Prop where
  ranges : d.ranges = l.ranges d.blocks
  ids : l.ids.Nodup
  passed : Passed d.ranges

namespace Listed

theorem removed (h : Listed numIds d l) (hi : i ∈ l.ids) :
    removeRange d.ranges (d.blocks i) = (l.without i).ranges d.blocks ∧
      Passed ((l.without i).ranges d.blocks) := by
  have hstarts := h.passed.starts_nodup
  rw [h.ranges] at hstarts ⊢
  have hptrs : ((l.payloads d.blocks).map Payload.ptr).Nodup := by
    simpa [Ledger.ranges, Ledger.payloads, Function.comp_def] using hstarts
  have heq := Ledger.ranges_without hptrs hi
  refine ⟨heq, ?_⟩
  rw [← heq, ← h.ranges]
  exact h.passed.sublist List.eraseP_sublist

theorem remembered {s : σ} (hids : l.ids.Nodup) (hnew : op.index ∉ l.ids)
    (hpassed : Passed (l.ranges d.blocks))
    (hadd : addRange m (l.ranges d.blocks) p op.size = some (.ok ranges)) :
    Listed numIds (remember A d s ranges op p) ((op.index, op.size) :: l) := by
  obtain ⟨hpass, rfl⟩ := hpassed.add hadd
  exact ⟨(Ledger.ranges_update hnew).symm, List.nodup_cons.mpr ⟨hnew, hids⟩, hpass⟩

theorem step (h : Listed numIds d l) (huse : l.use numIds op = some l')
    (heval : evalOp A numIds d op = some (.ok d')) : Listed numIds d' l' := by
  cases htype : op.type with
  | alloc =>
      simp only [Ledger.use, evalOp, htype, Option.ite_none_right_eq_some] at huse heval
      obtain ⟨⟨-, hnew, -⟩, hl'⟩ := huse
      obtain rfl := Option.some.inj hl'
      obtain ⟨s, p, ranges, -, -, hadd, -, rfl⟩ := evalAlloc_ok heval
      have hpassed := h.passed
      rw [h.ranges] at hadd hpassed
      exact remembered h.ids hnew hpassed hadd
  | realloc =>
      simp only [Ledger.use, evalOp, htype, Option.ite_none_right_eq_some] at huse heval
      obtain ⟨⟨hi, -⟩, hl'⟩ := huse
      obtain rfl := Option.some.inj hl'
      obtain ⟨s, newp, ranges, -, -, hadd, -, -, rfl⟩ := evalRealloc_ok heval
      obtain ⟨hrest, hpassed⟩ := h.removed hi
      rw [hrest] at hadd
      exact remembered (Ledger.without_nodup h.ids) Ledger.not_mem_ids_without hpassed hadd
  | free =>
      simp only [Ledger.use, evalOp, htype, Option.ite_none_right_eq_some] at huse heval
      obtain ⟨hi, hl'⟩ := huse
      obtain rfl := Option.some.inj hl'
      obtain ⟨s, -, -, rfl⟩ := evalFree_ok heval
      obtain ⟨hrest, hpassed⟩ := h.removed hi
      exact ⟨hrest, Ledger.without_nodup h.ids, hrest ▸ hpassed⟩

theorem run (h : Listed numIds d l) (huse : l.useAll numIds ops = some l')
    (heval : evalOps A numIds i d ops = some (.ok d')) : Listed numIds d' l' := by
  induction ops generalizing d l i with
  | nil =>
      obtain rfl : l = l' := Option.some.inj huse
      obtain rfl : d = d' := Except.ok.inj (Option.some.inj heval)
      exact h
  | cons op ops ih =>
      obtain ⟨l₁, hop, hrest⟩ := Ledger.useAll_cons huse
      cases hstep : evalOp A numIds d op with
      | none => simp [evalOps, hstep] at heval
      | some r =>
          cases r with
          | error e => simp [evalOps, hstep] at heval
          | ok d₁ =>
              simp only [evalOps, hstep] at heval
              exact ih (h.step hop hstep) hrest heval

end Listed

variable {P : Package σ} {blocks sizes : Nat → Nat} {s : σ}

end CsappLabs.Malloc.Driver
