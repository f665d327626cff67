import CsappLabs.Foundation.Ring
import CsappLabs.Foundation.Tally
import CsappLabs.Foundation.Transition
import CsappLabs.Proxy.ThreadPool.Model

/-!
# What holds in every interleaving

The three semaphores are balanced by the threads between a `P` and the matching
`V`, from which it follows that a slot is free when an item is stored and full
when one is loaded.  A worker that has left `P(&items)` with a count cannot act
on a cancellation before it comes back there.
-/

namespace CsappLabs.Proxy.ThreadPool

open CsappLabs.Foundation

/-! ## Classes of positions -/

namespace MainPc

@[simp] def starting : MainPc → Bool
  | spawn _ | startAdjuster => true
  | _ => false

@[simp] def reserved : MainPc → Bool
  | waitMutex _ | store _ => true
  | _ => false

/-- The item is stored and not announced. -/
@[simp] def stored : MainPc → Bool
  | unlock | announce => true
  | _ => false

@[simp] def holdsMutex : MainPc → Bool
  | store _ | unlock => true
  | _ => false

end MainPc

namespace WorkerPc

/-- An item has been claimed and not been removed. -/
@[simp] def claimed : WorkerPc → Bool
  | disable | waitMutex | take => true
  | _ => false

@[simp] def taken : WorkerPc → Bool
  | unlock _ | announce _ => true
  | _ => false

@[simp] def holdsMutex : WorkerPc → Bool
  | take | unlock _ => true
  | _ => false

@[simp] def holdsItem : WorkerPc → Bool
  | unlock _ | announce _ | process _ | close _ => true
  | _ => false

@[simp] def shielded : WorkerPc → Bool
  | waitMutex | take | unlock _ | announce _ | process _ | close _ | enable => true
  | _ => false

end WorkerPc

@[simp] def AdjusterPc.holdsMutex : AdjusterPc → Bool
  | readFull | unlockFull _ | readEmpty | unlockEmpty _ => true
  | _ => false

/-! ## The semaphores -/

/-- The semaphores, given how many threads stand in each class. -/
structure Balance (b : Sbuf) (holding reserved stored claimed taken : Nat) : Prop where
  mutex : b.mutex + holding = 1
  items : b.removed.length + b.items + stored + claimed = b.inserted.length
  slots : b.slots + reserved + b.inserted.length + taken = sbufsize + b.removed.length

section Step

variable {b b' : Sbuf} {pc pc' : MainPc} {w w' : Worker} {i : Nat}
  {holding reserved stored claimed taken : Nat}

theorem balance_insert
    (h : Balance b (holding + pc.holdsMutex.toNat) pc.reserved.toNat pc.stored.toNat claimed taken)
    (hs : sbufInsert b pc = some (b', pc')) :
    Balance b' (holding + pc'.holdsMutex.toNat) pc'.reserved.toNat pc'.stored.toNat
      claimed taken := by
  obtain ⟨hmutex, hitems, hslots⟩ := h
  cases pc <;> simp at hmutex hitems hslots <;> simp only [sbufInsert] at hs
  case spawn | startAdjuster | accept => cases hs
  case waitSlot | waitMutex =>
    obtain ⟨hpos, heq⟩ := map_P hs
    obtain ⟨rfl, rfl⟩ := Prod.mk.inj heq
    constructor <;> simp <;> omega
  all_goals
    obtain ⟨rfl, rfl⟩ := Prod.mk.inj (Option.some.inj hs)
    constructor <;> simp [V] <;> omega

theorem balance_worker
    (h : Balance b (holding + w.pc.holdsMutex.toNat) reserved stored
      (claimed + w.pc.claimed.toNat) (taken + w.pc.taken.toNat))
    (hs : workerThread b i w = some (b', w')) :
    Balance b' (holding + w'.pc.holdsMutex.toNat) reserved stored
      (claimed + w'.pc.claimed.toNat) (taken + w'.pc.taken.toNat) := by
  obtain ⟨pc, enabled, pending⟩ := w
  obtain ⟨hmutex, hitems, hslots⟩ := h
  cases pc <;> simp at hmutex hitems hslots <;> simp only [workerThread] at hs
  case gone => cases hs
  case waitItem | waitMutex =>
    obtain ⟨hpos, heq⟩ := map_P hs
    obtain ⟨rfl, rfl⟩ := Prod.mk.inj heq
    constructor <;> simp <;> omega
  all_goals
    obtain ⟨rfl, rfl⟩ := Prod.mk.inj (Option.some.inj hs)
    constructor <;> simp [V] <;> omega

theorem shielded_worker (h : w.pc.shielded → w.cancelEnabled = false)
    (hs : workerThread b i w = some (b', w')) : w'.pc.shielded → w'.cancelEnabled = false := by
  obtain ⟨pc, enabled, pending⟩ := w
  cases pc <;> simp only [workerThread] at hs
  case gone => cases hs
  case waitItem =>
    obtain ⟨-, heq⟩ := map_P hs
    obtain ⟨-, rfl⟩ := Prod.mk.inj heq
    simp
  case waitMutex =>
    obtain ⟨-, heq⟩ := map_P hs
    obtain ⟨-, rfl⟩ := Prod.mk.inj heq
    simpa using h
  case disable | enable =>
    obtain ⟨-, rfl⟩ := Prod.mk.inj (Option.some.inj hs)
    simp
  all_goals
    obtain ⟨-, rfl⟩ := Prod.mk.inj (Option.some.inj hs)
    simpa using h

/-- Cancellation acts at the wait for an item only. -/
theorem eq_waitItem_of_cancellable (h : w.pc.shielded → w.cancelEnabled = false)
    (hc : w.cancellable) : w.pc = .waitItem := by
  obtain ⟨pc, enabled, pending⟩ := w
  cases pc <;> simp_all [Worker.cancellable, WorkerPc.isCancellationPoint]

end Step

/-! ## The ring buffer -/

def slot (k : Nat) : Int := index (k + 1 : Nat)

/-- Items are removed in the order of their insertion, and those that are in
the buffer are in their slots. -/
structure Contents (b : Sbuf) : Prop where
  rear : b.rear = b.inserted.length
  front : b.front = b.removed.length
  window : Window slot b.buf b.inserted b.removed.length
  order : b.removed.map Prod.snd = b.inserted.take b.removed.length

theorem slot_wraps : Wraps sbufsize slot := by
  intro i j h
  have heq : (i + 1) % sbufsize = (j + 1) % sbufsize := Int.ofNat.inj h
  rw [show sbufsize = 16 from rfl] at heq ⊢
  omega

theorem incr_natCast {k : Nat} (h : k + 1 < 2 ^ 31) : incr k = (k + 1 : Nat) := by
  unfold incr
  split <;> omega

theorem contents_init : Contents sbufInit :=
  ⟨rfl, rfl, Window.nil _ _, rfl⟩

section Step

variable {b b' : Sbuf} {pc pc' : MainPc} {w w' : Worker} {i : Nat}

theorem contents_insert (h : Contents b) (hs : sbufInsert b pc = some (b', pc'))
    (hroom : ∀ fd, pc = .store fd → b.inserted.length < b.removed.length + sbufsize ∧
      b.removed.length ≤ b.inserted.length)
    (hlt : b'.inserted.length < 2 ^ 31) : Contents b' := by
  cases pc <;> simp only [sbufInsert] at hs
  case spawn | startAdjuster | accept => cases hs
  case waitSlot | waitMutex =>
    obtain ⟨-, heq⟩ := map_P hs
    obtain ⟨rfl, -⟩ := Prod.mk.inj heq
    exact ⟨h.rear, h.front, h.window, h.order⟩
  case unlock | announce =>
    obtain ⟨rfl, -⟩ := Prod.mk.inj (Option.some.inj hs)
    exact ⟨h.rear, h.front, h.window, h.order⟩
  case store fd =>
    obtain ⟨rfl, -⟩ := Prod.mk.inj (Option.some.inj hs)
    obtain ⟨hfree, hle⟩ := hroom fd rfl
    simp only [List.length_append, List.length_singleton] at hlt
    have hrear : incr b.rear = (b.inserted.length + 1 : Nat) := by rw [h.rear, incr_natCast hlt]
    constructor
    · simp [hrear]
    · exact h.front
    · simp only [hrear]
      exact h.window.push slot_wraps hfree fd
    · simp only [h.order]
      rw [List.take_append_of_le_length hle]

theorem contents_worker (h : Contents b) (hs : workerThread b i w = some (b', w'))
    (hfull : w.pc = .take → b.removed.length < b.inserted.length)
    (hlt : b.inserted.length < 2 ^ 31) : Contents b' := by
  obtain ⟨pc, enabled, pending⟩ := w
  cases pc <;> simp only [workerThread] at hs
  case gone => cases hs
  case waitItem | waitMutex =>
    obtain ⟨-, heq⟩ := map_P hs
    obtain ⟨rfl, -⟩ := Prod.mk.inj heq
    exact ⟨h.rear, h.front, h.window, h.order⟩
  case take =>
    obtain ⟨rfl, -⟩ := Prod.mk.inj (Option.some.inj hs)
    have hnext := hfull rfl
    have hfront : incr b.front = (b.removed.length + 1 : Nat) := by
      rw [h.front, incr_natCast (by omega)]
    have hitem : b.buf (index (incr b.front)) = b.inserted[b.removed.length] := by
      rw [hfront]
      exact h.window _ hnext (Nat.le_refl _)
    constructor
    · exact h.rear
    · simp [hfront]
    · simpa using h.window.pop
    · simp only [hitem, List.map_append, List.map_cons, List.map_nil, h.order, List.length_append,
        List.length_singleton]
      rw [List.take_append_getElem hnext]
  all_goals
    obtain ⟨rfl, -⟩ := Prod.mk.inj (Option.some.inj hs)
    exact ⟨h.rear, h.front, h.window, h.order⟩

end Step

/-! ## The number of threads -/

def Sized (n : Nat) : Prop := ∃ k, k ≤ 10 ∧ n = nthreads * 2 ^ k

theorem Sized.bounds {n : Nat} (h : Sized n) : nthreads ≤ n ∧ n ≤ threadLimit := by
  obtain ⟨k, hk, rfl⟩ := h
  constructor
  · exact Nat.le_mul_of_pos_right _ (Nat.two_pow_pos k)
  · exact Nat.mul_le_mul_left nthreads (Nat.pow_le_pow_right (by decide) hk)

theorem Sized.double {n : Nat} (h : Sized n) (hne : n ≠ threadLimit) : Sized (2 * n) := by
  obtain ⟨k, hk, rfl⟩ := h
  have hlt : k < 10 := by
    apply Nat.lt_of_le_of_ne hk
    rintro rfl
    exact hne rfl
  exact ⟨k + 1, hlt, by rw [Nat.pow_succ, Nat.mul_left_comm, Nat.mul_comm 2]⟩

theorem Sized.halve {n : Nat} (h : Sized n) (hne : n ≠ nthreads) : Sized (n / 2) := by
  obtain ⟨k, hk, rfl⟩ := h
  cases k with
  | zero => exact absurd rfl hne
  | succ k =>
      refine ⟨k, Nat.le_of_succ_le hk, ?_⟩
      rw [Nat.pow_succ, ← Nat.mul_assoc, Nat.mul_div_cancel _ (by decide)]

end CsappLabs.Proxy.ThreadPool
