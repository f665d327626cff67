import Mathlib.Init

/-!
# The reader-writer lock of the proxy, as one thread runs it

`reader-writer.c` guards the cache with two semaphores, a count of readers and
the flag `is_prev_write`.  Here each lock operation is run by a thread that no
other thread interleaves with, so a `P` on a semaphore of value 0 never
returns.
-/

namespace CsappLabs.Proxy

/-- Why a call does not return: it waits at `P`, it loops in `lock_writer`, or
it dereferences a null or freed pointer. -/
inductive Stop where
  | blocked
  | spinning
  | fault
  deriving DecidableEq, Repr

structure Locks where
  mutex : Nat
  w : Nat
  readcnt : Nat
  isPrevWrite : Bool
  deriving DecidableEq, Repr

def initWrLocks : Locks := ⟨1, 1, 0, false⟩

def P (sem : Nat) : Except Stop Nat := if sem = 0 then .error .blocked else .ok (sem - 1)

def V (sem : Nat) : Nat := sem + 1

theorem map_P {α : Type*} {sem : Nat} {f : Nat → α} {a : α}
    (h : (P sem).toOption.map f = some a) : 0 < sem ∧ f (sem - 1) = a := by
  unfold P at h
  split at h
  · cases h
  · exact ⟨Nat.pos_of_ne_zero ‹_›, Option.some.inj h⟩

def lockReader (l : Locks) : Except Stop Locks := do
  let l := { l with mutex := ← P l.mutex }
  let l := { l with readcnt := l.readcnt + 1 }
  let l ← if l.readcnt = 1 then (P l.w).map fun w => { l with w := w } else .ok l
  let l := { l with mutex := V l.mutex }
  .ok { l with mutex := ← P l.mutex }

def unlockReader (l : Locks) : Except Stop Locks :=
  let l := { l with readcnt := l.readcnt - 1 }
  let l := if l.readcnt = 0 then { l with w := V l.w } else l
  .ok { l with isPrevWrite := false, mutex := V l.mutex }

def lockWriter (l : Locks) : Except Stop Locks := do
  if l.isPrevWrite ∧ l.readcnt ≠ 0 then .error .spinning
  else .ok { l with w := ← P l.w }

def unlockWriter (l : Locks) : Except Stop Locks :=
  .ok { l with isPrevWrite := true, w := V l.w }

structure LockOps where
  lockReader : Locks → Except Stop Locks
  unlockReader : Locks → Except Stop Locks
  lockWriter : Locks → Except Stop Locks
  unlockWriter : Locks → Except Stop Locks

def semaphores : LockOps := ⟨lockReader, unlockReader, lockWriter, unlockWriter⟩

def noLocks : LockOps := ⟨.ok, .ok, .ok, .ok⟩

def Locks.Idle (l : Locks) : Prop := l.mutex = 1 ∧ l.w = 1 ∧ l.readcnt = 0

theorem initWrLocks_idle : initWrLocks.Idle := ⟨rfl, rfl, rfl⟩

/-- Each section that is entered with the locks idle leaves them idle. -/
structure LockOps.Balanced (ops : LockOps) : Prop where
  reader : ∀ l : Locks, l.Idle →
    ∃ l₁ l₂, ops.lockReader l = .ok l₁ ∧ ops.unlockReader l₁ = .ok l₂ ∧ l₂.Idle
  writer : ∀ l : Locks, l.Idle →
    ∃ l₁ l₂, ops.lockWriter l = .ok l₁ ∧ ops.unlockWriter l₁ = .ok l₂ ∧ l₂.Idle

theorem noLocks_balanced : noLocks.Balanced where
  reader l h := ⟨l, l, rfl, rfl, h⟩
  writer l h := ⟨l, l, rfl, rfl, h⟩

theorem semaphores_balanced : semaphores.Balanced where
  reader := by
    rintro ⟨mutex, w, readcnt, prev⟩ ⟨hm, hw, hr⟩
    subst hm hw hr
    exact ⟨⟨0, 0, 1, prev⟩, ⟨1, 1, 0, false⟩, rfl, rfl, ⟨rfl, rfl, rfl⟩⟩
  writer := by
    rintro ⟨mutex, w, readcnt, prev⟩ ⟨hm, hw, hr⟩
    subst hm hw hr
    refine ⟨⟨1, 0, 0, prev⟩, ⟨1, 1, 0, true⟩, ?_, rfl, ⟨rfl, rfl, rfl⟩⟩
    simp [semaphores, lockWriter, P]
    rfl

/-- A reader that a writer section encloses waits for the writer. -/
theorem lockReader_in_writer {l l₁ : Locks} (h : l.Idle) (hw : lockWriter l = .ok l₁) :
    lockReader l₁ = .error .blocked := by
  obtain ⟨mutex, w, readcnt, prev⟩ := l
  obtain ⟨hm, hw1, hr⟩ := h
  subst hm hw1 hr
  obtain rfl : (⟨1, 0, 0, prev⟩ : Locks) = l₁ := by
    have heq : lockWriter ⟨1, 1, 0, prev⟩ = .ok ⟨1, 0, 0, prev⟩ := by
      simp [lockWriter, P]
      rfl
    rw [heq] at hw
    exact Except.ok.inj hw
  rfl

end CsappLabs.Proxy
