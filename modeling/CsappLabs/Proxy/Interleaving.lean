import CsappLabs.Foundation.Tally
import CsappLabs.Foundation.Transition
import CsappLabs.Proxy.ReaderWriter

/-!
# The reader-writer lock under any interleaving

Any number of threads run the functions of `reader-writer.c`.  A step is one
`P`, one `V`, or one access to `readcnt` or `is_prev_write`; `++readcnt` is a
read and a write.  `readcnt` never exceeds the number of threads, so that it is
a natural number here.
-/

namespace CsappLabs.Proxy.Interleaving

open CsappLabs.Foundation

/-- The next access of a thread.  In `lock_reader`: `P(&mutex)`, the read and
the write of `++readcnt`, the test, `P(&w)`, `V(&mutex)`, `P(&mutex)`.  In
`unlock_reader`: the read and the write of `--readcnt`, `V(&w)`, the flag,
`V(&mutex)`.  In `lock_writer`: the two reads of the loop, `P(&w)`.  In
`unlock_writer`: the flag, `V(&w)`. -/
inductive Pc where
  | outside
  | lockMutex
  | readCount
  | writeCount (count : Nat)
  | testCount
  | claimW
  | unlockMutex
  | relockMutex
  | reading
  | readLast
  | writeLast (count : Nat)
  | freeW
  | clearFlag
  | leaveMutex
  | testFlag
  | spinCount
  | takeW
  | writing
  | setFlag
  | giveW
  deriving DecidableEq, Repr

/-- The access at `Pc`, and where the thread goes.  A `P` on 0 waits. -/
def advance (l : Locks) : Pc → Option (Locks × Pc)
  | .outside => none
  | .lockMutex => (P l.mutex).toOption.map fun m => ({ l with mutex := m }, .readCount)
  | .readCount => some (l, .writeCount l.readcnt)
  | .writeCount count => some ({ l with readcnt := count + 1 }, .testCount)
  | .testCount => some (l, if l.readcnt = 1 then .claimW else .unlockMutex)
  | .claimW => (P l.w).toOption.map fun w => ({ l with w := w }, .unlockMutex)
  | .unlockMutex => some ({ l with mutex := V l.mutex }, .relockMutex)
  | .relockMutex => (P l.mutex).toOption.map fun m => ({ l with mutex := m }, .reading)
  | .reading => some (l, .readLast)
  | .readLast => some (l, .writeLast l.readcnt)
  | .writeLast count =>
      some ({ l with readcnt := count - 1 }, if count - 1 = 0 then .freeW else .clearFlag)
  | .freeW => some ({ l with w := V l.w }, .clearFlag)
  | .clearFlag => some ({ l with isPrevWrite := false }, .leaveMutex)
  | .leaveMutex => some ({ l with mutex := V l.mutex }, .outside)
  | .testFlag => some (l, if l.isPrevWrite then .spinCount else .takeW)
  | .spinCount => some (l, if l.readcnt ≠ 0 then .testFlag else .takeW)
  | .takeW => (P l.w).toOption.map fun w => ({ l with w := w }, .writing)
  | .writing => some (l, .setFlag)
  | .setFlag => some ({ l with isPrevWrite := true }, .giveW)
  | .giveW => some ({ l with w := V l.w }, .outside)

structure Shared (Thread : Type*) where
  locks : Locks
  pc : Thread → Pc

inductive Act (Thread : Type*) where
  | lockReader (t : Thread)
  | lockWriter (t : Thread)
  | advance (t : Thread)
  deriving DecidableEq

variable {Thread : Type*}

def start : Shared Thread := ⟨initWrLocks, fun _ => .outside⟩

section Steps

variable [DecidableEq Thread]

def Shared.goto (s : Shared Thread) (t : Thread) (pc : Pc) : Shared Thread :=
  { s with pc := Function.update s.pc t pc }

/-- Sections are not nested: a thread enters one from outside. -/
def step (s : Shared Thread) : Act Thread → Option (Shared Thread)
  | .lockReader t => if s.pc t = .outside then some (s.goto t .lockMutex) else none
  | .lockWriter t => if s.pc t = .outside then some (s.goto t .testFlag) else none
  | .advance t => (advance s.locks (s.pc t)).map fun r => { s.goto t r.2 with locks := r.1 }

end Steps

/-! ## A thread on its own -/

def alone : Nat → Locks → Pc → Option (Locks × Pc)
  | 0, l, pc => some (l, pc)
  | k + 1, l, pc => (advance l pc).bind fun r => alone k r.1 r.2

variable {l l' : Locks}

theorem lockReader_alone (h : lockReader l = .ok l') :
    ∃ k, alone k l .lockMutex = some (l', .reading) := by
  obtain ⟨mutex, w, readcnt, flag⟩ := l
  cases mutex with
  | zero => cases h
  | succ mutex =>
      cases readcnt with
      | zero =>
          cases w with
          | zero => cases h
          | succ w => exact ⟨7, by cases h; rfl⟩
      | succ readcnt => exact ⟨6, by cases h; rfl⟩

theorem unlockReader_alone (h : unlockReader l = .ok l') :
    ∃ k, alone k l .readLast = some (l', .outside) := by
  obtain ⟨mutex, w, readcnt, flag⟩ := l
  match readcnt with
  | 0 | 1 => exact ⟨5, by cases h; rfl⟩
  | readcnt + 2 => exact ⟨4, by cases h; rfl⟩

theorem lockWriter_alone (h : lockWriter l = .ok l') :
    ∃ k, alone k l .testFlag = some (l', .writing) := by
  obtain ⟨mutex, w, readcnt, flag⟩ := l
  cases flag with
  | false =>
      cases w with
      | zero => cases h
      | succ w => exact ⟨2, by cases h; rfl⟩
  | true =>
      cases readcnt with
      | succ readcnt => cases h
      | zero =>
          cases w with
          | zero => cases h
          | succ w => exact ⟨3, by cases h; rfl⟩

theorem unlockWriter_alone (h : unlockWriter l = .ok l') :
    ∃ k, alone k l .setFlag = some (l', .outside) := by
  obtain rfl := Except.ok.inj h
  exact ⟨2, rfl⟩

/-! ## Classes of positions -/

namespace Pc

@[simp] def holdsMutex : Pc → Bool
  | readCount | writeCount _ | testCount | claimW | unlockMutex => true
  | reading | readLast | writeLast _ | freeW | clearFlag | leaveMutex => true
  | _ => false

@[simp] def countedHolding : Pc → Bool
  | testCount | claimW | unlockMutex | reading | readLast | writeLast _ => true
  | _ => false

@[simp] def retaking : Pc → Bool
  | relockMutex => true
  | _ => false

/-- `++readcnt` has been executed, `--readcnt` has not. -/
def counted (pc : Pc) : Bool := pc.retaking || pc.countedHolding

/-- The thread holds `mutex`, and `w` is taken on behalf of the readers. -/
@[simp] def claimedHolding : Pc → Bool
  | unlockMutex | reading | readLast | writeLast _ | freeW => true
  | _ => false

/-- From the return of `lock_writer` to `V(&w)`. -/
@[simp] def inWriter : Pc → Bool
  | writing | setFlag | giveW => true
  | _ => false

/-- From the return of `lock_reader` to the release of `w`. -/
@[simp] def inReader : Pc → Bool
  | reading | readLast | writeLast _ | freeW => true
  | _ => false

end Pc

@[simp] def Blocked (l : Locks) : Pc → Prop
  | .lockMutex | .relockMutex => l.mutex = 0
  | .claimW | .takeW => l.w = 0
  | .testFlag | .spinCount => l.isPrevWrite ∧ l.readcnt ≠ 0
  | _ => False

@[simp] def Knows (l : Locks) : Pc → Prop
  | .writeCount count => count = l.readcnt
  | .claimW => l.readcnt = 1
  | .writeLast count => count = l.readcnt
  | .freeW => l.readcnt = 0
  | _ => True

theorem knows_of_not_holdsMutex {l : Locks} {pc : Pc} (h : pc.holdsMutex = false) :
    Knows l pc := by
  cases pc <;> trivial

theorem Knows.of_readcnt_eq {l l' : Locks} {pc : Pc} (h : Knows l pc)
    (heq : l'.readcnt = l.readcnt) : Knows l' pc := by
  cases pc <;> simp_all

theorem not_blocked_of_inWriter {pc : Pc} (l : Locks) (h : pc.inWriter) :
    pc ≠ .outside ∧ ¬Blocked l pc := by
  cases pc <;> simp_all

theorem not_blocked_of_claimedHolding {pc : Pc} (l : Locks) (h : pc.claimedHolding) :
    pc ≠ .outside ∧ ¬Blocked l pc := by
  cases pc <;> simp_all

theorem not_blocked_of_retaking {l : Locks} {pc : Pc} (hm : l.mutex ≠ 0) (h : pc.retaking) :
    pc ≠ .outside ∧ ¬Blocked l pc := by
  cases pc <;> simp_all

theorem eq_claimW_of_blocked {l : Locks} {pc : Pc} (h : pc.holdsMutex) (hb : Blocked l pc) :
    pc = .claimW ∧ l.w = 0 := by
  cases pc <;> simp_all

theorem Blocked.reason {l : Locks} {pc : Pc} (hb : Blocked l pc) :
    l.mutex = 0 ∨ l.w = 0 ∨ l.readcnt ≠ 0 := by
  cases pc <;> simp_all

/-! ## The invariant -/

/-- The semaphores and the count, given how many threads stand in each class. -/
structure Balance (l : Locks) (holding counted retaking claimed writers : Nat) : Prop where
  mutex : l.mutex + holding = 1
  readcnt : l.readcnt = retaking + counted
  w : l.w + writers + min 1 (retaking + claimed) = 1

section Step

variable {l l' : Locks} {pc pc' : Pc} {holding counted retaking claimed writers : Nat}

theorem holdsMutex_of_countedHolding (pc : Pc) (h : pc.countedHolding) : pc.holdsMutex := by
  cases pc <;> trivial

theorem holdsMutex_of_claimedHolding (pc : Pc) (h : pc.claimedHolding) : pc.holdsMutex := by
  cases pc <;> trivial

/-- One access keeps the balance; the numbers are those of the other threads. -/
theorem balance_advance
    (h : Balance l (holding + pc.holdsMutex.toNat) (counted + pc.countedHolding.toNat)
      (retaking + pc.retaking.toNat) (claimed + pc.claimedHolding.toNat)
      (writers + pc.inWriter.toNat))
    (hk : Knows l pc) (hcounted : counted ≤ holding) (hclaimed : claimed ≤ holding)
    (hs : advance l pc = some (l', pc')) :
    Balance l' (holding + pc'.holdsMutex.toNat) (counted + pc'.countedHolding.toNat)
      (retaking + pc'.retaking.toNat) (claimed + pc'.claimedHolding.toNat)
      (writers + pc'.inWriter.toNat) ∧ Knows l' pc' := by
  obtain ⟨hmutex, hreadcnt, hw⟩ := h
  cases pc <;> simp at hmutex hreadcnt hw hk <;> simp only [advance] at hs
  case outside => cases hs
  case lockMutex | claimW | relockMutex | takeW =>
    obtain ⟨hpos, heq⟩ := map_P hs
    obtain ⟨rfl, rfl⟩ := Prod.mk.inj heq
    refine ⟨⟨?_, ?_, ?_⟩, ?_⟩ <;> simp <;> omega
  case testCount | writeLast | testFlag | spinCount =>
    obtain ⟨rfl, rfl⟩ := Prod.mk.inj (Option.some.inj hs)
    -- the branch is decided by what the thread reads
    split <;> refine ⟨⟨?_, ?_, ?_⟩, ?_⟩ <;> simp <;> omega
  all_goals
    obtain ⟨rfl, rfl⟩ := Prod.mk.inj (Option.some.inj hs)
    refine ⟨⟨?_, ?_, ?_⟩, ?_⟩ <;> simp [V] <;> omega

theorem readcnt_advance (hs : advance l pc = some (l', pc')) :
    l'.readcnt = l.readcnt ∨ pc.holdsMutex := by
  cases pc <;> simp only [advance] at hs
  case outside => cases hs
  case lockMutex | claimW | relockMutex | takeW =>
    obtain ⟨-, heq⟩ := map_P hs
    obtain ⟨rfl, -⟩ := Prod.mk.inj heq
    exact .inl rfl
  case writeCount | writeLast => exact .inr rfl
  all_goals
    obtain ⟨rfl, -⟩ := Prod.mk.inj (Option.some.inj hs)
    exact .inl rfl

end Step

variable [Fintype Thread] {s : Shared Thread} {t u : Thread}

structure Inv (s : Shared Thread) : Prop where
  balance : Balance s.locks (tally Pc.holdsMutex s.pc) (tally Pc.countedHolding s.pc)
    (tally Pc.retaking s.pc) (tally Pc.claimedHolding s.pc) (tally Pc.inWriter s.pc)
  knows : ∀ t, Knows s.locks (s.pc t)

theorem inv_start : Inv (start : Shared Thread) where
  balance := by
    constructor <;> simp [start, initWrLocks, tally]
  knows _ := trivial

namespace Inv

theorem tally_holdsMutex_le (h : Inv s) : tally Pc.holdsMutex s.pc ≤ 1 := by
  have hmutex := h.balance.mutex
  omega

theorem not_inReader_of_inWriter (h : Inv s) (ht : (s.pc t).inWriter) (hu : u ≠ t) :
    (s.pc u).inWriter = false ∧ (s.pc u).inReader = false := by
  have hw := h.balance.w
  have hpos : 0 < tally Pc.inWriter s.pc := tally_pos ht
  constructor
  · apply Bool.eq_false_of_not_eq_true
    intro hwriter
    have hone : tally Pc.inWriter s.pc ≤ 1 := by omega
    exact hu (eq_of_tally_le_one hone hwriter ht)
  · apply Bool.eq_false_of_not_eq_true
    intro hreader
    have hclaimed : (s.pc u).claimedHolding := by
      cases hpc : s.pc u <;> rw [hpc] at hreader <;> first | rfl | cases hreader
    have hposr : 0 < tally Pc.claimedHolding s.pc := tally_pos hclaimed
    omega

theorem readcnt_eq (h : Inv s) : s.locks.readcnt = tally Pc.counted s.pc := by
  rw [h.balance.readcnt]
  exact (tally_or (fun pc hpc => by cases pc <;> trivial) s.pc).symm

theorem exists_not_blocked (h : Inv s) (ht : s.pc t ≠ .outside) :
    ∃ u, s.pc u ≠ .outside ∧ ¬Blocked s.locks (s.pc u) := by
  by_contra hno
  have hblocked : ∀ u, s.pc u ≠ .outside → Blocked s.locks (s.pc u) := by
    intro u hu
    by_contra hfree
    exact hno ⟨u, hu, hfree⟩
  -- nobody stands in a class of positions that are not blocked
  have hempty : ∀ p : Pc → Bool, (∀ pc, p pc → pc ≠ .outside ∧ ¬Blocked s.locks pc) →
      tally p s.pc = 0 := by
    intro p hp
    apply tally_eq_zero
    intro u
    apply Bool.eq_false_of_not_eq_true
    intro hu
    exact (hp _ hu).2 (hblocked u (hp _ hu).1)
  obtain ⟨hmutex, hreadcnt, hw⟩ := h.balance
  have hwriters : tally Pc.inWriter s.pc = 0 :=
    hempty _ fun pc => not_blocked_of_inWriter s.locks
  have hclaimed : tally Pc.claimedHolding s.pc = 0 :=
    hempty _ fun pc => not_blocked_of_claimedHolding s.locks
  by_cases hzero : s.locks.mutex = 0
  · -- the holder of the mutex waits for a writer, and there is none
    have hholds : 0 < tally Pc.holdsMutex s.pc := by omega
    obtain ⟨u, hu⟩ := exists_of_tally_pos hholds
    have hactive : s.pc u ≠ .outside := by
      intro hpc
      rw [hpc] at hu
      cases hu
    obtain ⟨hpc, hw0⟩ := eq_claimW_of_blocked hu (hblocked u hactive)
    have hknows := h.knows u
    rw [hpc] at hknows
    have hone : s.locks.readcnt = 1 := hknows
    have hcounted : 0 < tally Pc.countedHolding s.pc := tally_pos (by rw [hpc]; rfl)
    omega
  · -- nobody holds the mutex, so that nobody is counted and `w` is free
    have hretaking : tally Pc.retaking s.pc = 0 :=
      hempty _ fun pc => not_blocked_of_retaking hzero
    have hcounted : tally Pc.countedHolding s.pc ≤ tally Pc.holdsMutex s.pc :=
      tally_le holdsMutex_of_countedHolding s.pc
    have hreason := (hblocked t ht).reason
    omega

variable [DecidableEq Thread]

theorem enter (h : Inv s) (hpc : s.pc t = .outside) {pc : Pc}
    (hnew : pc = .lockMutex ∨ pc = .testFlag) : Inv (s.goto t pc) where
  balance := by
    have hbalance := h.balance
    simp only [tally_eq _ s.pc t, hpc] at hbalance
    simp only [Shared.goto, tally_update]
    cases hnew with
    | inl hlock => exact hlock ▸ hbalance
    | inr htest => exact htest ▸ hbalance
  knows u := by
    by_cases hu : u = t
    · subst hu
      simp only [Shared.goto, Function.update_self]
      cases hnew with
      | inl hlock => exact hlock ▸ trivial
      | inr htest => exact htest ▸ trivial
    · simpa only [Shared.goto, Function.update_of_ne hu] using h.knows u

theorem advance (h : Inv s) {l : Locks} {pc : Pc}
    (hs : advance s.locks (s.pc t) = some (l, pc)) : Inv { s.goto t pc with locks := l } := by
  have hbalance := h.balance
  simp only [tally_eq _ s.pc t] at hbalance
  have hcounted : others Pc.countedHolding s.pc t ≤ others Pc.holdsMutex s.pc t :=
    others_le holdsMutex_of_countedHolding s.pc t
  have hclaimed : others Pc.claimedHolding s.pc t ≤ others Pc.holdsMutex s.pc t :=
    others_le holdsMutex_of_claimedHolding s.pc t
  obtain ⟨hbalance', hknows⟩ := balance_advance hbalance (h.knows t) hcounted hclaimed hs
  constructor
  · simpa only [Shared.goto, tally_update] using hbalance'
  · intro u
    by_cases hu : u = t
    · subst hu
      simpa only [Shared.goto, Function.update_self] using hknows
    · simp only [Shared.goto, Function.update_of_ne hu]
      cases readcnt_advance hs with
      | inl heq => exact (h.knows u).of_readcnt_eq heq
      | inr hholds =>
          -- the others do not hold the mutex
          apply knows_of_not_holdsMutex
          apply Bool.eq_false_of_not_eq_true
          intro hu'
          exact hu (eq_of_tally_le_one h.tally_holdsMutex_le hu' hholds)

theorem of_run (h : Run step (fun _ _ => True) start s) : Inv s := by
  apply h.invariant Inv inv_start
  intro s a s' hinv _ hs
  cases a with
  | lockReader t =>
      simp only [step] at hs
      split at hs
      · rename_i hpc
        exact Option.some.inj hs ▸ hinv.enter hpc (.inl rfl)
      · cases hs
  | lockWriter t =>
      simp only [step] at hs
      split at hs
      · rename_i hpc
        exact Option.some.inj hs ▸ hinv.enter hpc (.inr rfl)
      · cases hs
  | advance t =>
      obtain ⟨⟨l, pc⟩, hadv, heq⟩ := Option.map_eq_some_iff.mp hs
      exact heq ▸ hinv.advance hadv

end Inv

variable [DecidableEq Thread]

/-- Any number of threads run reader and writer sections: a writer inside
excludes all others, `readcnt` counts the readers between the increment and the
decrement, and some thread inside or entering can go on. -/
theorem reader_writer (h : Run step (fun _ _ => True) start s) :
    (∀ t u, (s.pc t).inWriter → u ≠ t → ¬(s.pc u).inWriter ∧ ¬(s.pc u).inReader) ∧
      s.locks.readcnt = tally Pc.counted s.pc ∧
      ((∃ t, s.pc t ≠ .outside) → ∃ t, s.pc t ≠ .outside ∧ ¬Blocked s.locks (s.pc t)) := by
  have hinv := Inv.of_run h
  refine ⟨?_, hinv.readcnt_eq, ?_⟩
  · intro t u ht hu
    have hfree := hinv.not_inReader_of_inWriter ht hu
    rw [hfree.1, hfree.2]
    exact ⟨Bool.false_ne_true, Bool.false_ne_true⟩
  · rintro ⟨t, ht⟩
    exact hinv.exists_not_blocked ht

def readerThenWriter : List (Act (Fin 2)) :=
  .lockReader 0 :: List.replicate 7 (.advance 0) ++ [.lockWriter 1, .advance 1]

theorem reader_writer_waits :
    ∃ s : Shared (Fin 2), s.locks = ⟨0, 0, 1, false⟩ ∧ s.pc 0 = .reading ∧ s.pc 1 = .takeW ∧
      (∀ t u, (s.pc t).inWriter → u ≠ t → ¬(s.pc u).inWriter ∧ ¬(s.pc u).inReader) ∧
      s.locks.readcnt = tally Pc.counted s.pc ∧
      ((∃ t, s.pc t ≠ .outside) → ∃ t, s.pc t ≠ .outside ∧ ¬Blocked s.locks (s.pc t)) := by
  obtain ⟨s, hs, hl, hpc⟩ : ∃ s, replay step (fun _ _ => True) start readerThenWriter = some s ∧
      s.locks = ⟨0, 0, 1, false⟩ ∧ s.pc 0 = .reading ∧ s.pc 1 = .takeW :=
    ⟨_, rfl, rfl, rfl, rfl⟩
  exact ⟨s, hl, hpc.1, hpc.2, reader_writer (Run.start.of_replay hs)⟩

end CsappLabs.Proxy.Interleaving
