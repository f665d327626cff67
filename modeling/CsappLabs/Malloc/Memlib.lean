import CsappLabs.Foundation.Memory
import Mathlib.Data.Int.Order.Basic

/-!
# The simulated memory system (`memlib.c`) and the boundary-tag macros

The three allocators are built with `-m32`: `WSIZE` is 4, `DSIZE` is 8 and
`size_t` arithmetic is modulo `2 ^ 32`.  Pointer arithmetic stays inside the
arena that `mem_init` got from the C library, so addresses are plain natural
numbers; the sum that `mem_sbrk` compares with `mem_max_addr` does not wrap.
-/

namespace CsappLabs.Malloc

open CsappLabs.Foundation

/-- `MAX_HEAP` of `config.h`: 20 MB. -/
def maxHeap : Nat := 20 * 2 ^ 20

def sbrkError : Nat := 2 ^ 32 - 1

structure Memlib where
  mem : Mem
  memStartBrk : Nat
  memBrk : Nat

namespace Memlib

def memMaxAddr (s : Memlib) : Nat := maxHeap + s.memStartBrk

def memResetBrk (s : Memlib) : Memlib := { s with memBrk := s.memStartBrk }

def memHeapLo (s : Memlib) : Nat := s.memStartBrk

def memHeapHi (s : Memlib) : Nat := s.memBrk - 1

def memHeapsize (s : Memlib) : Nat := s.memBrk - s.memStartBrk

/-- `none` is the error result `(void *)-1`. -/
@[irreducible] def memSbrk (s : Memlib) (incr : Int) : Option (Memlib × Nat) :=
  if incr < 0 ∨ (s.memMaxAddr : Int) < s.memBrk + incr then none
  else some ({ s with memBrk := s.memBrk + incr.toNat }, s.memBrk)

def InHeap (s : Memlib) (p n : Nat) : Prop :=
  s.memStartBrk ≤ p ∧ p + n ≤ s.memBrk

instance (s : Memlib) (p n : Nat) : Decidable (s.InHeap p n) :=
  inferInstanceAs (Decidable (_ ∧ _))

/-- `PUT(p, val)`, and every other one-word assignment through a pointer. -/
def put (s : Memlib) (p val : Nat) : Memlib :=
  { s with mem := store s.mem p val }

def memcpy (s : Memlib) (dst src n : Nat) : Memlib :=
  { s with mem := copy s.mem dst src n }

/-- A client's store of one byte; it is not a store of the allocator. -/
def clientWrite (s : Memlib) (p : Nat) (v : UInt8) : Memlib :=
  { s with mem := poke s.mem p v }

end Memlib

/-! ## `size_t` arithmetic -/

def addw (a b : Nat) : Nat := (a + b) % 2 ^ 32

def subw (a b : Nat) : Nat := (a + 2 ^ 32 - b) % 2 ^ 32

theorem addw_eq {x y : Nat} (h : x + y < 2 ^ 32) : addw x y = x + y :=
  Nat.mod_eq_of_lt h

theorem subw_eq {x y : Nat} (h : y ≤ x) (hx : x < 2 ^ 32) : subw x y = x - y := by
  unfold subw
  omega

def mulw (a b : Nat) : Nat := a * b % 2 ^ 32

/-- The conversion of a `size_t` argument to the `int` parameter of `mem_sbrk`. -/
def toInt (n : Nat) : Int := if n < 2 ^ 31 then n else (n : Int) - 2 ^ 32

def Memlib.Granted (s : Memlib) (n : Nat) : Prop :=
  n < 2 ^ 31 ∧ s.memBrk + n ≤ s.memMaxAddr

instance (s : Memlib) (n : Nat) : Decidable (s.Granted n) :=
  inferInstanceAs (Decidable (_ ∧ _))

theorem Memlib.granted_of_le {s : Memlib} {n : Nat} (h₁ : n < 2 ^ 31)
    (h₂ : s.memBrk + n ≤ s.memStartBrk + maxHeap) : s.Granted n :=
  ⟨h₁, h₂.trans_eq (Nat.add_comm _ _)⟩

theorem Memlib.memSbrk_toInt (s : Memlib) {n : Nat} (hn : n < 2 ^ 32) :
    s.memSbrk (toInt n) =
      if s.Granted n then some ({ s with memBrk := s.memBrk + n }, s.memBrk) else none := by
  unfold memSbrk toInt
  by_cases hg : s.Granted n
  · obtain ⟨hlt, hle⟩ := hg
    rw [if_pos hlt, if_neg (by omega), if_pos ⟨hlt, hle⟩, Int.toNat_natCast]
  · rw [if_neg hg]
    by_cases hlt : n < 2 ^ 31
    · have hle : ¬s.memBrk + n ≤ s.memMaxAddr := fun hle => hg ⟨hlt, hle⟩
      rw [if_pos hlt, if_pos (by omega)]
    · rw [if_neg hlt, if_pos (by omega)]

/-- The block size for a payload of `size` bytes, as `mm_malloc` and
`mm_realloc` compute it. -/
def adjustSize (size : Nat) : Nat :=
  if size ≤ 8 then 2 * 8
  else mulw 8 (addw (addw size 8) (8 - 1) / 8)

def extendSize (words : Nat) : Nat :=
  if words % 2 ≠ 0 then mulw (addw words 1) 4 else mulw words 4

theorem adjustSize_eq {n : Nat} (hn : n + 15 < 2 ^ 32) :
    adjustSize n = if n ≤ 8 then 16 else 8 * ((n + 15) / 8) := by
  unfold adjustSize mulw addw
  split
  · rfl
  · omega

theorem adjustSize_bounds {n : Nat} (hn : n + 15 < 2 ^ 32) :
    16 ≤ adjustSize n ∧ adjustSize n % 8 = 0 ∧ n + 8 ≤ adjustSize n ∧
      adjustSize n ≤ n + 16 := by
  rw [adjustSize_eq hn]
  split <;> omega

theorem adjustSize_add_lt {n : Nat} (hn : n + 23 < 2 ^ 32) : adjustSize n + 15 < 2 ^ 32 := by
  rw [adjustSize_eq (by omega)]
  split <;> omega

theorem adjustSize_wrapped {n : Nat} (hn : 2 ^ 32 ≤ n + 15) (hlt : n < 2 ^ 32) :
    adjustSize n ≤ 8 := by
  unfold adjustSize mulw addw
  rw [if_neg (by omega)]
  omega

theorem adjustSize_last {n : Nat} (hn : 2 ^ 32 ≤ n + 23) (hlt : n + 15 < 2 ^ 32) :
    adjustSize n = 2 ^ 32 - 8 := by
  rw [adjustSize_eq hlt, if_neg (by omega)]
  omega

theorem adjustSize_lt_word (n : Nat) : adjustSize n < 2 ^ 32 := by
  unfold adjustSize mulw
  split <;> omega

theorem extendSize_chunk {a : Nat} (ha : a % 8 = 0) (hlt : a < 2 ^ 32) :
    extendSize (max a (2 ^ 12) / 4) = max a (2 ^ 12) := by
  unfold extendSize mulw
  rw [if_neg (by omega)]
  omega

/-! ## The macros -/

def chunksize : Nat := 2 ^ 12

theorem max_chunksize {a : Nat} (ha : a ≤ 16) : max a chunksize = max 16 chunksize := by
  unfold chunksize
  omega

def pack (size alloc : Nat) : Nat := size ||| alloc

def getSize (m : Mem) (p : Nat) : Nat := load m p &&& 0xFFFFFFF8

def getAlloc (m : Mem) (p : Nat) : Nat := load m p &&& 0x1

def hdrp (bp : Nat) : Nat := bp - 4

def ftrp (m : Mem) (bp : Nat) : Nat := bp + getSize m (hdrp bp) - 8

def nextBlkp (m : Mem) (bp : Nat) : Nat := bp + getSize m (bp - 4)

def prevBlkp (m : Mem) (bp : Nat) : Nat := bp - getSize m (bp - 8)

def getPredecessor (m : Mem) (bp : Nat) : Nat := load m bp

def succPtr (bp : Nat) : Nat := bp + 4

def getSuccessor (m : Mem) (bp : Nat) : Nat := load m (succPtr bp)

/-- A walk along pointers that takes more steps than there are addresses has
met one address twice and goes on for ever. -/
def walkFuel : Nat := 2 ^ 32

end CsappLabs.Malloc
