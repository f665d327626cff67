import CsappLabs.Malloc.Memlib

/-!
# The explicit-list allocator (`mm_explicit_list.c`)

The free list runs between two static words, `head_addr` and `tail_addr`.
Every routine that the source calls is total here except the search of
`find_fit`, whose walk may fail to end; `none` stands for a call that does not
return.
-/

namespace CsappLabs.Malloc.Explicit

open CsappLabs.Foundation

structure State extends Memlib where
  heapListp : Nat
  /-- `&head_addr` -/
  heapFreep : Nat
  /-- `&tail_addr` -/
  tail : Nat

namespace State

def put (s : State) (p val : Nat) : State :=
  { s with toMemlib := s.toMemlib.put p val }

def setPredecessor (s : State) (bp val : Nat) : State := s.put bp val

def setSuccessor (s : State) (bp val : Nat) : State := s.put (succPtr bp) val

def memcpy (s : State) (dst src n : Nat) : State :=
  { s with toMemlib := s.toMemlib.memcpy dst src n }

def memSbrk (s : State) (incr : Int) : Option (State × Nat) :=
  (s.toMemlib.memSbrk incr).map fun r => ({ s with toMemlib := r.1 }, r.2)

end State

/-- The new block goes to the front of the list. -/
def insertNode (s : State) (bp : Nat) : State :=
  let cur := getSuccessor s.mem s.heapFreep
  let s := s.setSuccessor (getPredecessor s.mem cur) bp
  let s := s.setPredecessor bp (getPredecessor s.mem cur)
  let s := s.setPredecessor cur bp
  s.setSuccessor bp cur

def deleteNode (s : State) (bp : Nat) : State :=
  let s := s.setSuccessor (getPredecessor s.mem bp) (getSuccessor s.mem bp)
  s.setPredecessor (getSuccessor s.mem bp) (getPredecessor s.mem bp)

def mergeNext (s : State) (bp : Nat) : State :=
  let size := getSize s.mem (hdrp bp)
  let size := addw size (getSize s.mem (hdrp (nextBlkp s.mem bp)))
  let s := deleteNode s (nextBlkp s.mem bp)
  let s := s.put (hdrp bp) (pack size 0)
  s.put (ftrp s.mem bp) (pack size 0)

def mergePrev (s : State) (bp : Nat) : State :=
  let size := getSize s.mem (hdrp bp)
  let size := addw size (getSize s.mem (hdrp (prevBlkp s.mem bp)))
  let s := deleteNode s (prevBlkp s.mem bp)
  let s := s.put (ftrp s.mem bp) (pack size 0)
  s.put (hdrp (prevBlkp s.mem bp)) (pack size 0)

def mergeBoth (s : State) (bp : Nat) : State :=
  let size := getSize s.mem (hdrp bp)
  let size := addw size (addw (getSize s.mem (hdrp (prevBlkp s.mem bp)))
    (getSize s.mem (ftrp s.mem (nextBlkp s.mem bp))))
  let s := deleteNode s (prevBlkp s.mem bp)
  let s := deleteNode s (nextBlkp s.mem bp)
  let s := s.put (hdrp (prevBlkp s.mem bp)) (pack size 0)
  s.put (ftrp s.mem (nextBlkp s.mem bp)) (pack size 0)

def coalesce (s : State) (bp : Nat) : State × Nat :=
  let isPrevAlloc :=
    getAlloc s.mem (ftrp s.mem (prevBlkp s.mem bp)) ≠ 0 ∨ prevBlkp s.mem bp = bp
  let isNextAlloc := getAlloc s.mem (hdrp (nextBlkp s.mem bp)) ≠ 0
  if isPrevAlloc ∧ isNextAlloc then
    (insertNode s bp, bp)
  else if isPrevAlloc ∧ ¬isNextAlloc then
    let s := mergeNext s bp
    (insertNode s bp, bp)
  else if ¬isPrevAlloc ∧ isNextAlloc then
    let s := mergePrev s bp
    let bp := prevBlkp s.mem bp
    (insertNode s bp, bp)
  else
    let s := mergeBoth s bp
    let bp := prevBlkp s.mem bp
    (insertNode s bp, bp)

def extendHeap (s : State) (words : Nat) : State × Nat :=
  let size := extendSize words
  match s.memSbrk (toInt size) with
  | none => (s, 0)
  | some (s, bp) =>
      let s := s.put (hdrp bp) (pack size 0)
      let s := s.put (ftrp s.mem bp) (pack size 0)
      let s := s.put (hdrp (nextBlkp s.mem bp)) (pack 0 1)
      coalesce s bp

/-- `place` after `delete_node`. -/
def carve (s : State) (bp asize blockSize : Nat) : State :=
  if subw blockSize asize ≥ 2 * 8 then
    let s := s.put (hdrp bp) (pack asize 1)
    let s := s.put (ftrp s.mem bp) (pack asize 1)
    let bp := nextBlkp s.mem bp
    let s := s.put (hdrp bp) (pack (subw blockSize asize) 0)
    let s := s.put (ftrp s.mem bp) (pack (subw blockSize asize) 0)
    (coalesce s bp).1
  else
    let s := s.put (hdrp bp) (pack blockSize 1)
    s.put (ftrp s.mem bp) (pack blockSize 1)

def place (s : State) (bp asize : Nat) : State :=
  let blockSize := getSize s.mem (hdrp bp)
  let s := deleteNode s bp
  carve s bp asize blockSize

/-- The loop of `find_fit`; `some 0` is the result `NULL`. -/
def findFitFrom (s : State) (asize : Nat) : Nat → Nat → Option Nat
  | 0, _ => none
  | fuel + 1, bp =>
      if bp = s.tail then some 0
      else if asize ≤ getSize s.mem (hdrp bp) then some bp
      else findFitFrom s asize fuel (getSuccessor s.mem bp)

def findFit (s : State) (asize : Nat) : Option Nat :=
  findFitFrom s asize walkFuel (getSuccessor s.mem s.heapFreep)

def putPrologue (s : State) (p : Nat) : State :=
  let s := { s with heapListp := p }
  let s := s.put s.heapListp 0
  let s := s.put (s.heapListp + 1 * 4) (pack 8 1)
  let s := s.put (s.heapListp + 2 * 4) (pack 8 1)
  let s := s.put (s.heapListp + 3 * 4) (pack 0 1)
  let s := { s with heapListp := s.heapListp + 2 * 4 }
  let s := s.setSuccessor s.heapFreep s.tail
  s.setPredecessor s.tail s.heapFreep

def mmInit (s : State) : State × Int :=
  match s.memSbrk (toInt (4 * 4)) with
  | none => ({ s with heapListp := sbrkError }, -1)
  | some (s, p) =>
      let r := extendHeap (putPrologue s p) (2 ^ 5 / 4)
      (r.1, if r.2 = 0 then -1 else 0)

/-- The list loop of `checkheap`: the nodes from `bp` to `tail`. -/
def walkList (s : State) : Nat → Nat → Option (List Nat)
  | 0, _ => none
  | fuel + 1, bp =>
      if bp = s.tail then some []
      else (walkList s fuel (getSuccessor s.mem bp)).map fun xs => bp :: xs

def mmMalloc (s : State) (size : Nat) : Option (State × Nat) :=
  let s := if s.heapListp = 0 then (mmInit s).1 else s
  if size = 0 then some (s, 0)
  else
    let asize := adjustSize size
    match findFit s asize with
    | none => none
    | some bp =>
        if bp ≠ 0 then some (place s bp asize, bp)
        else
          let extendsize := max asize chunksize
          let (s, bp) := extendHeap s (extendsize / 4)
          if bp = 0 then some (s, 0)
          else some (place s bp asize, bp)

def mmFree (s : State) (bp : Nat) : State :=
  if bp = 0 then s
  else
    let s := if s.heapListp = 0 then (mmInit s).1 else s
    let blockSize := getSize s.mem (hdrp bp)
    let s := s.put (hdrp bp) (pack blockSize 0)
    let s := s.put (ftrp s.mem bp) (pack blockSize 0)
    (coalesce s bp).1

def mmRealloc (s : State) (bp size : Nat) : Option (State × Nat) :=
  if size = 0 then some (mmFree s bp, 0)
  else if bp = 0 then mmMalloc s size
  else
    let oldSize := getSize s.mem (hdrp bp)
    let size := adjustSize size
    if oldSize ≥ size then some (s, bp)
    else
      let nextAlloc := getAlloc s.mem (hdrp (nextBlkp s.mem bp))
      let nextBlkSize := getSize s.mem (hdrp (nextBlkp s.mem bp))
      if (nextAlloc = 0 ∨ nextBlkSize = 0) ∧ addw oldSize nextBlkSize ≥ size then
        let s := deleteNode s (nextBlkp s.mem bp)
        let s := s.put (hdrp bp) (pack (addw oldSize nextBlkSize) 1)
        let s := s.put (ftrp s.mem bp) (pack (addw oldSize nextBlkSize) 1)
        some (s, bp)
      else
        match mmMalloc s size with
        | none => none
        | some (s, newbp) =>
            if newbp = 0 then some (s, 0)
            else
              let s := place s newbp size
              let s := s.memcpy newbp bp (min size oldSize)
              some (mmFree s bp, newbp)

end CsappLabs.Malloc.Explicit
