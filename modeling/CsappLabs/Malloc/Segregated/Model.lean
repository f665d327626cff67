import CsappLabs.Malloc.Memlib

/-!
# The segregated allocator (`mm.c`)

Free blocks are kept in 16 lists.  The list heads are the first 16 words of
the heap, the links are the first two words of each free block's payload.
`none` stands for a call that does not return, which only a walk along a
cyclic list could cause; the pointer `0` is `NULL`.

`strays` is a ghost: it records the address of every store made outside
`[mem_heap_lo, mem_heap_hi]` as these stood at the moment of the store.
-/

namespace CsappLabs.Malloc.Segregated

open CsappLabs.Foundation

def maxSegEntry : Nat := 16

structure State extends Memlib where
  heapListp : Nat
  segFreeListp : Nat
  strays : List Nat

namespace State

def put (s : State) (p val : Nat) : State :=
  { s with
    toMemlib := s.toMemlib.put p val
    strays := if s.InHeap p 4 then s.strays else p :: s.strays }

def setPredecessor (s : State) (bp val : Nat) : State := s.put bp val

def setSuccessor (s : State) (bp val : Nat) : State := s.put (succPtr bp) val

def selectSegEntry (s : State) (i : Nat) : Nat := load s.mem (s.segFreeListp + 4 * i)

def setSegEntry (s : State) (i val : Nat) : State := s.put (s.segFreeListp + 4 * i) val

def memcpy (s : State) (dst src n : Nat) : State :=
  { s with
    toMemlib := s.toMemlib.memcpy dst src n
    strays := if s.InHeap dst n then s.strays else dst :: s.strays }

def memSbrk (s : State) (incr : Int) : Option (State × Nat) :=
  (s.toMemlib.memSbrk incr).map fun r => ({ s with toMemlib := r.1 }, r.2)

end State

/-- The loop that selects a free list, with `k` rounds left before
`list_entry_num` reaches `MAXSEGENTRY - 1`; the results are `size` and
`list_entry_num` as the loop leaves them. -/
def selectList : Nat → Nat → Nat × Nat
  | 0, size => (size, maxSegEntry - 1)
  | k + 1, size =>
      if size > 1 then selectList k (size >>> 1)
      else (size, maxSegEntry - 1 - (k + 1))

/-- The loop of `insert_node` that looks for the place of the new node. -/
def findPlace (s : State) (size : Nat) : Nat → Nat → Nat → Option (Nat × Nat)
  | 0, _, _ => none
  | fuel + 1, insertPtr, nextPtr =>
      if insertPtr ≠ 0 ∧ getSize s.mem (hdrp insertPtr) < size then
        findPlace s size fuel nextPtr (getSuccessor s.mem nextPtr)
      else some (insertPtr, nextPtr)

def insertNode (s : State) (bp size : Nat) : Option State :=
  let (size, listEntryNum) := selectList (maxSegEntry - 1) size
  let insertPtr := s.selectSegEntry listEntryNum
  let nextPtr := if insertPtr ≠ 0 then getSuccessor s.mem insertPtr else 0
  match findPlace s size walkFuel insertPtr nextPtr with
  | none => none
  | some (insertPtr, nextPtr) =>
      if insertPtr ≠ 0 then
        if nextPtr ≠ 0 then
          let s := s.setPredecessor bp insertPtr
          let s := s.setSuccessor insertPtr bp
          let s := s.setSuccessor bp nextPtr
          some (s.setPredecessor nextPtr bp)
        else
          let s := s.setPredecessor bp insertPtr
          let s := s.setSuccessor insertPtr bp
          some (s.setSuccessor bp 0)
      else
        if nextPtr ≠ 0 then
          let s := s.setPredecessor bp 0
          let s := s.setSuccessor bp nextPtr
          let s := s.setPredecessor nextPtr bp
          some (s.setSegEntry listEntryNum bp)
        else
          let s := s.setPredecessor bp 0
          let s := s.setSuccessor bp 0
          some (s.setSegEntry listEntryNum bp)

def deleteNode (s : State) (bp : Nat) : State :=
  let (_, listEntryNum) := selectList (maxSegEntry - 1) (getSize s.mem (hdrp bp))
  if getPredecessor s.mem bp ≠ 0 then
    if getSuccessor s.mem bp ≠ 0 then
      let s := s.setSuccessor (getPredecessor s.mem bp) (getSuccessor s.mem bp)
      s.setPredecessor (getSuccessor s.mem bp) (getPredecessor s.mem bp)
    else
      s.setSuccessor (getPredecessor s.mem bp) 0
  else
    if getSuccessor s.mem bp ≠ 0 then
      let s := s.setSegEntry listEntryNum (getSuccessor s.mem bp)
      s.setPredecessor (getSuccessor s.mem bp) 0
    else
      s.setSegEntry listEntryNum 0

/-- The end of `coalesce`: the merged block, whose links are cleared, goes
into its list. -/
def insertMerged (s : State) (bp size : Nat) : Option (State × Nat) :=
  let s := s.setPredecessor bp 0
  let s := s.setSuccessor bp 0
  (insertNode s bp size).map fun s => (s, bp)

/-- Case 2 of `coalesce`: the next block is free. -/
def mergeNext (s : State) (bp : Nat) : Option (State × Nat) :=
  let size := getSize s.mem (hdrp bp)
  let size := addw size (getSize s.mem (hdrp (nextBlkp s.mem bp)))
  let s := deleteNode s (nextBlkp s.mem bp)
  let s := s.put (hdrp bp) (pack size 0)
  let s := s.put (ftrp s.mem bp) (pack size 0)
  insertMerged s bp size

/-- Case 3 of `coalesce`: the previous block is free. -/
def mergePrev (s : State) (bp : Nat) : Option (State × Nat) :=
  let size := getSize s.mem (hdrp bp)
  let size := addw size (getSize s.mem (hdrp (prevBlkp s.mem bp)))
  let s := deleteNode s (prevBlkp s.mem bp)
  let s := s.put (ftrp s.mem bp) (pack size 0)
  let s := s.put (hdrp (prevBlkp s.mem bp)) (pack size 0)
  let bp := prevBlkp s.mem bp
  insertMerged s bp size

/-- Case 4 of `coalesce`: both neighbours are free. -/
def mergeBoth (s : State) (bp : Nat) : Option (State × Nat) :=
  let size := getSize s.mem (hdrp bp)
  let size := addw size (addw (getSize s.mem (hdrp (prevBlkp s.mem bp)))
    (getSize s.mem (ftrp s.mem (nextBlkp s.mem bp))))
  let s := deleteNode s (prevBlkp s.mem bp)
  let s := deleteNode s (nextBlkp s.mem bp)
  let s := s.put (hdrp (prevBlkp s.mem bp)) (pack size 0)
  let s := s.put (ftrp s.mem (nextBlkp s.mem bp)) (pack size 0)
  let bp := prevBlkp s.mem bp
  insertMerged s bp size

def coalesce (s : State) (bp : Nat) : Option (State × Nat) :=
  let isPrevAlloc := getAlloc s.mem (ftrp s.mem (prevBlkp s.mem bp)) ≠ 0
  let isNextAlloc := getAlloc s.mem (hdrp (nextBlkp s.mem bp)) ≠ 0
  if isPrevAlloc ∧ isNextAlloc then
    let size := getSize s.mem (hdrp bp)
    (insertNode s bp size).map fun s => (s, bp)
  else if isPrevAlloc ∧ ¬isNextAlloc then mergeNext s bp
  else if ¬isPrevAlloc ∧ isNextAlloc then mergePrev s bp
  else mergeBoth s bp

def extendHeap (s : State) (words : Nat) : Option (State × Nat) :=
  let size := extendSize words
  match s.memSbrk (toInt size) with
  | none => some (s, 0)
  | some (s, bp) =>
      let s := s.put (hdrp bp) (pack size 0)
      let s := s.setPredecessor bp 0
      let s := s.setSuccessor bp 0
      let s := s.put (ftrp s.mem bp) (pack size 0)
      let s := s.put (hdrp (nextBlkp s.mem bp)) (pack 0 1)
      coalesce s bp

def place (s : State) (bp asize : Nat) : Option (State × Nat) :=
  let blockSize := getSize s.mem (hdrp bp)
  let remainingSize := subw blockSize asize
  let s := deleteNode s bp
  if remainingSize ≤ 2 * 8 then
    let s := s.put (hdrp bp) (pack blockSize 1)
    let s := s.put (ftrp s.mem bp) (pack blockSize 1)
    some (s, bp)
  else if asize ≥ 96 then
    -- the back of the block is handed out, its front stays free
    let s := s.put (hdrp bp) (pack remainingSize 0)
    let s := s.setPredecessor bp 0
    let s := s.setSuccessor bp 0
    let s := s.put (ftrp s.mem bp) (pack remainingSize 0)
    let s := s.put (hdrp (nextBlkp s.mem bp)) (pack asize 1)
    let s := s.put (ftrp s.mem (nextBlkp s.mem bp)) (pack asize 1)
    match coalesce s bp with
    | none => none
    | some (s, _) => some (s, nextBlkp s.mem bp)
  else
    let s := s.put (hdrp bp) (pack asize 1)
    let s := s.put (ftrp s.mem bp) (pack asize 1)
    let s := s.put (hdrp (nextBlkp s.mem bp)) (pack remainingSize 0)
    let s := s.setPredecessor (nextBlkp s.mem bp) 0
    let s := s.setSuccessor (nextBlkp s.mem bp) 0
    let s := s.put (ftrp s.mem (nextBlkp s.mem bp)) (pack remainingSize 0)
    match coalesce s (nextBlkp s.mem bp) with
    | none => none
    | some (s, _) => some (s, bp)

/-- The first loop of `mm_init`; it runs up to and including `MAXSEGENTRY`. -/
def clearEntries (s : State) : State :=
  (List.range (maxSegEntry + 1)).foldl (fun s i => s.setSegEntry i 0) s

/-- The part of `mm_init` that stores padding, prologue and epilogue at `p`. -/
def putPrologue (s : State) (p : Nat) : State :=
  let s := { s with heapListp := p }
  let s := s.put s.heapListp 0
  let s := s.put (s.heapListp + 1 * 4) (pack 8 1)
  let s := s.put (s.heapListp + 2 * 4) (pack 8 1)
  let s := s.put (s.heapListp + 3 * 4) (pack 0 1)
  { s with heapListp := s.heapListp + 2 * 4 }

def initHeap (s : State) : Option (State × Int) :=
  match s.memSbrk (toInt (4 * 4)) with
  | none => some ({ s with heapListp := sbrkError }, -1)
  | some (s, p) =>
      match extendHeap (putPrologue s p) (2 ^ 5 / 4) with
      | none => none
      | some (s, bp) => some (s, if bp = 0 then -1 else 0)

def mmInit (s : State) : Option (State × Int) :=
  match s.memSbrk (toInt (maxSegEntry * 4)) with
  | none => some ({ s with segFreeListp := sbrkError }, -1)
  | some (s, p) => initHeap (clearEntries { s with segFreeListp := p })

/-- `if (heap_listp == 0) mm_init();` -/
def initIfNeeded (s : State) : Option State :=
  if s.heapListp = 0 then (mmInit s).map Prod.fst else some s

/-- The inner loop of the fit search: along one list. -/
def walkFit (s : State) (asize : Nat) : Nat → Nat → Option Nat
  | 0, _ => none
  | fuel + 1, bp =>
      if bp ≠ 0 ∧ getSize s.mem (hdrp bp) < asize then
        walkFit s asize fuel (getSuccessor s.mem bp)
      else some bp

/-- The outer loop of the fit search, with `k` lists left; `some 0` when no
list has a fit. -/
def searchFit (s : State) (asize : Nat) : Nat → Nat → Option Nat
  | 0, _ => some 0
  | k + 1, searchSize =>
      let listEntryNum := maxSegEntry - (k + 1)
      if (listEntryNum = maxSegEntry - 1 ∨ searchSize ≤ 1) ∧
          s.selectSegEntry listEntryNum ≠ 0 then
        match walkFit s asize walkFuel (s.selectSegEntry listEntryNum) with
        | none => none
        | some bp =>
            if bp ≠ 0 then some bp
            else searchFit s asize k (searchSize >>> 1)
      else searchFit s asize k (searchSize >>> 1)

def mmMalloc (s : State) (size : Nat) : Option (State × Nat) :=
  match initIfNeeded s with
  | none => none
  | some s =>
      if size = 0 then some (s, 0)
      else
        let asize := adjustSize size
        match searchFit s asize maxSegEntry asize with
        | none => none
        | some bp =>
            if bp ≠ 0 then place s bp asize
            else
              let extendsize := max asize chunksize
              match extendHeap s (extendsize / 4) with
              | none => none
              | some (s, bp) =>
                  if bp = 0 then some (s, 0) else place s bp asize

def mmFree (s : State) (bp : Nat) : Option State :=
  if bp = 0 then some s
  else
    match initIfNeeded s with
    | none => none
    | some s =>
        let blockSize := getSize s.mem (hdrp bp)
        let s := s.put (hdrp bp) (pack blockSize 0)
        let s := s.put (ftrp s.mem bp) (pack blockSize 0)
        (coalesce s bp).map Prod.fst

def mmRealloc (s : State) (bp size : Nat) : Option (State × Nat) :=
  if bp = 0 then mmMalloc s size
  else if size = 0 then (mmFree s bp).map fun s => (s, 0)
  else
    let size := adjustSize size
    let oldSize := getSize s.mem (hdrp bp)
    if oldSize ≥ size then some (s, bp)
    else
      let nextAlloc := getAlloc s.mem (hdrp (nextBlkp s.mem bp))
      let nextBlkSize := getSize s.mem (hdrp (nextBlkp s.mem bp))
      if (nextAlloc = 0 ∨ nextBlkSize = 0) ∧ addw oldSize nextBlkSize ≥ size then
        let s := deleteNode s (nextBlkp s.mem bp)
        let s := s.put (hdrp bp) (pack (addw oldSize nextBlkSize) 1)
        let s := s.put (ftrp s.mem bp) (pack (addw oldSize nextBlkSize) 1)
        some (s, bp)
      else
        match mmMalloc s size with
        | none => none
        | some (s, newBlock) =>
            if newBlock = 0 then some (s, 0)
            else
              let s := s.memcpy newBlock bp (min size oldSize)
              (mmFree s bp).map fun s => (s, newBlock)

end CsappLabs.Malloc.Segregated
