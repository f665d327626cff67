import CsappLabs.Malloc.Memlib

/-!
# The implicit-list allocator (`mm_implicit_list.c`)

The allocator walks over all blocks.  With `NEXT_FIT` the search starts at the
cursor `rover`, which it leaves where it stops.  The walks may fail to end;
`none` stands for a call that does not return.
-/

namespace CsappLabs.Malloc.Implicit

open CsappLabs.Foundation

structure State extends Memlib where
  heapListp : Nat
  rover : Nat

namespace State

def put (s : State) (p val : Nat) : State :=
  { s with toMemlib := s.toMemlib.put p val }

def memcpy (s : State) (dst src n : Nat) : State :=
  { s with toMemlib := s.toMemlib.memcpy dst src n }

def memSbrk (s : State) (incr : Int) : Option (State × Nat) :=
  (s.toMemlib.memSbrk incr).map fun r => ({ s with toMemlib := r.1 }, r.2)

end State

def mergeNext (s : State) (bp : Nat) : State :=
  let size := getSize s.mem (hdrp bp)
  let size := addw size (getSize s.mem (hdrp (nextBlkp s.mem bp)))
  let s := s.put (hdrp bp) (pack size 0)
  s.put (ftrp s.mem bp) (pack size 0)

def mergePrev (s : State) (bp : Nat) : State :=
  let size := getSize s.mem (hdrp bp)
  let size := addw size (getSize s.mem (hdrp (prevBlkp s.mem bp)))
  let s := s.put (ftrp s.mem bp) (pack size 0)
  s.put (hdrp (prevBlkp s.mem bp)) (pack size 0)

def mergeBoth (s : State) (bp : Nat) : State :=
  let size := getSize s.mem (hdrp bp)
  let size := addw size (addw (getSize s.mem (ftrp s.mem (nextBlkp s.mem bp)))
    (getSize s.mem (hdrp (prevBlkp s.mem bp))))
  let s := s.put (hdrp (prevBlkp s.mem bp)) (pack size 0)
  s.put (ftrp s.mem (nextBlkp s.mem bp)) (pack size 0)

/-- The end of `coalesce`: `rover` must not stay inside the merged block. -/
def settleRover (s : State) (bp : Nat) : State :=
  if s.rover > bp ∧ s.rover < nextBlkp s.mem bp then { s with rover := bp } else s

def coalesce (s : State) (bp : Nat) : State × Nat :=
  let prevAlloc := getAlloc s.mem (ftrp s.mem (prevBlkp s.mem bp)) ≠ 0
  let nextAlloc := getAlloc s.mem (hdrp (nextBlkp s.mem bp)) ≠ 0
  if prevAlloc ∧ nextAlloc then
    (s, bp)
  else if prevAlloc ∧ ¬nextAlloc then
    let s := mergeNext s bp
    (settleRover s bp, bp)
  else if ¬prevAlloc ∧ nextAlloc then
    let s := mergePrev s bp
    let bp := prevBlkp s.mem bp
    (settleRover s bp, bp)
  else
    let s := mergeBoth s bp
    let bp := prevBlkp s.mem bp
    (settleRover s bp, bp)

def extendHeap (s : State) (words : Nat) : State × Nat :=
  let size := extendSize words
  match s.memSbrk (toInt size) with
  | none => (s, 0)
  | some (s, bp) =>
      let s := s.put (hdrp bp) (pack size 0)
      let s := s.put (ftrp s.mem bp) (pack size 0)
      let s := s.put (hdrp (nextBlkp s.mem bp)) (pack 0 1)
      coalesce s bp

def place (s : State) (bp asize : Nat) : State :=
  let blockSize := getSize s.mem (hdrp bp)
  if subw blockSize asize ≥ 2 * 8 then
    let s := s.put (hdrp bp) (pack asize 1)
    let s := s.put (ftrp s.mem bp) (pack asize 1)
    let bp := nextBlkp s.mem bp
    let s := s.put (hdrp bp) (pack (subw blockSize asize) 0)
    s.put (ftrp s.mem bp) (pack (subw blockSize asize) 0)
  else
    let s := s.put (hdrp bp) (pack blockSize 1)
    s.put (ftrp s.mem bp) (pack blockSize 1)

/-- A loop of `find_fit`: from `bp` on, as long as `go` holds.  The pointer it
stops at, and whether that is a fit. -/
def searchFrom (m : Mem) (go : Nat → Prop) [DecidablePred go] (asize : Nat) :
    Nat → Nat → Option (Nat × Bool)
  | 0, _ => none
  | fuel + 1, bp =>
      if go bp then
        if getAlloc m (hdrp bp) = 0 ∧ asize ≤ getSize m (hdrp bp) then some (bp, true)
        else searchFrom m go asize fuel (nextBlkp m bp)
      else some (bp, false)

/-- `find_fit` with `NEXT_FIT`; the result `0` is `NULL`. -/
def findFit (s : State) (asize : Nat) : Option (State × Nat) :=
  let oldrover := s.rover
  match searchFrom s.mem (fun bp => getSize s.mem (hdrp bp) > 0) asize walkFuel s.rover with
  | none => none
  | some (rover, true) => some ({ s with rover := rover }, rover)
  | some (_, false) =>
      match searchFrom s.mem (fun bp => bp < oldrover) asize walkFuel s.heapListp with
      | none => none
      | some (rover, true) => some ({ s with rover := rover }, rover)
      | some (rover, false) => some ({ s with rover := rover }, 0)

def putPrologue (s : State) (p : Nat) : State :=
  let s := { s with heapListp := p }
  let s := s.put s.heapListp 0
  let s := s.put (s.heapListp + 1 * 4) (pack 8 1)
  let s := s.put (s.heapListp + 2 * 4) (pack 8 1)
  let s := s.put (s.heapListp + 3 * 4) (pack 0 1)
  let s := { s with heapListp := s.heapListp + 2 * 4 }
  { s with rover := s.heapListp }

def mmInit (s : State) : State × Int :=
  match s.memSbrk (toInt (4 * 4)) with
  | none => ({ s with heapListp := sbrkError }, -1)
  | some (s, p) =>
      let r := extendHeap (putPrologue s p) (chunksize / 4)
      (r.1, if r.2 = 0 then -1 else 0)

def mmMalloc (s : State) (size : Nat) : Option (State × Nat) :=
  let s := if s.heapListp = 0 then (mmInit s).1 else s
  if size = 0 then some (s, 0)
  else
    let asize := adjustSize size
    match findFit s asize with
    | none => none
    | some (s, bp) =>
        if bp ≠ 0 then some (place s bp asize, bp)
        else
          let extendsize := max asize chunksize
          let (s, bp) := extendHeap s (extendsize / 4)
          if bp = 0 then some (s, 0)
          else some (place s bp asize, bp)

def mmFree (s : State) (bp : Nat) : State :=
  if bp = 0 then s
  else
    let size := getSize s.mem (hdrp bp)
    let s := if s.heapListp = 0 then (mmInit s).1 else s
    let s := s.put (hdrp bp) (pack size 0)
    let s := s.put (ftrp s.mem bp) (pack size 0)
    (coalesce s bp).1

def mmRealloc (s : State) (ptr size : Nat) : Option (State × Nat) :=
  if size = 0 then some (mmFree s ptr, 0)
  else if ptr = 0 then mmMalloc s size
  else
    match mmMalloc s size with
    | none => none
    | some (s, newptr) =>
        if newptr = 0 then some (s, 0)
        else
          let oldsize := getSize s.mem (hdrp ptr)
          let oldsize := if size < oldsize then size else oldsize
          let s := s.memcpy newptr ptr oldsize
          some (mmFree s ptr, newptr)

end CsappLabs.Malloc.Implicit
