import Mathlib.Algebra.GroupWithZero.Nat
import Mathlib.Data.List.TakeDrop
import Mathlib.Order.Basic

/-!
# The cache simulator

`csim.c`: an array of sets with `E` lines each.  `load_in_cache` searches a set
for a tag and replaces the line with the least `time` when it is not found;
`read_trace` splits the addresses of the trace.  The counters are `int`s, and a
trace is read only as far as they do not overflow.
-/

namespace CsappLabs.CacheSim

def uint64Max : Nat := 2 ^ 64 - 1

structure CacheLine where
  tag : BitVec 64
  time : Nat
  valid : Bool
  deriving DecidableEq

structure Counters where
  hit : Nat
  miss : Nat
  evictions : Nat
  deriving DecidableEq

structure Geometry where
  s : Nat
  E : Nat
  b : Nat

def sets (g : Geometry) : Nat := ((1#32 <<< g.s).signExtend 64).toNat

/-- `calloc` makes every line invalid. -/
def cacheInit (sets E : Nat) : List (List CacheLine) :=
  List.replicate sets (List.replicate E ⟨0, 0, false⟩)

/-- The loop that looks for the tag.  A read behind the last line is `none`. -/
def findHit (searchLine : List CacheLine) (tag : BitVec 64) : Nat → Nat → Option (Option Nat)
  | 0, _ => some none
  | n + 1, i => do
      let line ← searchLine[i]?
      if line.tag = tag ∧ line.valid then some (some i) else findHit searchLine tag n (i + 1)

/-- The variables of the loop that looks for the victim. -/
structure Scan where
  oldestTime : Nat
  oldestBlock : Nat
  recentTime : Nat

def scanLine (v : Scan) (i : Nat) (line : CacheLine) : Scan :=
  let v := if line.time < v.oldestTime then ⟨line.time, i, v.recentTime⟩ else v
  if line.time > v.recentTime then { v with recentTime := line.time } else v

def scan (searchLine : List CacheLine) : Nat → Nat → Scan → Option Scan
  | 0, _, v => some v
  | n + 1, i, v => do
      let line ← searchLine[i]?
      scan searchLine n (i + 1) (scanLine v i line)

/-- `load_in_cache`: `E` and `tag` are `int`s, which the comparisons and the
store widen again. -/
def loadInCache (c : Counters) (searchLine : List CacheLine) (E tag : BitVec 32) :
    Option (Counters × List CacheLine) := do
  let lines := (E.signExtend 64).toNat
  let tag := tag.signExtend 64
  match ← findHit searchLine tag lines 0 with
  | some i =>
      let line ← searchLine[i]?
      some ({ c with hit := c.hit + 1 },
        searchLine.set i { line with time := (line.time + 1) % 2 ^ 64 })
  | none =>
      let c := { c with miss := c.miss + 1 }
      let v ← scan searchLine lines 0 ⟨uint64Max, uint64Max, 0⟩
      let line ← searchLine[v.oldestBlock]?
      let searchLine := searchLine.set v.oldestBlock ⟨tag, (v.recentTime + 1) % 2 ^ 64, true⟩
      if line.valid then some ({ c with evictions := c.evictions + 1 }, searchLine)
      else some (c, searchLine)

structure Record where
  flag : Char
  addr : BitVec 64
  deriving DecidableEq

structure Sim where
  cache : List (List CacheLine)
  counters : Counters
  deriving DecidableEq

def setIndex (g : Geometry) (addr : BitVec 64) : Nat :=
  ((addr >>> g.b) &&& ((1#32 <<< g.s) - 1#32).signExtend 64).toNat

def tagBit (g : Geometry) (addr : BitVec 64) : BitVec 64 := (addr >>> g.b) >>> g.s

def load (g : Geometry) (addr : BitVec 64) (c : Counters) (searchLine : List CacheLine) :
    Option (Counters × List CacheLine) :=
  loadInCache c searchLine (BitVec.ofNat 32 g.E) ((tagBit g addr).setWidth 32)

/-- The body of the loop of `read_trace`. -/
def readRecord (g : Geometry) (sim : Sim) (r : Record) : Option Sim :=
  if r.flag = 'I' then some sim
  else do
    let searchLine ← sim.cache[setIndex g r.addr]?
    if r.flag = 'L' ∨ r.flag = 'S' then
      let (c, searchLine) ← load g r.addr sim.counters searchLine
      some ⟨sim.cache.set (setIndex g r.addr) searchLine, c⟩
    else if r.flag = 'M' then
      let (c, searchLine) ← load g r.addr sim.counters searchLine
      let (c, searchLine) ← load g r.addr c searchLine
      some ⟨sim.cache.set (setIndex g r.addr) searchLine, c⟩
    else some sim

def readTrace (g : Geometry) (sim : Sim) : List Record → Option Sim
  | [] => some sim
  | r :: trace => do readTrace g (← readRecord g sim r) trace

/-- `main`, without the text of the trace file. -/
def simulate (g : Geometry) (trace : List Record) : Option Sim :=
  readTrace g ⟨cacheInit (sets g) g.E, ⟨0, 0, 0⟩⟩ trace

end CsappLabs.CacheSim
