import CsappLabs.Foundation.CString
import CsappLabs.Proxy.ReaderWriter
import Mathlib.Data.List.FinRange
import Mathlib.Logic.Function.Basic

/-!
# The web cache of the proxy

`lrucache.c` keeps its entries twice, in a doubly linked list between two
sentinels and in the array `cachemap`.  The model follows its functions line by
line.  Nodes live on a heap of their own: `malloc` hands out addresses that
were never used before, a node that was freed is gone, and reading or writing
through any other pointer stops the program.
-/

namespace CsappLabs.Proxy.Cache

open CsappLabs.Foundation

def maxCacheSize : Nat := 1049000

def maxObjectSize : Nat := 102400

abbrev maxCacheCapacity : Nat := 10

structure Key where
  host : CString
  port : CString
  path : CString
  deriving DecidableEq

def makeTheKey (host port path : CString) : Key := ⟨host, port, path⟩

abbrev Ptr := Nat

abbrev Pos := Fin maxCacheCapacity

/-- `cache_t`.  The default values are those of `InitCacheNode`. -/
structure CacheNode where
  value : Option CString := none
  key : Option Key := none
  prev : Ptr := 0
  next : Ptr := 0
  timestamp : UInt64 := 0
  deriving DecidableEq

/-- The object `obj`, the nodes, the locks, and the readings that
`gettimeofday` will give, in milliseconds. -/
structure State where
  totalCapacity : Nat
  currentCapacity : Nat
  head : Ptr
  tail : Ptr
  cachemap : Pos → Ptr
  nodes : Ptr → Option CacheNode
  brk : Ptr
  locks : Locks
  clock : Nat → UInt64
  ticks : Nat

namespace State

/-! ## Memory and locks -/

def put (s : State) (p : Ptr) (n : CacheNode) : State :=
  { s with nodes := Function.update s.nodes p (some n) }

def setSlot (s : State) (i : Pos) (p : Ptr) : State :=
  { s with cachemap := Function.update s.cachemap i p }

def deref (s : State) (p : Ptr) : Except Stop CacheNode :=
  match s.nodes p with
  | none => .error .fault
  | some n => .ok n

def write (s : State) (p : Ptr) (f : CacheNode → CacheNode) : Except Stop State :=
  match s.nodes p with
  | none => .error .fault
  | some n => .ok (s.put p (f n))

def free (s : State) (p : Ptr) : Except Stop State :=
  match s.nodes p with
  | none => .error .fault
  | some _ => .ok { s with nodes := Function.update s.nodes p none }

def sync (s : State) (op : Locks → Except Stop Locks) : Except Stop State :=
  (op s.locks).map fun l => { s with locks := l }

def now (s : State) : UInt64 := s.clock s.ticks

def tick (s : State) : State := { s with ticks := s.ticks + 1 }

def initCacheNode (s : State) : Ptr × State :=
  (s.brk, { s.put s.brk {} with brk := s.brk + 1 })

def next (s : State) (p : Ptr) : Ptr := ((s.nodes p).getD {}).next

def prev (s : State) (p : Ptr) : Ptr := ((s.nodes p).getD {}).prev

end State

/-! ## The list and the array -/

def lRUCacheCreate (locks : Locks) (clock : Nat → UInt64) : State :=
  let s : State :=
    { totalCapacity := maxCacheCapacity, currentCapacity := 0, head := 0, tail := 0,
      cachemap := fun _ => 0, nodes := fun _ => none, brk := 1, locks := locks,
      clock := clock, ticks := 0 }
  let (head, s) := s.initCacheNode
  let (tail, s) := s.initCacheNode
  let s := s.put head { next := tail }
  let s := s.put tail { prev := head }
  { s with head := head, tail := tail }

def moveToHead (s : State) (p : Ptr) : Except Stop State := do
  let node ← s.deref p
  let s ← s.write node.prev fun n => { n with next := node.next }
  let node ← s.deref p
  let s ← s.write node.next fun n => { n with prev := node.prev }
  let head ← s.deref s.head
  let s ← s.write p fun n => { n with next := head.next }
  let s ← s.write p fun n => { n with prev := s.head }
  let head ← s.deref s.head
  let s ← s.write head.next fun n => { n with prev := p }
  s.write s.head fun n => { n with next := p }

def createAfterHead (s : State) (p : Ptr) : Except Stop State := do
  let head ← s.deref s.head
  let s ← s.write p fun n => { n with next := head.next }
  let s ← s.write p fun n => { n with prev := s.head }
  let head ← s.deref s.head
  let s ← s.write head.next fun n => { n with prev := p }
  s.write s.head fun n => { n with next := p }

def findPos (s : State) (key : Key) : List Pos → Except Stop (Option Pos)
  | [] => .ok none
  | i :: is =>
      if s.cachemap i = 0 then findPos s key is
      else do
        let node ← s.deref (s.cachemap i)
        match node.key with
        | none => findPos s key is
        | some k =>
            if node.timestamp = 0 then findPos s key is
            else if key.host = k.host ∧ key.path = k.path ∧ key.port = k.port then
              .ok (some i)
            else findPos s key is

def lookup (s : State) (key : Key) : Except Stop (Option Pos) :=
  findPos s key (List.finRange maxCacheCapacity)

/-- The test outside the locks, before the timestamp is updated. -/
def recheck (s : State) (i : Pos) : Except Stop Bool :=
  if s.cachemap i = 0 then .ok false
  else (s.deref (s.cachemap i)).map fun node => node.timestamp ≠ 0

def stamp (s : State) (i : Pos) : Except Stop State :=
  s.tick.write (s.cachemap i) fun n => { n with timestamp := s.now }

/-- `none` stands for `-1`. -/
def getCachePos (ops : LockOps) (s : State) (key : Option Key) :
    Except Stop (Option Pos × State) :=
  match key with
  | none => .ok (none, s)
  | some k => do
      let s ← s.sync ops.lockReader
      let pos ← lookup s k
      let s ← s.sync ops.unlockReader
      match pos with
      | none => .ok (none, s)
      | some i =>
          if ← recheck s i then
            let s ← s.sync ops.lockWriter
            let s ← stamp s i
            let s ← s.sync ops.unlockWriter
            .ok (some i, s)
          else .ok (some i, s)

/-- The index `-1` is a store outside the array, and `free(node->key->host)`
reads through the key. -/
def deleteFromTail (ops : LockOps) (s : State) : Except Stop State := do
  let tail ← s.deref s.tail
  let p := tail.prev
  let node ← s.deref p
  let (pos, s) ← getCachePos ops s node.key
  let s ← s.write p fun n => { n with timestamp := -1 }
  let node ← s.deref p
  let s ← s.write node.prev fun n => { n with next := s.tail }
  let s ← s.write s.tail fun n => { n with prev := node.prev }
  match pos with
  | none => .error .fault
  | some i => (s.setSlot i 0).free p

/-- The loop stops at a free slot.  When all are taken it reads on behind the
array, up to index `MAX_OBJECT_SIZE`, and the result is `none`. -/
def getFreeCachePos (s : State) : Option Pos :=
  (List.finRange maxCacheCapacity).find? fun i => s.cachemap i = 0

/-! ## `lRUCacheGet` and `lRUCachePut` -/

/-- The slot is read under the reader lock. -/
def fetch (ops : LockOps) (s : State) (i : Pos) : Except Stop (Ptr × State) := do
  let s ← s.sync ops.lockReader
  let p := s.cachemap i
  let s ← s.sync ops.unlockReader
  .ok (p, s)

def lRUCacheGet (ops : LockOps) (s : State) (key : Option Key) :
    Except Stop (Option CString × State) := do
  let (pos, s) ← getCachePos ops s key
  match pos with
  | none => .ok (none, s)
  | some i =>
      let (p, s) ← fetch ops s i
      let s ← s.sync ops.lockWriter
      let s ← moveToHead s p
      let s ← s.sync ops.unlockWriter
      let node ← s.deref p
      .ok (node.value, s)

/-- The value is stored only where the node has none. -/
def refresh (s : State) (p : Ptr) (value : CString) : Except Stop State := do
  let node ← s.deref p
  let s ←
    if node.value = none then s.write p fun n => { n with value := some value } else .ok s
  moveToHead s p

def createNode (s : State) (key : Key) (value : CString) : Except Stop (Ptr × State) := do
  let (p, s) := s.initCacheNode
  let s ← s.write p fun n => { n with key := some key }
  let s ← s.tick.write p fun n => { n with timestamp := s.now }
  let s ← s.write p fun n => { n with value := some value }
  .ok (p, s)

/-- The node is in the list; it has no slot yet. -/
def insertNode (ops : LockOps) (s : State) (key : Key) (value : CString) :
    Except Stop (Ptr × State) := do
  let (p, s) ← createNode s key value
  let s ←
    if s.currentCapacity ≥ s.totalCapacity then deleteFromTail ops s
    else .ok { s with currentCapacity := s.currentCapacity + 1 }
  let s ← createAfterHead s p
  .ok (p, s)

/-- The section in which `lRUCachePut` stores a key that it did not find. -/
def insertEntry (ops : LockOps) (s : State) (key : Key) (value : CString) :
    Except Stop State := do
  let (p, s) ← insertNode ops s key value
  match getFreeCachePos s with
  | none => .error .fault
  | some i => .ok (s.setSlot i p)

def Storable (value : CString) : Prop := value.strlen + 1 ≤ maxObjectSize

instance (value : CString) : Decidable (Storable value) :=
  inferInstanceAs (Decidable (_ ≤ _))

def lRUCachePut (ops : LockOps) (s : State) (key : Key) (value : Option CString) :
    Except Stop State :=
  match value with
  | none => .ok s
  | some v =>
      if v.strlen + 1 > maxObjectSize then .ok s
      else do
        let (pos, s) ← getCachePos ops s (some key)
        match pos with
        | some i =>
            let (p, s) ← fetch ops s i
            let s ← s.sync ops.lockWriter
            let s ← refresh s p v
            s.sync ops.unlockWriter
        | none =>
            let s ← s.sync ops.lockWriter
            let s ← insertEntry ops s key v
            s.sync ops.unlockWriter

/-! ## Calls -/

def initLRUCache (clock : Nat → UInt64) : State := lRUCacheCreate initWrLocks clock

def insertCache (ops : LockOps) (s : State) (host port path : CString)
    (value : Option CString) : Except Stop State :=
  lRUCachePut ops s (makeTheKey host port path) value

def readCache (ops : LockOps) (s : State) (key : Key) : Except Stop (Option CString × State) :=
  lRUCacheGet ops s (some key)

inductive Call where
  | insert (key : Key) (value : Option CString)
  | read (key : Key)
  deriving DecidableEq

def call (ops : LockOps) (s : State) : Call → Except Stop State
  | .insert key value => insertCache ops s key.host key.port key.path value
  | .read key => (readCache ops s key).map Prod.snd

def calls (ops : LockOps) (s : State) : List Call → Except Stop State
  | [] => .ok s
  | c :: cs => do
      let s ← call ops s c
      calls ops s cs

end CsappLabs.Proxy.Cache
