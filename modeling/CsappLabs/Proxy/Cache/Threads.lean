import CsappLabs.Foundation.Transition
import CsappLabs.Proxy.Cache.Lru

/-!
# The cache shared by worker threads

Any number of threads call `read_cache` and `insert_cache`.  A section that a
lock protects is one step, and so is each read outside the locks; the lookup in
`DeleteFromTail` belongs to the section around it.  A thread that uses a null
or freed pointer, or stores outside the array, ends the run.
-/

namespace CsappLabs.Proxy.Cache

open CsappLabs.Foundation

inductive Task where
  | get (key : Key)
  | put (key : Key) (value : CString)
  deriving DecidableEq

def Task.key : Task → Key
  | .get key => key
  | .put key _ => key

/-- Where a thread stands: before the search loop, before the test outside the
locks, before the update of the timestamp, before it reads the slot, before it
moves the node, before it returns the value, before it inserts a node. -/
inductive Stage where
  | idle
  | search (task : Task)
  | recheck (task : Task) (i : Pos)
  | stamp (task : Task) (i : Pos)
  | fetch (task : Task) (i : Pos)
  | move (task : Task) (p : Ptr)
  | reply (key : Key) (p : Ptr)
  | store (key : Key) (value : CString)
  deriving DecidableEq

structure Shared (n : Nat) where
  cache : State
  threads : Fin n → Stage
  passed : List (Key × CString)
  answers : List (Key × Option CString)
  crashed : Option Task

inductive Act (n : Nat) where
  | invoke (t : Fin n) (c : Call)
  | advance (t : Fin n)
  deriving DecidableEq

namespace Shared

variable {n : Nat}

def start (n : Nat) (clock : Nat → UInt64) : Shared n :=
  ⟨initLRUCache clock, fun _ => .idle, [], [], none⟩

def goto (s : Shared n) (t : Fin n) (stage : Stage) : Shared n :=
  { s with threads := Function.update s.threads t stage }

def crash (s : Shared n) (task : Task) : Shared n := { s with crashed := some task }

def answer (s : Shared n) (t : Fin n) (key : Key) (value : Option CString) : Shared n :=
  { s.goto t .idle with answers := (key, value) :: s.answers }

def invoke (s : Shared n) (t : Fin n) : Call → Shared n
  | .read key => s.goto t (.search (.get key))
  | .insert _ none => s
  | .insert key (some v) =>
      let s := { s with passed := (key, v) :: s.passed }
      if v.strlen + 1 > maxObjectSize then s else s.goto t (.search (.put key v))

def advance (s : Shared n) (t : Fin n) : Stage → Option (Shared n)
  | .idle => none
  | .search task =>
      match lookup s.cache task.key with
      | .error _ => some (s.crash task)
      | .ok (some i) => some (s.goto t (.recheck task i))
      | .ok none =>
          match task with
          | .get key => some (s.answer t key none)
          | .put key v => some (s.goto t (.store key v))
  | .recheck task i =>
      match recheck s.cache i with
      | .error _ => some (s.crash task)
      | .ok true => some (s.goto t (.stamp task i))
      | .ok false => some (s.goto t (.fetch task i))
  | .stamp task i =>
      match stamp s.cache i with
      | .error _ => some (s.crash task)
      | .ok cache => some { s.goto t (.fetch task i) with cache := cache }
  | .fetch task i => some (s.goto t (.move task (s.cache.cachemap i)))
  | .move (.get key) p =>
      match moveToHead s.cache p with
      | .error _ => some (s.crash (.get key))
      | .ok cache => some { s.goto t (.reply key p) with cache := cache }
  | .move (.put key v) p =>
      match refresh s.cache p v with
      | .error _ => some (s.crash (.put key v))
      | .ok cache => some { s.goto t .idle with cache := cache }
  | .reply key p =>
      match s.cache.deref p with
      | .error _ => some (s.crash (.get key))
      | .ok node => some (s.answer t key node.value)
  | .store key v =>
      match insertEntry noLocks s.cache key v with
      | .error _ => some (s.crash (.put key v))
      | .ok cache => some { s.goto t .idle with cache := cache }

/-- A thread that is idle can be called; nothing happens after a crash. -/
def step (s : Shared n) : Act n → Option (Shared n)
  | .invoke t c => if s.crashed = none ∧ s.threads t = .idle then some (s.invoke t c) else none
  | .advance t => if s.crashed = none then s.advance t (s.threads t) else none

theorem invoke_of_step {s s' : Shared n} {t : Fin n} {c : Call}
    (h : s.step (.invoke t c) = some s') : s.invoke t c = s' := by
  obtain ⟨-, heq⟩ : _ ∧ s.invoke t c = s' := by simpa [step] using h
  exact heq

theorem advance_of_step {s s' : Shared n} {t : Fin n} (h : s.step (.advance t) = some s') :
    s.advance t (s.threads t) = some s' := by
  obtain ⟨-, heq⟩ : _ ∧ s.advance t (s.threads t) = some s' := by simpa [step] using h
  exact heq

theorem run_of_replay {β : Type*} (n : Nat) (clock : Nat → UInt64)
    (ok : Shared n → Act n → Prop) [∀ s a, Decidable (ok s a)] (as : List (Act n))
    (f : Shared n → β) (v : β)
    (h : (replay step ok (start n clock) as).map f = some v) :
    ∃ s, Run step ok (start n clock) s ∧ f s = v := by
  obtain ⟨s, hs, hv⟩ := Option.map_eq_some_iff.mp h
  exact ⟨s, Run.start.of_replay hs, hv⟩

end Shared

def storePage {n : Nat} (t : Fin n) (k : Key) (v : CString) : List (Act n) :=
  [.invoke t (.insert k (some v)), .advance t, .advance t]

end CsappLabs.Proxy.Cache
