import CsappLabs.Proxy.ReaderWriter
import Mathlib.Algebra.Group.Int.Defs
import Mathlib.Logic.Function.Basic

/-!
# The connection queue and the thread pool

`sbuf.c`: the main thread inserts the descriptors it accepts into a ring buffer,
worker threads remove them, and `adjust_thread` doubles or halves the number of
workers.  A step is one operation on a semaphore or one access under the mutex.
`pthread_cancel` only leaves a request, on which a worker acts at a cancellation
point while its cancel state is enabled.
-/

namespace CsappLabs.Proxy.ThreadPool

def nthreads : Nat := 4

def sbufsize : Nat := 16

def threadLimit : Nat := 4096

/-- `sbuf_t`, with the memory around `buf` as a function of the index.  The
lists are those of all items inserted and of all removals, by worker. -/
structure Sbuf where
  buf : Int → Int
  front : Int
  rear : Int
  mutex : Nat
  slots : Nat
  items : Nat
  inserted : List Int
  removed : List (Nat × Int)

def sbufInit : Sbuf := ⟨fun _ => 0, 0, 0, 1, sbufsize, 0, [], []⟩

/-- `++` of an `int`, which wraps at the largest value. -/
def incr (i : Int) : Int := if i = 2 ^ 31 - 1 then -2 ^ 31 else i + 1

/-- `i % n`; the remainder has the sign of `i`. -/
def index (i : Int) : Int := i.tmod sbufsize

/-! ## The main thread -/

/-- In `init_thread`, then starting `adjust_thread`, then before `Accept`, then
in `sbuf_insert`: `P(&slots)`, `P(&mutex)`, the store, `V(&mutex)`, `V(&items)`. -/
inductive MainPc where
  | spawn (i : Nat)
  | startAdjuster
  | accept
  | waitSlot (fd : Int)
  | waitMutex (fd : Int)
  | store (fd : Int)
  | unlock
  | announce
  deriving DecidableEq

def sbufInsert (b : Sbuf) : MainPc → Option (Sbuf × MainPc)
  | .waitSlot fd => (P b.slots).toOption.map fun slots => ({ b with slots := slots }, .waitMutex fd)
  | .waitMutex fd => (P b.mutex).toOption.map fun mutex => ({ b with mutex := mutex }, .store fd)
  | .store fd =>
      let rear := incr b.rear
      some ({ b with
        rear := rear
        buf := Function.update b.buf (index rear) fd
        inserted := b.inserted ++ [fd] }, .unlock)
  | .unlock => some ({ b with mutex := V b.mutex }, .announce)
  | .announce => some ({ b with items := V b.items }, .accept)
  | _ => none

/-! ## The workers -/

/-- In `sbuf_remove`: `P(&items)`, the change of the cancel state, `P(&mutex)`,
the load, `V(&mutex)`, `V(&slots)`; then `process_request`, `Close`, and the
change of the cancel state.  `gone` is a worker that was cancelled. -/
inductive WorkerPc where
  | waitItem
  | disable
  | waitMutex
  | take
  | unlock (connfd : Int)
  | announce (connfd : Int)
  | process (connfd : Int)
  | close (connfd : Int)
  | enable
  | gone
  deriving DecidableEq

/-- A thread starts with its cancel state enabled. -/
structure Worker where
  pc : WorkerPc := .waitItem
  cancelEnabled : Bool := true
  cancelPending : Bool := false
  deriving DecidableEq

def workerThread (b : Sbuf) (i : Nat) (w : Worker) : Option (Sbuf × Worker) :=
  match w.pc with
  | .waitItem =>
      (P b.items).toOption.map fun items => ({ b with items := items }, { w with pc := .disable })
  | .disable => some (b, { w with cancelEnabled := false, pc := .waitMutex })
  | .waitMutex =>
      (P b.mutex).toOption.map fun mutex => ({ b with mutex := mutex }, { w with pc := .take })
  | .take =>
      let front := incr b.front
      let item := b.buf (index front)
      some ({ b with front := front, removed := b.removed ++ [(i, item)] },
        { w with pc := .unlock item })
  | .unlock connfd => some ({ b with mutex := V b.mutex }, { w with pc := .announce connfd })
  | .announce connfd => some ({ b with slots := V b.slots }, { w with pc := .process connfd })
  | .process connfd => some (b, { w with pc := .close connfd })
  | .close _ => some (b, { w with pc := .enable })
  | .enable => some (b, { w with cancelEnabled := true, pc := .waitItem })
  | .gone => none

/-- `sem_wait`, the calls of `process_request` and `close` are cancellation
points. -/
def WorkerPc.isCancellationPoint : WorkerPc → Bool
  | .waitItem | .waitMutex | .process _ | .close _ => true
  | _ => false

def Worker.cancellable (w : Worker) : Bool :=
  w.cancelPending && w.cancelEnabled && w.pc.isCancellationPoint

/-! ## The pool -/

/-- In `adjust_thread`: the three operations of `is_sbuf_full`, the creation of
thread `i` of `n`, those of `is_sbuf_empty`, the cancellation of thread `i` when
`n` are to be kept. -/
inductive AdjusterPc where
  | notStarted
  | waitFull
  | readFull
  | unlockFull (full : Bool)
  | spawn (i n : Nat)
  | waitEmpty
  | readEmpty
  | unlockEmpty (empty : Bool)
  | cancel (i n : Nat)
  deriving DecidableEq

/-- `workers` are all threads that were created; `threadPoolIds` gives their
positions in that list. -/
structure Pool where
  sbuf : Sbuf
  currentNthreads : Nat
  threadPoolIds : Nat → Nat
  workers : List Worker
  main : MainPc
  adjuster : AdjusterPc

namespace Pool

def start : Pool := ⟨sbufInit, nthreads, fun _ => 0, [], .spawn 0, .notStarted⟩

/-- `Pthread_create(&thread_pool_ids[i], ...)` -/
def create (s : Pool) (i : Nat) : Pool :=
  { s with
    threadPoolIds := Function.update s.threadPoolIds i s.workers.length
    workers := s.workers ++ [{}] }

/-- `Pthread_cancel(thread_pool_ids[i])` -/
def requestCancel (s : Pool) (i : Nat) : Pool :=
  match s.workers[s.threadPoolIds i]? with
  | none => s
  | some w => { s with workers := s.workers.set (s.threadPoolIds i) { w with cancelPending := true } }

def runMain (s : Pool) : Option Pool :=
  match s.main with
  | .spawn i =>
      if i < nthreads then some { s.create i with main := .spawn (i + 1) }
      else some { s with main := .startAdjuster }
  | .startAdjuster => some { s with main := .accept, adjuster := .waitFull }
  | pc => (sbufInsert s.sbuf pc).map fun r => { s with sbuf := r.1, main := r.2 }

def adjustThread (s : Pool) : Option Pool :=
  let lock (pc : AdjusterPc) : Option Pool := (P s.sbuf.mutex).toOption.map fun mutex =>
    { s with sbuf := { s.sbuf with mutex := mutex }, adjuster := pc }
  let unlock (pc : AdjusterPc) : Option Pool :=
    some { s with sbuf := { s.sbuf with mutex := V s.sbuf.mutex }, adjuster := pc }
  match s.adjuster with
  | .notStarted => none
  | .waitFull => lock .readFull
  | .readFull => some { s with adjuster := .unlockFull (s.sbuf.slots = 0) }
  | .unlockFull full =>
      unlock <|
        if full then
          if s.currentNthreads = threadLimit then .waitFull
          else .spawn s.currentNthreads (2 * s.currentNthreads)
        else .waitEmpty
  | .spawn i n =>
      if i < n then some { s.create i with adjuster := .spawn (i + 1) n }
      else some { s with currentNthreads := n, adjuster := .waitFull }
  | .waitEmpty => lock .readEmpty
  | .readEmpty => some { s with adjuster := .unlockEmpty (s.sbuf.items = 0) }
  | .unlockEmpty empty =>
      unlock <|
        if empty then
          if s.currentNthreads = nthreads then .waitFull
          else .cancel (s.currentNthreads / 2) (s.currentNthreads / 2)
        else .waitFull
  | .cancel i n =>
      if i < s.currentNthreads then some { s.requestCancel i with adjuster := .cancel (i + 1) n }
      else some { s with currentNthreads := n, adjuster := .waitFull }

def runWorker (s : Pool) (i : Nat) (w : Worker) : Option Pool :=
  (workerThread s.sbuf i w).map fun r => { s with sbuf := r.1, workers := s.workers.set i r.2 }

def actOnCancel (s : Pool) (i : Nat) (w : Worker) : Option Pool :=
  if w.cancellable then some { s with workers := s.workers.set i { w with pc := .gone } } else none

end Pool

inductive Act where
  | accept (fd : Int)
  | main
  | adjust
  | work (i : Nat)
  | actOnCancel (i : Nat)
  deriving DecidableEq

def step (s : Pool) : Act → Option Pool
  | .accept fd => if s.main = .accept then some { s with main := .waitSlot fd } else none
  | .main => s.runMain
  | .adjust => s.adjustThread
  | .work i => s.workers[i]?.bind (s.runWorker i)
  | .actOnCancel i => s.workers[i]?.bind (s.actOnCancel i)

end CsappLabs.Proxy.ThreadPool
