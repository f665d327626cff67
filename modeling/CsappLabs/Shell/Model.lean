import CsappLabs.Foundation.Transition
import CsappLabs.Shell.Jobs
import Mathlib.Algebra.Group.Int.Defs
import Mathlib.Data.Finset.Basic
import Mathlib.Data.Fintype.Basic

/-!
# The shell and its children

The main flow of `tsh.c` reads a command line, evaluates it and waits for the
foreground job; `sigchld_handler` interrupts it wherever `SIGCHLD` is pending
and not blocked.  A statement that touches `jobs`, `flag` or the signal mask is
one step, and so is one turn of the handler's loop.  The children end, stop and
continue at any time; ctrl-c and ctrl-z only forward a signal to one of them.
-/

namespace CsappLabs.Shell

open CsappLabs.Foundation

abbrev Signal := Fin 65

abbrev Sigset := Finset Signal

def sigchld : Signal := 17

inductive Ended where
  | exited
  | signaled
  deriving DecidableEq

/-- A process as the kernel sees it: a stop is reported by `waitpid` once, an
end until the zombie is reaped. -/
inductive Proc where
  | running
  | stopped (reported : Bool)
  | zombie (how : Ended)
  deriving DecidableEq

def Proc.isStopped : Proc → Bool
  | .stopped _ => true
  | _ => false

structure Child where
  pid : Int
  proc : Proc
  deriving DecidableEq

/-- Whether `waitpid` with `WNOHANG | WUNTRACED` returns the child. -/
def Child.reportable (c : Child) : Bool :=
  match c.proc with
  | .running => false
  | .stopped reported => !reported
  | .zombie _ => true

/-- A command line and what `parseline` makes of it. -/
structure Line where
  cmdline : CString
  argv : List CString
  bg : Bool

/-- Where the main flow stands: in `main` before the next line is read; in
`eval` before it blocks `SIGCHLD`, forks, clears `flag`, calls `addjob`,
unblocks; in `do_bgfg` before it sends `SIGCONT`, sets the state, clears
`flag`; in `waitfg` before the lookup, before the test of `flag`, and in
`sigsuspend` with the mask that it will restore.  The shell is gone after
`exit`, and after the error of the handler. -/
inductive At where
  | prompt
  | block (line : Line)
  | fork (line : Line)
  | clear (line : Line) (pid : Int)
  | add (line : Line) (pid : Int)
  | unblock (line : Line) (pid : Int)
  | cont (bg : Bool) (job : Fin maxJobs) (curPid : Int)
  | background (job : Fin maxJobs)
  | clearFg (job : Fin maxJobs) (curPid : Int)
  | foreground (job : Fin maxJobs) (curPid : Int)
  | waitfg (pid : Int)
  | loop
  | suspended (mask : Sigset)
  | exited
  | failed

def At.over : At → Bool
  | .exited => true
  | .failed => true
  | _ => false

structure Tsh where
  table : Table
  flag : Bool
  blocked : Sigset
  children : List Child
  pending : Bool
  /-- The mask that returning from the handler restores, while it runs. -/
  handler : Option Sigset
  pc : At

/-- The shell starts with the mask of the process that started it. -/
def init (blocked : Sigset) : Tsh where
  table := ⟨initjobs, 1⟩
  flag := false
  blocked := blocked
  children := []
  pending := false
  handler := none
  pc := .prompt

/-! ## Commands -/

def quitName : CString := ⟨[113, 117, 105, 116], by decide⟩
def exitName : CString := ⟨[101, 120, 105, 116], by decide⟩
def ampersand : CString := ⟨[38], by decide⟩
def fgName : CString := ⟨[102, 103], by decide⟩
def bgName : CString := ⟨[98, 103], by decide⟩
def jobsName : CString := ⟨[106, 111, 98, 115], by decide⟩

inductive BgfgError where
  | argumentRequired
  | noSuchJob
  | notJidOrPid

/-- The first part of `do_bgfg`: the job that is found, and `cur_pid`.  The
branch for a pid declares a `cur_pid` of its own, and the outer one stays -1. -/
def bgfgJob (jobs : Jobs) (argv : List CString) : Except BgfgError (Fin maxJobs × Int) :=
  match argv[1]? with
  | none => .error .argumentRequired
  | some command =>
      match command.bytes with
      | 37 :: rest =>
          match getjobjid jobs (atoi rest) with
          | none => .error .noSuchJob
          | some i => .ok (i, (jobs i).pid)
      | c :: _ =>
          if isdigit c then
            match getjobpid jobs (atoi command.bytes) with
            | none => .error .noSuchJob
            | some i => .ok (i, -1)
          else .error .notJidOrPid
      | [] => .error .notJidOrPid

namespace Tsh

/-- `eval` up to the first statement that the handler could see.  The builtins
`&` and `jobs`, a blank line and the errors of `do_bgfg` return at once. -/
def read (s : Tsh) (line : Line) : Tsh :=
  match line.argv with
  | [] => s
  | name :: _ =>
      if name = quitName ∨ name = exitName then { s with pc := .exited }
      else if name = ampersand then s
      else if name = fgName ∨ name = bgName then
        match bgfgJob s.table.jobs line.argv with
        | .error _ => s
        | .ok (i, curPid) => { s with pc := .cont (name = bgName) i curPid }
      else if name = jobsName then s
      else { s with pc := .block line }

/-- `kill(-cur_pid, SIGCONT)` continues the process group of a child; for -1 it
is the process 1 that gets the signal. -/
def continueGroup (s : Tsh) (pid : Int) : Tsh :=
  { s with
    children := s.children.map fun c =>
      if c.pid = pid ∧ c.proc.isStopped then { c with proc := .running } else c
    pending := s.pending || s.children.any fun c => c.pid = pid ∧ c.proc.isStopped }

/-- The next statement of the main flow, where it needs nothing from outside. -/
def advance (s : Tsh) : At → Option Tsh
  | .block line => some { s with blocked := insert sigchld s.blocked, pc := .fork line }
  | .clear line pid => some { s with flag := false, pc := .add line pid }
  | .add line pid =>
      some { s with
        table := (addjob s.table pid (if line.bg then .bg else .fg) line.cmdline).2
        pc := .unblock line pid }
  | .unblock line pid =>
      -- `prev_all` is empty
      some { s with blocked := s.blocked \ ∅, pc := if line.bg then .prompt else .waitfg pid }
  | .cont bg i curPid =>
      some { s.continueGroup curPid with pc := if bg then .background i else .clearFg i curPid }
  | .background i =>
      some { s with
        table := { s.table with jobs := setState s.table.jobs i .bg }
        pc := .prompt }
  | .clearFg i curPid => some { s with flag := false, pc := .foreground i curPid }
  | .foreground i curPid =>
      some { s with
        table := { s.table with jobs := setState s.table.jobs i .fg }
        pc := .waitfg curPid }
  | .waitfg pid =>
      if pid = 0 then some { s with pc := .prompt }
      else
        match getjobpid s.table.jobs pid with
        | none => some { s with pc := .prompt }
        | some _ => some { s with pc := .loop }
  | .loop =>
      if s.flag then some { s with pc := .prompt }
      else some { s with blocked := ∅, pc := .suspended s.blocked }
  | _ => none

/-- One turn of the loop of `sigchld_handler`, for the child that `waitpid`
returns. -/
def handle (s : Tsh) (c : Child) : Tsh :=
  let s := if c.pid = fgpid s.table.jobs then { s with flag := true } else s
  match getjobpid s.table.jobs c.pid with
  | none => { s with pc := .failed }
  | some i =>
      match c.proc with
      | .zombie _ => { s with table := (deletejob s.table c.pid).2 }
      | .stopped _ =>
          { s with
            table := { s.table with jobs := setState s.table.jobs i .st }
            blocked := Finset.univ }
      | .running => s

/-- What `waitpid` does to the children when it returns one. -/
def collect (s : Tsh) (c : Child) : Tsh :=
  match c.proc with
  | .zombie _ => { s with children := s.children.filter fun d => d.pid ≠ c.pid }
  | _ =>
      { s with children := s.children.map fun d =>
          if d.pid = c.pid then { d with proc := .stopped true } else d }

end Tsh

inductive ChildEvent where
  | ends (how : Ended)
  | stops
  | continues
  deriving DecidableEq

def Proc.next : Proc → ChildEvent → Option Proc
  | .zombie _, _ => none
  | _, .ends how => some (.zombie how)
  | .running, .stops => some (.stopped false)
  | .stopped _, .stops => none
  | .stopped _, .continues => some .running
  | .running, .continues => none

inductive Event where
  | read (line : Line)
  | advance
  | forked (pid : Int)
  | wake
  | deliver
  | reap (pid : Int)
  | handlerReturn
  | child (pid : Int) (event : ChildEvent)

namespace Tsh

/-- Events of the main flow happen only while no handler runs, and none once
the shell is gone. -/
def step (s : Tsh) (e : Event) : Option Tsh :=
  if s.pc.over then none
  else
    match e, s.handler with
    | .read line, none =>
        match s.pc with
        | .prompt => some (s.read line)
        | _ => none
    | .advance, none => s.advance s.pc
    | .forked pid, none =>
        match s.pc with
        | .fork line =>
            if 1 ≤ pid ∧ pid ∉ s.children.map Child.pid then
              some { s with
                children := ⟨pid, .running⟩ :: s.children
                pc := if line.bg then .add line pid else .clear line pid }
            else none
        | _ => none
    | .wake, none =>
        match s.pc with
        | .suspended mask => some { s with blocked := mask, pc := .loop }
        | _ => none
    | .deliver, none =>
        if s.pending ∧ sigchld ∉ s.blocked then
          some { s with
            handler := some s.blocked
            blocked := insert sigchld s.blocked
            pending := false }
        else none
    | .reap pid, some _ =>
        match s.children.find? fun c => c.pid = pid ∧ c.reportable with
        | some c => some ((s.collect c).handle c)
        | none => none
    | .handlerReturn, some saved =>
        if s.children.any Child.reportable then none
        else some { s with handler := none, blocked := saved }
    | .child pid event, _ =>
        match s.children.find? fun c => c.pid = pid with
        | none => none
        | some c =>
            match c.proc.next event with
            | none => none
            | some proc =>
                some { s with
                  children :=
                    s.children.map fun d => if d.pid = pid then { d with proc := proc } else d
                  pending := true }
    | _, _ => none

end Tsh

end CsappLabs.Shell
