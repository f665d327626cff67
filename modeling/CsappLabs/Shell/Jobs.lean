import CsappLabs.Foundation.CString
import Mathlib.Data.List.FinRange
import Mathlib.Logic.Function.Basic

/-!
# The job table of the shell

The helper routines of `tsh.c` for the array `jobs` and the counter `nextjid`.
Each loop takes the first entry that fits; an entry is free when its `pid` is 0.
-/

namespace CsappLabs.Shell

open CsappLabs.Foundation

abbrev maxJobs : Nat := 16

inductive JobState where
  | undef
  | fg
  | bg
  | st
  deriving DecidableEq

structure Job where
  pid : Int
  jid : Int
  state : JobState
  cmdline : CString
  deriving DecidableEq

abbrev Jobs := Fin maxJobs → Job

structure Table where
  jobs : Jobs
  nextjid : Int

def clearjob : Job := ⟨0, 0, .undef, ⟨[], by simp⟩⟩

def initjobs : Jobs := fun _ => clearjob

def findJob (jobs : Jobs) (p : Job → Bool) : Option (Fin maxJobs) :=
  (List.finRange maxJobs).find? fun i => p (jobs i)

def maxjid (jobs : Jobs) : Int :=
  (List.finRange maxJobs).foldl (fun m i => if (jobs i).jid > m then (jobs i).jid else m) 0

/-- The result is 0 when there are too many jobs. -/
def addjob (t : Table) (pid : Int) (state : JobState) (cmdline : CString) : Bool × Table :=
  if pid < 1 then (false, t)
  else
    match findJob t.jobs (·.pid = 0) with
    | some i =>
        let nextjid := t.nextjid + 1
        (true, ⟨Function.update t.jobs i ⟨pid, t.nextjid, state, cmdline⟩,
          if nextjid > maxJobs then 1 else nextjid⟩)
    | none => (false, t)

def deletejob (t : Table) (pid : Int) : Bool × Table :=
  if pid < 1 then (false, t)
  else
    match findJob t.jobs (·.pid = pid) with
    | some i =>
        let jobs := Function.update t.jobs i clearjob
        (true, ⟨jobs, maxjid jobs + 1⟩)
    | none => (false, t)

def fgpid (jobs : Jobs) : Int :=
  match findJob jobs (·.state = .fg) with
  | some i => (jobs i).pid
  | none => 0

def getjobpid (jobs : Jobs) (pid : Int) : Option (Fin maxJobs) :=
  if pid < 1 then none else findJob jobs (·.pid = pid)

def getjobjid (jobs : Jobs) (jid : Int) : Option (Fin maxJobs) :=
  if jid < 1 then none else findJob jobs (·.jid = jid)

/-- The assignment `job->state = state`. -/
def setState (jobs : Jobs) (i : Fin maxJobs) (state : JobState) : Jobs :=
  Function.update jobs i { jobs i with state := state }

variable {jobs : Jobs} {t : Table} {p : Job → Bool} {i j : Fin maxJobs} {pid : Int}
  {state : JobState} {cmdline : CString}

theorem findJob_some (h : findJob jobs p = some i) : p (jobs i) :=
  List.find?_some (p := fun i => p (jobs i)) h

theorem findJob_none : findJob jobs p = none ↔ ∀ i, ¬p (jobs i) := by
  simp [findJob, List.find?_eq_none]

theorem getjobpid_some (h : getjobpid jobs pid = some i) : 1 ≤ pid ∧ (jobs i).pid = pid := by
  rw [getjobpid] at h
  split at h
  · cases h
  · next hlt => exact ⟨Int.not_lt.mp hlt, of_decide_eq_true (findJob_some h)⟩

theorem getjobpid_none (hpid : 1 ≤ pid) : getjobpid jobs pid = none ↔ ∀ i, (jobs i).pid ≠ pid := by
  rw [getjobpid, if_neg (Int.not_lt.mpr hpid), findJob_none]
  simp

theorem getjobjid_some {jid : Int} (h : getjobjid jobs jid = some i) :
    1 ≤ jid ∧ (jobs i).jid = jid := by
  rw [getjobjid] at h
  split at h
  · cases h
  · next hlt => exact ⟨Int.not_lt.mp hlt, of_decide_eq_true (findJob_some h)⟩

theorem fgpid_cases (jobs : Jobs) :
    (fgpid jobs = 0 ∧ ∀ i, (jobs i).state ≠ .fg) ∨
      ∃ i, (jobs i).state = .fg ∧ fgpid jobs = (jobs i).pid := by
  rw [fgpid]
  cases hfind : findJob jobs (·.state = .fg) with
  | none =>
      left
      refine ⟨rfl, fun i hi => findJob_none.mp hfind i ?_⟩
      simpa using hi
  | some i => exact .inr ⟨i, by simpa using findJob_some hfind, rfl⟩

theorem addjob_cases (t : Table) (hpid : 1 ≤ pid) (state : JobState) (cmdline : CString) :
    (∃ i next, (t.jobs i).pid = 0 ∧ addjob t pid state cmdline =
      (true, ⟨Function.update t.jobs i ⟨pid, t.nextjid, state, cmdline⟩, next⟩)) ∨
      (∀ i, (t.jobs i).pid ≠ 0) ∧ addjob t pid state cmdline = (false, t) := by
  rw [addjob, if_neg (Int.not_lt.mpr hpid)]
  cases hfind : findJob t.jobs (·.pid = 0) with
  | some i => exact .inl ⟨i, _, of_decide_eq_true (findJob_some hfind), rfl⟩
  | none =>
      refine .inr ⟨fun i hi => findJob_none.mp hfind i ?_, rfl⟩
      simpa using hi

theorem deletejob_cases (t : Table) (hpid : 1 ≤ pid) :
    (∃ i next, (t.jobs i).pid = pid ∧
      deletejob t pid = (true, ⟨Function.update t.jobs i clearjob, next⟩)) ∨
      (∀ i, (t.jobs i).pid ≠ pid) ∧ deletejob t pid = (false, t) := by
  rw [deletejob, if_neg (Int.not_lt.mpr hpid)]
  cases hfind : findJob t.jobs (·.pid = pid) with
  | some i => exact .inl ⟨i, _, of_decide_eq_true (findJob_some hfind), rfl⟩
  | none =>
      refine .inr ⟨fun i hi => findJob_none.mp hfind i ?_, rfl⟩
      simpa using hi

@[simp] theorem setState_pid (jobs : Jobs) (i j : Fin maxJobs) (state : JobState) :
    (setState jobs i state j).pid = (jobs j).pid := by
  by_cases hij : j = i
  · simp [setState, hij]
  · simp [setState, hij]

theorem setState_state (jobs : Jobs) (i j : Fin maxJobs) (state : JobState) :
    (setState jobs i state j).state = if j = i then state else (jobs j).state := by
  by_cases hij : j = i
  · simp [setState, hij]
  · simp [setState, hij]

theorem setState_of_ne (jobs : Jobs) (state : JobState) (h : j ≠ i) :
    setState jobs i state j = jobs j := by
  simp [setState, h]

end CsappLabs.Shell
