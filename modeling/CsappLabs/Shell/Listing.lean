import CsappLabs.Foundation.Decimal
import CsappLabs.Shell.Tracking

/-!
# The listing of the jobs

`listjobs` prints a line for each occupied entry.  In a run that tracks the
children these are the children that have not been reaped, each once, and the
message for an entry in no state is never printed.
-/

namespace CsappLabs.Shell

open CsappLabs.Foundation

def showState (i : Fin maxJobs) : JobState → List UInt8
  | .bg => chars "Running "
  | .fg => chars "Foreground "
  | .st => chars "Stopped "
  | .undef => chars "listjobs: Internal error: job[" ++ showNat i ++ chars "].state=0 "

def jobLine (i : Fin maxJobs) (job : Job) : List UInt8 :=
  chars "[" ++ showInt job.jid ++ chars "] (" ++ showInt job.pid ++ chars ") " ++
    showState i job.state ++ job.cmdline.bytes

def occupied (jobs : Jobs) : List (Fin maxJobs) :=
  (List.finRange maxJobs).filter fun i => (jobs i).pid ≠ 0

def listjobs (jobs : Jobs) : List (List UInt8) := (occupied jobs).map fun i => jobLine i (jobs i)

variable {s s' : Tsh} {e : Event} {jobs : Jobs} {blocked : Sigset}

/-! ## What an event does to the table -/

/-- At most one entry changes, and it has a state unless it becomes free. -/
def Touches (jobs jobs' : Jobs) : Prop :=
  jobs' = jobs ∨ ∃ i job, jobs' = Function.update jobs i job ∧ (job.pid ≠ 0 → job.state ≠ .undef)

theorem touches_addjob (t : Table) (pid : Int) (bg : Bool) (cmdline : CString) :
    Touches t.jobs (addjob t pid (if bg then .bg else .fg) cmdline).2.jobs := by
  rw [addjob]
  split
  · exact .inl rfl
  · split
    · exact .inr ⟨_, _, rfl, fun _ => by cases bg <;> simp⟩
    · exact .inl rfl

theorem touches_deletejob (t : Table) (pid : Int) : Touches t.jobs (deletejob t pid).2.jobs := by
  rw [deletejob]
  split
  · exact .inl rfl
  · split
    · exact .inr ⟨_, clearjob, rfl, fun hpid => absurd rfl hpid⟩
    · exact .inl rfl

theorem touches_setState (jobs : Jobs) (i : Fin maxJobs) {state : JobState}
    (hstate : state ≠ .undef) : Touches jobs (setState jobs i state) :=
  .inr ⟨i, _, rfl, fun _ => hstate⟩

theorem touches_advance (hs : s.advance s.pc = some s') : Touches s.table.jobs s'.table.jobs := by
  cases hpc : s.pc with
  | add line pid =>
      rw [hpc] at hs
      cases hs
      exact touches_addjob s.table pid line.bg line.cmdline
  | background i =>
      rw [hpc] at hs
      cases hs
      exact touches_setState _ _ (by simp)
  | foreground i curPid =>
      rw [hpc] at hs
      cases hs
      exact touches_setState _ _ (by simp)
  | waitfg pid =>
      rw [hpc] at hs
      simp only [Tsh.advance] at hs
      split at hs
      · cases hs
        exact .inl rfl
      · split at hs <;> cases hs <;> exact .inl rfl
  | loop =>
      rw [hpc] at hs
      simp only [Tsh.advance] at hs
      split at hs <;> cases hs <;> exact .inl rfl
  | _ =>
      rw [hpc] at hs
      cases hs
      try exact .inl rfl

theorem touches_handle (s : Tsh) (c : Child) : Touches s.table.jobs (s.handle c).table.jobs := by
  have hflag : (if c.pid = fgpid s.table.jobs then { s with flag := true } else s).table =
      s.table := by
    split <;> rfl
  rw [Tsh.handle]
  generalize (if c.pid = fgpid s.table.jobs then { s with flag := true } else s) = t at hflag ⊢
  rw [← hflag]
  dsimp only
  cases getjobpid t.table.jobs c.pid with
  | none => exact .inl rfl
  | some i =>
      cases c.proc with
      | running => exact .inl rfl
      | stopped reported => exact touches_setState _ _ (by simp)
      | zombie how => exact touches_deletejob t.table c.pid

theorem touches_of_step (hs : s.step e = some s') : Touches s.table.jobs s'.table.jobs := by
  obtain ⟨-, hmoves⟩ := moves_of_step hs
  cases hmoves with
  | read line idle pc =>
      rcases read_cases s line with ⟨-, he⟩ | ⟨-, he⟩ | ⟨-, he⟩ | ⟨_, _, _, _, -, -, -, -, he⟩ <;>
      · rw [he]
        exact .inl rfl
  | advance _ idle next => exact touches_advance next
  | reap c saved busy mem reportable =>
      have htable : (s.collect c).table = s.table := (Base.collect_same s c).1
      rw [← htable]
      exact touches_handle (s.collect c) c
  | _ => exact .inl rfl

/-! ## The listing -/

def Stated (jobs : Jobs) : Prop := ∀ i, (jobs i).pid ≠ 0 → (jobs i).state ≠ .undef

theorem Stated.touches {jobs' : Jobs} (h : Stated jobs) (ht : Touches jobs jobs') :
    Stated jobs' := by
  rcases ht with rfl | ⟨i, job, rfl, hjob⟩
  · exact h
  · intro j hj
    by_cases hji : j = i
    · subst hji
      rw [Function.update_self] at hj ⊢
      exact hjob hj
    · rw [Function.update_of_ne hji] at hj ⊢
      exact h j hj

theorem stated_of_run {ok : Tsh → Event → Prop} (hrun : Run Tsh.step ok (init blocked) s) :
    Stated s.table.jobs := by
  apply hrun.invariant fun s => Stated s.table.jobs
  · exact fun i hi => absurd rfl hi
  · exact fun s e s' h _ hs => h.touches (touches_of_step hs)

theorem nodup_occupied_pids {pids : List Int} (h : TableOk jobs pids) :
    ((occupied jobs).map fun i => (jobs i).pid).Nodup := by
  apply List.Nodup.map_on
  · intro i hi j hj hij
    rw [occupied, List.mem_filter] at hi
    exact h.distinct i j hij (by simpa using hi.2)
  · exact (List.nodup_finRange _).filter _

/-- At the prompt the builtin `jobs` lists each child that has not been reaped
once and nothing else, and no entry without a state. -/
theorem jobs_listed (hrun : Run Tsh.step HasRoom (init blocked) s) (hpc : s.pc = .prompt) :
    ∃ entries : List (Fin maxJobs),
      listjobs s.table.jobs = entries.map (fun i => jobLine i (s.table.jobs i)) ∧
      (entries.map fun i => (s.table.jobs i).pid).Perm s.pids ∧
      ∀ i ∈ entries, (s.table.jobs i).state ≠ .undef := by
  have hbase := Base.of_run hrun
  have htracked := Tracked.of_run hrun
  rw [hbase.tracked_iff] at htracked
  refine ⟨occupied s.table.jobs, rfl, ?_, fun i hi => ?_⟩
  · apply (List.perm_ext_iff_of_nodup (nodup_occupied_pids hbase.table) hbase.table.nodup).mpr
    intro pid
    simp only [occupied, List.mem_map, List.mem_filter, List.mem_finRange, true_and]
    constructor
    · rintro ⟨i, hi, rfl⟩
      exact hbase.table.mem_of_ne_zero (by simpa using hi)
    · intro hpid
      obtain ⟨i, hi⟩ := htracked.2 pid hpid (by rw [hpc]; nofun)
      exact ⟨i, by simpa [hi] using hbase.table.ne_zero hpid, hi⟩
  · rw [occupied, List.mem_filter] at hi
    exact stated_of_run hrun i (by simpa using hi.2)

theorem jobs_listed_launch :
    ∃ s : Tsh, s.pids = [100] ∧ ∃ entries : List (Fin maxJobs),
      listjobs s.table.jobs = entries.map (fun i => jobLine i (s.table.jobs i)) ∧
      (entries.map fun i => (s.table.jobs i).pid).Perm s.pids ∧
      ∀ i ∈ entries, (s.table.jobs i).state ≠ .undef := by
  have hread : Run Tsh.step HasRoom (init ∅) { init ∅ with pc := .block (launchLine true) } :=
    Run.start.next (a := .read (launchLine true)) nofun rfl
  have hfork := hread.next (a := .advance) nofun rfl
  have hadd := hfork.next (a := .forked 100) nofun rfl
  have hadded := hadd.next (a := .advance) (fun _ _ _ _ => ⟨0, rfl⟩) rfl
  have hdone := hadded.next (a := .advance) nofun rfl
  exact ⟨_, rfl, jobs_listed hdone rfl⟩

end CsappLabs.Shell
