import CsappLabs.Shell.Invariant

/-!
# Every child has an entry

`eval` forks first and ignores the result of `addjob`.  The children are
tracked as long as `addjob` finds a free entry; the first time it does not, a
child is lost, and the handler ends the shell when it reaps that child.
-/

namespace CsappLabs.Shell

open CsappLabs.Foundation

variable {s s' : Tsh} {e : Event} {line : Line} {pid : Int} {blocked : Sigset}

/-- The handler has not missed an entry, and each child has exactly one, apart
from the child that `eval` is about to add. -/
def Tracked (s : Tsh) : Prop :=
  s.pc ≠ .failed ∧ ∀ c ∈ s.children, s.pc.adding ≠ some c.pid →
    ∃! i, (s.table.jobs i).pid = c.pid

/-- `addjob` is called only while an entry is free. -/
def HasRoom (s : Tsh) (e : Event) : Prop :=
  ∀ line pid, s.pc = .add line pid → e = .advance → ∃ i, (s.table.jobs i).pid = 0

theorem Base.tracked_iff (h : Base s) :
    Tracked s ↔ s.pc ≠ .failed ∧
      ∀ p ∈ s.pids, s.pc.adding ≠ some p → ∃ i, (s.table.jobs i).pid = p := by
  refine and_congr_right fun _ => ?_
  constructor
  · intro ht p hp hadd
    obtain ⟨c, hc, rfl⟩ := List.mem_map.mp hp
    exact (ht c hc hadd).exists
  · intro ht c hc hadd
    have hp : c.pid ∈ s.pids := List.mem_map_of_mem hc
    obtain ⟨i, hi⟩ := ht c.pid hp hadd
    exact ⟨i, hi, fun j hj => h.table.eq_of_pid hp hj hi⟩

theorem Tracked.of_same (ht : Tracked s) (h : Base s) (h' : Base s') (hpc : s'.pc ≠ .failed)
    (hpids : s'.pids = s.pids) (hjobs : ∀ i, (s'.table.jobs i).pid = (s.table.jobs i).pid)
    (hadd : s'.pc.adding = s.pc.adding) : Tracked s' := by
  rw [h.tracked_iff] at ht
  rw [h'.tracked_iff, hpids, hadd]
  simp only [hjobs]
  exact ⟨hpc, ht.2⟩

theorem advance_same (hs : s.advance s.pc = some s') :
    (∃ line pid, s.pc = .add line pid) ∨ s'.pc ≠ .failed ∧ s'.pids = s.pids ∧
      (∀ i, (s'.table.jobs i).pid = (s.table.jobs i).pid) ∧ s'.pc.adding = s.pc.adding := by
  cases hpc : s.pc with
  | add line pid => exact .inl ⟨line, pid, rfl⟩
  | prompt => rw [hpc] at hs; cases hs
  | fork line => rw [hpc] at hs; cases hs
  | suspended mask => rw [hpc] at hs; cases hs
  | exited => rw [hpc] at hs; cases hs
  | failed => rw [hpc] at hs; cases hs
  | block line =>
      rw [hpc] at hs
      cases hs
      exact .inr ⟨by simp, rfl, fun _ => rfl, rfl⟩
  | clear line pid =>
      rw [hpc] at hs
      cases hs
      exact .inr ⟨by simp, rfl, fun _ => rfl, rfl⟩
  | unblock line pid =>
      rw [hpc] at hs
      cases hs
      right
      refine ⟨?_, rfl, fun _ => rfl, ?_⟩
      · cases line.bg <;> simp
      · cases line.bg <;> rfl
  | cont bg i curPid =>
      rw [hpc] at hs
      cases hs
      right
      refine ⟨?_, Base.pids_continueGroup s curPid, fun _ => rfl, ?_⟩
      · cases bg <;> simp
      · cases bg <;> rfl
  | background i =>
      rw [hpc] at hs
      cases hs
      exact .inr ⟨by simp, rfl, fun j => setState_pid _ _ _ _, rfl⟩
  | clearFg i curPid =>
      rw [hpc] at hs
      cases hs
      exact .inr ⟨by simp, rfl, fun _ => rfl, rfl⟩
  | foreground i curPid =>
      rw [hpc] at hs
      cases hs
      exact .inr ⟨by simp, rfl, fun j => setState_pid _ _ _ _, rfl⟩
  | waitfg pid =>
      rw [hpc] at hs
      simp only [Tsh.advance] at hs
      split at hs
      · cases hs
        exact .inr ⟨by simp, rfl, fun _ => rfl, rfl⟩
      · split at hs <;> cases hs <;> exact .inr ⟨by simp, rfl, fun _ => rfl, rfl⟩
  | loop =>
      rw [hpc] at hs
      simp only [Tsh.advance] at hs
      split at hs <;> cases hs <;> exact .inr ⟨by simp, rfl, fun _ => rfl, rfl⟩

/-- The call of `addjob` keeps the children tracked exactly when it finds a free
entry. -/
theorem Tracked.add_iff (ht : Tracked s) (h : Base s) (h' : Base s')
    (hpc : s.pc = .add line pid) (hs : s.advance s.pc = some s') :
    Tracked s' ↔ ∃ i, (s.table.jobs i).pid = 0 := by
  obtain ⟨hmem, hnot⟩ := h.adding pid (by rw [hpc]; rfl)
  rw [h.tracked_iff, hpc] at ht
  rw [hpc] at hs
  rw [h'.tracked_iff]
  cases addjob_cases s.table (h.table.pos pid hmem) (if line.bg then .bg else .fg) line.cmdline with
  | inl hfree =>
      obtain ⟨i, next, hi, heq⟩ := hfree
      simp only [Tsh.advance, heq, Option.some.injEq] at hs
      subst hs
      refine ⟨fun _ => ⟨i, hi⟩, fun _ => ⟨by simp, fun p hp _ => ?_⟩⟩
      by_cases hpp : p = pid
      · exact ⟨i, by simp [hpp]⟩
      · obtain ⟨j, hj⟩ := ht.2 p hp fun he => hpp (Option.some.inj he).symm
        have hji : j ≠ i := by
          rintro rfl
          exact h.table.ne_zero hp (hj.symm.trans hi)
        exact ⟨j, by simp only [Function.update_of_ne hji]; exact hj⟩
  | inr hfull =>
      simp only [Tsh.advance, hfull.2, Option.some.injEq] at hs
      subst hs
      constructor
      · intro ht'
        obtain ⟨i, hi⟩ := ht'.2 pid hmem (by simp [At.adding])
        exact absurd hi (hnot i)
      · rintro ⟨i, hi⟩
        exact absurd hi (hfull.1 i)

theorem Tracked.reap {c : Child} (ht : Tracked s) (h : Base s) (hover : s.pc.over = false)
    {saved : Sigset} (hbusy : s.handler = some saved) (hc : c ∈ s.children) (hrep : c.reportable) :
    Tracked ((s.collect c).handle c) := by
  have h' := h.reap hover hbusy hc hrep
  obtain ⟨mask, hpc⟩ := h.suspended_of_reap hover hbusy hc
  have hmem : c.pid ∈ s.pids := List.mem_map_of_mem hc
  rw [h.tracked_iff, hpc] at ht
  rw [h'.tracked_iff]
  obtain ⟨htable, hpc', -, -⟩ := Base.collect_same s c
  have hpids := Base.pids_collect s hrep
  have hhandled := handled (s.collect c) (h.table.pos _ hmem) hrep
  generalize s.collect c = t at htable hpc' hpids hhandled ⊢
  generalize t.handle c = t' at hhandled ⊢
  cases hhandled with
  | lost flag none =>
      obtain ⟨i, hi⟩ := ht.2 c.pid hmem nofun
      rw [htable] at none
      exact absurd hi (none i)
  | ended how i next proc entry =>
      rw [htable] at entry
      refine ⟨by rw [hpc', hpc]; nofun, fun p hp _ => ?_⟩
      cases hpids with
      | inl hzombie =>
          have hp' : p ∈ s.pids.filter fun p => p ≠ c.pid := hzombie.2 ▸ hp
          obtain ⟨hps, hne⟩ := List.mem_filter.mp hp'
          obtain ⟨j, hj⟩ := ht.2 p hps nofun
          have hji : j ≠ i := by
            rintro rfl
            exact absurd (hj.symm.trans entry) (by simpa using hne)
          exact ⟨j, by rw [htable]; simp only [Function.update_of_ne hji]; exact hj⟩
      | inr hstop =>
          rw [hstop.1] at proc
          cases proc
  | stopped i entry proc =>
      refine ⟨by rw [hpc', hpc]; nofun, fun p hp _ => ?_⟩
      cases hpids with
      | inl hzombie =>
          obtain ⟨⟨how, hz⟩, -⟩ := hzombie
          rw [hz] at proc
          cases proc
      | inr hstop =>
          obtain ⟨j, hj⟩ := ht.2 p (hstop.2 ▸ hp) nofun
          exact ⟨j, by rw [htable, setState_pid]; exact hj⟩

theorem Tracked.step_iff (ht : Tracked s) (h : Base s) (hs : s.step e = some s') :
    Tracked s' ↔ HasRoom s e := by
  have h' := h.step hs
  obtain ⟨hover, hmoves⟩ := moves_of_step hs
  cases hmoves with
  | read line idle pc =>
      refine iff_of_true ?_ nofun
      rcases read_cases s line with ⟨-, he⟩ | ⟨-, he⟩ | ⟨-, he⟩ | ⟨name, -, i, curPid, -, -, -, -, he⟩
      · rwa [he]
      · rw [he] at h' ⊢
        exact ht.of_same h h' nofun rfl (fun _ => rfl) (by rw [pc]; rfl)
      · rw [he] at h' ⊢
        exact ht.of_same h h' nofun rfl (fun _ => rfl) (by rw [pc]; rfl)
      · rw [he] at h' ⊢
        exact ht.of_same h h' nofun rfl (fun _ => rfl) (by rw [pc]; rfl)
  | advance _ idle next =>
      by_cases hadd : ∃ line pid, s.pc = .add line pid
      · obtain ⟨line, pid, hpc⟩ := hadd
        rw [ht.add_iff h h' hpc next]
        constructor
        · exact fun hfree _ _ _ _ => hfree
        · exact fun hroom => hroom line pid hpc rfl
      · refine iff_of_true ?_ fun line pid hpc _ => absurd ⟨line, pid, hpc⟩ hadd
        obtain ⟨hpc, hpids, hjobs, hadding⟩ := (advance_same next).resolve_left hadd
        exact ht.of_same h h' hpc hpids hjobs hadding
  | forked pid line idle pc pos fresh =>
      refine iff_of_true ?_ fun line' pid' hpc _ => ?_
      · rw [h.tracked_iff, pc] at ht
        rw [h'.tracked_iff]
        refine ⟨by cases line.bg <;> nofun, fun p hp hadd => ?_⟩
        cases List.mem_cons.mp hp with
        | inl he =>
            subst he
            exact absurd (by cases line.bg <;> rfl) hadd
        | inr hp => exact ht.2 p hp nofun
      · rw [pc] at hpc
        cases hpc
  | wake mask idle pc =>
      exact iff_of_true (ht.of_same h h' nofun rfl (fun _ => rfl) (by rw [pc]; rfl)) nofun
  | deliver idle pending unblocked =>
      exact iff_of_true (ht.of_same h h' ht.1 rfl (fun _ => rfl) rfl) nofun
  | reap c saved busy mem reportable =>
      exact iff_of_true (ht.reap h hover busy mem reportable) nofun
  | handlerReturn saved busy =>
      exact iff_of_true (ht.of_same h h' ht.1 rfl (fun _ => rfl) rfl) nofun
  | child pid event proc =>
      exact iff_of_true (ht.of_same h h' ht.1 (Base.pids_child s pid proc) (fun _ => rfl) rfl) nofun

theorem Tracked.of_run (hrun : Run Tsh.step HasRoom (init blocked) s) : Tracked s := by
  have hboth : Base s ∧ Tracked s := by
    apply hrun.invariant fun s => Base s ∧ Tracked s
    · exact ⟨Base.init blocked, nofun, nofun⟩
    · rintro s e s' ⟨h, ht⟩ hok hs
      exact ⟨h.step hs, (ht.step_iff h hs).mpr hok⟩
  exact hboth.2

/-- In a run in which `addjob` always finds a free entry the children are
tracked, and they are not after a call that finds none. -/
theorem tracked_of_run (hrun : Run Tsh.step HasRoom (init blocked) s) :
    Tracked s ∧ ∀ e s', s.step e = some s' → (Tracked s' ↔ HasRoom s e) :=
  ⟨.of_run hrun, fun _ _ hs => (Tracked.of_run hrun).step_iff (Base.of_run hrun) hs⟩

def launchLine (bg : Bool) : Line := ⟨⟨[97], by decide⟩, [⟨[97], by decide⟩], bg⟩

theorem tracked_of_run_launch :
    ∃ s, s.children ≠ [] ∧ Tracked s ∧ ∀ e s', s.step e = some s' → (Tracked s' ↔ HasRoom s e) := by
  have hread : Run Tsh.step HasRoom (init ∅) { init ∅ with pc := .block (launchLine true) } :=
    Run.start.next (a := .read (launchLine true)) nofun rfl
  have hfork := hread.next (a := .advance) nofun rfl
  have hadd := hfork.next (a := .forked 100) nofun rfl
  have hdone := hadd.next (a := .advance) (fun _ _ _ _ => ⟨0, rfl⟩) rfl
  exact ⟨_, by nofun, tracked_of_run hdone⟩

def launch (bg : Bool) (pid : Int) : List Event :=
  [.read (launchLine bg), .advance, .forked pid] ++
    (if bg then [.advance, .advance] else [.advance, .advance, .advance])

def fgFirst : Line := ⟨⟨[102, 103, 32, 37, 49], by decide⟩, [fgName, ⟨[37, 49], by decide⟩], false⟩

/-- After 16 jobs in the background a seventeenth is lost.  It ends while the
shell waits for the first one, and the handler ends the shell. -/
theorem seventeenth_job_lost :
    ¬∀ blocked s, Run Tsh.step (fun _ _ => True) (init blocked) s → Tracked s := by
  intro hall
  have hrun : ((replay Tsh.step (fun _ _ => True) (init ∅)
      ((List.range 16).flatMap (fun n => launch true (100 + n)) ++ launch false 116 ++
        [.advance, .read fgFirst, .advance, .advance, .advance, .advance, .advance,
          .child 116 (.ends .exited), .deliver, .reap 116])).map fun s =>
        match s.pc with
        | .failed => true
        | _ => false) = some true := by
    decide +kernel
  obtain ⟨s, hs, hfailed⟩ := Option.map_eq_some_iff.mp hrun
  have ht := hall ∅ s (Run.start.of_replay hs)
  split at hfailed
  · next hpc => exact ht.1 hpc
  · cases hfailed

end CsappLabs.Shell
