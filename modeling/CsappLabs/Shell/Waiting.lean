import CsappLabs.Shell.Foreground

/-!
# Waiting for the foreground job

`waitfg` sleeps in `sigsuspend` until the handler has set `flag`.  The shell
misses no end and no stop of the job that it waits for: once the job no longer
runs, the shell comes back to its prompt by itself, and not before.
-/

namespace CsappLabs.Shell

open CsappLabs.Foundation

variable {s s' : Tsh} {e : Event} {line : Line} {c c' : Child} {i : Fin maxJobs} {pid : Int}
  {mask saved : Sigset} {blocked : Sigset} {jobs : Jobs}

/-- Nothing is typed and nothing happens to a child. -/
def Event.own : Event → Bool
  | .advance => true
  | .wake => true
  | .deliver => true
  | .reap _ => true
  | .handlerReturn => true
  | _ => false

def FgRuns (s : Tsh) : Prop :=
  ∃ i, (s.table.jobs i).state = .fg ∧
    ∃ c ∈ s.children, c.pid = (s.table.jobs i).pid ∧ c.proc = .running

theorem OneFg.fgpid_eq {flag : Bool} (h : OneFg jobs flag pid) : fgpid jobs = pid := by
  obtain ⟨-, i, hi, hpid, hall⟩ := h
  rcases fgpid_cases jobs with ⟨-, hzero⟩ | ⟨j, hj, hfgpid⟩
  · exact absurd hi (hzero i)
  · rw [hfgpid, hall j hj, hpid]

/-! ## One turn of the handler -/

structure Reaped (s : Tsh) (c : Child) (i : Fin maxJobs) (s' : Tsh) : Prop where
  pc : s'.pc = s.pc
  handler : s'.handler = s.handler
  children : s'.children = (s.collect c).children
  flag : s'.flag = (s.flag || decide (c.pid = fgpid s.table.jobs))
  entry : (s.table.jobs i).pid = c.pid
  behind : (s'.table.jobs i).state ≠ .fg
  others : ∀ j, j ≠ i → s'.table.jobs j = s.table.jobs j

theorem Tracked.reaped (ht : Tracked s) (h : Base s) (hover : s.pc.over = false)
    (hbusy : s.handler = some saved) (hc : c ∈ s.children) (hrep : c.reportable) :
    ∃ i, Reaped s c i ((s.collect c).handle c) := by
  have hfound := (ht.reap h hover hbusy hc hrep).1
  obtain ⟨htable, hpc, hhandler, hflag⟩ := Base.collect_same s c
  have hhandled := handled (s.collect c) (h.table.pos _ (List.mem_map_of_mem hc)) hrep
  generalize (s.collect c).handle c = s' at hhandled hfound ⊢
  cases hhandled with
  | lost flag none => exact absurd rfl hfound
  | ended how i next proc entry =>
      refine ⟨i, hpc, hhandler, rfl, ?_, ?_, ?_, ?_⟩
      · rw [← htable, ← hflag]
      · rw [← htable, entry]
      · simp [clearjob]
      · intro j hj
        simp only [Function.update_of_ne hj, htable]
  | stopped i entry proc =>
      refine ⟨i, hpc, hhandler, rfl, ?_, ?_, ?_, ?_⟩
      · rw [← htable, ← hflag]
      · rw [← htable, entry]
      · simp [setState_state]
      · intro j hj
        simp only [setState_of_ne _ _ hj, htable]

theorem mem_collect (hc' : c' ∈ (s.collect c).children) :
    c' ∈ s.children ∨ c'.pid = c.pid ∧ c'.proc = .stopped true := by
  rw [Tsh.collect] at hc'
  split at hc'
  · exact .inl (List.mem_of_mem_filter hc')
  · obtain ⟨d, hd, rfl⟩ := List.mem_map.mp hc'
    split
    · next hpid => exact .inr ⟨hpid, rfl⟩
    · exact .inl hd

theorem mem_collect_of_ne (hc' : c' ∈ s.children) (hne : c'.pid ≠ c.pid) :
    c' ∈ (s.collect c).children := by
  rw [Tsh.collect]
  split
  · exact List.mem_filter.mpr ⟨hc', by simpa using hne⟩
  · exact List.mem_map.mpr ⟨c', hc', if_neg hne⟩

theorem reportable_collect (s : Tsh) (c : Child) :
    (s.collect c).children.filter Child.reportable =
      (s.children.filter Child.reportable).filter fun d => d.pid ≠ c.pid := by
  rw [Tsh.collect]
  split
  · exact List.filter_comm _ _ _
  · show (s.children.map fun d => if d.pid = c.pid then ⟨d.pid, .stopped true⟩ else d).filter _ = _
    induction s.children with
    | nil => rfl
    | cons d children ih =>
        rw [List.map_cons, List.filter_cons, ih]
        by_cases hpid : d.pid = c.pid
        · rw [if_pos hpid, if_neg (by simp [Child.reportable])]
          cases hd : d.reportable <;> simp [hd, hpid]
        · rw [if_neg hpid]
          cases hd : d.reportable <;> simp [hd, hpid]

theorem next_ne_reported {old new : Proc} {event : ChildEvent} (h : old.next event = some new) :
    new ≠ .stopped true := by
  rintro rfl
  cases old <;> cases event <;> simp [Proc.next] at h

theorem child_step {event : ChildEvent} (hs : s.step (.child pid event) = some s') :
    ∃ proc, proc ≠ .stopped true ∧ s' = { s with
      children := s.children.map fun d => if d.pid = pid then { d with proc := proc } else d
      pending := true } := by
  obtain ⟨hover, -⟩ := moves_of_step hs
  cases hh : s.handler
  all_goals
    simp only [Tsh.step, hover, hh] at hs
    split at hs
    · next hgone => cases hgone
    · split at hs
      · cases hs
      · split at hs
        · cases hs
        · next c _ _ proc hnext =>
            cases hs
            exact ⟨proc, next_ne_reported hnext, rfl⟩

theorem settled_of_handlerReturn (hs : s.step .handlerReturn = some s') :
    ∀ c ∈ s.children, ¬c.reportable := by
  obtain ⟨hover, hmoves⟩ := moves_of_step hs
  cases hmoves with
  | handlerReturn saved busy =>
      simp only [Tsh.step, hover, busy] at hs
      split at hs
      · next hgone => cases hgone
      · split at hs
        · cases hs
        · next hnone => simpa using hnone

/-! ## What is kept while the shell waits -/

/-- The process that the shell is going to wait for, before it has an entry in
the foreground. -/
def At.starting : At → Option Int
  | .clear _ pid => some pid
  | .add _ pid => some pid
  | .clearFg _ curPid => some curPid
  | .foreground _ curPid => some curPid
  | _ => none

/-- There is a job in the foreground, unless `flag` tells that it has changed. -/
def Attended (jobs : Jobs) (flag : Bool) : At → Prop
  | .unblock line _ => line.bg = false → ¬NoFg jobs
  | .waitfg _ => ¬NoFg jobs
  | .loop => NoFg jobs → flag = true
  | .suspended _ => NoFg jobs → flag = true
  | _ => True

/-- Whatever `waitpid` could report is announced, `sigsuspend` blocks nothing,
and no stop of the foreground job has been reported already. -/
structure Waking (s : Tsh) : Prop where
  announced : ∀ c ∈ s.children, c.reportable → s.pending ∨ s.handler ≠ none
  unblocked : ∀ mask, s.pc = .suspended mask → s.handler.getD s.blocked = ∅
  unreported : ∀ c ∈ s.children, c.proc = .stopped true → s.pc.starting ≠ some c.pid ∧
    ∀ i, (s.table.jobs i).state = .fg → (s.table.jobs i).pid ≠ c.pid
  attended : Attended s.table.jobs s.flag s.pc

namespace Waking

theorem init (blocked : Sigset) : Waking (init blocked) where
  announced _ hc := by cases hc
  unblocked _ h := by cases h
  unreported _ hc := by cases hc
  attended := trivial

theorem of_statement (h : Waking s) (hchildren : s'.children = s.children)
    (hpending : s'.pending = s.pending) (hhandler : s'.handler = s.handler)
    (hunblocked : ∀ mask, s'.pc = .suspended mask → s'.handler.getD s'.blocked = ∅)
    (hstarting : ∀ p, s'.pc.starting = some p → s.pc.starting = some p)
    (hfg : ∀ i, (s'.table.jobs i).state = .fg →
      s'.table.jobs i = s.table.jobs i ∨ s.pc.starting = some (s'.table.jobs i).pid)
    (hattended : Attended s'.table.jobs s'.flag s'.pc) : Waking s' where
  announced := by
    rw [hchildren, hpending, hhandler]
    exact h.announced
  unblocked := hunblocked
  unreported c hc hproc := by
    rw [hchildren] at hc
    obtain ⟨hnot, hold⟩ := h.unreported c hc hproc
    refine ⟨fun hp => hnot (hstarting _ hp), fun i hi hpid => ?_⟩
    rcases hfg i hi with hsame | hstart
    · rw [hsame] at hi hpid
      exact hold i hi hpid
    · exact hnot (hpid ▸ hstart)
  attended := hattended

theorem read (h : Waking s) (line : Line) : Waking (s.read line) := by
  rcases read_cases s line with ⟨-, he⟩ | ⟨-, he⟩ | ⟨-, he⟩ | ⟨_, _, i, curPid, -, -, -, -, he⟩
  · rwa [he]
  all_goals
    rw [he]
    exact h.of_statement rfl rfl rfl nofun nofun (fun _ _ => .inl rfl) trivial

theorem goes_on (h : Waking s) {signals : Sigset} {flag : Bool} {next : At}
    (hwaits : ∀ mask, next ≠ .suspended mask)
    (hstarting : ∀ p, next.starting = some p → s.pc.starting = some p)
    (hattended : Attended s.table.jobs flag next) :
    Waking { s with blocked := signals, flag := flag, pc := next } :=
  h.of_statement rfl rfl rfl (fun mask hpc => absurd hpc (hwaits mask)) hstarting
    (fun _ _ => .inl rfl) hattended

theorem added (h : Waking s) (hb : Base s) {line : Line} (hpc : s.pc = .add line pid)
    (hroom : HasRoom s .advance) (hs : s.advance (.add line pid) = some s') : Waking s' := by
  obtain ⟨hmem, -⟩ := hb.adding pid (by rw [hpc]; rfl)
  obtain ⟨k, hk⟩ := hroom line pid hpc rfl
  cases addjob_cases s.table (hb.table.pos pid hmem) (if line.bg then .bg else .fg)
    line.cmdline with
  | inr hfull => exact absurd hk (hfull.1 k)
  | inl hfree =>
      obtain ⟨i, next, -, heq⟩ := hfree
      simp only [Tsh.advance, heq, Option.some.injEq] at hs
      subst hs
      refine h.of_statement rfl rfl rfl (by simp) (by simp [At.starting]) (fun j hj => ?_)
        (fun hbg hn => ?_)
      · by_cases hji : j = i
        · right
          rw [hpc, hji]
          simp [At.starting]
        · exact .inl (Function.update_of_ne hji _ _)
      · apply hn i
        simp [hbg]

/-- The process group runs again before its job is put into the foreground. -/
theorem continued (h : Waking s) {bg : Bool} {curPid : Int}
    (hs : s.advance (.cont bg i curPid) = some s') : Waking s' := by
  cases hs
  refine ⟨?_, ?_, ?_, ?_⟩
  · intro c hc hrep
    obtain ⟨d, hd, rfl⟩ := List.mem_map.mp hc
    split at hrep
    · cases hrep
    · rcases h.announced d hd hrep with hpending | hhandler
      · exact .inl (by simp [Tsh.continueGroup, hpending])
      · exact .inr hhandler
  · cases bg <;> simp
  · intro c hc hproc
    obtain ⟨d, hd, rfl⟩ := List.mem_map.mp hc
    split at hproc
    · cases hproc
    · next hnot =>
        rw [if_neg hnot]
        refine ⟨?_, (h.unreported d hd hproc).2⟩
        cases bg with
        | true => simp [At.starting]
        | false =>
            intro hp
            refine hnot ⟨(Option.some.inj hp).symm, ?_⟩
            rw [hproc]
            rfl
  · cases bg <;> trivial

theorem advance (h : Waking s) (hb : Base s) (hfg : FgOk s.table.jobs s.flag s.pc)
    (hroom : HasRoom s .advance) (hidle : s.handler = none) (hs : s.advance s.pc = some s') :
    Waking s' := by
  have hattended := h.attended
  cases hpc : s.pc with
  | prompt => rw [hpc] at hs; cases hs
  | fork line => rw [hpc] at hs; cases hs
  | suspended mask => rw [hpc] at hs; cases hs
  | exited => rw [hpc] at hs; cases hs
  | failed => rw [hpc] at hs; cases hs
  | block line =>
      rw [hpc] at hs
      cases hs
      exact h.goes_on (by simp) (by simp [At.starting]) trivial
  | clear line pid =>
      rw [hpc] at hs
      cases hs
      refine h.goes_on (by simp) (fun p hp => ?_) trivial
      rw [hpc]
      exact hp
  | add line pid => exact h.added hb hpc hroom (hpc ▸ hs)
  | unblock line pid =>
      rw [hpc] at hs hattended
      cases hs
      refine h.goes_on ?_ ?_ ?_ <;>
        cases hbg : line.bg <;> first | exact hattended hbg | trivial | simp [At.starting]
  | cont bg i curPid => exact h.continued (hpc ▸ hs)
  | background i =>
      rw [hpc] at hs
      cases hs
      refine h.of_statement rfl rfl rfl (by simp) (by simp [At.starting]) (fun j hj => .inl ?_)
        trivial
      by_cases hji : j = i
      · rw [hji, setState_state, if_pos rfl] at hj
        cases hj
      · exact setState_of_ne _ _ hji
  | clearFg i curPid =>
      rw [hpc] at hs
      cases hs
      refine h.goes_on (by simp) (fun p hp => ?_) trivial
      rw [hpc]
      exact hp
  | foreground i curPid =>
      rw [hpc] at hs hfg
      cases hs
      obtain ⟨-, hcur, -⟩ := hfg
      refine h.of_statement rfl rfl rfl (by simp) (by simp [At.starting]) (fun j hj => ?_)
        (fun hn => ?_)
      · by_cases hji : j = i
        · right
          rw [hpc, setState_pid, hji, hcur]
          rfl
        · exact .inl (setState_of_ne _ _ hji)
      · apply hn i
        rw [setState_state, if_pos rfl]
  | waitfg pid =>
      rw [hpc] at hs hattended
      simp only [Tsh.advance] at hs
      split at hs
      · cases hs
        exact h.goes_on (by simp) (by simp [At.starting]) trivial
      · split at hs <;> cases hs
        · exact h.goes_on (by simp) (by simp [At.starting]) trivial
        · exact h.goes_on (by simp) (by simp [At.starting]) fun hn => absurd hn hattended
  | loop =>
      rw [hpc] at hs hattended
      simp only [Tsh.advance] at hs
      split at hs
      · cases hs
        exact h.goes_on (by simp) (by simp [At.starting]) trivial
      · cases hs
        refine h.of_statement rfl rfl rfl (fun _ _ => ?_) (by simp [At.starting])
          (fun _ _ => .inl rfl) hattended
        rw [hidle]
        rfl

theorem reap (h : Waking s) (hb : Base s) (ht : Tracked s) (hover : s.pc.over = false)
    (hbusy : s.handler = some saved) (hc : c ∈ s.children) (hrep : c.reportable) :
    Waking ((s.collect c).handle c) := by
  obtain ⟨mask, hpc⟩ := hb.suspended_of_reap hover hbusy hc
  have hmem : c.pid ∈ s.pids := List.mem_map_of_mem hc
  have hattended := h.attended
  rw [hpc] at hattended
  obtain ⟨i, hr⟩ := ht.reaped hb hover hbusy hc hrep
  generalize (s.collect c).handle c = s' at hr
  refine ⟨?_, ?_, ?_, ?_⟩
  · intro c' _ _
    right
    rw [hr.handler, hbusy]
    nofun
  · intro mask' _
    have hsaved := h.unblocked mask hpc
    rw [hbusy] at hsaved
    rw [hr.handler, hbusy]
    exact hsaved
  · intro c' hc' hproc
    rw [hr.pc, hpc]
    refine ⟨nofun, fun j hj hpid => ?_⟩
    have hji : j ≠ i := by
      rintro rfl
      exact hr.behind hj
    rw [hr.others j hji] at hj hpid
    rw [hr.children] at hc'
    rcases mem_collect hc' with hold | ⟨hsame, -⟩
    · exact (h.unreported c' hold hproc).2 j hj hpid
    · exact hji (hb.table.eq_of_pid hmem (hpid.trans hsame) hr.entry)
  · rw [hr.pc, hpc]
    intro hn
    rw [hr.flag]
    by_cases hnone : NoFg s.table.jobs
    · rw [hattended hnone]
      rfl
    -- the job that has left the foreground is the one that `fgpid` finds
    · rcases fgpid_cases s.table.jobs with ⟨-, hzero⟩ | ⟨m, hm, hfgpid⟩
      · exact absurd hzero hnone
      · have hmi : m = i := by
          by_contra hmi
          exact hn m (by rw [hr.others m hmi, hm])
        rw [hfgpid, hmi, hr.entry]
        simp

theorem child {event : ChildEvent} (h : Waking s) (hs : s.step (.child pid event) = some s') :
    Waking s' := by
  obtain ⟨proc, hnew, rfl⟩ := child_step hs
  refine ⟨fun _ _ _ => .inl rfl, h.unblocked, ?_, h.attended⟩
  intro c hc hproc
  obtain ⟨d, hd, rfl⟩ := List.mem_map.mp hc
  split at hproc
  · exact absurd hproc hnew
  · next hne =>
      rw [if_neg hne]
      exact h.unreported d hd hproc

end Waking

/-- What every run keeps in which no fault of `addjob` and of `fg` with a pid
occurs. -/
structure Steady (s : Tsh) : Prop where
  base : Base s
  tracked : Tracked s
  foreground : FgOk s.table.jobs s.flag s.pc
  waking : Waking s

namespace Steady

theorem init (blocked : Sigset) : Steady (init blocked) where
  base := Base.init blocked
  tracked := ⟨nofun, nofun⟩
  foreground := nofun
  waking := Waking.init blocked

theorem step (h : Steady s) (hroom : HasRoom s e) (hok : NoFgByPid s e)
    (hs : s.step e = some s') : Steady s' := by
  refine ⟨h.base.step hs, (h.tracked.step_iff h.base hs).mpr hroom,
    h.foreground.step h.base hok hs, ?_⟩
  have hw := h.waking
  obtain ⟨hover, hmoves⟩ := moves_of_step hs
  cases hmoves with
  | read line idle pc => exact hw.read line
  | advance _ idle next => exact hw.advance h.base h.foreground hroom idle next
  | forked pid line idle pc pos fresh =>
      refine ⟨?_, ?_, ?_, ?_⟩
      · intro c hc hrep
        rcases List.mem_cons.mp hc with rfl | hold
        · cases hrep
        · exact hw.announced c hold hrep
      · cases line.bg <;> nofun
      · intro c hc hproc
        rcases List.mem_cons.mp hc with rfl | hold
        · cases hproc
        · refine ⟨?_, (hw.unreported c hold hproc).2⟩
          have hne : pid ≠ c.pid := by
            rintro rfl
            exact fresh (List.mem_map_of_mem hold)
          cases line.bg <;> exact fun he => hne (Option.some.inj he)
      · cases line.bg <;> trivial
  | wake mask idle pc =>
      have hattended := hw.attended
      rw [pc] at hattended
      exact hw.of_statement rfl rfl rfl nofun nofun (fun _ _ => .inl rfl) hattended
  | deliver idle pending unblocked =>
      refine ⟨fun _ _ _ => .inr nofun, fun mask hpc => ?_, hw.unreported, hw.attended⟩
      have hnone := hw.unblocked mask hpc
      rw [idle] at hnone
      exact hnone
  | reap c saved busy mem reportable => exact hw.reap h.base h.tracked hover busy mem reportable
  | handlerReturn saved busy =>
      refine ⟨fun c hc hrep => absurd hrep (settled_of_handlerReturn hs c hc), fun mask hpc => ?_,
        hw.unreported, hw.attended⟩
      have hsaved := hw.unblocked mask hpc
      rw [busy] at hsaved
      exact hsaved
  | child pid event proc => exact hw.child hs

theorem of_run
    (hrun : Run Tsh.step (fun s e => HasRoom s e ∧ NoFgByPid s e) (Shell.init blocked) s) :
    Steady s :=
  hrun.invariant Steady (init blocked) fun _ _ _ h hok hs => h.step hok.1 hok.2 hs

end Steady

/-! ## Back to the prompt -/

abbrev OwnRun : Tsh → Tsh → Prop := Run Tsh.step fun _ e => e.own

theorem live_of_suspended (hpc : s.pc = .suspended mask) : ¬s.pc.over = true := by
  rw [hpc]
  nofun

theorem ownRun_one (hown : e.own) (hs : s.step e = some s') : OwnRun s s' := Run.start.next hown hs

/-- `sigsuspend` returns and `waitfg` finds `flag` set. -/
theorem wakes (hpc : s.pc = .suspended mask) (hidle : s.handler = none) (hflag : s.flag = true) :
    ∃ s', OwnRun s s' ∧ s'.pc = .prompt := by
  have hwake : s.step .wake = some { s with blocked := mask, pc := .loop } := by
    simp [Tsh.step, hpc, hidle, At.over]
  refine ⟨{ s with blocked := mask, pc := .prompt },
    (ownRun_one rfl hwake).next (a := .advance) rfl ?_, rfl⟩
  simp [Tsh.step, Tsh.advance, At.over, hflag, hidle]

theorem step_reap (hover : ¬s.pc.over = true) (hbusy : s.handler = some saved)
    (hc : c ∈ s.children) (hrep : c.reportable) :
    ∃ d ∈ s.children, d.reportable ∧ d.pid = c.pid ∧
      s.step (.reap c.pid) = some ((s.collect d).handle d) := by
  have hfound : (s.children.find? fun d => d.pid = c.pid ∧ d.reportable).isSome := by
    rw [List.find?_isSome]
    exact ⟨c, hc, by simpa using hrep⟩
  obtain ⟨d, hd⟩ := Option.isSome_iff_exists.mp hfound
  have hprop := List.find?_some hd
  simp only [decide_eq_true_eq] at hprop
  refine ⟨d, List.mem_of_find?_eq_some hd, hprop.2, hprop.1, ?_⟩
  simp only [Tsh.step, if_neg hover, hbusy, hd]

namespace Steady

theorem own_step (h : Steady s) (hadd : ∀ line pid, s.pc ≠ .add line pid) (hown : e.own)
    (hs : s.step e = some s') : Steady s' := by
  refine h.step (fun line pid hpc _ => absurd hpc (hadd line pid)) (fun line he => ?_) hs
  rw [he] at hown
  cases hown

theorem turn (h : Steady s) (hpc : s.pc = .suspended mask) (hbusy : s.handler = some saved)
    (hc : c ∈ s.children) (hrep : c.reportable) :
    ∃ d i s', d ∈ s.children ∧ d.reportable ∧ d.pid = c.pid ∧ Reaped s d i s' ∧
      s.step (.reap c.pid) = some s' ∧ Steady s' := by
  have hover := live_of_suspended hpc
  obtain ⟨d, hd, hdrep, hpid, hs⟩ := step_reap hover hbusy hc hrep
  obtain ⟨i, hr⟩ := h.tracked.reaped h.base (by simpa using hover) hbusy hd hdrep
  exact ⟨d, i, _, hd, hdrep, hpid, hr, hs, h.own_step (by rw [hpc]; nofun) rfl hs⟩

/-- Once `flag` is set, the handler comes to its end and `waitfg` returns. -/
theorem drain (h : Steady s) (hpc : s.pc = .suspended mask) (hbusy : s.handler = some saved)
    (hflag : s.flag = true) : ∃ s', OwnRun s s' ∧ s'.pc = .prompt := by
  -- each turn of the handler takes one child off those that can be reported
  induction hn : (s.children.filter Child.reportable).length using Nat.strong_induction_on
    generalizing s with
  | _ n ih =>
      have hover := live_of_suspended hpc
      by_cases hnews : ∃ c ∈ s.children, c.reportable
      · obtain ⟨c, hc, hrep⟩ := hnews
        obtain ⟨d, i, s', hd, hdrep, -, hr, hs, hsteady⟩ := h.turn hpc hbusy hc hrep
        have hless : (s'.children.filter Child.reportable).length < n := by
          rw [hr.children, reportable_collect, ← hn]
          apply List.length_filter_lt_length_iff_exists.mpr
          exact ⟨d, List.mem_filter.mpr ⟨hd, hdrep⟩, by simp⟩
        obtain ⟨s'', hrun, hprompt⟩ := ih _ hless hsteady (hr.pc.trans hpc)
          (hr.handler.trans hbusy) (by rw [hr.flag, hflag, Bool.true_or]) rfl
        exact ⟨s'', (ownRun_one rfl hs).trans hrun, hprompt⟩
      · have hreturn :
            s.step .handlerReturn = some { s with handler := none, blocked := saved } := by
          have hnone : ¬s.children.any Child.reportable = true := by
            simpa using hnews
          simp only [Tsh.step, if_neg hover, hbusy, if_neg hnone]
        obtain ⟨s', hrun, hprompt⟩ := wakes (s := { s with handler := none, blocked := saved })
          hpc rfl hflag
        exact ⟨s', (ownRun_one rfl hreturn).trans hrun, hprompt⟩

theorem child_eq {d : Child} (h : Steady s) (hc : c ∈ s.children) (hd : d ∈ s.children)
    (hpid : c.pid = d.pid) : c = d :=
  List.inj_on_of_nodup_map h.base.table.nodup hc hd hpid

theorem foreground_child (h : Steady s) (hfg : (s.table.jobs i).state = .fg) :
    ∃ c ∈ s.children, c.pid = (s.table.jobs i).pid := by
  rcases h.base.table.entries i with hclear | hmem
  · rw [hclear] at hfg
    cases hfg
  · exact List.mem_map.mp hmem

theorem notice (h : Steady s) (hpc : s.pc = .suspended mask) (hbusy : s.handler = some saved)
    (hone : OneFg s.table.jobs s.flag pid) (hc : c ∈ s.children) (hpid : c.pid = pid)
    (hrep : c.reportable) : ∃ s', OwnRun s s' ∧ s'.pc = .prompt := by
  obtain ⟨d, i, s', -, -, hd, hr, hs, hsteady⟩ := h.turn hpc hbusy hc hrep
  have hflag : s'.flag = true := by
    rw [hr.flag, hone.fgpid_eq, hd, hpid]
    simp
  obtain ⟨s'', hrun, hprompt⟩ := hsteady.drain (hr.pc.trans hpc) (hr.handler.trans hbusy) hflag
  exact ⟨s'', (ownRun_one rfl hs).trans hrun, hprompt⟩

/-- A job in the foreground that does not run is about to be reported. -/
theorem reportable_foreground (h : Steady s) (hquiet : ¬FgRuns s)
    (hfg : (s.table.jobs i).state = .fg) :
    ∃ c ∈ s.children, c.pid = (s.table.jobs i).pid ∧ c.reportable := by
  obtain ⟨c, hc, hpid⟩ := h.foreground_child hfg
  refine ⟨c, hc, hpid, ?_⟩
  cases hproc : c.proc with
  | running => exact absurd ⟨i, hfg, c, hc, hpid, hproc⟩ hquiet
  | zombie how => simp [Child.reportable, hproc]
  | stopped reported =>
      cases reported with
      | false => simp [Child.reportable, hproc]
      | true => exact absurd hpid.symm ((h.waking.unreported c hc hproc).2 i hfg)

theorem returns (h : Steady s) (hpc : s.pc = .suspended mask) (hquiet : ¬FgRuns s) :
    ∃ s', OwnRun s s' ∧ s'.pc = .prompt := by
  have hover := live_of_suspended hpc
  have hwaits : FgOk s.table.jobs s.flag (.suspended mask) := hpc ▸ h.foreground
  have hattended : Attended s.table.jobs s.flag (.suspended mask) := hpc ▸ h.waking.attended
  rcases hwaits with hnone | ⟨pid, hone⟩
  · have hflag : s.flag = true := hattended hnone
    cases hh : s.handler with
    | some saved => exact h.drain hpc hh hflag
    | none => exact wakes hpc hh hflag
  · obtain ⟨hflag, i, hfg, hi, -⟩ := id hone
    obtain ⟨c, hc, hpid, hrep⟩ := h.reportable_foreground hquiet hfg
    cases hh : s.handler with
    | some saved => exact h.notice hpc hh hone hc (hpid.trans hi) hrep
    | none =>
        have hpending : s.pending = true := by
          simpa [hh] using h.waking.announced c hc hrep
        have hblocked : s.blocked = ∅ := by
          simpa [hh] using h.waking.unblocked mask hpc
        have hs : s.step .deliver = some { s with
            handler := some s.blocked, blocked := insert sigchld s.blocked, pending := false } := by
          simp [Tsh.step, hover, hh, hpending, hblocked]
        have hsteady := h.own_step (by rw [hpc]; nofun) rfl hs
        obtain ⟨s', hrun, hprompt⟩ := hsteady.notice hpc rfl hone hc (hpid.trans hi) hrep
        exact ⟨s', (ownRun_one rfl hs).trans hrun, hprompt⟩

end Steady

/-! ## Not before -/

/-- `waitfg` has looked the job up and not returned. -/
def At.waiting : At → Bool
  | .loop => true
  | .suspended _ => true
  | _ => false

namespace Steady

theorem unflagged (h : Steady s) (hpc : s.pc.waiting) (hruns : FgRuns s) :
    ∃ pid, OneFg s.table.jobs s.flag pid := by
  obtain ⟨i, hi, -⟩ := hruns
  have hfg := h.foreground
  cases hs : s.pc <;> simp only [hs, At.waiting, Bool.false_eq_true] at hpc
  all_goals
    rw [hs] at hfg
    exact hfg.resolve_left fun hn => hn i hi

theorem waits_reap (h : Steady s) (hruns : FgRuns s) (hpc : s.pc.waiting)
    (hover : s.pc.over = false) (hbusy : s.handler = some saved) (hc : c ∈ s.children)
    (hrep : c.reportable) :
    FgRuns ((s.collect c).handle c) ∧ ((s.collect c).handle c).pc.waiting := by
  obtain ⟨i, hr⟩ := h.tracked.reaped h.base hover hbusy hc hrep
  obtain ⟨k, hk, d, hd, hpid, hproc⟩ := hruns
  have hne : d.pid ≠ c.pid := by
    intro hsame
    rw [← h.child_eq hd hc hsame, Child.reportable, hproc] at hrep
    cases hrep
  have hki : k ≠ i := by
    rintro rfl
    exact hne (hpid.trans hr.entry)
  generalize (s.collect c).handle c = s' at hr
  refine ⟨⟨k, ?_, d, ?_, ?_, hproc⟩, by rwa [hr.pc]⟩
  · rw [hr.others k hki, hk]
  · rw [hr.children]
    exact mem_collect_of_ne hd hne
  · rw [hr.others k hki, hpid]

theorem waits (h : Steady s) (hruns : FgRuns s) (hpc : s.pc.waiting) (hown : e.own)
    (hs : s.step e = some s') : FgRuns s' ∧ s'.pc.waiting := by
  obtain ⟨pid, hone⟩ := h.unflagged hpc hruns
  obtain ⟨hover, hmoves⟩ := moves_of_step hs
  cases hmoves with
  | read line idle pc => cases hown
  | forked pid line idle pc pos fresh => cases hown
  | child pid event proc => cases hown
  | advance _ idle next =>
      cases hat : s.pc <;> simp only [hat, At.waiting, Bool.false_eq_true] at hpc
      · rw [hat] at next
        simp only [Tsh.advance, hone.1, Bool.false_eq_true, if_false] at next
        cases next
        exact ⟨hruns, rfl⟩
      · rw [hat] at next
        cases next
  | wake mask idle pc => exact ⟨hruns, rfl⟩
  | deliver idle pending unblocked => exact ⟨hruns, hpc⟩
  | reap c saved busy mem reportable => exact h.waits_reap hruns hpc hover busy mem reportable
  | handlerReturn saved busy => exact ⟨hruns, hpc⟩

theorem waits_of_run (h : Steady s) (hruns : FgRuns s) (hpc : s.pc.waiting) (hrun : OwnRun s s') :
    s'.pc.waiting := by
  have hall : Steady s' ∧ FgRuns s' ∧ s'.pc.waiting := by
    apply hrun.invariant fun s => Steady s ∧ FgRuns s ∧ s.pc.waiting
    · exact ⟨h, hruns, hpc⟩
    · rintro s e s' ⟨h, hruns, hpc⟩ hown hs
      refine ⟨h.own_step ?_ hown hs, h.waits hruns hpc hown hs⟩
      intro line pid hadd
      rw [hadd] at hpc
      cases hpc
  exact hall.2.2

end Steady

/-- In `sigsuspend` the shell is about to come back to its prompt exactly when
no job runs in the foreground: no news of the job is lost, and no other news
ends the wait. -/
theorem waitfg_returns_iff
    (hrun : Run Tsh.step (fun s e => HasRoom s e ∧ NoFgByPid s e) (init blocked) s)
    (hpc : s.pc = .suspended mask) :
    (∃ s', Run Tsh.step (fun _ e => e.own) s s' ∧ s'.pc = .prompt) ↔ ¬FgRuns s := by
  have hsteady := Steady.of_run hrun
  constructor
  · rintro ⟨s', hown, hprompt⟩ hruns
    have hwaits := hsteady.waits_of_run hruns (by rw [hpc]; rfl) hown
    rw [hprompt] at hwaits
    cases hwaits
  · exact hsteady.returns hpc

theorem waitfg_returns_iff_launch :
    ∃ s : Tsh, FgRuns s ∧
      ((∃ s', Run Tsh.step (fun _ e => e.own) s s' ∧ s'.pc = .prompt) ↔ ¬FgRuns s) := by
  have hread : Run Tsh.step (fun s e => HasRoom s e ∧ NoFgByPid s e) (init ∅)
      { init ∅ with pc := .block (launchLine false) } :=
    Run.start.next (a := .read (launchLine false)) ⟨nofun, noFgByPid_launch _ _⟩ rfl
  have hfork := hread.next (a := .advance) ⟨nofun, nofun⟩ rfl
  have hclear := hfork.next (a := .forked 100) ⟨nofun, nofun⟩ rfl
  have hadd := hclear.next (a := .advance) ⟨nofun, nofun⟩ rfl
  have hunblock := hadd.next (a := .advance) ⟨fun _ _ _ _ => ⟨0, rfl⟩, nofun⟩ rfl
  have hwaitfg := hunblock.next (a := .advance) ⟨nofun, nofun⟩ rfl
  have hloop := hwaitfg.next (a := .advance) ⟨nofun, nofun⟩ rfl
  have hwaiting := hloop.next (a := .advance) ⟨nofun, nofun⟩ rfl
  exact ⟨_, ⟨0, rfl, ⟨100, .running⟩, by simp, rfl, rfl⟩, waitfg_returns_iff hwaiting rfl⟩

end CsappLabs.Shell
