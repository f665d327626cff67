import CsappLabs.Shell.Tracking

/-!
# The foreground job

At most one job is in the foreground, and none while the shell waits for a
command line, as long as no `fg` command names a job by its pid.  Such a
command marks the job and then waits for the process -1, which has no entry.
-/

namespace CsappLabs.Shell

open CsappLabs.Foundation

variable {s s' : Tsh} {e : Event} {line : Line} {i j : Fin maxJobs} {pid : Int} {blocked : Sigset}
  {jobs : Jobs}

/-- "At most 1 job can be in the FG state", and none at the prompt. -/
structure Disciplined (s : Tsh) : Prop where
  atMostOne : ∀ i j, (s.table.jobs i).state = .fg → (s.table.jobs j).state = .fg → i = j
  prompt : s.pc = .prompt → ∀ i, (s.table.jobs i).state ≠ .fg

def FgByPid (jobs : Jobs) (line : Line) : Prop :=
  ∃ command rest c text, line.argv = fgName :: command :: rest ∧ command.bytes = c :: text ∧
    isdigit c ∧ (getjobpid jobs (atoi command.bytes)).isSome

def NoFgByPid (s : Tsh) (e : Event) : Prop :=
  ∀ line, e = .read line → ¬FgByPid s.table.jobs line

/-- `do_bgfg` waits for the job that it marks, unless the job is named by its
pid. -/
theorem curPid_cases {name : CString} {rest : List CString} {curPid : Int}
    (h : bgfgJob jobs (name :: rest) = .ok (i, curPid)) :
    curPid = (jobs i).pid ∨ ∃ command rest' c text, rest = command :: rest' ∧
      command.bytes = c :: text ∧ isdigit c ∧ (getjobpid jobs (atoi command.bytes)).isSome := by
  cases rest with
  | nil => cases h
  | cons command rest =>
      simp only [bgfgJob, List.getElem?_cons_succ, List.getElem?_cons_zero] at h
      split at h
      · split at h
        · cases h
        · cases h
          exact .inl rfl
      · next c text _ hbytes =>
          split at h
          · next hdigit =>
              split at h
              · cases h
              · next hfound =>
                  exact .inr ⟨command, rest, c, text, rfl, hbytes, hdigit, by rw [hfound]; rfl⟩
          · cases h
      · cases h

/-! ## The invariant -/

def NoFg (jobs : Jobs) : Prop := ∀ i, (jobs i).state ≠ .fg

/-- There is one job in the foreground, and it has not changed yet. -/
def OneFg (jobs : Jobs) (flag : Bool) (pid : Int) : Prop :=
  flag = false ∧ ∃ i, (jobs i).state = .fg ∧ (jobs i).pid = pid ∧ ∀ j, (jobs j).state = .fg → j = i

/-- What holds of the foreground job at each place of the main flow. -/
def FgOk (jobs : Jobs) (flag : Bool) : At → Prop
  | .add line _ => NoFg jobs ∧ (line.bg = false → flag = false)
  | .unblock line pid => NoFg jobs ∨ line.bg = false ∧ OneFg jobs flag pid
  | .cont bg i curPid => NoFg jobs ∧ (bg = false → curPid = (jobs i).pid)
  | .clearFg i curPid => NoFg jobs ∧ curPid = (jobs i).pid
  | .foreground i curPid => NoFg jobs ∧ curPid = (jobs i).pid ∧ flag = false
  | .waitfg pid => NoFg jobs ∨ OneFg jobs flag pid
  | .loop => NoFg jobs ∨ ∃ pid, OneFg jobs flag pid
  | .suspended _ => NoFg jobs ∨ ∃ pid, OneFg jobs flag pid
  | .failed => ∀ i j, (jobs i).state = .fg → (jobs j).state = .fg → i = j
  | _ => NoFg jobs

theorem FgOk.disciplined (h : FgOk s.table.jobs s.flag s.pc) : Disciplined s := by
  have hnone : NoFg s.table.jobs → Disciplined s := fun hn =>
    ⟨fun i _ hi => absurd hi (hn i), fun _ => hn⟩
  have hone : ∀ pid, s.pc ≠ .prompt → OneFg s.table.jobs s.flag pid → Disciplined s := by
    rintro pid hpc ⟨-, k, -, -, hk⟩
    exact ⟨fun i j hi hj => (hk i hi).trans (hk j hj).symm, fun hp => absurd hp hpc⟩
  cases hpc : s.pc with
  | add line pid => rw [hpc] at h; exact hnone h.1
  | cont bg i curPid => rw [hpc] at h; exact hnone h.1
  | clearFg i curPid => rw [hpc] at h; exact hnone h.1
  | foreground i curPid => rw [hpc] at h; exact hnone h.1
  | unblock line pid =>
      rw [hpc] at h
      cases h with
      | inl hn => exact hnone hn
      | inr ho => exact hone pid (by rw [hpc]; nofun) ho.2
  | waitfg pid =>
      rw [hpc] at h
      cases h with
      | inl hn => exact hnone hn
      | inr ho => exact hone pid (by rw [hpc]; nofun) ho
  | loop =>
      rw [hpc] at h
      cases h with
      | inl hn => exact hnone hn
      | inr ho => exact hone ho.choose (by rw [hpc]; nofun) ho.choose_spec
  | suspended mask =>
      rw [hpc] at h
      cases h with
      | inl hn => exact hnone hn
      | inr ho => exact hone ho.choose (by rw [hpc]; nofun) ho.choose_spec
  | failed =>
      rw [hpc] at h
      exact ⟨h, fun hp => by rw [hpc] at hp; cases hp⟩
  | prompt => rw [hpc] at h; exact hnone h
  | block line => rw [hpc] at h; exact hnone h
  | fork line => rw [hpc] at h; exact hnone h
  | clear line pid => rw [hpc] at h; exact hnone h
  | background i => rw [hpc] at h; exact hnone h
  | exited => rw [hpc] at h; exact hnone h

theorem NoFg.setState (h : NoFg jobs) (i : Fin maxJobs) {state : JobState} (hs : state ≠ .fg) :
    NoFg (setState jobs i state) := by
  intro j
  rw [setState_state]
  split
  · exact hs
  · exact h j

theorem NoFg.update (h : NoFg jobs) (i : Fin maxJobs) {job : Job} (hs : job.state ≠ .fg) :
    NoFg (Function.update jobs i job) := by
  intro j
  by_cases hj : j = i
  · rwa [hj, Function.update_self]
  · rw [Function.update_of_ne hj]
    exact h j

theorem NoFg.oneFg (h : NoFg jobs) (i : Fin maxJobs) {job : Job} (hs : job.state = .fg) :
    OneFg (Function.update jobs i job) false job.pid := by
  refine ⟨rfl, i, by rw [Function.update_self, hs], by rw [Function.update_self], fun j hj => ?_⟩
  by_contra hji
  rw [Function.update_of_ne hji] at hj
  exact h j hj

theorem OneFg.found {flag : Bool} {pids : List Int} (h : OneFg jobs flag pid)
    (ht : TableOk jobs pids) : 1 ≤ pid ∧ getjobpid jobs pid ≠ none := by
  obtain ⟨-, i, hi, hpid, -⟩ := h
  have hmem : (jobs i).pid ∈ pids := by
    cases ht.entries i with
    | inl hclear =>
        rw [hclear] at hi
        cases hi
    | inr hmem => exact hmem
  have hpos := ht.pos _ hmem
  rw [hpid] at hpos
  exact ⟨hpos, fun hnone => (getjobpid_none hpos).mp hnone i hpid⟩

theorem FgOk.add (h : FgOk s.table.jobs s.flag (.add line pid)) (hpos : 0 < pid)
    (hs : s.advance (.add line pid) = some s') : FgOk s'.table.jobs s'.flag s'.pc := by
  cases addjob_cases s.table hpos (if line.bg then .bg else .fg) line.cmdline with
  | inl hfree =>
      obtain ⟨i, next, -, heq⟩ := hfree
      simp only [Tsh.advance, heq, Option.some.injEq] at hs
      subst hs
      cases hbg : line.bg with
      | true => exact .inl (h.1.update i (by simp))
      | false =>
          right
          refine ⟨hbg, ?_⟩
          show OneFg _ s.flag pid
          rw [h.2 hbg]
          exact h.1.oneFg i (by simp)
  | inr hfull =>
      simp only [Tsh.advance, hfull.2, Option.some.injEq] at hs
      subst hs
      exact .inl h.1

theorem FgOk.unblock (h : FgOk s.table.jobs s.flag (.unblock line pid))
    (hs : s.advance (.unblock line pid) = some s') : FgOk s'.table.jobs s'.flag s'.pc := by
  cases hs
  cases hbg : line.bg with
  | true =>
      cases h with
      | inl hn => exact hn
      | inr ho =>
          rw [hbg] at ho
          cases ho.1
  | false =>
      cases h with
      | inl hn => exact .inl hn
      | inr ho => exact .inr ho.2

theorem FgOk.foreground {curPid : Int}
    (h : FgOk s.table.jobs s.flag (.foreground i curPid))
    (hs : s.advance (.foreground i curPid) = some s') :
    FgOk s'.table.jobs s'.flag s'.pc := by
  cases hs
  obtain ⟨hn, rfl, hflag⟩ := h
  right
  show OneFg _ s.flag _
  rw [hflag]
  exact hn.oneFg i (show ({ s.table.jobs i with state := .fg } : Job).state = .fg from rfl)

/-- `waitfg` ends without waiting only when there is no job to wait for. -/
theorem FgOk.waitfg (h : FgOk s.table.jobs s.flag (.waitfg pid)) (hb : Base s)
    (hs : s.advance (.waitfg pid) = some s') : FgOk s'.table.jobs s'.flag s'.pc := by
  simp only [Tsh.advance] at hs
  split at hs
  · next hzero =>
      cases hs
      cases h with
      | inl hn => exact hn
      | inr ho =>
          obtain ⟨hpos, -⟩ := ho.found hb.table
          omega
  · split at hs
    · next hnone =>
        cases hs
        cases h with
        | inl hn => exact hn
        | inr ho => exact absurd hnone (ho.found hb.table).2
    · cases hs
      cases h with
      | inl hn => exact .inl hn
      | inr ho => exact .inr ⟨pid, ho⟩

/-- The flag is set only when the job is no longer in the foreground. -/
theorem FgOk.loop (h : FgOk s.table.jobs s.flag .loop) (hs : s.advance .loop = some s') :
    FgOk s'.table.jobs s'.flag s'.pc := by
  simp only [Tsh.advance] at hs
  split at hs
  · next hflag =>
      cases hs
      cases h with
      | inl hn => exact hn
      | inr ho =>
          obtain ⟨pid, ho⟩ := ho
          rw [ho.1] at hflag
          cases hflag
  · cases hs
    exact h

theorem FgOk.advance (h : FgOk s.table.jobs s.flag s.pc) (hb : Base s)
    (hs : s.advance s.pc = some s') : FgOk s'.table.jobs s'.flag s'.pc := by
  have hadding := hb.adding
  generalize s.pc = pc at h hs hadding
  cases pc with
  | prompt => cases hs
  | fork line => cases hs
  | suspended mask => cases hs
  | exited => cases hs
  | failed => cases hs
  | block line =>
      cases hs
      exact h
  | clear line pid =>
      cases hs
      exact ⟨h, fun _ => rfl⟩
  | add line pid => exact h.add (hb.table.pos pid (hadding pid rfl).1) hs
  | unblock line pid => exact h.unblock hs
  | cont bg i curPid =>
      cases hs
      cases bg with
      | true => exact h.1
      | false => exact ⟨h.1, h.2 rfl⟩
  | background i =>
      cases hs
      exact NoFg.setState h i (by simp)
  | clearFg i curPid =>
      cases hs
      exact ⟨h.1, h.2, rfl⟩
  | foreground i curPid => exact h.foreground hs
  | waitfg pid => exact h.waitfg hb hs
  | loop => exact h.loop hs

theorem FgOk.read (h : FgOk s.table.jobs s.flag s.pc) (hpc : s.pc = .prompt)
    (hok : ¬FgByPid s.table.jobs line) :
    FgOk (s.read line).table.jobs (s.read line).flag (s.read line).pc := by
  have hn : NoFg s.table.jobs := by
    rw [hpc] at h
    exact h
  rcases read_cases s line with ⟨-, he⟩ | ⟨-, he⟩ | ⟨-, he⟩ | ⟨name, rest, i, curPid, -, hargv, hname, hjob, he⟩
  · rwa [he]
  · rw [he]
    exact hn
  · rw [he]
    exact hn
  · rw [he]
    refine ⟨hn, fun hbg => ?_⟩
    have hfg : name = fgName := by
      cases hname with
      | inl hfg => exact hfg
      | inr hb => simp [hb] at hbg
    rw [hargv] at hjob
    cases curPid_cases hjob with
    | inl hcur => exact hcur
    | inr hpid =>
        obtain ⟨command, rest', c, text, rfl, hbytes, hdigit, hfound⟩ := hpid
        exact absurd ⟨command, rest', c, text, by rw [hargv, hfg], hbytes, hdigit, hfound⟩ hok

theorem FgOk.reap {c : Child} (h : FgOk s.table.jobs s.flag s.pc) (hb : Base s)
    (hover : s.pc.over = false) {saved : Sigset} (hbusy : s.handler = some saved)
    (hc : c ∈ s.children) (hrep : c.reportable) :
    FgOk ((s.collect c).handle c).table.jobs ((s.collect c).handle c).flag
      ((s.collect c).handle c).pc := by
  obtain ⟨mask, hpc⟩ := hb.suspended_of_reap hover hbusy hc
  have hmem : c.pid ∈ s.pids := List.mem_map_of_mem hc
  rw [hpc] at h
  obtain ⟨htable, hpc', -, hflag⟩ := Base.collect_same s c
  have hhandled := handled (s.collect c) (hb.table.pos _ hmem) hrep
  generalize s.collect c = t at htable hpc' hflag hhandled ⊢
  generalize t.handle c = t' at hhandled ⊢
  rw [hpc] at hpc'
  -- the entry of the child is changed to a job that is not in the foreground
  have hchange : ∀ i jobs', (s.table.jobs i).pid = c.pid → (jobs' i).state ≠ .fg →
      (∀ j, j ≠ i → jobs' j = s.table.jobs j) →
      NoFg jobs' ∨ ∃ pid, OneFg jobs' (s.flag || decide (c.pid = fgpid s.table.jobs)) pid := by
    intro i jobs' hi hnew hold
    have hnone : NoFg s.table.jobs → NoFg jobs' := by
      intro hn j
      by_cases hj : j = i
      · rwa [hj]
      · rw [hold j hj]
        exact hn j
    cases h with
    | inl hn => exact .inl (hnone hn)
    | inr ho =>
        obtain ⟨pid, hfalse, k, hk, hkpid, hall⟩ := ho
        by_cases hki : k = i
        · left
          intro j hj
          by_cases hji : j = i
          · rw [hji] at hj
            exact hnew hj
          · rw [hold j hji] at hj
            exact hji ((hall j hj).trans hki)
        · right
          have hfgpid : c.pid ≠ fgpid s.table.jobs := by
            cases fgpid_cases s.table.jobs with
            | inl hzero => exact absurd hk (hzero.2 k)
            | inr hfound =>
                obtain ⟨m, hm, heq⟩ := hfound
                rw [heq, hall m hm]
                exact fun he => hki (hb.table.eq_of_pid hmem he.symm hi)
          refine ⟨pid, by simp [hfalse, hfgpid], k, by rw [hold k hki, hk], by rw [hold k hki, hkpid],
            fun j hj => ?_⟩
          by_cases hji : j = i
          · rw [hji] at hj
            exact absurd hj hnew
          · rw [hold j hji] at hj
            exact hall j hj
  cases hhandled with
  | lost flag none =>
      rw [htable] at none
      show ∀ i j, (t.table.jobs i).state = .fg → (t.table.jobs j).state = .fg → i = j
      rw [htable]
      cases h with
      | inl hn => exact fun i _ hi => absurd hi (hn i)
      | inr ho =>
          obtain ⟨pid, -, k, -, -, hall⟩ := ho
          exact fun i j hi hj => (hall i hi).trans (hall j hj).symm
  | ended how i next proc entry =>
      simp only [hpc', hflag, htable] at entry ⊢
      apply hchange i _ entry
      · rw [Function.update_self]
        nofun
      · exact fun j hj => Function.update_of_ne hj _ _
  | stopped i entry proc =>
      simp only [hpc', hflag, htable] at entry ⊢
      apply hchange i _ entry
      · rw [setState_state, if_pos rfl]
        nofun
      · exact fun j hj => setState_of_ne _ _ hj

theorem FgOk.step (h : FgOk s.table.jobs s.flag s.pc) (hb : Base s) (hok : NoFgByPid s e)
    (hs : s.step e = some s') : FgOk s'.table.jobs s'.flag s'.pc := by
  obtain ⟨hover, hmoves⟩ := moves_of_step hs
  cases hmoves with
  | read line idle pc => exact h.read pc (hok line rfl)
  | advance _ idle next => exact h.advance hb next
  | forked pid line idle pc pos fresh =>
      rw [pc] at h
      cases hbg : line.bg with
      | true => exact ⟨h, fun hf => by rw [hbg] at hf; cases hf⟩
      | false => exact h
  | wake mask idle pc =>
      rw [pc] at h
      exact h
  | deliver idle pending unblocked => exact h
  | reap c saved busy mem reportable => exact h.reap hb hover busy mem reportable
  | handlerReturn saved busy => exact h
  | child pid event proc => exact h

theorem bgfgJob_of_pid (hline : FgByPid jobs line) :
    ∃ i, bgfgJob jobs line.argv = .ok (i, -1) := by
  obtain ⟨command, rest, c, text, hargv, hbytes, hdigit, hfound⟩ := hline
  obtain ⟨i, hi⟩ := Option.isSome_iff_exists.mp hfound
  have hc : c ≠ 37 := by
    rintro rfl
    revert hdigit
    decide
  refine ⟨i, ?_⟩
  simp only [hargv, bgfgJob, List.getElem?_cons_succ, List.getElem?_cons_zero]
  split
  · next rest' he =>
      rw [hbytes] at he
      exact absurd (List.cons.inj he).1 hc
  · next c' text' _ he =>
      rw [hbytes] at he
      obtain ⟨rfl, -⟩ := List.cons.inj he
      rw [if_pos hdigit, hi]
  · next he =>
      rw [hbytes] at he
      cases he

theorem step_advance (hidle : s.handler = none) (hover : s.pc.over = false) :
    s.step .advance = s.advance s.pc := by
  unfold Tsh.step
  simp only [hidle, hover]
  rfl

/-- After `fg` with the pid of a job the shell is at its prompt with the job in
the foreground. -/
theorem fg_by_pid (hpc : s.pc = .prompt) (hidle : s.handler = none)
    (hline : FgByPid s.table.jobs line) :
    ∃ s₁ s', s.step (.read line) = some s₁ ∧ Run Tsh.step (fun _ _ => True) s₁ s' ∧
      ¬Disciplined s' := by
  obtain ⟨i, hjob⟩ := bgfgJob_of_pid hline
  have hread : s.step (.read line) = some { s with pc := .cont false i (-1) } := by
    obtain ⟨command, rest, c, text, hargv, -⟩ := hline
    have he : s.read line = { s with pc := .cont false i (-1) } := by
      rw [hargv] at hjob
      simp only [Tsh.read, hargv, hjob]
      rfl
    unfold Tsh.step
    simp only [hpc, hidle, he]
    rfl
  have hcont : Run Tsh.step (fun _ _ => True) { s with pc := .cont false i (-1) }
      { s.continueGroup (-1) with pc := .clearFg i (-1) } :=
    Run.start.next (a := .advance) trivial (step_advance hidle rfl)
  have hclear : Run Tsh.step (fun _ _ => True) { s with pc := .cont false i (-1) }
      { s.continueGroup (-1) with flag := false, pc := .foreground i (-1) } :=
    hcont.next (a := .advance) trivial (step_advance (by exact hidle) rfl)
  have hmark : Run Tsh.step (fun _ _ => True) { s with pc := .cont false i (-1) }
      { s.continueGroup (-1) with
        flag := false
        table := { s.table with jobs := setState s.table.jobs i .fg }
        pc := .waitfg (-1) } :=
    hclear.next (a := .advance) trivial (step_advance (by exact hidle) rfl)
  have hwait : Run Tsh.step (fun _ _ => True) { s with pc := .cont false i (-1) }
      { s.continueGroup (-1) with
        flag := false
        table := { s.table with jobs := setState s.table.jobs i .fg }
        pc := .prompt } :=
    hmark.next (a := .advance) trivial (step_advance (by exact hidle) rfl)
  refine ⟨_, _, hread, hwait, fun hd => hd.prompt rfl i ?_⟩
  show (setState s.table.jobs i .fg i).state = .fg
  rw [setState_state, if_pos rfl]

/-- The foreground discipline holds in every run in which no `fg` command names
a job by its pid, and such a command breaks it. -/
theorem disciplined_of_run (hrun : Run Tsh.step NoFgByPid (init blocked) s) :
    Disciplined s ∧ ∀ line, s.pc = .prompt → s.handler = none → FgByPid s.table.jobs line →
      ∃ s₁ s', s.step (.read line) = some s₁ ∧ Run Tsh.step (fun _ _ => True) s₁ s' ∧
        ¬Disciplined s' := by
  have hboth : Base s ∧ FgOk s.table.jobs s.flag s.pc := by
    apply hrun.invariant fun s => Base s ∧ FgOk s.table.jobs s.flag s.pc
    · exact ⟨Base.init blocked, nofun⟩
    · rintro s e s' ⟨h, hfg⟩ hok hs
      exact ⟨h.step hs, hfg.step h hok hs⟩
  exact ⟨hboth.2.disciplined, fun line hpc hidle hline => fg_by_pid hpc hidle hline⟩

theorem noFgByPid_launch (s : Tsh) (bg : Bool) : NoFgByPid s (.read (launchLine bg)) := by
  rintro line he ⟨command, rest, c, text, hargv, -⟩
  cases he
  cases hargv

theorem disciplined_of_run_launch :
    ∃ s : Tsh, (∃ i, (s.table.jobs i).state = .fg) ∧ Disciplined s ∧
      ∀ line, s.pc = .prompt → s.handler = none → FgByPid s.table.jobs line →
        ∃ s₁ s', s.step (.read line) = some s₁ ∧ Run Tsh.step (fun _ _ => True) s₁ s' ∧
          ¬Disciplined s' := by
  have hread : Run Tsh.step NoFgByPid (init ∅) { init ∅ with pc := .block (launchLine false) } :=
    Run.start.next (a := .read (launchLine false)) (noFgByPid_launch _ _) rfl
  have hfork := hread.next (a := .advance) nofun rfl
  have hclear := hfork.next (a := .forked 100) nofun rfl
  have hadd := hclear.next (a := .advance) nofun rfl
  have hdone := hadd.next (a := .advance) nofun rfl
  exact ⟨_, ⟨0, rfl⟩, disciplined_of_run hdone⟩

def fgHundred : Line :=
  ⟨⟨[102, 103, 32, 49, 48, 48], by decide⟩, [fgName, ⟨[49, 48, 48], by decide⟩], false⟩

/-- A job is started in the background and then named by its pid. -/
theorem foreground_at_prompt :
    ¬∀ blocked s, Run Tsh.step HasRoom (init blocked) s → Disciplined s := by
  intro hall
  have hread : Run Tsh.step HasRoom (init ∅) { init ∅ with pc := .block (launchLine true) } :=
    Run.start.next (a := .read (launchLine true)) nofun rfl
  have hfork := hread.next (a := .advance) nofun rfl
  have hadd := hfork.next (a := .forked 100) nofun rfl
  have hunblock := hadd.next (a := .advance) (fun _ _ _ _ => ⟨0, rfl⟩) rfl
  have hprompt := hunblock.next (a := .advance) nofun rfl
  have hfg := hprompt.next (a := .read fgHundred) nofun rfl
  have hcont := hfg.next (a := .advance) nofun rfl
  have hclear := hcont.next (a := .advance) nofun rfl
  have hmark := hclear.next (a := .advance) nofun rfl
  have hwait := hmark.next (a := .advance) nofun rfl
  exact (hall ∅ _ hwait).prompt rfl 0 rfl

end CsappLabs.Shell
